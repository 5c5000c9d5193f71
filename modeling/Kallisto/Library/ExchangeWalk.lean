import Mathlib.Algebra.Order.Ring.Nat
import Mathlib.Logic.Function.Basic

/-! # Exchange walks

An item is carried along a row of places. In every round it picks a place and trades
with the item that lies there, which is then carried on. -/

namespace ExchangeWalk

variable {ι α : Type*} [DecidableEq ι] (pick : α → ℕ → ι)

/-- The row and the carried item after the given number of rounds, the first of which
has number `i`. -/
def walk : ℕ → ℕ → (ι → α) × α → (ι → α) × α
  | 0, _, s => s
  | n + 1, i, s => walk n (i + 1) (Function.update s.1 (pick s.2 i) s.2, s.1 (pick s.2 i))

variable {pick}

theorem walk_add (m n : ℕ) : ∀ (i : ℕ) (s : (ι → α) × α),
    walk pick (m + n) i s = walk pick n (i + m) (walk pick m i s) := by
  induction m with
  | zero =>
    intro i s
    rw [Nat.zero_add]
    rfl
  | succ m ih =>
    intro i s
    rw [Nat.add_right_comm, walk, walk, ih, Nat.add_right_comm, Nat.add_assoc]

/-- Only the picks of the items at hand matter. -/
theorem walk_congr {pick' : α → ℕ → ι} {P : α → Prop} (hpick : ∀ a, P a → pick a = pick' a)
    (n : ℕ) : ∀ (i : ℕ) (s : (ι → α) × α), P s.2 → (∀ p, P (s.1 p)) →
    walk pick n i s = walk pick' n i s := by
  induction n with
  | zero => exact fun _ _ _ _ => rfl
  | succ n ih =>
    intro i s hcarried hrow
    rw [walk, walk, ← hpick s.2 hcarried]
    refine ih _ _ (hrow _) ?_
    intro p
    change P (Function.update s.1 (pick s.2 i) s.2 p)
    rw [Function.update_apply]
    split
    · exact hcarried
    · exact hrow p

/-- What is carried was carried at the start or lay in the row. -/
theorem walk_mem (n : ℕ) : ∀ (i : ℕ) (s : (ι → α) × α),
    (walk pick n i s).2 = s.2 ∨ ∃ p, (walk pick n i s).2 = s.1 p := by
  induction n with
  | zero => exact fun i s => Or.inl rfl
  | succ n ih =>
    intro i s
    rw [walk]
    rcases ih (i + 1) (Function.update s.1 (pick s.2 i) s.2, s.1 (pick s.2 i)) with
      hsame | ⟨p, hp⟩
    · exact Or.inr ⟨_, hsame⟩
    · by_cases hpick : p = pick s.2 i
      · subst hpick
        exact Or.inl (hp.trans (Function.update_self _ _ _))
      · exact Or.inr ⟨p, hp.trans (Function.update_of_ne hpick _ _)⟩

/-- An item that keeps trading with items that trade right back is carried every other
round. -/
theorem walk_back_and_forth (n : ℕ) : ∀ (i : ℕ) (row : ι → α) (a : α),
    (∀ m < n, pick (row (pick a (i + 2 * m))) (i + 2 * m + 1) = pick a (i + 2 * m)) →
    walk pick (2 * n) i (row, a) = (row, a) := by
  induction n with
  | zero => exact fun i row a _ => rfl
  | succ n ih =>
    intro i row a hback
    have hfirst : pick (row (pick a i)) (i + 1) = pick a i := hback 0 (Nat.zero_lt_succ n)
    have htwo : walk pick 2 i (row, a) = (row, a) := by
      simp only [walk, hfirst, Function.update_self, Function.update_idem,
        Function.update_eq_self]
    rw [Nat.mul_succ, Nat.add_comm, walk_add, htwo]
    refine ih (i + 2) row a ?_
    intro m hm
    have hlater := hback (m + 1) (Nat.succ_lt_succ hm)
    rwa [Nat.mul_succ, Nat.add_comm (2 * m) 2, ← Nat.add_assoc] at hlater

end ExchangeWalk
