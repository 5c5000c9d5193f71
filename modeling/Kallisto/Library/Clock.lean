import Mathlib.Algebra.Order.Ring.Nat
import Mathlib.Data.Nat.ModEq
import Mathlib.Logic.Function.Basic

/-! # The CLOCK algorithm

Second-chance replacement over a ring of `n` flags. A hand moves around the ring; a
set flag is cleared and passed over, and the first flag found cleared names the
victim. -/

namespace Clock

/-- The place a hand points at; a hand beyond the ring starts over. -/
def start (n hand : ℕ) : ℕ :=
  if hand ≥ n then 0 else hand

/-- The place `k` steps ahead of the hand. -/
def ahead (n hand k : ℕ) : ℕ :=
  (start n hand + k) % n

/-- A sweep of at most the given number of steps: the victim, the flags and the hand. -/
def sweep (n : ℕ) : ℕ → (ℕ → Bool) → ℕ → Option ℕ × (ℕ → Bool) × ℕ
  | 0, flag, hand => (none, flag, hand)
  | steps + 1, flag, hand =>
    if flag (start n hand) then
      sweep n steps (Function.update flag (start n hand) false) (start n hand + 1)
    else (some (start n hand), flag, start n hand + 1)

/-- The number of flags set in a row from the hand on, at most all of them. -/
def lead (n : ℕ) (flag : ℕ → Bool) (hand : ℕ) : ℕ :=
  (List.range n).findIdx fun k => !flag (ahead n hand k)

/-- The flags after the first `k` places ahead of the hand were passed over. -/
def cleared (n : ℕ) (flag : ℕ → Bool) (hand k : ℕ) (i : ℕ) : Bool :=
  flag i && decide (∀ j < k, ahead n hand j ≠ i)

section Ring

variable {n hand : ℕ}

theorem start_lt (hn : 0 < n) : start n hand < n := by
  unfold start
  split <;> omega

theorem ahead_lt (hn : 0 < n) (k : ℕ) : ahead n hand k < n :=
  Nat.mod_lt _ hn

theorem ahead_zero (hn : 0 < n) : ahead n hand 0 = start n hand :=
  Nat.mod_eq_of_lt (start_lt hn)

/-- Once around the ring the hand is back. -/
theorem ahead_self : ahead n hand n = ahead n hand 0 := by
  rw [ahead, Nat.add_mod_right]
  rfl

theorem ahead_inj {j k : ℕ} (hj : j < n) (hk : k < n) (he : ahead n hand j = ahead n hand k) :
    j = k := by
  have hmod : j ≡ k [MOD n] := Nat.ModEq.add_left_cancel' _ he
  exact hmod.eq_of_lt_of_lt hj hk

theorem exists_ahead (hand : ℕ) {i : ℕ} (hi : i < n) : ∃ k < n, ahead n hand k = i := by
  have hn : 0 < n := Nat.zero_lt_of_lt hi
  have hs : start n hand < n := start_lt hn
  rcases Nat.lt_or_ge i (start n hand) with hlt | hge
  · refine ⟨i + n - start n hand, by omega, ?_⟩
    rw [ahead, show start n hand + (i + n - start n hand) = i + n by omega, Nat.add_mod_right,
      Nat.mod_eq_of_lt hi]
  · refine ⟨i - start n hand, by omega, ?_⟩
    rw [ahead, Nat.add_sub_cancel' hge, Nat.mod_eq_of_lt hi]

/-- A hand just behind a place looks at the next one. -/
theorem start_succ {i : ℕ} (hi : i < n) : start n (i + 1) = (i + 1) % n := by
  unfold start
  split
  · have he : i + 1 = n := by omega
    rw [he, Nat.mod_self]
  · rw [Nat.mod_eq_of_lt (by omega)]

theorem ahead_succ (hn : 0 < n) (k : ℕ) :
    ahead n (start n hand + 1) k = ahead n hand (k + 1) := by
  rw [ahead, start_succ (start_lt hn), Nat.mod_add_mod, ahead]
  congr 1
  omega

end Ring

section Sweep

variable {n hand : ℕ} {flag : ℕ → Bool}

theorem cleared_succ (hn : 0 < n) (k : ℕ) :
    cleared n (Function.update flag (start n hand) false) (start n hand + 1) k =
      cleared n flag hand (k + 1) := by
  funext i
  have hsplit : (∀ j < k + 1, ahead n hand j ≠ i) ↔
      start n hand ≠ i ∧ ∀ j < k, ahead n hand (j + 1) ≠ i := by
    rw [← ahead_zero hn]
    exact Nat.forall_lt_succ_left
  simp only [cleared, ahead_succ hn, hsplit, Function.update_apply]
  by_cases hi : i = start n hand
  · simp [hi]
  · simp [hi, Ne.symm hi]

/-- A sweep passes over the flags set in a row from the hand on and stops behind them. -/
theorem sweep_eq (hn : 0 < n) : ∀ (k steps : ℕ) (flag : ℕ → Bool) (hand : ℕ), k ≤ n → k < steps →
    (∀ j < k, flag (ahead n hand j) = true) → (k < n → flag (ahead n hand k) = false) →
    sweep n steps flag hand =
      (some (ahead n hand k), cleared n flag hand k, ahead n hand k + 1) := by
  intro k
  induction k with
  | zero =>
    intro steps flag hand _ hsteps _ hstop
    obtain ⟨steps, rfl⟩ := Nat.exists_eq_succ_of_ne_zero hsteps.ne'
    have hclear : flag (start n hand) = false := by
      rw [← ahead_zero hn]
      exact hstop hn
    have hnone : cleared n flag hand 0 = flag := by
      funext i
      simp [cleared]
    rw [sweep, hclear, hnone, ahead_zero hn]
    rfl
  | succ k ih =>
    intro steps flag hand hk hsteps hset hstop
    obtain ⟨steps, rfl⟩ := Nat.exists_eq_succ_of_ne_zero (Nat.zero_lt_of_lt hsteps).ne'
    have hfirst : flag (start n hand) = true := by
      rw [← ahead_zero hn]
      exact hset 0 (Nat.zero_lt_succ k)
    have hne : ∀ j < k, ahead n hand (j + 1) ≠ start n hand := by
      intro j hj he
      rw [← ahead_zero hn] at he
      exact absurd (ahead_inj (by omega) hn he) (Nat.succ_ne_zero j)
    rw [sweep, if_pos hfirst, ih steps _ _ (by omega) (by omega), ahead_succ hn,
      cleared_succ hn]
    · intro j hj
      rw [ahead_succ hn, Function.update_of_ne (hne j hj)]
      exact hset (j + 1) (by omega)
    · intro _
      rw [ahead_succ hn, Function.update_apply]
      split
      · rfl
      · next hback =>
        -- Behind a full turn the hand is back at a flag it has cleared.
        refine hstop (lt_of_le_of_ne hk ?_)
        rintro rfl
        exact hback (ahead_self.trans (ahead_zero hn))

theorem lead_le : lead n flag hand ≤ n := by
  have hle : lead n flag hand ≤ (List.range n).length := List.findIdx_le_length
  rwa [List.length_range] at hle

theorem lead_set {j : ℕ} (hj : j < lead n flag hand) : flag (ahead n hand j) = true := by
  have hnot := List.not_of_lt_findIdx hj
  simpa using hnot

theorem lead_stop (hlt : lead n flag hand < n) :
    flag (ahead n hand (lead n flag hand)) = false := by
  have hlength : ((List.range n).findIdx fun k => !flag (ahead n hand k)) <
      (List.range n).length := by rwa [List.length_range]
  have hfound := List.findIdx_getElem (w := hlength)
  rw [List.getElem_range] at hfound
  simpa [lead] using hfound

/-- The sweep ends within one step more than the ring has places. -/
theorem sweep_lead (hn : 0 < n) {steps : ℕ} (hsteps : lead n flag hand < steps) :
    sweep n steps flag hand =
      (some (ahead n hand (lead n flag hand)), cleared n flag hand (lead n flag hand),
        ahead n hand (lead n flag hand) + 1) :=
  sweep_eq hn _ _ _ _ lead_le hsteps (fun _ => lead_set) lead_stop

/-- While some flag is cleared, the victim is one whose flag is. -/
theorem lead_lt {i : ℕ} (hi : i < n) (hclear : flag i = false) : lead n flag hand < n := by
  obtain ⟨k, hk, rfl⟩ := exists_ahead hand hi
  refine lt_of_le_of_lt (Nat.le_of_not_lt ?_) hk
  intro hlt
  rw [lead_set hlt] at hclear
  exact Bool.noConfusion hclear

end Sweep

/-! ## Histories -/

/-- What happens to a place of the ring: it is used, or the hand passes over it. -/
inductive Event where
  | used (i : ℕ)
  | passed (i : ℕ)
  deriving DecidableEq, Repr

/-- The flags after the events, the latest of which comes first. -/
def flagAfter (flag : ℕ → Bool) : List Event → ℕ → Bool
  | [] => flag
  | .used i :: events => Function.update (flagAfter flag events) i true
  | .passed i :: events => Function.update (flagAfter flag events) i false

/-- The place was used after the hand last passed over it. -/
def UsedSincePassed (events : List Event) (i : ℕ) : Prop :=
  ∃ later earlier, events = later ++ .used i :: earlier ∧ .passed i ∉ later

/-- The events of a sweep that passes over `k` places. -/
def passes (n hand k : ℕ) : List Event :=
  ((List.range k).map fun j => Event.passed (ahead n hand j)).reverse

section Histories

variable {flag : ℕ → Bool} {events : List Event} {i : ℕ}

theorem flagAfter_append (later earlier : List Event) :
    flagAfter flag (later ++ earlier) = flagAfter (flagAfter flag earlier) later := by
  induction later with
  | nil => rfl
  | cons e later ih =>
    cases e with
    | used i => rw [List.cons_append, flagAfter, flagAfter, ih]
    | passed i => rw [List.cons_append, flagAfter, flagAfter, ih]

theorem usedSincePassed_cons {e : Event} :
    UsedSincePassed (e :: events) i ↔ e = .used i ∨ (e ≠ .passed i ∧ UsedSincePassed events i) := by
  constructor
  · rintro ⟨later, earlier, heq, hnot⟩
    cases later with
    | nil => exact Or.inl (List.cons.inj heq).1
    | cons e' later =>
      obtain ⟨rfl, rfl⟩ := List.cons.inj heq
      refine Or.inr ⟨?_, later, earlier, rfl, fun hmem => hnot (List.mem_cons_of_mem _ hmem)⟩
      rintro rfl
      exact hnot List.mem_cons_self
  · rintro (rfl | ⟨hne, later, earlier, rfl, hnot⟩)
    · exact ⟨[], events, rfl, List.not_mem_nil⟩
    · refine ⟨e :: later, earlier, rfl, ?_⟩
      rw [List.mem_cons]
      rintro (rfl | hmem)
      · exact hne rfl
      · exact hnot hmem

/-- From cleared flags on, a flag is set exactly when its place was used since it was
last passed over. -/
theorem flagAfter_iff : flagAfter (fun _ => false) events i = true ↔ UsedSincePassed events i := by
  induction events with
  | nil =>
    refine iff_of_false Bool.false_ne_true ?_
    rintro ⟨later, earlier, heq, -⟩
    exact List.append_ne_nil_of_right_ne_nil later (List.cons_ne_nil _ _) heq.symm
  | cons e events ih =>
    rw [usedSincePassed_cons, ← ih]
    cases e with
    | used j =>
      rw [flagAfter, Function.update_apply]
      by_cases hj : i = j
      · simp [hj]
      · simp [hj, Ne.symm hj]
    | passed j =>
      rw [flagAfter, Function.update_apply]
      by_cases hj : i = j
      · simp [hj]
      · simp [hj, Ne.symm hj]

theorem flagAfter_passes (n hand k : ℕ) :
    flagAfter flag (passes n hand k) i = cleared n flag hand k i := by
  induction k with
  | zero => simp [passes, cleared, flagAfter]
  | succ k ih =>
    have hsucc : passes n hand (k + 1) = .passed (ahead n hand k) :: passes n hand k := by
      simp [passes, List.range_succ]
    rw [hsucc, flagAfter, Function.update_apply, ih]
    simp only [cleared, Nat.forall_lt_succ_right]
    by_cases hi : i = ahead n hand k
    · simp [hi]
    · simp [hi, Ne.symm hi]

end Histories

end Clock
