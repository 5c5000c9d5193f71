import Mathlib.Data.List.Basic
import Mathlib.Tactic.Common

/-! # Growable vectors

Lists with the accesses of a growable array. An access outside the bounds has no
result. -/

namespace Vec

variable {α : Type*}

/-- `v[i] = a`. -/
def set? (v : List α) (i : ℕ) (a : α) : Option (List α) :=
  if i < v.length then some (v.set i a) else none

/-- The element is taken out and those behind it close the gap. -/
def remove? (v : List α) (i : ℕ) : Option (α × List α) :=
  v[i]?.map fun a => (a, v.eraseIdx i)

/-- The element comes to stand at the index. -/
def insert? (v : List α) (i : ℕ) (a : α) : Option (List α) :=
  if i ≤ v.length then some (v.insertIdx i a) else none

/-! ## Accesses between a front and a back -/

theorem exists_mid {v : List α} {m n : ℕ} (h : v.length = m + n + 1) :
    ∃ front a back, v = front ++ a :: back ∧ front.length = m ∧ back.length = n := by
  have hm : m < v.length := by omega
  refine ⟨v.take m, v[m], v.drop (m + 1), ?_, ?_, ?_⟩
  · rw [List.getElem_cons_drop, List.take_append_drop]
  · rw [List.length_take]
    omega
  · rw [List.length_drop]
    omega

theorem getElem?_mid (front : List α) (a : α) (back : List α) :
    (front ++ a :: back)[front.length]? = some a := by
  simp

theorem set?_mid (front : List α) (a b : α) (back : List α) :
    set? (front ++ a :: back) front.length b = some (front ++ b :: back) := by
  simp [set?]

theorem remove?_mid (front : List α) (a : α) (back : List α) :
    remove? (front ++ a :: back) front.length = some (a, front ++ back) := by
  simp [remove?, List.eraseIdx_append_of_length_le]

theorem insert?_mid (front : List α) (a : α) (back : List α) :
    insert? (front ++ back) front.length a = some (front ++ a :: back) := by
  have hinsert : (front ++ back).insertIdx front.length a = front ++ a :: back := by
    induction front with
    | nil => simp
    | cons b front ih => simp [ih]
  simp [insert?, hinsert]

/-- What holds of all elements still does when one of them gives way to others. -/
theorem forall_replaced {P : α → Prop} {v front back : List α} {a : α}
    (hv : v = front ++ a :: back) (news : List α) (hall : ∀ x ∈ v, P x)
    (hnews : ∀ x ∈ news, P x) : ∀ x ∈ front ++ (news ++ back), P x := by
  intro x hx
  rcases List.mem_append.mp hx with hx | hx
  · exact hall x (by simp [hv, hx])
  · rcases List.mem_append.mp hx with hx | hx
    · exact hnews x hx
    · exact hall x (by simp [hv, hx])

/-! ## Moving a tail out -/

/-- `n` times the element at `i` is moved to the end of another vector. -/
def moveOut (i : ℕ) : ℕ → List α → List α → Option (List α × List α)
  | 0, v, out => some (v, out)
  | n + 1, v, out => do
    let (a, v) ← remove? v i
    moveOut i n v (out ++ [a])

theorem moveOut_append (front : List α) :
    ∀ (tail out : List α),
      moveOut front.length tail.length (front ++ tail) out = some (front, out ++ tail) := by
  intro tail
  induction tail with
  | nil =>
    intro out
    simp [moveOut]
  | cons a tail ih =>
    intro out
    rw [List.length_cons, moveOut, remove?_mid]
    change moveOut front.length tail.length (front ++ tail) (out ++ [a]) = _
    rw [ih (out ++ [a]), List.append_assoc]
    rfl

end Vec
