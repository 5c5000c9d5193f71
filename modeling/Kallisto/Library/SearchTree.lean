import Mathlib.Data.List.Sort
import Mathlib.Order.Basic
import Mathlib.Tactic.Common

/-! # Sequences of search trees

The in-order sequence of a multiway search tree: the sequences of the children with the
separating keys between them. Searching and inserting are stated on these sequences. -/

namespace SearchTree

variable {α : Type*} {front : List (List α)}

/-- The sequences of the children, with a key after each of them as long as there are
keys. -/
def interleave : List (List α) → List α → List α
  | [], keys => keys
  | c :: cs, [] => c ++ interleave cs []
  | c :: cs, k :: keys => c ++ k :: interleave cs keys

theorem interleave_append :
    ∀ {front : List (List α)} {keys : List α}, front.length = keys.length →
      ∀ (back : List (List α)) (rest : List α),
        interleave (front ++ back) (keys ++ rest) = interleave front keys ++ interleave back rest := by
  intro front
  induction front with
  | nil =>
    intro keys h back rest
    obtain rfl : keys = [] := List.length_eq_zero_iff.mp h.symm
    rfl
  | cons c front ih =>
    intro keys h back rest
    cases keys with
    | nil => simp at h
    | cons k keys =>
      have hrest := ih (Nat.succ.inj h) back rest
      simp only [List.cons_append, interleave, hrest, List.append_assoc]

theorem interleave_cons (c : List α) (cs : List (List α)) (keys : List α) :
    interleave (c :: cs) keys = c ++ interleave ([] :: cs) keys := by
  cases keys <;> rfl

/-- The sequence around one child. -/
theorem interleave_around {keys : List α} (h : front.length = keys.length) (c : List α)
    (back : List (List α)) (rest : List α) :
    interleave (front ++ c :: back) (keys ++ rest) =
      interleave front keys ++ (c ++ interleave ([] :: back) rest) := by
  rw [interleave_append h, interleave_cons]

/-- A child cut at a key makes two children. -/
theorem interleave_split {keys : List α} (h : front.length = keys.length) (left right : List α)
    (k : α) (back : List (List α)) (rest : List α) :
    interleave (front ++ left :: right :: back) (keys ++ k :: rest) =
      interleave (front ++ (left ++ k :: right) :: back) (keys ++ rest) := by
  rw [interleave_append h, interleave_around h]
  change _ ++ (left ++ k :: interleave (right :: back) rest) = _
  rw [interleave_cons right]
  simp

/-- The sequence on both sides of one key. -/
theorem interleave_cut :
    ∀ {front : List (List α)} {keys : List α}, front.length = keys.length + 1 →
      ∀ (back : List (List α)) (k : α) (rest : List α),
        interleave (front ++ back) (keys ++ k :: rest) =
          interleave front keys ++ k :: interleave back rest := by
  intro front
  induction front with
  | nil =>
    intro keys h
    simp at h
  | cons c front ih =>
    intro keys h back k rest
    cases keys with
    | nil =>
      obtain rfl : front = [] := by simpa using h
      simp [interleave]
    | cons k' keys =>
      have hrest := ih (Nat.succ.inj h) back k rest
      simp only [List.cons_append, interleave, hrest, List.append_assoc]

theorem keys_sublist (cs : List (List α)) :
    ∀ keys : List α, keys.Sublist (interleave cs keys) := by
  induction cs with
  | nil => exact fun keys => List.Sublist.refl keys
  | cons c cs ih =>
    intro keys
    cases keys with
    | nil => exact List.nil_sublist _
    | cons k keys => exact ((ih keys).cons_cons k).trans (List.sublist_append_right c _)

section Order

variable [LinearOrder α] {x : α}

/-- Everything in front of the last of some keys is below a bound of the keys. -/
theorem lt_of_mem_front :
    ∀ {front : List (List α)} {keys : List α}, front.length = keys.length →
      (interleave front keys).Pairwise (· < ·) → (∀ k ∈ keys, k < x) →
      ∀ y ∈ interleave front keys, y < x := by
  intro front
  induction front with
  | nil => exact fun _ _ hkeys => hkeys
  | cons c front ih =>
    intro keys h hsorted hkeys y hy
    cases keys with
    | nil => simp at h
    | cons k keys =>
      have hk := hkeys k List.mem_cons_self
      obtain ⟨_, hrest, hbelow⟩ := List.pairwise_append.mp hsorted
      rcases List.mem_append.mp hy with hy | hy
      · exact (hbelow y hy k List.mem_cons_self).trans hk
      · rcases List.mem_cons.mp hy with rfl | hy
        · exact hk
        · exact ih (Nat.succ.inj h) (List.pairwise_cons.mp hrest).2
            (fun k' hk' => hkeys k' (List.mem_cons_of_mem k hk')) y hy

/-- Everything behind the first of some keys is above a bound of the keys. -/
theorem lt_of_mem_back {back : List (List α)} {keys : List α} (h : back.length = keys.length)
    (hsorted : (interleave ([] :: back) keys).Pairwise (· < ·)) (hkeys : ∀ k ∈ keys, x < k) :
    ∀ y ∈ interleave ([] :: back) keys, x < y := by
  intro y hy
  cases keys with
  | nil =>
    obtain rfl : back = [] := List.length_eq_zero_iff.mp h
    simp [interleave] at hy
  | cons k keys =>
    have hk := hkeys k List.mem_cons_self
    rcases List.mem_cons.mp hy with rfl | hy
    · exact hk
    · exact hk.trans ((List.pairwise_cons.mp hsorted).1 y hy)

/-- `ys` is the increasing sequence `xs` with `x` added at its place. -/
def Inserted (x : α) (xs ys : List α) : Prop :=
  ∃ front back, xs = front ++ back ∧ ys = front ++ x :: back ∧
    (∀ y ∈ front, y < x) ∧ ∀ y ∈ back, x < y

theorem Inserted.mem {y : α} {xs ys : List α} (h : Inserted x xs ys) : y ∈ ys ↔ y = x ∨ y ∈ xs := by
  obtain ⟨front, back, rfl, rfl, _, _⟩ := h
  simp only [List.mem_append, List.mem_cons]
  exact or_left_comm

theorem Inserted.length {xs ys : List α} (h : Inserted x xs ys) : ys.length = xs.length + 1 := by
  obtain ⟨front, back, rfl, rfl, _, _⟩ := h
  simp only [List.length_append, List.length_cons]
  omega

theorem Inserted.sorted {xs ys : List α} (h : Inserted x xs ys) (hsorted : xs.Pairwise (· < ·)) :
    ys.Pairwise (· < ·) := by
  obtain ⟨front, back, rfl, rfl, hfront, hback⟩ := h
  obtain ⟨hf, hb, hbetween⟩ := List.pairwise_append.mp hsorted
  refine List.pairwise_append.mpr ⟨hf, List.pairwise_cons.mpr ⟨hback, hb⟩, ?_⟩
  intro y hy z hz
  rcases List.mem_cons.mp hz with rfl | hz
  · exact hfront y hy
  · exact hbetween y hy z hz

/-- An insertion into the middle of a sequence. -/
theorem Inserted.append {xs ys left right : List α} (h : Inserted x xs ys)
    (hleft : ∀ y ∈ left, y < x) (hright : ∀ y ∈ right, x < y) :
    Inserted x (left ++ (xs ++ right)) (left ++ (ys ++ right)) := by
  obtain ⟨front, back, rfl, rfl, hfront, hback⟩ := h
  refine ⟨left ++ front, back ++ right, by simp, by simp, ?_, ?_⟩
  · intro y hy
    rcases List.mem_append.mp hy with hy | hy
    · exact hleft y hy
    · exact hfront y hy
  · intro y hy
    rcases List.mem_append.mp hy with hy | hy
    · exact hback y hy
    · exact hright y hy

/-- The keys before and behind the place of `x`. -/
structure Around (x : α) (keys before behind : List α) : Prop where
  keys : keys = before ++ behind
  before : ∀ k ∈ before, k < x
  behind : ∀ k ∈ behind, x < k

/-- An insertion into the child between the keys around `x`. -/
theorem Inserted.within {xs ys : List α} {back : List (List α)} {keys before behind : List α}
    (h : Inserted x xs ys) (haround : Around x keys before behind)
    (hfront : front.length = before.length) (hback : back.length = behind.length)
    (hsorted : (interleave (front ++ xs :: back) keys).Pairwise (· < ·)) :
    Inserted x (interleave (front ++ xs :: back) keys) (interleave (front ++ ys :: back) keys) := by
  rw [haround.keys, interleave_around hfront] at hsorted
  rw [haround.keys, interleave_around hfront, interleave_around hfront]
  obtain ⟨hleft, hrest, _⟩ := List.pairwise_append.mp hsorted
  obtain ⟨_, hright, _⟩ := List.pairwise_append.mp hrest
  exact h.append (lt_of_mem_front hfront hleft haround.before)
    (lt_of_mem_back hback hright haround.behind)

/-- What is not a key can only be found in the child between the keys around it. -/
theorem mem_interleave_iff {xs : List α} {back : List (List α)} {keys before behind : List α}
    (haround : Around x keys before behind) (hfront : front.length = before.length)
    (hback : back.length = behind.length)
    (hsorted : (interleave (front ++ xs :: back) keys).Pairwise (· < ·)) :
    x ∈ interleave (front ++ xs :: back) keys ↔ x ∈ xs := by
  rw [haround.keys, interleave_around hfront] at hsorted ⊢
  obtain ⟨hleft, hrest, _⟩ := List.pairwise_append.mp hsorted
  obtain ⟨_, hright, _⟩ := List.pairwise_append.mp hrest
  have hfar : x ∉ interleave front before := fun hx =>
    lt_irrefl x (lt_of_mem_front hfront hleft haround.before x hx)
  have hnear : x ∉ interleave ([] :: back) behind := fun hx =>
    lt_irrefl x (lt_of_mem_back hback hright haround.behind x hx)
  simp [hfar, hnear]

end Order

end SearchTree
