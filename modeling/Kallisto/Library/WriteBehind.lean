import Mathlib.Algebra.Order.Ring.Nat
import Mathlib.Logic.Function.Basic
import Mathlib.Tactic.Common

/-! # Write-behind maps

A partial map with writes that are still to be applied to it, in order. -/

namespace WriteBehind

variable {O K V : Type*} [DecidableEq K] (key : O → K) (value : O → Option V) {k : K}
  {m : K → Option V} {os : List O}

def write (m : K → Option V) (o : O) : K → Option V :=
  Function.update m (key o) (value o)

def writeAll (m : K → Option V) (os : List O) : K → Option V :=
  os.foldl (write key value) m

variable {key value}

theorem write_self (m : K → Option V) (o : O) : write key value m o (key o) = value o :=
  Function.update_self _ _ _

theorem write_of_ne (m : K → Option V) {o : O} (h : k ≠ key o) : write key value m o k = m k :=
  Function.update_of_ne h _ _

theorem writeAll_append (m : K → Option V) (os os' : List O) :
    writeAll key value m (os ++ os') = writeAll key value (writeAll key value m os) os' :=
  List.foldl_append

/-- A key holds what the last write to it leaves there. -/
theorem writeAll_apply (m : K → Option V) (os : List O) (k : K) :
    writeAll key value m os k = ((os.reverse.find? fun o => key o = k).map value).getD (m k) := by
  induction os generalizing m with
  | nil => rfl
  | cons o os ih =>
    have hrest := ih (write key value m o)
    rw [List.reverse_cons, List.find?_append]
    cases hfind : os.reverse.find? fun o => key o = k with
    | some o' =>
      rw [hfind] at hrest
      exact hrest
    | none =>
      rw [hfind] at hrest
      refine hrest.trans ?_
      by_cases hkey : key o = k
      · subst hkey
        simp [write_self]
      · simp [hkey, write_of_ne m (Ne.symm hkey)]

/-- A key without a value gets one only from a write to it. -/
theorem writeAll_eq_none {m' : K → Option V} (h : writeAll key value m os k = none)
    (hnone : m' k = none) : writeAll key value m' os k = none := by
  rw [writeAll_apply] at h ⊢
  cases hfind : os.reverse.find? fun o => key o = k with
  | some o =>
    rw [hfind] at h
    exact h
  | none => exact hnone

/-- Writes to other keys leave a key as it was. -/
theorem writeAll_of_forall_ne :
    ∀ (m : K → Option V) {os : List O}, (∀ o ∈ os, key o ≠ k) → writeAll key value m os k = m k
  | _, [], _ => rfl
  | m, o :: os, h => by
      have hrest := writeAll_of_forall_ne (write key value m o)
        fun o' ho' => h o' (List.mem_cons_of_mem o ho')
      exact hrest.trans (write_of_ne m (h o List.mem_cons_self).symm)

/-- A write may overtake waiting writes to other keys. -/
theorem writeAll_write {o : O} :
    ∀ (m : K → Option V) {os : List O}, (∀ o' ∈ os, key o' ≠ key o) →
      writeAll key value (write key value m o) os = write key value (writeAll key value m os) o
  | _, [], _ => rfl
  | m, o' :: os, h => by
      have hne := h o' List.mem_cons_self
      have hswap : write key value (write key value m o) o' =
          write key value (write key value m o') o := by
        unfold write
        exact Function.update_comm hne.symm _ _ m
      have hrest := writeAll_write (write key value m o')
        fun o'' ho'' => h o'' (List.mem_cons_of_mem o' ho'')
      change writeAll key value (write key value (write key value m o) o') os = _
      rw [hswap, hrest]
      rfl

/-! ## Keys that hold the value of one of some writes -/

/-- The key holds what one of the writes leaves there. -/
def Holds (key : O → K) (value : O → Option V) (m : K → Option V) (k : K) (os : List O) : Prop :=
  ∃ o ∈ os, key o = k ∧ m k = value o

omit [DecidableEq K] in
theorem Holds.mono {os' : List O} (h : Holds key value m k os) (hsub : ∀ o ∈ os, o ∈ os') :
    Holds key value m k os' := by
  obtain ⟨o, ho, hkey, hvalue⟩ := h
  exact ⟨o, hsub o ho, hkey, hvalue⟩

theorem Holds.write (h : Holds key value m k os) {o : O} (ho : key o = k → o ∈ os) :
    Holds key value (write key value m o) k os := by
  by_cases hkey : key o = k
  · refine ⟨o, ho hkey, hkey, ?_⟩
    rw [← hkey]
    exact write_self m o
  · obtain ⟨o', ho', hkey', hvalue⟩ := h
    exact ⟨o', ho', hkey', (write_of_ne m (Ne.symm hkey)).trans hvalue⟩

/-- Only these writes are made to the key from then on. -/
theorem Holds.writeAll :
    ∀ {m : K → Option V} {new : List O}, Holds key value m k os →
      (∀ o ∈ new, key o = k → o ∈ os) → Holds key value (writeAll key value m new) k os := by
  intro m new
  induction new generalizing m with
  | nil => exact fun h _ => h
  | cons o new ih =>
    intro h hnew
    exact ih (h.write (hnew o List.mem_cons_self))
      fun o' ho' => hnew o' (List.mem_cons_of_mem o ho')

end WriteBehind
