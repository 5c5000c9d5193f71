import Mathlib.Algebra.Order.Ring.Nat
import Mathlib.Logic.Function.Basic
import Mathlib.Tactic.Common

/-! # Raw memory blocks

An allocation of fixed size whose cells are reached through unchecked pointers.
Every access reports a fault where the machine access would be undefined: outside
the allocation, or on a cell that holds no value yet. -/

namespace RawMemory

inductive Fault where
  | outOfBounds
  | uninitialised
  | underflow
  deriving DecidableEq, Repr

/-- What makes it undefined to give memory back: a fault on the way, or a layout that is
not the one of the allocation. -/
inductive FreeFault where
  | access (fault : Fault)
  | layout
  deriving DecidableEq, Repr

/-- An allocation of `size` cells; a cell without a value has not been initialised. -/
structure Block (α : Type*) where
  size : ℕ
  cell : ℕ → Option α

@[simp] theorem ok_bind {α β : Type} (a : α) (f : α → Except Fault β) :
    (Except.ok a >>= f) = f a :=
  rfl

@[simp] theorem map_ok {α β : Type} (f : α → β) (a : α) :
    f <$> (Except.ok a : Except Fault α) = .ok (f a) :=
  rfl

namespace Block

variable {α : Type*} {i : ℕ}

/-- A fresh allocation none of whose cells is initialised. -/
def alloc (n : ℕ) : Block α :=
  ⟨n, fun _ => none⟩

/-- A fresh allocation with every cell initialised to the same value. -/
def filled (n : ℕ) (a : α) : Block α :=
  ⟨n, fun i => if i < n then some a else none⟩

/-- The contents after cell `i` received `a`. -/
def set (b : Block α) (i : ℕ) (a : α) : Block α :=
  { b with cell := Function.update b.cell i (some a) }

/-- Dereference for reading. -/
def read (b : Block α) (i : ℕ) : Except Fault α :=
  if i < b.size then
    match b.cell i with
    | some a => .ok a
    | none => .error .uninitialised
  else .error .outOfBounds

/-- `ptr::write`: the old contents are neither read nor dropped. -/
def write (b : Block α) (i : ℕ) (a : α) : Except Fault (Block α) :=
  if i < b.size then .ok (b.set i a) else .error .outOfBounds

/-- `*p = a`: the old value is dropped, so the cell must already hold one. -/
def assign (b : Block α) (i : ℕ) (a : α) : Except Fault (Block α) := do
  let _ ← b.read i
  b.write i a

/-! ## Accesses that do not fault -/

@[simp] theorem set_size (b : Block α) (i : ℕ) (a : α) : (b.set i a).size = b.size :=
  rfl

theorem set_cell (b : Block α) (i j : ℕ) (a : α) :
    (b.set i a).cell j = if j = i then some a else b.cell j := by
  simp [set, Function.update_apply]

@[simp] theorem set_cell_self (b : Block α) (i : ℕ) (a : α) :
    (b.set i a).cell i = some a := by
  simp [set_cell]

variable {b : Block α}

theorem read_eq_ok {a : α} (hi : i < b.size) (ha : b.cell i = some a) : b.read i = .ok a := by
  simp [read, hi, ha]

theorem write_eq_ok (a : α) (hi : i < b.size) : b.write i a = .ok (b.set i a) := by
  simp [write, hi]

theorem assign_eq_ok (a : α) (hi : i < b.size) (hc : (b.cell i).isSome) :
    b.assign i a = .ok (b.set i a) := by
  obtain ⟨old, hold⟩ := Option.isSome_iff_exists.mp hc
  rw [assign, read_eq_ok hi hold, write_eq_ok a hi]
  rfl

@[simp] theorem filled_size (n : ℕ) (a : α) : (filled n a).size = n :=
  rfl

@[simp] theorem filled_cell (n : ℕ) (a : α) (i : ℕ) :
    (filled n a).cell i = if i < n then some a else none :=
  rfl

@[simp] theorem alloc_size (n : ℕ) : (alloc n : Block α).size = n :=
  rfl

@[simp] theorem alloc_cell (n i : ℕ) : (alloc n : Block α).cell i = none :=
  rfl

/-! ## Giving memory back -/

/-- `ptr::drop_in_place`: the value is gone and its cell holds none. -/
def dropInPlace (b : Block α) (i : ℕ) : Except FreeFault (α × Block α) :=
  match b.read i with
  | .ok a => .ok (a, { b with cell := Function.update b.cell i none })
  | .error fault => .error (.access fault)

/-- `dealloc` with the layout of `n` cells. -/
def dealloc (b : Block α) (n : ℕ) : Except FreeFault Unit :=
  if n = b.size then .ok () else .error .layout

/-- The cells from `i` on are dropped one after the other. -/
def dropCells : ℕ → ℕ → Block α → Except FreeFault (List α × Block α)
  | 0, _, b => .ok ([], b)
  | n + 1, i, b =>
    match b.dropInPlace i with
    | .ok (a, b) =>
      match dropCells n (i + 1) b with
      | .ok (rest, b) => .ok (a :: rest, b)
      | .error fault => .error fault
    | .error fault => .error fault

theorem dealloc_eq_ok {n : ℕ} (h : b.size = n) : b.dealloc n = .ok () := by
  rw [dealloc, if_pos h.symm]

theorem dropInPlace_eq_ok {a : α} (hi : i < b.size) (ha : b.cell i = some a) :
    b.dropInPlace i = .ok (a, { b with cell := Function.update b.cell i none }) := by
  rw [dropInPlace, read_eq_ok hi ha]

/-- Initialised cells are dropped once each, and all others stay as they are. -/
theorem dropCells_eq_ok {n : ℕ} {value : ℕ → α} (hsize : i + n ≤ b.size)
    (hcell : ∀ j, i ≤ j → j < i + n → b.cell j = some (value j)) :
    dropCells n i b = .ok ((List.range' i n).map value,
      ⟨b.size, fun j => if i ≤ j ∧ j < i + n then none else b.cell j⟩) := by
  induction n generalizing b i with
  | zero =>
    have hnone : ∀ j, ¬ (i ≤ j ∧ j < i) := by omega
    simp [dropCells, hnone]
  | succ n ih =>
    rw [dropCells, dropInPlace_eq_ok (by omega) (hcell i le_rfl (by omega))]
    have hrest : ∀ j, i + 1 ≤ j → j < i + 1 + n →
        Function.update b.cell i none j = some (value j) := by
      intro j hle hlt
      rw [Function.update_of_ne (by omega)]
      exact hcell j (by omega) (by omega)
    dsimp only
    rw [ih (by simpa using by omega) hrest]
    have hcells : (fun j => if i + 1 ≤ j ∧ j < i + 1 + n then none
        else Function.update b.cell i none j) =
          fun j => if i ≤ j ∧ j < i + (n + 1) then none else b.cell j := by
      funext j
      rw [Function.update_apply]
      split <;> split <;> (try split) <;> first | rfl | omega
    simp only [hcells, List.range'_succ, List.map_cons]

end Block

end RawMemory
