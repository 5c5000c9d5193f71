import Mathlib.Data.List.Basic

/-! # Self-delimiting codes

A value is read off the front of the bytes, and what follows its code is left. Codes of
records are put together from codes of their fields. -/

structure Codec (α : Type) where
  put : α → List UInt8
  take : List UInt8 → α × List UInt8
  take_put : ∀ a rest, take (put a ++ rest) = (a, rest)

namespace Codec

variable {α β : Type}

/-- The code alone. -/
theorem take_self (c : Codec α) (a : α) : (c.take (c.put a)).1 = a := by
  have h := c.take_put a []
  rw [List.append_nil] at h
  rw [h]

/-! ## Numbers -/

/-- The ones at the front are counted, and the byte after them is dropped. -/
def takeOnes : List UInt8 → ℕ × List UInt8
  | [] => (0, [])
  | b :: rest =>
    if b = 1 then
      match takeOnes rest with
      | (n, rest) => (n + 1, rest)
    else (0, rest)

/-- A number in unary. -/
def nat : Codec ℕ where
  put n := List.replicate n 1 ++ [0]
  take := takeOnes
  take_put n rest := by
    induction n with
    | zero => rfl
    | succ n ih =>
      rw [List.replicate_succ, List.cons_append, List.cons_append, takeOnes, ih]
      rfl

/-! ## Records -/

def prod (c : Codec α) (d : Codec β) : Codec (α × β) where
  put x := c.put x.1 ++ d.put x.2
  take bytes :=
    match c.take bytes with
    | (a, rest) =>
      match d.take rest with
      | (b, rest) => ((a, b), rest)
  take_put x rest := by simp [c.take_put, d.take_put]

/-- The values of another type are made from those of the code. -/
def map (c : Codec α) (f : α → β) (g : β → α) (h : ∀ b, f (g b) = b) : Codec β where
  put b := c.put (g b)
  take bytes :=
    match c.take bytes with
    | (a, rest) => (f a, rest)
  take_put b rest := by simp [c.take_put, h]

/-! ## Lists -/

def takeItems (c : Codec α) : ℕ → List UInt8 → List α × List UInt8
  | 0, bytes => ([], bytes)
  | n + 1, bytes =>
    match c.take bytes with
    | (a, rest) =>
      match c.takeItems n rest with
      | (items, rest) => (a :: items, rest)

theorem takeItems_flatMap (c : Codec α) (items : List α) (rest : List UInt8) :
    c.takeItems items.length (items.flatMap c.put ++ rest) = (items, rest) := by
  induction items with
  | nil => rfl
  | cons a items ih => simp [takeItems, c.take_put, ih]

/-- The items after their number. -/
def list (c : Codec α) : Codec (List α) where
  put items := nat.put items.length ++ items.flatMap c.put
  take bytes :=
    match nat.take bytes with
    | (n, rest) => c.takeItems n rest
  take_put items rest := by simp [nat.take_put, c.takeItems_flatMap]

end Codec
