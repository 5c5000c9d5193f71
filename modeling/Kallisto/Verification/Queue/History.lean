import Kallisto.Verification.Queue.Ring
import Mathlib.Data.List.Range

/-! # Histories of the queue

A history lists the events of a run, the latest first. -/

namespace Kallisto.Queue

variable {T Tid : Type} {earlier log : List (Event T Tid)} {pos : UInt64}

/-! ## Positions of a history -/

def enqueueClaimed (log : List (Event T Tid)) : List UInt64 :=
  log.filterMap fun
    | .enqueueClaims _ pos _ => some pos
    | _ => none

def dequeueClaimed (log : List (Event T Tid)) : List UInt64 :=
  log.filterMap fun
    | .dequeueClaims _ pos => some pos
    | _ => none

def dequeueReturned (log : List (Event T Tid)) : List UInt64 :=
  log.filterMap fun
    | .dequeueReturns _ pos _ => some pos
    | _ => none

/-- The number of calls. -/
def calls (log : List (Event T Tid)) : ℕ :=
  log.countP fun
    | .enqueueBegins _ _ => true
    | .dequeueBegins _ => true
    | _ => false

/-- The thread claimed the position for the item during its current enqueue. -/
def ClaimedSinceBegin (t : Tid) (pos : UInt64) (x : T) : List (Event T Tid) → Prop
  | [] => False
  | e :: log => e = .enqueueClaims t pos x ∨
      (∀ y, e ≠ .enqueueBegins t y) ∧ ClaimedSinceBegin t pos x log

/-- What an event requires of the events before it. -/
def Follows : Event T Tid → List (Event T Tid) → Prop
  | .enqueueClaims _ pos _, log => pos.toNat = (enqueueClaimed log).length
  | .enqueueReturns t pos x, log => ClaimedSinceBegin t pos x log
  | .dequeueClaims _ pos, log => pos.toNat = (dequeueClaimed log).length
  | .dequeueReturns _ pos d, log => pos ∉ dequeueReturned log ∧
      ∃ t x, .enqueueReturns t pos x ∈ log ∧ d = some x
  | _, _ => True

def Chronicle : List (Event T Tid) → Prop
  | [] => True
  | e :: log => Follows e log ∧ Chronicle log

/-! ## Consequences of a chronicle -/

theorem Chronicle.suffix :
    ∀ {later : List (Event T Tid)}, Chronicle (later ++ earlier) → Chronicle earlier
  | [], h => h
  | _ :: later, h => by
      have hrest : Chronicle (later ++ earlier) := h.2
      exact hrest.suffix

/-- The event of a chronicle and what it follows. -/
theorem Chronicle.follows {e : Event T Tid} (h : Chronicle log) (he : e ∈ log) :
    ∃ later earlier, log = later ++ e :: earlier ∧ Follows e earlier := by
  obtain ⟨later, earlier, rfl⟩ := List.append_of_mem he
  exact ⟨later, earlier, rfl, (h.suffix).1⟩

theorem Chronicle.enqueueClaimed_eq (h : Chronicle log) :
    (enqueueClaimed log).reverse.map UInt64.toNat = List.range (enqueueClaimed log).length := by
  induction log with
  | nil => rfl
  | cons e log ih =>
    have ih := ih h.2
    cases e with
    | enqueueClaims t pos x =>
      have hpos : pos.toNat = (enqueueClaimed log).length := h.1
      change ((pos :: enqueueClaimed log).reverse).map UInt64.toNat =
        List.range ((enqueueClaimed log).length + 1)
      rw [List.reverse_cons, List.map_append, ih, List.range_succ, List.map_singleton, hpos]
    | _ => exact ih

theorem Chronicle.dequeueClaimed_eq (h : Chronicle log) :
    (dequeueClaimed log).reverse.map UInt64.toNat = List.range (dequeueClaimed log).length := by
  induction log with
  | nil => rfl
  | cons e log ih =>
    have ih := ih h.2
    cases e with
    | dequeueClaims t pos =>
      have hpos : pos.toNat = (dequeueClaimed log).length := h.1
      change ((pos :: dequeueClaimed log).reverse).map UInt64.toNat =
        List.range ((dequeueClaimed log).length + 1)
      rw [List.reverse_cons, List.map_append, ih, List.range_succ, List.map_singleton, hpos]
    | _ => exact ih

theorem Chronicle.dequeueReturned_nodup (h : Chronicle log) : (dequeueReturned log).Nodup := by
  induction log with
  | nil => exact List.nodup_nil
  | cons e log ih =>
    have ih := ih h.2
    cases e with
    | dequeueReturns t pos d => exact List.nodup_cons.mpr ⟨h.1.1, ih⟩
    | _ => exact ih

theorem ClaimedSinceBegin.mem {t : Tid} {x : T} :
    ∀ {log : List (Event T Tid)}, ClaimedSinceBegin t pos x log → .enqueueClaims t pos x ∈ log
  | _ :: _, Or.inl he => he ▸ List.mem_cons_self
  | e :: _, Or.inr ⟨_, h⟩ => List.mem_cons_of_mem e h.mem

/-- No claim of an earlier call counts for the current one. -/
theorem ClaimedSinceBegin.mem_later {t : Tid} {x y : T} :
    ∀ {later : List (Event T Tid)},
      ClaimedSinceBegin t pos x (later ++ .enqueueBegins t y :: earlier) →
        .enqueueClaims t pos x ∈ later
  | [], h => by
      rcases h with h | ⟨h, _⟩
      · cases h
      · exact absurd rfl (h y)
  | e :: later, h => by
      rcases h with h | ⟨_, h⟩
      · exact h ▸ List.mem_cons_self
      · exact List.mem_cons_of_mem e (ClaimedSinceBegin.mem_later h)

theorem enqueueClaimed_append (later earlier : List (Event T Tid)) :
    enqueueClaimed (later ++ earlier) = enqueueClaimed later ++ enqueueClaimed earlier :=
  List.filterMap_append

theorem Chronicle.claim_lt (h : Chronicle log) {t : Tid} {x : T}
    (hmem : .enqueueClaims t pos x ∈ log) : pos.toNat < (enqueueClaimed log).length := by
  obtain ⟨later, earlier, rfl, hpos⟩ := h.follows hmem
  have hpos : pos.toNat = (enqueueClaimed earlier).length := hpos
  rw [enqueueClaimed_append, List.length_append, hpos]
  change _ < _ + ((enqueueClaimed earlier).length + 1)
  omega

/-- A claim made after an enqueue returned has a larger position. -/
theorem Chronicle.claim_after_return {t₁ t₂ : Tid} {pos₁ pos₂ : UInt64} {x₁ x₂ : T}
    {later : List (Event T Tid)} (h : Chronicle (later ++ .enqueueReturns t₁ pos₁ x₁ :: earlier))
    (hmem : .enqueueClaims t₂ pos₂ x₂ ∈ later) : pos₁ < pos₂ := by
  have hclaim : ClaimedSinceBegin t₁ pos₁ x₁ earlier := h.suffix.1
  have hlt := h.suffix.2.claim_lt hclaim.mem
  obtain ⟨after, before, rfl⟩ := List.append_of_mem hmem
  rw [List.append_assoc, List.cons_append] at h
  have hpos : pos₂.toNat =
      (enqueueClaimed (before ++ .enqueueReturns t₁ pos₁ x₁ :: earlier)).length := h.suffix.1
  rw [enqueueClaimed_append, List.length_append] at hpos
  change pos₂.toNat = _ + (enqueueClaimed earlier).length at hpos
  rw [UInt64.lt_iff_toNat_lt]
  omega

/-- An enqueue that begins after another one returned receives a larger position. -/
theorem Chronicle.position_lt {t₁ t₂ : Tid} {pos₁ pos₂ : UInt64} {x₁ x₂ y : T}
    {c b a : List (Event T Tid)}
    (h : Chronicle (c ++ .enqueueBegins t₂ y :: (b ++ .enqueueReturns t₁ pos₁ x₁ :: a)))
    (hmem : .enqueueClaims t₂ pos₂ x₂ ∈ c ∨ .enqueueReturns t₂ pos₂ x₂ ∈ c) : pos₁ < pos₂ := by
  have hclaim : .enqueueClaims t₂ pos₂ x₂ ∈ c := by
    rcases hmem with hmem | hmem
    · exact hmem
    · obtain ⟨after, before, rfl⟩ := List.append_of_mem hmem
      rw [List.append_assoc, List.cons_append] at h
      have hsince : ClaimedSinceBegin t₂ pos₂ x₂
          (before ++ .enqueueBegins t₂ y :: (b ++ .enqueueReturns t₁ pos₁ x₁ :: a)) := h.suffix.1
      exact List.mem_append_right after (List.mem_cons_of_mem _ hsince.mem_later)
  rw [← List.cons_append, ← List.append_assoc] at h
  exact h.claim_after_return (List.mem_append_left _ hclaim)

end Kallisto.Queue
