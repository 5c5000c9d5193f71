import Kallisto.Model.LockFreeQueue
import Mathlib.Data.Finset.Card
import Mathlib.Data.Nat.ModEq

/-! # Positions of the queue

Every position of the queue passes through the same phases, from the producer that
claims it to the consumer that gives its cell to the next lap. The invariant of the
shared words assigns a phase to each position. -/

namespace Kallisto.Queue

variable {T Tid : Type}

/-! ## Phases -/

inductive Phase (T Tid : Type) where
  | free
  | reserved (t : Tid) (x : T)
  | written (t : Tid) (x : T)
  | published (x : T)
  | taken (t : Tid) (x : T)
  | emptied (t : Tid) (x : T)
  | recycled (x : T)

namespace Phase

/-- The sequence number of the cell of position `p` in a phase of that position. -/
def sequence (cap p : ℕ) : Phase T Tid → ℕ
  | free => p
  | reserved _ _ => p
  | written _ _ => p
  | published _ => p + 1
  | taken _ _ => p + 1
  | emptied _ _ => p + 1
  | recycled _ => p + cap

/-- The contents of the cell. -/
def data : Phase T Tid → Option T
  | written _ x => some x
  | published x => some x
  | taken _ x => some x
  | _ => none

/-- The item of the position. -/
def item : Phase T Tid → Option T
  | free => none
  | reserved _ x => some x
  | written _ x => some x
  | published x => some x
  | taken _ x => some x
  | emptied _ x => some x
  | recycled x => some x

/-- The item, once its enqueue has returned. -/
def released : Phase T Tid → Option T
  | published x => some x
  | taken _ x => some x
  | emptied _ x => some x
  | recycled x => some x
  | _ => none

/-- The item, once its dequeue has returned. -/
def returned : Phase T Tid → Option T
  | recycled x => some x
  | _ => none

/-- The thread that alone may change the phase. -/
def owner : Phase T Tid → Option Tid
  | reserved t _ => some t
  | written t _ => some t
  | taken t _ => some t
  | emptied t _ => some t
  | _ => none

/-- Claimed by a producer and not by a consumer. -/
def Waiting : Phase T Tid → Prop
  | reserved _ _ => True
  | written _ _ => True
  | published _ => True
  | _ => False

/-- Claimed by a consumer. -/
def Served : Phase T Tid → Prop
  | taken _ _ => True
  | emptied _ _ => True
  | recycled _ => True
  | _ => False

end Phase

/-! ## The invariant of the shared words -/

/-- The position whose phase the cell of its residue shows: the latest claimed one, or
the first one as long as none was claimed. -/
def Current (cap enq p : ℕ) : Prop :=
  enq ≤ p + cap ∧ (p < enq ∨ p < cap)

/-- The cell of position `p` may be claimed by a producer. -/
def Reusable (cap : ℕ) (g : ℕ → Phase T Tid) (p : ℕ) : Prop :=
  p < cap ∨ ∃ x, g (p - cap) = .recycled x

structure Ring (cap : ℕ) (q : LockFreeQueue T) (g : ℕ → Phase T Tid) (enq deq : ℕ) : Prop where
  two_le : 2 ≤ cap
  pow : ∃ k < 64, cap = 2 ^ k
  capacity : q.capacity.toNat = cap
  enqueuePos : q.enqueuePos.toNat = enq
  dequeuePos : q.dequeuePos.toNat = deq
  free : ∀ p, g p = .free ↔ enq ≤ p
  waiting : ∀ p, deq ≤ p → p < enq → (g p).Waiting
  served : ∀ p, p < deq → (g p).Served
  lap : ∀ p, p + cap < enq → ∃ x, g p = .recycled x
  sequence : ∀ p, Current cap enq p →
    (q.buffer (p % cap)).sequence.toNat = (g p).sequence cap p
  data : ∀ p, Current cap enq p → (q.buffer (p % cap)).data = (g p).data

theorem current_unique {cap enq p p' : ℕ} (hp : Current cap enq p) (hp' : Current cap enq p')
    (h : p % cap = p' % cap) : p = p' := by
  obtain ⟨hle, hlt⟩ := hp
  obtain ⟨hle', hlt'⟩ := hp'
  by_contra hne
  rcases Nat.lt_or_gt_of_ne hne with hlt'' | hlt''
  · have hlap := Nat.ModEq.add_le_of_lt h hlt''
    omega
  · have hlap := Nat.ModEq.add_le_of_lt h.symm hlt''
    omega

namespace Ring

variable {cap : ℕ} {q : LockFreeQueue T} {g : ℕ → Phase T Tid} {enq deq : ℕ}

theorem deq_le_enq (hr : Ring cap q g enq deq) : deq ≤ enq := by
  by_contra hlt
  have hserved := hr.served enq (by omega)
  rw [(hr.free enq).mpr le_rfl] at hserved
  exact hserved

theorem cap_le (hr : Ring cap q g enq deq) : cap ≤ 2 ^ 63 := by
  obtain ⟨k, hk, rfl⟩ := hr.pow
  exact Nat.pow_le_pow_right (by omega) (by omega)

theorem index_eq (hr : Ring cap q g enq deq) (pos : UInt64) :
    q.index pos = pos.toNat % cap := by
  obtain ⟨k, hk, hpow⟩ := hr.pow
  have hone : (1 : UInt64) ≤ q.capacity := by
    rw [UInt64.le_iff_toNat_le, hr.capacity]
    have := hr.two_le
    simp
    omega
  rw [LockFreeQueue.index, UInt64.toNat_and, UInt64.toNat_sub_of_le _ _ hone, hr.capacity, hpow]
  exact Nat.and_two_pow_sub_one_eq_mod pos.toNat k

/-- A claimed position that is not recycled is the current one of its cell. -/
theorem current_of_claimed (hr : Ring cap q g enq deq) {p : ℕ} (hfree : g p ≠ .free)
    (hrecycled : ∀ x, g p ≠ .recycled x) : Current cap enq p := by
  constructor
  · by_contra hlt
    obtain ⟨x, hx⟩ := hr.lap p (by omega)
    exact hrecycled x hx
  · left
    by_contra hlt
    exact hfree ((hr.free p).mpr (by omega))

/-- The sequence numbers of one residue only meet at a recycled cell, so a producer
that sees its own position finds the cell reusable. -/
theorem reusable_of_sequence (hr : Ring cap q g enq deq)
    (h : (q.buffer (enq % cap)).sequence.toNat = enq) : Reusable cap g enq := by
  by_cases hcap : enq < cap
  · exact Or.inl hcap
  · right
    have hcurrent : Current cap enq (enq - cap) := by
      constructor
      · omega
      · have := hr.two_le
        left
        omega
    have hmod : (enq - cap) % cap = enq % cap := (Nat.mod_eq_sub_mod (by omega)).symm
    have hseq := hr.sequence _ hcurrent
    have := hr.two_le
    rw [hmod, h] at hseq
    cases hphase : g (enq - cap) with
    | recycled x => exact ⟨x, rfl⟩
    | free =>
      have := (hr.free _).mp hphase
      omega
    | reserved t x =>
      rw [hphase, Phase.sequence] at hseq
      omega
    | written t x =>
      rw [hphase, Phase.sequence] at hseq
      omega
    | published x =>
      rw [hphase, Phase.sequence] at hseq
      omega
    | taken t x =>
      rw [hphase, Phase.sequence] at hseq
      omega
    | emptied t x =>
      rw [hphase, Phase.sequence] at hseq
      omega

/-- A consumer that sees the successor of its position finds the item published. -/
theorem published_of_sequence (hr : Ring cap q g enq deq)
    (h : (q.buffer (deq % cap)).sequence.toNat = deq + 1) : ∃ x, g deq = .published x := by
  have hle := hr.deq_le_enq
  have htwo := hr.two_le
  by_cases hlt : deq < enq
  · have hwaiting := hr.waiting deq le_rfl hlt
    have hcurrent : Current cap enq deq := by
      refine ⟨?_, Or.inl hlt⟩
      by_contra hlap
      obtain ⟨x, hx⟩ := hr.lap deq (by omega)
      rw [hx] at hwaiting
      exact hwaiting
    have hseq := hr.sequence deq hcurrent
    rw [h] at hseq
    cases hphase : g deq with
    | published x => exact ⟨x, rfl⟩
    | reserved t x =>
      rw [hphase, Phase.sequence] at hseq
      omega
    | written t x =>
      rw [hphase, Phase.sequence] at hseq
      omega
    | free =>
      rw [hphase] at hwaiting
      exact hwaiting.elim
    | taken t x =>
      rw [hphase] at hwaiting
      exact hwaiting.elim
    | emptied t x =>
      rw [hphase] at hwaiting
      exact hwaiting.elim
    | recycled x =>
      rw [hphase] at hwaiting
      exact hwaiting.elim
  · -- The queue is empty: the cell still shows the previous lap, or no lap at all.
    obtain rfl : deq = enq := by omega
    by_cases hcap : deq < cap
    · have hseq := hr.sequence deq ⟨by omega, Or.inr hcap⟩
      rw [h, (hr.free deq).mpr le_rfl, Phase.sequence] at hseq
      omega
    · have hcurrent : Current cap deq (deq - cap) := ⟨by omega, Or.inl (by omega)⟩
      have hmod : (deq - cap) % cap = deq % cap := (Nat.mod_eq_sub_mod (by omega)).symm
      have hseq := hr.sequence _ hcurrent
      rw [hmod, h] at hseq
      cases hphase : g (deq - cap) <;> rw [hphase, Phase.sequence] at hseq <;> omega

/-! ## Steps of the shared words -/

theorem cell_eq (hr : Ring cap q g enq deq) (pos : UInt64) :
    q.cell pos = q.buffer (pos.toNat % cap) := by
  rw [LockFreeQueue.cell, hr.index_eq]

/-- The owner of a claimed position moves it to its next phase and updates its cell. -/
theorem advance (hr : Ring cap q g enq deq) {pos : UInt64} {next : Phase T Tid} {node : Node T}
    (hfree : g pos.toNat ≠ .free) (hrecycled : ∀ x, g pos.toNat ≠ .recycled x)
    (hnext : next ≠ .free) (hwaiting : (g pos.toNat).Waiting → next.Waiting)
    (hserved : (g pos.toNat).Served → next.Served)
    (hsequence : node.sequence.toNat = next.sequence cap pos.toNat)
    (hdata : node.data = next.data) :
    Ring cap (q.setCell pos node) (Function.update g pos.toNat next) enq deq := by
  have hcurrent := hr.current_of_claimed hfree hrecycled
  have hbuffer : ∀ p, Current cap enq p → (q.setCell pos node).buffer (p % cap) =
      if p = pos.toNat then node else q.buffer (p % cap) := by
    intro p hp
    change Function.update q.buffer (q.index pos) node (p % cap) = _
    rw [hr.index_eq, Function.update_apply]
    by_cases he : p = pos.toNat
    · rw [if_pos (by rw [he]), if_pos he]
    · rw [if_neg (fun hmod => he (current_unique hp hcurrent hmod)), if_neg he]
  exact {
    two_le := hr.two_le
    pow := hr.pow
    capacity := hr.capacity
    enqueuePos := hr.enqueuePos
    dequeuePos := hr.dequeuePos
    free := by
      intro p
      rw [Function.update_apply]
      split
      · subst p
        exact iff_of_false hnext (fun hle => hfree ((hr.free _).mpr hle))
      · exact hr.free p
    waiting := by
      intro p hle hlt
      rw [Function.update_apply]
      split
      · subst p
        exact hwaiting (hr.waiting _ hle hlt)
      · exact hr.waiting p hle hlt
    served := by
      intro p hlt
      rw [Function.update_apply]
      split
      · subst p
        exact hserved (hr.served _ hlt)
      · exact hr.served p hlt
    lap := by
      intro p hlt
      rw [Function.update_apply]
      split
      · subst p
        exact absurd hcurrent.1 (by omega)
      · exact hr.lap p hlt
    sequence := by
      intro p hp
      rw [hbuffer p hp, Function.update_apply]
      split
      · subst p
        exact hsequence
      · exact hr.sequence p hp
    data := by
      intro p hp
      rw [hbuffer p hp, Function.update_apply]
      split
      · exact hdata
      · exact hr.data p hp }

theorem reusable_cell (hr : Ring cap q g enq deq) (hreuse : Reusable cap g enq) :
    (q.buffer (enq % cap)).sequence.toNat = enq ∧ (q.buffer (enq % cap)).data = none := by
  have htwo := hr.two_le
  by_cases hcap : enq < cap
  · have hcurrent : Current cap enq enq := ⟨by omega, Or.inr hcap⟩
    rw [hr.sequence _ hcurrent, hr.data _ hcurrent, (hr.free enq).mpr le_rfl]
    exact ⟨rfl, rfl⟩
  · obtain ⟨x, hx⟩ : ∃ x, g (enq - cap) = .recycled x := hreuse.resolve_left hcap
    have hcurrent : Current cap enq (enq - cap) := ⟨by omega, Or.inl (by omega)⟩
    have hmod : enq % cap = (enq - cap) % cap := Nat.mod_eq_sub_mod (by omega)
    rw [hmod, hr.sequence _ hcurrent, hr.data _ hcurrent, hx]
    refine ⟨?_, rfl⟩
    rw [Phase.sequence]
    omega

/-- A producer claims the next position. -/
theorem claim (hr : Ring cap q g enq deq) (hreuse : Reusable cap g enq) (t : Tid) (x : T)
    (hbound : enq + 1 < 2 ^ 64) :
    Ring cap { q with enqueuePos := q.enqueuePos + 1 } (Function.update g enq (.reserved t x))
      (enq + 1) deq := by
  have hle := hr.deq_le_enq
  have hstep : ∀ p, p ≠ enq → Current cap (enq + 1) p → Current cap enq p := by
    intro p hne hp
    exact ⟨by have := hp.1; omega, by have := hp.2; omega⟩
  exact {
    two_le := hr.two_le
    pow := hr.pow
    capacity := hr.capacity
    enqueuePos := by
      rw [UInt64.toNat_add, hr.enqueuePos]
      exact Nat.mod_eq_of_lt hbound
    dequeuePos := hr.dequeuePos
    free := by
      intro p
      rw [Function.update_apply]
      split
      · exact iff_of_false (by simp) (by omega)
      · rw [hr.free p]
        omega
    waiting := by
      intro p hdeq hlt
      rw [Function.update_apply]
      split
      · trivial
      · exact hr.waiting p hdeq (by omega)
    served := by
      intro p hlt
      rw [Function.update_of_ne (by omega)]
      exact hr.served p hlt
    lap := by
      intro p hlt
      have htwo := hr.two_le
      rw [Function.update_of_ne (by omega)]
      by_cases hlast : p + cap < enq
      · exact hr.lap p hlast
      · obtain rfl : p = enq - cap := by omega
        exact hreuse.resolve_left (by omega)
    sequence := by
      intro p hp
      rw [Function.update_apply]
      split
      · subst p
        exact (hr.reusable_cell hreuse).1
      · exact hr.sequence p (hstep p ‹_› hp)
    data := by
      intro p hp
      rw [Function.update_apply]
      split
      · subst p
        exact (hr.reusable_cell hreuse).2
      · exact hr.data p (hstep p ‹_› hp) }

/-- A consumer claims the oldest published position. -/
theorem take (hr : Ring cap q g enq deq) {x : T} (hphase : g deq = .published x) (t : Tid)
    (hbound : deq + 1 < 2 ^ 64) :
    Ring cap { q with dequeuePos := q.dequeuePos + 1 } (Function.update g deq (.taken t x))
      enq (deq + 1) := by
  have hlt : deq < enq := by
    by_contra hge
    rw [(hr.free deq).mpr (by omega)] at hphase
    cases hphase
  exact {
    two_le := hr.two_le
    pow := hr.pow
    capacity := hr.capacity
    enqueuePos := hr.enqueuePos
    dequeuePos := by
      rw [UInt64.toNat_add, hr.dequeuePos]
      exact Nat.mod_eq_of_lt hbound
    free := by
      intro p
      rw [Function.update_apply]
      split
      · exact iff_of_false (by simp) (by omega)
      · exact hr.free p
    waiting := by
      intro p hle hp
      rw [Function.update_of_ne (by omega)]
      exact hr.waiting p (by omega) hp
    served := by
      intro p hp
      rw [Function.update_apply]
      split
      · trivial
      · exact hr.served p (by omega)
    lap := by
      intro p hp
      rw [Function.update_apply]
      split
      · subst p
        obtain ⟨y, hy⟩ := hr.lap _ hp
        rw [hphase] at hy
        cases hy
      · exact hr.lap p hp
    sequence := by
      intro p hp
      rw [Function.update_apply]
      split
      · subst p
        rw [hr.sequence _ hp, hphase]
        rfl
      · exact hr.sequence p hp
    data := by
      intro p hp
      rw [Function.update_apply]
      split
      · subst p
        rw [hr.data _ hp, hphase]
        rfl
      · exact hr.data p hp }

end Ring

theorem ring_new {cap : ℕ} {q : LockFreeQueue T} {capacity : UInt64}
    (hnew : LockFreeQueue.new capacity = some q) (hcap : capacity.toNat = cap)
    (htwo : 2 ≤ cap) : Ring cap q (fun _ => (.free : Phase T Tid)) 0 0 := by
  rw [LockFreeQueue.new] at hnew
  split at hnew
  · rename_i hpow
    rw [hcap] at hpow
    obtain rfl := Option.some.inj hnew
    have hlt : ∀ p, p % cap < 2 ^ 64 := by
      intro p
      have := Nat.mod_lt p (by omega : cap > 0)
      have := capacity.toNat_lt
      omega
    have hres : ∀ p, Current cap 0 p → p % cap = p := by
      intro p hp
      exact Nat.mod_eq_of_lt (by have := hp.2; omega)
    exact {
      two_le := htwo
      pow := hpow
      capacity := hcap
      enqueuePos := rfl
      dequeuePos := rfl
      free := by simp
      waiting := by simp
      served := by simp
      lap := by simp
      sequence := by
        intro p hp
        change (UInt64.ofNat (p % cap)).toNat = p
        rw [UInt64.toNat_ofNat', Nat.mod_eq_of_lt (hlt p), hres p hp]
      data := by
        intro p hp
        rfl }
  · cases hnew

end Kallisto.Queue
