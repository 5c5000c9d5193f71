import Kallisto.Verification.Queue.Correctness

/-! # The answers of the queue

A call is refused only if the ring is full or empty, as far as calls that returned can
tell, and it succeeds only if there is room or an item. -/

namespace Kallisto.Queue

variable {T Tid : Type} {pos : UInt64} {log : List (Event T Tid)} {p : ℕ}

/-! ## Signed distances -/

theorem dif_lt_zero {seq : UInt64} (hseq : seq.toNat < 2 ^ 63) (hpos : pos.toNat < 2 ^ 63) :
    dif seq pos < 0 ↔ seq.toNat < pos.toNat := by
  have hsize : Int64.size = 2 ^ 64 := rfl
  have hzero : (0 : Int64).toInt = 0 := rfl
  rw [dif, Int64.lt_iff_toInt_lt, Int64.toInt_sub, ← UInt64.ofNat_toNat (x := seq),
    ← UInt64.ofNat_toNat (x := pos), UInt64.toInt64_ofNat', UInt64.toInt64_ofNat',
    Int64.toInt_ofNat', Int64.toInt_ofNat', hsize, Int.bmod_sub_bmod, Int.sub_bmod_bmod,
    Int.bmod_eq_of_le (by omega) (by omega), hzero, UInt64.ofNat_toNat, UInt64.ofNat_toNat]
  omega

/-! ## Returned positions -/

def enqueueReturned (log : List (Event T Tid)) : List UInt64 :=
  log.filterMap fun
    | .enqueueReturns _ pos _ => some pos
    | _ => none

theorem mem_enqueueClaimed : pos ∈ enqueueClaimed log ↔ ∃ t x, .enqueueClaims t pos x ∈ log := by
  induction log with
  | nil => simp [enqueueClaimed]
  | cons e log ih => cases e <;> simp_all [enqueueClaimed, exists_or, eq_comm]

theorem mem_enqueueReturned : pos ∈ enqueueReturned log ↔ ∃ t x, .enqueueReturns t pos x ∈ log := by
  induction log with
  | nil => simp [enqueueReturned]
  | cons e log ih => cases e <;> simp_all [enqueueReturned, exists_or, eq_comm]

theorem mem_dequeueClaimed : pos ∈ dequeueClaimed log ↔ ∃ t, .dequeueClaims t pos ∈ log := by
  induction log with
  | nil => simp [dequeueClaimed]
  | cons e log ih => cases e <;> simp_all [dequeueClaimed, exists_or, eq_comm]

theorem mem_dequeueReturned : pos ∈ dequeueReturned log ↔ ∃ t d, .dequeueReturns t pos d ∈ log := by
  induction log with
  | nil => simp [dequeueReturned]
  | cons e log ih => cases e <;> simp_all [dequeueReturned, exists_or, eq_comm]

/-! ## Claims in progress -/

/-- The thread has claimed the position for an enqueue that has not returned. -/
def Pc.Producing (pos : UInt64) : Pc T → Prop
  | .enqWrite _ pos' => pos' = pos
  | .enqStore _ pos' => pos' = pos
  | _ => False

/-- The thread has claimed the position for a dequeue that has not returned. -/
def Pc.Consuming (pos : UInt64) : Pc T → Prop
  | .deqRead pos' => pos' = pos
  | .deqStore pos' _ => pos' = pos
  | _ => False

/-- A claim has returned, or its thread is still at it. -/
def Settles (log : List (Event T Tid)) (pc : Tid → Pc T) : Event T Tid → Prop
  | .enqueueClaims t pos _ => pos ∈ enqueueReturned log ∨ (pc t).Producing pos
  | .dequeueClaims t pos => pos ∈ dequeueReturned log ∨ (pc t).Consuming pos
  | _ => True

def Settled (m : Machine T Tid) : Prop :=
  ∀ e ∈ m.log, Settles m.log m.pc e

section Settled

variable [DecidableEq Tid] {m : Machine T Tid} {t : Tid} {pc pc' : Pc T}

/-- A step of one thread: its own claims stay settled by the return or by its new point. -/
theorem Settled.move (h : Settled m) {q' : LockFreeQueue T} (hpc : m.pc t = pc)
    (new : List (Event T Tid))
    (henq : ∀ pos, pc.Producing pos → pos ∈ enqueueReturned new ∨ pc'.Producing pos)
    (hdeq : ∀ pos, pc.Consuming pos → pos ∈ dequeueReturned new ∨ pc'.Consuming pos)
    (hnew : ∀ e ∈ new, Settles new (Function.update m.pc t pc') e) :
    Settled ⟨q', Function.update m.pc t pc', new ++ m.log⟩ := by
  subst hpc
  intro e he
  rcases List.mem_append.mp he with he | he
  · have hsettles := hnew e he
    cases e with
    | enqueueClaims t' pos x =>
      exact hsettles.imp_left fun hmem => by simp_all [enqueueReturned]
    | dequeueClaims t' pos =>
      exact hsettles.imp_left fun hmem => by simp_all [dequeueReturned]
    | _ => trivial
  · have hsettles := h e he
    cases e with
    | enqueueClaims t' pos x =>
      simp only [Settles, enqueueReturned, List.filterMap_append, List.mem_append] at hsettles ⊢
      by_cases hne : t' = t
      · subst hne
        rw [Function.update_self]
        rcases hsettles with hmem | hpc
        · exact Or.inl (Or.inr hmem)
        · exact (henq pos hpc).imp_left Or.inl
      · rw [Function.update_of_ne hne]
        exact hsettles.imp_left Or.inr
    | dequeueClaims t' pos =>
      simp only [Settles, dequeueReturned, List.filterMap_append, List.mem_append] at hsettles ⊢
      by_cases hne : t' = t
      · subst hne
        rw [Function.update_self]
        rcases hsettles with hmem | hpc
        · exact Or.inl (Or.inr hmem)
        · exact (hdeq pos hpc).imp_left Or.inl
      · rw [Function.update_of_ne hne]
        exact hsettles.imp_left Or.inr
    | _ => trivial

/-- A thread that has no claim in progress moves, and makes no claim. -/
theorem Settled.goto (h : Settled m) (hpc : m.pc t = pc) (henq : ∀ pos, ¬ pc.Producing pos)
    (hdeq : ∀ pos, ¬ pc.Consuming pos) : Settled (m.goto t pc') :=
  h.move hpc [] (fun pos hpos => absurd hpos (henq pos)) (fun pos hpos => absurd hpos (hdeq pos))
    (by simp)

/-- It returns or begins a call. -/
theorem Settled.quiet (h : Settled m) (hpc : m.pc t = pc) (henq : ∀ pos, ¬ pc.Producing pos)
    (hdeq : ∀ pos, ¬ pc.Consuming pos) {e : Event T Tid} (he : e.Quiet) :
    Settled ((m.goto t pc').record e) := by
  refine h.move hpc [e] (fun pos hpos => absurd hpos (henq pos))
    (fun pos hpos => absurd hpos (hdeq pos)) ?_
  cases e <;> simp_all [Settles, Event.Quiet]

theorem Settled.stepThread (h : Settled m) (t : Tid) (spurious : Bool) :
    Settled (m.stepThread t spurious) := by
  unfold Machine.stepThread
  cases hpc : m.pc t with
  | idle => exact h
  | enqLoad x => exact h.goto hpc (fun _ => id) (fun _ => id)
  | deqLoad => exact h.goto hpc (fun _ => id) (fun _ => id)
  | enqSequence x pos =>
    dsimp only
    split
    · exact h.goto hpc (fun _ => id) (fun _ => id)
    · split
      · exact h.quiet hpc (fun _ => id) (fun _ => id) trivial
      · exact h.goto hpc (fun _ => id) (fun _ => id)
  | deqSequence pos =>
    dsimp only
    split
    · exact h.goto hpc (fun _ => id) (fun _ => id)
    · split
      · exact h.quiet hpc (fun _ => id) (fun _ => id) trivial
      · exact h.goto hpc (fun _ => id) (fun _ => id)
  | enqExchange x pos =>
    dsimp only
    split
    · exact h.move hpc [.enqueueClaims t pos x] (fun _ hpos => hpos.elim)
        (fun _ hpos => hpos.elim) (by simp [Settles, Pc.Producing])
    · exact h.goto hpc (fun _ => id) (fun _ => id)
  | deqExchange pos =>
    dsimp only
    split
    · exact h.move hpc [.dequeueClaims t pos] (fun _ hpos => hpos.elim)
        (fun _ hpos => hpos.elim) (by simp [Settles, Pc.Consuming])
    · exact h.goto hpc (fun _ => id) (fun _ => id)
  | enqWrite x pos =>
    exact h.move hpc [] (fun _ hpos => Or.inr hpos) (fun _ hpos => hpos.elim) (by simp)
  | enqStore x pos =>
    refine h.move hpc [.enqueueReturns t pos x] ?_ (fun _ hpos => hpos.elim) (by simp [Settles])
    rintro _ rfl
    exact Or.inl (List.mem_singleton_self pos)
  | deqRead pos =>
    exact h.move hpc [] (fun _ hpos => hpos.elim) (fun _ hpos => Or.inr hpos) (by simp)
  | deqStore pos d =>
    refine h.move hpc [.dequeueReturns t pos d] (fun _ hpos => hpos.elim) ?_ (by simp [Settles])
    rintro _ rfl
    exact Or.inl (List.mem_singleton_self pos)

theorem Settled.step (h : Settled m) (label : Label T Tid) : Settled (m.step label) := by
  cases label with
  | enqueue t x =>
    unfold Machine.step
    dsimp only
    split
    · exact h.quiet ‹_› (fun _ => id) (fun _ => id) trivial
    · exact h
  | dequeue t =>
    unfold Machine.step
    dsimp only
    split
    · exact h.quiet ‹_› (fun _ => id) (fun _ => id) trivial
    · exact h
  | step t spurious => exact h.stepThread t spurious

end Settled

/-! ## What a cell shows of a position -/

theorem exists_current {cap r : ℕ} (hr : r < cap) (enq : ℕ) :
    ∃ c, Current cap enq c ∧ c % cap = r := by
  induction enq with
  | zero => exact ⟨r, ⟨by omega, Or.inr hr⟩, Nat.mod_eq_of_lt hr⟩
  | succ enq ih =>
    obtain ⟨c, hc, hmod⟩ := ih
    by_cases henq : enq % cap = r
    · exact ⟨enq, ⟨by omega, Or.inl (by omega)⟩, henq⟩
    · -- The next position has another residue, so that the old one stays the latest.
      have hne : enq ≠ c + cap := by
        rintro rfl
        exact henq (by rw [Nat.add_mod_right, hmod])
      exact ⟨c, ⟨by have := hc.1; omega, by have := hc.2; omega⟩, hmod⟩

theorem Phase.le_sequence (cap p : ℕ) (phase : Phase T Tid) : p ≤ phase.sequence cap p := by
  cases phase <;> simp [Phase.sequence]

theorem Phase.sequence_le {cap : ℕ} (hcap : 1 ≤ cap) (phase : Phase T Tid) :
    phase.sequence cap p ≤ p + cap := by
  cases phase <;> simp [Phase.sequence, hcap]

namespace Ring

variable {cap : ℕ} {q : LockFreeQueue T} {g : ℕ → Phase T Tid} {enq deq : ℕ}

/-- The cell of a claimed position shows that position or a later lap. -/
theorem current_or_later (hr : Ring cap q g enq deq) (hlt : p < enq) :
    Current cap enq p ∨ p + cap ≤ (q.buffer (p % cap)).sequence.toNat := by
  have htwo := hr.two_le
  by_cases hle : enq ≤ p + cap
  · exact Or.inl ⟨hle, Or.inl hlt⟩
  · right
    obtain ⟨c, hc, hmod⟩ := exists_current (Nat.mod_lt p (by omega : cap > 0)) enq
    have hlap : p + cap ≤ c := Nat.ModEq.add_le_of_lt hmod.symm (by have := hc.1; omega)
    rw [← hmod, hr.sequence c hc]
    exact le_trans hlap (Phase.le_sequence cap c (g c))

/-- The cell of the next position is as new, or it shows the lap before. -/
theorem next_cell (hr : Ring cap q g enq deq) :
    (q.buffer (enq % cap)).sequence.toNat = enq ∨ cap ≤ enq ∧
      (q.buffer (enq % cap)).sequence.toNat = (g (enq - cap)).sequence cap (enq - cap) := by
  have htwo := hr.two_le
  by_cases hcap : enq < cap
  · left
    rw [hr.sequence enq ⟨by omega, Or.inr hcap⟩, (hr.free enq).mpr le_rfl, Phase.sequence]
  · right
    refine ⟨by omega, ?_⟩
    rw [Nat.mod_eq_sub_mod (by omega)]
    exact hr.sequence _ ⟨by omega, Or.inl (by omega)⟩

theorem sequence_lt (hr : Ring cap q g enq deq) (hcap : cap ≤ 2 ^ 62) (henq : enq < 2 ^ 62)
    (p : ℕ) : (q.buffer (p % cap)).sequence.toNat < 2 ^ 63 := by
  have htwo := hr.two_le
  obtain ⟨c, hc, hmod⟩ := exists_current (Nat.mod_lt p (by omega : cap > 0)) enq
  rw [← hmod, hr.sequence c hc]
  by_cases hlt : c < enq
  · have := Phase.sequence_le (by omega : 1 ≤ cap) (p := c) (g c)
    omega
  · rw [(hr.free c).mpr (by omega), Phase.sequence]
    have := hc.2
    omega

theorem lt_deq_of_served (hr : Ring cap q g enq deq) (hfree : g p ≠ .free)
    (hwaiting : ¬ (g p).Waiting) : p < deq := by
  by_contra hle
  have hlt : p < enq := by
    by_contra hge
    exact hfree ((hr.free p).mpr (by omega))
  exact hwaiting (hr.waiting p (by omega) hlt)

theorem current_of_waiting (hr : Ring cap q g enq deq) (hdeq : deq ≤ p) (henq : p < enq) :
    Current cap enq p := by
  have hwaiting := hr.waiting p hdeq henq
  refine hr.current_of_claimed ?_ ?_
  · intro h
    rw [h] at hwaiting
    exact hwaiting
  · intro x h
    rw [h] at hwaiting
    exact hwaiting

/-- A producer that finds its cell behind: the position a lap before the next one is
still in use. -/
theorem full (hr : Ring cap q g enq deq) (hle : p ≤ enq)
    (hlt : (q.buffer (p % cap)).sequence.toNat < p) :
    cap ≤ enq ∧ ∀ x, g (enq - cap) ≠ .recycled x := by
  rcases Nat.lt_or_eq_of_le hle with hp | rfl
  · exfalso
    rcases hr.current_or_later hp with hcurrent | hlater
    · rw [hr.sequence p hcurrent] at hlt
      exact absurd (Phase.le_sequence cap p (g p)) (by omega)
    · omega
  · rcases hr.next_cell with heq | ⟨hcap, heq⟩
    · omega
    · refine ⟨hcap, ?_⟩
      intro x hx
      rw [heq, hx, Phase.sequence] at hlt
      omega

/-- A consumer that finds its cell behind: the oldest position has no item yet. -/
theorem empty (hr : Ring cap q g enq deq) (hle : p ≤ deq)
    (hlt : (q.buffer (p % cap)).sequence.toNat < p + 1) : (g deq).released = none := by
  have henq := hr.deq_le_enq
  rcases Nat.lt_or_eq_of_le hle with hp | rfl
  · exfalso
    have htwo := hr.two_le
    rcases hr.current_or_later (by omega : p < enq) with hcurrent | hlater
    · have hserved := hr.served p hp
      rw [hr.sequence p hcurrent] at hlt
      cases hphase : g p <;> rw [hphase] at hserved hlt <;>
        first | exact hserved.elim | (rw [Phase.sequence] at hlt; omega)
    · omega
  · rcases Nat.lt_or_eq_of_le henq with hp | heq
    · have hwaiting := hr.waiting p le_rfl hp
      rw [hr.sequence p (hr.current_of_waiting le_rfl hp)] at hlt
      cases hphase : g p <;> rw [hphase] at hwaiting hlt <;>
        first | exact hwaiting.elim | rfl | (rw [Phase.sequence] at hlt; omega)
    · rw [(hr.free p).mpr heq.ge]
      rfl

end Ring

/-! ## Answers -/

/-- What an answer says about the events before it. -/
def Justified (cap : ℕ) : Event T Tid → List (Event T Tid) → Prop
  -- There is room, even when only dequeues that returned are counted.
  | .enqueueClaims _ _ _, log => (enqueueClaimed log).length < (dequeueReturned log).length + cap
  -- The oldest of the last `cap` items is still there or being taken.
  | .enqueueFull _, log =>
    (∃ pos, pos.toNat + cap = (enqueueClaimed log).length ∧ pos ∉ dequeueReturned log) ∧
      (dequeueClaimed log ⊆ dequeueReturned log →
        (enqueueClaimed log).length = (dequeueClaimed log).length + cap)
  -- The item is there.
  | .dequeueClaims _ pos, log => pos ∈ enqueueReturned log
  -- The oldest item is missing or being brought.
  | .dequeueEmpty _, log =>
    (∃ pos, pos.toNat = (dequeueClaimed log).length ∧ pos ∉ enqueueReturned log) ∧
      (enqueueClaimed log ⊆ enqueueReturned log →
        (dequeueClaimed log).length = (enqueueClaimed log).length)
  | _, _ => True

def AllJustified (cap : ℕ) : List (Event T Tid) → Prop
  | [] => True
  | e :: log => Justified cap e log ∧ AllJustified cap log

theorem AllJustified.justified {cap : ℕ} {e : Event T Tid} {later earlier : List (Event T Tid)}
    (h : AllJustified cap (later ++ e :: earlier)) : Justified cap e earlier := by
  induction later with
  | nil => exact h.1
  | cons e' later ih => exact ih h.2

section Answers

variable {cap : ℕ} {m : Machine T Tid} {γ : Ghost T Tid}

theorem Inv.mem_enqueueReturned (hinv : Inv cap m γ) :
    pos ∈ enqueueReturned m.log ↔ (γ.phase pos.toNat).released ≠ none := by
  rw [Queue.mem_enqueueReturned, Option.ne_none_iff_exists', exists_comm]
  exact exists_congr fun x => hinv.ledger.released pos x

/-- A position is recycled exactly when its dequeue has returned. -/
theorem Inv.mem_dequeueReturned (hinv : Inv cap m γ) (hs : Settled m) :
    pos ∈ dequeueReturned m.log ↔ ∃ x, γ.phase pos.toNat = .recycled x := by
  constructor
  · intro hmem
    obtain ⟨t, d, hmem⟩ := Queue.mem_dequeueReturned.mp hmem
    have hreturned := hinv.ledger.returned t pos d hmem
    cases hphase : γ.phase pos.toNat <;> rw [hphase] at hreturned <;>
      first | exact ⟨_, rfl⟩ | cases hreturned
  · rintro ⟨x, hx⟩
    have hlt : pos.toNat < γ.deq :=
      hinv.ring.lt_deq_of_served (by simp [hx]) (by rw [hx]; exact id)
    rw [← hinv.ledger.deq] at hlt
    obtain ⟨t, hclaim⟩ := mem_dequeueClaimed.mp
      (mem_of_toNat_range hinv.ledger.chronicle.dequeueClaimed_eq hlt)
    rcases hs _ hclaim with hmem | hpc
    · exact hmem
    · exfalso
      have hok := hinv.threads t
      cases h : m.pc t with
      | deqRead pos' =>
        rw [h] at hpc hok
        obtain rfl : pos' = pos := hpc
        obtain ⟨y, hy⟩ := hok
        rw [hx] at hy
        cases hy
      | deqStore pos' d =>
        rw [h] at hpc hok
        obtain rfl : pos' = pos := hpc
        obtain ⟨y, hy, -⟩ := hok
        rw [hx] at hy
        cases hy
      | _ =>
        rw [h] at hpc
        exact hpc

/-- The consumers are at most a lap behind the producers. -/
theorem Inv.enq_le (hinv : Inv cap m γ) : γ.enq ≤ γ.deq + cap := by
  by_contra hlt
  obtain ⟨x, hx⟩ := hinv.ring.lap γ.deq (by omega)
  have hself : γ.deq < γ.deq := hinv.ring.lt_deq_of_served (by simp [hx]) (by rw [hx]; exact id)
  omega

/-- A claim leaves at most `cap` items whose dequeue has not returned. -/
theorem Inv.room (hinv : Inv cap m γ) (hs : Settled m) (hbound : calls m.log < 2 ^ 62)
    (hreuse : Reusable cap γ.phase γ.enq) :
    (enqueueClaimed m.log).length < (dequeueReturned m.log).length + cap := by
  have henq := hinv.enq_lt hbound
  rw [hinv.ledger.enq]
  by_cases hcap : γ.enq < cap
  · omega
  · have hsubset : List.range (γ.enq - cap + 1) ⊆ (dequeueReturned m.log).map UInt64.toNat := by
      intro p hp
      have hlt := List.mem_range.mp hp
      have htoNat : (UInt64.ofNat p).toNat = p :=
        UInt64.toNat_ofNat_of_lt' (by change p < 2 ^ 64; omega)
      refine List.mem_map.mpr ⟨UInt64.ofNat p, (hinv.mem_dequeueReturned hs).mpr ?_, htoNat⟩
      rw [htoNat]
      rcases Nat.lt_or_ge (p + cap) γ.enq with hlap | hlap
      · exact hinv.ring.lap p hlap
      · obtain rfl : p = γ.enq - cap := by omega
        exact hreuse.resolve_left hcap
    have hlength := (List.nodup_range.subperm hsubset).length_le
    rw [List.length_range, List.length_map] at hlength
    omega

/-- No position is so far ahead that the signed distance turns around. -/
theorem Inv.dif_lt_zero (hinv : Inv cap m γ) (hbound : calls m.log < 2 ^ 62) (hcap : cap ≤ 2 ^ 62)
    (pos : UInt64) {pos' : UInt64} (hle : pos'.toNat ≤ γ.enq + 1) :
    dif (m.queue.cell pos).sequence pos' < 0 ↔
      (m.queue.cell pos).sequence.toNat < pos'.toNat := by
  have henq := hinv.enq_lt hbound
  rw [hinv.ring.cell_eq]
  exact Queue.dif_lt_zero (hinv.ring.sequence_lt hcap henq _) (by omega)

theorem Inv.refuseEnqueue (hinv : Inv cap m γ) (hs : Settled m) (hbound : calls m.log < 2 ^ 62)
    (hcap : cap ≤ 2 ^ 62) {t : Tid} {x : T} (hpc : m.pc t = .enqSequence x pos)
    (hdif : dif (m.queue.cell pos).sequence pos < 0) : Justified cap (.enqueueFull t) m.log := by
  have hle : pos.toNat ≤ γ.enq := by
    have hok := hinv.threads t
    rwa [hpc] at hok
  have henq := hinv.enq_lt hbound
  rw [hinv.dif_lt_zero hbound hcap pos (by omega), hinv.ring.cell_eq] at hdif
  obtain ⟨hlap, hused⟩ := hinv.ring.full hle hdif
  have htoNat : (UInt64.ofNat (γ.enq - cap)).toNat = γ.enq - cap :=
    UInt64.toNat_ofNat_of_lt' (by change _ < 2 ^ 64; omega)
  have hmissing : UInt64.ofNat (γ.enq - cap) ∉ dequeueReturned m.log := by
    rw [hinv.mem_dequeueReturned hs, htoNat]
    rintro ⟨y, hy⟩
    exact hused y hy
  refine ⟨⟨_, ?_, hmissing⟩, ?_⟩
  · rw [htoNat, hinv.ledger.enq]
    omega
  · intro hquiet
    have hle := hinv.enq_le
    have hclaimed : ¬ γ.enq - cap < γ.deq := by
      intro hlt
      refine hmissing (hquiet (mem_of_toNat_range hinv.ledger.chronicle.dequeueClaimed_eq ?_))
      rwa [htoNat, hinv.ledger.deq]
    rw [hinv.ledger.enq, hinv.ledger.deq]
    omega

theorem Inv.refuseDequeue (hinv : Inv cap m γ) (hbound : calls m.log < 2 ^ 62)
    (hcap : cap ≤ 2 ^ 62) {t : Tid} (hpc : m.pc t = .deqSequence pos)
    (hdif : dif (m.queue.cell pos).sequence (pos + 1) < 0) :
    Justified cap (.dequeueEmpty t) m.log := by
  have hle : pos.toNat ≤ γ.deq := by
    have hok := hinv.threads t
    rwa [hpc] at hok
  have henq := hinv.enq_lt hbound
  have hdeq := hinv.ring.deq_le_enq
  have hsucc : (pos + 1).toNat = pos.toNat + 1 := toNat_add_one (by omega)
  rw [hinv.dif_lt_zero hbound hcap pos (by omega), hsucc, hinv.ring.cell_eq] at hdif
  have hreleased := hinv.ring.empty hle hdif
  have htoNat : (UInt64.ofNat γ.deq).toNat = γ.deq :=
    UInt64.toNat_ofNat_of_lt' (by change _ < 2 ^ 64; omega)
  have hmissing : UInt64.ofNat γ.deq ∉ enqueueReturned m.log := by
    rw [hinv.mem_enqueueReturned, htoNat]
    exact fun h => h hreleased
  refine ⟨⟨_, ?_, hmissing⟩, ?_⟩
  · rw [htoNat, hinv.ledger.deq]
  · intro hquiet
    have hclaimed : ¬ γ.deq < γ.enq := by
      intro hlt
      refine hmissing (hquiet (mem_of_toNat_range hinv.ledger.chronicle.enqueueClaimed_eq ?_))
      rwa [htoNat, hinv.ledger.enq]
    rw [hinv.ledger.enq, hinv.ledger.deq]
    omega

variable [DecidableEq Tid]

theorem Inv.justifiedThread (hinv : Inv cap m γ) (hs : Settled m) (hbound : calls m.log < 2 ^ 62)
    (hcap : cap ≤ 2 ^ 62) (h : AllJustified cap m.log) (t : Tid) (spurious : Bool) :
    AllJustified cap (m.stepThread t spurious).log := by
  have hok := hinv.threads t
  unfold Machine.stepThread
  cases hpc : m.pc t with
  | enqSequence x pos =>
    dsimp only
    split
    · exact h
    · split
      · exact ⟨hinv.refuseEnqueue hs hbound hcap hpc ‹_›, h⟩
      · exact h
  | deqSequence pos =>
    dsimp only
    split
    · exact h
    · split
      · exact ⟨hinv.refuseDequeue hbound hcap hpc ‹_›, h⟩
      · exact h
  | enqExchange x pos =>
    dsimp only
    split
    · rename_i hsuccess
      have heq : pos.toNat = γ.enq := by rw [← hsuccess.1, hinv.ring.enqueuePos]
      rw [hpc] at hok
      exact ⟨hinv.room hs hbound (heq ▸ hok.2 heq.ge), h⟩
    · exact h
  | deqExchange pos =>
    dsimp only
    split
    · rename_i hsuccess
      have heq : pos.toNat = γ.deq := by rw [← hsuccess.1, hinv.ring.dequeuePos]
      rw [hpc] at hok
      obtain ⟨x, hx⟩ := hok.2 heq.ge
      refine ⟨hinv.mem_enqueueReturned.mpr ?_, h⟩
      rw [hx]
      simp [Phase.released]
    · exact h
  | enqStore x pos => exact ⟨trivial, h⟩
  | deqStore pos d => exact ⟨trivial, h⟩
  | _ => exact h

theorem Inv.justified (hinv : Inv cap m γ) (hs : Settled m) (hbound : calls m.log < 2 ^ 62)
    (hcap : cap ≤ 2 ^ 62) (h : AllJustified cap m.log) (label : Label T Tid) :
    AllJustified cap (m.step label).log := by
  cases label with
  | enqueue t x =>
    unfold Machine.step
    dsimp only
    split
    · exact ⟨trivial, h⟩
    · exact h
  | dequeue t =>
    unfold Machine.step
    dsimp only
    split
    · exact ⟨trivial, h⟩
    · exact h
  | step t spurious => exact hinv.justifiedThread hs hbound hcap h t spurious

theorem settled_run (labels : List (Label T Tid)) (hs : Settled m) : Settled (m.run labels) := by
  induction labels generalizing m with
  | nil => exact hs
  | cons label labels ih => exact ih (hs.step label)

theorem Inv.run_allJustified (labels : List (Label T Tid)) (hinv : Inv cap m γ) (hs : Settled m)
    (hbound : calls m.log + labels.countP Label.isCall < 2 ^ 62) (hcap : cap ≤ 2 ^ 62)
    (h : AllJustified cap m.log) : AllJustified cap (m.run labels).log := by
  induction labels generalizing m γ with
  | nil => exact h
  | cons label labels ih =>
    rw [← List.singleton_append, List.countP_append] at hbound
    obtain ⟨γ₁, hinv₁⟩ := hinv.step (by omega) label
    have hcalls := calls_step_le m label
    exact ih hinv₁ (hs.step label) (by omega) (hinv.justified hs (by omega) hcap h label)

end Answers

/-! ## Main result -/

/-- In every run of fewer than `2 ^ 62` operations, each answer is justified by the events
before it: an enqueue is refused only while the item a lap before is still in its cell or
being taken, a dequeue only while the oldest item is missing or being brought. -/
theorem run_justified [DecidableEq Tid] (capacity : UInt64) (htwo : 2 ≤ capacity)
    (hmax : capacity.toNat ≤ 2 ^ 62) (q : LockFreeQueue T)
    (hnew : LockFreeQueue.new capacity = some q) (labels : List (Label T Tid))
    (hcalls : labels.countP Label.isCall < 2 ^ 62)
    (e : Event T Tid) (later earlier : List (Event T Tid))
    (hlog : ((Machine.init q).run labels).log = later ++ e :: earlier) :
    Justified capacity.toNat e earlier := by
  have hcap : 2 ≤ capacity.toNat := UInt64.le_iff_toNat_le.mp htwo
  have hall : AllJustified capacity.toNat ((Machine.init q).run labels).log :=
    (inv_init hnew rfl hcap).run_allJustified labels (by simp [Settled, Machine.init])
      (by simpa [Machine.init, calls] using hcalls) hmax trivial
  rw [hlog] at hall
  exact hall.justified

/-- A thread fills a queue of two cells and is refused. -/
def overfilling : List (Label ℕ Bool) :=
  let call : List (Label ℕ Bool) := .enqueue true 7 :: List.replicate 5 (.step true false)
  call ++ call ++ call

theorem run_justified_overfilling :
    ∃ q : LockFreeQueue ℕ, LockFreeQueue.new 2 = some q ∧
      ∃ earlier, ((Machine.init q).run overfilling).log = .enqueueFull true :: earlier ∧
        Justified 2 (.enqueueFull true) earlier :=
  ⟨_, if_pos ⟨1, by decide, by decide⟩, _, rfl,
    run_justified 2 (by decide) (by decide) _ (if_pos ⟨1, by decide, by decide⟩) overfilling
      (by decide) _ [] _ rfl⟩

end Kallisto.Queue
