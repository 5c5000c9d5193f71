import Kallisto.Verification.Queue.Outcomes

/-! # Progress of the queue

After a failed exchange a thread looks at the same position again. It spins as long as the
thread that won the position has not stored the new sequence number, and nothing else can
hold it up. -/

namespace Kallisto.Queue

variable {T Tid : Type} {t' : Tid}

/-! ## Waiting -/

/-- The first thread tries to claim the position that the second one works on. -/
def WaitsFor : Pc T → Pc T → Prop
  | .enqSequence _ pos, pc => pc.Producing pos
  | .enqExchange _ pos, pc => pc.Producing pos
  | .deqSequence pos, pc => pc.Consuming pos
  | .deqExchange pos, pc => pc.Consuming pos
  | _, _ => False

def Blocked (m : Machine T Tid) (t : Tid) : Prop :=
  ∃ t', WaitsFor (m.pc t) (m.pc t')

/-- All that holds in a reachable state. -/
structure Sound (cap : ℕ) (m : Machine T Tid) : Prop where
  inv : ∃ γ, Inv cap m γ
  settled : Settled m
  bound : calls m.log < 2 ^ 62
  cap_le : cap ≤ 2 ^ 62

/-! ## Roles -/

/-- What a call is for: it brings an item, or it fetches one. -/
inductive Role (T : Type) where
  | producer (data : T)
  | consumer

namespace Role

def load : Role T → Pc T
  | producer data => .enqLoad data
  | consumer => .deqLoad

def sequence (pos : UInt64) : Role T → Pc T
  | producer data => .enqSequence data pos
  | consumer => .deqSequence pos

def exchange (pos : UInt64) : Role T → Pc T
  | producer data => .enqExchange data pos
  | consumer => .deqExchange pos

/-- The position that the next claim takes. -/
def head (q : LockFreeQueue T) : Role T → UInt64
  | producer _ => q.enqueuePos
  | consumer => q.dequeuePos

/-- The sequence number of a cell that can be claimed. -/
def ready (pos : UInt64) : Role T → UInt64
  | producer _ => pos
  | consumer => pos + 1

/-- How far this number is ahead of the position. -/
def ahead : Role T → ℕ
  | producer _ => 0
  | consumer => 1

/-- How many positions have been claimed. -/
def claimed (γ : Ghost T Tid) : Role T → ℕ
  | producer _ => γ.enq
  | consumer => γ.deq

/-- The thread has claimed the position and not released it. -/
def WorksOn (pos : UInt64) (pc : Pc T) : Role T → Prop
  | producer _ => pc.Producing pos
  | consumer => pc.Consuming pos

end Role

variable {cap : ℕ} {m : Machine T Tid} {γ : Ghost T Tid} {t : Tid} {pos : UInt64} {role : Role T}

@[simp] theorem waitsFor_sequence {pc : Pc T} :
    WaitsFor (role.sequence pos) pc ↔ role.WorksOn pos pc := by
  cases role <;> rfl

@[simp] theorem waitsFor_exchange {pc : Pc T} :
    WaitsFor (role.exchange pos) pc ↔ role.WorksOn pos pc := by
  cases role <;> rfl

/-- Threads wait in the loop of their call only. -/
theorem WaitsFor.cases {pc pc' : Pc T} (h : WaitsFor pc pc') : ∃ (role : Role T) (pos : UInt64),
    (pc = role.sequence pos ∨ pc = role.exchange pos) ∧ role.WorksOn pos pc' := by
  cases pc with
  | enqSequence x pos => exact ⟨.producer x, pos, Or.inl rfl, h⟩
  | enqExchange x pos => exact ⟨.producer x, pos, Or.inr rfl, h⟩
  | deqSequence pos => exact ⟨.consumer, pos, Or.inl rfl, h⟩
  | deqExchange pos => exact ⟨.consumer, pos, Or.inr rfl, h⟩
  | _ => exact h.elim

/-! ## Owners -/

theorem Inv.producing (hinv : Inv cap m γ) (h : (m.pc t).Producing pos) :
    ∃ x, γ.phase pos.toNat = .reserved t x ∨ γ.phase pos.toNat = .written t x := by
  have hok := hinv.threads t
  cases hpc : m.pc t with
  | enqWrite x pos' =>
    rw [hpc] at h hok
    obtain rfl : pos' = pos := h
    exact ⟨x, Or.inl hok.1⟩
  | enqStore x pos' =>
    rw [hpc] at h hok
    obtain rfl : pos' = pos := h
    exact ⟨x, Or.inr hok.1⟩
  | _ =>
    rw [hpc] at h
    exact h.elim

theorem Inv.consuming (hinv : Inv cap m γ) (h : (m.pc t).Consuming pos) :
    ∃ x, γ.phase pos.toNat = .taken t x ∨ γ.phase pos.toNat = .emptied t x := by
  have hok := hinv.threads t
  cases hpc : m.pc t with
  | deqRead pos' =>
    rw [hpc] at h hok
    obtain rfl : pos' = pos := h
    obtain ⟨x, hx⟩ := hok
    exact ⟨x, Or.inl hx⟩
  | deqStore pos' d =>
    rw [hpc] at h hok
    obtain rfl : pos' = pos := h
    obtain ⟨x, hx, -⟩ := hok
    exact ⟨x, Or.inr hx⟩
  | _ =>
    rw [hpc] at h
    exact h.elim

/-- Who works on a position owns it, and its cell looks as it did before the claim. -/
theorem Inv.worksOn (hinv : Inv cap m γ) (h : role.WorksOn pos (m.pc t)) :
    (γ.phase pos.toNat).owner = some t ∧ pos.toNat < role.claimed γ ∧
      (m.queue.cell pos).sequence.toNat = pos.toNat + role.ahead := by
  cases role with
  | producer data =>
    obtain ⟨x, hphase⟩ := hinv.producing h
    have howner : (γ.phase pos.toNat).owner = some t := by
      rcases hphase with hphase | hphase <;> rw [hphase] <;> rfl
    refine ⟨howner, ?_, ?_⟩
    · rcases hphase with hphase | hphase <;> exact hinv.lt_enq (by simp [hphase])
    · rw [(hinv.cell howner).1]
      rcases hphase with hphase | hphase <;> rw [hphase] <;> rfl
  | consumer =>
    obtain ⟨x, hphase⟩ := hinv.consuming h
    have howner : (γ.phase pos.toNat).owner = some t := by
      rcases hphase with hphase | hphase <;> rw [hphase] <;> rfl
    refine ⟨howner, ?_, ?_⟩
    · rcases hphase with hphase | hphase <;>
        exact hinv.ring.lt_deq_of_served (by simp [hphase]) (by rw [hphase]; exact id)
    · rw [(hinv.cell howner).1]
      rcases hphase with hphase | hphase <;> rw [hphase] <;> rfl

theorem Inv.waitsFor_unique (hinv : Inv cap m γ) {t'' : Tid} (h : WaitsFor (m.pc t) (m.pc t'))
    (h' : WaitsFor (m.pc t) (m.pc t'')) : t' = t'' := by
  obtain ⟨role, pos, hpc, h⟩ := h.cases
  have h' : role.WorksOn pos (m.pc t'') := by
    rcases hpc with hpc | hpc <;> simpa [hpc] using h'
  exact Option.some.inj ((hinv.worksOn h).1.symm.trans (hinv.worksOn h').1)

/-- A position that is claimed and not released has its producer. -/
theorem Inv.exists_producing (hinv : Inv cap m γ) (hs : Settled m) (hlt : pos.toNat < γ.enq)
    (hreleased : (γ.phase pos.toNat).released = none) : ∃ t, (m.pc t).Producing pos := by
  rw [← hinv.ledger.enq] at hlt
  obtain ⟨t, x, hclaim⟩ := mem_enqueueClaimed.mp
    (mem_of_toNat_range hinv.ledger.chronicle.enqueueClaimed_eq hlt)
  rcases hs _ hclaim with hmem | hpc
  · exact absurd hreleased (hinv.mem_enqueueReturned.mp hmem)
  · exact ⟨t, hpc⟩

theorem Inv.exists_consuming (hinv : Inv cap m γ) (hs : Settled m) (hlt : pos.toNat < γ.deq)
    (hrecycled : ∀ x, γ.phase pos.toNat ≠ .recycled x) : ∃ t, (m.pc t).Consuming pos := by
  rw [← hinv.ledger.deq] at hlt
  obtain ⟨t, hclaim⟩ := mem_dequeueClaimed.mp
    (mem_of_toNat_range hinv.ledger.chronicle.dequeueClaimed_eq hlt)
  rcases hs _ hclaim with hmem | hpc
  · obtain ⟨x, hx⟩ := (hinv.mem_dequeueReturned hs).mp hmem
    exact absurd hx (hrecycled x)
  · exact ⟨t, hpc⟩

/-! ## What a thread sees in its cell -/

theorem Inv.head_eq (hinv : Inv cap m γ) (role : Role T) :
    (role.head m.queue).toNat = role.claimed γ := by
  cases role with
  | producer data => exact hinv.ring.enqueuePos
  | consumer => exact hinv.ring.dequeuePos

theorem Inv.claimed_le (hinv : Inv cap m γ) (role : Role T) : role.claimed γ ≤ γ.enq := by
  cases role with
  | producer data => exact le_rfl
  | consumer => exact hinv.ring.deq_le_enq

theorem Inv.enqueue_head (hinv : Inv cap m γ) (hpos : m.queue.enqueuePos = pos) :
    (m.queue.cell pos).sequence.toNat ≤ pos.toNat := by
  have heq : pos.toNat = γ.enq := by rw [← hpos, hinv.ring.enqueuePos]
  have htwo := hinv.ring.two_le
  rw [hinv.ring.cell_eq, heq]
  rcases hinv.ring.next_cell with h | ⟨hcap, h⟩
  · omega
  · have := Phase.sequence_le (by omega : 1 ≤ cap) (p := γ.enq - cap) (γ.phase (γ.enq - cap))
    omega

theorem Inv.dequeue_head (hinv : Inv cap m γ) (hpos : m.queue.dequeuePos = pos) :
    (m.queue.cell pos).sequence.toNat ≤ pos.toNat + 1 := by
  have heq : pos.toNat = γ.deq := by rw [← hpos, hinv.ring.dequeuePos]
  have hle := hinv.ring.deq_le_enq
  have htwo := hinv.ring.two_le
  rw [hinv.ring.cell_eq, heq]
  rcases Nat.lt_or_eq_of_le hle with hlt | hempty
  · have hwaiting := hinv.ring.waiting γ.deq le_rfl hlt
    rw [hinv.ring.sequence _ (hinv.ring.current_of_waiting le_rfl hlt)]
    cases hphase : γ.phase γ.deq <;> rw [hphase] at hwaiting <;>
      first | exact hwaiting.elim | simp [Phase.sequence]
  · rw [hempty]
    rcases hinv.ring.next_cell with h | ⟨hcap, h⟩
    · omega
    · have := Phase.sequence_le (by omega : 1 ≤ cap) (p := γ.enq - cap) (γ.phase (γ.enq - cap))
      omega

/-- The cell of the next position has at most the number that the claim needs. -/
theorem Inv.sequence_head (hinv : Inv cap m γ) (hpos : role.head m.queue = pos) :
    (m.queue.cell pos).sequence.toNat ≤ pos.toNat + role.ahead := by
  cases role with
  | producer data => exact hinv.enqueue_head hpos
  | consumer => exact hinv.dequeue_head hpos

/-- A position that was claimed shows a larger one once nobody works on it. -/
theorem Inv.sequence_behind (hinv : Inv cap m γ) (hs : Settled m) (hlt : pos.toNat < role.claimed γ)
    (hfree : ∀ t, ¬ role.WorksOn pos (m.pc t)) :
    pos.toNat + role.ahead < (m.queue.cell pos).sequence.toNat := by
  have htwo := hinv.ring.two_le
  have hahead : role.ahead ≤ 1 := by cases role <;> simp [Role.ahead]
  rw [hinv.ring.cell_eq]
  rcases hinv.ring.current_or_later (hlt.trans_le (hinv.claimed_le role)) with hcurrent | hlater
  · rw [hinv.ring.sequence _ hcurrent]
    cases role with
    | producer data =>
      have hreleased : (γ.phase pos.toNat).released ≠ none := by
        intro hnone
        obtain ⟨t, ht⟩ := hinv.exists_producing hs hlt hnone
        exact hfree t ht
      change pos.toNat < _
      cases hphase : γ.phase pos.toNat <;> rw [hphase] at hreleased <;>
        first | exact (hreleased rfl).elim | (rw [Phase.sequence]; omega)
    | consumer =>
      obtain ⟨x, hx⟩ : ∃ x, γ.phase pos.toNat = .recycled x := by
        by_contra hnot
        obtain ⟨t, ht⟩ := hinv.exists_consuming hs hlt fun x hx => hnot ⟨x, hx⟩
        exact hfree t ht
      rw [hx, Phase.sequence]
      omega
  · omega

/-- What the comparison in both loops finds out. -/
theorem Sound.dif_ready (h : Sound cap m) (hinv : Inv cap m γ) (hle : pos.toNat ≤ role.claimed γ) :
    (dif (m.queue.cell pos).sequence (role.ready pos) = 0 ↔
        (m.queue.cell pos).sequence.toNat = pos.toNat + role.ahead) ∧
      (dif (m.queue.cell pos).sequence (role.ready pos) < 0 ↔
        (m.queue.cell pos).sequence.toNat < pos.toNat + role.ahead) := by
  have henq := hinv.enq_lt h.bound
  have hclaimed := hinv.claimed_le role
  have hready : (role.ready pos).toNat = pos.toNat + role.ahead := by
    cases role with
    | producer data => rfl
    | consumer => exact toNat_add_one (by omega)
  have hahead : role.ahead ≤ 1 := by cases role <;> simp [Role.ahead]
  rw [dif_eq_zero, ← UInt64.toNat_inj, hinv.dif_lt_zero h.bound h.cap_le pos (by omega), hready]
  exact ⟨Iff.rfl, Iff.rfl⟩

/-! ## Steps of one thread -/

section Solo

variable [DecidableEq Tid]

theorem stepThread_pc_of_ne (m : Machine T Tid) {t : Tid} (hne : t' ≠ t) (spurious : Bool) :
    (m.stepThread t spurious).pc t' = m.pc t' := by
  unfold Machine.stepThread
  dsimp only
  split <;> (repeat' split) <;>
    simp [Machine.goto, Machine.record, Machine.withQueue, Function.update_of_ne hne]

theorem calls_run_le (m : Machine T Tid) (labels : List (Label T Tid)) :
    calls (m.run labels).log ≤ calls m.log + labels.countP Label.isCall := by
  induction labels generalizing m with
  | nil => exact le_rfl
  | cons label labels ih =>
    have hstep := calls_step_le m label
    have hrest := ih (m.step label)
    rw [← List.singleton_append, List.countP_append]
    change calls ((m.step label).run labels).log ≤ _
    omega

theorem Sound.stepThread (h : Sound cap m) (t : Tid) (spurious : Bool) :
    Sound cap (m.stepThread t spurious) where
  inv := by
    obtain ⟨γ, hinv⟩ := h.inv
    exact hinv.stepThread h.bound spurious
  settled := h.settled.stepThread t spurious
  bound := by
    rw [calls_stepThread]
    exact h.bound
  cap_le := h.cap_le

/-- The thread returns within so many steps of its own. -/
def Returns (m : Machine T Tid) (t : Tid) (n : ℕ) : Prop :=
  (m.run (List.replicate n (.step t false))).pc t = .idle

theorem returns_zero (hpc : m.pc t = .idle) : Returns m t 0 :=
  hpc

theorem Returns.step {n : ℕ} (h : Returns (m.stepThread t false) t n) : Returns m t (n + 1) :=
  h

/-- A thread that has returned stays idle. -/
theorem Returns.mono {n k : ℕ} (h : Returns m t n) (hle : n ≤ k) : Returns m t k := by
  induction n generalizing m k with
  | zero =>
    have hidle : m.pc t = .idle := h
    have hstep : m.stepThread t false = m := by simp [Machine.stepThread, hidle]
    induction k with
    | zero => exact h
    | succ k ih => exact Returns.step (hstep.symm ▸ ih (Nat.zero_le k))
  | succ n ih =>
    obtain ⟨k, rfl⟩ : ∃ k', k = k' + 1 := ⟨k - 1, by omega⟩
    have hnext : Returns (m.stepThread t false) t n := h
    exact Returns.step (ih hnext (by omega))

/-! ### The loop of a call -/

theorem stepThread_load (hpc : m.pc t = role.load) (spurious : Bool) :
    m.stepThread t spurious = m.goto t (role.sequence (role.head m.queue)) := by
  cases role <;> simp only [Role.load] at hpc <;>
    simp [Machine.stepThread, hpc, Role.sequence, Role.head]

theorem stepThread_sequence (hpc : m.pc t = role.sequence pos) (spurious : Bool) :
    (m.stepThread t spurious).queue = m.queue ∧ (m.stepThread t spurious).pc t =
      if dif (m.queue.cell pos).sequence (role.ready pos) = 0 then role.exchange pos
      else if dif (m.queue.cell pos).sequence (role.ready pos) < 0 then .idle
      else role.load := by
  cases role <;> simp only [Role.sequence] at hpc <;>
    simp only [Machine.stepThread, hpc, Role.ready, Role.exchange, Role.load] <;>
    split <;> (try split) <;> simp [*, Machine.goto, Machine.record]

theorem stepThread_claims (hpc : m.pc t = role.exchange pos) (hpos : role.head m.queue = pos) :
    role.WorksOn pos ((m.stepThread t false).pc t) := by
  cases role <;> simp only [Role.exchange, Role.head] at hpc hpos <;>
    simp [Machine.stepThread, hpc, hpos, Role.WorksOn, Machine.goto, Machine.record, Pc.Producing,
      Pc.Consuming]

theorem stepThread_misses (hpc : m.pc t = role.exchange pos) (hpos : role.head m.queue ≠ pos)
    (spurious : Bool) : (m.stepThread t spurious).pc t = role.sequence pos := by
  cases role <;> simp only [Role.exchange, Role.head] at hpc hpos <;>
    simp [Machine.stepThread, hpc, hpos, Role.sequence, Machine.goto]

/-- From its claim on, a call takes two steps. -/
theorem returns_of_worksOn (role : Role T) (h : role.WorksOn pos (m.pc t)) : Returns m t 2 := by
  cases hpc : m.pc t <;> rw [hpc] at h <;> first
    | (cases role <;> exact h.elim)
    | simp [Returns, Machine.run, Machine.step, Machine.stepThread, hpc, Machine.goto,
        Machine.record]

theorem returns_exchange (hpc : m.pc t = role.exchange pos) (hpos : role.head m.queue = pos) :
    Returns m t 3 :=
  Returns.step (returns_of_worksOn role (stepThread_claims hpc hpos))

/-- At the head of the queue a call claims its position or is refused. -/
theorem Sound.returns_sequence (h : Sound cap m) (role : Role T) (hpc : m.pc t = role.sequence pos)
    (hpos : role.head m.queue = pos) : Returns m t 4 := by
  obtain ⟨γ, hinv⟩ := h.inv
  have hle : pos.toNat ≤ role.claimed γ := by rw [← hpos, hinv.head_eq]
  obtain ⟨hzero, hneg⟩ := h.dif_ready hinv hle
  obtain ⟨hqueue, hnext⟩ := stepThread_sequence hpc false
  rcases (hinv.sequence_head hpos).eq_or_lt with heq | hlt
  · rw [if_pos (hzero.mpr heq)] at hnext
    exact Returns.step (returns_exchange hnext (by rw [hqueue, hpos]))
  · rw [if_neg (mt hzero.mp hlt.ne), if_pos (hneg.mpr hlt)] at hnext
    exact (Returns.step (returns_zero hnext)).mono (by omega)

theorem Sound.returns_load (h : Sound cap m) (role : Role T) (hpc : m.pc t = role.load) :
    Returns m t 5 := by
  have hnext := stepThread_load hpc false
  have hsound := h.stepThread t false
  rw [hnext] at hsound
  refine Returns.step (hnext ▸ hsound.returns_sequence role ?_ rfl)
  simp [Machine.goto]

/-- Behind the head it starts over. -/
theorem Sound.returns_sequence_of_free (h : Sound cap m) (role : Role T)
    (hpc : m.pc t = role.sequence pos) (hfree : ∀ t', ¬ role.WorksOn pos (m.pc t')) :
    Returns m t 6 := by
  obtain ⟨γ, hinv⟩ := h.inv
  have hle : pos.toNat ≤ role.claimed γ := by
    have hok := hinv.threads t
    rw [hpc] at hok
    cases role <;> exact hok
  by_cases hpos : role.head m.queue = pos
  · exact (h.returns_sequence role hpc hpos).mono (by omega)
  · have hlt : pos.toNat < role.claimed γ := by
      refine lt_of_le_of_ne hle fun heq => hpos ?_
      rw [← UInt64.toNat_inj, hinv.head_eq, heq]
    have hseq := hinv.sequence_behind h.settled hlt hfree
    obtain ⟨hzero, hneg⟩ := h.dif_ready hinv hle
    obtain ⟨-, hnext⟩ := stepThread_sequence hpc false
    rw [if_neg (mt hzero.mp hseq.ne'), if_neg (mt hneg.mp hseq.not_gt)] at hnext
    exact Returns.step ((h.stepThread t false).returns_load role hnext)

theorem Sound.returns_exchange_of_free (h : Sound cap m) (role : Role T)
    (hpc : m.pc t = role.exchange pos) (hfree : ∀ t', ¬ role.WorksOn pos (m.pc t')) :
    Returns m t 7 := by
  by_cases hpos : role.head m.queue = pos
  · exact (returns_exchange hpc hpos).mono (by omega)
  · have hnext := stepThread_misses hpc hpos false
    refine Returns.step ((h.stepThread t false).returns_sequence_of_free role hnext ?_)
    intro t' ht'
    by_cases hne : t' = t
    · rw [hne, hnext] at ht'
      cases role <;> exact ht'
    · rw [stepThread_pc_of_ne m hne] at ht'
      exact hfree t' ht'

/-- A thread that waits for nobody returns on its own. -/
theorem Sound.returns (h : Sound cap m) (hfree : ¬ Blocked m t) : Returns m t 7 := by
  have hfree : ∀ t', ¬ WaitsFor (m.pc t) (m.pc t') := fun t' ht' => hfree ⟨t', ht'⟩
  cases hpc : m.pc t with
  | idle => exact (returns_zero hpc).mono (by omega)
  | enqLoad x => exact (h.returns_load (.producer x) hpc).mono (by omega)
  | enqSequence x pos =>
    rw [hpc] at hfree
    exact (h.returns_sequence_of_free (.producer x) hpc hfree).mono (by omega)
  | enqExchange x pos =>
    rw [hpc] at hfree
    exact h.returns_exchange_of_free (.producer x) hpc hfree
  | deqLoad => exact (h.returns_load .consumer hpc).mono (by omega)
  | deqSequence pos =>
    rw [hpc] at hfree
    exact (h.returns_sequence_of_free .consumer hpc hfree).mono (by omega)
  | deqExchange pos =>
    rw [hpc] at hfree
    exact h.returns_exchange_of_free .consumer hpc hfree
  | enqWrite x pos =>
    exact (returns_of_worksOn (.producer x) (by rw [hpc]; rfl)).mono (by omega)
  | enqStore x pos =>
    exact (returns_of_worksOn (.producer x) (by rw [hpc]; rfl)).mono (by omega)
  | deqRead pos => exact (returns_of_worksOn .consumer (by rw [hpc]; rfl)).mono (by omega)
  | deqStore pos d => exact (returns_of_worksOn .consumer (by rw [hpc]; rfl)).mono (by omega)

/-! ### Spinning -/

theorem WaitsFor.ne {pc pc' : Pc T} (h : WaitsFor pc pc') : pc ≠ pc' := by
  rintro rfl
  cases pc <;> exact h

/-- As long as the other thread does not move, waiting leads nowhere. -/
theorem Sound.waitsFor_stepThread (h : Sound cap m) (hwaits : WaitsFor (m.pc t) (m.pc t'))
    (spurious : Bool) :
    WaitsFor ((m.stepThread t spurious).pc t) ((m.stepThread t spurious).pc t') := by
  have hne : t' ≠ t := by
    rintro rfl
    exact hwaits.ne rfl
  rw [stepThread_pc_of_ne m hne]
  obtain ⟨γ, hinv⟩ := h.inv
  obtain ⟨role, pos, hpc | hpc, hheld⟩ := hwaits.cases
  · obtain ⟨-, hlt, hseq⟩ := hinv.worksOn hheld
    rw [(stepThread_sequence hpc spurious).2, if_pos ((h.dif_ready hinv hlt.le).1.mpr hseq)]
    exact waitsFor_exchange.mpr hheld
  · obtain ⟨-, hlt, -⟩ := hinv.worksOn hheld
    have hpos : role.head m.queue ≠ pos := by
      rintro rfl
      exact hlt.ne (hinv.head_eq role)
    rw [stepThread_misses hpc hpos spurious]
    exact waitsFor_sequence.mpr hheld

theorem Sound.spins (flags : List Bool) (h : Sound cap m) (hblocked : Blocked m t) :
    (m.run (flags.map (.step t))).pc t ≠ .idle := by
  induction flags generalizing m with
  | nil =>
    obtain ⟨t', hwaits⟩ := hblocked
    intro hidle
    change m.pc t = .idle at hidle
    rw [hidle] at hwaits
    exact hwaits
  | cons flag flags ih =>
    obtain ⟨t', hwaits⟩ := hblocked
    exact ih (h.stepThread t flag) ⟨t', h.waitsFor_stepThread hwaits flag⟩

/-! ### Release -/

theorem Sound.run (flags : List Bool) (h : Sound cap m) (t : Tid) :
    Sound cap (m.run (flags.map (.step t))) := by
  induction flags generalizing m with
  | nil => exact h
  | cons flag flags ih => exact ih (h.stepThread t flag)

theorem run_pc_of_ne (flags : List Bool) (m : Machine T Tid) {t : Tid} (hne : t' ≠ t) :
    (m.run (flags.map (.step t))).pc t' = m.pc t' := by
  induction flags generalizing m with
  | nil => rfl
  | cons flag flags ih => exact (ih (m.stepThread t flag)).trans (stepThread_pc_of_ne m hne flag)

/-- Once the thread it waits for has returned, a thread waits for nobody. -/
theorem Sound.released (h : Sound cap m) (hwaits : WaitsFor (m.pc t) (m.pc t')) :
    Returns (m.run (List.replicate 2 (.step t' false))) t 7 := by
  obtain ⟨γ, hinv⟩ := h.inv
  have hne : t ≠ t' := by
    rintro rfl
    exact hwaits.ne rfl
  refine (h.run [false, false] t').returns ?_
  rintro ⟨t'', hwaits'⟩
  rw [run_pc_of_ne _ m hne] at hwaits'
  by_cases heq : t'' = t'
  · have hidle : (m.run (List.replicate 2 (.step t' false))).pc t' = .idle := by
      obtain ⟨role, pos, -, hheld⟩ := hwaits.cases
      exact returns_of_worksOn role hheld
    change WaitsFor _ ((m.run (List.replicate 2 (.step t' false))).pc t'') at hwaits'
    rw [heq, hidle] at hwaits'
    cases hpc : m.pc t <;> rw [hpc] at hwaits' <;> exact hwaits'
  · rw [run_pc_of_ne _ m heq] at hwaits'
    exact heq (hinv.waitsFor_unique hwaits' hwaits)

end Solo

/-! ## Main result -/

/-- What every thread can count on. -/
structure Progress [DecidableEq Tid] (m : Machine T Tid) : Prop where
  /-- Seven steps are enough for a thread that waits for nobody. -/
  returns : ∀ t, ¬ Blocked m t → (m.run (List.replicate 7 (.step t false))).pc t = .idle
  /-- One that waits never returns on its own. -/
  spins : ∀ t, Blocked m t → ∀ flags : List Bool, (m.run (flags.map (.step t))).pc t ≠ .idle
  /-- It waits for a single thread. -/
  awaited : ∀ t, Blocked m t → ∃! t', WaitsFor (m.pc t) (m.pc t')
  /-- That thread needs two steps to let it go. -/
  released : ∀ t t', WaitsFor (m.pc t) (m.pc t') →
    (m.run (List.replicate 2 (.step t' false) ++ List.replicate 7 (.step t false))).pc t = .idle

/-- In every state that a run of fewer than `2 ^ 62` operations reaches. -/
theorem run_progress [DecidableEq Tid] (capacity : UInt64) (htwo : 2 ≤ capacity)
    (hmax : capacity.toNat ≤ 2 ^ 62) (q : LockFreeQueue T)
    (hnew : LockFreeQueue.new capacity = some q) (labels : List (Label T Tid))
    (hcalls : labels.countP Label.isCall < 2 ^ 62) : Progress ((Machine.init q).run labels) := by
  have hcap : 2 ≤ capacity.toNat := UInt64.le_iff_toNat_le.mp htwo
  have hstart : calls (Machine.init q : Machine T Tid).log = 0 := rfl
  have hsound : Sound capacity.toNat ((Machine.init q).run labels) := {
    inv := Inv.run labels _ _ (inv_init hnew rfl hcap) (by omega)
    settled := settled_run labels (by simp [Settled, Machine.init])
    bound := by
      have := calls_run_le (Machine.init q) labels
      omega
    cap_le := hmax }
  constructor
  · exact fun t hfree => hsound.returns hfree
  · exact fun t hblocked flags => hsound.spins flags hblocked
  · rintro t ⟨t', hwaits⟩
    obtain ⟨γ, hinv⟩ := hsound.inv
    exact ⟨t', hwaits, fun t'' hwaits' => hinv.waitsFor_unique hwaits' hwaits⟩
  · intro t t' hwaits
    rw [Machine.run, List.foldl_append]
    exact hsound.released hwaits

/-- Two producers go for the first position. -/
def contended : List (Label ℕ Bool) :=
  [.enqueue true 7, .enqueue false 8, .step true false, .step false false, .step true false,
    .step false false, .step true false]

theorem run_progress_contended :
    ∃ q : LockFreeQueue ℕ, LockFreeQueue.new 2 = some q ∧
      Blocked ((Machine.init q).run contended) false ∧
      Progress ((Machine.init q).run contended) :=
  ⟨_, if_pos ⟨1, by decide, by decide⟩, ⟨true, rfl⟩,
    run_progress 2 (by decide) (by decide) _ (if_pos ⟨1, by decide, by decide⟩) contended
      (by decide)⟩

end Kallisto.Queue
