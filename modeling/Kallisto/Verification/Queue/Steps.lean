import Kallisto.Verification.Queue.Invariant

/-! # Every step keeps the invariant -/

namespace Kallisto.Queue

variable {T Tid : Type} {p cap : ℕ} {x : T} {pos : UInt64} {m : Machine T Tid} {γ : Ghost T Tid}

/-! ## Threads -/

/-- What a thread may rely on at each program point. -/
def ThreadOk (cap : ℕ) (γ : Ghost T Tid) (log : List (Event T Tid)) (t : Tid) : Pc T → Prop
  | .idle => True
  | .enqLoad _ => True
  | .enqSequence _ pos => pos.toNat ≤ γ.enq
  | .enqExchange _ pos => pos.toNat ≤ γ.enq ∧
      (γ.enq ≤ pos.toNat → Reusable cap γ.phase pos.toNat)
  | .enqWrite x pos => γ.phase pos.toNat = .reserved t x ∧ ClaimedSinceBegin t pos x log
  | .enqStore x pos => γ.phase pos.toNat = .written t x ∧ ClaimedSinceBegin t pos x log
  | .deqLoad => True
  | .deqSequence pos => pos.toNat ≤ γ.deq
  | .deqExchange pos => pos.toNat ≤ γ.deq ∧
      (γ.deq ≤ pos.toNat → ∃ x, γ.phase pos.toNat = .published x)
  | .deqRead pos => ∃ x, γ.phase pos.toNat = .taken t x
  | .deqStore pos d => ∃ x, γ.phase pos.toNat = .emptied t x ∧ d = some x

/-- A step of thread `t` changes only positions it owns, claims the next free position
or takes the oldest published one. -/
structure Evolves (t : Tid) (γ γ' : Ghost T Tid) (log log' : List (Event T Tid)) : Prop where
  enq : γ.enq ≤ γ'.enq
  deq : γ.deq ≤ γ'.deq
  phase : ∀ p, γ'.phase p = γ.phase p ∨ (γ.phase p).owner = some t ∨ γ.phase p = .free ∨
    p < γ'.deq ∧ ∃ x, γ.phase p = .published x
  log : log' = log ∨ ∃ e, log' = e :: log ∧ ∀ t' x, t' ≠ t → e ≠ .enqueueBegins t' x

namespace Evolves

variable {t t' : Tid} {γ γ' : Ghost T Tid} {log log' : List (Event T Tid)}

theorem owned (h : Evolves t γ γ' log log') (hne : t' ≠ t) {next : Phase T Tid}
    (hphase : γ.phase p = next) (howner : next.owner = some t') : γ'.phase p = next := by
  rcases h.phase p with heq | howned | hfree | ⟨_, x, hx⟩
  · rw [heq, hphase]
  · rw [hphase, howner] at howned
    exact absurd (Option.some.inj howned) hne
  · rw [hphase] at hfree
    rw [hfree] at howner
    cases howner
  · rw [hphase] at hx
    rw [hx] at howner
    cases howner

theorem recycled (h : Evolves t γ γ' log log') (hphase : γ.phase p = .recycled x) :
    γ'.phase p = .recycled x := by
  rcases h.phase p with heq | howned | hfree | ⟨_, y, hy⟩
  · rw [heq, hphase]
  · rw [hphase] at howned
    cases howned
  · rw [hphase] at hfree
    cases hfree
  · rw [hphase] at hy
    cases hy

theorem published (h : Evolves t γ γ' log log') (hle : γ'.deq ≤ p)
    (hphase : γ.phase p = .published x) : γ'.phase p = .published x := by
  rcases h.phase p with heq | howned | hfree | ⟨hlt, _⟩
  · rw [heq, hphase]
  · rw [hphase] at howned
    cases howned
  · rw [hphase] at hfree
    cases hfree
  · omega

theorem claimed (h : Evolves t γ γ' log log') (hne : t' ≠ t)
    (hsince : ClaimedSinceBegin t' pos x log) : ClaimedSinceBegin t' pos x log' := by
  rcases h.log with rfl | ⟨e, rfl, he⟩
  · exact hsince
  · exact Or.inr ⟨fun y => he t' y hne, hsince⟩

/-- What another thread relies on survives the step. -/
theorem threadOk (h : Evolves t γ γ' log log') (hne : t' ≠ t) {pc : Pc T}
    (hok : ThreadOk cap γ log t' pc) : ThreadOk cap γ' log' t' pc := by
  cases pc with
  | idle => trivial
  | enqLoad x => trivial
  | enqSequence x pos => exact le_trans hok h.enq
  | enqExchange x pos =>
    refine ⟨le_trans hok.1 h.enq, ?_⟩
    intro hle
    rcases hok.2 (le_trans h.enq hle) with hlt | ⟨y, hy⟩
    · exact Or.inl hlt
    · exact Or.inr ⟨y, h.recycled hy⟩
  | enqWrite x pos => exact ⟨h.owned hne hok.1 rfl, h.claimed hne hok.2⟩
  | enqStore x pos => exact ⟨h.owned hne hok.1 rfl, h.claimed hne hok.2⟩
  | deqLoad => trivial
  | deqSequence pos => exact le_trans hok h.deq
  | deqExchange pos =>
    refine ⟨le_trans hok.1 h.deq, ?_⟩
    intro hle
    obtain ⟨x, hx⟩ := hok.2 (le_trans h.deq hle)
    exact ⟨x, h.published hle hx⟩
  | deqRead pos =>
    obtain ⟨x, hx⟩ := hok
    exact ⟨x, h.owned hne hx rfl⟩
  | deqStore pos d =>
    obtain ⟨x, hx, hd⟩ := hok
    exact ⟨x, h.owned hne hx rfl, hd⟩

/-- Only the history changed, by an event of the thread itself. -/
theorem same (hlog : log' = log ∨ ∃ e, log' = e :: log ∧ ∀ t' x, t' ≠ t → e ≠ .enqueueBegins t' x) :
    Evolves t γ γ log log' :=
  ⟨le_rfl, le_rfl, fun _ => Or.inl rfl, hlog⟩

theorem set {next : Phase T Tid} (howner : (γ.phase p).owner = some t)
    (hlog : log' = log ∨ ∃ e, log' = e :: log ∧ ∀ t' x, t' ≠ t → e ≠ .enqueueBegins t' x) :
    Evolves t γ (γ.set p next) log log' := by
  refine ⟨le_rfl, le_rfl, ?_, hlog⟩
  intro p'
  rw [Ghost.set_phase]
  split
  · rename_i he
    rw [he]
    exact Or.inr (Or.inl howner)
  · exact Or.inl rfl

end Evolves

/-! ## The invariant -/

/-- A thread inside an enqueue that has not claimed its position. -/
def Pc.Claiming : Pc T → Prop
  | .enqLoad _ => True
  | .enqSequence _ _ => True
  | .enqExchange _ _ => True
  | _ => False

structure Inv (cap : ℕ) (m : Machine T Tid) (γ : Ghost T Tid) : Prop where
  ring : Ring cap m.queue γ.phase γ.enq γ.deq
  threads : ∀ t, ThreadOk cap γ m.log t (m.pc t)
  ledger : Ledger γ m.log
  claimants : ∀ t, (m.pc t).Claiming → t ∈ γ.claimants
  budget : γ.enq + γ.claimants.card ≤ calls m.log

theorem inv_init {q : LockFreeQueue T} {capacity : UInt64}
    (hnew : LockFreeQueue.new capacity = some q) (hcap : capacity.toNat = cap) (htwo : 2 ≤ cap) :
    Inv cap (Machine.init q : Machine T Tid) ⟨fun _ => .free, 0, 0, ∅⟩ where
  ring := ring_new hnew hcap htwo
  threads _ := trivial
  ledger := {
    chronicle := trivial
    enq := rfl
    deq := rfl
    item := by simp [Machine.init]
    released := by simp [Machine.init, Phase.released]
    returned := by simp [Machine.init] }
  claimants _ h := h.elim
  budget := le_rfl

theorem calls_cons_le (e : Event T Tid) (log : List (Event T Tid)) :
    calls log ≤ calls (e :: log) := by
  rw [calls, calls, List.countP_cons]
  omega

theorem dif_eq_zero (seq pos : UInt64) : dif seq pos = 0 ↔ seq = pos := by
  rw [dif, Int64.sub_eq_iff_eq_add, Int64.zero_add, ← Int64.toBitVec_inj,
    UInt64.toBitVec_toInt64, UInt64.toBitVec_toInt64, UInt64.toBitVec_inj]

theorem Inv.enq_lt (hinv : Inv cap m γ) (hbound : calls m.log < 2 ^ 62) : γ.enq < 2 ^ 62 := by
  have := hinv.budget
  omega

theorem toNat_add_one (h : pos.toNat + 1 < 2 ^ 64) : (pos + 1).toNat = pos.toNat + 1 := by
  rw [UInt64.toNat_add]
  exact Nat.mod_eq_of_lt h

theorem Inv.lt_enq (hinv : Inv cap m γ) (h : γ.phase p ≠ .free) : p < γ.enq := by
  by_contra hge
  exact h ((hinv.ring.free p).mpr (by omega))

theorem Phase.ne_free_of_owner {phase : Phase T Tid} {t : Tid} (h : phase.owner = some t) :
    phase ≠ .free := by
  rintro rfl
  cases h

theorem Phase.ne_recycled_of_owner {phase : Phase T Tid} {t : Tid} (h : phase.owner = some t)
    (x : T) : phase ≠ .recycled x := by
  rintro rfl
  cases h

/-- The cell of an owned position shows its phase. -/
theorem Inv.cell (hinv : Inv cap m γ) {t : Tid} (howner : (γ.phase pos.toNat).owner = some t) :
    (m.queue.cell pos).sequence.toNat = (γ.phase pos.toNat).sequence cap pos.toNat ∧
      (m.queue.cell pos).data = (γ.phase pos.toNat).data := by
  have hcurrent := hinv.ring.current_of_claimed (Phase.ne_free_of_owner howner)
    (Phase.ne_recycled_of_owner howner)
  rw [hinv.ring.cell_eq]
  exact ⟨hinv.ring.sequence _ hcurrent, hinv.ring.data _ hcurrent⟩

section Steps

variable [DecidableEq Tid] {cap : ℕ} {m : Machine T Tid} {γ γ' : Ghost T Tid} {t : Tid}

/-- The frame of every step: the moving thread establishes its own point, all others keep
theirs. -/
theorem Inv.move (hinv : Inv cap m γ) {q' : LockFreeQueue T} {pc' : Pc T}
    {log' : List (Event T Tid)} (hring : Ring cap q' γ'.phase γ'.enq γ'.deq)
    (hev : Evolves t γ γ' m.log log') (hself : ThreadOk cap γ' log' t pc')
    (hledger : Ledger γ' log') (hclaim : pc'.Claiming → t ∈ γ'.claimants)
    (hothers : ∀ t', t' ≠ t → t' ∈ γ.claimants → t' ∈ γ'.claimants)
    (hbudget : γ'.enq + γ'.claimants.card ≤ calls log') :
    Inv cap ⟨q', Function.update m.pc t pc', log'⟩ γ' where
  ring := hring
  threads t' := by
    change ThreadOk cap γ' log' t' (Function.update m.pc t pc' t')
    by_cases hne : t' = t
    · subst hne
      rw [Function.update_self]
      exact hself
    · rw [Function.update_of_ne hne]
      exact hev.threadOk hne (hinv.threads t')
  ledger := hledger
  claimants t' h := by
    change (Function.update m.pc t pc' t').Claiming at h
    by_cases hne : t' = t
    · subst hne
      rw [Function.update_self] at h
      exact hclaim h
    · rw [Function.update_of_ne hne] at h
      exact hothers t' hne (hinv.claimants t' h)
  budget := hbudget

/-- A step that only moves the thread. -/
theorem Inv.goto (hinv : Inv cap m γ) {pc' : Pc T} (hself : ThreadOk cap γ m.log t pc')
    (hclaim : pc'.Claiming → t ∈ γ.claimants) : Inv cap (m.goto t pc') γ :=
  hinv.move hinv.ring (.same (Or.inl rfl)) hself hinv.ledger hclaim (fun _ _ h => h) hinv.budget

/-- A failed call returns. -/
theorem Inv.fail (hinv : Inv cap m γ) {e : Event T Tid}
    (he : e = .enqueueFull t ∨ e = .dequeueEmpty t) :
    Inv cap ((m.goto t .idle).record e) γ := by
  have hledger : Ledger γ (e :: m.log) := by
    rcases he with rfl | rfl <;> exact hinv.ledger.quiet trivial
  refine hinv.move hinv.ring (.same (Or.inr ⟨e, rfl, ?_⟩)) trivial hledger (fun h => h.elim)
    (fun _ _ h => h) (le_trans hinv.budget (calls_cons_le e m.log))
  rcases he with rfl | rfl <;> simp

theorem Inv.beginEnqueue (hinv : Inv cap m γ) (x : T) :
    Inv cap ((m.goto t (.enqLoad x)).record (.enqueueBegins t x))
      { γ with claimants := insert t γ.claimants } := by
  have hsame : Ledger { γ with claimants := insert t γ.claimants } m.log :=
    hinv.ledger.congr rfl rfl (fun _ => rfl) (fun _ => rfl) (fun _ => rfl)
  have hledger : Ledger { γ with claimants := insert t γ.claimants }
      (.enqueueBegins t x :: m.log) :=
    hsame.quiet trivial
  refine hinv.move hinv.ring ⟨le_rfl, le_rfl, fun _ => Or.inl rfl, Or.inr ⟨_, rfl, ?_⟩⟩ trivial
    hledger (fun _ => Finset.mem_insert_self t _) (fun _ _ h => Finset.mem_insert_of_mem h) ?_
  · intro t' y hne he
    exact hne (Event.enqueueBegins.inj he).1.symm
  · have hcard := Finset.card_insert_le t γ.claimants
    have hcalls : calls (.enqueueBegins t x :: m.log) = calls m.log + 1 := by
      simp [calls]
    have := hinv.budget
    change γ.enq + (insert t γ.claimants).card ≤ calls (.enqueueBegins t x :: m.log)
    omega

theorem Inv.beginDequeue (hinv : Inv cap m γ) :
    Inv cap ((m.goto t .deqLoad).record (.dequeueBegins t)) γ :=
  hinv.move hinv.ring (.same (Or.inr ⟨_, rfl, by simp⟩)) trivial
    (hinv.ledger.quiet trivial) (fun h => h.elim)
    (fun _ _ h => h) (le_trans hinv.budget (calls_cons_le _ m.log))

/-! ## The compare-exchange of a producer -/

theorem Inv.reserve (hinv : Inv cap m γ) (hbound : calls m.log < 2 ^ 62)
    (hpc : m.pc t = .enqExchange x pos) (hpos : m.queue.enqueuePos = pos) :
    Inv cap (((m.withQueue { m.queue with enqueuePos := pos + 1 }).goto t
      (.enqWrite x pos)).record (.enqueueClaims t pos x)) (γ.reserve t x) := by
  have hok : ThreadOk cap γ m.log t (.enqExchange x pos) := hpc ▸ hinv.threads t
  have heq : pos.toNat = γ.enq := by rw [← hpos, hinv.ring.enqueuePos]
  have hreuse : Reusable cap γ.phase γ.enq := heq ▸ hok.2 heq.ge
  have hlt := hinv.enq_lt hbound
  have hmem : t ∈ γ.claimants := hinv.claimants t (by rw [hpc]; trivial)
  have hfree : γ.phase γ.enq = .free := (hinv.ring.free γ.enq).mpr le_rfl
  have hring := hinv.ring.claim hreuse t x (by omega)
  rw [hpos] at hring
  refine hinv.move hring ⟨Nat.le_succ _, le_rfl, ?_, Or.inr ⟨_, rfl, by simp⟩⟩ ⟨?_, Or.inl rfl⟩
    (hinv.ledger.claim heq hfree) (fun h => h.elim)
    (fun t' hne h => Finset.mem_erase.mpr ⟨hne, h⟩) ?_
  · intro p
    rw [Ghost.reserve_phase]
    split
    · rename_i he
      rw [he]
      exact Or.inr (Or.inr (Or.inl hfree))
    · exact Or.inl rfl
  · rw [Ghost.reserve_phase, if_pos heq]
  · have hcard := Finset.card_erase_add_one hmem
    have hcalls := calls_cons_le (.enqueueClaims t pos x) m.log
    have := hinv.budget
    change γ.enq + 1 + (γ.claimants.erase t).card ≤ calls (.enqueueClaims t pos x :: m.log)
    omega

/-! ## The compare-exchange of a consumer -/

theorem Inv.take (hinv : Inv cap m γ) (hbound : calls m.log < 2 ^ 62)
    (hpc : m.pc t = .deqExchange pos) (hpos : m.queue.dequeuePos = pos) :
    ∃ x, Inv cap (((m.withQueue { m.queue with dequeuePos := pos + 1 }).goto t
      (.deqRead pos)).record (.dequeueClaims t pos)) (γ.take t x) := by
  have hok : ThreadOk cap γ m.log t (.deqExchange pos) := hpc ▸ hinv.threads t
  have heq : pos.toNat = γ.deq := by rw [← hpos, hinv.ring.dequeuePos]
  obtain ⟨x, hx⟩ : ∃ x, γ.phase γ.deq = .published x := heq ▸ hok.2 heq.ge
  have hlt := hinv.enq_lt hbound
  have hle := hinv.ring.deq_le_enq
  have hring := hinv.ring.take hx t (by omega)
  rw [hpos] at hring
  refine ⟨x, hinv.move hring ⟨le_rfl, Nat.le_succ _, ?_, Or.inr ⟨_, rfl, by simp⟩⟩ ⟨x, ?_⟩
    (hinv.ledger.take heq hx) (fun h => h.elim) (fun _ _ h => h)
    (le_trans hinv.budget (calls_cons_le _ m.log))⟩
  · intro p
    rw [Ghost.take_phase]
    split
    · rename_i he
      rw [he]
      exact Or.inr (Or.inr (Or.inr ⟨Nat.lt_succ_self _, x, hx⟩))
    · exact Or.inl rfl
  · rw [Ghost.take_phase, if_pos heq]

/-! ## Moving the item and publishing the cell -/

/-- The owner of a position moves it to its next phase and updates its cell. -/
theorem Inv.advance (hinv : Inv cap m γ) {now next : Phase T Tid} {node : Node T} {pc' : Pc T}
    {log' : List (Event T Tid)} (hphase : γ.phase pos.toNat = now) (howner : now.owner = some t)
    (hnext : next ≠ .free ∧ (now.Waiting → next.Waiting) ∧ (now.Served → next.Served))
    (hsequence : node.sequence.toNat = next.sequence cap pos.toNat) (hdata : node.data = next.data)
    (hlog : log' = m.log ∨ ∃ e, log' = e :: m.log ∧ ∀ t' x, t' ≠ t → e ≠ .enqueueBegins t' x)
    (hself : ThreadOk cap (γ.set pos.toNat next) log' t pc') (hclaim : ¬ pc'.Claiming)
    (hledger : Ledger (γ.set pos.toNat next) log') :
    Inv cap ⟨m.queue.setCell pos node, Function.update m.pc t pc', log'⟩
      (γ.set pos.toNat next) := by
  subst now
  have hring : Ring cap (m.queue.setCell pos node) (γ.set pos.toNat next).phase γ.enq γ.deq :=
    hinv.ring.advance (Phase.ne_free_of_owner howner) (Phase.ne_recycled_of_owner howner) hnext.1
      hnext.2.1 hnext.2.2 hsequence hdata
  have hcalls : calls m.log ≤ calls log' := by
    rcases hlog with rfl | ⟨e, rfl, -⟩
    · exact le_rfl
    · exact calls_cons_le e m.log
  exact hinv.move hring (.set howner hlog) hself hledger (fun h => (hclaim h).elim)
    (fun _ _ h => h) (hinv.budget.trans hcalls)

theorem Inv.write (hinv : Inv cap m γ) (hpc : m.pc t = .enqWrite x pos) :
    Inv cap ((m.withQueue (m.queue.setCell pos
      { m.queue.cell pos with data := some x })).goto t (.enqStore x pos))
      (γ.set pos.toNat (.written t x)) := by
  obtain ⟨hphase, hsince⟩ : ThreadOk cap γ m.log t (.enqWrite x pos) := hpc ▸ hinv.threads t
  have hcell := hinv.cell (t := t) (by rw [hphase]; rfl)
  rw [hphase] at hcell
  have hledger : Ledger (γ.set pos.toNat (.written t x)) m.log := by
    refine hinv.ledger.set ?_ ?_ ?_ <;> rw [hphase] <;> rfl
  refine hinv.advance hphase rfl ⟨by simp, fun _ => trivial, False.elim⟩ hcell.1 rfl (Or.inl rfl)
    ⟨?_, hsince⟩ id hledger
  rw [Ghost.set_phase, if_pos rfl]

theorem Inv.publish (hinv : Inv cap m γ) (hbound : calls m.log < 2 ^ 62)
    (hpc : m.pc t = .enqStore x pos) :
    Inv cap (((m.withQueue (m.queue.setCell pos
      { m.queue.cell pos with sequence := pos + 1 })).goto t .idle).record
        (.enqueueReturns t pos x)) (γ.set pos.toNat (.published x)) := by
  obtain ⟨hphase, hsince⟩ : ThreadOk cap γ m.log t (.enqStore x pos) := hpc ▸ hinv.threads t
  have hcell := hinv.cell (t := t) (by rw [hphase]; rfl)
  rw [hphase] at hcell
  have hlt := hinv.lt_enq (p := pos.toNat) (by simp [hphase])
  have hmax := hinv.enq_lt hbound
  exact hinv.advance hphase rfl ⟨by simp, fun _ => trivial, False.elim⟩
    (toNat_add_one (by omega)) hcell.2 (Or.inr ⟨_, rfl, by simp⟩) trivial id
    (hinv.ledger.release hphase hsince)

theorem Inv.read (hinv : Inv cap m γ) (hpc : m.pc t = .deqRead pos) :
    ∃ x, Inv cap ((m.withQueue (m.queue.setCell pos
      { m.queue.cell pos with data := none })).goto t (.deqStore pos (m.queue.cell pos).data))
      (γ.set pos.toNat (.emptied t x)) := by
  obtain ⟨x, hphase⟩ : ThreadOk cap γ m.log t (.deqRead pos) := hpc ▸ hinv.threads t
  have hcell := hinv.cell (t := t) (by rw [hphase]; rfl)
  rw [hphase] at hcell
  have hledger : Ledger (γ.set pos.toNat (.emptied t x)) m.log := by
    refine hinv.ledger.set ?_ ?_ ?_ <;> rw [hphase] <;> rfl
  refine ⟨x, hinv.advance hphase rfl ⟨by simp, False.elim, fun _ => trivial⟩ hcell.1 rfl
    (Or.inl rfl) ⟨x, ?_, hcell.2⟩ id hledger⟩
  rw [Ghost.set_phase, if_pos rfl]

theorem Inv.recycle (hinv : Inv cap m γ) (hbound : calls m.log < 2 ^ 62) {d : Option T}
    (hpc : m.pc t = .deqStore pos d) :
    ∃ x, Inv cap (((m.withQueue (m.queue.setCell pos
      { m.queue.cell pos with sequence := pos + m.queue.capacity })).goto t .idle).record
        (.dequeueReturns t pos d)) (γ.set pos.toNat (.recycled x)) := by
  obtain ⟨x, hphase, rfl⟩ : ThreadOk cap γ m.log t (.deqStore pos d) := hpc ▸ hinv.threads t
  have hcell := hinv.cell (t := t) (by rw [hphase]; rfl)
  rw [hphase] at hcell
  have hlt := hinv.lt_enq (p := pos.toNat) (by simp [hphase])
  have hmax := hinv.enq_lt hbound
  have hcap := hinv.ring.cap_le
  refine ⟨x, hinv.advance hphase rfl ⟨by simp, False.elim, fun _ => trivial⟩ ?_ hcell.2
    (Or.inr ⟨_, rfl, by simp⟩) trivial id (hinv.ledger.recycle hphase)⟩
  rw [UInt64.toNat_add, hinv.ring.capacity]
  exact Nat.mod_eq_of_lt (by omega)

/-! ## All steps -/

/-- A producer that saw its own position in the cell may try to claim it. -/
theorem Inv.exchangeEnqueue (hinv : Inv cap m γ) (hpc : m.pc t = .enqSequence x pos)
    (hseq : (m.queue.cell pos).sequence = pos) : Inv cap (m.goto t (.enqExchange x pos)) γ := by
  have hle : pos.toNat ≤ γ.enq := by
    have hok := hinv.threads t
    rwa [hpc] at hok
  refine hinv.goto ⟨hle, ?_⟩ (fun _ => hinv.claimants t (by rw [hpc]; trivial))
  intro hge
  have heq : pos.toNat = γ.enq := le_antisymm hle hge
  rw [hinv.ring.cell_eq, heq] at hseq
  rw [heq]
  exact hinv.ring.reusable_of_sequence (by rw [hseq, heq])

theorem Inv.exchangeDequeue (hinv : Inv cap m γ) (hbound : calls m.log < 2 ^ 62)
    (hpc : m.pc t = .deqSequence pos) (hseq : (m.queue.cell pos).sequence = pos + 1) :
    Inv cap (m.goto t (.deqExchange pos)) γ := by
  have hle : pos.toNat ≤ γ.deq := by
    have hok := hinv.threads t
    rwa [hpc] at hok
  have hmax := hinv.enq_lt hbound
  have hdeq := hinv.ring.deq_le_enq
  refine hinv.goto ⟨hle, ?_⟩ (fun h => h.elim)
  intro hge
  have heq : pos.toNat = γ.deq := le_antisymm hle hge
  rw [hinv.ring.cell_eq, heq] at hseq
  rw [heq]
  refine hinv.ring.published_of_sequence ?_
  rw [hseq, toNat_add_one (by omega), heq]

theorem Inv.stepThread (hinv : Inv cap m γ) (hbound : calls m.log < 2 ^ 62) (spurious : Bool) :
    ∃ γ', Inv cap (m.stepThread t spurious) γ' := by
  have hclaim : ∀ pc, m.pc t = pc → pc.Claiming → t ∈ γ.claimants := by
    rintro pc rfl
    exact hinv.claimants t
  unfold Machine.stepThread
  cases hpc : m.pc t with
  | idle => exact ⟨γ, hinv⟩
  | enqLoad x =>
    exact ⟨γ, hinv.goto hinv.ring.enqueuePos.le (fun _ => hclaim _ hpc trivial)⟩
  | enqSequence x pos =>
    dsimp only
    split
    · rename_i hzero
      exact ⟨γ, hinv.exchangeEnqueue hpc ((dif_eq_zero _ _).mp hzero)⟩
    · split
      · exact ⟨γ, hinv.fail (Or.inl rfl)⟩
      · exact ⟨γ, hinv.goto trivial (fun _ => hclaim _ hpc trivial)⟩
  | enqExchange x pos =>
    dsimp only
    split
    · rename_i hsuccess
      exact ⟨_, hinv.reserve hbound hpc hsuccess.1⟩
    · have hok := hinv.threads t
      rw [hpc] at hok
      exact ⟨γ, hinv.goto hok.1 (fun _ => hclaim _ hpc trivial)⟩
  | enqWrite x pos => exact ⟨_, hinv.write hpc⟩
  | enqStore x pos => exact ⟨_, hinv.publish hbound hpc⟩
  | deqLoad => exact ⟨γ, hinv.goto hinv.ring.dequeuePos.le (fun h => h.elim)⟩
  | deqSequence pos =>
    dsimp only
    split
    · rename_i hzero
      exact ⟨γ, hinv.exchangeDequeue hbound hpc ((dif_eq_zero _ _).mp hzero)⟩
    · split
      · exact ⟨γ, hinv.fail (Or.inr rfl)⟩
      · exact ⟨γ, hinv.goto trivial (fun h => h.elim)⟩
  | deqExchange pos =>
    dsimp only
    split
    · rename_i hsuccess
      obtain ⟨x, hx⟩ := hinv.take hbound hpc hsuccess.1
      exact ⟨_, hx⟩
    · have hok := hinv.threads t
      rw [hpc] at hok
      exact ⟨γ, hinv.goto hok.1 (fun h => h.elim)⟩
  | deqRead pos =>
    obtain ⟨x, hx⟩ := hinv.read hpc
    exact ⟨_, hx⟩
  | deqStore pos d =>
    obtain ⟨x, hx⟩ := hinv.recycle hbound hpc
    exact ⟨_, hx⟩

theorem Inv.step (hinv : Inv cap m γ) (hbound : calls m.log < 2 ^ 62) (label : Label T Tid) :
    ∃ γ', Inv cap (m.step label) γ' := by
  cases label with
  | enqueue t x =>
    unfold Machine.step
    dsimp only
    split
    · exact ⟨_, hinv.beginEnqueue x⟩
    · exact ⟨γ, hinv⟩
  | dequeue t =>
    unfold Machine.step
    dsimp only
    split
    · exact ⟨γ, hinv.beginDequeue⟩
    · exact ⟨γ, hinv⟩
  | step t spurious => exact hinv.stepThread hbound spurious

end Steps

end Kallisto.Queue
