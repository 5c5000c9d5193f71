import Kallisto.Model.DurableStorage
import Kallisto.Verification.Engine.Scripts
import Kallisto.Verification.Engine.WriteOrder

/-! # What survives a crash

Writes reach stable storage by a flush of the backend or by a synced write. -/

namespace Kallisto.Engine

open Program Interleaving

variable {B Tid : Type} {t : Tid} {c : Call} {op : Effect B} {k : op.Ret → EngineM B Out}
  {e : EnvStep}

/-! ## The backend holds what the engine has written -/

namespace RocksDbBackend

theorem contents_write (d : RocksDbBackend B) (ops : List (AsyncOp B)) :
    (d.write ops).contents = applyBatch d.contents ops := by
  cases ops with
  | nil => rfl
  | cons op ops =>
    simp only [write]
    split
    · rfl
    · exact applyBatch_append d.synced d.tail (op :: ops)

theorem contents_forceFlush (d : RocksDbBackend B) (error : Option String) :
    (d.forceFlush error).2.contents = d.contents := by
  cases error <;> rfl

/-- A write leaves on stable storage what was there, or everything. -/
theorem synced_write (d : RocksDbBackend B) (ops : List (AsyncOp B)) :
    (d.write ops).synced = d.synced ∨ (d.write ops).synced = (d.write ops).contents := by
  cases ops with
  | nil => exact Or.inl rfl
  | cons op ops =>
    simp only [write]
    split
    · exact Or.inr rfl
    · exact Or.inl rfl

end RocksDbBackend

theorem rocksdb_exec (s : KvEngine B) (op : Effect B) (c : Choice) :
    (s.exec op c).2.rocksdb = applyBatch s.rocksdb (op.stored c) := by
  obtain ⟨error, now⟩ := c
  cases op with
  | getRaw key => cases error <;> rfl
  | putRaw key value => cases error <;> rfl
  | delRaw key => cases error <;> rfl
  | enqueue op =>
    simp only [KvEngine.exec]
    split <;> rfl
  | _ => rfl

theorem rocksdb_workerStep (s : KvEngine B) (timeout fails : Bool) :
    (s.workerStep timeout fails).rocksdb = applyBatch s.rocksdb (s.flushed timeout fails) := by
  rw [KvEngine.workerStep_eq]
  obtain ⟨cache, db, mode, queue, running, worker, batch, paths⟩ := s
  cases worker with
  | head => rfl
  | poll => cases queue <;> rfl
  | settle =>
    unfold KvEngine.flushed
    dsimp only
    split
    · cases fails <;> rfl
    · rfl
  | drain =>
    cases queue with
    | nil => cases fails <;> rfl
    | cons op rest => rfl
  | exited => rfl

/-- The worker writes a front of what is pending. -/
theorem pending_workerStep (s : KvEngine B) (timeout : Bool) :
    s.pending = s.flushed timeout false ++ (s.workerStep timeout false).pending := by
  rw [KvEngine.workerStep_eq]
  obtain ⟨cache, db, mode, queue, running, worker, batch, paths⟩ := s
  cases worker with
  | head => rfl
  | poll =>
    cases queue with
    | nil => rfl
    | cons op rest => exact (List.append_assoc batch [op] rest).symm
  | settle =>
    unfold KvEngine.flushed
    dsimp only
    split
    · rfl
    · rfl
  | drain =>
    cases queue with
    | nil => rfl
    | cons op rest => exact (List.append_assoc batch [op] rest).symm
  | exited => rfl

theorem rocksdb_step [DecidableEq Tid] (rkyv : Rkyv B) (p : Clients B Tid) (l : Step B Tid) :
    (p.step (body rkyv) l).shared.rocksdb = applyBatch p.shared.rocksdb (storedBy p l) := by
  cases l with
  | invoke t c =>
    simp only [Pool.step]
    split <;> rfl
  | act t choice =>
    simp only [Pool.step, storedBy, Pool.nextCall]
    rcases p.client t with _ | ⟨c, r | ⟨op, k⟩⟩
    · rfl
    · rfl
    · exact rocksdb_exec p.shared op choice
  | respond t =>
    simp only [Pool.step]
    split <;> rfl
  | env e =>
    cases e with
    | worker timeout fails => exact rocksdb_workerStep p.shared timeout fails
    | _ => rfl

/-- The engine reads what the backend contains. -/
def Installation.Consistent (x : Installation B Tid) : Prop :=
  x.clients.shared.rocksdb = x.backend.contents

theorem Installation.Consistent.step [DecidableEq Tid] {x : Installation B Tid}
    (h : x.Consistent) (rkyv : Rkyv B) (a : Action B Tid) : (x.step rkyv a).Consistent := by
  unfold Consistent at h ⊢
  cases a with
  | engine l =>
    change (x.clients.step (body rkyv) l).shared.rocksdb = (x.backend.write _).contents
    rw [rocksdb_step, RocksDbBackend.contents_write, h]
  | setSync sync => exact h
  | forceFlush error => exact h.trans (x.backend.contents_forceFlush error).symm

/-! ## Writes go the way of the mode -/

/-- The calls that write while the mode stays as it is. -/
def modeProtocol (mode : SyncMode) : Protocol (Effect.Ret (B := B)) Unit where
  allowed
    | _, .putRaw _ _ => mode = .immediate
    | _, .delRaw _ => mode = .immediate
    | _, .enqueue _ => mode = .batch
    | _, _ => True
  possible
    | _, .getSyncMode, (m : SyncMode) => m = mode
    | _, _, _ => True
  next _ _ _ := ()

theorem Script.follows_mode (mode : SyncMode) (s : Script B) :
    Follows (modeProtocol mode) (fun _ _ => True) () s.run := by
  induction s with
  | finish r => trivial
  | read key k ih =>
    refine ⟨trivial, ?_⟩
    rintro (_ | payload) -
    · refine ⟨trivial, ?_⟩
      rintro (e | (_ | disk)) -
      · trivial
      · exact ih none
      · exact ⟨trivial, fun _ _ => ih (some disk)⟩
    · exact ih (some payload)
  | clock k ih => exact ⟨trivial, fun now _ => ih now⟩
  | write op next ih =>
    have hpublish : Follows (modeProtocol mode) (fun _ _ => True) ()
        (op.publish >>= fun _ => next.run) := by
      cases op <;> exact ⟨trivial, fun _ _ => ih⟩
    refine ⟨trivial, fun m hm => ?_⟩
    obtain rfl : m = mode := hm
    cases m with
    | immediate =>
      cases op with
      | put key value =>
        refine ⟨rfl, ?_⟩
        rintro (e | ⟨⟩) -
        · trivial
        · exact hpublish
      | delete key =>
        refine ⟨rfl, ?_⟩
        rintro (e | ⟨⟩) -
        · trivial
        · exact hpublish
    | batch =>
      refine ⟨rfl, ?_⟩
      rintro ((_ | _) | ⟨⟩) -
      · trivial
      · exact hpublish
      · exact hpublish
  | register path next ih => exact ⟨trivial, fun _ _ => ih⟩

theorem follows_mode (rkyv : Rkyv B) (mode : SyncMode) (c : Call) :
    Follows (modeProtocol mode) (fun _ _ => True) () (body rkyv c) := by
  rw [body_eq_run]
  exact (script rkyv c).follows_mode mode

theorem exec_syncMode (s : KvEngine B) (op : Effect B) (c : Choice) :
    (s.exec op c).2.syncMode = s.syncMode := by
  obtain ⟨error, now⟩ := c
  cases op with
  | getRaw key => cases error <;> rfl
  | putRaw key value => cases error <;> rfl
  | delRaw key => cases error <;> rfl
  | enqueue op =>
    simp only [KvEngine.exec]
    split <;> rfl
  | _ => rfl

theorem exec_possible_mode (s : KvEngine B) (op : Effect B) (c : Choice) :
    (modeProtocol s.syncMode).possible () op (s.exec op c).1 := by
  cases op with
  | getSyncMode => rfl
  | _ => trivial

/-- Clients go on as the current mode says. -/
def InMode [DecidableEq Tid] (p : Clients B Tid) : Prop :=
  Tracked (modeProtocol p.shared.syncMode) (fun _ _ _ => True) () p

section InMode

variable [DecidableEq Tid] {p : Clients B Tid}

theorem InMode.act (h : InMode p) (hclient : p.client t = some (c, .call op k)) (choice : Choice) :
    InMode (⟨(p.shared.exec op choice).2, p.setClient t (some (c, k (p.shared.exec op choice).1)),
      .act t op (p.shared.exec op choice).1 :: p.log⟩ : Clients B Tid) := by
  unfold InMode
  rw [exec_syncMode]
  exact Tracked.act h hclient (exec_possible_mode p.shared op choice)

theorem InMode.allowed (h : InMode p) (hclient : p.client t = some (c, .call op k)) :
    (modeProtocol p.shared.syncMode).allowed () op :=
  (h t c _ hclient).1

/-- In batch mode there are no direct writes. -/
theorem InMode.writes_eq_none (h : InMode p) (hbatch : p.shared.syncMode = .batch)
    (hclient : p.client t = some (c, .call op k)) : op.writes = none := by
  have hallowed := h.allowed hclient
  rw [hbatch] at hallowed
  cases op with
  | putRaw key value => cases hallowed
  | delRaw key => cases hallowed
  | _ => rfl

/-- Nobody else changes the mode. -/
theorem env_syncMode (s : KvEngine B) (he : ∀ mode, e ≠ .changeSyncMode mode) :
    (s.env e).syncMode = s.syncMode := by
  cases e with
  | dropEntry key => rfl
  | worker timeout fails => rfl
  | changeSyncMode mode => exact (he mode rfl).elim
  | stop => rfl

theorem InMode.env (h : InMode p) (he : ∀ mode, e ≠ .changeSyncMode mode) :
    InMode (⟨p.shared.env e, p.client, .env e :: p.log⟩ : Clients B Tid) := by
  unfold InMode
  rw [env_syncMode p.shared he]
  exact Tracked.env h _ e

/-- Without a client in a call the mode may change. -/
theorem InMode.of_idle {s : KvEngine B} {log : List (Event (system B) EngineError Call Out Tid)}
    (hidle : ∀ t, p.client t = none) : InMode (⟨s, p.client, log⟩ : Clients B Tid) := by
  intro t c prog hclient
  cases (hidle t).symm.trans hclient

end InMode

/-! ## The flush barrier -/

/-- Steps in one mode with no failing batch. -/
def SteadyWorker : Step B Tid → Prop
  | .env (.changeSyncMode _) => False
  | .env (.worker _ fails) => fails = false
  | _ => True

section Barrier

variable [DecidableEq Tid] {db : String → Option B} {p : Clients B Tid}

/-- In batch mode every accepted write is on disk or pending. -/
structure Queueing (db : String → Option B) (p : Clients B Tid) : Prop where
  batchMode : p.shared.syncMode = .batch
  inMode : InMode p
  contents : p.shared.settled = applyBatch db (acknowledged p.log)

theorem Queueing.act (h : Queueing db p) (hclient : p.client t = some (c, .call op k))
    (choice : Choice) :
    Queueing db ⟨(p.shared.exec op choice).2,
      p.setClient t (some (c, k (p.shared.exec op choice).1)),
      .act t op (p.shared.exec op choice).1 :: p.log⟩ where
  batchMode := (exec_syncMode p.shared op choice).trans h.batchMode
  inMode := h.inMode.act hclient choice
  contents := by
    have hnone := h.inMode.writes_eq_none h.batchMode hclient
    have hsettled := exec_settled p.shared op choice (by simp [hnone])
    rw [hsettled, h.contents]
    exact (applyBatch_append db _ _).symm

theorem Queueing.env (h : Queueing db p) (he : SteadyWorker (.env e : Step B Tid)) :
    Queueing db ⟨p.shared.env e, p.client, .env e :: p.log⟩ := by
  have hmode : ∀ mode, e ≠ .changeSyncMode mode := by
    rintro mode rfl
    exact he
  refine ⟨(env_syncMode p.shared hmode).trans h.batchMode, h.inMode.env hmode, ?_⟩
  cases e with
  | dropEntry key => exact h.contents
  | worker timeout fails =>
    obtain rfl : fails = false := he
    exact (KvEngine.workerStep_moves p.shared timeout).settled.trans h.contents
  | changeSyncMode mode => exact he.elim
  | stop => exact h.contents

theorem Queueing.step (h : Queueing db p) (rkyv : Rkyv B) {l : Step B Tid} (hl : SteadyWorker l) :
    Queueing db (p.step (body rkyv) l) := by
  refine Pool.step_invariant (I := Queueing db) (fun _ l => SteadyWorker l) ?_ ?_ ?_ ?_ h hl
  · intro p t c h _ _
    exact ⟨h.batchMode, h.inMode.invoke (follows_mode rkyv _ c) t, h.contents⟩
  · exact fun p t choice c op k h _ hclient => h.act hclient choice
  · intro p t c r h _ _
    exact ⟨h.batchMode, h.inMode.respond t c r, h.contents⟩
  · exact fun p e h he => h.env he

/-- When `force_flush` returns without an error, everything accepted before is in RocksDB, and
is still there after a crash. -/
def FlushBarrier (db : String → Option B) (x : Installation B Tid) : Prop :=
  ∀ error d, x.backend.forceFlush error = (.ok (), d) →
    x.clients.shared.rocksdb = applyBatch db (acknowledged x.clients.log) ∧
      ∀ mode paths, (({ x with backend := d } : Installation B Tid).reopened mode
        paths).clients.shared.rocksdb = applyBatch db (acknowledged x.clients.log)

/-- What happens in one mode on a healthy storage, with no condition on the flushes. -/
def SteadyAction : Action B Tid → Prop
  | .engine l => SteadyWorker l
  | _ => True

/-- In batch mode a flush with nothing pending is a barrier. -/
theorem run_flushBarrier (rkyv : Rkyv B) (db : String → Option B) (paths : List String)
    (actions : List (Action B Tid)) (hsteps : ∀ a ∈ actions, SteadyAction a)
    (hpending : ((Installation.opened db .batch paths).run rkyv actions).clients.shared.pending = []) :
    FlushBarrier db ((Installation.opened db .batch paths).run rkyv actions) := by
  have hinv : ((Installation.opened db .batch paths).run rkyv actions).Consistent ∧
      Queueing db ((Installation.opened db .batch paths).run rkyv actions).clients := by
    have hinit : Queueing db (Clients.opened db .batch paths : Clients B Tid) :=
      ⟨rfl, tracked_init _, rfl⟩
    refine Along.invariant (I := fun x => x.Consistent ∧ Queueing db x.clients) ?_ actions
      (Installation.opened db .batch paths) ⟨rfl, hinit⟩ (Along.of_forall _ hsteps)
    rintro x a ⟨hconsistent, hqueueing⟩ ha
    refine ⟨hconsistent.step rkyv a, ?_⟩
    cases a with
    | engine l => exact hqueueing.step rkyv ha
    | setSync sync => exact hqueueing
    | forceFlush error => exact hqueueing
  obtain ⟨hconsistent, hqueueing⟩ := hinv
  have hdb := (KvEngine.settled_of_pending_nil hpending).symm.trans hqueueing.contents
  intro error d hflush
  refine ⟨hdb, fun mode paths => ?_⟩
  cases error with
  | some e => cases hflush
  | none =>
    cases hflush
    exact hconsistent.symm.trans hdb

end Barrier

instance (l : Step B Tid) : Decidable (SteadyWorker l) :=
  match l with
  | .act _ _ => .isTrue trivial
  | .invoke _ _ => .isTrue trivial
  | .respond _ => .isTrue trivial
  | .env (.changeSyncMode _) => .isFalse id
  | .env (.dropEntry _) => .isTrue trivial
  | .env (.worker _ fails) => inferInstanceAs (Decidable (fails = false))
  | .env .stop => .isTrue trivial

instance (a : Action B Tid) : Decidable (SteadyAction a) :=
  match a with
  | .engine l => inferInstanceAs (Decidable (SteadyWorker l))
  | .setSync _ => .isTrue trivial
  | .forceFlush _ => .isTrue trivial

/-- A put in batch mode and the given steps of the worker. -/
def queuedPut (worker : List Bool) : List (Action Record Unit) :=
  (requesting () (.putVersion "p" ⟨"x", 0⟩ none) 10).map .engine ++
    worker.map fun timeout => .engine (.env (.worker timeout false))

theorem run_flushBarrier_flushed :
    (∀ a ∈ queuedPut [false, false, false, false, false, true], SteadyAction a) ∧
      FlushBarrier (fun _ => none) ((Installation.opened (fun _ => none) .batch []).run Record.rkyv
        (queuedPut [false, false, false, false, false, true])) := by
  have hsteps : ∀ a ∈ queuedPut [false, false, false, false, false, true], SteadyAction a := by
    decide
  exact ⟨hsteps, run_flushBarrier Record.rkyv _ [] _ hsteps rfl⟩

/-- The put has returned and its writes are still in the queue. The flush succeeds and leaves
them there. -/
theorem queuedPut_not_flushed :
    (∀ a ∈ queuedPut [], SteadyAction a) ∧
      ¬ FlushBarrier (fun _ => none) ((Installation.opened (fun _ => none) .batch []).run Record.rkyv
        (queuedPut [])) := by
  refine ⟨by decide, fun h => ?_⟩
  have hrecord := congrArg (fun db => db (buildMetaKey "p")) (h none _ rfl).1
  revert hrecord
  decide

end Kallisto.Engine
