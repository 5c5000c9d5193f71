import Kallisto.Model.EngineSystem

/-! # Pending writes

What the worker has still to write to RocksDB, and what it leaves there. -/

namespace Kallisto.Engine

variable {B : Type}

/-! ## Raw writes -/

theorem AsyncOp.apply_key (db : String → Option B) (op : AsyncOp B) :
    op.apply db op.key = op.value :=
  WriteBehind.write_self db op

variable {op : AsyncOp B}

theorem AsyncOp.apply_of_ne (db : String → Option B) {key : String} (h : key ≠ op.key) :
    op.apply db key = db key :=
  WriteBehind.write_of_ne db h

theorem put_apply_ne_none {db : String → Option B} {key key' : String} (b : B)
    (h : db key' ≠ none) : (AsyncOp.put key b).apply db key' ≠ none := by
  by_cases hkey : key' = key
  · subst hkey
    change (AsyncOp.put key' b).apply db (AsyncOp.put key' b).key ≠ none
    rw [AsyncOp.apply_key]
    exact nofun
  · rwa [AsyncOp.apply_of_ne db hkey]

/-- A key holds what the last operation on it leaves there. -/
theorem applyBatch_apply (db : String → Option B) (batch : List (AsyncOp B)) (key : String) :
    applyBatch db batch key =
      ((batch.reverse.find? fun op => op.key = key).map AsyncOp.value).getD (db key) :=
  WriteBehind.writeAll_apply db batch key

theorem applyBatch_append (db : String → Option B) (ops ops' : List (AsyncOp B)) :
    applyBatch db (ops ++ ops') = applyBatch (applyBatch db ops) ops' :=
  WriteBehind.writeAll_append db ops ops'

theorem applyBatch_singleton (db : String → Option B) (op : AsyncOp B) :
    applyBatch db [op] = op.apply db :=
  rfl

namespace KvEngine

variable {s s' : KvEngine B}

/-! ## Pending writes -/

/-- The accepted writes that have not reached RocksDB, in the order in which they will. -/
def pending (s : KvEngine B) : List (AsyncOp B) :=
  s.batch ++ s.asyncQueue

/-- The contents of RocksDB once the pending writes have reached it. -/
def settled (s : KvEngine B) : String → Option B :=
  applyBatch s.rocksdb s.pending

theorem settled_of_forall_ne {key : String} (h : ∀ op ∈ s.pending, op.key ≠ key) :
    s.settled key = s.rocksdb key :=
  WriteBehind.writeAll_of_forall_ne _ h

theorem settled_of_pending_nil (h : s.pending = []) : s.settled = s.rocksdb := by
  unfold settled
  rw [h]
  rfl

/-! ## The worker -/

/-- A failing flush prints an error and clears the batch all the same. -/
def flush (s : KvEngine B) (fails : Bool) : KvEngine B :=
  { s with
    rocksdb := if fails then s.rocksdb else applyBatch s.rocksdb s.batch
    batch := [] }

/-- A batch that is not written is lost; an empty one is not missed. -/
theorem withWorker_flush (s : KvEngine B) (fails : Bool) (pc : WorkerPc) :
    s.withWorker { s.backgroundWorker.flush fails with pc := pc } =
      { s.flush fails with worker := pc } := by
  unfold withWorker Background.Worker.flush flush backgroundWorker
  cases fails with
  | false => rfl
  | true =>
    by_cases hempty : s.batch = []
    · simp [hempty, applyBatch, WriteBehind.writeAll, Background.Worker.started]
    · simp [hempty, Background.Worker.started]

/-- What the steps of the worker do. -/
theorem workerStep_eq (s : KvEngine B) (timeout fails : Bool) :
    s.workerStep timeout fails =
      match s.worker with
      | .head => { s with worker := if s.asyncRunning then .poll else .drain }
      | .poll =>
        match s.asyncQueue with
        | [] => { s with worker := .settle }
        | op :: rest => { s with asyncQueue := rest, batch := s.batch ++ [op], worker := .settle }
      | .settle =>
        if s.batch.length ≥ 1024 ∨ timeout = true ∧ s.batch ≠ [] then
          { s.flush fails with worker := .head }
        else { s with worker := .head }
      | .drain =>
        match s.asyncQueue with
        | [] => { s.flush fails with worker := .exited }
        | op :: rest => { s with asyncQueue := rest, batch := s.batch ++ [op] }
      | .exited => s := by
  unfold workerStep Background.asyncWorkerLoop Background.Worker.loop
  obtain ⟨cache, db, mode, queue, running, worker, batch, paths⟩ := s
  cases worker with
  | head => rfl
  | poll => cases queue <;> rfl
  | settle =>
    exact (apply_ite (withWorker _) _ _ _).trans
      (if_congr Iff.rfl (withWorker_flush _ fails .head) rfl)
  | drain =>
    cases queue with
    | cons op rest => rfl
    | nil =>
      by_cases hempty : batch = []
      · subst hempty
        cases fails <;> rfl
      · refine Eq.trans ?_ (withWorker_flush _ fails .exited)
        exact congrArg (withWorker _) (if_pos hempty)
  | exited => rfl

/-- What a step of the worker can do when no write fails. -/
inductive WorkerMoves (s : KvEngine B) : KvEngine B → Prop where
  | goto (pc : WorkerPc) : WorkerMoves s { s with worker := pc }
  | take (op : AsyncOp B) (rest : List (AsyncOp B)) (pc : WorkerPc)
      (h : s.asyncQueue = op :: rest) :
      WorkerMoves s { s with asyncQueue := rest, batch := s.batch ++ [op], worker := pc }
  | flush (pc : WorkerPc) : WorkerMoves s { s.flush false with worker := pc }

theorem workerStep_moves (s : KvEngine B) (timeout : Bool) :
    WorkerMoves s (s.workerStep timeout false) := by
  rw [workerStep_eq]
  split
  · exact .goto _
  · split
    · exact .goto _
    · next op rest h => exact .take op rest _ h
  · split
    · exact .flush _
    · exact .goto _
  · split
    · exact .flush _
    · next op rest h => exact .take op rest s.worker h
  · exact .goto s.worker

theorem pending_take {rest : List (AsyncOp B)} (h : s.asyncQueue = op :: rest) (pc : WorkerPc) :
    pending { s with asyncQueue := rest, batch := s.batch ++ [op], worker := pc } = s.pending := by
  change (s.batch ++ [op]) ++ rest = s.batch ++ s.asyncQueue
  rw [h, List.append_assoc]
  rfl

theorem WorkerMoves.settled (h : WorkerMoves s s') : s'.settled = s.settled := by
  cases h with
  | goto pc => rfl
  | take op rest pc h =>
    unfold KvEngine.settled
    rw [pending_take h]
  | flush pc => exact (applyBatch_append s.rocksdb s.batch s.asyncQueue).symm

/-- The worker takes writes away from the front only. -/
theorem WorkerMoves.pending_suffix (h : WorkerMoves s s') : s'.pending <:+ s.pending := by
  cases h with
  | goto pc => exact List.suffix_refl _
  | take op rest pc h =>
    simp only [pending_take h, List.suffix_refl]
  | flush pc => exact ⟨s.batch, rfl⟩

theorem WorkerMoves.cache (h : WorkerMoves s s') : s'.cache = s.cache := by
  cases h <;> rfl

theorem WorkerMoves.syncMode (h : WorkerMoves s s') : s'.syncMode = s.syncMode := by
  cases h <;> rfl

/-! ## Writes -/

/-- A queued write takes effect after those pending. -/
theorem settled_enqueue (s : KvEngine B) (op : AsyncOp B) :
    settled { s with asyncQueue := s.asyncQueue ++ [op] } = op.apply s.settled := by
  change applyBatch s.rocksdb (s.batch ++ (s.asyncQueue ++ [op])) = _
  rw [← List.append_assoc]
  exact applyBatch_append s.rocksdb (s.batch ++ s.asyncQueue) [op]

/-- A direct write takes effect after those pending when none of them is to its key. -/
theorem settled_write (s : KvEngine B) (h : ∀ op' ∈ s.pending, op'.key ≠ op.key) :
    settled { s with rocksdb := op.apply s.rocksdb } = op.apply s.settled :=
  WriteBehind.writeAll_write s.rocksdb h

/-! ## Shutdown -/

/-- The engine is dropped: the worker is told to stop and steps until it is joined. -/
def dropped (s : KvEngine B) (timeouts : List Bool) : KvEngine B :=
  timeouts.foldl (fun s timeout => s.workerStep timeout false) (s.env .stop)

/-- How many steps a stopped worker still takes at most. -/
def remaining (s : KvEngine B) : ℕ :=
  match s.worker with
  | .poll => s.asyncQueue.length + 4
  | .settle => s.asyncQueue.length + 3
  | .head => s.asyncQueue.length + 2
  | .drain => s.asyncQueue.length + 1
  | .exited => 0

/-- A stopped worker exits only after everything is written. -/
structure Stopping (s : KvEngine B) : Prop where
  stopped : s.asyncRunning = false
  exited : s.worker = .exited → s.pending = []

theorem Stopping.workerStep (h : Stopping s) (timeout : Bool) :
    Stopping (s.workerStep timeout false) ∧
      (s.workerStep timeout false).remaining ≤ s.remaining - 1 := by
  rw [workerStep_eq]
  obtain ⟨cache, db, mode, queue, running, worker, batch, paths⟩ := s
  obtain ⟨hstopped, hexited⟩ := h
  obtain rfl : running = false := hstopped
  cases worker with
  | head => exact ⟨⟨rfl, fun h => by cases h⟩, Nat.le_refl _⟩
  | poll =>
    cases queue with
    | nil => exact ⟨⟨rfl, fun h => by cases h⟩, Nat.le_refl _⟩
    | cons op rest => exact ⟨⟨rfl, fun h => by cases h⟩, Nat.le_succ _⟩
  | settle =>
    dsimp only
    split
    · exact ⟨⟨rfl, fun h => by cases h⟩, Nat.le_refl _⟩
    · exact ⟨⟨rfl, fun h => by cases h⟩, Nat.le_refl _⟩
  | drain =>
    cases queue with
    | nil => exact ⟨⟨rfl, fun _ => rfl⟩, Nat.zero_le _⟩
    | cons op rest => exact ⟨⟨rfl, fun h => by cases h⟩, Nat.le_refl _⟩
  | exited => exact ⟨⟨rfl, hexited⟩, Nat.le_refl _⟩

theorem Stopping.steps (timeouts : List Bool) :
    ∀ {s : KvEngine B}, Stopping s →
      let s' := timeouts.foldl (fun s timeout => s.workerStep timeout false) s
      Stopping s' ∧ s'.remaining ≤ s.remaining - timeouts.length ∧ s'.settled = s.settled := by
  induction timeouts with
  | nil => exact fun h => ⟨h, Nat.le_refl _, rfl⟩
  | cons timeout rest ih =>
    intro s h
    obtain ⟨hnext, hless⟩ := h.workerStep timeout
    obtain ⟨hstop, hremaining, hsettled⟩ := ih hnext
    refine ⟨hstop, ?_, hsettled.trans (workerStep_moves s timeout).settled⟩
    refine hremaining.trans ?_
    rw [List.length_cons]
    omega

theorem worker_of_remaining_eq_zero (h : s.remaining = 0) : s.worker = .exited := by
  unfold remaining at h
  split at h
  · omega
  · omega
  · omega
  · omega
  · assumption

/-- Dropping the engine brings everything pending to RocksDB, in a bounded number of
steps. -/
theorem dropped_settles (hworker : s.worker ≠ .exited) (timeouts : List Bool) :
    (s.remaining ≤ timeouts.length → (s.dropped timeouts).worker = .exited) ∧
      ((s.dropped timeouts).worker = .exited → (s.dropped timeouts).rocksdb = s.settled) := by
  have hstop : Stopping (s.env .stop) := ⟨rfl, fun h => (hworker h).elim⟩
  obtain ⟨hstopping, hremaining, hsettled⟩ := hstop.steps timeouts
  constructor
  · intro hlong
    refine worker_of_remaining_eq_zero (Nat.le_zero.mp (hremaining.trans ?_))
    exact (Nat.sub_eq_zero_of_le hlong).le
  · intro hexited
    exact (settled_of_pending_nil (hstopping.exited hexited)).symm.trans hsettled

end KvEngine

/-! ## An idle worker -/

/-- With nothing queued the worker changes only its own position. -/
theorem workerStep_idle (s : KvEngine B) (hqueue : s.asyncQueue = []) (hbatch : s.batch = [])
    (timeout fails : Bool) : ∃ pc, s.workerStep timeout fails = { s with worker := pc } := by
  rw [KvEngine.workerStep_eq]
  obtain ⟨cache, db, mode, queue, running, worker, batch, paths⟩ := s
  obtain rfl : queue = [] := hqueue
  obtain rfl : batch = [] := hbatch
  cases worker with
  | head => exact ⟨_, rfl⟩
  | poll => exact ⟨_, rfl⟩
  | settle => exact ⟨.head, by simp⟩
  | drain => exact ⟨.exited, by cases fails <;> rfl⟩
  | exited => exact ⟨_, rfl⟩

end Kallisto.Engine
