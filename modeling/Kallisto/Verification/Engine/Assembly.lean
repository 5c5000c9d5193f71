import Kallisto.Library.Simulation
import Kallisto.Model.AssembledEngine
import Kallisto.Verification.Cuckoo.Sharded
import Kallisto.Verification.Engine.Listing
import Kallisto.Verification.Engine.Pending
import Kallisto.Verification.Queue.Sequential

/-! # The engine on its parts implements the engine on a lossy cache

The cuckoo table stands for the map of the cache and may have lost entries of it, the ring
of the queue for the list of waiting writes, and the tree of the index for the set of its
paths. An entry that the table has lost is dropped from the map when it is looked up. -/

namespace Kallisto.Engine

open Program Interleaving Cuckoo

variable {h : ShardedHashing}

/-! ## The cache -/

theorem exists_of_snd_map {ε α β : Type} {x : Except ε (α × β)} {b : β}
    (hx : Prod.snd <$> x = .ok b) : ∃ a, x = .ok (a, b) := by
  cases x with
  | error e => cases hx
  | ok y =>
    obtain ⟨a, b'⟩ := y
    cases hx
    exact ⟨a, rfl⟩

section Cache

variable {s : ShardedCuckooTable} {m : String → Option Bytes}

/-- A lookup finds the record of the map, or the map may lose it. -/
theorem lookupMap_matched (hr : ShardedCuckooTable.Represents h s m) (key : String) :
    ∃ found s', s.lookupMap h key SecretEntry.payload = .ok (found, s') ∧
      ((∃ b, found = some b ∧ m key = some b ∧ ShardedCuckooTable.Represents h s' m) ∨
        (found = none ∧
          ShardedCuckooTable.Represents h s' (Function.update m key none))) := by
  obtain ⟨found, t, hrun, hinv, -, hholds, hfound⟩ :=
    CuckooTable.lookupMap_spec (hr.inv (ShardedCuckooTable.getShardIndex h key)) key
      SecretEntry.payload
  refine ⟨found, s.setShard (ShardedCuckooTable.getShardIndex h key) t, ?_, ?_⟩
  · simp [ShardedCuckooTable.lookupMap, hrun]
  · have hown : ∀ key' x, t.Holds key' x →
        ShardedCuckooTable.getShardIndex h key = ShardedCuckooTable.getShardIndex h key' :=
      fun key' x hx => hr.own _ key' x ((hholds key' x).mp hx)
    rcases hfound with ⟨e, rfl, rfl, he⟩ | ⟨rfl, hnone⟩
    · left
      exact ⟨e.payload, rfl, hr.value _ _ _ he, hr.setShard hinv hown
        (fun key' x hx => hr.value _ key' x ((hholds key' x).mp hx)) fun _ _ => rfl⟩
    · right
      refine ⟨rfl, hr.setShard hinv hown ?_ ?_⟩
      · intro key' x hx
        have hne : key' ≠ key := by
          rintro rfl
          exact hnone x ((hholds key' x).mp hx)
        rw [Function.update_of_ne hne]
        exact hr.value _ key' x ((hholds key' x).mp hx)
      · intro key' hshard
        have hne : key' ≠ key := fun heq => hshard (by rw [heq])
        rw [Function.update_of_ne hne]

theorem insert_matched (hr : ShardedCuckooTable.Represents h s m) (key : String) (b : Bytes) :
    ∃ kept s', s.insert h key ⟨key, b, true⟩ = .ok (kept, s') ∧
      ShardedCuckooTable.Represents h s' (Function.update m key (some b)) := by
  obtain ⟨s', happly, hr'⟩ := hr.apply (.insert key ⟨key, b, true⟩)
  obtain ⟨kept, hrun⟩ := exists_of_snd_map happly
  exact ⟨kept, s', hrun, hr'⟩

theorem remove_matched (hr : ShardedCuckooTable.Represents h s m) (key : String) :
    ∃ removed s', s.remove h key = .ok (removed, s') ∧
      ShardedCuckooTable.Represents h s' (Function.update m key none) := by
  obtain ⟨s', happly, hr'⟩ := hr.apply (.remove key)
  obtain ⟨removed, hrun⟩ := exists_of_snd_map happly
  exact ⟨removed, s', hrun, hr'⟩

end Cache

/-! ## The queue -/

theorem driven_attempts (spurious : List Bool) : Queue.Driven (Assembly.attempts spurious) := by
  unfold Queue.Driven Assembly.attempts
  rw [List.count_append, List.length_append, List.length_replicate, List.count_replicate]
  simp

/-- A call of the queue returns with the reply of the list. -/
theorem callQueue_matched {cap d : ℕ} {items : List (AsyncOp Bytes)}
    {q : Queue.LockFreeQueue (AsyncOp Bytes)} (hr : Queue.Rests cap d items q)
    (call : Queue.Call (AsyncOp Bytes)) (spurious : List Bool) :
    ∃ d' q', Assembly.callQueue q call spurious = (some (Queue.fifo cap items call).1, q') ∧
      Queue.Rests cap d' (Queue.fifo cap items call).2 q' := by
  obtain ⟨d', q', log, hrun, hr', hreply⟩ := hr.perform (driven_attempts spurious) call []
  have hinit : Queue.Machine.init q = .alone q .idle [] := rfl
  refine ⟨d', q', ?_, hr'⟩
  rw [Assembly.callQueue, hinit, hrun, Queue.Machine.replies]
  change ((log.filterMap Queue.Event.reply).head?, q') = _
  rw [hreply]
  rfl

/-! ## The relation -/

/-- The parts hold what the engine holds; the cache may have lost some of it. -/
structure Models (h : ShardedHashing) (s : Assembly) (a : KvEngine Bytes) : Prop where
  cache : ShardedCuckooTable.Represents h s.cache a.cache
  pathIndex : Index.Holds 3 a.pathIndex.toFinset s.pathIndex.masterBtree
  asyncQueue : ∃ d, Queue.Rests queueCapacity d a.asyncQueue s.asyncQueue
  rocksdb : s.rocksdb = a.rocksdb
  syncMode : s.syncMode = a.syncMode
  asyncRunning : s.asyncRunning = a.asyncRunning
  worker : s.worker = a.worker
  batch : s.batch = a.batch
  faulted : s.faulted = false

section Calls

variable {s : Assembly} {a : KvEngine Bytes}

theorem Models.withCache (hm : Models h s a) {cache : ShardedCuckooTable}
    {m : String → Option Bytes} (hr : ShardedCuckooTable.Represents h cache m) :
    Models h { s with cache := cache } { a with cache := m } :=
  { hm with cache := hr }

theorem Models.write (hm : Models h s a) (c : Choice) (op : AsyncOp Bytes) :
    (a.write c op).1 = (s.write c.error op).1 ∧
      Models h (s.write c.error op).2 (a.write c op).2 := by
  unfold Assembly.write KvEngine.write
  cases c.error with
  | some e => exact ⟨rfl, hm⟩
  | none => exact ⟨rfl, { hm with rocksdb := congrArg op.apply hm.rocksdb }⟩

theorem Models.enqueue (hm : Models h s a) (op : AsyncOp Bytes) (c : Choice)
    (spurious : List Bool) :
    (a.exec (.enqueue op) c).1 = (s.enqueue op spurious).1 ∧
      Models h (s.enqueue op spurious).2 (a.exec (.enqueue op) c).2 := by
  obtain ⟨d, hr⟩ := hm.asyncQueue
  obtain ⟨d', q', hcall, hr'⟩ := callQueue_matched hr (.enqueue op) spurious
  unfold Assembly.enqueue
  rw [hcall]
  by_cases hfull : a.asyncQueue.length = queueCapacity
  · rw [Queue.fifo, if_pos hfull] at hr' ⊢
    have hexec : a.exec (.enqueue op) c = (.error .full, a) := if_neg (by omega)
    rw [hexec]
    exact ⟨rfl, { hm with asyncQueue := ⟨d', hr'⟩ }⟩
  · rw [Queue.fifo, if_neg hfull] at hr' ⊢
    have hroom : a.asyncQueue.length < queueCapacity := lt_of_le_of_ne hr.length_le hfull
    have hexec : a.exec (.enqueue op) c =
        (.ok (), { a with asyncQueue := a.asyncQueue ++ [op] }) := if_pos hroom
    rw [hexec]
    exact ⟨rfl, { hm with asyncQueue := ⟨d', hr'⟩ }⟩

theorem Models.insertPathIfAbsent (hm : Models h s a) (path : String) :
    ∃ added manager, s.pathIndex.insertPathIfAbsent path = some (added, manager) ∧
      Models h { s with pathIndex := manager } { a with
        pathIndex := if path ∈ a.pathIndex then a.pathIndex else path :: a.pathIndex } := by
  obtain ⟨manager, hinsert, hholds⟩ :=
    hm.pathIndex.insertPathIfAbsent (by decide) (Index.fullLength_eq (by decide) (by decide)) path
  refine ⟨_, manager, hinsert, { hm with pathIndex := ?_ }⟩
  have hset : (if path ∈ a.pathIndex then a.pathIndex else path :: a.pathIndex).toFinset =
      insert path a.pathIndex.toFinset := by
    split
    · next hmem => rw [Finset.insert_eq_of_mem (List.mem_toFinset.mpr hmem)]
    · rw [List.toFinset_cons]
  rw [hset]
  exact hholds

/-! ## The worker -/

/-- A dequeue finds the queue empty, or takes the oldest operation. -/
theorem Models.dequeue (hm : Models h s a) (spurious : List Bool) :
    (a.asyncQueue = [] ∧ ∃ s', s.dequeue spurious = (none, s') ∧ Models h s' a) ∨
      ∃ op rest s', a.asyncQueue = op :: rest ∧ s.dequeue spurious = (some op, s') ∧
        Models h s' { a with asyncQueue := rest } := by
  obtain ⟨d, hr⟩ := hm.asyncQueue
  obtain ⟨d', q', hcall, hr'⟩ := callQueue_matched hr .dequeue spurious
  unfold Assembly.dequeue
  rw [hcall]
  cases hqueue : a.asyncQueue with
  | nil =>
    rw [hqueue] at hr'
    have hrests : Queue.Rests queueCapacity d' a.asyncQueue q' := hqueue ▸ hr'
    exact Or.inl ⟨rfl, _, rfl, { hm with asyncQueue := ⟨d', hrests⟩ }⟩
  | cons op rest =>
    rw [hqueue] at hr'
    exact Or.inr ⟨op, rest, _, rfl, rfl, { hm with asyncQueue := ⟨d', hr'⟩ }⟩

theorem Models.flush (hm : Models h s a) (fails : Bool) :
    Models h (s.flush fails) (a.flush fails) :=
  { hm with
    rocksdb := by simp only [Assembly.flush, KvEngine.flush, hm.rocksdb, hm.batch]
    batch := rfl }

theorem Models.at (hm : Models h s a) (pc : WorkerPc) :
    Models h { s with worker := pc } { a with worker := pc } :=
  { hm with worker := rfl }

theorem Models.push (hm : Models h s a) (op : AsyncOp Bytes) :
    Models h { s with batch := s.batch ++ [op] } { a with batch := a.batch ++ [op] } :=
  { hm with batch := congrArg (· ++ [op]) hm.batch }

theorem Models.workerStep (hm : Models h s a) (timeout fails : Bool) (spurious : List Bool) :
    Models h (s.workerStep timeout fails spurious) (a.workerStep timeout fails) := by
  unfold Assembly.workerStep
  rw [KvEngine.workerStep_eq, hm.worker]
  cases hpc : a.worker with
  | head =>
    refine { hm with worker := ?_ }
    change (if s.asyncRunning then WorkerPc.poll else .drain) =
      if a.asyncRunning then .poll else .drain
    rw [hm.asyncRunning]
  | poll =>
    rcases hm.dequeue spurious with ⟨hqueue, s', htake, hm'⟩ | ⟨op, rest, s', hqueue, htake, hm'⟩
    · simp only [hqueue, htake]
      rw [← hqueue]
      exact hm'.at .settle
    · simp only [hqueue, htake]
      exact (hm'.push op).at .settle
  | settle =>
    dsimp only
    have hsame : (s.batch.length ≥ 1024 ∨ timeout = true ∧ s.batch ≠ []) ↔
        (a.batch.length ≥ 1024 ∨ timeout = true ∧ a.batch ≠ []) := by rw [hm.batch]
    by_cases hflush : a.batch.length ≥ 1024 ∨ timeout = true ∧ a.batch ≠ []
    · rw [if_pos hflush, if_pos (hsame.mpr hflush)]
      exact (hm.flush fails).at .head
    · rw [if_neg hflush, if_neg (mt hsame.mp hflush)]
      exact hm.at .head
  | drain =>
    rcases hm.dequeue spurious with ⟨hqueue, s', htake, hm'⟩ | ⟨op, rest, s', hqueue, htake, hm'⟩
    · simp only [hqueue, htake]
      exact (hm'.flush fails).at .exited
    · simp only [hqueue, htake]
      rw [← hpc]
      exact hm'.push op
  | exited => exact hm

end Calls

/-! ## The simulation -/

/-- The environment step of the engine that a step of its parts stands for. -/
def Assembly.Env.step : Assembly.Env → EnvStep
  | .worker timeout fails _ => .worker timeout fails
  | .changeSyncMode mode => .changeSyncMode mode
  | .stop => .stop

/-- Only the cache loses entries unseen. -/
def EnvStep.isDrop : EnvStep → Bool
  | .dropEntry _ => true
  | _ => false

theorem Models.exec {s : Assembly} {a : KvEngine Bytes} (hm : Models h s a) (op : Effect Bytes)
    (c : Assembly.Choice) : ∃ es : List EnvStep, (∀ e ∈ es, e.isDrop = true) ∧
      ((es.foldl KvEngine.env a).exec op c.toChoice).1 = (s.exec h op c).1 ∧
      Models h (s.exec h op c).2 ((es.foldl KvEngine.env a).exec op c.toChoice).2 := by
  cases op with
  | cacheLookup key =>
    obtain ⟨found, cache, hrun, ⟨b, rfl, hb, hr⟩ | ⟨rfl, hr⟩⟩ := lookupMap_matched hm.cache key
    · refine ⟨[], by simp, ?_⟩
      simp only [Assembly.exec, hrun]
      exact ⟨hb, hm.withCache hr⟩
    · refine ⟨[.dropEntry key], by simp [EnvStep.isDrop], ?_⟩
      simp only [Assembly.exec, hrun]
      exact ⟨Function.update_self _ _ _, hm.withCache hr⟩
  | cacheInsert key payload =>
    obtain ⟨kept, cache, hrun, hr⟩ := insert_matched hm.cache key payload
    refine ⟨[], by simp, ?_⟩
    simp only [Assembly.exec, hrun]
    exact ⟨rfl, hm.withCache hr⟩
  | cacheRemove key =>
    obtain ⟨removed, cache, hrun, hr⟩ := remove_matched hm.cache key
    refine ⟨[], by simp, ?_⟩
    simp only [Assembly.exec, hrun]
    exact ⟨rfl, hm.withCache hr⟩
  | getRaw key =>
    refine ⟨[], by simp, ?_⟩
    obtain ⟨⟨_ | e, now⟩, spurious⟩ := c
    · refine ⟨?_, hm⟩
      change Except.ok (a.rocksdb key) = Except.ok (s.rocksdb key)
      rw [hm.rocksdb]
    · exact ⟨rfl, hm⟩
  | putRaw key value => exact ⟨[], by simp, hm.write c.toChoice (.put key value)⟩
  | delRaw key => exact ⟨[], by simp, hm.write c.toChoice (.delete key)⟩
  | enqueue op => exact ⟨[], by simp, hm.enqueue op c.toChoice c.spurious⟩
  | getSyncMode => exact ⟨[], by simp, hm.syncMode.symm, hm⟩
  | nowMs => exact ⟨[], by simp, rfl, hm⟩
  | insertPathIfAbsent path =>
    obtain ⟨added, manager, hinsert, hm'⟩ := hm.insertPathIfAbsent path
    refine ⟨[], by simp, ?_⟩
    simp only [Assembly.exec, hinsert]
    exact ⟨rfl, hm'⟩

theorem Models.env {s : Assembly} {a : KvEngine Bytes} (hm : Models h s a) (e : Assembly.Env) :
    Models h (s.env e) (a.env e.step) := by
  cases e with
  | worker timeout fails spurious => exact hm.workerStep timeout fails spurious
  | changeSyncMode mode => exact { hm with syncMode := rfl }
  | stop => exact { hm with asyncRunning := rfl }

/-- The parts are simulated by the engine on a lossy cache. -/
def partsSimulation (h : ShardedHashing) : Simulation (assembled h) (system Bytes) where
  related := Models h
  choice := Assembly.Choice.toChoice
  env := Assembly.Env.step
  hidden := EnvStep.isDrop
  env_shown e := by cases e <;> rfl
  exec_matched _ _ op c hm := hm.exec op c
  env_matched _ _ e hm := hm.env e

/-- A newly opened engine has its parts in order. -/
theorem opened_agrees (h : ShardedHashing) (rocksdb : String → Option Bytes) (keys : List String)
    (mode : SyncMode) : ∃ s, Assembly.opened rocksdb keys mode = some s ∧ ∀ {ε C O Tid : Type},
      (partsSimulation h).Agree (Pool.init s : Pool (assembled h) ε C O Tid)
        (Pool.init (.opened rocksdb mode (scannedIndex keys))) := by
  obtain ⟨manager, hinsert, hholds⟩ := Index.manager_insertAll_holds (t := 3) (by decide)
    (Index.fullLength_eq (by decide) (by decide)) (keys.filterMap pathOfKey)
  have hpow : ∃ k < 64, (262144 : UInt64).toNat = 2 ^ k := ⟨18, by decide, by decide⟩
  obtain ⟨q, hq⟩ : ∃ q : Queue.LockFreeQueue (AsyncOp Bytes),
      Queue.LockFreeQueue.new 262144 = some q := ⟨_, if_pos hpow⟩
  refine ⟨⟨.new (256 * 1024), manager, rocksdb, mode, q, true, .head, [], false⟩, ?_,
    fun {_ _ _ _} => ⟨?_, rfl, rfl⟩⟩
  · simp [Assembly.opened, hinsert, hq]
  · exact {
      cache := ShardedCuckooTable.represents_new h (256 * 1024) (by decide)
      pathIndex := by
        have hset : (scannedIndex keys).toFinset = (keys.filterMap pathOfKey).toFinset := by
          ext path
          simp [scannedIndex, mem_foldl_insert]
        change Index.Holds 3 (scannedIndex keys).toFinset manager.masterBtree
        rw [hset]
        exact hholds
      asyncQueue := ⟨0, Queue.rests_new (by decide) hq⟩
      rocksdb := rfl
      syncMode := rfl
      asyncRunning := rfl
      worker := rfl
      batch := rfl
      faulted := rfl }

/-! ## Main result -/

/-- The engine on its parts opens, no part of it ever faults, panics or hangs, and every run
of any clients on it is a run on the engine with a lossy cache: the same requests, calls
and results, the same records in RocksDB, and besides the steps of the parts only losses
of cached entries. -/
theorem run_assembled {Tid : Type} [DecidableEq Tid] (h : ShardedHashing) (rkyv : Rkyv Bytes)
    (rocksdb : String → Option Bytes) (keys : List String) (mode : SyncMode) :
    ∃ s, Assembly.opened rocksdb keys mode = some s ∧
      ∀ labels : List (Label (assembled h) Call Tid), ∃ labels' : List (Step Bytes Tid),
        labels'.filter (partsSimulation h).shown = labels.map (partsSimulation h).label ∧
        (partsSimulation h).Agree ((Pool.init s).run (body rkyv) labels)
          ((Clients.opened rocksdb mode (scannedIndex keys)).run (body rkyv) labels') := by
  obtain ⟨s, hopened, hstart⟩ := opened_agrees h rocksdb keys mode
  exact ⟨s, hopened, fun labels => hstart.run (body rkyv) labels⟩

end Kallisto.Engine
