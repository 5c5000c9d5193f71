import Kallisto.Library.Interleaving
import Kallisto.Model.BackgroundWorker

/-! # The engine as a system

The shared state of the engine: the cache as a lossy map, RocksDB as a map, the sync
mode, the write queue and the background worker with its unflushed batch. -/

namespace Kallisto.Engine

open Program

variable {B : Type}

/-! ## State -/

structure KvEngine (B : Type) where
  cache : String → Option B
  rocksdb : String → Option B
  syncMode : SyncMode
  asyncQueue : List (AsyncOp B)
  asyncRunning : Bool
  worker : WorkerPc
  batch : List (AsyncOp B)
  pathIndex : List String

/-- The capacity of the write queue. -/
def queueCapacity : ℕ :=
  262144

/-- A newly opened engine on a database, in a sync mode. -/
def KvEngine.opened (rocksdb : String → Option B) (mode : SyncMode) (paths : List String) :
    KvEngine B where
  cache := fun _ => none
  rocksdb := rocksdb
  syncMode := mode
  asyncQueue := []
  asyncRunning := true
  worker := .head
  batch := []
  pathIndex := paths

/-! ## Calls -/

/-- What the state leaves open: an error of RocksDB, and the time. -/
structure Choice where
  error : Option String
  now : UInt64

/-- Calls of a healthy storage. -/
def Choice.at (now : UInt64) : Choice :=
  ⟨none, now⟩

/-- A failing call leaves RocksDB unchanged. -/
def KvEngine.write (s : KvEngine B) (c : Choice) (op : AsyncOp B) : Except String Unit × KvEngine B :=
  match c.error with
  | some e => (.error e, s)
  | none => (.ok (), { s with rocksdb := op.apply s.rocksdb })

def KvEngine.exec (s : KvEngine B) : (op : Effect B) → Choice → op.Ret × KvEngine B
  | .cacheLookup key, _ => (s.cache key, s)
  | .cacheInsert key payload, _ =>
    ((), { s with cache := Function.update s.cache key (some payload) })
  | .cacheRemove key, _ => ((), { s with cache := Function.update s.cache key none })
  | .getRaw key, c =>
    match c.error with
    | some e => (.error e, s)
    | none => (.ok (s.rocksdb key), s)
  | .putRaw key value, c => s.write c (.put key value)
  | .delRaw key, c => s.write c (.delete key)
  | .enqueue op, _ =>
    if s.asyncQueue.length < queueCapacity then
      (.ok (), { s with asyncQueue := s.asyncQueue ++ [op] })
    else (.error .full, s)
  | .getSyncMode, _ => (s.syncMode, s)
  | .nowMs, c => (c.now, s)
  | .insertPathIfAbsent path, _ =>
    ((), { s with
      pathIndex := if path ∈ s.pathIndex then s.pathIndex else path :: s.pathIndex })

/-! ## The worker and the environment -/

/-- The worker of the engine with its queue, as a background worker. -/
def KvEngine.backgroundWorker (s : KvEngine B) : Background.Worker B :=
  { Background.Worker.started s.rocksdb with
    queue := s.asyncQueue
    running := s.asyncRunning
    pc := s.worker
    batch := s.batch }

def KvEngine.withWorker (s : KvEngine B) (w : Background.Worker B) : KvEngine B :=
  { s with rocksdb := w.rocksdb, asyncQueue := w.queue, worker := w.pc, batch := w.batch }

/-- One step of `async_worker_loop`. The flush interval has elapsed or not. -/
def KvEngine.workerStep (s : KvEngine B) (timeout fails : Bool) : KvEngine B :=
  s.withWorker (Background.asyncWorkerLoop s.backgroundWorker .operation timeout fails)

/-- Steps that no client takes: the cache loses an entry, by eviction or because an
insertion was rejected, the worker moves, the sync mode is changed, the engine is
dropped. -/
inductive EnvStep where
  | dropEntry (key : String)
  | worker (timeout fails : Bool)
  | changeSyncMode (mode : SyncMode)
  | stop
  deriving DecidableEq, Repr

def KvEngine.env (s : KvEngine B) : EnvStep → KvEngine B
  | .dropEntry key => { s with cache := Function.update s.cache key none }
  | .worker timeout fails => s.workerStep timeout fails
  | .changeSyncMode mode => { s with syncMode := mode }
  | .stop => { s with asyncRunning := false }

abbrev system (B : Type) : System (Effect.Ret (B := B)) where
  State := KvEngine B
  Choice := Choice
  Env := EnvStep
  exec := KvEngine.exec
  env := KvEngine.env

/-! ## Requests -/

inductive Call where
  | readMetadata (path : String)
  | readVersion (path : String) (version : UInt32)
  | putVersion (path : String) (payload : SecretPayload) (cas : Option UInt32)
  | softDelete (path : String) (version : UInt32)
  | undelete (path : String) (version : UInt32)
  | destroyVersion (path : String) (version : UInt32)
  deriving DecidableEq, Repr

inductive Out where
  | unit
  | metadata (m : KeyMetadata)
  | version (payload : SecretPayload) (state : VersionState)
  deriving DecidableEq, Repr

def body (rkyv : Rkyv B) : Call → EngineM B Out
  | .readMetadata path => do return .metadata (← readMetadata rkyv path)
  | .readVersion path version => do
    let (payload, state) ← readVersion rkyv path version
    return .version payload state
  | .putVersion path payload cas => do
    putVersion rkyv path payload cas
    return .unit
  | .softDelete path version => do
    softDelete rkyv path version
    return .unit
  | .undelete path version => do
    undelete rkyv path version
    return .unit
  | .destroyVersion path version => do
    destroyVersion rkyv path version
    return .unit

/-- Clients of one engine. -/
abbrev Clients (B Tid : Type) : Type :=
  Interleaving.Pool (system B) EngineError Call Out Tid

abbrev Step (B Tid : Type) : Type :=
  Interleaving.Label (system B) Call Tid

/-- No client has made a request of a newly opened engine. -/
abbrev Clients.opened {Tid : Type} (rocksdb : String → Option B) (mode : SyncMode)
    (paths : List String) : Clients B Tid :=
  Interleaving.Pool.init (.opened rocksdb mode paths)

end Kallisto.Engine
