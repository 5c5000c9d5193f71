import Kallisto.Model.LockFreeQueue
import Kallisto.Model.PathListing
import Kallisto.Model.ShardedCuckooTable

/-! # The engine on its own parts

The engine with the sharded cuckoo table as its cache, the lock-free queue for its writes
and the B-tree behind its lock as its path index. A call of a part is one step, as in the
system of the engine; what a part leaves open, the failures of weak compare-exchanges, is
left to the schedule. -/

namespace Kallisto.Engine

open Program Cuckoo Index

/-- Serialised records, as the cache stores them. -/
abbrev Bytes : Type :=
  List UInt8

/-- `faulted` records a raw access out of place, a panic, or a call of the queue that did
not return. -/
structure Assembly where
  cache : ShardedCuckooTable
  pathIndex : TlsBTreeManager
  rocksdb : String → Option Bytes
  syncMode : SyncMode
  asyncQueue : Queue.LockFreeQueue (AsyncOp Bytes)
  asyncRunning : Bool
  worker : WorkerPc
  batch : List (AsyncOp Bytes)
  faulted : Bool

namespace Assembly

/-- `KvEngine::open` on a database with the given keys. No value stands for a panic. -/
def opened (rocksdb : String → Option Bytes) (keys : List String) (mode : SyncMode) :
    Option Assembly := do
  let pathIndex ← (TlsBTreeManager.new 3).insertAll (keys.filterMap pathOfKey)
  let asyncQueue ← Queue.LockFreeQueue.new 262144
  return {
    cache := .new (256 * 1024)
    pathIndex := pathIndex
    rocksdb := rocksdb
    syncMode := mode
    asyncQueue := asyncQueue
    asyncRunning := true
    worker := .head
    batch := []
    faulted := false }

def fault (s : Assembly) : Assembly :=
  { s with faulted := true }

/-! ## Calls of the queue -/

/-- The steps of a call whose compare-exchanges fail spuriously as given, and then no more. -/
def attempts (spurious : List Bool) : List Bool :=
  spurious ++ List.replicate (5 + 2 * spurious.count true) false

/-- A call of the queue and its reply, if it has returned. -/
def callQueue (q : Queue.LockFreeQueue (AsyncOp Bytes)) (call : Queue.Call (AsyncOp Bytes))
    (spurious : List Bool) :
    Option (Queue.Reply (AsyncOp Bytes)) × Queue.LockFreeQueue (AsyncOp Bytes) :=
  let m := (Queue.Machine.init q).perform call (attempts spurious)
  (m.replies.head?, m.queue)

def enqueue (s : Assembly) (op : AsyncOp Bytes) (spurious : List Bool) :
    Except QueueError Unit × Assembly :=
  match callQueue s.asyncQueue (.enqueue op) spurious with
  | (some .ok, q) => (.ok (), { s with asyncQueue := q })
  | (some .full, q) => (.error .full, { s with asyncQueue := q })
  | _ => (.error .full, s.fault)

def dequeue (s : Assembly) (spurious : List Bool) : Option (AsyncOp Bytes) × Assembly :=
  match callQueue s.asyncQueue .dequeue spurious with
  | (some (.item (some op)), q) => (some op, { s with asyncQueue := q })
  | (some .empty, q) => (none, { s with asyncQueue := q })
  | _ => (none, s.fault)

/-! ## Calls of the engine -/

def write (s : Assembly) (error : Option String) (op : AsyncOp Bytes) :
    Except String Unit × Assembly :=
  match error with
  | some e => (.error e, s)
  | none => (.ok (), { s with rocksdb := op.apply s.rocksdb })

/-- What the state leaves open. -/
structure Choice extends Engine.Choice where
  spurious : List Bool

def exec (h : ShardedHashing) (s : Assembly) : (op : Effect Bytes) → Choice → op.Ret × Assembly
  | .cacheLookup key, _ =>
    match s.cache.lookupMap h key SecretEntry.payload with
    | .ok (found, cache) => (found, { s with cache := cache })
    | .error _ => (none, s.fault)
  | .cacheInsert key payload, _ =>
    match s.cache.insert h key ⟨key, payload, true⟩ with
    | .ok (_, cache) => ((), { s with cache := cache })
    | .error _ => ((), s.fault)
  | .cacheRemove key, _ =>
    match s.cache.remove h key with
    | .ok (_, cache) => ((), { s with cache := cache })
    | .error _ => ((), s.fault)
  | .getRaw key, c =>
    match c.error with
    | some e => (.error e, s)
    | none => (.ok (s.rocksdb key), s)
  | .putRaw key value, c => s.write c.error (.put key value)
  | .delRaw key, c => s.write c.error (.delete key)
  | .enqueue op, c => s.enqueue op c.spurious
  | .getSyncMode, _ => (s.syncMode, s)
  | .nowMs, c => (c.now, s)
  | .insertPathIfAbsent path, _ =>
    match s.pathIndex.insertPathIfAbsent path with
    | some (_, pathIndex) => ((), { s with pathIndex := pathIndex })
    | none => ((), s.fault)

/-! ## The worker -/

def flush (s : Assembly) (fails : Bool) : Assembly :=
  { s with
    rocksdb := if fails then s.rocksdb else applyBatch s.rocksdb s.batch
    batch := [] }

/-- One step of `async_worker_loop`. -/
def workerStep (s : Assembly) (timeout fails : Bool) (spurious : List Bool) : Assembly :=
  match s.worker with
  | .head => { s with worker := if s.asyncRunning then .poll else .drain }
  | .poll =>
    match s.dequeue spurious with
    | (none, s) => { s with worker := .settle }
    | (some op, s) => { s with batch := s.batch ++ [op], worker := .settle }
  | .settle =>
    if s.batch.length ≥ 1024 ∨ timeout = true ∧ s.batch ≠ [] then
      { s.flush fails with worker := .head }
    else { s with worker := .head }
  | .drain =>
    match s.dequeue spurious with
    | (none, s) => { s.flush fails with worker := .exited }
    | (some op, s) => { s with batch := s.batch ++ [op] }
  | .exited => s

inductive Env where
  | worker (timeout fails : Bool) (spurious : List Bool)
  | changeSyncMode (mode : SyncMode)
  | stop

def env (s : Assembly) : Env → Assembly
  | .worker timeout fails spurious => s.workerStep timeout fails spurious
  | .changeSyncMode mode => { s with syncMode := mode }
  | .stop => { s with asyncRunning := false }

/-- `list_keys`. The paths are copied under the lock of the index; what follows works on the
copy. -/
def listKeys (s : Assembly) (pre : String) : Option (List String) := do
  let paths ← s.pathIndex.getAllPaths
  let keys ← paths.mapM (listedKeyBytes pre)
  return (keys.filterMap id).dedup.mergeSort fun a b => a ≤ b

end Assembly

/-- The engine on its parts, for any hash functions of the cache. -/
abbrev assembled (h : ShardedHashing) : System (Effect.Ret (B := Bytes)) where
  State := Assembly
  Choice := Assembly.Choice
  Env := Assembly.Env
  exec := Assembly.exec h
  env := Assembly.env

end Kallisto.Engine
