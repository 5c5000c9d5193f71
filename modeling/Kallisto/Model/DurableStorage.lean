import Kallisto.Model.EngineSystem

/-! # Storage that survives a crash

RocksDB with the part that is on stable storage and the writes since. The backend decides
with a flag of its own, not with the sync mode of the engine, whether a write waits for
stable storage. -/

namespace Kallisto.Engine

variable {B Tid : Type}

/-! ## The backend -/

/-- What a crash leaves, the unsynced writes since, the oldest first, and the flag
`RocksDbBackend::sync`. -/
structure RocksDbBackend (B : Type) where
  synced : String → Option B
  tail : List (AsyncOp B)
  sync : Bool

namespace RocksDbBackend

/-- The flag is off when a database is opened. -/
def opened (db : String → Option B) : RocksDbBackend B :=
  ⟨db, [], false⟩

/-- What reads see. -/
def contents (d : RocksDbBackend B) : String → Option B :=
  applyBatch d.synced d.tail

def setSync (d : RocksDbBackend B) (sync : Bool) : RocksDbBackend B :=
  { d with sync := sync }

/-- One successful `put_raw`, `del_raw` or `apply_batch`. A batch without operations is not
written. -/
def write (d : RocksDbBackend B) : List (AsyncOp B) → RocksDbBackend B
  | [] => d
  | op :: ops =>
    if d.sync then { d with synced := applyBatch d.contents (op :: ops), tail := [] }
    else { d with tail := d.tail ++ op :: ops }

/-- The memtable and the log reach stable storage. -/
def flush (d : RocksDbBackend B) : RocksDbBackend B :=
  { d with synced := d.contents, tail := [] }

/-- `KvEngine::force_flush`. -/
def forceFlush (d : RocksDbBackend B) : Option String → Except EngineError Unit × RocksDbBackend B
  | some e => (.error (.storageError ("RocksDB flush error: " ++ e)), d)
  | none => (.ok (), d.flush)

end RocksDbBackend

/-! ## Writes that reach RocksDB -/

/-- The batch that a step of the worker writes. -/
def KvEngine.flushed (s : KvEngine B) (timeout fails : Bool) : List (AsyncOp B) :=
  match s.worker with
  | .settle =>
    if s.batch.length ≥ 1024 ∨ timeout = true ∧ s.batch ≠ [] then
      if fails then [] else s.batch
    else []
  | .drain => if s.asyncQueue = [] then if fails then [] else s.batch else []
  | _ => []

/-- The direct write that a call makes. -/
def Effect.stored : Effect B → Choice → List (AsyncOp B)
  | .putRaw key value, ⟨none, _⟩ => [.put key value]
  | .delRaw key, ⟨none, _⟩ => [.delete key]
  | _, _ => []

/-- The writes that reach RocksDB in a step. -/
def storedBy (p : Clients B Tid) : Step B Tid → List (AsyncOp B)
  | .act t choice =>
    match p.nextCall t with
    | some op => op.stored choice
    | none => []
  | .env (.worker timeout fails) => p.shared.flushed timeout fails
  | _ => []

/-! ## Clients on a durable storage -/

/-- The clients of an engine and the backend under it. -/
structure Installation (B Tid : Type) where
  clients : Clients B Tid
  backend : RocksDbBackend B

/-- A step of the engine, or a call of `set_sync` or `force_flush`. -/
inductive Action (B Tid : Type) where
  | engine (l : Step B Tid)
  | setSync (sync : Bool)
  | forceFlush (error : Option String)

namespace Installation

/-- An engine opened on a database that is on stable storage. -/
def opened (db : String → Option B) (mode : SyncMode) (paths : List String) :
    Installation B Tid :=
  ⟨Clients.opened db mode paths, .opened db⟩

def step [DecidableEq Tid] (rkyv : Rkyv B) (x : Installation B Tid) :
    Action B Tid → Installation B Tid
  | .engine l => ⟨x.clients.step (body rkyv) l, x.backend.write (storedBy x.clients l)⟩
  | .setSync sync => { x with backend := x.backend.setSync sync }
  | .forceFlush error => { x with backend := (x.backend.forceFlush error).2 }

def run [DecidableEq Tid] (rkyv : Rkyv B) (x : Installation B Tid)
    (actions : List (Action B Tid)) : Installation B Tid :=
  actions.foldl (step rkyv) x

/-- A crash loses the cache, the queue, the batch of the worker and the unsynced writes. The
engine is opened again on what is left. -/
def reopened (x : Installation B Tid) (mode : SyncMode) (paths : List String) :
    Installation B Tid :=
  .opened x.backend.synced mode paths

end Installation

end Kallisto.Engine
