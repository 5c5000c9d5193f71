import Kallisto.Model.EngineSystem

/-! # Effects of the atomic calls -/

namespace Kallisto.Engine

variable {B : Type}

/-! ## Calls of a healthy storage -/

namespace KvEngine

variable (s : KvEngine B) {c : Choice}

theorem exec_getRaw (key : String) (h : c.error = none) :
    s.exec (.getRaw key) c = (.ok (s.rocksdb key), s) := by
  cases c
  cases h
  rfl

theorem exec_putRaw (key : String) (value : B) (h : c.error = none) :
    s.exec (.putRaw key value) c =
      (.ok (), { s with rocksdb := (AsyncOp.put key value).apply s.rocksdb }) := by
  cases c
  cases h
  rfl

theorem exec_delRaw (key : String) (h : c.error = none) :
    s.exec (.delRaw key) c =
      (.ok (), { s with rocksdb := (AsyncOp.delete key).apply s.rocksdb }) := by
  cases c
  cases h
  rfl

end KvEngine

/-! ## Keys of the calls -/

/-- The key of a direct write. -/
def Effect.writes : Effect B → Option String
  | .putRaw key _ => some key
  | .delRaw key => some key
  | _ => none

/-- The key of an update of the cache. -/
def Effect.publishes : Effect B → Option String
  | .cacheInsert key _ => some key
  | .cacheRemove key => some key
  | _ => none

/-! ## Accepted writes -/

/-- The raw write that a call has made, when it was accepted. -/
def Effect.acked : (op : Effect B) → op.Ret → Option (AsyncOp B)
  | .putRaw key value, (.ok () : Except String Unit) => some (.put key value)
  | .delRaw key, (.ok () : Except String Unit) => some (.delete key)
  | .enqueue op, (.ok () : Except QueueError Unit) => some op
  | _, _ => none

/-- The accepted raw writes among calls, the latest first. -/
def writesOf (trace : List ((op : Effect B) × op.Ret)) : List (AsyncOp B) :=
  trace.filterMap fun x => x.1.acked x.2

/-- The path that a request mutates. -/
def Call.mutates : Call → Option String
  | .readMetadata _ => none
  | .readVersion _ _ => none
  | .putVersion path _ _ => some path
  | .softDelete path _ => some path
  | .undelete path _ => some path
  | .destroyVersion path _ => some path

/-! ## Schedules -/

/-- A request started by a client on a healthy storage and run for `n` of its steps. -/
def calling {Tid : Type} (t : Tid) (c : Call) (n : ℕ) : List (Step B Tid) :=
  .invoke t c :: List.replicate n (.act t (.at 1))

/-- A request of `n` steps that returns. -/
def requesting {Tid : Type} (t : Tid) (c : Call) (n : ℕ) : List (Step B Tid) :=
  calling t c n ++ [.respond t]

end Kallisto.Engine
