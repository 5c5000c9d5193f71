import Kallisto.Library.CopyOnWrite

/-! # The engine registry

Engines are mounted under prefixes in a hash map that is replaced as a whole. Requests are
resolved without a lock. `E` stands for handles of engines. -/

namespace Kallisto.Registry

open Program CopyOnWrite

variable {E : Type}

/-! ## The map of engines -/

/-- The entries of a hash map, in the order of its iteration. -/
structure Engines (E : Type) where
  entries : List (String × E)
  nodup : (entries.map Prod.fst).Nodup

namespace Engines

def empty : Engines E :=
  ⟨[], List.nodup_nil⟩

/-- A new value takes the place of the old one. -/
def insert (engines : Engines E) (pfx : String) (engine : E) : Engines E where
  entries := (pfx, engine) :: engines.entries.filter fun entry => entry.1 ≠ pfx
  nodup := by
    refine List.nodup_cons.mpr ⟨by simp, ?_⟩
    exact engines.nodup.sublist (List.filter_sublist.map Prod.fst)

def get (engines : Engines E) (pfx : String) : Option E :=
  engines.entries.lookup pfx

def keys (engines : Engines E) : List String :=
  engines.entries.map Prod.fst

def values (engines : Engines E) : List E :=
  engines.entries.map Prod.snd

end Engines

/-! ## Requests -/

inductive Query where
  | resolve (pfx : String)
  | mountedPrefixes
  | flushAll

inductive Answer (E : Type) where
  | unit
  | engine (found : Option E)
  | prefixes (found : List String)

/-- Programs over the words of the registry. -/
abbrev RegistryM (E : Type) :=
  Prog (Op.Ret : Op (Engines E) E → Type) Empty

def lock : RegistryM E Unit :=
  Prog.perform Op.lock

def load : RegistryM E (Engines E) :=
  Prog.perform Op.load

def store (engines : Engines E) : RegistryM E Unit :=
  Prog.perform (Op.store engines)

def unlock : RegistryM E Unit :=
  Prog.perform Op.unlock

/-- A flush of a mounted engine. Its result is ignored. -/
def forceFlush (engine : E) : RegistryM E Unit :=
  Prog.perform (Op.act engine)

def mount (pfx : String) (engine : E) : RegistryM E (Answer E) := do
  lock
  let current ← load
  store (current.insert pfx engine)
  unlock
  return .unit

def resolve (pfx : String) : RegistryM E (Answer E) := do
  let current ← load
  return .engine (current.get pfx)

def mountedPrefixes : RegistryM E (Answer E) := do
  let current ← load
  return .prefixes current.keys

def flushAll : RegistryM E (Answer E) := do
  let current ← load
  current.values.forM forceFlush
  return .unit

def serve : Request (String × E) Query → RegistryM E (Answer E)
  | .update (pfx, engine) => mount pfx engine
  | .query (.resolve pfx) => resolve pfx
  | .query .mountedPrefixes => mountedPrefixes
  | .query .flushAll => flushAll

end Kallisto.Registry
