import Kallisto.Model.CuckooTable

/-! # The sharded cuckoo table -/

namespace Kallisto.Cuckoo

open RawMemory

/-- The shard of a key is chosen by a hash of its own, also kept arbitrary. -/
structure ShardedHashing extends Hashing where
  shardHash : String → UInt64

structure ShardedCuckooTable where
  shards : Fin 64 → CuckooTable

namespace ShardedCuckooTable

def bucketsPerShard (totalCapacity : ℕ) : ℕ :=
  let buckets := totalCapacity / 64 / 8
  if buckets < 64 then 64 else buckets

def new (totalCapacity : ℕ) : ShardedCuckooTable :=
  ⟨fun _ => CuckooTable.new (bucketsPerShard totalCapacity) (totalCapacity / 64 * 2)⟩

def getShardIndex (h : ShardedHashing) (key : String) : Fin 64 :=
  ⟨(h.shardHash key).toNat &&& 63, Nat.lt_succ_of_le Nat.and_le_right⟩

def setShard (s : ShardedCuckooTable) (i : Fin 64) (t : CuckooTable) : ShardedCuckooTable :=
  ⟨Function.update s.shards i t⟩

def insert (h : ShardedHashing) (s : ShardedCuckooTable) (key : String) (entry : SecretEntry) :
    Except Fault (Bool × ShardedCuckooTable) := do
  let i := getShardIndex h key
  let (r, t) ← (s.shards i).insert h.toHashing key entry
  return (r, s.setShard i t)

def lookupMap {R : Type} (h : ShardedHashing) (s : ShardedCuckooTable) (key : String)
    (f : SecretEntry → R) : Except Fault (Option R × ShardedCuckooTable) := do
  let i := getShardIndex h key
  let (r, t) ← (s.shards i).lookupMap h.toHashing key f
  return (r, s.setShard i t)

def lookup (h : ShardedHashing) (s : ShardedCuckooTable) (key : String) :
    Except Fault (Option SecretEntry × ShardedCuckooTable) := do
  let i := getShardIndex h key
  let (r, t) ← (s.shards i).lookup h.toHashing key
  return (r, s.setShard i t)

def remove (h : ShardedHashing) (s : ShardedCuckooTable) (key : String) :
    Except Fault (Bool × ShardedCuckooTable) := do
  let i := getShardIndex h key
  let (r, t) ← (s.shards i).remove h.toHashing key
  return (r, s.setShard i t)

/-- The listings of the given shards, one after the other. -/
def listShards (s : ShardedCuckooTable) : List (Fin 64) → Except Fault (List SecretEntry)
  | [] => .ok []
  | i :: rest => do
    let entries ← (s.shards i).getAllEntries
    let more ← s.listShards rest
    return entries ++ more

def getAllEntries (s : ShardedCuckooTable) : Except Fault (List SecretEntry) :=
  s.listShards (List.finRange 64)

/-- The shards are dropped one after the other. -/
def drop (s : ShardedCuckooTable) :
    Except FreeFault (List (List SecretEntry × Block SecretEntry)) :=
  (List.finRange 64).mapM fun i => UnsafeCuckoo.drop (s.shards i)

end ShardedCuckooTable

/-- The calls of the sharded table. The closure of `lookup_map` sees one entry and
returns a value of any type. -/
inductive ShardedOp where
  | insert (key : String) (entry : SecretEntry)
  | lookup (key : String)
  | lookupMap (key : String) (R : Type) (f : SecretEntry → R)
  | remove (key : String)

namespace ShardedCuckooTable

def apply (h : ShardedHashing) (s : ShardedCuckooTable) :
    ShardedOp → Except Fault ShardedCuckooTable
  | .insert key entry => Prod.snd <$> s.insert h key entry
  | .lookup key => Prod.snd <$> s.lookup h key
  | .lookupMap key _ f => Prod.snd <$> s.lookupMap h key f
  | .remove key => Prod.snd <$> s.remove h key

def run (h : ShardedHashing) :
    ShardedCuckooTable → List ShardedOp → Except Fault ShardedCuckooTable
  | s, [] => .ok s
  | s, op :: ops => do run h (← s.apply h op) ops

end ShardedCuckooTable

end Kallisto.Cuckoo
