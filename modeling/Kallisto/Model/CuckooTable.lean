import Kallisto.Library.RawMemory

/-! # The cuckoo table

The bounded in-memory cache: two tables of eight-slot buckets whose slots hold a
32-bit tag and an index into a storage arena, a free list of arena indices, and a
CLOCK hand for eviction. Pointers are accessed unchecked, so every access of the
model goes through `RawMemory.Block` and faults where the machine access would be
undefined. The lock of the source makes each call one transition of this state. -/

namespace Kallisto.Cuckoo

open RawMemory

/-- `u32::MAX`, the index stored in an empty slot. -/
def u32Max : UInt32 := 0xFFFFFFFF

structure SecretEntry where
  key : String
  payload : List UInt8
  referenced : Bool
  deriving DecidableEq, Repr, Inhabited

structure Slot where
  tag : UInt32
  index : UInt32
  deriving DecidableEq, Repr

/-- An unused slot, as allocation and removal leave it. -/
def Slot.empty : Slot :=
  ⟨0, u32Max⟩

instance : Inhabited Slot :=
  ⟨Slot.empty⟩

/-- The eight slots of a bucket. -/
abbrev Bucket := Fin 8 → Slot

/-- The two keyed hashes. They come from an external crate and stay arbitrary. -/
structure Hashing where
  hash1Full : String → UInt64
  hash2Full : String → UInt64

/-- The two tables have the same shape and are searched by the same loops. -/
inductive Side where
  | first
  | second
  deriving DecidableEq, Repr

def Hashing.full (h : Hashing) : Side → String → UInt64
  | .first => h.hash1Full
  | .second => h.hash2Full

/-- The upper half of the first hash, with zero avoided. -/
def getTag (hash : UInt64) : UInt32 :=
  let tag := (hash >>> 32).toUInt32
  if tag = 0 then 1 else tag

structure UnsafeCuckoo where
  table1 : Block Bucket
  table2 : Block Bucket
  capacity : ℕ
  storage : Block SecretEntry
  maxCapacity : ℕ
  storageSize : ℕ
  freeList : Block UInt32
  freeListSize : ℕ
  clockHand : ℕ

/-- The table behind its lock. -/
abbrev CuckooTable := UnsafeCuckoo

/-- Buckets and free list are initialised on allocation, the storage arena is not. With a
`maxCapacity` of 0 the layouts of arena and free list have size zero, which `alloc_zeroed`
leaves undefined; the blocks here are then empty. -/
def UnsafeCuckoo.new (size maxCapacity : ℕ) : UnsafeCuckoo where
  table1 := .filled size fun _ => .empty
  table2 := .filled size fun _ => .empty
  capacity := size
  storage := .alloc maxCapacity
  maxCapacity := maxCapacity
  storageSize := 0
  freeList := .filled maxCapacity 0
  freeListSize := 0
  clockHand := 0

namespace CuckooTable

/-- At most nine tenths of the slots may be used. The product is a `usize`. -/
def new (size maxCapacity : ℕ) : CuckooTable :=
  let absoluteMax := (size * 16 * 90) % 2 ^ 64 / 100
  UnsafeCuckoo.new size (min maxCapacity absoluteMax)

def table (t : CuckooTable) : Side → Block Bucket
  | .first => t.table1
  | .second => t.table2

def withTable (t : CuckooTable) : Side → Block Bucket → CuckooTable
  | .first, tbl => { t with table1 := tbl }
  | .second, tbl => { t with table2 := tbl }

/-- The bucket of a key on one side. -/
def bucketIndex (h : Hashing) (t : CuckooTable) (side : Side) (key : String) : ℕ :=
  (h.full side key).toNat % t.capacity

/-- The entry that every write path stores for a key. -/
def freshEntry (key : String) (payload : List UInt8) : SecretEntry :=
  ⟨key, payload, true⟩

/-! ## Searching -/

/-- The search loop over the slots of one bucket: an occupied slot whose tag agrees
is followed into storage and its key compared. -/
def findKey (storage : Block SecretEntry) (bucket : Bucket) (tag : UInt32) (key : String) :
    List (Fin 8) → Except Fault (Option (Fin 8))
  | [] => .ok none
  | i :: rest =>
    if (bucket i).index ≠ u32Max ∧ (bucket i).tag = tag then do
      let se ← storage.read (bucket i).index.toNat
      if se.key = key then .ok (some i) else findKey storage bucket tag key rest
    else findKey storage bucket tag key rest

/-- The position of a key and the storage index its slot holds. The first table is
searched completely before the second. -/
def search (h : Hashing) (t : CuckooTable) (key : String) :
    Except Fault (Option (Side × Fin 8 × UInt32)) := do
  let tag := getTag (h.hash1Full key)
  let bucket1 ← t.table1.read (t.bucketIndex h .first key)
  match ← findKey t.storage bucket1 tag key (List.finRange 8) with
  | some i => return some (.first, i, (bucket1 i).index)
  | none =>
    let bucket2 ← t.table2.read (t.bucketIndex h .second key)
    match ← findKey t.storage bucket2 tag key (List.finRange 8) with
    | some i => return some (.second, i, (bucket2 i).index)
    | none => return none

/-! ## Obtaining a storage cell -/

/-- The CLOCK scan: a referenced entry loses its flag and is passed over, the first
unreferenced one is the victim. `u32Max` reports that the scan found none. -/
def clockScan (maxCapacity : ℕ) :
    ℕ → Block SecretEntry → ℕ → Except Fault (UInt32 × Block SecretEntry × ℕ)
  | 0, storage, clockHand => .ok (u32Max, storage, clockHand)
  | n + 1, storage, clockHand => do
    let idx := if clockHand ≥ maxCapacity then 0 else clockHand
    let entry ← storage.read idx
    if entry.referenced then
      let storage ← storage.assign idx { entry with referenced := false }
      clockScan maxCapacity n storage (idx + 1)
    else .ok (UInt32.ofNat idx, storage, idx + 1)

/-- The first slot of a bucket that holds a given storage index. -/
def findIndex (bucket : Bucket) (index : UInt32) : Option (Fin 8) :=
  (List.finRange 8).find? fun j => (bucket j).index = index

/-- The slot that still refers to an evicted cell is emptied before the cell is reused. -/
def clearVictim (h : Hashing) (t : CuckooTable) (victimKey : String) (victimIdx : UInt32) :
    Except Fault CuckooTable := do
  let b1 := t.bucketIndex h .first victimKey
  let bucket1 ← t.table1.read b1
  match findIndex bucket1 victimIdx with
  | some j =>
    let table1 ← t.table1.write b1 (Function.update bucket1 j .empty)
    return { t with table1 := table1 }
  | none =>
    let b2 := t.bucketIndex h .second victimKey
    let bucket2 ← t.table2.read b2
    match findIndex bucket2 victimIdx with
    | some j =>
      let table2 ← t.table2.write b2 (Function.update bucket2 j .empty)
      return { t with table2 := table2 }
    | none => return t

/-- A storage cell holding the new entry: from the free list, else a fresh one, else
the CLOCK victim. No index is returned when the scan found no victim. -/
def allocate (h : Hashing) (t : CuckooTable) (key : String) (payload : List UInt8) :
    Except Fault (Option UInt32 × CuckooTable) := do
  if t.freeListSize > 0 then
    let newStorageIdx ← t.freeList.read (t.freeListSize - 1)
    let storage ← t.storage.assign newStorageIdx.toNat (freshEntry key payload)
    return (some newStorageIdx,
      { t with freeListSize := t.freeListSize - 1, storage := storage })
  else if t.storageSize < t.maxCapacity then
    let newStorageIdx := UInt32.ofNat t.storageSize
    let storage ← t.storage.write newStorageIdx.toNat (freshEntry key payload)
    return (some newStorageIdx,
      { t with storageSize := t.storageSize + 1, storage := storage })
  else
    let (victimIdx, storage, clockHand) ←
      clockScan t.maxCapacity (t.maxCapacity * 2) t.storage t.clockHand
    let t := { t with storage := storage, clockHand := clockHand }
    if victimIdx ≠ u32Max then
      let victim ← t.storage.read victimIdx.toNat
      let t ← clearVictim h t victim.key victimIdx
      let storage ← t.storage.assign victimIdx.toNat (freshEntry key payload)
      return (some victimIdx, { t with storage := storage })
    else return (none, t)

/-! ## Displacement -/

/-- The first empty slot of a bucket. -/
def findEmpty (bucket : Bucket) : Option (Fin 8) :=
  findIndex bucket u32Max

/-- The displacement loop, in round `i` with `fuel` rounds left. The carried entry
takes an empty slot of its first or second bucket; otherwise it trades places with
a slot of its first bucket. The last carried entry is dropped when the rounds run
out. The slot choice is `usize` arithmetic. -/
def displace (h : Hashing) : ℕ → ℕ → CuckooTable → UInt32 → UInt32 → String →
    Except Fault (Bool × CuckooTable)
  | 0, _, t, _, _, _ => .ok (false, t)
  | fuel + 1, i, t, currentIndex, currentTag, curKey => do
    let b1 := t.bucketIndex h .first curKey
    let bucket1 ← t.table1.read b1
    match findEmpty bucket1 with
    | some j =>
      let table1 ← t.table1.write b1 (Function.update bucket1 j ⟨currentTag, currentIndex⟩)
      return (true, { t with table1 := table1 })
    | none =>
      let b2 := t.bucketIndex h .second curKey
      let bucket2 ← t.table2.read b2
      match findEmpty bucket2 with
      | some j =>
        let table2 ← t.table2.write b2 (Function.update bucket2 j ⟨currentTag, currentIndex⟩)
        return (true, { t with table2 := table2 })
      | none =>
        let victimSlot : Fin 8 :=
          ⟨((h.hash1Full curKey).toNat + currentIndex.toNat + i) % 2 ^ 64 % 8,
            Nat.mod_lt _ (Nat.zero_lt_succ 7)⟩
        let victim := bucket1 victimSlot
        let table1 ← t.table1.write b1
          (Function.update bucket1 victimSlot ⟨currentTag, currentIndex⟩)
        let carried ← t.storage.read victim.index.toNat
        displace h fuel (i + 1) { t with table1 := table1 } victim.index victim.tag carried.key

/-! ## The public operations -/

def insert (h : Hashing) (t : CuckooTable) (key : String) (entry : SecretEntry) :
    Except Fault (Bool × CuckooTable) := do
  match ← t.search h key with
  | some (_, _, index) =>
    let storage ← t.storage.assign index.toNat (freshEntry key entry.payload)
    return (true, { t with storage := storage })
  | none =>
    match ← t.allocate h key entry.payload with
    | (none, t) => return (false, t)
    | (some newStorageIdx, t) =>
      displace h 256 0 t newStorageIdx (getTag (h.hash1Full key)) key

/-- The closure runs on the entry after its `referenced` flag was set. -/
def lookupMap {R : Type} (h : Hashing) (t : CuckooTable) (key : String)
    (f : SecretEntry → R) : Except Fault (Option R × CuckooTable) := do
  match ← t.search h key with
  | some (_, _, index) =>
    let se ← t.storage.read index.toNat
    let storage ← t.storage.assign index.toNat { se with referenced := true }
    return (some (f { se with referenced := true }), { t with storage := storage })
  | none => return (none, t)

def lookup (h : Hashing) (t : CuckooTable) (key : String) :
    Except Fault (Option SecretEntry × CuckooTable) :=
  t.lookupMap h key id

/-- The slot is emptied and its index pushed on the free list; the storage cell
keeps the removed entry. -/
def remove (h : Hashing) (t : CuckooTable) (key : String) :
    Except Fault (Bool × CuckooTable) := do
  match ← t.search h key with
  | some (side, i, removedIndex) =>
    let b := t.bucketIndex h side key
    let bucket ← (t.table side).read b
    let table ← (t.table side).write b (Function.update bucket i .empty)
    let freeList ← t.freeList.write t.freeListSize removedIndex
    return (true, { t.withTable side table with
      freeList := freeList, freeListSize := t.freeListSize + 1 })
  | none => return (false, t)

/-- The entries of the occupied slots of one bucket, in slot order. -/
def bucketEntries (storage : Block SecretEntry) (bucket : Bucket) :
    List (Fin 8) → Except Fault (List SecretEntry)
  | [] => .ok []
  | j :: rest =>
    if (bucket j).index ≠ u32Max then do
      let se ← storage.read (bucket j).index.toNat
      let more ← bucketEntries storage bucket rest
      return se :: more
    else bucketEntries storage bucket rest

/-- The scan over the remaining `n` buckets, both tables side by side. -/
def scanEntries (t : CuckooTable) : ℕ → ℕ → Except Fault (List SecretEntry)
  | 0, _ => .ok []
  | n + 1, i => do
    let bucket1 ← t.table1.read i
    let first ← bucketEntries t.storage bucket1 (List.finRange 8)
    let bucket2 ← t.table2.read i
    let second ← bucketEntries t.storage bucket2 (List.finRange 8)
    let more ← t.scanEntries n (i + 1)
    return first ++ second ++ more

/-- All live entries. The initial allocation subtracts the free-list size from the
storage size in `usize` arithmetic. -/
def getAllEntries (t : CuckooTable) : Except Fault (List SecretEntry) :=
  if t.storageSize < t.freeListSize then .error .underflow
  else t.scanEntries t.capacity 0

end CuckooTable

/-! ## Dropping -/

/-- The entries are dropped and the four allocations given back. The result is what was
dropped and the arena as it was given back. The free list was allocated for as many
indices as the arena has cells. -/
def UnsafeCuckoo.drop (t : UnsafeCuckoo) :
    Except FreeFault (List SecretEntry × Block SecretEntry) := do
  let (dropped, storage) ← Block.dropCells t.storageSize 0 t.storage
  t.table1.dealloc t.capacity
  t.table2.dealloc t.capacity
  storage.dealloc t.maxCapacity
  t.freeList.dealloc t.maxCapacity
  return (dropped, storage)

/-! ## Sequences of calls -/

inductive Op where
  | insert (key : String) (entry : SecretEntry)
  | lookup (key : String)
  | remove (key : String)
  deriving DecidableEq, Repr

/-- One call; only the state is kept. -/
def CuckooTable.apply (h : Hashing) (t : CuckooTable) : Op → Except Fault CuckooTable
  | .insert key entry => Prod.snd <$> t.insert h key entry
  | .lookup key => Prod.snd <$> t.lookup h key
  | .remove key => Prod.snd <$> t.remove h key

def CuckooTable.run (h : Hashing) : CuckooTable → List Op → Except Fault CuckooTable
  | t, [] => .ok t
  | t, op :: ops => do CuckooTable.run h (← t.apply h op) ops

end Kallisto.Cuckoo
