import Kallisto.Model.CuckooTable
import Mathlib.Data.Finset.Card
import Mathlib.Data.Finset.Range

/-! # The representation invariant of the cuckoo table

Slots, storage and free list are related by one invariant. It is stated over slot
positions, so that both tables share every lemma, and it is preserved by three
primitive updates: overwriting a slot, overwriting a storage cell, and moving the
boundary of the free list or of the used storage. -/

namespace Kallisto.Cuckoo

open RawMemory

/-- The position of a slot. -/
structure Loc where
  side : Side
  bucket : ℕ
  slot : Fin 8
  deriving DecidableEq

namespace CuckooTable

variable {i : ℕ} {t : CuckooTable}

/-! ## Observations -/

/-- A bucket; outside the table every slot counts as empty. -/
def bucketAt (t : CuckooTable) (side : Side) (b : ℕ) : Bucket :=
  ((t.table side).cell b).getD fun _ => .empty

def slotAt (t : CuckooTable) (l : Loc) : Slot :=
  t.bucketAt l.side l.bucket l.slot

def Occupied (t : CuckooTable) (l : Loc) : Prop :=
  (t.slotAt l).index ≠ u32Max

def indexAt (t : CuckooTable) (l : Loc) : ℕ :=
  (t.slotAt l).index.toNat

def entryAt (t : CuckooTable) (i : ℕ) : SecretEntry :=
  (t.storage.cell i).getD default

def keyAt (t : CuckooTable) (i : ℕ) : String :=
  (t.entryAt i).key

/-- The key a slot refers to. -/
def slotKey (t : CuckooTable) (l : Loc) : String :=
  t.keyAt (t.indexAt l)

def freeAt (t : CuckooTable) (i : ℕ) : ℕ :=
  ((t.freeList.cell i).getD 0).toNat

/-! ## The invariant -/

structure Invariant (h : Hashing) (t : CuckooTable) : Prop where
  capacity_pos : 0 < t.capacity
  table_size : ∀ side, (t.table side).size = t.capacity
  bucket_init : ∀ side b, ((t.table side).cell b).isSome ↔ b < t.capacity
  storage_size : t.storage.size = t.maxCapacity
  storage_init : ∀ i, (t.storage.cell i).isSome ↔ i < t.storageSize
  freeList_size : t.freeList.size = t.maxCapacity
  freeList_init : ∀ i, i < t.maxCapacity → (t.freeList.cell i).isSome
  storageSize_le : t.storageSize ≤ t.maxCapacity
  maxCapacity_le : t.maxCapacity ≤ u32Max.toNat
  slot_lt : ∀ l, t.Occupied l → t.indexAt l < t.storageSize
  key_inj : ∀ l m, t.Occupied l → t.Occupied m → t.slotKey l = t.slotKey m → l = m
  slot_home : ∀ l, t.Occupied l → t.bucketIndex h l.side (t.slotKey l) = l.bucket
  slot_tag : ∀ l, t.Occupied l → (t.slotAt l).tag = getTag (h.hash1Full (t.slotKey l))
  free_lt : ∀ i, i < t.freeListSize → t.freeAt i < t.storageSize
  free_inj : ∀ i j, i < t.freeListSize → j < t.freeListSize → t.freeAt i = t.freeAt j → i = j
  free_unused : ∀ i l, i < t.freeListSize → t.Occupied l → t.indexAt l ≠ t.freeAt i

/-- A storage index on its way into a slot: in use, and neither free nor reachable
through any slot. -/
structure Carried (t : CuckooTable) (index : UInt32) : Prop where
  lt : index.toNat < t.storageSize
  key_ne : ∀ l, t.Occupied l → t.slotKey l ≠ t.keyAt index.toNat
  not_free : ∀ i, i < t.freeListSize → t.freeAt i ≠ index.toNat

/-! ## Initial state -/

@[simp] theorem slotAt_new (size cap : ℕ) (l : Loc) :
    (CuckooTable.new size cap).slotAt l = .empty := by
  obtain ⟨side, b, j⟩ := l
  cases side <;>
    by_cases hb : b < size <;>
    simp [slotAt, bucketAt, CuckooTable.new, UnsafeCuckoo.new, table, hb]

theorem not_occupied_new (size cap : ℕ) (l : Loc) :
    ¬ (CuckooTable.new size cap).Occupied l := by
  simp [Occupied, Slot.empty]

theorem invariant_new (h : Hashing) (size cap : ℕ) (hsize : 1 ≤ size)
    (hcap : (CuckooTable.new size cap).maxCapacity ≤ u32Max.toNat) :
    Invariant h (CuckooTable.new size cap) where
  capacity_pos := hsize
  table_size side := by cases side <;> rfl
  bucket_init side b := by
    cases side <;> simp [CuckooTable.new, UnsafeCuckoo.new, table]
  storage_size := rfl
  storage_init i := by simp [CuckooTable.new, UnsafeCuckoo.new]
  freeList_size := rfl
  freeList_init i hi := by
    change (if i < (CuckooTable.new size cap).maxCapacity then some _ else none).isSome
    rw [if_pos hi]
    rfl
  storageSize_le := Nat.zero_le _
  maxCapacity_le := hcap
  slot_lt l hl := (not_occupied_new size cap l hl).elim
  key_inj l _ hl := (not_occupied_new size cap l hl).elim
  slot_home l hl := (not_occupied_new size cap l hl).elim
  slot_tag l hl := (not_occupied_new size cap l hl).elim
  free_lt i hi := (Nat.not_lt_zero i hi).elim
  free_inj i _ hi := (Nat.not_lt_zero i hi).elim
  free_unused i _ hi := (Nat.not_lt_zero i hi).elim

/-! ## Consequences -/

variable {l : Loc}

section Consequences

variable {h : Hashing} {t : CuckooTable}

theorem Invariant.index_inj (hinv : Invariant h t) {m : Loc} (hl : t.Occupied l)
    (hm : t.Occupied m) (he : t.indexAt l = t.indexAt m) : l = m := by
  apply hinv.key_inj l m hl hm
  rw [slotKey, slotKey, he]

theorem Invariant.bucket_lt (hinv : Invariant h t) (hl : t.Occupied l) : l.bucket < t.capacity := by
  rw [← hinv.slot_home l hl]
  exact Nat.mod_lt _ hinv.capacity_pos

theorem Invariant.bucketIndex_lt (hinv : Invariant h t) (side : Side) (key : String) :
    t.bucketIndex h side key < t.capacity :=
  Nat.mod_lt _ hinv.capacity_pos

theorem Invariant.read_bucket (hinv : Invariant h t) (side : Side) {b : ℕ}
    (hb : b < t.capacity) : (t.table side).read b = .ok (t.bucketAt side b) := by
  obtain ⟨bucket, hbucket⟩ := Option.isSome_iff_exists.mp ((hinv.bucket_init side b).mpr hb)
  rw [Block.read_eq_ok (by rw [hinv.table_size]; exact hb) hbucket]
  simp [bucketAt, hbucket]

theorem Invariant.write_bucket (hinv : Invariant h t) (side : Side) {b : ℕ} (bucket : Bucket)
    (hb : b < t.capacity) :
    (t.table side).write b bucket = .ok ((t.table side).set b bucket) :=
  Block.write_eq_ok bucket (by rw [hinv.table_size]; exact hb)

theorem Invariant.storage_bound (hinv : Invariant h t) (hi : i < t.storageSize) :
    i < t.storage.size := by
  rw [hinv.storage_size]
  exact hi.trans_le hinv.storageSize_le

theorem Invariant.read_storage (hinv : Invariant h t) (hi : i < t.storageSize) :
    t.storage.read i = .ok (t.entryAt i) := by
  obtain ⟨e, he⟩ := Option.isSome_iff_exists.mp ((hinv.storage_init i).mpr hi)
  rw [Block.read_eq_ok (hinv.storage_bound hi) he]
  simp [entryAt, he]

theorem Invariant.assign_storage (hinv : Invariant h t) (e : SecretEntry)
    (hi : i < t.storageSize) : t.storage.assign i e = .ok (t.storage.set i e) :=
  Block.assign_eq_ok e (hinv.storage_bound hi) ((hinv.storage_init i).mpr hi)

/-- The free list holds distinct indices below the storage size, so it is no longer
than the used storage. -/
theorem Invariant.freeListSize_le (hinv : Invariant h t) :
    t.freeListSize ≤ t.storageSize := by
  have hcard := Finset.card_le_card_of_injOn (s := Finset.range t.freeListSize)
    (t := Finset.range t.storageSize) t.freeAt
    (fun i hi => by simpa using hinv.free_lt i (by simpa using hi))
    (fun i hi j hj => hinv.free_inj i j (by simpa using hi) (by simpa using hj))
  simpa using hcard

/-- An index in use outside the free list leaves room for one more free index. -/
theorem Invariant.freeListSize_lt (hinv : Invariant h t) (hi : i < t.storageSize)
    (hfree : ∀ j, j < t.freeListSize → t.freeAt j ≠ i) : t.freeListSize < t.storageSize := by
  have hcard := Finset.card_le_card_of_injOn (s := Finset.range t.freeListSize)
    (t := (Finset.range t.storageSize).erase i) t.freeAt
    (fun j hj => by
      have hj' : j < t.freeListSize := by simpa using hj
      exact Finset.mem_coe.mpr (Finset.mem_erase.mpr
        ⟨hfree j hj', Finset.mem_range.mpr (hinv.free_lt j hj')⟩))
    (fun j hj k hk => hinv.free_inj j k (by simpa using hj) (by simpa using hk))
  rw [Finset.card_erase_of_mem (by simpa using hi), Finset.card_range, Finset.card_range] at hcard
  omega

theorem Carried.not_indexAt {index : UInt32} (hc : Carried t index) (hl : t.Occupied l) :
    t.indexAt l ≠ index.toNat := by
  intro he
  exact hc.key_ne l hl (by rw [slotKey, he])

theorem Invariant.ne_u32Max (hinv : Invariant h t) {index : UInt32}
    (hi : index.toNat < t.storageSize) : index ≠ u32Max := by
  rintro rfl
  have hle := hinv.storageSize_le
  have hmax := hinv.maxCapacity_le
  omega

end Consequences

/-! ## Overwriting a slot -/

def setSlot (t : CuckooTable) (l : Loc) (s : Slot) : CuckooTable :=
  t.withTable l.side
    ((t.table l.side).set l.bucket (Function.update (t.bucketAt l.side l.bucket) l.slot s))

section SetSlot

variable (t : CuckooTable) (l : Loc) (s : Slot)

@[simp] theorem setSlot_capacity : (t.setSlot l s).capacity = t.capacity := by
  obtain ⟨side, b, j⟩ := l
  cases side <;> rfl

@[simp] theorem setSlot_storage : (t.setSlot l s).storage = t.storage := by
  obtain ⟨side, b, j⟩ := l
  cases side <;> rfl

@[simp] theorem setSlot_maxCapacity : (t.setSlot l s).maxCapacity = t.maxCapacity := by
  obtain ⟨side, b, j⟩ := l
  cases side <;> rfl

@[simp] theorem setSlot_storageSize : (t.setSlot l s).storageSize = t.storageSize := by
  obtain ⟨side, b, j⟩ := l
  cases side <;> rfl

@[simp] theorem setSlot_freeList : (t.setSlot l s).freeList = t.freeList := by
  obtain ⟨side, b, j⟩ := l
  cases side <;> rfl

@[simp] theorem setSlot_freeListSize : (t.setSlot l s).freeListSize = t.freeListSize := by
  obtain ⟨side, b, j⟩ := l
  cases side <;> rfl

@[simp] theorem setSlot_entryAt (i : ℕ) : (t.setSlot l s).entryAt i = t.entryAt i := by
  simp [entryAt]

@[simp] theorem setSlot_keyAt (i : ℕ) : (t.setSlot l s).keyAt i = t.keyAt i := by
  simp [keyAt]

@[simp] theorem setSlot_freeAt (i : ℕ) : (t.setSlot l s).freeAt i = t.freeAt i := by
  simp [freeAt]

@[simp] theorem setSlot_bucketIndex (h : Hashing) (side : Side) (key : String) :
    (t.setSlot l s).bucketIndex h side key = t.bucketIndex h side key := by
  simp [bucketIndex]

theorem setSlot_table (side : Side) :
    (t.setSlot l s).table side =
      if side = l.side then
        (t.table side).set l.bucket (Function.update (t.bucketAt side l.bucket) l.slot s)
      else t.table side := by
  obtain ⟨lside, b, j⟩ := l
  cases lside <;> cases side <;> rfl

theorem setSlot_slotAt (m : Loc) :
    (t.setSlot l s).slotAt m = if m = l then s else t.slotAt m := by
  obtain ⟨side, b, j⟩ := m
  obtain ⟨lside, lb, lj⟩ := l
  simp only [slotAt, bucketAt, setSlot_table, Loc.mk.injEq]
  by_cases hside : side = lside
  · subst side
    by_cases hb : b = lb
    · subst b
      by_cases hj : j = lj
      · subst j
        simp
      · simp [hj]
    · simp [hb, Block.set_cell]
  · simp [hside]

@[simp] theorem setSlot_slotAt_self : (t.setSlot l s).slotAt l = s := by
  simp [setSlot_slotAt]

theorem setSlot_slotAt_of_ne {m : Loc} (hm : m ≠ l) :
    (t.setSlot l s).slotAt m = t.slotAt m := by
  simp [setSlot_slotAt, hm]

end SetSlot

/-- The contents of a slot that may be stored at a position: empty, or a carried
index at a bucket of its key, with the tag of its key. -/
structure Fits (h : Hashing) (t : CuckooTable) (l : Loc) (s : Slot) : Prop where
  lt : s.index.toNat < t.storageSize
  home : t.bucketIndex h l.side (t.keyAt s.index.toNat) = l.bucket
  tag : s.tag = getTag (h.hash1Full (t.keyAt s.index.toNat))
  key_ne : ∀ m, m ≠ l → t.Occupied m → t.slotKey m ≠ t.keyAt s.index.toNat
  not_free : ∀ i, i < t.freeListSize → t.freeAt i ≠ s.index.toNat

/-- What is known of an occupied slot after one slot was overwritten. -/
theorem setSlot_occupied {m : Loc} {s : Slot} (hm : (t.setSlot l s).Occupied m) :
    (m = l ∧ s.index ≠ u32Max ∧ (t.setSlot l s).indexAt m = s.index.toNat ∧
        (t.setSlot l s).slotKey m = t.keyAt s.index.toNat) ∨
      (m ≠ l ∧ t.Occupied m ∧ (t.setSlot l s).indexAt m = t.indexAt m ∧
        (t.setSlot l s).slotKey m = t.slotKey m) := by
  by_cases hml : m = l
  · subst m
    left
    simpa [Occupied, indexAt, slotKey] using hm
  · right
    simpa [Occupied, indexAt, slotKey, setSlot_slotAt_of_ne _ _ _ hml, hml] using hm

theorem Invariant.setSlot {h : Hashing} (hinv : Invariant h t) {s : Slot}
    (hl : l.bucket < t.capacity) (hs : s.index ≠ u32Max → Fits h t l s) :
    Invariant h (t.setSlot l s) where
  capacity_pos := by simpa using hinv.capacity_pos
  table_size side := by
    rw [setSlot_table]
    split <;> simp [hinv.table_size]
  bucket_init side b := by
    rw [setSlot_table]
    split
    · rw [Block.set_cell]
      split
      · subst b
        simp [hl]
      · simpa using hinv.bucket_init side b
    · simpa using hinv.bucket_init side b
  storage_size := by simpa using hinv.storage_size
  storage_init i := by simpa using hinv.storage_init i
  freeList_size := by simpa using hinv.freeList_size
  freeList_init i hi := by simpa using hinv.freeList_init i (by simpa using hi)
  storageSize_le := by simpa using hinv.storageSize_le
  maxCapacity_le := by simpa using hinv.maxCapacity_le
  slot_lt m hm := by
    rcases setSlot_occupied hm with ⟨_, hne, hidx, _⟩ | ⟨_, hocc, hidx, _⟩
    · rw [hidx]
      simpa using (hs hne).lt
    · rw [hidx]
      simpa using hinv.slot_lt m hocc
  key_inj m n hm hn he := by
    rcases setSlot_occupied hm with ⟨hml, hne, _, hkm⟩ | ⟨hml, hocc, _, hkm⟩ <;>
      rcases setSlot_occupied hn with ⟨hnl, hne', _, hkn⟩ | ⟨hnl, hocc', _, hkn⟩
    · rw [hml, hnl]
    · rw [hkm, hkn] at he
      exact ((hs hne).key_ne n hnl hocc' he.symm).elim
    · rw [hkm, hkn] at he
      exact ((hs hne').key_ne m hml hocc he).elim
    · rw [hkm, hkn] at he
      exact hinv.key_inj m n hocc hocc' he
  slot_home m hm := by
    rcases setSlot_occupied hm with ⟨rfl, hne, _, hkey⟩ | ⟨_, hocc, _, hkey⟩
    · rw [hkey]
      simpa using (hs hne).home
    · rw [hkey]
      simpa using hinv.slot_home m hocc
  slot_tag m hm := by
    rcases setSlot_occupied hm with ⟨rfl, hne, _, hkey⟩ | ⟨hml, hocc, _, hkey⟩
    · rw [hkey, setSlot_slotAt_self]
      exact (hs hne).tag
    · rw [hkey, setSlot_slotAt_of_ne _ _ _ hml]
      exact hinv.slot_tag m hocc
  free_lt i hi := by simpa using hinv.free_lt i (by simpa using hi)
  free_inj i j hi hj he :=
    hinv.free_inj i j (by simpa using hi) (by simpa using hj) (by simpa using he)
  free_unused i m hi hm := by
    rw [setSlot_freeAt]
    rcases setSlot_occupied hm with ⟨_, hne, hidx, _⟩ | ⟨_, hocc, hidx, _⟩
    · rw [hidx]
      exact ((hs hne).not_free i (by simpa using hi)).symm
    · rw [hidx]
      exact hinv.free_unused i m (by simpa using hi) hocc

/-! ## Overwriting a storage cell -/

def setEntry (t : CuckooTable) (i : ℕ) (e : SecretEntry) : CuckooTable :=
  { t with storage := t.storage.set i e }

section SetEntry

variable (t : CuckooTable) (i : ℕ) (e : SecretEntry)

@[simp] theorem setEntry_capacity : (t.setEntry i e).capacity = t.capacity :=
  rfl

@[simp] theorem setEntry_maxCapacity : (t.setEntry i e).maxCapacity = t.maxCapacity :=
  rfl

@[simp] theorem setEntry_storageSize : (t.setEntry i e).storageSize = t.storageSize :=
  rfl

@[simp] theorem setEntry_freeListSize : (t.setEntry i e).freeListSize = t.freeListSize :=
  rfl

@[simp] theorem setEntry_freeAt (j : ℕ) : (t.setEntry i e).freeAt j = t.freeAt j :=
  rfl

@[simp] theorem setEntry_bucketIndex (h : Hashing) (side : Side) (key : String) :
    (t.setEntry i e).bucketIndex h side key = t.bucketIndex h side key :=
  rfl

@[simp] theorem setEntry_table (side : Side) : (t.setEntry i e).table side = t.table side := by
  cases side <;> rfl

@[simp] theorem setEntry_slotAt (l : Loc) : (t.setEntry i e).slotAt l = t.slotAt l := by
  simp [slotAt, bucketAt]

@[simp] theorem setEntry_occupied (l : Loc) : (t.setEntry i e).Occupied l ↔ t.Occupied l := by
  simp [Occupied]

@[simp] theorem setEntry_indexAt (l : Loc) : (t.setEntry i e).indexAt l = t.indexAt l := by
  simp [indexAt]

theorem setEntry_entryAt (j : ℕ) :
    (t.setEntry i e).entryAt j = if j = i then e else t.entryAt j := by
  simp only [entryAt, setEntry, Block.set_cell]
  split <;> rfl

theorem setEntry_keyAt (j : ℕ) :
    (t.setEntry i e).keyAt j = if j = i then e.key else t.keyAt j := by
  simp only [keyAt, setEntry_entryAt]
  split <;> rfl

end SetEntry

/-- A storage cell may be overwritten when no slot refers to it, or with an entry of
the same key. -/
theorem Invariant.setEntry {h : Hashing} (hinv : Invariant h t) {e : SecretEntry}
    (hi : i < t.storageSize) (hkey : ∀ l, t.Occupied l → t.indexAt l = i → e.key = t.slotKey l) :
    Invariant h (t.setEntry i e) := by
  have hslot : ∀ l, t.Occupied l → (t.setEntry i e).slotKey l = t.slotKey l := by
    intro l hl
    rw [slotKey, setEntry_indexAt, setEntry_keyAt]
    split
    · exact hkey l hl ‹_›
    · rfl
  exact {
    capacity_pos := hinv.capacity_pos
    table_size := by simpa using hinv.table_size
    bucket_init := by simpa using hinv.bucket_init
    storage_size := hinv.storage_size
    storage_init := by
      intro j
      simp only [CuckooTable.setEntry, Block.set_cell]
      split
      · subst j
        simp [hi]
      · exact hinv.storage_init j
    freeList_size := hinv.freeList_size
    freeList_init := hinv.freeList_init
    storageSize_le := hinv.storageSize_le
    maxCapacity_le := hinv.maxCapacity_le
    slot_lt := by simpa using hinv.slot_lt
    key_inj := by
      intro l m hl hm he
      rw [setEntry_occupied] at hl hm
      rw [hslot l hl, hslot m hm] at he
      exact hinv.key_inj l m hl hm he
    slot_home := by
      intro l hl
      rw [setEntry_occupied] at hl
      rw [hslot l hl]
      exact hinv.slot_home l hl
    slot_tag := by
      intro l hl
      rw [setEntry_occupied] at hl
      rw [hslot l hl, setEntry_slotAt]
      exact hinv.slot_tag l hl
    free_lt := hinv.free_lt
    free_inj := hinv.free_inj
    free_unused := by simpa using hinv.free_unused }

/-! ## Moving the boundaries -/

/-- The first unused storage cell receives an entry. -/
def growStorage (t : CuckooTable) (e : SecretEntry) : CuckooTable :=
  { t with storageSize := t.storageSize + 1, storage := t.storage.set t.storageSize e }

def popFree (t : CuckooTable) : CuckooTable :=
  { t with freeListSize := t.freeListSize - 1 }

def pushFree (t : CuckooTable) (index : UInt32) : CuckooTable :=
  { t with
    freeList := t.freeList.set t.freeListSize index
    freeListSize := t.freeListSize + 1 }

section Boundaries

variable {h : Hashing} {t : CuckooTable}

theorem growStorage_slotAt (t : CuckooTable) (e : SecretEntry) (l : Loc) :
    (t.growStorage e).slotAt l = t.slotAt l :=
  rfl

theorem pushFree_slotAt (t : CuckooTable) (index : UInt32) (l : Loc) :
    (t.pushFree index).slotAt l = t.slotAt l :=
  rfl

theorem growStorage_entryAt (t : CuckooTable) (e : SecretEntry) (i : ℕ) :
    (t.growStorage e).entryAt i = if i = t.storageSize then e else t.entryAt i := by
  simp only [entryAt, growStorage, Block.set_cell]
  split <;> rfl

theorem pushFree_freeAt (t : CuckooTable) (index : UInt32) (i : ℕ) :
    (t.pushFree index).freeAt i = if i = t.freeListSize then index.toNat else t.freeAt i := by
  simp only [freeAt, pushFree, Block.set_cell]
  split <;> rfl

theorem Invariant.popFree (hinv : Invariant h t) : Invariant h t.popFree := by
  have hle : t.freeListSize - 1 ≤ t.freeListSize := Nat.sub_le _ _
  exact { hinv with
    free_lt := fun i hi => hinv.free_lt i (hi.trans_le hle)
    free_inj := fun i j hi hj => hinv.free_inj i j (hi.trans_le hle) (hj.trans_le hle)
    free_unused := fun i l hi => hinv.free_unused i l (hi.trans_le hle) }

theorem Invariant.growStorage (hinv : Invariant h t) (e : SecretEntry)
    (hroom : t.storageSize < t.maxCapacity) : Invariant h (t.growStorage e) := by
  have hslot : ∀ l, t.Occupied l → (t.growStorage e).slotKey l = t.slotKey l := by
    intro l hl
    have hlt := hinv.slot_lt l hl
    simp only [indexAt] at hlt
    simp only [slotKey, keyAt, indexAt, growStorage_slotAt, growStorage_entryAt]
    rw [if_neg (by omega)]
  have hocc : ∀ l, (t.growStorage e).Occupied l ↔ t.Occupied l := by
    intro l
    simp only [Occupied, growStorage_slotAt]
  have hidx : ∀ l, (t.growStorage e).indexAt l = t.indexAt l := by
    intro l
    simp only [indexAt, growStorage_slotAt]
  exact {
    capacity_pos := hinv.capacity_pos
    table_size := hinv.table_size
    bucket_init := hinv.bucket_init
    storage_size := hinv.storage_size
    storage_init := by
      intro i
      have hi := hinv.storage_init i
      simp only [CuckooTable.growStorage, Block.set_cell]
      split
      · subst i
        simp
      · rw [hi]
        omega
    freeList_size := hinv.freeList_size
    freeList_init := hinv.freeList_init
    storageSize_le := hroom
    maxCapacity_le := hinv.maxCapacity_le
    slot_lt := by
      intro l hl
      rw [hidx]
      exact Nat.lt_succ_of_lt (hinv.slot_lt l ((hocc l).mp hl))
    key_inj := by
      intro l m hl hm he
      rw [hocc] at hl hm
      rw [hslot l hl, hslot m hm] at he
      exact hinv.key_inj l m hl hm he
    slot_home := by
      intro l hl
      rw [hocc] at hl
      rw [hslot l hl]
      exact hinv.slot_home l hl
    slot_tag := by
      intro l hl
      rw [hocc] at hl
      rw [hslot l hl, growStorage_slotAt]
      exact hinv.slot_tag l hl
    free_lt := fun i hi => Nat.lt_succ_of_lt (hinv.free_lt i hi)
    free_inj := hinv.free_inj
    free_unused := by
      intro i l hi hl
      rw [hidx]
      exact hinv.free_unused i l hi ((hocc l).mp hl) }

theorem Invariant.pushFree (hinv : Invariant h t) {index : UInt32} (hc : Carried t index) :
    Invariant h (t.pushFree index) := by
  have hocc : ∀ l, (t.pushFree index).Occupied l ↔ t.Occupied l := by
    intro l
    simp only [Occupied, pushFree_slotAt]
  have hidx : ∀ l, (t.pushFree index).indexAt l = t.indexAt l := by
    intro l
    simp only [indexAt, pushFree_slotAt]
  have hold : ∀ i, i < t.freeListSize → (t.pushFree index).freeAt i = t.freeAt i := by
    intro i hi
    rw [pushFree_freeAt, if_neg (by omega)]
  have hnew : (t.pushFree index).freeAt t.freeListSize = index.toNat := by
    rw [pushFree_freeAt, if_pos rfl]
  have hcases : ∀ i, i < (t.pushFree index).freeListSize →
      i < t.freeListSize ∨ i = t.freeListSize := by
    intro i hi
    exact Nat.lt_succ_iff_lt_or_eq.mp hi
  exact {
    capacity_pos := hinv.capacity_pos
    table_size := hinv.table_size
    bucket_init := hinv.bucket_init
    storage_size := hinv.storage_size
    storage_init := hinv.storage_init
    freeList_size := hinv.freeList_size
    freeList_init := by
      intro i hi
      simp only [CuckooTable.pushFree, Block.set_cell]
      split
      · rfl
      · exact hinv.freeList_init i hi
    storageSize_le := hinv.storageSize_le
    maxCapacity_le := hinv.maxCapacity_le
    slot_lt := by
      intro l hl
      rw [hidx]
      exact hinv.slot_lt l ((hocc l).mp hl)
    key_inj := hinv.key_inj
    slot_home := hinv.slot_home
    slot_tag := hinv.slot_tag
    free_lt := by
      intro i hi
      rcases hcases i hi with hi | rfl
      · rw [hold i hi]
        exact hinv.free_lt i hi
      · rw [hnew]
        exact hc.lt
    free_inj := by
      intro i j hi hj he
      rcases hcases i hi with hi | rfl <;> rcases hcases j hj with hj | rfl
      · rw [hold i hi, hold j hj] at he
        exact hinv.free_inj i j hi hj he
      · rw [hold i hi, hnew] at he
        exact (hc.not_free i hi he).elim
      · rw [hold j hj, hnew] at he
        exact (hc.not_free j hj he.symm).elim
      · rfl
    free_unused := by
      intro i l hi hl
      rw [hidx]
      rw [hocc] at hl
      rcases hcases i hi with hi | rfl
      · rw [hold i hi]
        exact hinv.free_unused i l hi hl
      · rw [hnew]
        exact hc.not_indexAt hl }

end Boundaries

end CuckooTable

end Kallisto.Cuckoo
