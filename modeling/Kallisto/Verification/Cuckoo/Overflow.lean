import Kallisto.Verification.Cuckoo.Sharded

/-! # Shards beyond the range of slot indices

A storage index is truncated to 32 bits when it is stored in a slot. A shard with more
than `2 ^ 32` storage cells therefore hands the first cell out twice, and two slots of
one bucket end up with the same index. -/

namespace Kallisto.Cuckoo.Overflow

open RawMemory

variable {i : ℕ} {t : CuckooTable} {bucket : Bucket} {j : Fin 8}

/-! ## One key per bucket -/

/-- The first hash spreads keys by their length, the others are constant. -/
def hashing : ShardedHashing where
  hash1Full key := UInt64.ofNat key.length
  hash2Full _ := 0
  shardHash _ := 0

def key (i : ℕ) : String :=
  String.ofList (List.replicate i 'k')

def secret : SecretEntry :=
  ⟨"", [], true⟩

def tag (i : ℕ) : UInt32 :=
  getTag (UInt64.ofNat i)

def emptyBucket : Bucket :=
  fun _ => .empty

/-- The table after the keys of length below `n` were inserted. -/
def filled (size cap n : ℕ) : CuckooTable where
  table1 := ⟨size, fun b => if b < size then
    some (if b < n then Function.update emptyBucket 0 ⟨tag b, UInt32.ofNat b⟩ else emptyBucket)
    else none⟩
  table2 := .filled size emptyBucket
  capacity := size
  storage := ⟨cap, fun i => if i < n then some (CuckooTable.freshEntry (key i) []) else none⟩
  maxCapacity := cap
  storageSize := n
  freeList := .filled cap 0
  freeListSize := 0
  clockHand := 0

/-- A bucket whose first slot alone is in use. -/
def single (slot : Slot) : Bucket :=
  Function.update emptyBucket 0 slot

theorem key_length (i : ℕ) : (key i).length = i := by
  simp [key]

theorem key_inj {j : ℕ} (h : key i = key j) : i = j := by
  rw [← key_length i, h, key_length]

theorem hash1Full_key (i : ℕ) : hashing.hash1Full (key i) = UInt64.ofNat i := by
  simp [hashing, key_length]

theorem bucketIndex_first (hi : i < t.capacity) (hword : i < 2 ^ 64) :
    t.bucketIndex hashing.toHashing .first (key i) = i := by
  rw [CuckooTable.bucketIndex, Hashing.full, hash1Full_key, UInt64.toNat_ofNat',
    Nat.mod_eq_of_lt hword, Nat.mod_eq_of_lt hi]

theorem bucketIndex_second (t : CuckooTable) (i : ℕ) :
    t.bucketIndex hashing.toHashing .second (key i) = 0 := by
  simp [CuckooTable.bucketIndex, Hashing.full, hashing]

theorem finRange_eight : List.finRange 8 = [0, 1, 2, 3, 4, 5, 6, 7] := by
  decide

theorem findKey_empty (storage : Block SecretEntry) (tag : UInt32) (key : String) :
    CuckooTable.findKey storage emptyBucket tag key (List.finRange 8) = .ok none := by
  rw [finRange_eight]
  simp [CuckooTable.findKey, emptyBucket, Slot.empty]

theorem findEmpty_empty : CuckooTable.findEmpty emptyBucket = some 0 := by
  decide

/-- A key that neither of its buckets has a slot for is new. -/
theorem search_eq_none (hi : i < t.capacity) (hword : i < 2 ^ 64)
    (hbucket : t.table1.read i = .ok bucket)
    (hfind : CuckooTable.findKey t.storage bucket (tag i) (key i) (List.finRange 8) = .ok none)
    (hsecond : t.table2.read 0 = .ok emptyBucket) :
    t.search hashing.toHashing (key i) = .ok none := by
  rw [CuckooTable.search, bucketIndex_first hi hword, hbucket, ok_bind, hash1Full_key,
    bucketIndex_second, ← tag, hfind]
  dsimp only [ok_bind]
  rw [hsecond, ok_bind, findKey_empty]
  rfl

/-- A key whose first bucket has a slot with its tag and its entry is found there. -/
theorem search_eq_some (hi : i < t.capacity) (hword : i < 2 ^ 64)
    (hbucket : t.table1.read i = .ok bucket)
    (hfind : CuckooTable.findKey t.storage bucket (tag i) (key i) (List.finRange 8) =
      .ok (some j)) :
    t.search hashing.toHashing (key i) = .ok (some (.first, j, (bucket j).index)) := by
  rw [CuckooTable.search, bucketIndex_first hi hword, hbucket, ok_bind, hash1Full_key,
    ← tag, hfind]
  rfl

/-- The first round of displacement takes an empty slot of the first bucket. -/
theorem displace_first {n : ℕ} {index tag : UInt32} (hi : i < t.capacity)
    (hsize : i < t.table1.size) (hword : i < 2 ^ 64) (hbucket : t.table1.read i = .ok bucket)
    (hempty : CuckooTable.findEmpty bucket = some j) :
    CuckooTable.displace hashing.toHashing (n + 1) 0 t index tag (key i) =
      .ok (true, { t with
        table1 := t.table1.set i (Function.update bucket j ⟨tag, index⟩) }) := by
  rw [CuckooTable.displace, bucketIndex_first hi hword, hbucket]
  dsimp only [ok_bind]
  rw [hempty]
  dsimp only
  rw [Block.write_eq_ok _ hsize]
  rfl

theorem allocate_fresh (hfree : t.freeListSize = 0) (hcap : t.storageSize < t.maxCapacity)
    (hindex : (UInt32.ofNat t.storageSize).toNat < t.storage.size) (key : String) :
    t.allocate hashing.toHashing key [] =
      .ok (some (UInt32.ofNat t.storageSize), { t with
        storageSize := t.storageSize + 1
        storage := t.storage.set (UInt32.ofNat t.storageSize).toNat
          (CuckooTable.freshEntry key []) }) := by
  have hnot : ¬ t.freeListSize > 0 := by omega
  rw [CuckooTable.allocate, if_neg hnot, if_pos hcap]
  dsimp only
  rw [Block.write_eq_ok _ hindex]
  rfl

theorem allocate_free {index : UInt32} (hfree : t.freeListSize = 1)
    (hread : t.freeList.read 0 = .ok index) (hindex : index.toNat < t.storage.size)
    (hcell : (t.storage.cell index.toNat).isSome) (key : String) :
    t.allocate hashing.toHashing key [] =
      .ok (some index, { t with
        freeListSize := 0
        storage := t.storage.set index.toNat (CuckooTable.freshEntry key []) }) := by
  have hpos : t.freeListSize > 0 := by omega
  rw [CuckooTable.allocate, if_pos hpos, hfree, hread, ok_bind, Block.assign_eq_ok _ hindex hcell]
  rfl

theorem insert_new {t' : CuckooTable} {index : UInt32}
    (hsearch : t.search hashing.toHashing (key i) = .ok none)
    (halloc : t.allocate hashing.toHashing (key i) [] = .ok (some index, t')) :
    t.insert hashing.toHashing (key i) secret =
      CuckooTable.displace hashing.toHashing 256 0 t' index (tag i) (key i) := by
  have hpayload : secret.payload = [] := rfl
  rw [CuckooTable.insert, hsearch]
  dsimp only [ok_bind]
  rw [hpayload, halloc]
  dsimp only [ok_bind]
  rw [hash1Full_key, ← tag]

theorem remove_first (hi : i < t.capacity) (hsize : i < t.table1.size) (hword : i < 2 ^ 64)
    (hfree : t.freeListSize < t.freeList.size) (hbucket : t.table1.read i = .ok bucket)
    (hfind : CuckooTable.findKey t.storage bucket (tag i) (key i) (List.finRange 8) =
      .ok (some j)) :
    t.remove hashing.toHashing (key i) =
      .ok (true, { t with
        table1 := t.table1.set i (Function.update bucket j .empty)
        freeList := t.freeList.set t.freeListSize (bucket j).index
        freeListSize := t.freeListSize + 1 }) := by
  rw [CuckooTable.remove, search_eq_some hi hword hbucket hfind]
  dsimp only [ok_bind, CuckooTable.table]
  rw [bucketIndex_first hi hword, hbucket, ok_bind, Block.write_eq_ok _ hsize, ok_bind,
    Block.write_eq_ok _ hfree]
  rfl

theorem lookup_first {e : SecretEntry} (hi : i < t.capacity) (hword : i < 2 ^ 64)
    (hbucket : t.table1.read i = .ok bucket)
    (hfind : CuckooTable.findKey t.storage bucket (tag i) (key i) (List.finRange 8) =
      .ok (some j)) (hsize : (bucket j).index.toNat < t.storage.size)
    (hcell : t.storage.cell (bucket j).index.toNat = some e) :
    ∃ t', t.lookup hashing.toHashing (key i) = .ok (some { e with referenced := true }, t') := by
  have hsome : (t.storage.cell (bucket j).index.toNat).isSome := by
    rw [hcell]
    rfl
  rw [CuckooTable.lookup, CuckooTable.lookupMap, search_eq_some hi hword hbucket hfind]
  dsimp only [ok_bind]
  rw [Block.read_eq_ok hsize hcell, ok_bind, Block.assign_eq_ok _ hsize hsome]
  exact ⟨_, rfl⟩

/-! ## Filling the shard -/

section Fill

variable {size cap n : ℕ}

theorem read_filled_first (cap : ℕ) {b : ℕ} (hb : b < size) (hn : n ≤ b) :
    (filled size cap n).table1.read b = .ok emptyBucket := by
  refine Block.read_eq_ok hb ?_
  simp [filled, hb, Nat.not_lt.mpr hn]

theorem read_filled_second (hsize : 0 < size) :
    (filled size cap n).table2.read 0 = .ok emptyBucket := by
  refine Block.read_eq_ok hsize ?_
  simp [filled, hsize]

theorem filled_zero (size cap : ℕ) : filled size cap 0 = UnsafeCuckoo.new size cap := by
  simp [filled, UnsafeCuckoo.new, Block.filled, Block.alloc]
  rfl

/-- The next key receives the cell whose number is the storage size, truncated. -/
theorem insert_filled (hsize : n < size) (hcap : n < cap) (hword : n < 2 ^ 64) :
    (filled size cap n).insert hashing.toHashing (key n) secret =
      .ok (true, { filled size cap n with
        storageSize := n + 1
        storage := (filled size cap n).storage.set (UInt32.ofNat n).toNat
          (CuckooTable.freshEntry (key n) [])
        table1 := (filled size cap n).table1.set n
          (Function.update emptyBucket 0 ⟨tag n, UInt32.ofNat n⟩) }) := by
  have hindex : (UInt32.ofNat n).toNat < cap :=
    lt_of_le_of_lt (Nat.mod_le n (2 ^ 32)) hcap
  have hsearch := search_eq_none hsize hword (read_filled_first cap hsize le_rfl)
    (findKey_empty _ _ _) (read_filled_second (Nat.zero_lt_of_lt hsize))
  rw [insert_new hsearch (allocate_fresh rfl hcap hindex (key n))]
  exact displace_first hsize hsize hword (read_filled_first cap hsize le_rfl) findEmpty_empty

theorem insert_filled_of_lt (hsize : n < size) (hcap : n < cap) (hindex : n < 2 ^ 32) :
    (filled size cap n).insert hashing.toHashing (key n) secret =
      .ok (true, filled size cap (n + 1)) := by
  have hword : n < 2 ^ 64 := lt_trans hindex (by decide)
  have htoNat : (UInt32.ofNat n).toNat = n := Nat.mod_eq_of_lt hindex
  have htable : (filled size cap n).table1.set n
      (Function.update emptyBucket 0 ⟨tag n, UInt32.ofNat n⟩) =
        (filled size cap (n + 1)).table1 := by
    simp only [filled, Block.set, Block.mk.injEq, true_and]
    funext b
    by_cases hb : b = n
    · simp [hb, hsize]
    · have hlt : b < n + 1 ↔ b < n := by omega
      simp [hb, hlt]
  have hstorage : (filled size cap n).storage.set n (CuckooTable.freshEntry (key n) []) =
      (filled size cap (n + 1)).storage := by
    simp only [filled, Block.set, Block.mk.injEq, true_and]
    funext b
    by_cases hb : b = n
    · simp [hb]
    · have hlt : b < n + 1 ↔ b < n := by omega
      simp [hb, hlt]
  rw [insert_filled hsize hcap hword, htoNat, htable, hstorage]
  rfl

/-! ## The first cell handed out twice -/

/-- The storage cell of the first key, after another key received it and gave it back. -/
def recycled (size cap n : ℕ) : CuckooTable :=
  { filled size cap n with
    table1 := ((filled size cap n).table1.set n
      (Function.update emptyBucket 0 ⟨tag n, 0⟩)).set n emptyBucket
    storage := (filled size cap n).storage.set 0 (CuckooTable.freshEntry (key n) [])
    storageSize := n + 1
    freeList := (filled size cap n).freeList.set 0 0
    freeListSize := 1 }

theorem findKey_single {storage : Block SecretEntry} {index : UInt32} {e : SecretEntry}
    (tag : UInt32) (key : String) (hindex : index ≠ u32Max) (hread : storage.read index.toNat = .ok e) :
    CuckooTable.findKey storage (Function.update emptyBucket 0 ⟨tag, index⟩) tag key
      (List.finRange 8) = .ok (if e.key = key then some 0 else none) := by
  rw [finRange_eight]
  by_cases hkey : e.key = key
  · simp [CuckooTable.findKey, hindex, hread, hkey]
  · simp [CuckooTable.findKey, hindex, hread, hkey, emptyBucket, Slot.empty]

theorem remove_wrapped (hn : UInt32.ofNat n = 0) (hsize : n < size) (hcap : n < cap)
    (hword : n < 2 ^ 64) :
    ∃ t, (filled size cap n).insert hashing.toHashing (key n) secret = .ok (true, t) ∧
      t.remove hashing.toHashing (key n) = .ok (true, recycled size cap n) := by
  refine ⟨_, insert_filled hsize hcap hword, ?_⟩
  have hcell : 0 < cap := Nat.zero_lt_of_lt hcap
  have hbucket : ((filled size cap n).table1.set n
      (Function.update emptyBucket 0 ⟨tag n, 0⟩)).read n =
        .ok (Function.update emptyBucket 0 ⟨tag n, 0⟩) :=
    Block.read_eq_ok hsize (Block.set_cell_self _ _ _)
  have hread : ((filled size cap n).storage.set 0 (CuckooTable.freshEntry (key n) [])).read 0 =
      .ok (CuckooTable.freshEntry (key n) []) :=
    Block.read_eq_ok hcell (Block.set_cell_self _ _ _)
  have hkey : (CuckooTable.freshEntry (key n) []).key = key n := rfl
  have hfind := findKey_single (tag n) (key n) (by decide : (0 : UInt32) ≠ u32Max) hread
  rw [if_pos hkey] at hfind
  rw [hn, remove_first hsize hsize hword hcell hbucket hfind]
  have hcleared : Function.update emptyBucket 0 Slot.empty = emptyBucket :=
    Function.update_eq_self 0 emptyBucket
  simp only [Function.update_idem, hcleared]
  rfl

/-- Both slots of the first bucket refer to the first storage cell. -/
def doubled : Bucket :=
  Function.update (Function.update emptyBucket 0 ⟨tag 0, 0⟩) 1 ⟨tag 0, 0⟩

def doubledTable (size cap n : ℕ) : CuckooTable :=
  { recycled size cap n with
    table1 := (recycled size cap n).table1.set 0 doubled
    storage := (recycled size cap n).storage.set 0 (CuckooTable.freshEntry (key 0) [])
    freeListSize := 0 }

theorem insert_recycled (hpos : 0 < n) (hsize : n < size) (hcap : n < cap) :
    (recycled size cap n).insert hashing.toHashing (key 0) secret =
      .ok (true, doubledTable size cap n) := by
  have hsize₀ : 0 < size := Nat.zero_lt_of_lt hsize
  have hcell : 0 < cap := Nat.zero_lt_of_lt hcap
  have hbucket : (recycled size cap n).table1.read 0 =
      .ok (Function.update emptyBucket 0 ⟨tag 0, 0⟩) := by
    refine Block.read_eq_ok hsize₀ ?_
    simp [recycled, filled, Block.set_cell, hpos.ne, hpos, hsize₀]
  have hsecond : (recycled size cap n).table2.read 0 = .ok emptyBucket :=
    Block.read_eq_ok hsize₀ (if_pos hsize₀)
  have hread : (recycled size cap n).storage.read 0 = .ok (CuckooTable.freshEntry (key n) []) :=
    Block.read_eq_ok hcell (Block.set_cell_self _ _ _)
  have hkey : ¬ (CuckooTable.freshEntry (key n) []).key = key 0 :=
    fun he => hpos.ne' (key_inj he)
  have hfind := findKey_single (tag 0) (key 0) (by decide : (0 : UInt32) ≠ u32Max) hread
  rw [if_neg hkey] at hfind
  have hsearch := search_eq_none hsize₀ (by decide) hbucket hfind hsecond
  have hfree : (recycled size cap n).freeList.read 0 = .ok 0 :=
    Block.read_eq_ok hcell (Block.set_cell_self _ _ _)
  have halloc := allocate_free rfl hfree hcell (by simp [recycled]) (key 0)
  rw [insert_new hsearch halloc]
  exact displace_first hsize₀ hsize₀ (by decide) hbucket (by decide)

/-- Removing the key empties one of the two slots, and a lookup finds the other. -/
theorem lookup_removed (hsize : 0 < size) (hcap : 0 < cap) :
    ∃ t, (doubledTable size cap n).remove hashing.toHashing (key 0) = .ok (true, t) ∧
      ∃ t', t.lookup hashing.toHashing (key 0) =
        .ok (some (CuckooTable.freshEntry (key 0) []), t') := by
  have hbucket : (doubledTable size cap n).table1.read 0 = .ok doubled :=
    Block.read_eq_ok hsize (Block.set_cell_self _ _ _)
  have hread : (doubledTable size cap n).storage.read 0 =
      .ok (CuckooTable.freshEntry (key 0) []) :=
    Block.read_eq_ok hcap (Block.set_cell_self _ _ _)
  have hfind : CuckooTable.findKey (doubledTable size cap n).storage doubled (tag 0) (key 0)
      (List.finRange 8) = .ok (some 0) := by
    rw [finRange_eight]
    simp [CuckooTable.findKey, doubled, u32Max, hread, CuckooTable.freshEntry]
  have hrest : CuckooTable.findKey (doubledTable size cap n).storage
      (Function.update doubled 0 .empty) (tag 0) (key 0) (List.finRange 8) = .ok (some 1) := by
    rw [finRange_eight]
    simp [CuckooTable.findKey, doubled, u32Max, hread, CuckooTable.freshEntry, Slot.empty]
  have hleft : ((doubledTable size cap n).table1.set 0 (Function.update doubled 0 .empty)).read 0 =
      .ok (Function.update doubled 0 .empty) :=
    Block.read_eq_ok hsize (Block.set_cell_self _ _ _)
  refine ⟨_, remove_first hsize hsize (by decide) hcap hbucket hfind, ?_⟩
  exact lookup_first (e := CuckooTable.freshEntry (key 0) []) hsize (by decide) hleft hrest hcap
    (Block.set_cell_self _ _ _)

end Fill

/-! ## The lookup of a removed key -/

open ShardedCuckooTable

theorem setShard_setShard (s : ShardedCuckooTable) (i : Fin 64) (t t' : CuckooTable) :
    (s.setShard i t).setShard i t' = s.setShard i t' := by
  simp [setShard]

theorem getShardIndex_eq (key : String) : getShardIndex hashing key = 0 := by
  simp [getShardIndex, hashing]

theorem apply_insert {s : ShardedCuckooTable} {r : Bool}
    (h : (s.shards 0).insert hashing.toHashing (key i) secret = .ok (r, t)) :
    s.apply hashing (.insert (key i) secret) = .ok (s.setShard 0 t) := by
  rw [ShardedCuckooTable.apply, ShardedCuckooTable.insert, getShardIndex_eq, h]
  rfl

theorem apply_remove {s : ShardedCuckooTable} {r : Bool}
    (h : (s.shards 0).remove hashing.toHashing (key i) = .ok (r, t)) :
    s.apply hashing (.remove (key i)) = .ok (s.setShard 0 t) := by
  rw [ShardedCuckooTable.apply, ShardedCuckooTable.remove, getShardIndex_eq, h]
  rfl

theorem run_append (h : ShardedHashing) (ops ops' : List ShardedOp) :
    ∀ s : ShardedCuckooTable, s.run h (ops ++ ops') = s.run h ops >>= fun s' => s'.run h ops' := by
  induction ops with
  | nil => exact fun s => rfl
  | cons op ops ih =>
    intro s
    rw [List.cons_append, ShardedCuckooTable.run, ShardedCuckooTable.run, bind_assoc]
    simp only [ih]

def fillOps (n : ℕ) : List ShardedOp :=
  (List.range n).map fun i => .insert (key i) secret

/-- One key more than there are indices, then the removal of the first key. -/
def wrapOps (n : ℕ) : List ShardedOp :=
  fillOps n ++ [.insert (key n) secret, .remove (key n), .insert (key 0) secret, .remove (key 0)]

theorem run_fillOps {size cap : ℕ} (s : ShardedCuckooTable)
    (hs : s.shards 0 = filled size cap 0) (n : ℕ) (hsize : n ≤ size) (hcap : n ≤ cap)
    (hn : n ≤ 2 ^ 32) :
    ∃ s', s.run hashing (fillOps n) = .ok s' ∧ s'.shards 0 = filled size cap n := by
  induction n with
  | zero => exact ⟨s, rfl, hs⟩
  | succ n ih =>
    obtain ⟨s', hrun, hs'⟩ := ih (by omega) (by omega) (by omega)
    have hins : (filled size cap n).insert hashing.toHashing (key n) secret =
        .ok (true, filled size cap (n + 1)) :=
      insert_filled_of_lt (by omega) (by omega) (by omega)
    rw [← hs'] at hins
    refine ⟨s'.setShard 0 (filled size cap (n + 1)), ?_, by simp [setShard]⟩
    rw [fillOps, List.range_succ, List.map_append, run_append, ← fillOps, hrun, ok_bind]
    rw [List.map_singleton, ShardedCuckooTable.run, apply_insert hins]
    rfl

theorem run_wrapOps {size cap : ℕ} (s : ShardedCuckooTable)
    (hs : s.shards 0 = filled size cap 0) (n : ℕ) (hpos : 0 < n) (hsize : n < size)
    (hcap : n < cap) (hn : n ≤ 2 ^ 32) (hwrap : UInt32.ofNat n = 0) :
    ∃ s', s.run hashing (wrapOps n) = .ok s' ∧
      ∃ e s'', s'.lookup hashing (key 0) = .ok (some e, s'') := by
  have hword : n < 2 ^ 64 := lt_of_le_of_lt hn (by decide)
  obtain ⟨s₀, hrun, hs₀⟩ := run_fillOps s hs n hsize.le hcap.le hn
  obtain ⟨t₁, hins, hrem⟩ := remove_wrapped hwrap hsize hcap hword
  obtain ⟨t₄, hrem', t₅, hlook⟩ :=
    lookup_removed (n := n) (Nat.zero_lt_of_lt hsize) (Nat.zero_lt_of_lt hcap)
  have happly₁ := apply_insert (s := s₀) (by rw [hs₀]; exact hins)
  have happly₂ := apply_remove (s := s₀.setShard 0 t₁) (by simpa [setShard_shards] using hrem)
  have happly₃ := apply_insert (s := s₀.setShard 0 (recycled size cap n))
    (by simpa [setShard_shards] using insert_recycled hpos hsize hcap)
  have happly₄ := apply_remove (s := s₀.setShard 0 (doubledTable size cap n))
    (by simpa [setShard_shards] using hrem')
  simp only [setShard_setShard] at happly₂ happly₃ happly₄
  refine ⟨s₀.setShard 0 t₄, ?_, CuckooTable.freshEntry (key 0) [],
    (s₀.setShard 0 t₄).setShard 0 t₅, ?_⟩
  · rw [wrapOps, run_append, hrun, ok_bind]
    simp only [ShardedCuckooTable.run, happly₁, happly₂, happly₃, happly₄, ok_bind]
  · rw [ShardedCuckooTable.lookup, getShardIndex_eq, setShard_shards, if_pos rfl, hlook]
    rfl

theorem lastInserted_wrapOps (n : ℕ) : lastInserted (wrapOps n) (key 0) = none := by
  simp [lastInserted, wrapOps, List.foldl_append, record]

/-- A table with `2 ^ 33` buckets per shard answers the lookup of a removed key. -/
theorem run_wrapOps_lies :
    1 ≤ bucketsPerShard (2 ^ 42) ∧
      ∃ s, (ShardedCuckooTable.new (2 ^ 42)).run hashing (wrapOps (2 ^ 32)) = .ok s ∧
        ¬ NeverLies hashing (wrapOps (2 ^ 32)) s := by
  have hnew : (ShardedCuckooTable.new (2 ^ 42)).shards 0 = filled (2 ^ 33) 123695058124 0 := by
    rw [filled_zero]
    rfl
  obtain ⟨s, hrun, e, s', hlook⟩ := run_wrapOps _ hnew (2 ^ 32) (by decide) (by decide)
    (by decide) le_rfl (by decide)
  refine ⟨by decide, s, hrun, ?_⟩
  rintro ⟨hlies, _⟩
  obtain ⟨r, s'', hlook', hsome⟩ := hlies (key 0)
  rw [hlook] at hlook'
  obtain ⟨rfl, _⟩ : some e = r ∧ s' = s'' := by simpa using hlook'
  obtain ⟨_, hlast⟩ := hsome e rfl
  rw [lastInserted_wrapOps] at hlast
  simp at hlast

end Kallisto.Cuckoo.Overflow
