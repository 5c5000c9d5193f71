import Kallisto.Verification.Cuckoo.Filling

/-! # A victim without an index

The index of the last of `2 ^ 32` storage cells is the value that reports a scan without
a victim. A full table of that size is brought into a state in which the scan chooses
this cell. -/

namespace Kallisto.Cuckoo.Overflow

open RawMemory CuckooTable

variable {size cap k : ℕ}

/-- A full table in which one key more took the first cell. The hand is behind that cell,
and of the entries passed over those up to number `k` were used again. -/
def turned (size cap k : ℕ) : CuckooTable :=
  { filled size cap cap with
    table1 := ((filled size cap cap).table1.set 0 emptyBucket).set cap (single ⟨tag cap, 0⟩)
    storage := ⟨cap, fun i => if i < cap then
      some ⟨if i = 0 then key cap else key i, [], decide (i ≤ k)⟩ else none⟩
    clockHand := 1 }

/-! ## The first eviction -/

/-- All flags of a full table are set, so the hand turns around and takes the first cell. -/
theorem clockScan_filled (hpos : 0 < cap) :
    clockScan cap (cap * 2) (filled size cap cap).storage 0 =
      .ok (0, ⟨cap, fun i => if i < cap then some ⟨key i, [], false⟩ else none⟩, 1) := by
  have hinit : ∀ i, i < cap → ((filled size cap cap).storage.cell i).isSome := by
    intro i hi
    simp [filled, hi]
  have hset : ∀ j < cap, flags (filled size cap cap).storage (Clock.ahead cap 0 j) = true := by
    intro j _
    simp [flags, filled, Clock.ahead_lt hpos, freshEntry]
  have hback : Clock.ahead cap 0 cap = 0 := by
    rw [Clock.ahead_self, Clock.ahead_zero hpos, Clock.start]
    split <;> rfl
  have hflags : withFlags (filled size cap cap).storage
      (Clock.cleared cap (flags (filled size cap cap).storage) 0 cap) =
        ⟨cap, fun i => if i < cap then some ⟨key i, [], false⟩ else none⟩ := by
    simp only [withFlags, filled, Block.mk.injEq, true_and]
    funext i
    by_cases hi : i < cap
    · obtain ⟨j, hj, hij⟩ := Clock.exists_ahead 0 hi
      have hpassed : ¬ ∀ j < cap, Clock.ahead cap 0 j ≠ i := fun hnone => hnone j hj hij
      simp [hi, Clock.cleared, hpassed, freshEntry]
    · simp [hi]
  rw [clockScan_eq cap (cap * 2) _ 0 rfl hinit (Or.inr hpos),
    Clock.sweep_eq hpos cap _ _ _ le_rfl (by omega) hset (fun hlt => (lt_irrefl _ hlt).elim),
    hback, hflags]
  rfl

/-- The first cell is taken from the first key. -/
theorem allocate_filled (hpos : 0 < cap) (hsize : cap < size) :
    (filled size cap cap).allocate hashing.toHashing (key cap) [] =
      .ok (some 0, { turned size cap 0 with
        table1 := (filled size cap cap).table1.set 0 emptyBucket }) := by
  have hsize₀ : 0 < size := Nat.zero_lt_of_lt hsize
  have hbucket : (filled size cap cap).table1.read 0 =
      .ok (Function.update emptyBucket 0 ⟨tag 0, 0⟩) := by
    refine Block.read_eq_ok hsize₀ ?_
    simp [filled, hsize₀, hpos]
  have hread : (⟨cap, fun i => if i < cap then some ⟨key i, [], false⟩ else none⟩ :
      Block SecretEntry).read (0 : UInt32).toNat = .ok ⟨key 0, [], false⟩ :=
    Block.read_eq_ok hpos (if_pos hpos)
  have hfind : findIndex (Function.update emptyBucket 0 ⟨tag 0, 0⟩) 0 = some 0 := by
    decide
  have hcleared : Function.update (Function.update emptyBucket 0 ⟨tag 0, 0⟩) 0 Slot.empty =
      emptyBucket := by
    rw [Function.update_idem]
    exact Function.update_eq_self 0 emptyBucket
  have hstorage : (⟨cap, fun i => if i < cap then some ⟨key i, [], false⟩ else none⟩ :
      Block SecretEntry).set 0 (freshEntry (key cap) []) = (turned size cap 0).storage := by
    simp only [Block.set, turned, Block.mk.injEq, true_and]
    funext i
    by_cases hi : i = 0
    · simp [hi, hpos, freshEntry]
    · simp [hi]
  have hnot : ¬ (filled size cap cap).freeListSize > 0 := lt_irrefl 0
  have hfull : ¬ (filled size cap cap).storageSize < (filled size cap cap).maxCapacity :=
    lt_irrefl cap
  rw [allocate, if_neg hnot, if_neg hfull]
  change (clockScan cap (cap * 2) (filled size cap cap).storage 0 >>= _) = _
  rw [clockScan_filled hpos]
  dsimp only [ok_bind]
  rw [if_pos (by decide), hread, ok_bind, clearVictim, bucketIndex_first hsize₀ (by decide)]
  dsimp only
  rw [hbucket, ok_bind, hfind]
  dsimp only
  rw [hcleared, Block.write_eq_ok _ hsize₀]
  dsimp only [ok_bind, pure, Except.pure]
  rw [Block.assign_eq_ok _ hpos (by simp [hpos])]
  dsimp only [ok_bind]
  rw [← hstorage]
  rfl

theorem insert_full (hpos : 0 < cap) (hsize : cap < size) (hword : cap < 2 ^ 64) :
    (filled size cap cap).insert hashing.toHashing (key cap) secret =
      .ok (true, turned size cap 0) := by
  have hempty : (filled size cap cap).table1.read cap = .ok emptyBucket :=
    read_filled_first cap hsize le_rfl
  have hbucket : ((filled size cap cap).table1.set 0 emptyBucket).read cap = .ok emptyBucket := by
    refine Block.read_eq_ok hsize ?_
    simp [Block.set_cell, hpos.ne', filled, hsize]
  have hsearch := search_eq_none hsize hword hempty (findKey_empty _ _ _)
    (read_filled_second (Nat.zero_lt_of_lt hsize))
  rw [insert_new hsearch (allocate_filled hpos hsize)]
  exact displace_first hsize hsize hword hbucket findEmpty_empty

/-! ## Using the entries again -/

theorem lookup_turned (hsize : cap < size) (hk : k + 1 < cap) (hindex : k + 1 < u32Max.toNat) :
    (turned size cap k).lookup hashing.toHashing (key (k + 1)) =
      .ok (some (freshEntry (key (k + 1)) []), turned size cap (k + 1)) := by
  have hword : k + 1 < 2 ^ 64 := lt_trans hindex (by decide)
  have hnat : (UInt32.ofNat (k + 1)).toNat = k + 1 :=
    Nat.mod_eq_of_lt (lt_trans hindex (by decide))
  have hne : UInt32.ofNat (k + 1) ≠ u32Max := by
    intro he
    rw [← he, hnat] at hindex
    exact lt_irrefl _ hindex
  have hlt : k + 1 < size := hk.trans hsize
  have hbucket : (turned size cap k).table1.read (k + 1) =
      .ok (Function.update emptyBucket 0 ⟨tag (k + 1), UInt32.ofNat (k + 1)⟩) := by
    refine Block.read_eq_ok hlt ?_
    simp [turned, Block.set_cell, hk.ne, filled, hlt, hk]
  have hcell : (turned size cap k).storage.cell (UInt32.ofNat (k + 1)).toNat =
      some ⟨key (k + 1), [], false⟩ := by
    rw [hnat]
    simp [turned, hk]
  have hread := Block.read_eq_ok (b := (turned size cap k).storage) (by rw [hnat]; exact hk) hcell
  have hfind := findKey_single (tag (k + 1)) (key (k + 1)) hne hread
  rw [if_pos rfl] at hfind
  have hstorage : (turned size cap k).storage.set (k + 1) (freshEntry (key (k + 1)) []) =
      (turned size cap (k + 1)).storage := by
    simp only [Block.set, turned, Block.mk.injEq, true_and]
    funext i
    by_cases hi : i = k + 1
    · simp [hi, hk, freshEntry]
    · have hle : i ≤ k + 1 ↔ i ≤ k := by omega
      simp [hi, hle]
  have hself : Function.update emptyBucket 0 (⟨tag (k + 1), UInt32.ofNat (k + 1)⟩ : Slot) 0 =
      ⟨tag (k + 1), UInt32.ofNat (k + 1)⟩ := Function.update_self _ _ _
  rw [CuckooTable.lookup, lookupMap, search_eq_some hlt hword hbucket hfind, hself]
  dsimp only [ok_bind]
  rw [hread, ok_bind, Block.assign_eq_ok _ (by rw [hnat]; exact hk) (by rw [hcell]; rfl), hnat]
  dsimp only [ok_bind]
  change Except.ok (some (freshEntry (key (k + 1)) []), { turned size cap k with
    storage := (turned size cap k).storage.set (k + 1) (freshEntry (key (k + 1)) []) }) = _
  rw [hstorage]
  rfl

/-- The lookups of the keys with numbers from one on. -/
def touchOps (n : ℕ) : List Op :=
  (List.range n).map fun i => .lookup (key (i + 1))

theorem run_touchOps (hsize : cap < size) (hk : k < cap) (hindex : k < u32Max.toNat) :
    (turned size cap 0).run hashing.toHashing (touchOps k) = .ok (turned size cap k) := by
  induction k with
  | zero => rfl
  | succ k ih =>
    rw [touchOps, List.range_succ, List.map_append, CuckooTable.run_append, ← touchOps,
      ih (by omega) (by omega), ok_bind, List.map_singleton, run, apply,
      lookup_turned hsize hk hindex]
    rfl

/-- The keys up to the capacity, one key more, then the lookups. -/
def turnOps (cap : ℕ) : List Op :=
  CuckooTable.fillOps key secret cap ++ .insert (key cap) secret :: touchOps (cap - 2)

theorem run_turnOps (hcap : 2 ≤ cap) (hindex : cap ≤ 2 ^ 32) (hsize : cap < size) :
    (filled size cap 0).run hashing.toHashing (turnOps cap) =
      .ok (turned size cap (cap - 2)) := by
  have hmax : u32Max.toNat = 2 ^ 32 - 1 := rfl
  rw [turnOps, CuckooTable.run_append, run_filled cap hsize.le le_rfl hindex, ok_bind, run, apply,
    insert_full (by omega) hsize (lt_of_le_of_lt hindex (by decide)), map_ok, ok_bind]
  exact run_touchOps hsize (by omega) (by omega)

/-! ## The last cell -/

/-- The hand passes over all entries used again and stops at the last cell. -/
theorem clockScan_turned (size : ℕ) (hcap : 2 ≤ cap) : ∃ storage,
    clockScan cap (cap * 2) (turned size cap (cap - 2)).storage 1 =
      .ok (UInt32.ofNat (cap - 1), storage, cap) := by
  have hpos : 0 < cap := by omega
  have hinit : ∀ i, i < cap → ((turned size cap (cap - 2)).storage.cell i).isSome := by
    intro i hi
    simp [turned, hi]
  have hahead : ∀ j, j ≤ cap - 2 → Clock.ahead cap 1 j = 1 + j := by
    intro j hj
    have hstart : Clock.start cap 1 = 1 := if_neg (by omega)
    rw [Clock.ahead, hstart, Nat.mod_eq_of_lt (by omega)]
  have hset : ∀ j < cap - 2,
      flags (turned size cap (cap - 2)).storage (Clock.ahead cap 1 j) = true := by
    intro j hj
    have hlt : 1 + j < cap := by omega
    have hle : 1 + j ≤ cap - 2 := by omega
    rw [hahead j hj.le]
    simp [flags, turned, hlt, hle]
  have hstop : cap - 2 < cap →
      flags (turned size cap (cap - 2)).storage (Clock.ahead cap 1 (cap - 2)) = false := by
    intro _
    have hlt : 1 + (cap - 2) < cap := by omega
    rw [hahead _ le_rfl]
    simp [flags, turned, hlt]
  have hlast : 1 + (cap - 2) = cap - 1 := by omega
  have hhand : cap - 1 + 1 = cap := by omega
  rw [clockScan_eq cap (cap * 2) _ 1 rfl hinit (Or.inr hpos),
    Clock.sweep_eq hpos (cap - 2) _ _ _ (by omega) (by omega) hset hstop, hahead _ le_rfl, hlast]
  dsimp only
  rw [hhand]
  exact ⟨_, rfl⟩

/-- An insertion that needs this cell is rejected. -/
theorem insert_turned (hcap : 2 ≤ cap) (hlast : UInt32.ofNat (cap - 1) = u32Max)
    (hsize : cap + 1 < size) (hword : cap + 1 < 2 ^ 64) : ∃ t,
    (turned size cap (cap - 2)).insert hashing.toHashing (key (cap + 1)) secret =
      .ok (false, t) := by
  have hbucket : (turned size cap (cap - 2)).table1.read (cap + 1) = .ok emptyBucket := by
    refine Block.read_eq_ok hsize ?_
    simp [turned, Block.set_cell, filled, hsize]
  have hsecond : (turned size cap (cap - 2)).table2.read 0 = .ok emptyBucket :=
    Block.read_eq_ok (Nat.zero_lt_of_lt hsize) (if_pos (Nat.zero_lt_of_lt hsize))
  have hsearch := search_eq_none hsize hword hbucket (findKey_empty _ _ _) hsecond
  have hnot : ¬ (turned size cap (cap - 2)).freeListSize > 0 := lt_irrefl 0
  have hfull : ¬ (turned size cap (cap - 2)).storageSize <
      (turned size cap (cap - 2)).maxCapacity := lt_irrefl cap
  obtain ⟨storage, hscan⟩ := clockScan_turned size hcap
  rw [hlast] at hscan
  have halloc : (turned size cap (cap - 2)).allocate hashing.toHashing (key (cap + 1))
      secret.payload = .ok (none, { turned size cap (cap - 2) with
        storage := storage, clockHand := cap }) := by
    rw [allocate, if_neg hnot, if_neg hfull]
    change (clockScan cap (cap * 2) (turned size cap (cap - 2)).storage 1 >>= _) = _
    rw [hscan]
    rfl
  rw [CuckooTable.insert, hsearch, ok_bind]
  dsimp only
  rw [halloc]
  exact ⟨_, rfl⟩

end Kallisto.Cuckoo.Overflow
