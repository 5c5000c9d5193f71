import Kallisto.Verification.Cuckoo.Operations
import Mathlib.Data.List.Nodup

/-! # Correctness of the cuckoo table

The invariant along every sequence of calls, the listing of live entries, and the
absence of faults. -/

namespace Kallisto.Cuckoo.CuckooTable

open RawMemory

variable {h : Hashing} {t : CuckooTable}

/-! ## The listing of live entries -/

/-- The occupied positions of one bucket, in slot order. -/
def bucketLocs (t : CuckooTable) (side : Side) (b : ℕ) : List Loc :=
  ((List.finRange 8).filter fun j => t.Occupied ⟨side, b, j⟩).map fun j => ⟨side, b, j⟩

/-- The occupied positions in the order the listing visits them. -/
def occupiedLocs (t : CuckooTable) (buckets : List ℕ) : List Loc :=
  buckets.flatMap fun b => t.bucketLocs .first b ++ t.bucketLocs .second b

theorem mem_bucketLocs {side : Side} {b : ℕ} {l : Loc} :
    l ∈ t.bucketLocs side b ↔ l.side = side ∧ l.bucket = b ∧ t.Occupied l := by
  obtain ⟨lside, lb, lj⟩ := l
  simp only [bucketLocs, List.mem_map, List.mem_filter, List.mem_finRange, true_and,
    decide_eq_true_eq, Loc.mk.injEq]
  constructor
  · rintro ⟨j, hj, rfl, rfl, rfl⟩
    exact ⟨rfl, rfl, hj⟩
  · rintro ⟨rfl, rfl, hocc⟩
    exact ⟨lj, hocc, rfl, rfl, rfl⟩

theorem nodup_bucketLocs (t : CuckooTable) (side : Side) (b : ℕ) :
    (t.bucketLocs side b).Nodup := by
  apply List.Nodup.map
  · intro i j hij
    simpa using hij
  · exact (List.nodup_finRange 8).filter _

theorem occupiedLocs_cons (t : CuckooTable) (b : ℕ) (buckets : List ℕ) :
    t.occupiedLocs (b :: buckets) =
      t.bucketLocs .first b ++ t.bucketLocs .second b ++ t.occupiedLocs buckets :=
  rfl

theorem mem_occupiedLocs {buckets : List ℕ} {l : Loc} :
    l ∈ t.occupiedLocs buckets ↔ l.bucket ∈ buckets ∧ t.Occupied l := by
  simp only [occupiedLocs, List.mem_flatMap, List.mem_append, mem_bucketLocs]
  constructor
  · rintro ⟨b, hb, ⟨_, rfl, hocc⟩ | ⟨_, rfl, hocc⟩⟩ <;> exact ⟨hb, hocc⟩
  · rintro ⟨hb, hocc⟩
    cases hside : l.side with
    | first => exact ⟨l.bucket, hb, Or.inl ⟨rfl, rfl, hocc⟩⟩
    | second => exact ⟨l.bucket, hb, Or.inr ⟨rfl, rfl, hocc⟩⟩

theorem nodup_occupiedLocs (t : CuckooTable) {buckets : List ℕ} (hb : buckets.Nodup) :
    (t.occupiedLocs buckets).Nodup := by
  rw [occupiedLocs, List.nodup_flatMap]
  constructor
  · intro b _
    refine List.Nodup.append (nodup_bucketLocs t .first b) (nodup_bucketLocs t .second b) ?_
    intro l hfirst hsecond
    rw [mem_bucketLocs] at hfirst hsecond
    exact Side.noConfusion (hfirst.1.symm.trans hsecond.1)
  · refine hb.imp ?_
    intro a b hab l ha hb
    simp only [List.mem_append, mem_bucketLocs] at ha hb
    have hla : l.bucket = a := by rcases ha with ha | ha <;> exact ha.2.1
    have hlb : l.bucket = b := by rcases hb with hb | hb <;> exact hb.2.1
    exact hab (hla.symm.trans hlb)

/-- The entry a position refers to. -/
def slotEntry (t : CuckooTable) (l : Loc) : SecretEntry :=
  t.entryAt (t.indexAt l)

theorem bucketEntries_eq (hinv : Invariant h t) (side : Side) (b : ℕ)
    (slots : List (Fin 8)) :
    bucketEntries t.storage (t.bucketAt side b) slots =
      .ok (((slots.filter fun j => t.Occupied ⟨side, b, j⟩).map fun j =>
        (⟨side, b, j⟩ : Loc)).map t.slotEntry) := by
  induction slots with
  | nil => rfl
  | cons j rest ih =>
    rw [bucketEntries, ih]
    by_cases hocc : t.Occupied ⟨side, b, j⟩
    · have hread := hinv.read_storage (hinv.slot_lt ⟨side, b, j⟩ hocc)
      have hindex : (t.bucketAt side b j).index ≠ u32Max := hocc
      rw [if_pos hindex]
      change (t.storage.read (t.indexAt ⟨side, b, j⟩) >>= _) = _
      rw [hread, ok_bind, ok_bind, List.filter_cons_of_pos (by simpa using hocc)]
      rfl
    · have hindex : ¬ (t.bucketAt side b j).index ≠ u32Max := hocc
      rw [if_neg hindex, List.filter_cons_of_neg (by simpa using hocc)]

theorem scanEntries_eq (hinv : Invariant h t) (n : ℕ) : ∀ i, i + n ≤ t.capacity →
    t.scanEntries n i = .ok ((t.occupiedLocs (List.range' i n)).map t.slotEntry) := by
  induction n with
  | zero =>
    intro i _
    rfl
  | succ n ih =>
    intro i hi
    have hread₁ : t.table1.read i = .ok _ := hinv.read_bucket .first (by omega)
    have hread₂ : t.table2.read i = .ok _ := hinv.read_bucket .second (by omega)
    rw [scanEntries, hread₁, ok_bind, bucketEntries_eq hinv, ok_bind, hread₂, ok_bind,
      bucketEntries_eq hinv, ok_bind, ih (i + 1) (by omega), ok_bind, List.range'_succ,
      occupiedLocs_cons, List.map_append, List.map_append]
    rfl

/-- The listing visits the occupied positions of all buckets. -/
theorem getAllEntries_eq (hinv : Invariant h t) :
    t.getAllEntries = .ok ((t.occupiedLocs (List.range' 0 t.capacity)).map t.slotEntry) := by
  have hle := hinv.freeListSize_le
  rw [getAllEntries, if_neg (by omega), scanEntries_eq hinv t.capacity 0 (by omega)]

theorem mem_allLocs (hinv : Invariant h t) {l : Loc} :
    l ∈ t.occupiedLocs (List.range' 0 t.capacity) ↔ t.Occupied l := by
  rw [mem_occupiedLocs, List.mem_range'_1]
  exact and_iff_right_of_imp fun hl => ⟨Nat.zero_le _, by simpa using hinv.bucket_lt hl⟩

/-- The listing consists of the held entries, one for each held key. -/
theorem getAllEntries_spec (hinv : Invariant h t) :
    ∃ entries, t.getAllEntries = .ok entries ∧ (entries.map SecretEntry.key).Nodup ∧
      ∀ key x, (∃ e ∈ entries, e.key = key ∧ e.payload = x) ↔ t.Holds key x := by
  refine ⟨_, getAllEntries_eq hinv, ?_, ?_⟩
  · rw [List.map_map]
    apply List.Nodup.map_on _ (nodup_occupiedLocs t (List.nodup_range' ..))
    intro l hl m hm he
    exact hinv.key_inj l m ((mem_allLocs hinv).mp hl) ((mem_allLocs hinv).mp hm) he
  · intro key x
    constructor
    · rintro ⟨e, he, rfl, rfl⟩
      obtain ⟨l, hl, rfl⟩ := List.mem_map.mp he
      exact ⟨_, ⟨l, (mem_allLocs hinv).mp hl, rfl⟩, rfl⟩
    · rintro ⟨_, ⟨l, hl, rfl⟩, hstrip⟩
      obtain ⟨rfl, rfl⟩ := Prod.mk.inj hstrip
      exact ⟨t.slotEntry l, List.mem_map.mpr ⟨l, (mem_allLocs hinv).mpr hl, rfl⟩, rfl, rfl⟩

/-! ## Sequences of calls -/

theorem apply_spec (hinv : Invariant h t) (op : Op) :
    ∃ t', t.apply h op = .ok t' ∧ Invariant h t' ∧ SameShape t t' := by
  cases op with
  | insert key entry =>
    obtain ⟨success, t', hrun, hins⟩ := insert_spec hinv key entry
    exact ⟨t', by rw [apply, hrun, map_ok], hins.inv, hins.shape⟩
  | lookup key =>
    obtain ⟨r, t', hrun, hinv', hshape, _⟩ := lookup_spec hinv key
    exact ⟨t', by rw [apply, hrun, map_ok], hinv', hshape⟩
  | remove key =>
    obtain ⟨r, t', hrun, hinv', hshape, _⟩ := remove_spec hinv key
    exact ⟨t', by rw [apply, hrun, map_ok], hinv', hshape⟩

theorem run_spec (ops : List Op) : ∀ t : CuckooTable, Invariant h t →
    ∃ t', t.run h ops = .ok t' ∧ Invariant h t' ∧ SameShape t t' := by
  induction ops with
  | nil => exact fun t hinv => ⟨t, rfl, hinv, rfl, rfl⟩
  | cons op ops ih =>
    intro t hinv
    obtain ⟨t₁, happly, hinv₁, hshape₁⟩ := apply_spec hinv op
    obtain ⟨t₂, hrun, hinv₂, hshape₂⟩ := ih t₁ hinv₁
    refine ⟨t₂, ?_, hinv₂, hshape₂.capacity.trans hshape₁.capacity,
      hshape₂.maxCapacity.trans hshape₁.maxCapacity⟩
    rw [run, happly, ok_bind, hrun]

/-- A table without buckets faults on every call. -/
theorem search_new_zero (h : Hashing) (cap : ℕ) (key : String) :
    (CuckooTable.new 0 cap).search h key = .error .outOfBounds :=
  rfl

/-- Every reachable state satisfies the invariant, or no call was possible at all. -/
theorem run_reaches {size cap : ℕ}
    (hcap : (CuckooTable.new size cap).maxCapacity ≤ u32Max.toNat) {ops : List Op}
    (hrun : (CuckooTable.new size cap).run h ops = .ok t) :
    (1 ≤ size ∧ Invariant h t) ∨ (size = 0 ∧ t = CuckooTable.new 0 cap) := by
  rcases Nat.eq_zero_or_pos size with rfl | hsize
  · right
    refine ⟨rfl, ?_⟩
    cases ops with
    | nil => exact (Except.ok.inj hrun).symm
    | cons op ops => cases op <;> cases hrun
  · left
    obtain ⟨t', hrun', hinv, -⟩ := run_spec ops _ (invariant_new h size cap hsize hcap)
    rw [hrun] at hrun'
    obtain rfl := Except.ok.inj hrun'
    exact ⟨hsize, hinv⟩

/-- Nine tenths of the sixteen slots per bucket bound the arena, also where the
product wraps around. -/
theorem maxCapacity_new_le (size cap : ℕ) :
    (CuckooTable.new size cap).maxCapacity ≤ 16 * size * 90 / 100 := by
  have hmod : (size * 16 * 90) % 2 ^ 64 ≤ size * 16 * 90 := Nat.mod_le _ _
  change min cap (size * 16 * 90 % 2 ^ 64 / 100) ≤ _
  omega

/-! ## Main results -/

/-- Every state reached from a new table satisfies the representation invariant of
slots, storage and free list. -/
theorem run_representation (h : Hashing) (size cap : ℕ) (hsize : 1 ≤ size)
    (hcap : (CuckooTable.new size cap).maxCapacity < u32Max.toNat) (ops : List Op) :
    ∃ t, (CuckooTable.new size cap).run h ops = .ok t ∧
      (∀ l, t.Occupied l → t.indexAt l < t.storageSize) ∧
      (∀ l m, t.Occupied l → t.Occupied m →
        t.indexAt l = t.indexAt m ∨ t.slotKey l = t.slotKey m → l = m) ∧
      (∀ l, t.Occupied l → (h.full l.side (t.slotKey l)).toNat % size = l.bucket ∧
        (t.slotAt l).tag = getTag (h.hash1Full (t.slotKey l))) ∧
      (∀ i j, i < t.freeListSize → j < t.freeListSize → t.freeAt i = t.freeAt j → i = j) ∧
      (∀ i, i < t.freeListSize → t.freeAt i < t.storageSize ∧
        ∀ l, t.Occupied l → t.indexAt l ≠ t.freeAt i) ∧
      t.freeListSize ≤ t.storageSize ∧ t.storageSize ≤ t.maxCapacity ∧
      t.maxCapacity ≤ 16 * size * 90 / 100 := by
  obtain ⟨t, hrun, hinv, hshape⟩ := run_spec ops _ (invariant_new h size cap hsize hcap.le)
  refine ⟨t, hrun, hinv.slot_lt, ?_, ?_, hinv.free_inj, ?_, hinv.freeListSize_le,
    hinv.storageSize_le, ?_⟩
  · rintro l m hl hm (he | he)
    · exact hinv.index_inj hl hm he
    · exact hinv.key_inj l m hl hm he
  · intro l hl
    refine ⟨?_, hinv.slot_tag l hl⟩
    have hhome := hinv.slot_home l hl
    rw [bucketIndex, hshape.capacity] at hhome
    exact hhome
  · exact fun i hi => ⟨hinv.free_lt i hi, fun l hl => hinv.free_unused i l hi hl⟩
  · rw [hshape.maxCapacity]
    exact maxCapacity_new_le size cap

theorem run_representation_evicting :
    1 ≤ 1 ∧ (CuckooTable.new 1 2).maxCapacity < u32Max.toNat ∧
      ∃ t, (CuckooTable.new 1 2).run ⟨fun _ => 0, fun _ => 0⟩
        [.insert "a" ⟨"a", [1], true⟩, .insert "b" ⟨"b", [2], true⟩,
          .insert "c" ⟨"c", [3], true⟩, .remove "b"] = .ok t ∧
        t.freeListSize ≤ t.storageSize ∧ t.storageSize ≤ t.maxCapacity := by
  obtain ⟨t, hrun, _, _, _, _, _, hfree, hstorage, _⟩ :=
    run_representation ⟨fun _ => 0, fun _ => 0⟩ 1 2 (by decide) (by decide)
      [.insert "a" ⟨"a", [1], true⟩, .insert "b" ⟨"b", [2], true⟩,
        .insert "c" ⟨"c", [3], true⟩, .remove "b"]
  exact ⟨by decide, by decide, t, hrun, hfree, hstorage⟩

/-- From every reached state no call faults: each index it uses lies inside its
allocation, each storage cell it reads or assigns is initialised, and the size of
the listing does not underflow. The initialised cells are those below the storage
size. -/
theorem run_no_fault (h : Hashing) (size cap : ℕ) (hsize : 1 ≤ size)
    (hcap : (CuckooTable.new size cap).maxCapacity < u32Max.toNat) (ops : List Op) :
    ∃ t, (CuckooTable.new size cap).run h ops = .ok t ∧
      (∀ key entry, ∃ r, t.insert h key entry = .ok r) ∧
      (∀ (R : Type) (key : String) (f : SecretEntry → R), ∃ r, t.lookupMap h key f = .ok r) ∧
      (∀ key, ∃ r, t.remove h key = .ok r) ∧
      (∃ r, t.getAllEntries = .ok r) ∧
      (∀ i, (t.storage.cell i).isSome ↔ i < t.storageSize) ∧
      t.freeListSize ≤ t.storageSize := by
  obtain ⟨t, hrun, hinv, _⟩ := run_spec ops _ (invariant_new h size cap hsize hcap.le)
  refine ⟨t, hrun, ?_, ?_, ?_, ?_, hinv.storage_init, hinv.freeListSize_le⟩
  · intro key entry
    obtain ⟨success, t', hins, _⟩ := insert_spec hinv key entry
    exact ⟨_, hins⟩
  · intro R key f
    obtain ⟨r, t', hlook, _⟩ := lookupMap_spec hinv key f
    exact ⟨_, hlook⟩
  · intro key
    obtain ⟨r, t', hrem, _⟩ := remove_spec hinv key
    exact ⟨_, hrem⟩
  · obtain ⟨entries, hall, _⟩ := getAllEntries_spec hinv
    exact ⟨_, hall⟩

theorem run_no_fault_evicting :
    1 ≤ 1 ∧ (CuckooTable.new 1 2).maxCapacity < u32Max.toNat ∧
      ∃ t, (CuckooTable.new 1 2).run ⟨fun _ => 0, fun _ => 0⟩
        [.insert "a" ⟨"a", [1], true⟩, .insert "b" ⟨"b", [2], true⟩] = .ok t ∧
        ∃ r, t.insert ⟨fun _ => 0, fun _ => 0⟩ "c" ⟨"c", [3], true⟩ = .ok r := by
  obtain ⟨t, hrun, hins, _⟩ :=
    run_no_fault ⟨fun _ => 0, fun _ => 0⟩ 1 2 (by decide) (by decide)
      [.insert "a" ⟨"a", [1], true⟩, .insert "b" ⟨"b", [2], true⟩]
  exact ⟨by decide, by decide, t, hrun, hins "c" ⟨"c", [3], true⟩⟩

end Kallisto.Cuckoo.CuckooTable
