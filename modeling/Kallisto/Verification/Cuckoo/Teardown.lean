import Kallisto.Verification.Cuckoo.Sharded

/-! # Dropping the cache

Whatever the table went through, the drop gives back all that was allocated and destroys
every entry that was ever moved into the arena and is still there. -/

namespace Kallisto.Cuckoo

open RawMemory

/-! ## One table -/

namespace CuckooTable

variable {h : Hashing} {t : CuckooTable}

theorem Invariant.cell_eq (hinv : Invariant h t) {i : ℕ} (hi : i < t.storageSize) :
    t.storage.cell i = some (t.entryAt i) := by
  obtain ⟨e, he⟩ := Option.isSome_iff_exists.mp ((hinv.storage_init i).mpr hi)
  rw [entryAt, he]
  rfl

theorem Invariant.drop_eq (hinv : Invariant h t) :
    UnsafeCuckoo.drop t =
      .ok ((List.range t.storageSize).map t.entryAt, Block.alloc t.maxCapacity) := by
  have hcells := Block.dropCells_eq_ok (b := t.storage) (n := t.storageSize) (i := 0)
    (by have := hinv.storageSize_le; have := hinv.storage_size; omega)
    (fun j _ hj => hinv.cell_eq (by omega))
  have hnone : (⟨t.storage.size, fun j =>
      if 0 ≤ j ∧ j < 0 + t.storageSize then none else t.storage.cell j⟩ : Block SecretEntry) =
        Block.alloc t.maxCapacity := by
    rw [Block.alloc, ← hinv.storage_size]
    congr 1
    funext j
    split
    · rfl
    · rename_i hj
      by_contra hsome
      have := (hinv.storage_init j).mp (Option.isSome_iff_ne_none.mpr hsome)
      omega
  rw [hnone] at hcells
  have htable1 : t.table1.dealloc t.capacity = .ok () :=
    Block.dealloc_eq_ok (hinv.table_size .first)
  have htable2 : t.table2.dealloc t.capacity = .ok () :=
    Block.dealloc_eq_ok (hinv.table_size .second)
  rw [UnsafeCuckoo.drop, hcells, htable1, htable2, Block.dealloc_eq_ok hinv.freeList_size,
    List.range_eq_range']
  change ((Block.alloc t.maxCapacity : Block SecretEntry).dealloc t.maxCapacity >>= fun _ => _) = _
  rw [Block.dealloc_eq_ok (Block.alloc_size _)]
  rfl

theorem Invariant.mem_drop (hinv : Invariant h t) {entries : List SecretEntry}
    (hentries : t.getAllEntries = .ok entries) {e : SecretEntry} (he : e ∈ entries) :
    e ∈ (List.range t.storageSize).map t.entryAt := by
  rw [getAllEntries_eq hinv] at hentries
  obtain rfl := Except.ok.inj hentries
  obtain ⟨l, hl, rfl⟩ := List.mem_map.mp he
  exact List.mem_map.mpr ⟨t.indexAt l,
    List.mem_range.mpr (hinv.slot_lt l ((mem_allLocs hinv).mp hl)), rfl⟩

theorem Invariant.holds_drop (hinv : Invariant h t) {key : String} {x : List UInt8}
    (hx : t.Holds key x) :
    ∃ e ∈ (List.range t.storageSize).map t.entryAt, e.key = key ∧ e.payload = x := by
  obtain ⟨_, ⟨l, hl, rfl⟩, hstrip⟩ := hx
  exact ⟨_, List.mem_map.mpr ⟨t.indexAt l, List.mem_range.mpr (hinv.slot_lt l hl), rfl⟩,
    congrArg Prod.fst hstrip, congrArg Prod.snd hstrip⟩

end CuckooTable

/-! ## All shards -/

namespace ShardedCuckooTable

/-- What the drop of a table leaves: nothing in the arenas, after each entry in them has
been dropped once. Among them are the entries that a lookup still found, up to their
reference flag, and those the listing, which never fails, still returned. -/
structure TornDown (h : ShardedHashing) (s : ShardedCuckooTable)
    (freed : List (List SecretEntry × Block SecretEntry)) : Prop where
  empty : ∀ x ∈ freed, ∀ i, x.2.cell i = none
  once : freed.map Prod.fst = (List.finRange 64).map fun i =>
    (List.range (s.shards i).storageSize).map (s.shards i).entryAt
  found : ∀ key e s', s.lookup h key = .ok (some e, s') →
    ∃ x ∈ freed, ∃ dropped ∈ x.1, dropped.key = key ∧ dropped.payload = e.payload
  listed : ∃ entries, s.getAllEntries = .ok entries ∧ ∀ e ∈ entries, ∃ x ∈ freed, e ∈ x.1

variable {h : ShardedHashing} {s : ShardedCuckooTable} {m : String → Option (List UInt8)}

theorem Represents.mem_listShards (hr : Represents h s m) {is : List (Fin 64)}
    {entries : List SecretEntry} (hentries : s.listShards is = .ok entries) {e : SecretEntry}
    (he : e ∈ entries) :
    ∃ i ∈ is, e ∈ (List.range (s.shards i).storageSize).map (s.shards i).entryAt := by
  induction is generalizing entries with
  | nil =>
    obtain rfl := Except.ok.inj hentries
    cases he
  | cons i rest ih =>
    obtain ⟨first, hfirst, -⟩ := CuckooTable.getAllEntries_spec (hr.inv i)
    rw [ShardedCuckooTable.listShards, hfirst] at hentries
    cases hmore : s.listShards rest with
    | error fault =>
      rw [hmore] at hentries
      cases hentries
    | ok more =>
      rw [hmore] at hentries
      obtain rfl := Except.ok.inj hentries
      rcases List.mem_append.mp he with he | he
      · exact ⟨i, List.mem_cons_self, (hr.inv i).mem_drop hfirst he⟩
      · obtain ⟨j, hj, hmem⟩ := ih hmore he
        exact ⟨j, List.mem_cons_of_mem i hj, hmem⟩

theorem Represents.drop (hr : Represents h s m) :
    ∃ freed, s.drop = .ok freed ∧ TornDown h s freed := by
  have hshards : ∀ is : List (Fin 64), is.mapM (fun i => UnsafeCuckoo.drop (s.shards i)) =
      .ok (is.map fun i => ((List.range (s.shards i).storageSize).map (s.shards i).entryAt,
        Block.alloc (s.shards i).maxCapacity)) := by
    intro is
    induction is with
    | nil => rfl
    | cons i rest ih =>
      rw [List.mapM_cons, (hr.inv i).drop_eq, ih]
      rfl
  refine ⟨_, hshards (List.finRange 64), ?_, ?_, ?_, ?_⟩
  · intro x hx j
    obtain ⟨i, -, rfl⟩ := List.mem_map.mp hx
    rfl
  · rw [List.map_map]
    rfl
  · intro key e s' hlookup
    have hheld := (hr.lookup_iff key e.payload).mp ⟨e, s', hlookup, rfl⟩
    exact ⟨_, List.mem_map.mpr ⟨getShardIndex h key, List.mem_finRange _, rfl⟩,
      (hr.inv _).holds_drop hheld⟩
  · obtain ⟨entries, hentries, -⟩ := hr.listShards (List.finRange 64) (List.nodup_finRange 64)
    refine ⟨entries, hentries, fun e he => ?_⟩
    obtain ⟨i, hi, hmem⟩ := hr.mem_listShards hentries he
    exact ⟨_, List.mem_map.mpr ⟨i, hi, rfl⟩, hmem⟩

/-! ## Main result -/

/-- After any calls the cache is dropped without a fault and without a leak. For a total
capacity under 64 this says nothing of the source: see `UnsafeCuckoo.new`. -/
theorem run_tornDown (h : ShardedHashing) (totalCapacity : ℕ)
    (hcap : ((new totalCapacity).shards 0).maxCapacity < u32Max.toNat) (ops : List ShardedOp) :
    ∃ s freed, (new totalCapacity).run h ops = .ok s ∧ s.drop = .ok freed ∧ TornDown h s freed := by
  obtain ⟨s, hrun, hr⟩ := Represents.run ops _ _ (represents_new h totalCapacity hcap)
  obtain ⟨freed, hdrop, htorn⟩ := hr.drop
  exact ⟨s, freed, hrun, hdrop, htorn⟩

theorem run_tornDown_minimal :
    ((new 512).shards 0).maxCapacity < u32Max.toNat ∧
      ∃ s freed, (new 512).run ⟨⟨fun _ => 0, fun _ => 0⟩, fun _ => 0⟩
          [.insert "a" ⟨"a", [1], true⟩, .insert "b" ⟨"b", [2], true⟩, .remove "a"] = .ok s ∧
        s.drop = .ok freed ∧ TornDown ⟨⟨fun _ => 0, fun _ => 0⟩, fun _ => 0⟩ s freed :=
  ⟨by decide, run_tornDown _ 512 (by decide) _⟩

end ShardedCuckooTable

end Kallisto.Cuckoo
