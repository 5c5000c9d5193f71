import Kallisto.Model.ShardedCuckooTable
import Kallisto.Verification.Cuckoo.Correctness

/-! # The sharded table is a lossy map -/

namespace Kallisto.Cuckoo.ShardedCuckooTable

open RawMemory

/-! ## The map a sequence of calls describes -/

/-- The effect of one call on a map that loses nothing. -/
def record (m : String → Option (List UInt8)) : ShardedOp → String → Option (List UInt8)
  | .insert key entry => Function.update m key (some entry.payload)
  | .remove key => Function.update m key none
  | .lookup _ => m
  | .lookupMap _ _ _ => m

/-- The payload of the most recent insertion of a key that no removal followed. -/
def lastInserted (ops : List ShardedOp) : String → Option (List UInt8) :=
  ops.foldl record fun _ => none

/-- A lookup answers with nothing or with the latest payload of its key, and the
listing has one entry for each key that a lookup finds, with the same payload. -/
def NeverLies (h : ShardedHashing) (ops : List ShardedOp) (s : ShardedCuckooTable) : Prop :=
  (∀ key, ∃ r s', s.lookup h key = .ok (r, s') ∧
    ∀ e, r = some e → e.key = key ∧ lastInserted ops key = some e.payload) ∧
  ∃ entries, s.getAllEntries = .ok entries ∧ (entries.map SecretEntry.key).Nodup ∧
    ∀ key x, (∃ e ∈ entries, e.key = key ∧ e.payload = x) ↔
      ∃ e s', s.lookup h key = .ok (some e, s') ∧ e.payload = x

/-! ## The invariant of all shards -/

/-- Every shard satisfies its invariant and holds only keys of its own, each with the
payload that `m` gives. -/
structure Represents (h : ShardedHashing) (s : ShardedCuckooTable)
    (m : String → Option (List UInt8)) : Prop where
  inv : ∀ i, CuckooTable.Invariant h.toHashing (s.shards i)
  own : ∀ i key x, (s.shards i).Holds key x → i = getShardIndex h key
  value : ∀ i key x, (s.shards i).Holds key x → m key = some x

section Represents

variable {h : ShardedHashing} {s : ShardedCuckooTable} {m : String → Option (List UInt8)}

theorem setShard_shards (s : ShardedCuckooTable) (i j : Fin 64) (t : CuckooTable) :
    (s.setShard i t).shards j = if j = i then t else s.shards j := by
  simp [setShard, Function.update_apply]

/-- Replacing one shard keeps the representation when the new shard only holds its own
keys with the payloads of the new map, and the map is unchanged elsewhere. -/
theorem Represents.setShard (hr : Represents h s m) {i : Fin 64} {t : CuckooTable}
    {m' : String → Option (List UInt8)} (hinv : CuckooTable.Invariant h.toHashing t)
    (hown : ∀ key x, t.Holds key x → i = getShardIndex h key)
    (hvalue : ∀ key x, t.Holds key x → m' key = some x)
    (hother : ∀ key, getShardIndex h key ≠ i → m' key = m key) :
    Represents h (s.setShard i t) m' where
  inv j := by
    rw [setShard_shards]
    split
    · exact hinv
    · exact hr.inv j
  own j key x hx := by
    rw [setShard_shards] at hx
    split at hx
    · subst j
      exact hown key x hx
    · exact hr.own j key x hx
  value j key x hx := by
    rw [setShard_shards] at hx
    split at hx
    · exact hvalue key x hx
    · rw [hother key]
      · exact hr.value j key x hx
      · rw [← hr.own j key x hx]
        assumption

theorem represents_new (h : ShardedHashing) (totalCapacity : ℕ)
    (hcap : ((new totalCapacity).shards 0).maxCapacity < u32Max.toNat) :
    Represents h (new totalCapacity) fun _ => none := by
  have hsize : 1 ≤ bucketsPerShard totalCapacity := by
    unfold bucketsPerShard
    dsimp only
    split <;> omega
  have hempty : ∀ i key x, ¬ ((new totalCapacity).shards i).Holds key x := by
    rintro i key x ⟨_, ⟨l, hl, _⟩, _⟩
    exact CuckooTable.not_occupied_new _ _ l hl
  exact ⟨fun i => CuckooTable.invariant_new h.toHashing _ _ hsize hcap.le,
    fun i key x hx => (hempty i key x hx).elim, fun i key x hx => (hempty i key x hx).elim⟩

theorem Represents.apply (hr : Represents h s m) (op : ShardedOp) :
    ∃ s', s.apply h op = .ok s' ∧ Represents h s' (record m op) := by
  -- A lookup leaves every held entry in place.
  have hread : ∀ (key : String) (t : CuckooTable), CuckooTable.Invariant h.toHashing t →
      (∀ j x, t.Holds j x ↔ (s.shards (getShardIndex h key)).Holds j x) →
      Represents h (s.setShard (getShardIndex h key) t) m := by
    intro key t hinv hholds
    exact hr.setShard hinv (fun j x hx => hr.own _ j x ((hholds j x).mp hx))
      (fun j x hx => hr.value _ j x ((hholds j x).mp hx)) (fun _ _ => rfl)
  cases op with
  | insert key entry =>
    obtain ⟨success, t, hrun, hins⟩ :=
      CuckooTable.insert_spec (hr.inv (getShardIndex h key)) key entry
    refine ⟨s.setShard (getShardIndex h key) t, ?_, hr.setShard hins.inv ?_ ?_ ?_⟩
    · rw [ShardedCuckooTable.apply, insert, hrun]
      rfl
    · intro j x hx
      by_cases hj : j = key
      · rw [hj]
      · exact hr.own _ j x (hins.other j x hj hx)
    · intro j x hx
      by_cases hj : j = key
      · subst j
        simp [record, hins.self x hx]
      · simpa [record, hj] using hr.value _ j x (hins.other j x hj hx)
    · intro j hj
      have hne : j ≠ key := fun he => hj (by rw [he])
      simp [record, hne]
  | lookup key =>
    obtain ⟨r, t, hrun, hinv, _, hholds, _⟩ :=
      CuckooTable.lookup_spec (hr.inv (getShardIndex h key)) key
    refine ⟨_, ?_, hread key t hinv hholds⟩
    rw [ShardedCuckooTable.apply, lookup, hrun]
    rfl
  | lookupMap key R f =>
    obtain ⟨r, t, hrun, hinv, _, hholds, _⟩ :=
      CuckooTable.lookupMap_spec (hr.inv (getShardIndex h key)) key f
    refine ⟨_, ?_, hread key t hinv hholds⟩
    rw [ShardedCuckooTable.apply, lookupMap, hrun]
    rfl
  | remove key =>
    obtain ⟨r, t, hrun, hinv, _, hself, hother⟩ :=
      CuckooTable.remove_spec (hr.inv (getShardIndex h key)) key
    have hkey : ∀ j x, t.Holds j x → j ≠ key := by
      rintro j x hx rfl
      exact hself x hx
    refine ⟨s.setShard (getShardIndex h key) t, ?_, hr.setShard hinv ?_ ?_ ?_⟩
    · rw [ShardedCuckooTable.apply, remove, hrun]
      rfl
    · intro j x hx
      exact hr.own _ j x ((hother j x (hkey j x hx)).mp hx)
    · intro j x hx
      have hold := hr.value _ j x ((hother j x (hkey j x hx)).mp hx)
      simpa [record, hkey j x hx] using hold
    · intro j hj
      have hne : j ≠ key := fun he => hj (by rw [he])
      simp [record, hne]

theorem Represents.run (ops : List ShardedOp) :
    ∀ (s : ShardedCuckooTable) (m : String → Option (List UInt8)), Represents h s m →
      ∃ s', s.run h ops = .ok s' ∧ Represents h s' (ops.foldl record m) := by
  induction ops with
  | nil => exact fun s m hr => ⟨s, rfl, hr⟩
  | cons op ops ih =>
    intro s m hr
    obtain ⟨s₁, happly, hr₁⟩ := hr.apply op
    obtain ⟨s₂, hrun, hr₂⟩ := ih s₁ _ hr₁
    refine ⟨s₂, ?_, hr₂⟩
    rw [ShardedCuckooTable.run, happly, ok_bind, hrun]

/-! ## Lookups and the listing -/

theorem Represents.lookup (hr : Represents h s m) (key : String) :
    ∃ r s', s.lookup h key = .ok (r, s') ∧
      ((∃ e, r = some e ∧ e.key = key ∧ (s.shards (getShardIndex h key)).Holds key e.payload) ∨
        (r = none ∧ ∀ x, ¬ (s.shards (getShardIndex h key)).Holds key x)) := by
  obtain ⟨r, t, hrun, _, _, _, hres⟩ :=
    CuckooTable.lookup_spec (hr.inv (getShardIndex h key)) key
  refine ⟨r, s.setShard (getShardIndex h key) t, ?_, hres⟩
  rw [ShardedCuckooTable.lookup, hrun]
  rfl

theorem Represents.lookup_iff (hr : Represents h s m) (key : String) (x : List UInt8) :
    (∃ e s', s.lookup h key = .ok (some e, s') ∧ e.payload = x) ↔
      (s.shards (getShardIndex h key)).Holds key x := by
  obtain ⟨r, s₁, hrun, ⟨e, rfl, _, hheld⟩ | ⟨rfl, habsent⟩⟩ := hr.lookup key
  · constructor
    · rintro ⟨e', s', hrun', rfl⟩
      rw [hrun] at hrun'
      obtain ⟨rfl, _⟩ : e = e' ∧ s₁ = s' := by simpa using hrun'
      exact hheld
    · intro hx
      exact ⟨e, s₁, hrun, (hr.inv _).holds_unique hheld hx⟩
  · constructor
    · rintro ⟨e', s', hrun', _⟩
      rw [hrun] at hrun'
      simp at hrun'
    · intro hx
      exact (habsent x hx).elim

theorem Represents.listShards (hr : Represents h s m) (is : List (Fin 64)) (his : is.Nodup) :
    ∃ entries, s.listShards is = .ok entries ∧ (entries.map SecretEntry.key).Nodup ∧
      (∀ e ∈ entries, getShardIndex h e.key ∈ is) ∧
      ∀ key x, (∃ e ∈ entries, e.key = key ∧ e.payload = x) ↔
        ∃ i ∈ is, (s.shards i).Holds key x := by
  induction is with
  | nil => exact ⟨[], rfl, by simp, by simp, by simp⟩
  | cons i rest ih =>
    obtain ⟨hi, hrest⟩ := List.nodup_cons.mp his
    obtain ⟨more, hmore, hnodup, hmem, hiff⟩ := ih hrest
    obtain ⟨entries, hentries, hkeys, hholds⟩ := CuckooTable.getAllEntries_spec (hr.inv i)
    have hown : ∀ e ∈ entries, getShardIndex h e.key = i := by
      intro e he
      exact (hr.own i e.key e.payload ((hholds _ _).mp ⟨e, he, rfl, rfl⟩)).symm
    refine ⟨entries ++ more, ?_, ?_, ?_, ?_⟩
    · rw [ShardedCuckooTable.listShards, hentries, ok_bind, hmore]
      rfl
    · rw [List.map_append]
      refine List.Nodup.append hkeys hnodup ?_
      intro key hfirst hlater
      obtain ⟨e, he, rfl⟩ := List.mem_map.mp hfirst
      obtain ⟨e', he', hkey⟩ := List.mem_map.mp hlater
      have hin := hmem e' he'
      rw [hkey, hown e he] at hin
      exact hi hin
    · intro e he
      rcases List.mem_append.mp he with he | he
      · rw [hown e he]
        exact List.mem_cons_self
      · exact List.mem_cons_of_mem i (hmem e he)
    · intro key x
      constructor
      · rintro ⟨e, he, hkey, hx⟩
        rcases List.mem_append.mp he with he | he
        · exact ⟨i, List.mem_cons_self, (hholds key x).mp ⟨e, he, hkey, hx⟩⟩
        · obtain ⟨j, hj, hheld⟩ := (hiff key x).mp ⟨e, he, hkey, hx⟩
          exact ⟨j, List.mem_cons_of_mem i hj, hheld⟩
      · rintro ⟨j, hj, hheld⟩
        rcases List.mem_cons.mp hj with rfl | hj
        · obtain ⟨e, he, hkey, hx⟩ := (hholds key x).mpr hheld
          exact ⟨e, List.mem_append_left more he, hkey, hx⟩
        · obtain ⟨e, he, hkey, hx⟩ := (hiff key x).mpr ⟨j, hj, hheld⟩
          exact ⟨e, List.mem_append_right entries he, hkey, hx⟩

theorem Represents.neverLies {ops : List ShardedOp} (hr : Represents h s (lastInserted ops)) :
    NeverLies h ops s := by
  constructor
  · intro key
    obtain ⟨r, s', hrun, hres⟩ := hr.lookup key
    refine ⟨r, s', hrun, ?_⟩
    rintro e rfl
    rcases hres with ⟨e', he', hkey, hheld⟩ | ⟨hnone, _⟩
    · obtain rfl := Option.some.inj he'
      exact ⟨hkey, hr.value _ key e.payload hheld⟩
    · simp at hnone
  · obtain ⟨entries, hlist, hnodup, _, hiff⟩ :=
      hr.listShards (List.finRange 64) (List.nodup_finRange 64)
    refine ⟨entries, hlist, hnodup, ?_⟩
    intro key x
    rw [hiff, hr.lookup_iff]
    constructor
    · rintro ⟨i, _, hheld⟩
      rwa [← hr.own i key x hheld]
    · intro hheld
      exact ⟨getShardIndex h key, List.mem_finRange _, hheld⟩

end Represents

/-! ## Main result -/

/-- A sharded table whose shards have fewer than `u32::MAX` storage cells never lies,
whatever the hash functions and the sequence of calls. -/
theorem run_neverLies (h : ShardedHashing) (totalCapacity : ℕ)
    (hcap : ((new totalCapacity).shards 0).maxCapacity < u32Max.toNat)
    (ops : List ShardedOp) :
    ∃ s, (new totalCapacity).run h ops = .ok s ∧ NeverLies h ops s := by
  obtain ⟨s, hrun, hr⟩ := Represents.run ops _ _ (represents_new h totalCapacity hcap)
  exact ⟨s, hrun, hr.neverLies⟩

/-- Seventeen keys for two buckets and sixteen storage cells, one of them written twice and one
removed. -/
def evictingOps : List ShardedOp :=
  ((List.range 17).map fun i => .insert (toString i) ⟨toString i, [UInt8.ofNat i], true⟩) ++
    [.insert "5" ⟨"5", [99], true⟩, .remove "3"]

theorem run_neverLies_evicting :
    ((new 512).shards 0).maxCapacity < u32Max.toNat ∧
      ∃ s, (new 512).run ⟨⟨fun _ => 0, fun _ => 0⟩, fun _ => 0⟩ evictingOps = .ok s ∧
        (s.shards 0).clockHand = 1 ∧
        NeverLies ⟨⟨fun _ => 0, fun _ => 0⟩, fun _ => 0⟩ evictingOps s := by
  refine ⟨by decide, ?_⟩
  obtain ⟨s, hrun, hlies⟩ :=
    run_neverLies ⟨⟨fun _ => 0, fun _ => 0⟩, fun _ => 0⟩ 512 (by decide) evictingOps
  have hhand : ((new 512).run ⟨⟨fun _ => 0, fun _ => 0⟩, fun _ => 0⟩ evictingOps).map
      (fun s => (s.shards 0).clockHand) = .ok 1 := by
    decide +kernel
  rw [hrun] at hhand
  exact ⟨s, hrun, Except.ok.inj hhand, hlies⟩

end Kallisto.Cuckoo.ShardedCuckooTable
