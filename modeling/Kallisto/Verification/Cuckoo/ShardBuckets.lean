import Mathlib.Data.Finset.Prod
import Mathlib.Data.Fintype.Card
import Mathlib.Data.Nat.ModEq
import Mathlib.Data.Nat.Prime.Basic
import Kallisto.Verification.Cuckoo.Accounting
import Kallisto.Verification.Cuckoo.Crowding

/-! # The buckets that the keys of a shard can reach

The shard of a key and its bucket in the first table are residues of one hash, modulo 64
and modulo the number of buckets. They are independent exactly when that number is odd;
otherwise part of the first table of every shard stays empty. -/

namespace Kallisto.Cuckoo

open RawMemory

/-! ## A sharded run, shard by shard -/

namespace ShardedOp

def key : ShardedOp → String
  | .insert key _ => key
  | .lookup key => key
  | .lookupMap key _ _ => key
  | .remove key => key

/-- The call that the shard of the key receives; what a closure makes of the entry does not
matter to the shard. -/
def onShard : ShardedOp → Op
  | .insert key entry => .insert key entry
  | .lookup key => .lookup key
  | .lookupMap key _ _ => .lookup key
  | .remove key => .remove key

end ShardedOp

namespace ShardedCuckooTable

variable {h : ShardedHashing} {s s' : ShardedCuckooTable} {totalCapacity : ℕ}

theorem lookupMap_snd {R : Type} (h : Hashing) (t : CuckooTable) (key : String)
    (f : SecretEntry → R) : Prod.snd <$> t.lookupMap h key f = Prod.snd <$> t.lookup h key := by
  rw [CuckooTable.lookup, CuckooTable.lookupMap, CuckooTable.lookupMap]
  cases t.search h key with
  | error fault => rfl
  | ok found =>
    cases found with
    | none => rfl
    | some position =>
      obtain ⟨side, slot, index⟩ := position
      dsimp only [ok_bind]
      cases t.storage.read index.toNat with
      | error fault => rfl
      | ok se =>
        dsimp only [ok_bind]
        cases t.storage.assign index.toNat { se with referenced := true } <;> rfl

/-- A call is a call on the shard of its key. -/
theorem apply_eq (h : ShardedHashing) (s : ShardedCuckooTable) (op : ShardedOp) :
    s.apply h op = s.setShard (getShardIndex h op.key) <$>
      (s.shards (getShardIndex h op.key)).apply h.toHashing op.onShard := by
  cases op with
  | insert key entry =>
    rw [apply, insert, ShardedOp.onShard, CuckooTable.apply, ShardedOp.key]
    cases (s.shards (getShardIndex h key)).insert h.toHashing key entry <;> rfl
  | lookup key =>
    rw [apply, lookup, ShardedOp.onShard, CuckooTable.apply, ShardedOp.key]
    cases (s.shards (getShardIndex h key)).lookup h.toHashing key <;> rfl
  | lookupMap key R f =>
    rw [ShardedOp.onShard, CuckooTable.apply, ShardedOp.key, ← lookupMap_snd _ _ _ f, apply,
      lookupMap]
    cases (s.shards (getShardIndex h key)).lookupMap h.toHashing key f <;> rfl
  | remove key =>
    rw [apply, remove, ShardedOp.onShard, CuckooTable.apply, ShardedOp.key]
    cases (s.shards (getShardIndex h key)).remove h.toHashing key <;> rfl

/-- The calls that one shard receives. -/
def shardOps (h : ShardedHashing) (i : Fin 64) (ops : List ShardedOp) : List Op :=
  (ops.filter fun op => getShardIndex h op.key = i).map ShardedOp.onShard

/-- Each shard runs through the calls on its own keys. -/
theorem run_shards (i : Fin 64) (ops : List ShardedOp) : ∀ s : ShardedCuckooTable,
    s.run h ops = .ok s' → (s.shards i).run h.toHashing (shardOps h i ops) = .ok (s'.shards i) := by
  induction ops with
  | nil =>
    intro s hrun
    obtain rfl := Except.ok.inj hrun
    rfl
  | cons op ops ih =>
    intro s hrun
    rw [run, apply_eq] at hrun
    cases hstep : (s.shards (getShardIndex h op.key)).apply h.toHashing op.onShard with
    | error fault =>
      rw [hstep] at hrun
      cases hrun
    | ok t =>
      rw [hstep, map_ok, ok_bind] at hrun
      have hrest := ih _ hrun
      rw [setShard_shards] at hrest
      by_cases hi : getShardIndex h op.key = i
      · subst hi
        rw [if_pos rfl] at hrest
        rw [shardOps, List.filter_cons_of_pos (by simp), List.map_cons, ← shardOps,
          CuckooTable.run, hstep, ok_bind, hrest]
      · rw [if_neg (Ne.symm hi)] at hrest
        rw [shardOps, List.filter_cons_of_neg (by simpa using hi), ← shardOps, hrest]

/-- Calls on keys of one shard are a run of that shard. -/
theorem run_of_shard (i : Fin 64) (ops : List ShardedOp)
    (hkeys : ∀ op ∈ ops, getShardIndex h op.key = i) : ∀ (s : ShardedCuckooTable) {t : CuckooTable},
    (s.shards i).run h.toHashing (ops.map ShardedOp.onShard) = .ok t →
      ∃ s', s.run h ops = .ok s' ∧ s'.shards i = t := by
  induction ops with
  | nil =>
    intro s t hrun
    exact ⟨s, rfl, Except.ok.inj hrun⟩
  | cons op ops ih =>
    intro s t hrun
    have hi : getShardIndex h op.key = i := hkeys op List.mem_cons_self
    rw [List.map_cons, CuckooTable.run] at hrun
    cases hstep : (s.shards i).apply h.toHashing op.onShard with
    | error fault =>
      rw [hstep] at hrun
      cases hrun
    | ok t₁ =>
      rw [hstep, ok_bind] at hrun
      obtain ⟨s', hrest, hs'⟩ := ih (fun op hop => hkeys op (List.mem_cons_of_mem _ hop))
        (s.setShard i t₁) (by rw [setShard_shards, if_pos rfl]; exact hrun)
      refine ⟨s', ?_, hs'⟩
      rw [run, apply_eq, hi, hstep, map_ok, ok_bind, hrest]

/-! ## Shard and bucket of one hash -/

/-- The source computes the shard from the first hash of the key. -/
def keyed (h : Hashing) : ShardedHashing :=
  { h with shardHash := h.hash1Full }

/-- Every bucket of every shard is the bucket of some hash that belongs to the shard. -/
def EveryBucketHashed (totalCapacity : ℕ) : Prop :=
  ∀ i : Fin 64, ∀ b, b < bucketsPerShard totalCapacity → ∃ hash : UInt64,
    hash.toNat &&& 63 = i.val ∧ hash.toNat % bucketsPerShard totalCapacity = b

theorem and_eq_mod (n : ℕ) : n &&& 63 = n % 64 :=
  Nat.and_two_pow_sub_one_eq_mod n 6

/-- Residues modulo 64 and modulo an odd number are independent. -/
theorem exists_hash {w : ℕ} (hodd : w % 2 = 1) (hword : 64 * w ≤ 2 ^ 64) {i b : ℕ} (hi : i < 64)
    (hb : b < w) : ∃ hash : UInt64, hash.toNat &&& 63 = i ∧ hash.toNat % w = b := by
  have hcoprime : Nat.Coprime 64 w :=
    Nat.Coprime.pow_left 6 ((Nat.coprime_two_left).mpr (Nat.odd_iff.mpr hodd))
  have hlt := Nat.chineseRemainder_lt_mul hcoprime i b (by decide) (Nat.ne_of_gt (by omega))
  obtain ⟨hmod, hmod'⟩ := (Nat.chineseRemainder hcoprime i b).property
  have hnat : (UInt64.ofNat (Nat.chineseRemainder hcoprime i b)).toNat =
      Nat.chineseRemainder hcoprime i b := by
    rw [UInt64.toNat_ofNat', Nat.mod_eq_of_lt (lt_of_lt_of_le hlt hword)]
  refine ⟨UInt64.ofNat (Nat.chineseRemainder hcoprime i b), ?_, ?_⟩
  · rw [hnat, and_eq_mod, hmod, Nat.mod_eq_of_lt hi]
  · rw [hnat, hmod', Nat.mod_eq_of_lt hb]

/-- An even hash has an even residue modulo an even number. -/
theorem odd_of_everyBucketHashed (hall : EveryBucketHashed totalCapacity) :
    bucketsPerShard totalCapacity % 2 = 1 := by
  have hsize : 64 ≤ bucketsPerShard totalCapacity := by
    rw [bucketsPerShard]
    split <;> omega
  obtain ⟨hash, hshard, hbucket⟩ := hall 0 1 (by omega)
  rw [and_eq_mod] at hshard
  by_contra heven
  have hdvd : 2 ∣ bucketsPerShard totalCapacity := by omega
  have hparity := Nat.mod_mod_of_dvd hash.toNat hdvd
  rw [hbucket] at hparity
  have hzero : hash.toNat % 64 = 0 := hshard
  omega

/-! ## A shard filled up -/

/-- Some run fills the storage of a shard, its whole first table and a given bucket of its
second table. -/
def Attainable (totalCapacity : ℕ) : Prop :=
  ∀ i : Fin 64, ∀ b, b < bucketsPerShard totalCapacity → ∃ (h : Hashing) (ops : List ShardedOp)
    (s : ShardedCuckooTable), (new totalCapacity).run (keyed h) ops = .ok s ∧
      (∃ entries, (s.shards i).getAllEntries = .ok entries ∧
        entries.length = ((new totalCapacity).shards i).maxCapacity) ∧
      (∀ b' j, b' < bucketsPerShard totalCapacity → (s.shards i).Occupied ⟨.first, b', j⟩) ∧
      ∀ j, (s.shards i).Occupied ⟨.second, b, j⟩

theorem maxCapacity_of_odd (hodd : bucketsPerShard totalCapacity % 2 = 1)
    (hcap : bucketsPerShard totalCapacity * 1440 / 100 ≤ u32Max.toNat) (i : Fin 64) :
    ((new totalCapacity).shards i).maxCapacity = bucketsPerShard totalCapacity * 1440 / 100 := by
  have hmax : u32Max.toNat = 2 ^ 32 - 1 := rfl
  have hitems : bucketsPerShard totalCapacity * 8 ≤ totalCapacity / 64 := by
    rw [bucketsPerShard] at hodd ⊢
    split at hodd <;> split <;> omega
  change min (totalCapacity / 64 * 2)
    (bucketsPerShard totalCapacity * 16 * 90 % 2 ^ 64 / 100) = _
  rw [Nat.mod_eq_of_lt (by omega)]
  omega

/-- All entries of a table laid out one after the other are listed. -/
theorem length_listed {h : Hashing} {size n : ℕ} {key : ℕ → String} {loc : ℕ → Loc}
    {t : CuckooTable} (ht : CuckooTable.Laid h size key loc n t) :
    ∃ entries, t.getAllEntries = .ok entries ∧ entries.length = n := by
  have hbal : t.Balanced := by
    intro i hi
    exact Or.inl ⟨loc i, ht.slot i (ht.storageSize ▸ hi)⟩
  refine ⟨_, CuckooTable.getAllEntries_eq ht.inv, ?_⟩
  rw [List.length_map, hbal.length_entries ht.inv, ht.storageSize, ht.freeListSize, Nat.sub_zero]

/-- The first hash of a key is given by its length, the second sends the keys that find no
place in the first table to the buckets from `b` on. -/
def spreading (first : ℕ → UInt64) (w b : ℕ) : Hashing :=
  Crowding.hashing first fun n => UInt64.ofNat ((b + (n / 8 - w)) % w)

theorem next_spreading {first : ℕ → UInt64} {w : ℕ} (hw : 0 < w) (hword : w ≤ 2 ^ 64) (b : ℕ)
    (hfirst : ∀ n, (first n).toNat % w = n / 8 % w) {n : ℕ} (hn : n < 16 * w) :
    CuckooTable.Next (spreading first w b) w Overflow.key (CuckooTable.rowByRow w b) n := by
  have hhash : (spreading first w b).hash1Full (Overflow.key n) = first n :=
    congrArg first (Overflow.key_length n)
  have hhash' : (spreading first w b).hash2Full (Overflow.key n) =
      UInt64.ofNat ((b + (n / 8 - w)) % w) := by
    change UInt64.ofNat ((b + ((Overflow.key n).length / 8 - w)) % w) = _
    rw [Overflow.key_length]
  have hlt : (b + (n / 8 - w)) % w < w := Nat.mod_lt _ hw
  apply CuckooTable.next_rowByRow hn
  · intro j hj he
    exact hj.ne (Overflow.key_inj he)
  · intro hrow
    rw [hhash, hfirst, Nat.mod_eq_of_lt (by omega)]
  · intro _
    refine ⟨Nat.mod_lt _ hw, ?_⟩
    rw [hhash', UInt64.toNat_ofNat', Nat.mod_eq_of_lt (lt_of_lt_of_le hlt hword),
      Nat.mod_eq_of_lt hlt]

/-- With an odd number of buckets, keys of one shard are laid out bucket after bucket. -/
theorem attainable_of_odd (hodd : bucketsPerShard totalCapacity % 2 = 1)
    (hcap : bucketsPerShard totalCapacity * 1440 / 100 ≤ u32Max.toNat) :
    Attainable totalCapacity := by
  intro i b hb
  have hmax : u32Max.toNat = 2 ^ 32 - 1 := rfl
  have hsize : 64 ≤ bucketsPerShard totalCapacity := by
    rw [bucketsPerShard]
    split <;> omega
  have hcells := maxCapacity_of_odd hodd hcap i
  have hnew : (new totalCapacity).shards i =
    CuckooTable.new (bucketsPerShard totalCapacity) (totalCapacity / 64 * 2) := rfl
  generalize bucketsPerShard totalCapacity = w at *
  have hrow : ∀ n, ∃ hash : UInt64, hash.toNat &&& 63 = i.val ∧ hash.toNat % w = n / 8 % w :=
    fun n => exists_hash hodd (by omega) i.isLt (Nat.mod_lt _ (by omega))
  choose first hshard hfirst using hrow
  rw [hnew] at hcells
  obtain ⟨t, hrun, ht, -⟩ := CuckooTable.run_fillOps (by omega) (hcells.trans_le hcap)
    Overflow.secret hcells.ge
    fun n hn => next_spreading (by omega) (by omega) b hfirst (n := n) (by omega)
  have hkeys : ∀ op ∈ (List.range (w * 1440 / 100)).map fun n =>
      ShardedOp.insert (Overflow.key n) Overflow.secret,
      getShardIndex (keyed (spreading first w b)) op.key = i := by
    intro op hop
    obtain ⟨n, -, rfl⟩ := List.mem_map.mp hop
    apply Fin.ext
    change (first (Overflow.key n).length).toNat &&& 63 = i.val
    rw [hshard]
  obtain ⟨s, hrun', hs⟩ := run_of_shard i _ hkeys (new totalCapacity) (t := t) (by
    rw [hnew, List.map_map]
    exact hrun)
  refine ⟨spreading first w b, _, s, hrun', ?_, ?_, ?_⟩
  · rw [hs, hnew, hcells]
    exact length_listed ht
  · intro b' j hb'
    have hj := j.isLt
    rw [hs, ht.occupied_iff]
    refine ⟨8 * b' + j.val, by omega, ?_⟩
    have hmod : (8 * b' + j.val) % 8 = j.val := by omega
    rw [CuckooTable.rowByRow_first (by omega)]
    simp only [Loc.mk.injEq, true_and]
    exact ⟨by omega, Fin.ext hmod⟩
  · intro j
    have hj := j.isLt
    rw [hs, ht.occupied_iff]
    refine ⟨8 * w + j.val, by omega, ?_⟩
    have hmod : (8 * w + j.val) % 8 = j.val := by omega
    have hdiv : (8 * w + j.val) / 8 - w = 0 := by omega
    rw [CuckooTable.rowByRow_second (by omega), hdiv, Nat.add_zero, Nat.mod_eq_of_lt hb]
    simp only [Loc.mk.injEq, true_and]
    exact Fin.ext hmod

/-- Every bucket is that of some hash of its shard exactly with an odd number of buckets per
shard, and then a shard can be filled up. -/
theorem everyBucket_usable (totalCapacity : ℕ)
    (hcap : bucketsPerShard totalCapacity * 1440 / 100 ≤ u32Max.toNat) :
    (EveryBucketHashed totalCapacity ↔ bucketsPerShard totalCapacity % 2 = 1) ∧
      (bucketsPerShard totalCapacity % 2 = 1 → Attainable totalCapacity) := by
  have hmax : u32Max.toNat = 2 ^ 32 - 1 := rfl
  refine ⟨⟨odd_of_everyBucketHashed, ?_⟩, fun hodd => attainable_of_odd hodd hcap⟩
  intro hodd i b hb
  exact exists_hash hodd (by omega) i.isLt hb

theorem everyBucket_usable_odd :
    bucketsPerShard 33280 % 2 = 1 ∧ EveryBucketHashed 33280 ∧ Attainable 33280 := by
  have hodd : bucketsPerShard 33280 % 2 = 1 := by decide
  obtain ⟨hiff, hattained⟩ := everyBucket_usable 33280 (by decide)
  exact ⟨hodd, hiff.mpr hodd, hattained hodd⟩

/-! ## Buckets out of reach -/

section OutOfReach

variable {h : Hashing} {m : String → Option (List UInt8)} {i : Fin 64}

/-- When 64 divides the number of buckets, the first table of a shard is used only at the
buckets whose numbers agree with that of the shard modulo 64. -/
theorem Represents.first_mod (hr : Represents (keyed h) s m) (hdvd : 64 ∣ (s.shards i).capacity)
    {b : ℕ} {j : Fin 8} (hocc : (s.shards i).Occupied ⟨.first, b, j⟩) : b % 64 = i.val := by
  have hhome : (s.shards i).bucketIndex h .first ((s.shards i).slotKey ⟨.first, b, j⟩) = b :=
    (hr.inv i).slot_home _ hocc
  have hown := hr.own i ((s.shards i).slotKey ⟨.first, b, j⟩) _ ⟨_, ⟨_, hocc, rfl⟩, rfl⟩
  generalize (s.shards i).slotKey ⟨.first, b, j⟩ = key at hhome hown
  have hshard : (h.hash1Full key).toNat % 64 = i.val := by
    rw [← and_eq_mod]
    exact (congrArg Fin.val hown).symm
  rw [← hshard, ← hhome]
  exact Nat.mod_mod_of_dvd _ hdvd

/-- The slots within reach of the keys of a shard. -/
def reachable (i w : ℕ) : Finset Loc :=
  ((Finset.range (w / 64) ×ˢ Finset.univ).image fun p => Loc.mk .first (64 * p.1 + i) p.2) ∪
    (Finset.range w ×ˢ Finset.univ).image fun p => Loc.mk .second p.1 p.2

theorem card_reachable_le (i w : ℕ) : (reachable i w).card ≤ w / 64 * 8 + w * 8 := by
  refine (Finset.card_union_le _ _).trans (Nat.add_le_add ?_ ?_)
  · refine Finset.card_image_le.trans ?_
    rw [Finset.card_product, Finset.card_range, Finset.card_univ, Fintype.card_fin]
  · refine Finset.card_image_le.trans ?_
    rw [Finset.card_product, Finset.card_range, Finset.card_univ, Fintype.card_fin]

theorem Represents.mem_reachable (hr : Represents (keyed h) s m)
    (hdvd : 64 ∣ (s.shards i).capacity) {l : Loc} (hl : (s.shards i).Occupied l) :
    l ∈ reachable i (s.shards i).capacity := by
  obtain ⟨side, b, j⟩ := l
  have hlt : b < (s.shards i).capacity := (hr.inv i).bucket_lt hl
  rw [reachable, Finset.mem_union, Finset.mem_image, Finset.mem_image]
  cases side with
  | first =>
    have hmod := hr.first_mod hdvd hl
    refine Or.inl ⟨(b / 64, j), ?_, ?_⟩
    · rw [Finset.mem_product, Finset.mem_range]
      exact ⟨Nat.div_lt_div_of_lt_of_dvd hdvd hlt, Finset.mem_univ j⟩
    · rw [← hmod, Nat.div_add_mod]
  | second =>
    refine Or.inr ⟨(b, j), ?_, rfl⟩
    rw [Finset.mem_product, Finset.mem_range]
    exact ⟨hlt, Finset.mem_univ j⟩

theorem Represents.length_listed_le (hr : Represents (keyed h) s m)
    (hdvd : 64 ∣ (s.shards i).capacity) : ∃ entries, (s.shards i).getAllEntries = .ok entries ∧
      entries.length ≤ (s.shards i).capacity / 64 * 8 + (s.shards i).capacity * 8 := by
  refine ⟨_, CuckooTable.getAllEntries_eq (hr.inv i), ?_⟩
  rw [List.length_map, ← List.toFinset_card_of_nodup
    (CuckooTable.nodup_occupiedLocs _ (List.nodup_range' ..))]
  refine (Finset.card_le_card ?_).trans (card_reachable_le i (s.shards i).capacity)
  intro l hl
  exact hr.mem_reachable hdvd ((CuckooTable.mem_allLocs (hr.inv i)).mp (List.mem_toFinset.mp hl))

theorem run_capacity {ops : List ShardedOp} {h : ShardedHashing}
    (hcap : ((new totalCapacity).shards 0).maxCapacity < u32Max.toNat)
    (hrun : (new totalCapacity).run h ops = .ok s) (i : Fin 64) :
    (s.shards i).capacity = bucketsPerShard totalCapacity := by
  have hinv := (represents_new h totalCapacity hcap).inv i
  obtain ⟨t, hrun', -, hshape⟩ := CuckooTable.run_spec (shardOps h i ops) _ hinv
  rw [run_shards i ops _ hrun] at hrun'
  obtain rfl := Except.ok.inj hrun'
  exact hshape.capacity

/-- In the cache of the engine some buckets belong to no hash of their shard, and no run
fills the storage of a shard. -/
theorem engineCache_unreachable : ¬ EveryBucketHashed 262144 ∧
    ∀ (h : Hashing) (ops : List ShardedOp) (s : ShardedCuckooTable) (i : Fin 64),
      (new 262144).run (keyed h) ops = .ok s → ∃ entries,
        (s.shards i).getAllEntries = .ok entries ∧ entries.length ≤ 4160 ∧
          ((new 262144).shards i).maxCapacity = 7372 := by
  refine ⟨fun hall => absurd (odd_of_everyBucketHashed hall) (by decide), ?_⟩
  intro h ops s i hrun
  have hcap : ((new 262144).shards 0).maxCapacity < u32Max.toNat := by decide
  have hcapacity : (s.shards i).capacity = 512 := run_capacity hcap hrun i
  obtain ⟨s', hrun', hr⟩ := Represents.run ops _ _ (represents_new (keyed h) 262144 hcap)
  rw [hrun] at hrun'
  obtain rfl := Except.ok.inj hrun'
  obtain ⟨entries, hlist, hlength⟩ := hr.length_listed_le (i := i) (by rw [hcapacity]; decide)
  rw [hcapacity] at hlength
  exact ⟨entries, hlist, hlength, rfl⟩

end OutOfReach

end ShardedCuckooTable

end Kallisto.Cuckoo
