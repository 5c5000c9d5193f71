import Kallisto.Verification.Cuckoo.Crowding
import Mathlib.Data.Finset.Image

/-! # Accounting for the storage cells

As long as every insertion finds a place, each storage cell in use is referred to by
one slot or lies in the free list, and the listing of live entries has one entry for
each cell that is not free. -/

namespace Kallisto.Cuckoo.CuckooTable

open RawMemory

variable {h : Hashing} {t : CuckooTable}

/-! ## Cells in slots and in the free list -/

def IsFree (t : CuckooTable) (i : ℕ) : Prop :=
  ∃ f, f < t.freeListSize ∧ t.freeAt f = i

/-- Every cell in use is referred to by a slot or free. -/
def Balanced (t : CuckooTable) : Prop :=
  ∀ i, i < t.storageSize → t.Referenced i ∨ t.IsFree i

theorem balanced_new (size cap : ℕ) : (CuckooTable.new size cap).Balanced :=
  fun i hi => (Nat.not_lt_zero i hi).elim

/-- Only the cell of the new entry is missing from the account after an allocation. -/
theorem Allocates.balanced (hinv : Invariant h t) (hbal : t.Balanced) {key : String}
    {payload : List UInt8} {index : UInt32} {t₁ : CuckooTable}
    (ha : Allocates h t key payload index t₁)
    (href : ∀ i, t₁.Referenced i ↔ t.Referenced i ∧ i ≠ index.toNat) :
    ∀ i, i < t₁.storageSize → i ≠ index.toNat → t₁.Referenced i ∨ t₁.IsFree i := by
  intro i hi hne
  rw [href]
  cases ha with
  | free hfree hindex =>
    refine (hbal i hi).imp (fun hr => ⟨hr, hne⟩) ?_
    rintro ⟨f, hf, rfl⟩
    refine ⟨f, ?_, rfl⟩
    change f < t.freeListSize - 1
    have hlast : f ≠ t.freeListSize - 1 := fun he => hne (by rw [he, hindex])
    omega
  | grow hfree hroom hindex =>
    have hlt : i < t.storageSize := by
      have hsucc : i < t.storageSize + 1 := hi
      omega
    exact (hbal i hlt).imp_left fun hr => ⟨hr, hne⟩
  | @evict t₂ hfree hfull hpos hindex hclear =>
    have harena := (cleared_spec hinv hpos hfull hindex hclear).2.1
    have hlt : i < t.storageSize := harena.storageSize ▸ hi
    rcases hbal i hlt with hr | ⟨f, hf, -⟩
    · exact Or.inl ⟨hr, hne⟩
    · omega

theorem Balanced.insert (hinv : Invariant h t) (hbal : t.Balanced) {key : String}
    {payload : List UInt8} {index : UInt32} {t₁ t₂ : CuckooTable}
    (ha : Allocates h t key payload index t₁) (halloc : Allocated h t key payload index t₁)
    (hd : Displaced t₁ index true t₂) : t₂.Balanced := by
  intro i hi
  rw [hd.arena.storageSize] at hi
  rw [hd.placed rfl]
  by_cases hindex : i = index.toNat
  · exact Or.inl (Or.inr hindex)
  · refine (ha.balanced hinv hbal halloc.referenced i hi hindex).imp Or.inl ?_
    rintro ⟨f, hf, rfl⟩
    refine ⟨f, by rw [hd.arena.freeListSize]; exact hf, ?_⟩
    rw [freeAt, hd.arena.freeList]
    rfl

theorem Balanced.setEntry (hbal : t.Balanced) (i : ℕ) (e : SecretEntry) :
    (t.setEntry i e).Balanced := by
  intro j hj
  refine (hbal j hj).imp_left ?_
  rintro ⟨l, hl, he⟩
  exact ⟨l, by simpa using hl, by simpa using he⟩

theorem Balanced.remove (hinv : Invariant h t) (hbal : t.Balanced) {l : Loc}
    (hl : t.Occupied l) :
    ((t.setSlot l .empty).pushFree (t.slotAt l).index).Balanced := by
  intro i hi
  have hlt : i < t.storageSize := by simpa [CuckooTable.pushFree] using hi
  have href : ((t.setSlot l .empty).pushFree (t.slotAt l).index).Referenced i ↔
      t.Referenced i ∧ i ≠ t.indexAt l := referenced_clearSlot hinv hl i
  rw [href]
  by_cases hindex : i = t.indexAt l
  · refine Or.inr ⟨t.freeListSize, by simp [CuckooTable.pushFree], ?_⟩
    rw [pushFree_freeAt, setSlot_freeListSize, if_pos rfl, hindex]
    rfl
  · refine (hbal i hlt).imp (fun hr => ⟨hr, hindex⟩) ?_
    rintro ⟨f, hf, rfl⟩
    refine ⟨f, ?_, ?_⟩
    · change f < (t.setSlot l .empty).freeListSize + 1
      rw [setSlot_freeListSize]
      omega
    · rw [pushFree_freeAt, setSlot_freeListSize, if_neg hf.ne, setSlot_freeAt]

/-! ## Insertions that find a place -/

/-- The key has an entry already, or there is no storage to give out, or one of the
entries carried in the 256 rounds of the displacement has an empty slot in one of its
buckets. -/
def FindsRoom (h : Hashing) (t : CuckooTable) (key : String) : Prop :=
  (∃ l, t.Occupied l ∧ t.slotKey l = key) ∨ t.maxCapacity = 0 ∨ t.FindsPlace h key

/-- Every insertion of the sequence finds a place when its turn comes. -/
def RoomAlong (h : Hashing) : CuckooTable → List Op → Prop
  | _, [] => True
  | t, op :: ops =>
    (∀ key entry, op = .insert key entry → t.FindsRoom h key) ∧
      ∀ t', t.apply h op = .ok t' → RoomAlong h t' ops

theorem Balanced.apply (hinv : Invariant h t) (hbal : t.Balanced) {op : Op}
    (hroom : ∀ key entry, op = .insert key entry → t.FindsRoom h key)
    {t' : CuckooTable} (hstep : t.apply h op = .ok t') : t'.Balanced := by
  cases op with
  | insert key entry =>
    rw [CuckooTable.apply] at hstep
    rcases insert_cases hinv key entry with
      ⟨l, -, -, hrun⟩ | ⟨habsent, ⟨-, hrun⟩ | ⟨index, t₁, -, ha, hrun⟩⟩
    · rw [hrun, map_ok] at hstep
      obtain rfl := Except.ok.inj hstep
      exact hbal.setEntry _ _
    · rw [hrun, map_ok] at hstep
      obtain rfl := Except.ok.inj hstep
      exact hbal
    · have halloc := ha.allocated hinv habsent
      rcases hroom key entry rfl with ⟨l, hl, hkey⟩ | hzero | hplace
      · exact (habsent l hl hkey).elim
      · exact absurd (ha.maxCapacity_pos hinv) (by omega)
      · obtain ⟨success, t₂, hrun₂, hd, hiff⟩ := displace_allocated hinv ha halloc
        obtain rfl := hiff.mpr hplace
        rw [hrun, hrun₂, map_ok] at hstep
        obtain rfl := Except.ok.inj hstep
        exact hbal.insert hinv ha halloc hd
  | lookup key =>
    rw [CuckooTable.apply, lookup] at hstep
    rcases lookupMap_cases hinv key id with ⟨l, -, -, hrun⟩ | ⟨-, hrun⟩
    · rw [hrun, map_ok] at hstep
      obtain rfl := Except.ok.inj hstep
      exact hbal.setEntry _ _
    · rw [hrun, map_ok] at hstep
      obtain rfl := Except.ok.inj hstep
      exact hbal
  | remove key =>
    rw [CuckooTable.apply] at hstep
    rcases remove_cases hinv key with ⟨l, hl, -, hrun⟩ | ⟨-, hrun⟩
    · rw [hrun, map_ok] at hstep
      obtain rfl := Except.ok.inj hstep
      exact hbal.remove hinv hl
    · rw [hrun, map_ok] at hstep
      obtain rfl := Except.ok.inj hstep
      exact hbal

theorem Balanced.run (ops : List Op) : ∀ t : CuckooTable, Invariant h t → t.Balanced →
    RoomAlong h t ops → ∀ t', t.run h ops = .ok t' → t'.Balanced := by
  induction ops with
  | nil =>
    intro t _ hbal _ t' hrun
    obtain rfl := Except.ok.inj hrun
    exact hbal
  | cons op ops ih =>
    intro t hinv hbal hroom t' hrun
    obtain ⟨t₁, hstep, hinv₁, -⟩ := apply_spec hinv op
    rw [CuckooTable.run, hstep, ok_bind] at hrun
    exact ih t₁ hinv₁ (hbal.apply hinv hroom.1 hstep) (hroom.2 t₁ hstep) t' hrun

/-! ## The number of live entries -/

/-- The cells that slots refer to are those in use that are not free. -/
theorem Balanced.toFinset_indices (hinv : Invariant h t) (hbal : t.Balanced) :
    ((t.occupiedLocs (List.range' 0 t.capacity)).map t.indexAt).toFinset =
      Finset.range t.storageSize \ (Finset.range t.freeListSize).image t.freeAt := by
  ext i
  simp only [List.mem_toFinset, List.mem_map, mem_allLocs hinv, Finset.mem_sdiff,
    Finset.mem_range, Finset.mem_image]
  constructor
  · rintro ⟨l, hl, rfl⟩
    refine ⟨hinv.slot_lt l hl, ?_⟩
    rintro ⟨f, hf, he⟩
    exact hinv.free_unused f l hf hl he.symm
  · rintro ⟨hi, hnot⟩
    exact (hbal i hi).resolve_right hnot

theorem Balanced.length_entries (hinv : Invariant h t) (hbal : t.Balanced) :
    (t.occupiedLocs (List.range' 0 t.capacity)).length = t.storageSize - t.freeListSize := by
  have hnodup : ((t.occupiedLocs (List.range' 0 t.capacity)).map t.indexAt).Nodup := by
    refine List.Nodup.map_on ?_ (nodup_occupiedLocs t (List.nodup_range' ..))
    intro l hl m hm he
    exact hinv.index_inj ((mem_allLocs hinv).mp hl) ((mem_allLocs hinv).mp hm) he
  have hsubset : (Finset.range t.freeListSize).image t.freeAt ⊆ Finset.range t.storageSize := by
    intro i hi
    obtain ⟨f, hf, rfl⟩ := Finset.mem_image.mp hi
    exact Finset.mem_range.mpr (hinv.free_lt f (Finset.mem_range.mp hf))
  have hfree : ((Finset.range t.freeListSize).image t.freeAt).card = t.freeListSize := by
    rw [Finset.card_image_of_injOn, Finset.card_range]
    intro f hf g hg he
    exact hinv.free_inj f g (by simpa using hf) (by simpa using hg) he
  calc (t.occupiedLocs (List.range' 0 t.capacity)).length
      = ((t.occupiedLocs (List.range' 0 t.capacity)).map t.indexAt).toFinset.card := by
        rw [List.toFinset_card_of_nodup hnodup, List.length_map]
    _ = t.storageSize - t.freeListSize := by
        rw [hbal.toFinset_indices hinv, Finset.card_sdiff_of_subset hsubset, hfree,
          Finset.card_range]

/-- In every state reached by calls whose insertions all find a place, each storage cell
in use is either referred to by exactly one slot or free, and the listing has one entry
for each cell that is not free. -/
theorem run_balanced (h : Hashing) (size cap : ℕ)
    (hcap : (CuckooTable.new size cap).maxCapacity ≤ u32Max.toNat) (ops : List Op)
    (hroom : RoomAlong h (CuckooTable.new size cap) ops) (t : CuckooTable)
    (hrun : (CuckooTable.new size cap).run h ops = .ok t) :
    (∀ i, i < t.storageSize → Xor (∃! l, t.Occupied l ∧ t.indexAt l = i) (t.IsFree i)) ∧
      ∃ entries, t.getAllEntries = .ok entries ∧
        entries.length = t.storageSize - t.freeListSize := by
  rcases run_reaches hcap hrun with ⟨hsize, hinv⟩ | ⟨-, rfl⟩
  · have hbal := Balanced.run ops _ (invariant_new h size cap hsize hcap) (balanced_new size cap)
      hroom t hrun
    refine ⟨?_, _, getAllEntries_eq hinv, by rw [List.length_map, hbal.length_entries hinv]⟩
    intro i hi
    rcases hbal i hi with ⟨l, hl, rfl⟩ | ⟨f, hf, rfl⟩
    · refine Or.inl ⟨⟨l, ⟨hl, rfl⟩, fun m hm => hinv.index_inj hm.1 hl hm.2⟩, ?_⟩
      rintro ⟨f, hf, he⟩
      exact hinv.free_unused f l hf hl he.symm
    · refine Or.inr ⟨⟨f, hf, rfl⟩, ?_⟩
      rintro ⟨l, ⟨hl, he⟩, -⟩
      exact hinv.free_unused f l hf hl he
  · exact ⟨fun i hi => (Nat.not_lt_zero i hi).elim, [], rfl, rfl⟩

/-- Every insertion of the sequence is of a key that finds a place. -/
def placesAll (h : Hashing) : CuckooTable → List Op → Bool
  | _, [] => true
  | t, op :: ops =>
    (match op with
      | .insert key _ => decide (t.FindsPlace h key)
      | _ => true) &&
    match t.apply h op with
    | .ok t' => placesAll h t' ops
    | .error _ => true

theorem roomAlong_of_placesAll (ops : List Op) : ∀ t : CuckooTable, placesAll h t ops = true →
    RoomAlong h t ops := by
  induction ops with
  | nil => exact fun _ _ => trivial
  | cons op ops ih =>
    intro t hplaces
    obtain ⟨hfirst, hrest⟩ := Bool.and_eq_true_iff.mp hplaces
    refine ⟨?_, fun t' hstep => ih t' ?_⟩
    · rintro key entry rfl
      exact Or.inr (Or.inr (of_decide_eq_true hfirst))
    · rwa [hstep] at hrest

section Crowded

open Crowding
open Overflow (key secret)

/-- The seventeenth key for two full buckets moves the second one to another bucket, the next one
evicts the first, and one is removed. -/
def movingOps : List Op :=
  fillOps key secret 16 ++
    [.insert (key 17) secret, .insert (key 18) secret, .remove (key 3)]

theorem run_balanced_moving : ∃ t,
    (CuckooTable.new 3 17).run (hashing turning straying) movingOps = .ok t ∧
      (t.slotAt ⟨.second, 1, 0⟩).index = 1 ∧ t.clockHand = 1 ∧
      (∀ i, i < 17 → Xor (∃! l, t.Occupied l ∧ t.indexAt l = i) (t.IsFree i)) ∧
      ∃ entries, t.getAllEntries = .ok entries ∧ entries.length = 16 := by
  have hplaces : placesAll (hashing turning straying) (CuckooTable.new 3 17) movingOps = true := by
    decide +kernel
  have hends : ((CuckooTable.new 3 17).run (hashing turning straying) movingOps).map
      (fun t => ((t.slotAt ⟨.second, 1, 0⟩).index, t.clockHand, t.storageSize, t.freeListSize)) =
      .ok (1, 1, 17, 1) := by
    decide +kernel
  cases hrun : (CuckooTable.new 3 17).run (hashing turning straying) movingOps with
  | error e =>
    rw [hrun] at hends
    cases hends
  | ok t =>
    rw [hrun] at hends
    simp only [Except.map, Except.ok.injEq, Prod.mk.injEq] at hends
    obtain ⟨hslot, hhand, hsize, hfree⟩ := hends
    have hbalanced := run_balanced (hashing turning straying) 3 17 (by decide) movingOps
      (roomAlong_of_placesAll _ _ hplaces) t hrun
    rw [hsize, hfree] at hbalanced
    exact ⟨t, rfl, hslot, hhand, hbalanced⟩

/-- The cell of the entry that a rejected insertion drops is neither referred to nor free. -/
theorem insert_turning_leaks : ∃ t,
    (CuckooTable.new 3 17).run (hashing turning straying)
        (fillOps key secret 16 ++ [.insert (key 16) secret]) = .ok t ∧
      16 < t.storageSize ∧ (∀ l, t.Occupied l → t.indexAt l ≠ 16) ∧ ¬ t.IsFree 16 := by
  obtain ⟨t, hrun, ht, hmax⟩ := crowds_turning.run
  obtain ⟨t', hins, hgive⟩ := insert_crowded crowds_turning ht hmax le_rfl
    fun n _ => straying_trades n
  have hlost : (t.growStorage (freshEntry (key 16) [])).carriedAfter (hashing turning straying)
      16 256 = 16 := by
    rw [carriedAfter_crowded crowds_turning ht]
    exact congrArg Prod.snd (trades_turning 128)
  refine ⟨t', ?_, ?_, ?_, ?_⟩
  · rw [run_append, hrun, ok_bind, run, apply, hins]
    rfl
  · rw [hgive.arena.storageSize]
    exact ht.storageSize.symm ▸ Nat.lt_succ_self 16
  · intro l hl he
    have hne := ((hgive.referenced 16).mp ⟨l, hl, he⟩).2
    rw [hlost] at hne
    exact hne rfl
  · rintro ⟨f, hf, -⟩
    rw [hgive.arena.freeListSize] at hf
    exact absurd (ht.freeListSize ▸ hf) (Nat.not_lt_zero f)

end Crowded

end Kallisto.Cuckoo.CuckooTable
