import Kallisto.Verification.Cuckoo.Crowding

/-! # What an insertion changes for readers

The entries held before and after an insertion, compared key by key: a successful
insertion loses at most the victim of the CLOCK scan, and a rejected one loses the
entry that the displacement carries last. -/

namespace Kallisto.Cuckoo.CuckooTable

open RawMemory

variable {h : Hashing} {t t' : CuckooTable} {j : String}

/-! ## The view of a reader -/

/-- The answer of a lookup. -/
def view (h : Hashing) (t : CuckooTable) (key : String) : Except Fault (Option SecretEntry) :=
  Prod.fst <$> t.lookup h key

theorem view_spec (hinv : Invariant h t) (key : String) :
    (∃ x, t.Holds key x ∧ t.view h key = .ok (some (freshEntry key x))) ∨
      (t.view h key = .ok none ∧ ∀ x, ¬ t.Holds key x) := by
  rw [view, lookup]
  rcases lookupMap_cases hinv key id with ⟨l, hocc, rfl, hrun⟩ | ⟨habsent, hrun⟩
  · refine Or.inl ⟨_, (holds_iff_of_slotKey hinv hocc _).mpr rfl, ?_⟩
    rw [hrun]
    rfl
  · refine Or.inr ⟨?_, not_holds_of_absent habsent⟩
    rw [hrun]
    rfl

theorem view_eq_some (hinv : Invariant h t) {key : String} {x : List UInt8}
    (hx : t.Holds key x) : t.view h key = .ok (some (freshEntry key x)) := by
  rcases view_spec hinv key with ⟨y, hy, hview⟩ | ⟨-, hnone⟩
  · rw [hview, hinv.holds_unique hx hy]
  · exact (hnone x hx).elim

theorem view_eq_none_iff (hinv : Invariant h t) (key : String) :
    t.view h key = .ok none ↔ ∀ x, ¬ t.Holds key x := by
  rcases view_spec hinv key with ⟨x, hx, hview⟩ | ⟨hview, hnone⟩
  · rw [hview]
    exact iff_of_false (by simp) fun hnone => hnone x hx
  · exact iff_of_true hview hnone

theorem holds_of_view_eq (hinv : Invariant h t) (hinv' : Invariant h t') {key : String}
    (hview : t'.view h key = t.view h key) {x : List UInt8} (hx : t'.Holds key x) :
    t.Holds key x := by
  rw [view_eq_some hinv' hx] at hview
  rcases view_spec hinv key with ⟨y, hy, hview'⟩ | ⟨hview', -⟩
  · rw [hview'] at hview
    obtain rfl : x = y := by simpa [freshEntry] using hview
    exact hy
  · rw [hview'] at hview
    simp at hview

/-- Readers see the same under a key exactly when the same is held under it. -/
theorem view_eq_iff (hinv : Invariant h t) (hinv' : Invariant h t') (key : String) :
    t'.view h key = t.view h key ↔ ∀ x, t'.Holds key x ↔ t.Holds key x := by
  constructor
  · exact fun hview x => ⟨holds_of_view_eq hinv hinv' hview, holds_of_view_eq hinv' hinv hview.symm⟩
  · intro hholds
    rcases view_spec hinv key with ⟨x, hx, hview⟩ | ⟨hview, hnone⟩
    · rw [hview, view_eq_some hinv' ((hholds x).mpr hx)]
    · rw [hview, view_eq_none_iff hinv']
      exact fun x hx => hnone x ((hholds x).mp hx)

/-! ## The entries an insertion keeps -/

/-- Overwriting the entry of one key leaves the others. -/
theorem holds_setEntry {l : Loc} {key : String} {payload : List UInt8} (hkey : t.slotKey l = key)
    (hj : j ≠ key) (x : List UInt8) :
    (t.setEntry (t.indexAt l) (freshEntry key payload)).Holds j x ↔ t.Holds j x := by
  constructor
  · rintro ⟨_, ⟨m, hm, rfl⟩, hstrip⟩
    rw [setEntry_indexAt, setEntry_entryAt] at hstrip
    rw [setEntry_occupied] at hm
    split at hstrip
    · exact (hj (congrArg Prod.fst hstrip).symm).elim
    · exact ⟨_, ⟨m, hm, rfl⟩, hstrip⟩
  · rintro ⟨_, ⟨m, hm, rfl⟩, hstrip⟩
    refine ⟨t.indexAt m, ⟨m, by simpa using hm, by simp⟩, ?_⟩
    rw [setEntry_entryAt, if_neg]
    · exact hstrip
    · intro he
      have hkeys : t.slotKey m = t.slotKey l := congrArg t.keyAt he
      exact hj ((congrArg Prod.fst hstrip).symm.trans (hkeys.trans hkey))

/-- Under another key an insertion keeps what lies in the referenced cells, apart from
the cell it took and the one it drops. -/
theorem holds_displaced {t₁ t₂ : CuckooTable} {key : String} {payload : List UInt8}
    {index : UInt32} (Kept : ℕ → Prop) (halloc : Allocated h t key payload index t₁)
    (harena : SameArena t₁ t₂)
    (hkept : ∀ i, t₂.Referenced i ↔ (t₁.Referenced i ∨ i = index.toNat) ∧ Kept i) (hj : j ≠ key)
    (x : List UInt8) :
    t₂.Holds j x ↔ ∃ i, t.Referenced i ∧ i ≠ index.toNat ∧ Kept i ∧
      strip (t.entryAt i) = (j, x) := by
  have hentry : ∀ i, t₂.entryAt i = t₁.entryAt i := by
    intro i
    rw [entryAt, harena.storage]
    rfl
  constructor
  · rintro ⟨i, hi, hstrip⟩
    rw [hentry] at hstrip
    obtain ⟨href, hk⟩ := (hkept i).mp hi
    have hne : i ≠ index.toNat := by
      rintro rfl
      rw [halloc.entry] at hstrip
      exact hj (congrArg Prod.fst hstrip).symm
    have hold := (halloc.referenced i).mp (href.resolve_right hne)
    exact ⟨i, hold.1, hne, hk, (halloc.frame i hne).symm.trans hstrip⟩
  · rintro ⟨i, href, hne, hk, hstrip⟩
    refine ⟨i, (hkept i).mpr ⟨Or.inl ((halloc.referenced i).mpr ⟨href, hne⟩), hk⟩, ?_⟩
    rw [hentry, halloc.frame i hne]
    exact hstrip

/-- Under its own key an insertion leaves the new payload, unless it drops the new cell. -/
theorem holds_displaced_self {t₁ t₂ : CuckooTable} {key : String} {payload : List UInt8}
    {index : UInt32} (Kept : ℕ → Prop) (halloc : Allocated h t key payload index t₁)
    (harena : SameArena t₁ t₂)
    (hkept : ∀ i, t₂.Referenced i ↔ (t₁.Referenced i ∨ i = index.toNat) ∧ Kept i)
    (x : List UInt8) : t₂.Holds key x ↔ Kept index.toNat ∧ x = payload := by
  have hstrip : strip (t₂.entryAt index.toNat) = (key, payload) := by
    rw [entryAt, harena.storage]
    exact congrArg strip halloc.entry
  constructor
  · rintro ⟨i, hi, hx⟩
    obtain ⟨⟨l, hl, rfl⟩ | rfl, hk⟩ := (hkept i).mp hi
    · refine (halloc.carried.key_ne l hl ?_).elim
      rw [entryAt, harena.storage] at hx
      exact (congrArg Prod.fst hx).trans halloc.keyAt
    · exact ⟨hk, (Prod.mk.inj (hx.symm.trans hstrip)).2⟩
  · rintro ⟨hk, rfl⟩
    exact ⟨index.toNat, (hkept _).mpr ⟨Or.inr rfl, hk⟩, hstrip⟩

/-- A cell that some slot refers to is handed out by the CLOCK scan only. -/
theorem Allocates.evicts (hinv : Invariant h t) {key : String} {payload : List UInt8}
    {index : UInt32} (ha : Allocates h t key payload index t') (href : t.Referenced index.toNat) :
    t.freeListSize = 0 ∧ t.storageSize = t.maxCapacity ∧ 0 < t.maxCapacity ∧
      index.toNat = t.clockVictim := by
  obtain ⟨l, hl, he⟩ := href
  cases ha with
  | free hfree hindex =>
    exact (hinv.free_unused _ l (by omega) hl (he.trans hindex.symm)).elim
  | grow hfree hroom hindex =>
    have hlt := hinv.slot_lt l hl
    omega
  | evict hfree hfull hpos hindex hclear => exact ⟨hfree, hfull, hpos, hindex⟩

/-- No other referenced cell has the contents of a referenced one. -/
theorem Invariant.strip_ne (hinv : Invariant h t) {c i : ℕ} (hc : t.Referenced c)
    (hi : t.Referenced i) (hne : i ≠ c) : (strip (t.entryAt i)).1 ≠ (strip (t.entryAt c)).1 := by
  obtain ⟨l, hl, rfl⟩ := hc
  obtain ⟨m, hm, rfl⟩ := hi
  intro he
  rw [hinv.key_inj m l hm hl he] at hne
  exact hne rfl

/-! ## Successful insertions -/

theorem insert_keeps (hinv : Invariant h t) {key : String} {entry : SecretEntry}
    (hins : t.insert h key entry = .ok (true, t')) (hj : j ≠ key) :
    (∀ x, t'.Holds j x ↔ t.Holds j x) ∨
      ((∀ x, ¬ t.Holds key x) ∧ t.freeListSize = 0 ∧ t.storageSize = t.maxCapacity ∧
        0 < t.maxCapacity ∧ j = t.keyAt t.clockVictim) := by
  rcases insert_cases hinv key entry with
    ⟨l, hocc, hkey, hrun⟩ | ⟨habsent, ⟨-, hrun⟩ | ⟨index, t₁, -, ha, hrun⟩⟩
  · rw [hrun] at hins
    obtain ⟨-, rfl⟩ := Prod.mk.inj (Except.ok.inj hins)
    exact Or.inl (holds_setEntry hkey hj)
  · rw [hrun] at hins
    cases hins
  · have halloc := ha.allocated hinv habsent
    obtain ⟨success, t₂, hdisplace, -, hd⟩ :=
      displace_spec 256 0 t₁ index (getTag (h.hash1Full key)) key halloc.inv
        halloc.carried rfl halloc.keyAt
    rw [hrun, hdisplace] at hins
    obtain ⟨rfl, rfl⟩ := Prod.mk.inj (Except.ok.inj hins)
    have hholds : ∀ x, t₂.Holds j x ↔ _ := holds_displaced (fun _ => True) halloc hd.arena
      (fun i => by rw [hd.placed rfl i, and_true]) hj
    by_cases hvictim : t.Referenced index.toNat ∧ t.keyAt index.toNat = j
    · right
      obtain ⟨hfree, hfull, hpos, hindex⟩ := ha.evicts hinv hvictim.1
      exact ⟨not_holds_of_absent habsent, hfree, hfull, hpos, hindex ▸ hvictim.2.symm⟩
    · left
      intro x
      rw [hholds x]
      constructor
      · rintro ⟨i, href, -, -, hstrip⟩
        exact ⟨i, href, hstrip⟩
      · rintro ⟨i, href, hstrip⟩
        refine ⟨i, href, ?_, trivial, hstrip⟩
        rintro rfl
        exact hvictim ⟨href, congrArg Prod.fst hstrip⟩

/-- After a successful insertion the key has the new payload, and every other lookup
answers as before, except for the key of the entry that the CLOCK scan chose when the
key was new and no storage cell was left. -/
theorem run_insertKeeps (h : Hashing) (size cap : ℕ)
    (hcap : (CuckooTable.new size cap).maxCapacity ≤ u32Max.toNat) (ops : List Op)
    (t : CuckooTable) (hrun : (CuckooTable.new size cap).run h ops = .ok t) (key : String)
    (entry : SecretEntry) (t' : CuckooTable) (hins : t.insert h key entry = .ok (true, t')) :
    t'.view h key = .ok (some (freshEntry key entry.payload)) ∧
      ∀ j, j ≠ key → t'.view h j = t.view h j ∨
        (t.view h key = .ok none ∧ t.freeListSize = 0 ∧ t.storageSize = t.maxCapacity ∧
          ∃ victimIdx storage clockHand,
            clockScan t.maxCapacity (t.maxCapacity * 2) t.storage t.clockHand =
              .ok (victimIdx, storage, clockHand) ∧ j = t.keyAt victimIdx.toNat) := by
  rcases run_reaches hcap hrun with ⟨-, hinv⟩ | ⟨-, rfl⟩
  · obtain ⟨success, t₂, hins₂, hspec⟩ := insert_spec hinv key entry
    rw [hins] at hins₂
    obtain ⟨rfl, rfl⟩ := Prod.mk.inj (Except.ok.inj hins₂)
    refine ⟨view_eq_some hspec.inv (hspec.success rfl), ?_⟩
    intro j hj
    rw [view_eq_iff hinv hspec.inv, view_eq_none_iff hinv]
    refine (insert_keeps hinv hins hj).imp_right ?_
    rintro ⟨habsent, hfree, hfull, hpos, rfl⟩
    have hlead : Clock.lead t.maxCapacity (flags t.storage) t.clockHand ≤ t.maxCapacity :=
      Clock.lead_le
    refine ⟨habsent, hfree, hfull, _, _, _, clockScan_swept hinv hpos hfull (by omega), ?_⟩
    rw [hinv.toNat_ofNat (clockVictim_lt hpos)]
  · rw [insert, search_new_zero] at hins
    cases hins

theorem run_insertKeeps_evicting : ∃ t t',
    (CuckooTable.new 1 1).run ⟨fun _ => 0, fun _ => 0⟩ [.insert "a" ⟨"a", [1], true⟩] = .ok t ∧
      t.insert ⟨fun _ => 0, fun _ => 0⟩ "b" ⟨"b", [2], true⟩ = .ok (true, t') ∧
      t'.view ⟨fun _ => 0, fun _ => 0⟩ "b" = .ok (some (freshEntry "b" [2])) :=
  ⟨_, _, rfl, rfl, (run_insertKeeps ⟨fun _ => 0, fun _ => 0⟩ 1 1 (by decide)
    [.insert "a" ⟨"a", [1], true⟩] _ rfl "b" ⟨"b", [2], true⟩ _ rfl).1⟩

section Wide

open Overflow (key secret hashing filled emptyBucket)

theorem findKey_unoccupied (storage : Block SecretEntry) {bucket : Bucket}
    (hempty : ∀ j, (bucket j).index = u32Max) (tag : UInt32) (k : String) (slots : List (Fin 8)) :
    findKey storage bucket tag k slots = .ok none := by
  induction slots with
  | nil => rfl
  | cons j rest ih => rw [findKey, if_neg (fun hj => hj.1 (hempty j)), ih]

theorem view_eq_none_of_search {k : String} (hsearch : t.search h k = .ok none) :
    t.view h k = .ok none := by
  rw [view, lookup, lookupMap, hsearch]
  rfl

/-- The key that gets the index of an empty slot is not found again. -/
theorem view_filled_last {size cap n : ℕ} (hn : UInt32.ofNat n = u32Max) (hsize : n < size)
    (hcap : n < cap) (hword : n < 2 ^ 64) :
    ∃ t', (filled size cap n).insert hashing.toHashing (key n) secret = .ok (true, t') ∧
      t'.view hashing.toHashing (key n) = .ok none := by
  have hempty : ∀ j, (Function.update emptyBucket 0 ⟨Overflow.tag n, UInt32.ofNat n⟩ j).index =
      u32Max := by
    intro j
    rw [Function.update_apply]
    split
    · exact hn
    · rfl
  refine ⟨_, Overflow.insert_filled hsize hcap hword, view_eq_none_of_search
    (Overflow.search_eq_none hsize hword ?_ (findKey_unoccupied _ hempty _ _ _) ?_)⟩
  · exact Block.read_eq_ok hsize (Block.set_cell_self _ _ _)
  · exact Block.read_eq_ok (Nat.zero_lt_of_lt hsize) (if_pos (Nat.zero_lt_of_lt hsize))

/-- In a table with `2 ^ 32` storage cells the insertion of the last key succeeds and a
lookup does not find it. -/
theorem insert_lastCell : ∃ t t',
    (CuckooTable.new (2 ^ 32) (2 ^ 32)).run hashing.toHashing
        (fillOps key secret (2 ^ 32 - 1)) = .ok t ∧
      t.insert hashing.toHashing (key (2 ^ 32 - 1)) secret = .ok (true, t') ∧
      t'.view hashing.toHashing (key (2 ^ 32 - 1)) = .ok none := by
  have hnew : CuckooTable.new (2 ^ 32) (2 ^ 32) = filled (2 ^ 32) (2 ^ 32) 0 := by
    rw [Overflow.filled_zero]
    rfl
  obtain ⟨t', hins, hview⟩ := view_filled_last (n := 2 ^ 32 - 1) (by decide)
    (by decide : 2 ^ 32 - 1 < 2 ^ 32) (by decide : 2 ^ 32 - 1 < 2 ^ 32) (by decide)
  refine ⟨_, t', ?_, hins, hview⟩
  rw [hnew]
  exact run_filled _ (by decide) (by decide) (by decide)

end Wide

/-! ## Rejected insertions -/

/-- A rejection that readers do not notice: the table has no storage at all, or the new
entry gets a cell that no slot refers to and is itself what the last round of the
displacement carries away. -/
def RejectsCleanly (h : Hashing) (t : CuckooTable) (key : String) : Prop :=
  t.maxCapacity = 0 ∨
    ¬ t.Referenced t.nextCell.toNat ∧ t.willCarry h key 256 = t.nextCell

/-- The contents of a dropped cell are visible no more. -/
theorem view_ne_of_dropped (hinv : Invariant h t) (hinv' : Invariant h t') {c : ℕ}
    (hc : t.Referenced c) (hgone : ∀ x, t'.Holds (t.keyAt c) x → ∃ i, t.Referenced i ∧ i ≠ c ∧
      strip (t.entryAt i) = (t.keyAt c, x)) : t'.view h (t.keyAt c) ≠ t.view h (t.keyAt c) := by
  intro hview
  have hheld : t.Holds (t.keyAt c) (t.entryAt c).payload := ⟨c, hc, rfl⟩
  obtain ⟨i, hi, hne, hstrip⟩ := hgone _ (((view_eq_iff hinv hinv' _).mp hview _).mpr hheld)
  exact hinv.strip_ne hc hi hne (congrArg Prod.fst hstrip)

theorem rejected_iff (hinv : Invariant h t) {key : String} {entry : SecretEntry}
    (hins : t.insert h key entry = .ok (false, t')) :
    (∀ j, t'.view h j = t.view h j) ↔ t.RejectsCleanly h key := by
  rcases insert_cases hinv key entry with
    ⟨l, hocc, hkey, hrun⟩ | ⟨habsent, ⟨hzero, hrun⟩ | ⟨index, t₁, -, ha, hrun⟩⟩
  · rw [hrun] at hins
    cases hins
  · rw [hrun] at hins
    obtain ⟨-, rfl⟩ := Prod.mk.inj (Except.ok.inj hins)
    exact iff_of_true (fun _ => rfl) (Or.inl hzero)
  · have halloc := ha.allocated hinv habsent
    have hgive := givesUp_of_displace halloc (hrun.symm.trans hins)
    have hlast := carriedAfter_allocated hinv ha halloc (hgive.noRoom 0 (by decide)) 256
    rw [RejectsCleanly, ← hlast, ← ha.index_eq]
    have hholds : ∀ j, j ≠ key → ∀ x, t'.Holds j x ↔ _ := fun j hj =>
      holds_displaced (fun i => i ≠ (t₁.carriedAfter h index 256).toNat) halloc hgive.arena
        hgive.referenced hj
    have hne : ∀ c, t.Referenced c → t.keyAt c ≠ key := by
      rintro _ ⟨l, hl, rfl⟩
      exact habsent l hl
    constructor
    · intro hview
      refine Or.inr ⟨?_, ?_⟩
      · intro href
        refine view_ne_of_dropped hinv hgive.inv href ?_ (hview _)
        intro x hx
        obtain ⟨i, hi, hindex, -, hstrip⟩ := (hholds _ (hne _ href) x).mp hx
        exact ⟨i, hi, hindex, hstrip⟩
      · refine hgive.lost.resolve_right fun hlost => ?_
        have href := ((halloc.referenced _).mp hlost).1
        refine view_ne_of_dropped hinv hgive.inv href ?_ (hview _)
        intro x hx
        obtain ⟨i, hi, -, hkept, hstrip⟩ := (hholds _ (hne _ href) x).mp hx
        exact ⟨i, hi, hkept, hstrip⟩
    · rintro (hzero | ⟨hunused, hown⟩) j
      · exact absurd (ha.maxCapacity_pos hinv) (by omega)
      · rw [view_eq_iff hinv hgive.inv]
        intro x
        by_cases hj : j = key
        · subst hj
          refine iff_of_false ?_ (not_holds_of_absent habsent x)
          rw [holds_displaced_self _ halloc hgive.arena hgive.referenced, hown]
          exact fun hx => hx.1 rfl
        · rw [hholds j hj, hown]
          constructor
          · rintro ⟨i, href, -, -, hstrip⟩
            exact ⟨i, href, hstrip⟩
          · rintro ⟨i, href, hstrip⟩
            have hi : i ≠ index.toNat := by
              rintro rfl
              exact hunused href
            exact ⟨i, href, hi, hi, hstrip⟩

/-- A rejected insertion leaves every lookup as it was exactly when it rejects cleanly. -/
theorem run_rejected_iff (h : Hashing) (size cap : ℕ)
    (hcap : (CuckooTable.new size cap).maxCapacity ≤ u32Max.toNat) (ops : List Op)
    (t : CuckooTable) (hrun : (CuckooTable.new size cap).run h ops = .ok t) (key : String)
    (entry : SecretEntry) (t' : CuckooTable) (hins : t.insert h key entry = .ok (false, t')) :
    (∀ j, t'.view h j = t.view h j) ↔ t.RejectsCleanly h key := by
  rcases run_reaches hcap hrun with ⟨-, hinv⟩ | ⟨-, rfl⟩
  · exact rejected_iff hinv hins
  · rw [insert, search_new_zero] at hins
    cases hins

section Crowded

open Crowding
open Overflow (key secret)

/-- The seventeenth key for full buckets is exchanged with the first slot and stays there
when the insertion is rejected; another key is gone. -/
theorem insert_pinning_drops : ∃ t t',
    (CuckooTable.new 3 17).run (hashing pinning fun _ => 0) (fillOps key secret 16) = .ok t ∧
      t.insert (hashing pinning fun _ => 0) (key 16) secret = .ok (false, t') ∧
      ∃ j, t'.view (hashing pinning fun _ => 0) j ≠ t.view (hashing pinning fun _ => 0) j := by
  obtain ⟨t, hrun, ht, hmax⟩ := crowds_pinning.run
  obtain ⟨t', hins, hgive⟩ := insert_crowded crowds_pinning ht hmax le_rfl fun _ _ => rfl
  refine ⟨t, t', hrun, hins, ?_⟩
  by_contra hsame
  have hview : ∀ j, t'.view (hashing pinning fun _ => 0) j =
      t.view (hashing pinning fun _ => 0) j := fun j => not_not.mp fun hne => hsame ⟨j, hne⟩
  rcases (rejected_iff ht.inv hins).mp hview with hzero | ⟨-, hown⟩
  · omega
  · rw [nextCell_crowded ht hmax, willCarry_crowded crowds_pinning ht hmax le_rfl hgive,
      trades_pinning] at hown
    exact absurd hown (by decide)

/-- With hashes that bring the new entry back in the last round nothing is lost. -/
theorem run_rejected_iff_turning : ∃ t t',
    (CuckooTable.new 3 17).run (hashing turning straying) (fillOps key secret 16) = .ok t ∧
      t.insert (hashing turning straying) (key 16) secret = .ok (false, t') ∧
      t.RejectsCleanly (hashing turning straying) (key 16) ∧
      ∀ j, t'.view (hashing turning straying) j = t.view (hashing turning straying) j := by
  obtain ⟨t, hrun, ht, hmax⟩ := crowds_turning.run
  obtain ⟨t', hins, hgive⟩ := insert_crowded crowds_turning ht hmax le_rfl
    fun n _ => straying_trades n
  have hunused : ¬ t.Referenced (16 : UInt32).toNat := by
    rintro ⟨l, hl, he⟩
    have hlt := ht.inv.slot_lt l hl
    rw [ht.storageSize, he] at hlt
    exact absurd hlt (by decide)
  have hclean : t.RejectsCleanly (hashing turning straying) (key 16) := by
    refine Or.inr ?_
    rw [nextCell_crowded ht hmax, willCarry_crowded crowds_turning ht hmax le_rfl hgive]
    exact ⟨hunused, congrArg Prod.snd (trades_turning 128)⟩
  exact ⟨t, t', hrun, hins, hclean, (run_rejected_iff (hashing turning straying) 3 17 (by decide)
    (fillOps key secret 16) t hrun (key 16) secret t' hins).mpr hclean⟩

end Crowded

end Kallisto.Cuckoo.CuckooTable
