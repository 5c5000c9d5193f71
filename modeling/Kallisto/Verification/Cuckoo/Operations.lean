import Kallisto.Verification.Cuckoo.Allocation

/-! # Specifications of the public operations

Each operation returns without a fault, keeps the invariant, and changes the held
entries as a lossy map would. -/

namespace Kallisto.Cuckoo.CuckooTable

open RawMemory

variable {h : Hashing} {t : CuckooTable}

/-! ## Held entries -/

/-- Some slot refers to an entry with this key and payload. -/
def Holds (t : CuckooTable) (key : String) (payload : List UInt8) : Prop :=
  ∃ i, t.Referenced i ∧ strip (t.entryAt i) = (key, payload)

theorem Invariant.holds_unique (hinv : Invariant h t) {key : String} {x y : List UInt8}
    (hx : t.Holds key x) (hy : t.Holds key y) : x = y := by
  obtain ⟨_, ⟨l, hl, rfl⟩, hlx⟩ := hx
  obtain ⟨_, ⟨m, hm, rfl⟩, hmy⟩ := hy
  have hkeys : t.slotKey l = t.slotKey m :=
    (congrArg Prod.fst hlx).trans (congrArg Prod.fst hmy).symm
  obtain rfl := hinv.key_inj l m hl hm hkeys
  exact (Prod.mk.inj (hlx.symm.trans hmy)).2

/-- A slot found for a key holds the payload of that key. -/
theorem holds_iff_of_slotKey (hinv : Invariant h t) {l : Loc} (hl : t.Occupied l)
    (x : List UInt8) :
    t.Holds (t.slotKey l) x ↔ (t.entryAt (t.indexAt l)).payload = x := by
  have hself : t.Holds (t.slotKey l) (t.entryAt (t.indexAt l)).payload :=
    ⟨_, ⟨l, hl, rfl⟩, rfl⟩
  constructor
  · exact hinv.holds_unique hself
  · rintro rfl
    exact hself

theorem not_holds_of_absent {key : String} (habsent : ∀ l, t.Occupied l → t.slotKey l ≠ key)
    (x : List UInt8) : ¬ t.Holds key x := by
  rintro ⟨_, ⟨l, hl, rfl⟩, hstrip⟩
  exact habsent l hl (congrArg Prod.fst hstrip)

/-- Entries are held alike when the referenced cells and their contents agree. -/
theorem holds_congr {t' : CuckooTable} (href : ∀ i, t'.Referenced i ↔ t.Referenced i)
    (hstrip : ∀ i, strip (t'.entryAt i) = strip (t.entryAt i)) (key : String)
    (x : List UInt8) : t'.Holds key x ↔ t.Holds key x := by
  simp only [Holds, href, hstrip]

/-! ## Lookup -/

/-- Setting the flag of one entry is invisible to readers. -/
theorem sameContents_touch (hinv : Invariant h t) {i : ℕ} (hi : i < t.storageSize) :
    SameContents t.storage (t.storage.set i { t.entryAt i with referenced := true }) := by
  obtain ⟨e, he⟩ := Option.isSome_iff_exists.mp ((hinv.storage_init i).mpr hi)
  apply sameContents_set he
  simp [entryAt, he, strip]

/-- What a lookup can do: touch the entry of the key, or nothing. -/
theorem lookupMap_cases {R : Type} (hinv : Invariant h t) (key : String) (f : SecretEntry → R) :
    (∃ l, t.Occupied l ∧ t.slotKey l = key ∧ t.lookupMap h key f =
        .ok (some (f { t.entryAt (t.indexAt l) with referenced := true }),
          t.setEntry (t.indexAt l) { t.entryAt (t.indexAt l) with referenced := true })) ∨
      (∀ l, t.Occupied l → t.slotKey l ≠ key) ∧ t.lookupMap h key f = .ok (none, t) := by
  rw [lookupMap]
  rcases search_spec hinv key with ⟨l, hocc, hkey, hsearch⟩ | ⟨hsearch, habsent⟩
  · have hlt := hinv.slot_lt l hocc
    refine Or.inl ⟨l, hocc, hkey, ?_⟩
    rw [hsearch, ok_bind]
    change (t.storage.read (t.indexAt l) >>= _) = _
    rw [hinv.read_storage hlt, ok_bind]
    change (t.storage.assign (t.indexAt l) _ >>= _) = _
    rw [hinv.assign_storage _ hlt, ok_bind]
    rfl
  · refine Or.inr ⟨habsent, ?_⟩
    rw [hsearch]
    rfl

theorem lookupMap_spec {R : Type} (hinv : Invariant h t) (key : String) (f : SecretEntry → R) :
    ∃ r t', t.lookupMap h key f = .ok (r, t') ∧ Invariant h t' ∧ SameShape t t' ∧
      (∀ j x, t'.Holds j x ↔ t.Holds j x) ∧
      ((∃ e, r = some (f e) ∧ e.key = key ∧ t.Holds key e.payload) ∨
        (r = none ∧ ∀ x, ¬ t.Holds key x)) := by
  rcases lookupMap_cases hinv key f with ⟨l, hocc, rfl, hrun⟩ | ⟨habsent, hrun⟩
  · have hsame := sameContents_touch hinv (hinv.slot_lt l hocc)
    exact ⟨_, _, hrun, hinv.withStorage hsame, ⟨rfl, rfl⟩,
      holds_congr (fun _ => Iff.rfl) hsame.strip_entryAt,
      Or.inl ⟨_, rfl, rfl, (holds_iff_of_slotKey hinv hocc _).mpr rfl⟩⟩
  · exact ⟨none, t, hrun, hinv, ⟨rfl, rfl⟩, fun _ _ => Iff.rfl,
      Or.inr ⟨rfl, not_holds_of_absent habsent⟩⟩

theorem lookup_spec (hinv : Invariant h t) (key : String) :
    ∃ r t', t.lookup h key = .ok (r, t') ∧ Invariant h t' ∧ SameShape t t' ∧
      (∀ j x, t'.Holds j x ↔ t.Holds j x) ∧
      ((∃ e, r = some e ∧ e.key = key ∧ t.Holds key e.payload) ∨
        (r = none ∧ ∀ x, ¬ t.Holds key x)) :=
  lookupMap_spec hinv key id

/-! ## Insertion -/

/-- An insertion leaves nothing but the new payload under its key and adds nothing
under any other key; on success the new payload is held. -/
structure Inserted (h : Hashing) (t : CuckooTable) (key : String) (payload : List UInt8)
    (success : Bool) (t' : CuckooTable) : Prop where
  inv : Invariant h t'
  shape : SameShape t t'
  self : ∀ x, t'.Holds key x → x = payload
  other : ∀ j x, j ≠ key → t'.Holds j x → t.Holds j x
  success : success = true → t'.Holds key payload

theorem inserted_in_place (hinv : Invariant h t) {l : Loc} (hocc : t.Occupied l)
    (payload : List UInt8) :
    Inserted h t (t.slotKey l) payload true
      (t.setEntry (t.indexAt l) (freshEntry (t.slotKey l) payload)) := by
  have hlt := hinv.slot_lt l hocc
  have hinv' : Invariant h (t.setEntry (t.indexAt l) (freshEntry (t.slotKey l) payload)) :=
    hinv.setEntry hlt fun m hm he => by rw [hinv.index_inj hm hocc he]; rfl
  have hself : (t.setEntry (t.indexAt l) (freshEntry (t.slotKey l) payload)).Holds
      (t.slotKey l) payload := by
    refine ⟨t.indexAt l, ⟨l, by simpa using hocc, by simp⟩, ?_⟩
    rw [setEntry_entryAt, if_pos rfl]
    rfl
  refine ⟨hinv', ⟨rfl, rfl⟩, fun x hx => hinv'.holds_unique hx hself, ?_, fun _ => hself⟩
  rintro j x hj ⟨_, ⟨m, hm, rfl⟩, hstrip⟩
  rw [setEntry_indexAt, setEntry_entryAt] at hstrip
  rw [setEntry_occupied] at hm
  split at hstrip
  · exact (hj (congrArg Prod.fst hstrip).symm).elim
  · exact ⟨_, ⟨m, hm, rfl⟩, hstrip⟩

/-- What is held after displacement was held before or is the carried entry. -/
theorem holds_of_displaced {index : UInt32} {success : Bool} {t' : CuckooTable}
    (hd : Displaced t index success t') {key : String} {x : List UInt8}
    (hx : t'.Holds key x) :
    ∃ i, (t.Referenced i ∨ i = index.toNat) ∧ strip (t.entryAt i) = (key, x) := by
  obtain ⟨i, hi, hstrip⟩ := hx
  refine ⟨i, ?_, ?_⟩
  · cases success with
    | true => exact (hd.placed rfl i).mp hi
    | false =>
      obtain ⟨lost, _, hrest⟩ := hd.dropped rfl
      exact ((hrest i).mp hi).1
  · rw [← hstrip, entryAt, entryAt, hd.arena.storage]

theorem inserted_displaced {t₁ t₂ : CuckooTable} {key : String} {payload : List UInt8}
    {index : UInt32} {success : Bool} (halloc : Allocated h t key payload index t₁)
    (hinv₂ : Invariant h t₂) (hd : Displaced t₁ index success t₂) :
    Inserted h t key payload success t₂ where
  inv := hinv₂
  shape := ⟨hd.arena.capacity.trans halloc.shape.capacity,
    hd.arena.maxCapacity.trans halloc.shape.maxCapacity⟩
  self x hx := by
    obtain ⟨i, hi, hstrip⟩ := holds_of_displaced hd hx
    rcases hi with ⟨l, hl, rfl⟩ | rfl
    · have hkey := congrArg Prod.fst hstrip
      have hne := halloc.carried.key_ne l hl
      rw [keyAt, halloc.entry] at hne
      exact (hne hkey).elim
    · rw [halloc.entry] at hstrip
      exact (Prod.mk.inj hstrip).2.symm
  other j x hj hx := by
    obtain ⟨i, hi, hstrip⟩ := holds_of_displaced hd hx
    rcases hi with hi | rfl
    · obtain ⟨hold, hne⟩ := (halloc.referenced i).mp hi
      exact ⟨i, hold, (halloc.frame i hne).symm.trans hstrip⟩
    · rw [halloc.entry] at hstrip
      exact (hj (congrArg Prod.fst hstrip).symm).elim
  success hsuccess := by
    refine ⟨index.toNat, (hd.placed hsuccess _).mpr (Or.inr rfl), ?_⟩
    rw [entryAt, hd.arena.storage]
    exact congrArg strip halloc.entry

/-- What an insertion can do: overwrite the entry of the key, be rejected by a table
without storage, or place the new entry by displacement. -/
theorem insert_cases (hinv : Invariant h t) (key : String) (entry : SecretEntry) :
    (∃ l, t.Occupied l ∧ t.slotKey l = key ∧ t.insert h key entry =
        .ok (true, t.setEntry (t.indexAt l) (freshEntry key entry.payload))) ∨
      (∀ l, t.Occupied l → t.slotKey l ≠ key) ∧
        (t.maxCapacity = 0 ∧ t.insert h key entry = .ok (false, t) ∨
          ∃ index t₁, t.allocate h key entry.payload = .ok (some index, t₁) ∧
            Allocates h t key entry.payload index t₁ ∧
            t.insert h key entry = displace h 256 0 t₁ index (getTag (h.hash1Full key)) key) := by
  rw [insert]
  rcases search_spec hinv key with ⟨l, hocc, rfl, hsearch⟩ | ⟨hsearch, habsent⟩
  · refine Or.inl ⟨l, hocc, rfl, ?_⟩
    rw [hsearch, ok_bind]
    change (t.storage.assign (t.indexAt l) _ >>= _) = _
    rw [hinv.assign_storage _ (hinv.slot_lt l hocc), ok_bind]
    rfl
  · refine Or.inr ⟨habsent, ?_⟩
    rw [hsearch, ok_bind]
    rcases allocate_cases hinv key entry.payload with ⟨index, t₁, hrun, ha⟩ | ⟨hzero, hrun⟩
    · refine Or.inr ⟨index, t₁, hrun, ha, ?_⟩
      simp only [hrun, ok_bind]
    · refine Or.inl ⟨hzero, ?_⟩
      simp only [hrun, ok_bind]
      rfl

/-- The key of a freshly allocated cell. -/
theorem Allocated.keyAt {t₁ : CuckooTable} {key : String} {payload : List UInt8} {index : UInt32}
    (ha : Allocated h t key payload index t₁) : key = t₁.keyAt index.toNat := by
  rw [CuckooTable.keyAt, ha.entry]
  rfl

theorem insert_spec (hinv : Invariant h t) (key : String) (entry : SecretEntry) :
    ∃ success t', t.insert h key entry = .ok (success, t') ∧
      Inserted h t key entry.payload success t' := by
  rcases insert_cases hinv key entry with
    ⟨l, hocc, rfl, hrun⟩ | ⟨habsent, ⟨-, hrun⟩ | ⟨index, t₁, -, ha, hrun⟩⟩
  · exact ⟨true, _, hrun, inserted_in_place hinv hocc entry.payload⟩
  · refine ⟨false, t, hrun, hinv, ⟨rfl, rfl⟩, ?_, fun _ _ _ hx => hx, by simp⟩
    exact fun x hx => (not_holds_of_absent habsent x hx).elim
  · have halloc := ha.allocated hinv habsent
    obtain ⟨success, t₂, hdisplace, hinv₂, hd⟩ :=
      displace_spec 256 0 t₁ index (getTag (h.hash1Full key)) key halloc.inv
        halloc.carried rfl halloc.keyAt
    exact ⟨success, t₂, hrun.trans hdisplace, inserted_displaced halloc hinv₂ hd⟩

/-! ## Removal -/

/-- What a removal can do: empty the slot of the key and free its cell, or nothing. -/
theorem remove_cases (hinv : Invariant h t) (key : String) :
    (∃ l, t.Occupied l ∧ t.slotKey l = key ∧ t.remove h key =
        .ok (true, (t.setSlot l .empty).pushFree (t.slotAt l).index)) ∨
      (∀ l, t.Occupied l → t.slotKey l ≠ key) ∧ t.remove h key = .ok (false, t) := by
  rw [remove]
  rcases search_spec hinv key with ⟨l, hocc, rfl, hsearch⟩ | ⟨hsearch, habsent⟩
  · have hbucket := hinv.bucket_lt hocc
    have hhome := hinv.slot_home l hocc
    have hfreeLt : t.freeListSize < t.maxCapacity := by
      have hlt := hinv.freeListSize_lt (hinv.slot_lt l hocc)
        (fun i hi => (hinv.free_unused i l hi hocc).symm)
      exact hlt.trans_le hinv.storageSize_le
    refine Or.inl ⟨l, hocc, rfl, ?_⟩
    rw [hsearch, ok_bind]
    dsimp only
    rw [hhome, hinv.read_bucket l.side hbucket, ok_bind, hinv.write_bucket l.side _ hbucket,
      ok_bind, Block.write_eq_ok _ (by rw [hinv.freeList_size]; exact hfreeLt), ok_bind]
    obtain ⟨side, b, j⟩ := l
    cases side <;> rfl
  · refine Or.inr ⟨habsent, ?_⟩
    rw [hsearch]
    rfl

/-- Emptying a slot and freeing its cell keeps the invariant. -/
theorem Invariant.removed (hinv : Invariant h t) {l : Loc} (hl : t.Occupied l) :
    Invariant h ((t.setSlot l .empty).pushFree (t.slotAt l).index) :=
  (hinv.setSlot (hinv.bucket_lt hl) fun hne => (hne rfl).elim).pushFree
    (carried_of_setSlot hinv hl fun hne => (hne rfl).elim)

theorem remove_spec (hinv : Invariant h t) (key : String) :
    ∃ r t', t.remove h key = .ok (r, t') ∧ Invariant h t' ∧ SameShape t t' ∧
      (∀ x, ¬ t'.Holds key x) ∧ ∀ j x, j ≠ key → (t'.Holds j x ↔ t.Holds j x) := by
  rcases remove_cases hinv key with ⟨l, hocc, rfl, hrun⟩ | ⟨habsent, hrun⟩
  · have href : ∀ i, ((t.setSlot l .empty).pushFree (t.slotAt l).index).Referenced i ↔
        t.Referenced i ∧ i ≠ t.indexAt l := referenced_clearSlot hinv hocc
    have hentry : ∀ i, ((t.setSlot l .empty).pushFree (t.slotAt l).index).entryAt i =
        t.entryAt i := setSlot_entryAt t l .empty
    refine ⟨true, _, hrun, hinv.removed hocc,
      ⟨setSlot_capacity t l _, setSlot_maxCapacity t l _⟩, ?_, ?_⟩
    · rintro x ⟨_, hi, hstrip⟩
      obtain ⟨⟨m, hm, rfl⟩, hne⟩ := (href _).mp hi
      rw [hentry] at hstrip
      exact hne (congrArg t.indexAt (hinv.key_inj m l hm hocc (congrArg Prod.fst hstrip)))
    · intro j x hj
      constructor
      · rintro ⟨i, hi, hstrip⟩
        rw [hentry] at hstrip
        exact ⟨i, ((href i).mp hi).1, hstrip⟩
      · rintro ⟨i, hi, hstrip⟩
        refine ⟨i, (href i).mpr ⟨hi, ?_⟩, by rw [hentry]; exact hstrip⟩
        rintro rfl
        exact hj (congrArg Prod.fst hstrip).symm
  · exact ⟨false, t, hrun, hinv, ⟨rfl, rfl⟩, not_holds_of_absent habsent, fun _ _ _ => Iff.rfl⟩

end Kallisto.Cuckoo.CuckooTable
