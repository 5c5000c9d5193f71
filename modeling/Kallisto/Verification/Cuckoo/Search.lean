import Kallisto.Verification.Cuckoo.Invariant

/-! # Searching and displacing

Under the invariant no access of the search and displacement loops faults. The
search finds a key exactly when some slot refers to it, and displacement only
permutes the storage indices that slots refer to, dropping at most one of them. -/

namespace Kallisto.Cuckoo.CuckooTable

open RawMemory

variable {h : Hashing} {t : CuckooTable} {l : Loc}

/-! ## Searching -/

instance (t : CuckooTable) (l : Loc) : Decidable (t.Occupied l) :=
  inferInstanceAs (Decidable (_ ≠ _))

theorem findKey_eq (hinv : Invariant h t) (side : Side) (b : ℕ) (tag : UInt32)
    (key : String) (slots : List (Fin 8)) :
    findKey t.storage (t.bucketAt side b) tag key slots =
      .ok (slots.find? fun i => decide (t.Occupied ⟨side, b, i⟩ ∧
        (t.slotAt ⟨side, b, i⟩).tag = tag ∧ t.slotKey ⟨side, b, i⟩ = key)) := by
  induction slots with
  | nil => rfl
  | cons i rest ih =>
    rw [findKey, ih, List.find?_cons]
    by_cases hslot : (t.bucketAt side b i).index ≠ u32Max ∧ (t.bucketAt side b i).tag = tag
    · have hocc : t.Occupied ⟨side, b, i⟩ := hslot.1
      have htag : (t.slotAt ⟨side, b, i⟩).tag = tag := hslot.2
      have hread := hinv.read_storage (hinv.slot_lt ⟨side, b, i⟩ hocc)
      rw [if_pos hslot]
      change (t.storage.read (t.indexAt ⟨side, b, i⟩) >>= _) = _
      rw [hread, ok_bind]
      by_cases hkey : t.slotKey ⟨side, b, i⟩ = key
      · change (if t.slotKey ⟨side, b, i⟩ = key then _ else _) = _
        simp [hocc, htag, hkey]
      · change (if t.slotKey ⟨side, b, i⟩ = key then _ else _) = _
        simp [hkey]
    · rw [if_neg hslot]
      have hfalse : ¬ (t.Occupied ⟨side, b, i⟩ ∧ (t.slotAt ⟨side, b, i⟩).tag = tag ∧
          t.slotKey ⟨side, b, i⟩ = key) := by
        rintro ⟨hocc, htag, _⟩
        exact hslot ⟨hocc, htag⟩
      simp [hfalse]

/-- A slot that refers to a key is found by the search loop over its bucket. -/
theorem findKey_bucket (hinv : Invariant h t) (side : Side) (key : String) :
    ∃ r, findKey t.storage (t.bucketAt side (t.bucketIndex h side key))
        (getTag (h.hash1Full key)) key (List.finRange 8) = .ok r ∧
      (∀ i, r = some i → t.Occupied ⟨side, t.bucketIndex h side key, i⟩ ∧
        t.slotKey ⟨side, t.bucketIndex h side key, i⟩ = key) ∧
      (r = none → ∀ l, l.side = side → t.Occupied l → t.slotKey l ≠ key) := by
  refine ⟨_, findKey_eq hinv side _ _ key _, ?_, ?_⟩
  · intro i hi
    have hfound := List.find?_some hi
    simp only [decide_eq_true_eq] at hfound
    exact ⟨hfound.1, hfound.2.2⟩
  · intro hnone l hside hocc hkey
    obtain ⟨lside, b, i⟩ := l
    change lside = side at hside
    subst lside
    have hhome := hinv.slot_home _ hocc
    have htag := hinv.slot_tag _ hocc
    rw [hkey] at hhome htag
    change t.bucketIndex h side key = b at hhome
    subst b
    have hno := List.find?_eq_none.mp hnone i (List.mem_finRange i)
    simp only [decide_eq_true_eq] at hno
    exact hno ⟨hocc, htag, hkey⟩

/-- The search returns the position of the key, or reports that no slot refers to it. -/
theorem search_spec (hinv : Invariant h t) (key : String) :
    (∃ l, t.Occupied l ∧ t.slotKey l = key ∧
        t.search h key = .ok (some (l.side, l.slot, (t.slotAt l).index))) ∨
      (t.search h key = .ok none ∧ ∀ l, t.Occupied l → t.slotKey l ≠ key) := by
  obtain ⟨r₁, hfind₁, hsome₁, hnone₁⟩ := findKey_bucket hinv .first key
  obtain ⟨r₂, hfind₂, hsome₂, hnone₂⟩ := findKey_bucket hinv .second key
  have hread₁ : t.table1.read (t.bucketIndex h .first key) = .ok _ :=
    hinv.read_bucket .first (hinv.bucketIndex_lt .first key)
  have hread₂ : t.table2.read (t.bucketIndex h .second key) = .ok _ :=
    hinv.read_bucket .second (hinv.bucketIndex_lt .second key)
  cases r₁ with
  | some i =>
    left
    refine ⟨⟨.first, t.bucketIndex h .first key, i⟩, (hsome₁ i rfl).1, (hsome₁ i rfl).2, ?_⟩
    rw [search, hread₁]
    simp only [ok_bind, hfind₁]
    rfl
  | none =>
    cases r₂ with
    | some i =>
      left
      refine ⟨⟨.second, t.bucketIndex h .second key, i⟩, (hsome₂ i rfl).1,
        (hsome₂ i rfl).2, ?_⟩
      rw [search, hread₁]
      simp only [ok_bind, hfind₁, hread₂, hfind₂]
      rfl
    | none =>
      right
      constructor
      · rw [search, hread₁]
        simp only [ok_bind, hfind₁, hread₂, hfind₂]
        rfl
      · intro l hocc
        cases hside : l.side with
        | first => exact hnone₁ rfl l hside hocc
        | second => exact hnone₂ rfl l hside hocc

theorem search_of_occupied (hinv : Invariant h t) (hl : t.Occupied l) :
    t.search h (t.slotKey l) = .ok (some (l.side, l.slot, (t.slotAt l).index)) := by
  rcases search_spec hinv (t.slotKey l) with ⟨m, hm, hkey, hsearch⟩ | ⟨-, habsent⟩
  · rw [hsearch, hinv.key_inj m l hm hl hkey]
  · exact (habsent l hl rfl).elim

theorem search_of_absent (hinv : Invariant h t) {key : String}
    (habsent : ∀ l, t.Occupied l → t.slotKey l ≠ key) : t.search h key = .ok none := by
  rcases search_spec hinv key with ⟨m, hm, hkey, -⟩ | ⟨hsearch, -⟩
  · exact (habsent m hm hkey).elim
  · exact hsearch

/-! ## Referenced storage indices -/

/-- Some slot refers to the storage index. -/
def Referenced (t : CuckooTable) (i : ℕ) : Prop :=
  ∃ l, t.Occupied l ∧ t.indexAt l = i

theorem referenced_setSlot (hinv : Invariant h t) {tag index : UInt32} (hindex : index ≠ u32Max)
    (i : ℕ) :
    (t.setSlot l ⟨tag, index⟩).Referenced i ↔
      (t.Referenced i ∧ (t.Occupied l → i ≠ t.indexAt l)) ∨ i = index.toNat := by
  constructor
  · rintro ⟨m, hm, rfl⟩
    rcases setSlot_occupied hm with ⟨_, _, hidx, _⟩ | ⟨hml, hocc, hidx, _⟩
    · exact Or.inr hidx
    · left
      rw [hidx]
      exact ⟨⟨m, hocc, rfl⟩, fun hl he => hml (hinv.index_inj hocc hl he)⟩
  · rintro (⟨⟨m, hm, rfl⟩, hne⟩ | rfl)
    · have hml : m ≠ l := by
        rintro rfl
        exact hne hm rfl
      refine ⟨m, ?_, ?_⟩
      · rw [Occupied, setSlot_slotAt_of_ne _ _ _ hml]
        exact hm
      · rw [indexAt, setSlot_slotAt_of_ne _ _ _ hml]
        rfl
    · refine ⟨l, ?_, ?_⟩
      · simpa [Occupied] using hindex
      · simp [indexAt]

theorem referenced_clearSlot (hinv : Invariant h t) (hl : t.Occupied l) (i : ℕ) :
    (t.setSlot l .empty).Referenced i ↔ t.Referenced i ∧ i ≠ t.indexAt l := by
  constructor
  · rintro ⟨m, hm, rfl⟩
    rcases setSlot_occupied hm with ⟨_, hne, _, _⟩ | ⟨hml, hocc, hidx, _⟩
    · exact (hne rfl).elim
    · rw [hidx]
      exact ⟨⟨m, hocc, rfl⟩, fun he => hml (hinv.index_inj hocc hl he)⟩
  · rintro ⟨⟨m, hm, rfl⟩, hne⟩
    have hml : m ≠ l := by
      rintro rfl
      exact hne rfl
    refine ⟨m, ?_, ?_⟩
    · rw [Occupied, setSlot_slotAt_of_ne _ _ _ hml]
      exact hm
    · rw [indexAt, setSlot_slotAt_of_ne _ _ _ hml]
      rfl

theorem Carried.not_referenced {index : UInt32} (hc : Carried t index) :
    ¬ t.Referenced index.toNat := by
  rintro ⟨l, hl, he⟩
  exact hc.not_indexAt hl he

/-- Dropping the carried index leaves the referenced ones. -/
theorem Carried.referenced_iff {index : UInt32} (hc : Carried t index) (i : ℕ) :
    t.Referenced i ↔ (t.Referenced i ∨ i = index.toNat) ∧ i ≠ index.toNat := by
  constructor
  · intro hi
    refine ⟨Or.inl hi, ?_⟩
    rintro rfl
    exact hc.not_referenced hi
  · rintro ⟨hi | hi, hne⟩
    · exact hi
    · exact (hne hi).elim

/-- One exchange keeps the set of referenced and carried indices. -/
theorem referenced_exchange (hinv : Invariant h t) {index : UInt32} (hc : Carried t index)
    (hl : t.Occupied l) (tag : UInt32) (i : ℕ) :
    (t.setSlot l ⟨tag, index⟩).Referenced i ∨ i = (t.slotAt l).index.toNat ↔
      t.Referenced i ∨ i = index.toNat := by
  rw [referenced_setSlot hinv (hinv.ne_u32Max hc.lt)]
  constructor
  · rintro ((⟨hi, _⟩ | hi) | hi)
    · exact Or.inl hi
    · exact Or.inr hi
    · exact Or.inl ⟨l, hl, hi.symm⟩
  · rintro (hi | hi)
    · by_cases he : i = t.indexAt l
      · exact Or.inr he
      · exact Or.inl (Or.inl ⟨hi, fun _ => he⟩)
    · exact Or.inl (Or.inr hi)

/-! ## Emptying and filling a slot -/

/-- The index of a slot that is overwritten is carried afterwards. -/
theorem carried_of_setSlot (hinv : Invariant h t) {s : Slot} (hl : t.Occupied l)
    (hs : s.index ≠ u32Max → t.keyAt s.index.toNat ≠ t.slotKey l) :
    Carried (t.setSlot l s) (t.slotAt l).index where
  lt := by
    rw [setSlot_storageSize]
    exact hinv.slot_lt l hl
  key_ne m hm := by
    rw [setSlot_keyAt]
    rcases setSlot_occupied hm with ⟨_, hne, _, hkey⟩ | ⟨hml, hocc, _, hkey⟩
    · rw [hkey]
      exact hs hne
    · rw [hkey]
      exact fun he => hml (hinv.key_inj m l hocc hl he)
  not_free i hi := by
    rw [setSlot_freeAt]
    exact (hinv.free_unused i l (by simpa using hi) hl).symm

/-- A carried index fits every slot of a bucket of its key. -/
theorem Carried.fits {index tag : UInt32} (hc : Carried t index)
    (htag : tag = getTag (h.hash1Full (t.keyAt index.toNat)))
    (hhome : t.bucketIndex h l.side (t.keyAt index.toNat) = l.bucket) :
    Fits h t l ⟨tag, index⟩ where
  lt := hc.lt
  home := hhome
  tag := htag
  key_ne m _ hm := hc.key_ne m hm
  not_free := hc.not_free

theorem findIndex_some {bucket : Bucket} {index : UInt32} {j : Fin 8}
    (hj : findIndex bucket index = some j) : (bucket j).index = index := by
  simpa using List.find?_some hj

theorem findIndex_none {bucket : Bucket} {index : UInt32}
    (hnone : findIndex bucket index = none) (j : Fin 8) : (bucket j).index ≠ index := by
  simpa using List.find?_eq_none.mp hnone j (List.mem_finRange j)

/-! ## Displacement -/

/-- Everything but the slots is untouched. -/
structure SameArena (t t' : CuckooTable) : Prop where
  capacity : t'.capacity = t.capacity
  storage : t'.storage = t.storage
  maxCapacity : t'.maxCapacity = t.maxCapacity
  storageSize : t'.storageSize = t.storageSize
  freeList : t'.freeList = t.freeList
  freeListSize : t'.freeListSize = t.freeListSize

theorem SameArena.refl (t : CuckooTable) : SameArena t t :=
  ⟨rfl, rfl, rfl, rfl, rfl, rfl⟩

theorem SameArena.trans {t t' t'' : CuckooTable} (h₁ : SameArena t t') (h₂ : SameArena t' t'') :
    SameArena t t'' :=
  ⟨h₂.1.trans h₁.1, h₂.2.trans h₁.2, h₂.3.trans h₁.3, h₂.4.trans h₁.4, h₂.5.trans h₁.5,
    h₂.6.trans h₁.6⟩

theorem sameArena_setSlot (t : CuckooTable) (l : Loc) (s : Slot) : SameArena t (t.setSlot l s) :=
  ⟨by simp, by simp, by simp, by simp, by simp, by simp⟩

/-- Displacement ends with every referenced index and the carried one referenced, except
for one index that is dropped when the rounds run out. -/
structure Displaced (t : CuckooTable) (index : UInt32) (success : Bool) (t' : CuckooTable) :
    Prop where
  arena : SameArena t t'
  placed : success = true → ∀ i, t'.Referenced i ↔ t.Referenced i ∨ i = index.toNat
  dropped : success = false → ∃ lost, (t.Referenced lost ∨ lost = index.toNat) ∧
    ∀ i, t'.Referenced i ↔ (t.Referenced i ∨ i = index.toNat) ∧ i ≠ lost

theorem displaced_of_empty (hinv : Invariant h t) {index tag : UInt32} (hc : Carried t index)
    (hl : ¬ t.Occupied l) : Displaced t index true (t.setSlot l ⟨tag, index⟩) where
  arena := sameArena_setSlot t l _
  placed _ i := by
    rw [referenced_setSlot hinv (hinv.ne_u32Max hc.lt)]
    simp [hl]
  dropped := by simp

theorem displaced_of_exchange (hinv : Invariant h t) {index tag : UInt32} (hc : Carried t index)
    (hl : t.Occupied l) {success : Bool} {t' : CuckooTable}
    (hd : Displaced (t.setSlot l ⟨tag, index⟩) (t.slotAt l).index success t') :
    Displaced t index success t' := by
  have hset := referenced_exchange hinv hc hl tag
  refine ⟨(sameArena_setSlot t l _).trans hd.arena, ?_, ?_⟩
  · intro hsuccess i
    rw [hd.placed hsuccess i, hset i]
  · intro hsuccess
    obtain ⟨lost, hlost, hrest⟩ := hd.dropped hsuccess
    refine ⟨lost, (hset lost).mp hlost, ?_⟩
    intro i
    rw [hrest i, hset i]

/-- A position in the bucket of a key on one side. -/
def home (h : Hashing) (t : CuckooTable) (side : Side) (key : String) (j : Fin 8) : Loc :=
  ⟨side, t.bucketIndex h side key, j⟩

/-- The slot of its first bucket that a carried entry trades with in round `i`. -/
def victimSlot (h : Hashing) (key : String) (index : UInt32) (i : ℕ) : Fin 8 :=
  ⟨((h.hash1Full key).toNat + index.toNat + i) % 2 ^ 64 % 8, Nat.mod_lt _ (Nat.zero_lt_succ 7)⟩

theorem findEmpty_some {side : Side} {key : String} {j : Fin 8}
    (hj : findEmpty (t.bucketAt side (t.bucketIndex h side key)) = some j) :
    ¬ t.Occupied (t.home h side key j) :=
  not_not.mpr (findIndex_some hj)

theorem findEmpty_none {side : Side} {key : String}
    (hnone : findEmpty (t.bucketAt side (t.bucketIndex h side key)) = none) (j : Fin 8) :
    t.Occupied (t.home h side key j) :=
  findIndex_none hnone j

/-- The state of the displacement loop at the head of a round: the table and the entry
carried by hand. -/
structure Hand where
  table : CuckooTable
  index : UInt32
  tag : UInt32
  key : String

/-- Round `i` of the displacement loop: its result, or the hand of the next round. -/
def Hand.round (h : Hashing) (hand : Hand) (i : ℕ) :
    Except Fault ((Bool × CuckooTable) ⊕ Hand) := do
  let b1 := hand.table.bucketIndex h .first hand.key
  let bucket1 ← hand.table.table1.read b1
  match findEmpty bucket1 with
  | some j =>
    let table1 ← hand.table.table1.write b1 (Function.update bucket1 j ⟨hand.tag, hand.index⟩)
    return .inl (true, { hand.table with table1 := table1 })
  | none =>
    let b2 := hand.table.bucketIndex h .second hand.key
    let bucket2 ← hand.table.table2.read b2
    match findEmpty bucket2 with
    | some j =>
      let table2 ← hand.table.table2.write b2 (Function.update bucket2 j ⟨hand.tag, hand.index⟩)
      return .inl (true, { hand.table with table2 := table2 })
    | none =>
      let victim := bucket1 (victimSlot h hand.key hand.index i)
      let table1 ← hand.table.table1.write b1
        (Function.update bucket1 (victimSlot h hand.key hand.index i) ⟨hand.tag, hand.index⟩)
      let carried ← hand.table.storage.read victim.index.toNat
      return .inr ⟨{ hand.table with table1 := table1 }, victim.index, victim.tag, carried.key⟩

/-- The loop is its first round and then the rest. -/
theorem displace_succ (fuel i : ℕ) (hand : Hand) :
    displace h (fuel + 1) i hand.table hand.index hand.tag hand.key =
      hand.round h i >>= Sum.elim .ok
        fun next => displace h fuel (i + 1) next.table next.index next.tag next.key := by
  rw [displace, Hand.round]
  cases hand.table.table1.read (hand.table.bucketIndex h .first hand.key) with
  | error e => rfl
  | ok bucket1 =>
    simp only [ok_bind]
    cases findEmpty bucket1 with
    | some j =>
      simp only
      cases hand.table.table1.write (hand.table.bucketIndex h .first hand.key)
        (Function.update bucket1 j ⟨hand.tag, hand.index⟩) <;> rfl
    | none =>
      simp only
      cases hand.table.table2.read (hand.table.bucketIndex h .second hand.key) with
      | error e => rfl
      | ok bucket2 =>
        simp only [ok_bind]
        cases findEmpty bucket2 with
        | some j =>
          simp only
          cases hand.table.table2.write (hand.table.bucketIndex h .second hand.key)
            (Function.update bucket2 j ⟨hand.tag, hand.index⟩) <;> rfl
        | none =>
          change (hand.table.table1.write _ (Function.update bucket1
            (victimSlot h hand.key hand.index i) ⟨hand.tag, hand.index⟩) >>= _) = _
          cases hand.table.table1.write (hand.table.bucketIndex h .first hand.key)
            (Function.update bucket1 (victimSlot h hand.key hand.index i)
              ⟨hand.tag, hand.index⟩) with
          | error e => rfl
          | ok table1 =>
            change (hand.table.storage.read (bucket1
              (victimSlot h hand.key hand.index i)).index.toNat >>= _) = _
            cases hand.table.storage.read (bucket1
              (victimSlot h hand.key hand.index i)).index.toNat <;> rfl

/-- No access to a bucket of a key faults. -/
structure Accessible (h : Hashing) (t : CuckooTable) : Prop where
  read : ∀ side key, (t.table side).read (t.bucketIndex h side key) =
    .ok (t.bucketAt side (t.bucketIndex h side key))
  write : ∀ side key bucket, (t.table side).write (t.bucketIndex h side key) bucket =
    .ok ((t.table side).set (t.bucketIndex h side key) bucket)

theorem Invariant.accessible (hinv : Invariant h t) : Accessible h t where
  read side key := hinv.read_bucket side (hinv.bucketIndex_lt side key)
  write side key bucket := hinv.write_bucket side bucket (hinv.bucketIndex_lt side key)

/-- The first empty slot of the first bucket of a key, or of its second one when the first
is full. -/
def FirstEmpty (h : Hashing) (t : CuckooTable) (key : String) (side : Side) (j : Fin 8) : Prop :=
  findEmpty (t.bucketAt side (t.bucketIndex h side key)) = some j ∧
    (side = .second → findEmpty (t.bucketAt .first (t.bucketIndex h .first key)) = none)

/-- Both buckets of a key are full. -/
def BothFull (h : Hashing) (t : CuckooTable) (key : String) : Prop :=
  ∀ side, findEmpty (t.bucketAt side (t.bucketIndex h side key)) = none

/-- What one round can do: the carried entry takes the first empty slot, or trades places
within its first bucket when both are full. Only the trade looks at a storage cell. -/
theorem Accessible.round_cases (hacc : Accessible h t) (i : ℕ) (index tag : UInt32)
    (key : String) :
    (∃ side j, FirstEmpty h t key side j ∧
        Hand.round h ⟨t, index, tag, key⟩ i =
          .ok (.inl (true, t.setSlot (t.home h side key j) ⟨tag, index⟩))) ∨
      (BothFull h t key ∧
        ∀ l e, l = t.home h .first key (victimSlot h key index i) →
          t.storage.read (t.indexAt l) = .ok e →
          Hand.round h ⟨t, index, tag, key⟩ i = .ok (.inr ⟨t.setSlot l ⟨tag, index⟩,
            (t.slotAt l).index, (t.slotAt l).tag, e.key⟩)) := by
  have hread₁ : t.table1.read (t.bucketIndex h .first key) = .ok _ := hacc.read .first key
  have hread₂ : t.table2.read (t.bucketIndex h .second key) = .ok _ := hacc.read .second key
  have hwrite₁ : ∀ bucket, t.table1.write (t.bucketIndex h .first key) bucket = .ok _ :=
    hacc.write .first key
  have hwrite₂ : ∀ bucket, t.table2.write (t.bucketIndex h .second key) bucket = .ok _ :=
    hacc.write .second key
  rw [Hand.round, hread₁, ok_bind]
  cases hempty₁ : findEmpty (t.bucketAt .first (t.bucketIndex h .first key)) with
  | some j =>
    refine Or.inl ⟨.first, j, ⟨hempty₁, Side.noConfusion⟩, ?_⟩
    simp only [hwrite₁, ok_bind]
    rfl
  | none =>
    simp only [hread₂, ok_bind]
    cases hempty₂ : findEmpty (t.bucketAt .second (t.bucketIndex h .second key)) with
    | some j =>
      refine Or.inl ⟨.second, j, ⟨hempty₂, fun _ => hempty₁⟩, ?_⟩
      simp only [hwrite₂, ok_bind]
      rfl
    | none =>
      right
      constructor
      · intro side
        cases side with
        | first => exact hempty₁
        | second => exact hempty₂
      · rintro l e rfl hread
        simp only [hwrite₁, ok_bind]
        change (t.storage.read (t.indexAt
          (t.home h .first key (victimSlot h key index i))) >>= _) = _
        rw [hread, ok_bind]
        rfl

theorem round_cases (hinv : Invariant h t) (i : ℕ) (index tag : UInt32) (key : String) :
    (∃ side j, FirstEmpty h t key side j ∧
        Hand.round h ⟨t, index, tag, key⟩ i =
          .ok (.inl (true, t.setSlot (t.home h side key j) ⟨tag, index⟩))) ∨
      (BothFull h t key ∧
        ∀ l, l = t.home h .first key (victimSlot h key index i) →
          Hand.round h ⟨t, index, tag, key⟩ i = .ok (.inr ⟨t.setSlot l ⟨tag, index⟩,
            (t.slotAt l).index, (t.slotAt l).tag, t.slotKey l⟩)) := by
  rcases hinv.accessible.round_cases i index tag key with hplace | ⟨hfull, hround⟩
  · exact Or.inl hplace
  · refine Or.inr ⟨hfull, ?_⟩
    rintro l rfl
    have hocc := findEmpty_none (hfull .first) (victimSlot h key index i)
    exact hround _ _ rfl (hinv.read_storage (hinv.slot_lt _ hocc))

theorem displace_round (hinv : Invariant h t) (fuel i : ℕ) (index tag : UInt32) (key : String) :
    (∃ side j, FirstEmpty h t key side j ∧
        displace h (fuel + 1) i t index tag key =
          .ok (true, t.setSlot (t.home h side key j) ⟨tag, index⟩)) ∨
      (BothFull h t key ∧
        ∀ l, l = t.home h .first key (victimSlot h key index i) →
          displace h (fuel + 1) i t index tag key =
            displace h fuel (i + 1) (t.setSlot l ⟨tag, index⟩) (t.slotAt l).index
              (t.slotAt l).tag (t.slotKey l)) := by
  have hsucc := displace_succ (h := h) fuel i ⟨t, index, tag, key⟩
  rcases round_cases hinv i index tag key with ⟨side, j, hempty, hround⟩ | ⟨hfull, hround⟩
  · refine Or.inl ⟨side, j, hempty, ?_⟩
    rw [hsucc, hround]
    rfl
  · refine Or.inr ⟨hfull, fun l hl => ?_⟩
    rw [hsucc, hround l hl]
    rfl

theorem displace_spec (fuel : ℕ) : ∀ (i : ℕ) (t : CuckooTable) (index tag : UInt32)
    (key : String), Invariant h t → Carried t index →
    tag = getTag (h.hash1Full key) → key = t.keyAt index.toNat →
    ∃ success t', displace h fuel i t index tag key = .ok (success, t') ∧
      Invariant h t' ∧ Displaced t index success t' := by
  induction fuel with
  | zero =>
    intro i t index tag key hinv hc htag hkey
    refine ⟨false, t, rfl, hinv, SameArena.refl t, by simp, ?_⟩
    exact fun _ => ⟨index.toNat, Or.inr rfl, hc.referenced_iff⟩
  | succ fuel ih =>
    intro i t index tag key hinv hc htag hkey
    have hfits : ∀ (side : Side) (j : Fin 8), Fits h t (t.home h side key j) ⟨tag, index⟩ :=
      fun side j => hc.fits (by rw [htag, hkey]) (by rw [← hkey]; rfl)
    rcases displace_round hinv fuel i index tag key with
      ⟨side, j, ⟨hempty, -⟩, hrun⟩ | ⟨hfull, hrun⟩
    · exact ⟨true, _, hrun, hinv.setSlot (hinv.bucketIndex_lt side key) fun _ => hfits side j,
        displaced_of_empty hinv hc (findEmpty_some hempty)⟩
    · have hocc := findEmpty_none (hfull .first) (victimSlot h key index i)
      obtain ⟨success, t', hrest, hinv', hd⟩ := ih (i + 1) _ _ _ _
        (hinv.setSlot (hinv.bucketIndex_lt .first key)
          fun _ => hfits .first (victimSlot h key index i))
        (carried_of_setSlot hinv hocc fun _ he => hc.key_ne _ hocc he.symm)
        (hinv.slot_tag _ hocc) (by rw [setSlot_keyAt]; rfl)
      exact ⟨success, t', (hrun _ rfl).trans hrest, hinv',
        displaced_of_exchange hinv hc hocc hd⟩

end Kallisto.Cuckoo.CuckooTable
