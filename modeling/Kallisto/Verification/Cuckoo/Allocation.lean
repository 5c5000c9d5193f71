import Kallisto.Library.Clock
import Kallisto.Verification.Cuckoo.Search

/-! # Obtaining a storage cell

The CLOCK scan changes nothing but reference flags, and each of the three sources
of a cell (free list, fresh storage, CLOCK victim) leaves the new entry carried. -/

namespace Kallisto.Cuckoo.CuckooTable

open RawMemory

variable {h : Hashing} {t t' : CuckooTable} {storage : Block SecretEntry}

/-! ## Reference flags -/

/-- The part of an entry that readers see. -/
def strip (e : SecretEntry) : String × List UInt8 :=
  (e.key, e.payload)

/-- Two arenas that differ in reference flags only. -/
structure SameContents (storage storage' : Block SecretEntry) : Prop where
  size : storage'.size = storage.size
  cell : ∀ i, (storage'.cell i).map strip = (storage.cell i).map strip

theorem sameContents_set {i : ℕ} {e e' : SecretEntry} (he : storage.cell i = some e)
    (hstrip : strip e' = strip e) : SameContents storage (storage.set i e') := by
  refine ⟨rfl, ?_⟩
  intro j
  rw [Block.set_cell]
  split
  · subst j
    simp [he, hstrip]
  · rfl

theorem SameContents.isSome {a b : Block SecretEntry} (hab : SameContents a b) (i : ℕ) :
    (b.cell i).isSome = (a.cell i).isSome := by
  have hcell := congrArg Option.isSome (hab.cell i)
  simpa using hcell

/-- The table with its arena replaced. -/
def withStorage (t : CuckooTable) (storage : Block SecretEntry) : CuckooTable :=
  { t with storage := storage }

theorem SameContents.strip_entryAt (hs : SameContents t.storage storage) (i : ℕ) :
    strip ((t.withStorage storage).entryAt i) = strip (t.entryAt i) := by
  have hcell := hs.cell i
  simp only [entryAt, withStorage]
  cases hold : t.storage.cell i <;> cases hnew : storage.cell i <;> simp_all

theorem SameContents.keyAt (hs : SameContents t.storage storage) (i : ℕ) :
    (t.withStorage storage).keyAt i = t.keyAt i :=
  congrArg Prod.fst (hs.strip_entryAt i)

theorem Invariant.withStorage (hinv : Invariant h t) (hs : SameContents t.storage storage) :
    Invariant h (t.withStorage storage) := by
  have hkey : ∀ l, (t.withStorage storage).slotKey l = t.slotKey l :=
    fun l => hs.keyAt (t.indexAt l)
  exact { hinv with
    storage_size := hs.size.trans hinv.storage_size
    storage_init := fun i => by
      change (storage.cell i).isSome ↔ _
      rw [hs.isSome i]
      exact hinv.storage_init i
    key_inj := fun l m hl hm he => by
      rw [hkey, hkey] at he
      exact hinv.key_inj l m hl hm he
    slot_home := fun l hl => by
      rw [hkey]
      exact hinv.slot_home l hl
    slot_tag := fun l hl => by
      rw [hkey]
      exact hinv.slot_tag l hl }

/-! ## The CLOCK scan -/

def flags (storage : Block SecretEntry) (i : ℕ) : Bool :=
  ((storage.cell i).getD default).referenced

def withFlags (storage : Block SecretEntry) (flag : ℕ → Bool) : Block SecretEntry :=
  { storage with cell := fun i => (storage.cell i).map fun e => { e with referenced := flag i } }

theorem sameContents_withFlags (storage : Block SecretEntry) (flag : ℕ → Bool) :
    SameContents storage (withFlags storage flag) := by
  refine ⟨rfl, ?_⟩
  intro i
  simp only [withFlags, Option.map_map]
  rfl

theorem withFlags_flags (storage : Block SecretEntry) :
    withFlags storage (flags storage) = storage := by
  unfold withFlags flags
  congr 1
  funext i
  cases storage.cell i <;> rfl

section Flags

variable {storage : Block SecretEntry} {i : ℕ} {e : SecretEntry}

theorem flags_set (storage : Block SecretEntry) (i : ℕ) (e : SecretEntry) :
    flags (storage.set i e) = Function.update (flags storage) i e.referenced := by
  funext j
  rw [Function.update_apply]
  simp only [flags, Block.set_cell]
  split <;> rfl

theorem withFlags_set (he : storage.cell i = some e) (r : Bool) (flag : ℕ → Bool) :
    withFlags (storage.set i { e with referenced := r }) flag = withFlags storage flag := by
  unfold withFlags
  congr 1
  funext j
  rw [Block.set_cell]
  split
  · next hj => rw [hj, he]; rfl
  · rfl

end Flags

/-- The scan of the source is the CLOCK sweep over the reference flags. -/
theorem clockScan_eq (maxCapacity n : ℕ) : ∀ (storage : Block SecretEntry) (clockHand : ℕ),
    storage.size = maxCapacity → (∀ i, i < maxCapacity → (storage.cell i).isSome) →
    (n = 0 ∨ 0 < maxCapacity) →
    clockScan maxCapacity n storage clockHand =
      .ok ((Clock.sweep maxCapacity n (flags storage) clockHand).1.elim u32Max UInt32.ofNat,
        withFlags storage (Clock.sweep maxCapacity n (flags storage) clockHand).2.1,
        (Clock.sweep maxCapacity n (flags storage) clockHand).2.2) := by
  induction n with
  | zero =>
    intro storage clockHand _ _ _
    rw [clockScan, Clock.sweep, withFlags_flags]
    rfl
  | succ n ih =>
    intro storage clockHand hsize hinit hpos
    have hpos' : 0 < maxCapacity := by omega
    have hlt : Clock.start maxCapacity clockHand < maxCapacity := Clock.start_lt hpos'
    obtain ⟨e, he⟩ := Option.isSome_iff_exists.mp (hinit _ hlt)
    have hread := Block.read_eq_ok (by rw [hsize]; exact hlt) he
    have hflag : flags storage (Clock.start maxCapacity clockHand) = e.referenced := by
      rw [flags, he]
      rfl
    rw [clockScan, ← Clock.start, Clock.sweep, hflag]
    simp only [hread, ok_bind]
    by_cases href : e.referenced = true
    · have hassign := Block.assign_eq_ok { e with referenced := false }
        (by rw [hsize]; exact hlt) (hinit _ hlt)
      have hsame : SameContents storage (storage.set (Clock.start maxCapacity clockHand)
          { e with referenced := false }) := sameContents_set he rfl
      have hrest := ih _ (Clock.start maxCapacity clockHand + 1) (hsame.size.trans hsize)
        (fun i hi => by rw [hsame.isSome]; exact hinit i hi) (Or.inr hpos')
      rw [flags_set, withFlags_set he] at hrest
      rw [if_pos href, if_pos href, hassign, ok_bind, hrest]
    · rw [if_neg href, if_neg href, withFlags_flags]
      rfl

/-- The storage index the scan chooses when the table is full. -/
def clockVictim (t : CuckooTable) : ℕ :=
  Clock.ahead t.maxCapacity t.clockHand (Clock.lead t.maxCapacity (flags t.storage) t.clockHand)

/-- The table after the scan. -/
def swept (t : CuckooTable) : CuckooTable :=
  { t with
    storage := withFlags t.storage (Clock.cleared t.maxCapacity (flags t.storage) t.clockHand
      (Clock.lead t.maxCapacity (flags t.storage) t.clockHand))
    clockHand := t.clockVictim + 1 }

theorem clockVictim_lt (hpos : 0 < t.maxCapacity) : t.clockVictim < t.maxCapacity :=
  Clock.ahead_lt hpos _

theorem Invariant.swept (hinv : Invariant h t) : Invariant h t.swept :=
  { hinv.withStorage (sameContents_withFlags t.storage _) with }

theorem strip_swept (i : ℕ) : strip (t.swept.entryAt i) = strip (t.entryAt i) :=
  (sameContents_withFlags t.storage _).strip_entryAt i

theorem keyAt_swept (i : ℕ) : t.swept.keyAt i = t.keyAt i :=
  congrArg Prod.fst (strip_swept i)

/-- The scan ends with a victim in one step more than it passes over entries. -/
theorem clockScan_swept (hinv : Invariant h t) (hpos : 0 < t.maxCapacity)
    (hfull : t.storageSize = t.maxCapacity) {steps : ℕ}
    (hsteps : Clock.lead t.maxCapacity (flags t.storage) t.clockHand < steps) :
    clockScan t.maxCapacity steps t.storage t.clockHand =
      .ok (UInt32.ofNat t.clockVictim, t.swept.storage, t.swept.clockHand) := by
  rw [clockScan_eq _ _ _ _ hinv.storage_size
    (fun i hi => (hinv.storage_init i).mpr (hfull.symm ▸ hi)) (Or.inr hpos),
    Clock.sweep_lead hpos hsteps]
  rfl

/-! ## Clearing the victim's slot -/

/-- What clearing can do: empty the one slot that refers to the victim's cell, or nothing
when there is none. -/
theorem clearVictim_cases (hinv : Invariant h t) {victimIdx : UInt32}
    (hlt : victimIdx.toNat < t.storageSize) :
    (∃ l, t.Occupied l ∧ (t.slotAt l).index = victimIdx ∧
        clearVictim h t (t.keyAt victimIdx.toNat) victimIdx = .ok (t.setSlot l .empty)) ∨
      (¬ t.Referenced victimIdx.toNat ∧
        clearVictim h t (t.keyAt victimIdx.toNat) victimIdx = .ok t) := by
  generalize hkey : t.keyAt victimIdx.toNat = key
  have hlt₁ := hinv.bucketIndex_lt .first key
  have hlt₂ := hinv.bucketIndex_lt .second key
  have hread₁ : t.table1.read (t.bucketIndex h .first key) = .ok _ :=
    hinv.read_bucket .first hlt₁
  have hread₂ : t.table2.read (t.bucketIndex h .second key) = .ok _ :=
    hinv.read_bucket .second hlt₂
  have hwrite₁ : ∀ bucket, t.table1.write (t.bucketIndex h .first key) bucket = .ok _ :=
    fun bucket => hinv.write_bucket .first bucket hlt₁
  have hwrite₂ : ∀ bucket, t.table2.write (t.bucketIndex h .second key) bucket = .ok _ :=
    fun bucket => hinv.write_bucket .second bucket hlt₂
  have hocc : ∀ l, (t.slotAt l).index = victimIdx → t.Occupied l := by
    intro l hl
    rw [Occupied, hl]
    exact hinv.ne_u32Max hlt
  rw [clearVictim, hread₁, ok_bind]
  cases hfind₁ : findIndex (t.bucketAt .first (t.bucketIndex h .first key)) victimIdx with
  | some j =>
    have hindex : (t.slotAt (t.home h .first key j)).index = victimIdx := findIndex_some hfind₁
    refine Or.inl ⟨_, hocc _ hindex, hindex, ?_⟩
    simp only [hwrite₁, ok_bind]
    rfl
  | none =>
    simp only [hread₂, ok_bind]
    cases hfind₂ : findIndex (t.bucketAt .second (t.bucketIndex h .second key)) victimIdx with
    | some j =>
      have hindex : (t.slotAt (t.home h .second key j)).index = victimIdx :=
        findIndex_some hfind₂
      refine Or.inl ⟨_, hocc _ hindex, hindex, ?_⟩
      simp only [hwrite₂, ok_bind]
      rfl
    | none =>
      refine Or.inr ⟨?_, rfl⟩
      -- A slot with the victim's index would sit in one of the two searched buckets.
      rintro ⟨⟨side, b, j⟩, hocc, hindex⟩
      have hhome := hinv.slot_home _ hocc
      rw [slotKey, hindex, hkey] at hhome
      have heq : (t.slotAt ⟨side, b, j⟩).index = victimIdx := UInt32.toNat_inj.mp hindex
      cases side with
      | first =>
        change t.bucketIndex h .first key = b at hhome
        subst b
        exact findIndex_none hfind₁ j heq
      | second =>
        change t.bucketIndex h .second key = b at hhome
        subst b
        exact findIndex_none hfind₂ j heq

theorem referenced_of_unused {i : ℕ} (hunused : ¬ t.Referenced i) (j : ℕ) :
    t.Referenced j ↔ t.Referenced j ∧ j ≠ i := by
  constructor
  · intro hj
    refine ⟨hj, ?_⟩
    rintro rfl
    exact hunused hj
  · exact And.left

theorem clearVictim_spec (hinv : Invariant h t) {victimIdx : UInt32}
    (hlt : victimIdx.toNat < t.storageSize) :
    ∃ t', clearVictim h t (t.keyAt victimIdx.toNat) victimIdx = .ok t' ∧
      Invariant h t' ∧ SameArena t t' ∧
      ∀ i, t'.Referenced i ↔ t.Referenced i ∧ i ≠ victimIdx.toNat := by
  rcases clearVictim_cases hinv hlt with ⟨l, hocc, hindex, hrun⟩ | ⟨hunused, hrun⟩
  · refine ⟨_, hrun, hinv.setSlot (hinv.bucket_lt hocc) fun hne => (hne rfl).elim,
      sameArena_setSlot t l _, ?_⟩
    intro i
    rw [referenced_clearSlot hinv hocc, indexAt, hindex]
  · exact ⟨t, hrun, hinv, SameArena.refl t, referenced_of_unused hunused⟩

/-! ## Allocation -/

/-- The shape of a table is fixed when it is created. -/
structure SameShape (t t' : CuckooTable) : Prop where
  capacity : t'.capacity = t.capacity
  maxCapacity : t'.maxCapacity = t.maxCapacity

/-- The outcome of a successful allocation: the new entry is stored at a carried
index, and no other entry or reference changed. -/
structure Allocated (h : Hashing) (t : CuckooTable) (key : String) (payload : List UInt8)
    (index : UInt32) (t' : CuckooTable) : Prop where
  inv : Invariant h t'
  shape : SameShape t t'
  carried : Carried t' index
  entry : t'.entryAt index.toNat = freshEntry key payload
  frame : ∀ i, i ≠ index.toNat → strip (t'.entryAt i) = strip (t.entryAt i)
  referenced : ∀ i, t'.Referenced i ↔ t.Referenced i ∧ i ≠ index.toNat

/-- An index in use that is neither free nor referenced is carried once its cell holds
an entry whose key no slot refers to. -/
theorem allocated_setEntry {t₀ : CuckooTable} {key : String} {payload : List UInt8}
    {index : UInt32} (hinv : Invariant h t) (hshape : SameShape t₀ t)
    (hlt : index.toNat < t.storageSize)
    (hfree : ∀ i, i < t.freeListSize → t.freeAt i ≠ index.toNat)
    (hunused : ¬ t.Referenced index.toNat)
    (habsent : ∀ l, t.Occupied l → t.slotKey l ≠ key)
    (hframe : ∀ i, i ≠ index.toNat → strip (t.entryAt i) = strip (t₀.entryAt i))
    (href : ∀ i, t.Referenced i ↔ t₀.Referenced i ∧ i ≠ index.toNat) :
    Allocated h t₀ key payload index (t.setEntry index.toNat (freshEntry key payload)) where
  inv := hinv.setEntry hlt fun l hl he => (hunused ⟨l, hl, he⟩).elim
  shape := ⟨hshape.capacity, hshape.maxCapacity⟩
  carried := {
    lt := hlt
    key_ne := by
      intro l hl
      rw [setEntry_occupied] at hl
      have hne : t.indexAt l ≠ index.toNat := fun he => hunused ⟨l, hl, he⟩
      rw [slotKey, setEntry_indexAt, setEntry_keyAt, setEntry_keyAt, if_neg hne, if_pos rfl]
      exact habsent l hl
    not_free := hfree }
  entry := by rw [setEntry_entryAt, if_pos rfl]
  frame i hi := by
    rw [setEntry_entryAt, if_neg hi]
    exact hframe i hi
  referenced i := by
    rw [← href i]
    simp [Referenced]

/-- What an allocation can do: take the last free cell, take a fresh one, or take the
victim of the scan from the slot that refers to it. -/
inductive Allocates (h : Hashing) (t : CuckooTable) (key : String) (payload : List UInt8) :
    UInt32 → CuckooTable → Prop
  | free {index : UInt32} (hfree : 0 < t.freeListSize)
      (hindex : t.freeAt (t.freeListSize - 1) = index.toNat) :
      Allocates h t key payload index
        (t.popFree.setEntry index.toNat (freshEntry key payload))
  | grow {index : UInt32} (hfree : t.freeListSize = 0) (hroom : t.storageSize < t.maxCapacity)
      (hindex : index.toNat = t.storageSize) :
      Allocates h t key payload index (t.growStorage (freshEntry key payload))
  | evict {index : UInt32} {t' : CuckooTable} (hfree : t.freeListSize = 0)
      (hfull : t.storageSize = t.maxCapacity) (hpos : 0 < t.maxCapacity)
      (hindex : index.toNat = t.clockVictim)
      (hclear : clearVictim h t.swept (t.keyAt index.toNat) index = .ok t') :
      Allocates h t key payload index (t'.setEntry index.toNat (freshEntry key payload))

theorem Invariant.toNat_ofNat (hinv : Invariant h t) {i : ℕ} (hi : i < t.maxCapacity) :
    (UInt32.ofNat i).toNat = i := by
  have hmax := hinv.maxCapacity_le
  have hu : u32Max.toNat = 2 ^ 32 - 1 := rfl
  rw [UInt32.toNat_ofNat']
  exact Nat.mod_eq_of_lt (by omega)

/-- An allocation fails only in a table without storage. -/
theorem allocate_cases (hinv : Invariant h t) (key : String) (payload : List UInt8) :
    (∃ index t', t.allocate h key payload = .ok (some index, t') ∧
        Allocates h t key payload index t') ∨
      (t.maxCapacity = 0 ∧ t.allocate h key payload = .ok (none, t)) := by
  rw [allocate]
  by_cases hfree : t.freeListSize > 0
  · left
    have hlast : t.freeListSize - 1 < t.freeListSize := by omega
    have hcap : t.freeListSize - 1 < t.maxCapacity :=
      hlast.trans_le (hinv.freeListSize_le.trans hinv.storageSize_le)
    obtain ⟨index, hindex⟩ := Option.isSome_iff_exists.mp (hinv.freeList_init _ hcap)
    have hread := Block.read_eq_ok (by rw [hinv.freeList_size]; exact hcap) hindex
    have hfreeAt : t.freeAt (t.freeListSize - 1) = index.toNat := by simp [freeAt, hindex]
    have hlt : index.toNat < t.storageSize := by
      rw [← hfreeAt]
      exact hinv.free_lt _ hlast
    refine ⟨index, _, ?_, .free hfree hfreeAt⟩
    rw [if_pos hfree, hread, ok_bind, hinv.assign_storage _ hlt, ok_bind]
    rfl
  · rw [if_neg hfree]
    have hnofree : t.freeListSize = 0 := by omega
    by_cases hroom : t.storageSize < t.maxCapacity
    · left
      have hnat := hinv.toNat_ofNat hroom
      refine ⟨UInt32.ofNat t.storageSize, _, ?_, .grow hnofree hroom hnat⟩
      rw [if_pos hroom]
      dsimp only
      rw [hnat, Block.write_eq_ok _ (by rw [hinv.storage_size]; exact hroom), ok_bind]
      rfl
    · rw [if_neg hroom]
      have hfull : t.storageSize = t.maxCapacity := by
        have := hinv.storageSize_le
        omega
      rcases Nat.eq_zero_or_pos t.maxCapacity with hzero | hpos
      · right
        have hscan : clockScan t.maxCapacity (t.maxCapacity * 2) t.storage t.clockHand =
            .ok (u32Max, t.storage, t.clockHand) := by
          rw [hzero]
          rfl
        refine ⟨hzero, ?_⟩
        rw [hscan]
        rfl
      · left
        have hlead : Clock.lead t.maxCapacity (flags t.storage) t.clockHand ≤ t.maxCapacity :=
          Clock.lead_le
        have hscan : clockScan t.maxCapacity (t.maxCapacity * 2) t.storage t.clockHand = _ :=
          clockScan_swept hinv hpos hfull (by omega)
        have hnat := hinv.toNat_ofNat (clockVictim_lt hpos)
        have hlt : (UInt32.ofNat t.clockVictim).toNat < t.swept.storageSize := by
          rw [hnat]
          exact (clockVictim_lt hpos).trans_eq hfull.symm
        obtain ⟨t', hclear, hinv', harena, -⟩ := clearVictim_spec hinv.swept hlt
        have hlt' : (UInt32.ofNat t.clockVictim).toNat < t'.storageSize := by
          rw [harena.storageSize]
          exact hlt
        refine ⟨UInt32.ofNat t.clockVictim, _, ?_, .evict hnofree hfull hpos hnat
          (keyAt_swept _ ▸ hclear)⟩
        rw [hscan]
        dsimp only [ok_bind]
        rw [if_pos (hinv.swept.ne_u32Max hlt)]
        rw [hinv.swept.read_storage hlt, ok_bind]
        change (clearVictim h t.swept (t.swept.keyAt _) _ >>= _) = _
        rw [hclear, ok_bind, hinv'.assign_storage _ hlt', ok_bind]
        rfl

/-- The victim's slot is emptied, whichever bucket it was in. -/
theorem cleared_spec (hinv : Invariant h t) (hpos : 0 < t.maxCapacity)
    (hfull : t.storageSize = t.maxCapacity) {index : UInt32}
    (hindex : index.toNat = t.clockVictim)
    (hclear : clearVictim h t.swept (t.keyAt index.toNat) index = .ok t') :
    Invariant h t' ∧ SameArena t.swept t' ∧
      ∀ i, t'.Referenced i ↔ t.Referenced i ∧ i ≠ index.toNat := by
  have hlt : index.toNat < t.swept.storageSize := by
    rw [hindex]
    exact (clockVictim_lt hpos).trans_eq hfull.symm
  obtain ⟨t₂, hclear₂, hspec⟩ := clearVictim_spec hinv.swept hlt
  rw [keyAt_swept, hclear] at hclear₂
  obtain rfl := Except.ok.inj hclear₂
  exact hspec

/-- Allocation empties slots only. -/
theorem Allocates.slotAt (hinv : Invariant h t) {key : String} {payload : List UInt8}
    {index : UInt32} (ha : Allocates h t key payload index t') {l : Loc} (hl : t'.Occupied l) :
    t'.slotAt l = t.slotAt l := by
  cases ha with
  | free hfree hindex => exact setEntry_slotAt _ _ _ l
  | grow hfree hroom hindex => rfl
  | @evict t₂ hfree hfull hpos hindex hclear =>
    rw [setEntry_occupied] at hl
    rw [setEntry_slotAt]
    have hlt : index.toNat < t.swept.storageSize := by
      rw [hindex]
      exact (clockVictim_lt hpos).trans_eq hfull.symm
    rw [← keyAt_swept] at hclear
    rcases clearVictim_cases hinv.swept hlt with ⟨m, -, -, hrun⟩ | ⟨-, hrun⟩
    · rw [hclear] at hrun
      obtain rfl := Except.ok.inj hrun
      rcases setSlot_occupied hl with ⟨-, hne, -⟩ | ⟨hlm, -⟩
      · exact (hne rfl).elim
      · exact setSlot_slotAt_of_ne _ _ _ hlm
    · rw [hclear] at hrun
      obtain rfl := Except.ok.inj hrun
      rfl

theorem Allocates.maxCapacity_pos (hinv : Invariant h t) {key : String} {payload : List UInt8}
    {index : UInt32} (ha : Allocates h t key payload index t') : 0 < t.maxCapacity := by
  have hle := hinv.freeListSize_le.trans hinv.storageSize_le
  cases ha with
  | free hfree hindex => omega
  | grow hfree hroom hindex => omega
  | evict hfree hfull hpos hindex hclear => exact hpos

/-- Each of the three ways leaves the new entry carried. -/
theorem Allocates.allocated (hinv : Invariant h t) {key : String} {payload : List UInt8}
    {index : UInt32} (ha : Allocates h t key payload index t')
    (habsent : ∀ l, t.Occupied l → t.slotKey l ≠ key) : Allocated h t key payload index t' := by
  cases ha with
  | free hfree hindex =>
    have hlast : t.freeListSize - 1 < t.freeListSize := by omega
    have hlt : index.toNat < t.storageSize := by
      rw [← hindex]
      exact hinv.free_lt _ hlast
    have hunused : ¬ t.Referenced index.toNat := by
      rintro ⟨l, hl, he⟩
      exact hinv.free_unused _ l hlast hl (he.trans hindex.symm)
    refine allocated_setEntry (t := t.popFree) hinv.popFree ⟨rfl, rfl⟩ hlt ?_ hunused habsent
      (fun _ _ => rfl) (referenced_of_unused hunused)
    intro i hi he
    have hlast' : i < t.freeListSize - 1 := hi
    have heq := hinv.free_inj i (t.freeListSize - 1) (by omega) hlast (he.trans hindex.symm)
    omega
  | grow hfree hroom hindex =>
    have hunused : ¬ t.Referenced t.storageSize := by
      rintro ⟨l, hl, he⟩
      exact absurd (hinv.slot_lt l hl) (by omega)
    have hset : t.growStorage (freshEntry key payload) =
        (t.growStorage (freshEntry key payload)).setEntry index.toNat
          (freshEntry key payload) := by
      rw [hindex]
      simp [CuckooTable.growStorage, CuckooTable.setEntry, Block.set]
    rw [hset]
    refine allocated_setEntry (hinv.growStorage _ hroom) ⟨rfl, rfl⟩ ?_ ?_ ?_ ?_ ?_ ?_
    · rw [hindex]
      exact Nat.lt_succ_self _
    · intro i hi
      exact absurd hi (by change ¬ i < t.freeListSize; omega)
    · rw [hindex]
      exact hunused
    · intro l hl
      have hlt := hinv.slot_lt l hl
      rw [slotKey, keyAt, growStorage_entryAt, if_neg]
      · exact habsent l hl
      · change t.indexAt l ≠ t.storageSize
        omega
    · intro i hi
      rw [hindex] at hi
      rw [growStorage_entryAt, if_neg hi]
    · rw [hindex]
      exact referenced_of_unused hunused
  | @evict t₂ hfree hfull hpos hindex hclear =>
    obtain ⟨hinv₂, harena, href⟩ := cleared_spec hinv hpos hfull hindex hclear
    have hentry : ∀ i, t₂.entryAt i = t.swept.entryAt i := by
      intro i
      rw [entryAt, harena.storage]
      rfl
    have hlt : index.toNat < t₂.storageSize := by
      rw [harena.storageSize, hindex]
      exact (clockVictim_lt hpos).trans_eq hfull.symm
    refine allocated_setEntry hinv₂ ⟨harena.capacity, harena.maxCapacity⟩ hlt ?_ ?_ ?_ ?_ href
    · intro i hi
      rw [harena.freeListSize] at hi
      exact absurd hi (by change ¬ i < t.freeListSize; omega)
    · rw [href]
      exact fun hself => hself.2 rfl
    · intro l hl
      obtain ⟨m, hm, hmi⟩ := ((href (t₂.indexAt l)).mp ⟨l, hl, rfl⟩).1
      rw [slotKey, keyAt, hentry, ← hmi]
      change (strip (t.swept.entryAt (t.indexAt m))).1 ≠ key
      rw [strip_swept]
      exact habsent m hm
    · intro i _
      rw [hentry]
      exact strip_swept i

end Kallisto.Cuckoo.CuckooTable
