import Kallisto.Library.ExchangeWalk
import Kallisto.Verification.Cuckoo.Operations

/-! # The displacement walk

An entry displaced from a bucket of the first table has that bucket as its own first
bucket, so all exchanges of one insertion happen in one bucket: they are an exchange
walk over its eight slots. It ends at the first carried entry with an empty slot in one
of its buckets. -/

namespace Kallisto.Cuckoo.CuckooTable

open RawMemory

variable {h : Hashing} {t : CuckooTable}

/-! ## Room for an entry -/

/-- One of the two buckets of the entry in a storage cell has an empty slot. -/
def HasRoom (h : Hashing) (t : CuckooTable) (index : UInt32) : Prop :=
  ∃ side j, ¬ t.Occupied (t.home h side (t.keyAt index.toNat) j)

/-- Replacing the contents of an occupied slot leaves the same slots empty. -/
theorem setSlot_occupied_iff {l : Loc} {s : Slot} (hl : t.Occupied l) (hs : s.index ≠ u32Max)
    (m : Loc) : (t.setSlot l s).Occupied m ↔ t.Occupied m := by
  unfold Occupied
  rw [setSlot_slotAt]
  split
  · next hm =>
    subst hm
    exact iff_of_true hs hl
  · rfl

theorem hasRoom_setSlot {l : Loc} {s : Slot} (hl : t.Occupied l) (hs : s.index ≠ u32Max)
    (index : UInt32) : (t.setSlot l s).HasRoom h index ↔ t.HasRoom h index := by
  simp only [HasRoom, setSlot_occupied_iff hl hs, home, setSlot_bucketIndex, setSlot_keyAt]

/-! ## The walk -/

/-- The storage indices in a bucket of the first table. -/
def row (t : CuckooTable) (b : ℕ) (j : Fin 8) : UInt32 :=
  (t.slotAt ⟨.first, b, j⟩).index

def tradeSlot (h : Hashing) (t : CuckooTable) (index : UInt32) (i : ℕ) : Fin 8 :=
  victimSlot h (t.keyAt index.toNat) index i

/-- The bucket and the storage index carried after `n` rounds, the first of which has
number `i`. -/
def tradesFrom (h : Hashing) (t : CuckooTable) (index : UInt32) (i n : ℕ) :
    (Fin 8 → UInt32) × UInt32 :=
  ExchangeWalk.walk (t.tradeSlot h) n i
    (t.row (t.bucketIndex h .first (t.keyAt index.toNat)), index)

/-- The storage index that an insertion carries after `n` rounds. -/
def carriedAfter (h : Hashing) (t : CuckooTable) (index : UInt32) (n : ℕ) : UInt32 :=
  (t.tradesFrom h index 0 n).2

/-- One exchange is one round of the walk. -/
theorem tradesFrom_succ (hinv : Invariant h t) {index tag : UInt32} {i n : ℕ} {l : Loc}
    (hl : l = t.home h .first (t.keyAt index.toNat) (t.tradeSlot h index i))
    (hocc : t.Occupied l) :
    t.tradesFrom h index i (n + 1) =
      (t.setSlot l ⟨tag, index⟩).tradesFrom h (t.slotAt l).index (i + 1) n := by
  subst hl
  have hhome := hinv.slot_home _ hocc
  have hrow : (t.setSlot (t.home h .first (t.keyAt index.toNat) (t.tradeSlot h index i))
      ⟨tag, index⟩).row (t.bucketIndex h .first (t.keyAt index.toNat)) =
        Function.update (t.row (t.bucketIndex h .first (t.keyAt index.toNat)))
          (t.tradeSlot h index i) index := by
    funext j
    rw [row, setSlot_slotAt, Function.update_apply]
    by_cases hj : j = t.tradeSlot h index i
    · rw [if_pos hj, if_pos (by rw [hj]; rfl)]
    · rw [if_neg hj, if_neg]
      · rfl
      · exact fun he => hj (congrArg Loc.slot he)
  have htrade : (t.setSlot (t.home h .first (t.keyAt index.toNat) (t.tradeSlot h index i))
      ⟨tag, index⟩).tradeSlot h = t.tradeSlot h := by
    funext index i
    rw [tradeSlot, setSlot_keyAt]
    rfl
  have hbucket : t.bucketIndex h .first (t.keyAt (t.slotAt
      (t.home h .first (t.keyAt index.toNat) (t.tradeSlot h index i))).index.toNat) =
        t.bucketIndex h .first (t.keyAt index.toNat) := hhome
  rw [tradesFrom, tradesFrom, ExchangeWalk.walk, setSlot_bucketIndex, setSlot_keyAt, htrade,
    hbucket, hrow]
  rfl

/-- Displacement succeeds exactly when the walk meets an entry with room, and otherwise
drops the entry that the last round carries away. -/
theorem displace_walk (fuel : ℕ) : ∀ (i : ℕ) (t : CuckooTable) (index tag : UInt32)
    (key : String), Invariant h t → Carried t index →
    tag = getTag (h.hash1Full key) → key = t.keyAt index.toNat →
    ∀ success t', displace h fuel i t index tag key = .ok (success, t') →
      (success = true ↔ ∃ n < fuel, t.HasRoom h (t.tradesFrom h index i n).2) ∧
      (success = false → ∀ j, t'.Referenced j ↔ (t.Referenced j ∨ j = index.toNat) ∧
        j ≠ (t.tradesFrom h index i fuel).2.toNat) := by
  induction fuel with
  | zero =>
    intro i t index tag key hinv hc _ _ success t' hrun
    obtain ⟨rfl, rfl⟩ := Prod.mk.inj (Except.ok.inj hrun)
    exact ⟨by simp, fun _ => hc.referenced_iff⟩
  | succ fuel ih =>
    intro i t index tag key hinv hc htag hkey success t' hrun
    subst hkey
    have hfits : ∀ (side : Side) (j : Fin 8),
        Fits h t (t.home h side (t.keyAt index.toNat) j) ⟨tag, index⟩ :=
      fun side j => hc.fits htag rfl
    rcases displace_round hinv fuel i index tag (t.keyAt index.toNat) with
      ⟨side, j, ⟨hempty, -⟩, hround⟩ | ⟨hfull, hround⟩
    · rw [hround] at hrun
      obtain ⟨rfl, rfl⟩ := Prod.mk.inj (Except.ok.inj hrun)
      refine ⟨iff_of_true rfl ⟨0, Nat.zero_lt_succ fuel, side, j, findEmpty_some hempty⟩, ?_⟩
      exact fun hfalse => Bool.noConfusion hfalse
    · obtain ⟨l, hl⟩ : ∃ l, l = t.home h .first (t.keyAt index.toNat) (t.tradeSlot h index i) :=
        ⟨_, rfl⟩
      have hocc : t.Occupied l := by
        rw [hl]
        exact findEmpty_none (hfull .first) _
      have hnone : ¬ t.HasRoom h index := by
        rintro ⟨side, j, hempty⟩
        exact hempty (findEmpty_none (hfull side) j)
      have hinv' : Invariant h (t.setSlot l ⟨tag, index⟩) := by
        rw [hl]
        exact hinv.setSlot (hinv.bucketIndex_lt .first _) fun _ => hfits .first _
      have hkeep : ∀ x, (t.setSlot l ⟨tag, index⟩).HasRoom h x ↔ t.HasRoom h x :=
        hasRoom_setSlot hocc (hinv.ne_u32Max hc.lt)
      rw [hround l hl] at hrun
      obtain ⟨hroom, hlost⟩ := ih (i + 1) _ _ _ _ hinv'
        (carried_of_setSlot hinv hocc fun _ he => hc.key_ne _ hocc he.symm)
        (hinv.slot_tag _ hocc) (by rw [setSlot_keyAt]; rfl) success t' hrun
      constructor
      · rw [hroom, Nat.exists_lt_succ_left]
        simp only [← tradesFrom_succ hinv hl hocc, hkeep]
        exact (or_iff_right hnone).symm
      · intro hsuccess j
        rw [hlost hsuccess, referenced_exchange hinv hc hocc, ← tradesFrom_succ hinv hl hocc]

/-! ## The walk that an insertion will make -/

/-- The cell that the next new entry gets: the last free one, or else a fresh one, or else that of
the victim of the CLOCK scan. -/
def nextCell (t : CuckooTable) : UInt32 :=
  .ofNat (if 0 < t.freeListSize then t.freeAt (t.freeListSize - 1)
    else if t.storageSize < t.maxCapacity then t.storageSize
    else t.clockVictim)

/-- The key in a cell once a new entry has its own. -/
def nextKeyAt (t : CuckooTable) (key : String) (index : UInt32) : String :=
  if index = t.nextCell then key else t.keyAt index.toNat

/-- The slots that stay occupied when a new entry gets its cell. -/
def StaysOccupied (t : CuckooTable) (l : Loc) : Prop :=
  t.Occupied l ∧ (t.slotAt l).index ≠ t.nextCell

/-- One of the two buckets of the entry in a cell has an empty slot once a new entry has its own
cell. -/
def WillHaveRoom (h : Hashing) (t : CuckooTable) (key : String) (index : UInt32) : Prop :=
  ∃ side j, ¬ t.StaysOccupied (t.home h side (t.nextKeyAt key index) j)

instance (h : Hashing) (t : CuckooTable) (key : String) (index : UInt32) :
    Decidable (t.WillHaveRoom h key index) :=
  decidable_of_iff
    (∃ side ∈ [Side.first, .second], ∃ j, ¬ (t.Occupied (t.home h side (t.nextKeyAt key index) j) ∧
      (t.slotAt (t.home h side (t.nextKeyAt key index) j)).index ≠ t.nextCell)) (by
    constructor
    · exact fun ⟨side, _, hside⟩ => ⟨side, hside⟩
    · exact fun ⟨side, hside⟩ => ⟨side, by cases side <;> simp, hside⟩)

/-- The cell that the insertion of a new key will carry after `n` rounds. -/
def willCarry (h : Hashing) (t : CuckooTable) (key : String) (n : ℕ) : UInt32 :=
  (ExchangeWalk.walk (fun index => victimSlot h (t.nextKeyAt key index) index) n 0
    (t.row (t.bucketIndex h .first key), t.nextCell)).2

/-- In one of its 256 rounds the insertion of a new key will carry an entry that has room. -/
def FindsPlace (h : Hashing) (t : CuckooTable) (key : String) : Prop :=
  ∃ n < 256, t.WillHaveRoom h key (t.willCarry h key n)

instance (h : Hashing) (t : CuckooTable) (key : String) : Decidable (t.FindsPlace h key) :=
  inferInstanceAs (Decidable (∃ n < 256, t.WillHaveRoom h key (t.willCarry h key n)))

theorem Allocates.index_eq {t₁ : CuckooTable} {key : String} {payload : List UInt8} {index : UInt32}
    (ha : Allocates h t key payload index t₁) : index = t.nextCell := by
  have hnat : (if 0 < t.freeListSize then t.freeAt (t.freeListSize - 1)
      else if t.storageSize < t.maxCapacity then t.storageSize else t.clockVictim) =
      index.toNat := by
    cases ha with
    | free hfree hindex => rw [if_pos hfree, hindex]
    | grow hfree hroom hindex => rw [if_neg (by omega), if_pos hroom, hindex]
    | evict hfree hfull hpos hindex hclear => rw [if_neg (by omega), if_neg (by omega), hindex]
  rw [nextCell, hnat, UInt32.ofNat_toNat]

section Allocated

variable {t₁ : CuckooTable} {key : String} {payload : List UInt8} {index : UInt32}
  (hinv : Invariant h t) (ha : Allocates h t key payload index t₁)
  (halloc : Allocated h t key payload index t₁)

include ha halloc

theorem keyAt_allocated (x : UInt32) : t₁.keyAt x.toNat = t.nextKeyAt key x := by
  rw [nextKeyAt, ← ha.index_eq]
  split
  · next hx => rw [hx, ← halloc.keyAt]
  · next hx => exact congrArg Prod.fst (halloc.frame _ fun he => hx (UInt32.toNat_inj.mp he))

include hinv

theorem occupied_allocated (l : Loc) : t₁.Occupied l ↔ t.StaysOccupied l := by
  rw [StaysOccupied, ← ha.index_eq]
  constructor
  · intro hl
    have hsame := ha.slotAt hinv hl
    have hne := halloc.carried.not_indexAt hl
    rw [indexAt, hsame] at hne
    exact ⟨by rwa [Occupied, ← hsame], fun he => hne (congrArg UInt32.toNat he)⟩
  · rintro ⟨hl, hne⟩
    obtain ⟨m, hm, he⟩ := (halloc.referenced (t.indexAt l)).mpr
      ⟨⟨l, hl, rfl⟩, fun he => hne (UInt32.toNat_inj.mp he)⟩
    have hsame := ha.slotAt hinv hm
    rw [indexAt, hsame] at he
    have hm' : t.Occupied m := by rwa [Occupied, ← hsame]
    rwa [← hinv.index_inj hm' hl he]

theorem hasRoom_allocated (x : UInt32) : t₁.HasRoom h x ↔ t.WillHaveRoom h key x := by
  have hhome : ∀ side k j, t₁.home h side k j = t.home h side k j := by
    intro side k j
    rw [home, bucketIndex, halloc.shape.capacity]
    rfl
  simp only [HasRoom, WillHaveRoom, keyAt_allocated ha halloc, hhome,
    occupied_allocated hinv ha halloc]

/-- A key whose buckets stay full is carried along the slots as they were. -/
theorem carriedAfter_allocated (hfull : ¬ t₁.HasRoom h index) (n : ℕ) :
    t₁.carriedAfter h index n = t.willCarry h key n := by
  have htrade : t₁.tradeSlot h = fun x => victimSlot h (t.nextKeyAt key x) x := by
    funext x i
    rw [tradeSlot, keyAt_allocated ha halloc]
  have hbucket : t₁.bucketIndex h .first (t₁.keyAt index.toNat) = t.bucketIndex h .first key := by
    rw [← halloc.keyAt, bucketIndex, halloc.shape.capacity]
    rfl
  have hrow : t₁.row (t.bucketIndex h .first key) = t.row (t.bucketIndex h .first key) := by
    funext j
    have hocc : t₁.Occupied ⟨.first, t.bucketIndex h .first key, j⟩ := by
      by_contra hempty
      refine hfull ⟨.first, j, ?_⟩
      rwa [home, hbucket]
    rw [row, row, ha.slotAt hinv hocc]
  rw [carriedAfter, tradesFrom, willCarry, htrade, hbucket, hrow, ha.index_eq]

theorem findsPlace_iff :
    (∃ n < 256, t₁.HasRoom h (t₁.carriedAfter h index n)) ↔ t.FindsPlace h key := by
  by_cases hown : t₁.HasRoom h index
  · refine iff_of_true ⟨0, by decide, hown⟩ ⟨0, by decide, ?_⟩
    rw [← hasRoom_allocated hinv ha halloc]
    rwa [ha.index_eq] at hown
  · simp only [FindsPlace, carriedAfter_allocated hinv ha halloc hown,
      hasRoom_allocated hinv ha halloc]

end Allocated

/-! ## The displacement of an insertion -/

/-- Displacement places the new entry exactly when it finds a place for some entry. -/
theorem displace_allocated (hinv : Invariant h t) {t₁ : CuckooTable} {key : String}
    {payload : List UInt8} {index : UInt32} (ha : Allocates h t key payload index t₁)
    (halloc : Allocated h t key payload index t₁) :
    ∃ success t₂, displace h 256 0 t₁ index (getTag (h.hash1Full key)) key = .ok (success, t₂) ∧
      Displaced t₁ index success t₂ ∧ (success = true ↔ t.FindsPlace h key) := by
  obtain ⟨success, t₂, hrun, -, hd⟩ :=
    displace_spec 256 0 t₁ index (getTag (h.hash1Full key)) key halloc.inv halloc.carried rfl
      halloc.keyAt
  have hiff := (displace_walk 256 0 t₁ index _ key halloc.inv halloc.carried rfl halloc.keyAt
    success t₂ hrun).1
  exact ⟨success, t₂, hrun, hd, hiff.trans (findsPlace_iff hinv ha halloc)⟩

/-- The outcome of a displacement that gave up: both buckets of the new entry are full,
and one entry of the first bucket or the new one is dropped. -/
structure GivesUp (h : Hashing) (t₁ : CuckooTable) (index : UInt32) (t' : CuckooTable) :
    Prop where
  inv : Invariant h t'
  arena : SameArena t₁ t'
  noRoom : ∀ n < 256, ¬ t₁.HasRoom h (t₁.carriedAfter h index n)
  lost : t₁.carriedAfter h index 256 = index ∨
    t₁.Referenced (t₁.carriedAfter h index 256).toNat
  referenced : ∀ i, t'.Referenced i ↔ (t₁.Referenced i ∨ i = index.toNat) ∧
    i ≠ (t₁.carriedAfter h index 256).toNat

theorem givesUp_of_displace {t₁ t' : CuckooTable} {key : String} {payload : List UInt8}
    {index : UInt32} (halloc : Allocated h t key payload index t₁)
    (hrun : displace h 256 0 t₁ index (getTag (h.hash1Full key)) key = .ok (false, t')) :
    GivesUp h t₁ index t' := by
  obtain ⟨success, t₂, hrun₂, hinv₂, hd⟩ :=
    displace_spec 256 0 t₁ index (getTag (h.hash1Full key)) key halloc.inv halloc.carried rfl
      halloc.keyAt
  obtain ⟨hroom, hlost⟩ := displace_walk 256 0 t₁ index _ key halloc.inv halloc.carried rfl
    halloc.keyAt false t' hrun
  rw [hrun] at hrun₂
  obtain ⟨rfl, rfl⟩ := Prod.mk.inj (Except.ok.inj hrun₂)
  have hnone : ∀ n < 256, ¬ t₁.HasRoom h (t₁.carriedAfter h index n) :=
    fun n hn hr => Bool.false_ne_true (hroom.mpr ⟨n, hn, hr⟩)
  refine ⟨hinv₂, hd.arena, hnone, ?_, hlost rfl⟩
  rcases ExchangeWalk.walk_mem 256 0 (t₁.row _, index) with hsame | ⟨j, hj⟩
  · exact Or.inl hsame
  · right
    refine ⟨_, ?_, congrArg UInt32.toNat hj.symm⟩
    by_contra hempty
    exact hnone 0 (by decide) ⟨.first, j, hempty⟩

end Kallisto.Cuckoo.CuckooTable
