import Kallisto.Verification.Cuckoo.Crowding

/-! # A full bucket and the last cell

Keys that fill their positions one after the other do so in a larger arena as well. With
`2 ^ 32` storage cells the last one has the index that marks an empty slot, so an entry
in this cell leaves the slot it was written to open to the next one. -/

namespace Kallisto.Cuckoo.CuckooTable

open RawMemory

variable {h : Hashing} {t : CuckooTable} {size cap n : ℕ} {key : ℕ → String} {loc : ℕ → Loc}

/-! ## A larger arena -/

/-- The table with an arena of `cap` cells, none of which was freed. -/
def widen (cap : ℕ) (t : CuckooTable) : CuckooTable :=
  { t with storage := ⟨cap, t.storage.cell⟩, maxCapacity := cap, freeList := .filled cap 0 }

/-- A read that does not fault gives the same in a larger block. -/
theorem read_widen (hcap : t.storage.size ≤ cap) {i : ℕ} {e : SecretEntry}
    (hread : t.storage.read i = .ok e) : (t.widen cap).storage.read i = .ok e := by
  unfold Block.read at hread
  split at hread
  · next hi =>
    split at hread
    · next hcell =>
      cases hread
      exact Block.read_eq_ok (hi.trans_le hcap) hcell
    · cases hread
  · cases hread

theorem findKey_widen (hcap : t.storage.size ≤ cap) (bucket : Bucket) (tag : UInt32)
    (key : String) {slots : List (Fin 8)} {r : Option (Fin 8)}
    (hfind : findKey t.storage bucket tag key slots = .ok r) :
    findKey (t.widen cap).storage bucket tag key slots = .ok r := by
  induction slots with
  | nil => exact hfind
  | cons i slots ih =>
    rw [findKey] at hfind ⊢
    by_cases hslot : (bucket i).index ≠ u32Max ∧ (bucket i).tag = tag
    · rw [if_pos hslot] at hfind ⊢
      cases hread : t.storage.read (bucket i).index.toNat with
      | error e =>
        rw [hread] at hfind
        cases hfind
      | ok e =>
        rw [hread, ok_bind] at hfind
        rw [read_widen hcap hread, ok_bind]
        split at hfind
        · next hkey =>
          rw [if_pos hkey]
          exact hfind
        · next hkey =>
          rw [if_neg hkey]
          exact ih hfind
    · rw [if_neg hslot] at hfind ⊢
      exact ih hfind

/-- A key that is not found is not found in the larger arena either. -/
theorem search_widen (hinv : Invariant h t) (hcap : t.maxCapacity ≤ cap) {key : String}
    (hsearch : t.search h key = .ok none) : (t.widen cap).search h key = .ok none := by
  have hsize : t.storage.size ≤ cap := hinv.storage_size.trans_le hcap
  have hread₁ : t.table1.read (t.bucketIndex h .first key) = .ok _ :=
    hinv.read_bucket .first (hinv.bucketIndex_lt .first key)
  have hread₂ : t.table2.read (t.bucketIndex h .second key) = .ok _ :=
    hinv.read_bucket .second (hinv.bucketIndex_lt .second key)
  obtain ⟨r₁, hfind₁, -, -⟩ := findKey_bucket hinv .first key
  obtain ⟨r₂, hfind₂, -, -⟩ := findKey_bucket hinv .second key
  rw [search, hread₁, ok_bind, hfind₁] at hsearch
  change (t.table1.read (t.bucketIndex h .first key) >>= _) = _
  rw [hread₁, ok_bind, findKey_widen hsize _ _ _ hfind₁]
  cases r₁ with
  | some i => cases hsearch
  | none =>
    simp only [ok_bind, hread₂, hfind₂] at hsearch
    change (t.table2.read (t.bucketIndex h .second key) >>= _) = _
    rw [hread₂, ok_bind, findKey_widen hsize _ _ _ hfind₂]
    cases r₂ with
    | some i => cases hsearch
    | none => rfl

theorem widen_slotAt (t : CuckooTable) (cap : ℕ) (l : Loc) :
    (t.widen cap).slotAt l = t.slotAt l := by
  obtain ⟨side, b, j⟩ := l
  cases side <;> rfl

theorem widen_setSlot (l : Loc) (s : Slot) :
    (t.setSlot l s).widen cap = (t.widen cap).setSlot l s := by
  obtain ⟨side, b, j⟩ := l
  cases side <;> rfl

theorem Accessible.grown (hacc : Accessible h t) (cap : ℕ) (e : SecretEntry) :
    Accessible h ((t.widen cap).growStorage e) where
  read side key := by
    cases side with
    | first => exact hacc.read .first key
    | second => exact hacc.read .second key
  write side key bucket := by
    cases side with
    | first => exact hacc.write .first key bucket
    | second => exact hacc.write .second key bucket

/-- The next cell of an arena is handed out, also the one whose index marks empty slots. -/
theorem allocate_widen (hfree : t.freeListSize = 0) (hroom : t.storageSize < cap)
    {index : UInt32} (hindex : index.toNat = t.storageSize) (key : String)
    (payload : List UInt8) :
    (t.widen cap).allocate h key payload =
      .ok (some index, (t.widen cap).growStorage (freshEntry key payload)) := by
  have hofNat : UInt32.ofNat t.storageSize = index := by
    rw [← hindex, UInt32.ofNat_toNat]
  have hnot : ¬ (t.widen cap).freeListSize > 0 := by
    change ¬ t.freeListSize > 0
    omega
  have hspace : (t.widen cap).storageSize < (t.widen cap).maxCapacity := hroom
  have hwrite : (t.widen cap).storage.write index.toNat (freshEntry key payload) =
      .ok ((t.widen cap).storage.set index.toNat (freshEntry key payload)) :=
    Block.write_eq_ok _ (by rw [hindex]; exact hroom)
  rw [allocate, if_neg hnot, if_pos hspace]
  change ((t.widen cap).storage.write (UInt32.ofNat t.storageSize).toNat _ >>= fun storage =>
    pure (some (UInt32.ofNat t.storageSize), _)) = _
  rw [hofNat, hwrite, ok_bind, hindex]
  rfl

/-- A key that goes to its position does so in a larger arena. -/
theorem Laid.insert_widen (ht : Laid h size key loc n t) (hnext : Next h size key loc n)
    (hroom : n < t.maxCapacity) (hcap : t.maxCapacity ≤ cap) (entry : SecretEntry)
    {t' : CuckooTable} (hins : t.insert h (key n) entry = .ok (true, t')) :
    (t.widen cap).insert h (key n) entry = .ok (true, t'.widen cap) := by
  have habsent := ht.absent hnext
  have hsearch := search_of_absent ht.inv habsent
  rcases insert_cases ht.inv (key n) entry with
    ⟨l, hl, hkey, -⟩ | ⟨-, ⟨hzero, -⟩ | ⟨index, t₁, -, ha, hrun⟩⟩
  · exact (habsent l hl hkey).elim
  · omega
  · have halloc := ha.allocated ht.inv habsent
    cases ha with
    | free hfree hindex => exact absurd hfree (by rw [ht.freeListSize]; omega)
    | evict hfree hfull hpos hindex hclear =>
      exact absurd hfull (by rw [ht.storageSize]; exact hroom.ne)
    | grow hfree hspace hindex =>
      rw [ht.displace hnext halloc.inv.accessible rfl (fun _ => rfl), hins] at hrun
      obtain ⟨-, rfl⟩ := Prod.mk.inj (Except.ok.inj hrun)
      have hslot : ∀ l, ((t.widen cap).growStorage
          (freshEntry (key n) entry.payload)).slotAt l = t.slotAt l := fun l =>
        (growStorage_slotAt _ _ l).trans (widen_slotAt t cap l)
      have hplace : CuckooTable.displace h 256 0 ((t.widen cap).growStorage
          (freshEntry (key n) entry.payload)) index (getTag (h.hash1Full (key n))) (key n) = _ :=
        ht.displace hnext (ht.inv.accessible.grown cap _) rfl hslot _ 255 0
      rw [CuckooTable.insert, search_widen ht.inv hcap hsearch, ok_bind]
      dsimp only
      rw [allocate_widen hfree (hspace.trans_le hcap) hindex, ok_bind, widen_setSlot]
      exact hplace

theorem run_fillOps_widen (hsize : 1 ≤ size)
    (hcap : (CuckooTable.new size cap).maxCapacity ≤ u32Max.toNat) {wide : ℕ}
    (hwide : (CuckooTable.new size cap).maxCapacity ≤ wide) (entry : SecretEntry)
    (hroom : n ≤ (CuckooTable.new size cap).maxCapacity)
    (hnext : ∀ i, i < n → Next h size key loc i) :
    ∃ t, ((CuckooTable.new size cap).widen wide).run h (fillOps key entry n) =
        .ok (t.widen wide) ∧
      Laid h size key loc n t ∧ SameShape (CuckooTable.new size cap) t := by
  induction n with
  | zero => exact ⟨_, rfl, laid_new hsize hcap, rfl, rfl⟩
  | succ n ih =>
    obtain ⟨t, hrun, ht, hshape⟩ := ih (by omega) fun i hi => hnext i (by omega)
    have hspace : n < t.maxCapacity := by
      rw [hshape.maxCapacity]
      omega
    obtain ⟨t', hins, ht', hshape'⟩ := ht.insert (hnext n (Nat.lt_succ_self n)) hspace entry
    have hwider := ht.insert_widen (hnext n (Nat.lt_succ_self n)) hspace
      (hshape.maxCapacity.trans_le hwide) entry hins
    exact ⟨t', run_fillOps_succ hrun hwider, ht', hshape'.capacity.trans hshape.capacity,
      hshape'.maxCapacity.trans hshape.maxCapacity⟩

/-- Overwriting a slot leaves every bucket accessible. -/
theorem Accessible.setSlot (hacc : Accessible h t) (l : Loc) (s : Slot) :
    Accessible h (t.setSlot l s) := by
  have hbound : ∀ side key, t.bucketIndex h side key < (t.table side).size := by
    intro side key
    by_contra hnot
    have hwrite := hacc.write side key fun _ => .empty
    rw [Block.write, if_neg hnot] at hwrite
    cases hwrite
  have hsize : ∀ side, ((t.setSlot l s).table side).size = (t.table side).size := by
    intro side
    rw [setSlot_table]
    split <;> rfl
  have hcell : ∀ side key, ∃ bucket,
      ((t.setSlot l s).table side).cell (t.bucketIndex h side key) = some bucket := by
    intro side key
    have hold : ((t.table side).cell (t.bucketIndex h side key)).isSome := by
      have hread := hacc.read side key
      rw [Block.read, if_pos (hbound side key)] at hread
      cases hcell : (t.table side).cell (t.bucketIndex h side key) with
      | some bucket => rfl
      | none =>
        rw [hcell] at hread
        cases hread
    rw [setSlot_table]
    split
    · rw [Block.set_cell]
      split
      · exact ⟨_, rfl⟩
      · exact Option.isSome_iff_exists.mp hold
    · exact Option.isSome_iff_exists.mp hold
  constructor
  · intro side key
    obtain ⟨bucket, hbucket⟩ := hcell side key
    rw [setSlot_bucketIndex, Block.read_eq_ok (by rw [hsize]; exact hbound side key) hbucket,
      bucketAt, hbucket, Option.getD_some]
  · intro side key bucket
    rw [setSlot_bucketIndex]
    exact Block.write_eq_ok bucket (by rw [hsize]; exact hbound side key)

end Kallisto.Cuckoo.CuckooTable

namespace Kallisto.Cuckoo.LastCell

open CuckooTable RawMemory
open Overflow (key key_length key_inj secret)

/-! ## The last cell -/

/-- The first `8 * w` keys belong to `w` buckets of the first table, eight to each, and all
further keys to the first bucket. -/
def first (w i : ℕ) : UInt64 :=
  if i < 8 * w then .ofNat (i / 8) else 0

/-- The keys behind them but one fill `w` buckets of the second table. -/
def second (w i : ℕ) : UInt64 :=
  if i < 16 * w - 1 then .ofNat (i / 8 - w) else 0

def hashing (w : ℕ) : Hashing :=
  Crowding.hashing (first w) (second w)

/-- The key behind all others. -/
def lastKey (w : ℕ) : String :=
  key (16 * w - 1)

variable {w size cap : ℕ} {t : CuckooTable}

theorem toNat_ofNat_mod {i : ℕ} (hi : i < size) (hword : size ≤ 2 ^ 64) :
    (UInt64.ofNat i).toNat % size = i := by
  rw [UInt64.toNat_ofNat', Nat.mod_eq_of_lt (hi.trans_le hword), Nat.mod_eq_of_lt hi]

theorem next {i : ℕ} (hw : w ≤ size) (hword : size ≤ 2 ^ 64) (hi : i < 16 * w - 1) :
    Next (hashing w) size key (rowByRow w 0) i := by
  refine next_rowByRow (by omega) (fun j hj he => hj.ne (key_inj he)) ?_ ?_
  · intro hlt
    change (first w (key i).length).toNat % size = i / 8
    rw [key_length, first, if_pos hlt]
    exact toNat_ofNat_mod (by omega) hword
  · intro hle
    change (first w (key i).length).toNat % size < w ∧ (second w (key i).length).toNat % size = _
    rw [key_length, first, if_neg (Nat.not_lt.mpr hle), second, if_pos hi]
    constructor
    · change 0 % size < w
      rw [Nat.zero_mod]
      omega
    · have hrow : i / 8 - w < w := by omega
      rw [toNat_ofNat_mod (hrow.trans_le hw) hword, Nat.zero_add, Nat.mod_eq_of_lt hrow]

/-- The keys in the first bucket and the key behind all others have the first buckets. -/
theorem bucketIndex_eq_zero (hw : 2 ≤ w) {m : ℕ} (hm : m < 8 ∨ m = 16 * w - 1) (side : Side) :
    t.bucketIndex (hashing w) side (key m) = 0 := by
  have hfirst : first w m = 0 := by
    rw [first]
    split
    · have hzero : m / 8 = 0 := by omega
      rw [hzero]
      rfl
    · rfl
  have hsecond : second w m = 0 := by
    rw [second]
    split
    · have hzero : m / 8 - w = 0 := by omega
      rw [hzero]
      rfl
    · rfl
  cases side with
  | first =>
    change (first w (key m).length).toNat % t.capacity = 0
    rw [key_length, hfirst]
    exact Nat.zero_mod _
  | second =>
    change (second w (key m).length).toNat % t.capacity = 0
    rw [key_length, hsecond]
    exact Nat.zero_mod _

theorem bucketIndex_lastKey (hw : 2 ≤ w) (side : Side) :
    t.bucketIndex (hashing w) side (lastKey w) = 0 :=
  bucketIndex_eq_zero hw (Or.inr rfl) side

section Full

variable (ht : Laid (hashing w) size key (rowByRow w 0) (16 * w - 1) t) (hw : 2 ≤ w)

include ht hw

theorem slot_first (j : Fin 8) :
    t.Occupied ⟨.first, 0, j⟩ ∧ t.indexAt ⟨.first, 0, j⟩ = j.val := by
  have hj := j.isLt
  have hloc : rowByRow w 0 j.val = ⟨.first, 0, j⟩ := by
    rw [rowByRow_first (by omega)]
    simp only [Loc.mk.injEq, true_and]
    exact ⟨by omega, Fin.ext (Nat.mod_eq_of_lt hj)⟩
  rw [← hloc]
  exact ht.slot j.val (by omega)

theorem occupied_second (j : Fin 8) : t.Occupied ⟨.second, 0, j⟩ := by
  have hj := j.isLt
  have hloc : rowByRow w 0 (8 * w + j.val) = ⟨.second, 0, j⟩ := by
    have hrow : (8 * w + j.val) / 8 - w = 0 := by omega
    have hslot : (8 * w + j.val) % 8 = j.val := by omega
    rw [rowByRow_second (by omega), hrow]
    simp only [Loc.mk.injEq, true_and]
    exact ⟨Nat.zero_mod w, Fin.ext hslot⟩
  rw [← hloc]
  exact (ht.slot _ (by omega)).1

/-- The new entry goes to the last cell and into a slot of its full first bucket. The slot
looks empty, so the entry displaced from it takes a slot of the same bucket in the next
round, although its second bucket is full as well. -/
theorem rounds_lastCell (hcap : t.maxCapacity ≤ cap) (e : SecretEntry) (tag : UInt32) :
    ∃ next t', Hand.round (hashing w)
        ⟨(t.widen cap).growStorage e, u32Max, tag, lastKey w⟩ 0 = .ok (.inr next) ∧
      next.round (hashing w) 1 = .ok (.inl (true, t')) ∧
      ∀ j, next.table.Occupied (next.table.home (hashing w) .second next.key j) := by
  obtain ⟨t₁, ht₁⟩ : ∃ t₁, t₁ = (t.widen cap).growStorage e := ⟨_, rfl⟩
  have hslot : ∀ l, t₁.slotAt l = t.slotAt l := by
    intro l
    rw [ht₁, growStorage_slotAt, widen_slotAt]
  have hacc : Accessible (hashing w) t₁ := by
    rw [ht₁]
    exact ht.inv.accessible.grown cap e
  have hfull : ∀ side j, t₁.Occupied ⟨side, 0, j⟩ := by
    intro side j
    rw [Occupied, hslot]
    cases side with
    | first => exact (slot_first ht hw j).1
    | second => exact occupied_second ht hw j
  have hhome : ∀ side j, t₁.home (hashing w) side (lastKey w) j = ⟨side, 0, j⟩ := by
    intro side j
    rw [home, bucketIndex_lastKey hw]
  -- The slot to trade with holds one of the first eight cells.
  obtain ⟨j₀, hj₀⟩ : ∃ j, j = victimSlot (hashing w) (lastKey w) u32Max 0 := ⟨_, rfl⟩
  have hj := j₀.isLt
  have hindex : t₁.indexAt ⟨.first, 0, j₀⟩ = j₀.val := by
    rw [indexAt, hslot]
    exact (slot_first ht hw j₀).2
  have hlt : j₀.val < t.storageSize := by
    rw [ht.storageSize]
    omega
  have hread : t₁.storage.read (t₁.indexAt ⟨.first, 0, j₀⟩) = .ok (t.entryAt j₀.val) := by
    have hwide := read_widen (ht.inv.storage_size.trans_le hcap) (ht.inv.read_storage hlt)
    rw [hindex, ht₁, ← hwide]
    change Block.read (((t.widen cap).storage).set t.storageSize e) j₀.val = _
    rw [Block.read, Block.read, Block.set_cell, if_neg hlt.ne]
    rfl
  have hkey : (t.entryAt j₀.val).key = key j₀.val := ht.key j₀.val (by omega)
  rw [← ht₁]
  rcases hacc.round_cases 0 u32Max tag (lastKey w) with
    ⟨side, j, ⟨hempty, -⟩, -⟩ | ⟨-, hround⟩
  · have hnot := findEmpty_some hempty
    rw [hhome] at hnot
    exact (hnot (hfull side j)).elim
  · have hround₀ := hround ⟨.first, 0, j₀⟩ _ (by rw [hj₀, hhome]) hread
    rw [hkey] at hround₀
    have hhome' : ∀ side j, (t₁.setSlot ⟨.first, 0, j₀⟩ ⟨tag, u32Max⟩).home (hashing w) side
        (key j₀.val) j = ⟨side, 0, j⟩ := by
      intro side j
      rw [home, bucketIndex_eq_zero hw (Or.inl hj)]
    rcases (hacc.setSlot ⟨.first, 0, j₀⟩ ⟨tag, u32Max⟩).round_cases 1
        (t₁.slotAt ⟨.first, 0, j₀⟩).index (t₁.slotAt ⟨.first, 0, j₀⟩).tag (key j₀.val) with
      ⟨side, j, -, hround₁⟩ | ⟨hnone, -⟩
    · refine ⟨_, _, hround₀, hround₁, fun j => ?_⟩
      change (t₁.setSlot ⟨.first, 0, j₀⟩ ⟨tag, u32Max⟩).Occupied _
      rw [hhome', Occupied, setSlot_slotAt_of_ne _ _ _ fun he => Side.noConfusion
        (congrArg Loc.side he)]
      exact hfull .second j
    · have hocc := findEmpty_none (hnone .first) j₀
      rw [hhome', Occupied, setSlot_slotAt_self] at hocc
      exact (hocc rfl).elim

end Full

end Kallisto.Cuckoo.LastCell
