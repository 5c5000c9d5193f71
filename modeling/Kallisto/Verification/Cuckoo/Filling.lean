import Kallisto.Verification.Cuckoo.Displacement
import Kallisto.Verification.Cuckoo.Overflow

/-! # Filling a table slot by slot

When every new key finds an empty slot right away, a sequence of insertions lays the
entries out at positions known beforehand. -/

namespace Kallisto.Cuckoo.CuckooTable

open RawMemory

variable {h : Hashing} {t : CuckooTable} {size cap n : ℕ} {key : ℕ → String} {loc : ℕ → Loc}

/-! ## The first empty slot -/

theorem findEmpty_eq_some {side : Side} {k : String} {j : Fin 8}
    (hempty : ¬ t.Occupied (t.home h side k j))
    (hbefore : ∀ i, i < j → t.Occupied (t.home h side k i)) :
    findEmpty (t.bucketAt side (t.bucketIndex h side k)) = some j := by
  rw [findEmpty, findIndex, List.find?_eq_some_iff_getElem]
  refine ⟨decide_eq_true (not_not.mp hempty), j.val, by simp, by simp, ?_⟩
  intro i hi
  have hlt : i < 8 := hi.trans j.isLt
  have hocc : (t.bucketAt side (t.bucketIndex h side k) ⟨i, hlt⟩).index ≠ u32Max :=
    hbefore ⟨i, hlt⟩ hi
  simpa using hocc

theorem findEmpty_eq_none {side : Side} {k : String}
    (hfull : ∀ j, t.Occupied (t.home h side k j)) :
    findEmpty (t.bucketAt side (t.bucketIndex h side k)) = none := by
  rw [findEmpty, findIndex, List.find?_eq_none]
  intro j _
  have hocc : (t.bucketAt side (t.bucketIndex h side k) j).index ≠ u32Max := hfull j
  simpa using hocc

/-! ## One more entry -/

/-- The table holds the first `n` keys, the `i`-th in cell `i` and at position `loc i`. -/
structure Laid (h : Hashing) (size : ℕ) (key : ℕ → String) (loc : ℕ → Loc) (n : ℕ)
    (t : CuckooTable) : Prop where
  inv : Invariant h t
  capacity : t.capacity = size
  storageSize : t.storageSize = n
  freeListSize : t.freeListSize = 0
  key : ∀ i, i < n → t.keyAt i = key i
  slot : ∀ i, i < n → t.Occupied (loc i) ∧ t.indexAt (loc i) = i
  empty : ∀ l, (∀ i, i < n → loc i ≠ l) → ¬ t.Occupied l

/-- The position of the next key is the first empty slot of its first bucket, or of its
second one when the first bucket is full. -/
structure Next (h : Hashing) (size : ℕ) (key : ℕ → String) (loc : ℕ → Loc) (n : ℕ) : Prop where
  home : (h.full (loc n).side (key n)).toNat % size = (loc n).bucket
  new : ∀ i, i < n → key i ≠ key n
  fresh : ∀ i, i < n → loc i ≠ loc n
  packed : ∀ j, j < (loc n).slot → ∃ i, i < n ∧ loc i = { loc n with slot := j }
  spill : (loc n).side = .second →
    ∀ j, ∃ i, i < n ∧ loc i = ⟨.first, (h.hash1Full (key n)).toNat % size, j⟩

theorem laid_new (hsize : 1 ≤ size) (hcap : (CuckooTable.new size cap).maxCapacity ≤ u32Max.toNat) :
    Laid h size key loc 0 (CuckooTable.new size cap) where
  inv := invariant_new h size cap hsize hcap
  capacity := rfl
  storageSize := rfl
  freeListSize := rfl
  key i hi := (Nat.not_lt_zero i hi).elim
  slot i hi := (Nat.not_lt_zero i hi).elim
  empty l _ := not_occupied_new size cap l

theorem Laid.occupied_iff (ht : Laid h size key loc n t) (l : Loc) :
    t.Occupied l ↔ ∃ i, i < n ∧ loc i = l := by
  constructor
  · intro hl
    by_contra hnone
    exact ht.empty l (fun i hi he => hnone ⟨i, hi, he⟩) hl
  · rintro ⟨i, hi, rfl⟩
    exact (ht.slot i hi).1

/-- The key of every occupied slot is one of those inserted. -/
theorem Laid.slotKey (ht : Laid h size key loc n t) {l : Loc} (hl : t.Occupied l) :
    ∃ i, i < n ∧ t.slotKey l = key i := by
  obtain ⟨i, hi, rfl⟩ := (ht.occupied_iff l).mp hl
  refine ⟨i, hi, ?_⟩
  rw [CuckooTable.slotKey, (ht.slot i hi).2, ht.key i hi]

theorem Laid.home_eq (ht : Laid h size key loc n t) (hnext : Next h size key loc n) :
    t.home h (loc n).side (key n) (loc n).slot = loc n := by
  rw [home, bucketIndex, ht.capacity, hnext.home]

/-- The next key goes to its position. -/
theorem Laid.displace (ht : Laid h size key loc n t) (hnext : Next h size key loc n)
    {t₁ : CuckooTable} {index : UInt32} (hacc₁ : Accessible h t₁)
    (hcapacity : t₁.capacity = t.capacity) (hslot : ∀ l, t₁.slotAt l = t.slotAt l)
    (tag : UInt32) (fuel i : ℕ) :
    CuckooTable.displace h (fuel + 1) i t₁ index tag (key n) =
      .ok (true, t₁.setSlot (loc n) ⟨tag, index⟩) := by
  have hocc : ∀ l, t₁.Occupied l ↔ t.Occupied l := by
    intro l
    rw [Occupied, hslot]
    rfl
  have hhome : ∀ side j, t₁.home h side (key n) j = t.home h side (key n) j := by
    intro side j
    rw [home, bucketIndex, hcapacity]
    rfl
  have hplace : t₁.home h (loc n).side (key n) (loc n).slot = loc n := by
    rw [hhome, ht.home_eq hnext]
  have hfree : findEmpty (t₁.bucketAt (loc n).side (t₁.bucketIndex h (loc n).side (key n))) =
      some (loc n).slot := by
    apply findEmpty_eq_some
    · rw [hplace, hocc, ht.occupied_iff]
      rintro ⟨i, hi, he⟩
      exact hnext.fresh i hi he
    · intro j hj
      obtain ⟨i, hi, he⟩ := hnext.packed j hj
      rw [hocc, hhome, ht.occupied_iff]
      refine ⟨i, hi, he.trans ?_⟩
      rw [home, bucketIndex, ht.capacity, hnext.home]
  have hspill : (loc n).side = .second →
      findEmpty (t₁.bucketAt .first (t₁.bucketIndex h .first (key n))) = none := by
    intro hside
    apply findEmpty_eq_none
    intro j
    obtain ⟨i, hi, he⟩ := hnext.spill hside j
    rw [hocc, hhome, ht.occupied_iff]
    refine ⟨i, hi, he.trans ?_⟩
    rw [home, bucketIndex, ht.capacity]
    rfl
  have hsucc := displace_succ (h := h) fuel i ⟨t₁, index, tag, key n⟩
  rcases hacc₁.round_cases i index tag (key n) with
    ⟨side, j, ⟨hempty, hfirst⟩, hround⟩ | ⟨hfull, -⟩
  · have hside : side = (loc n).side := by
      cases hloc : (loc n).side with
      | first =>
        cases side with
        | first => rfl
        | second =>
          rw [hloc, hfirst rfl] at hfree
          cases hfree
      | second =>
        cases side with
        | first =>
          rw [hspill hloc] at hempty
          cases hempty
        | second => rfl
    subst hside
    rw [hfree] at hempty
    obtain rfl := Option.some.inj hempty
    rw [hsucc, hround, hplace]
    rfl
  · rw [hfull] at hfree
    cases hfree

/-- A fresh cell at the next position lays out one entry more. -/
theorem Laid.place (ht : Laid h size key loc n t) (hnext : Next h size key loc n)
    {payload : List UInt8} {index : UInt32} (hindex : index.toNat = n)
    (halloc : Allocated h t (key n) payload index (t.growStorage (freshEntry (key n) payload))) :
    Laid h size key loc (n + 1) ((t.growStorage (freshEntry (key n) payload)).setSlot (loc n)
      ⟨getTag (h.hash1Full (key n)), index⟩) := by
  have hne : index ≠ u32Max := halloc.inv.ne_u32Max halloc.carried.lt
  have hbucket : t.bucketIndex h (loc n).side (key n) = (loc n).bucket := by
    rw [bucketIndex, ht.capacity, hnext.home]
  have hother : ∀ l, l ≠ loc n → ((t.growStorage (freshEntry (key n) payload)).setSlot (loc n)
      ⟨getTag (h.hash1Full (key n)), index⟩).slotAt l = t.slotAt l :=
    fun l hl => setSlot_slotAt_of_ne _ _ _ hl
  refine ⟨?_, ?_, ?_, ?_, ?_, ?_, ?_⟩
  · refine halloc.inv.setSlot ?_ fun _ => halloc.carried.fits ?_ ?_
    · rw [← hbucket]
      exact ht.inv.bucketIndex_lt _ _
    · rw [← halloc.keyAt]
    · rw [← halloc.keyAt]
      exact hbucket
  · rw [setSlot_capacity]
    exact ht.capacity
  · rw [setSlot_storageSize]
    exact congrArg (· + 1) ht.storageSize
  · rw [setSlot_freeListSize]
    exact ht.freeListSize
  · intro i hi
    rw [setSlot_keyAt, keyAt, growStorage_entryAt, ht.storageSize]
    split
    · next he => rw [he]; rfl
    · exact ht.key i (by omega)
  · intro i hi
    rcases Nat.lt_succ_iff_lt_or_eq.mp hi with hlt | rfl
    · have hslot := hother _ (hnext.fresh i hlt)
      refine ⟨?_, ?_⟩
      · rw [Occupied, hslot]
        exact (ht.slot i hlt).1
      · rw [indexAt, hslot]
        exact (ht.slot i hlt).2
    · rw [Occupied, indexAt, setSlot_slotAt_self]
      exact ⟨hne, hindex⟩
  · intro l hl
    rw [Occupied, hother l (hl n (Nat.lt_succ_self n)).symm]
    exact ht.empty l fun i hi => hl i (Nat.lt_succ_of_lt hi)

theorem Laid.absent (ht : Laid h size key loc n t) (hnext : Next h size key loc n) :
    ∀ l, t.Occupied l → t.slotKey l ≠ key n := by
  intro l hl
  obtain ⟨i, hi, he⟩ := ht.slotKey hl
  rw [he]
  exact hnext.new i hi

theorem Laid.insert (ht : Laid h size key loc n t) (hnext : Next h size key loc n)
    (hroom : n < t.maxCapacity) (entry : SecretEntry) :
    ∃ t', t.insert h (key n) entry = .ok (true, t') ∧ Laid h size key loc (n + 1) t' ∧
      SameShape t t' := by
  have habsent := ht.absent hnext
  rcases insert_cases ht.inv (key n) entry with
    ⟨l, hl, hkey, -⟩ | ⟨-, ⟨hzero, -⟩ | ⟨index, t₁, -, ha, hrun⟩⟩
  · exact (habsent l hl hkey).elim
  · omega
  · have halloc := ha.allocated ht.inv habsent
    cases ha with
    | free hfree hindex => exact absurd hfree (by rw [ht.freeListSize]; omega)
    | evict hfree hfull hpos hindex hclear =>
      exact absurd hfull (by rw [ht.storageSize]; exact hroom.ne)
    | grow hfree hspace hindex =>
      rw [ht.storageSize] at hindex
      rw [ht.displace hnext halloc.inv.accessible rfl (fun _ => rfl)] at hrun
      exact ⟨_, hrun, ht.place hnext hindex halloc, setSlot_capacity _ _ _,
        setSlot_maxCapacity _ _ _⟩

/-! ## The whole sequence -/

theorem run_append (ops ops' : List Op) : ∀ t : CuckooTable,
    t.run h (ops ++ ops') = t.run h ops >>= fun t' => t'.run h ops' := by
  induction ops with
  | nil => exact fun t => rfl
  | cons op ops ih =>
    intro t
    rw [List.cons_append, run, run, bind_assoc]
    simp only [ih]

def fillOps (key : ℕ → String) (entry : SecretEntry) (n : ℕ) : List Op :=
  (List.range n).map fun i => .insert (key i) entry

theorem run_fillOps_succ {t₀ t t' : CuckooTable} {entry : SecretEntry}
    (hrun : t₀.run h (fillOps key entry n) = .ok t)
    (hins : t.insert h (key n) entry = .ok (true, t')) :
    t₀.run h (fillOps key entry (n + 1)) = .ok t' := by
  rw [fillOps, List.range_succ, List.map_append, run_append, ← fillOps, hrun, ok_bind,
    List.map_singleton, run, apply, hins, map_ok, ok_bind]
  rfl

/-- Keys that find their positions one after the other are laid out there. -/
theorem run_fillOps (hsize : 1 ≤ size)
    (hcap : (CuckooTable.new size cap).maxCapacity ≤ u32Max.toNat) (entry : SecretEntry)
    (hroom : n ≤ (CuckooTable.new size cap).maxCapacity)
    (hnext : ∀ i, i < n → Next h size key loc i) :
    ∃ t, (CuckooTable.new size cap).run h (fillOps key entry n) = .ok t ∧
      Laid h size key loc n t ∧ SameShape (CuckooTable.new size cap) t := by
  induction n with
  | zero => exact ⟨_, rfl, laid_new hsize hcap, rfl, rfl⟩
  | succ n ih =>
    obtain ⟨t, hrun, ht, hshape⟩ := ih (by omega) fun i hi => hnext i (by omega)
    obtain ⟨t', hins, ht', hshape'⟩ := ht.insert (hnext n (Nat.lt_succ_self n))
      (by rw [hshape.maxCapacity]; omega) entry
    exact ⟨t', run_fillOps_succ hrun hins, ht', hshape'.capacity.trans hshape.capacity,
      hshape'.maxCapacity.trans hshape.maxCapacity⟩

/-- One key to a bucket, also where the storage has more cells than there are indices. -/
theorem run_filled (n : ℕ) (hsize : n ≤ size) (hcap : n ≤ cap) (hindex : n ≤ 2 ^ 32) :
    (Overflow.filled size cap 0).run Overflow.hashing.toHashing
      (fillOps Overflow.key Overflow.secret n) = .ok (Overflow.filled size cap n) := by
  induction n with
  | zero => rfl
  | succ n ih =>
    have hins : (Overflow.filled size cap n).insert Overflow.hashing.toHashing
        (Overflow.key n) Overflow.secret = .ok (true, Overflow.filled size cap (n + 1)) :=
      Overflow.insert_filled_of_lt (by omega) (by omega) (by omega)
    exact run_fillOps_succ (ih (by omega) (by omega) (by omega)) hins

/-! ## Bucket after bucket -/

/-- The first `w` buckets of the first table are filled one after the other, then the
first `w` buckets of the second table, starting with number `b₀`. -/
def rowByRow (w b₀ i : ℕ) : Loc :=
  if i < 8 * w then ⟨.first, i / 8, ⟨i % 8, Nat.mod_lt i (Nat.zero_lt_succ 7)⟩⟩
  else ⟨.second, (b₀ + (i / 8 - w)) % w, ⟨i % 8, Nat.mod_lt i (Nat.zero_lt_succ 7)⟩⟩

section RowByRow

variable {w b₀ : ℕ}

theorem rowByRow_first {i : ℕ} (hi : i < 8 * w) :
    rowByRow w b₀ i = ⟨.first, i / 8, ⟨i % 8, Nat.mod_lt i (Nat.zero_lt_succ 7)⟩⟩ :=
  if_pos hi

theorem rowByRow_second {i : ℕ} (hi : 8 * w ≤ i) :
    rowByRow w b₀ i =
      ⟨.second, (b₀ + (i / 8 - w)) % w, ⟨i % 8, Nat.mod_lt i (Nat.zero_lt_succ 7)⟩⟩ :=
  if_neg (Nat.not_lt.mpr hi)

/-- Entries of one bucket have consecutive numbers. -/
theorem rowByRow_slot {i j : ℕ} (hdiv : j / 8 = i / 8) :
    rowByRow w b₀ j =
      { rowByRow w b₀ i with slot := ⟨j % 8, Nat.mod_lt j (Nat.zero_lt_succ 7)⟩ } := by
  by_cases hi : i < 8 * w
  · rw [rowByRow_first hi, rowByRow_first (by omega), hdiv]
  · have hi' : 8 * w ≤ i := by omega
    have hj' : 8 * w ≤ j := by omega
    rw [rowByRow_second hi', rowByRow_second hj', hdiv]

theorem rowByRow_inj {i j : ℕ} (hi : i < 16 * w) (hj : j < 16 * w)
    (he : rowByRow w b₀ i = rowByRow w b₀ j) : i = j := by
  by_cases hi' : i < 8 * w <;> by_cases hj' : j < 8 * w
  · rw [rowByRow_first hi', rowByRow_first hj'] at he
    simp only [Loc.mk.injEq, Fin.mk.injEq, true_and] at he
    omega
  · rw [rowByRow_first hi', rowByRow_second (by omega)] at he
    cases congrArg Loc.side he
  · rw [rowByRow_second (by omega), rowByRow_first hj'] at he
    cases congrArg Loc.side he
  · rw [rowByRow_second (by omega), rowByRow_second (by omega)] at he
    simp only [Loc.mk.injEq, Fin.mk.injEq, true_and] at he
    have hmod : i / 8 - w ≡ j / 8 - w [MOD w] := Nat.ModEq.add_left_cancel' _ he.1
    have hrow : i / 8 - w = j / 8 - w := hmod.eq_of_lt_of_lt (by omega) (by omega)
    omega

/-- Keys whose hashes name these positions are laid out bucket after bucket. -/
theorem next_rowByRow {i : ℕ} (hi : i < 16 * w) (hkey : ∀ j, j < i → key j ≠ key i)
    (hfirst : i < 8 * w → (h.hash1Full (key i)).toNat % size = i / 8)
    (hsecond : 8 * w ≤ i → (h.hash1Full (key i)).toNat % size < w ∧
      (h.hash2Full (key i)).toNat % size = (b₀ + (i / 8 - w)) % w) :
    Next h size key (rowByRow w b₀) i where
  home := by
    by_cases hi' : i < 8 * w
    · rw [rowByRow_first hi']
      exact hfirst hi'
    · rw [rowByRow_second (by omega)]
      exact (hsecond (by omega)).2
  new := hkey
  fresh j hj he := hj.ne (rowByRow_inj (by omega) hi he)
  packed j hj := by
    have hslot : (rowByRow w b₀ i).slot = ⟨i % 8, Nat.mod_lt i (Nat.zero_lt_succ 7)⟩ := by
      rw [rowByRow]
      split <;> rfl
    have hlt : j.val < i % 8 := by
      rw [hslot] at hj
      exact hj
    have hmod : (8 * (i / 8) + j.val) % 8 = j.val := by omega
    have hfin : (⟨(8 * (i / 8) + j.val) % 8, Nat.mod_lt _ (Nat.zero_lt_succ 7)⟩ : Fin 8) = j :=
      Fin.ext hmod
    refine ⟨8 * (i / 8) + j.val, by omega, ?_⟩
    rw [rowByRow_slot (show (8 * (i / 8) + j.val) / 8 = i / 8 by omega), hfin]
  spill hside j := by
    have hi' : 8 * w ≤ i := by
      by_contra hlt
      rw [rowByRow_first (by omega)] at hside
      cases hside
    have hlt := (hsecond hi').1
    have hj := j.isLt
    have hmod : (8 * ((h.hash1Full (key i)).toNat % size) + j.val) % 8 = j.val := by omega
    refine ⟨8 * ((h.hash1Full (key i)).toNat % size) + j.val, by omega, ?_⟩
    rw [rowByRow_first (by omega)]
    simp only [Loc.mk.injEq, true_and]
    exact ⟨by omega, Fin.ext hmod⟩

end RowByRow

end Kallisto.Cuckoo.CuckooTable
