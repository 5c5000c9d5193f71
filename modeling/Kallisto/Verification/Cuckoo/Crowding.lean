import Kallisto.Verification.Cuckoo.Filling
import Mathlib.Algebra.Ring.Parity

/-! # One more key for a full bucket

Sixteen keys fill one bucket in either table of a table with three buckets. How the
insertion of one more key for these buckets ends depends on the exchange walk over the
eight slots only, which the hashes steer. -/

namespace Kallisto.Cuckoo.Crowding

open CuckooTable RawMemory
open Overflow (key key_length key_inj secret)

/-- Hashes that depend on the length of a key. -/
def hashing (first second : ℕ → UInt64) : Hashing where
  hash1Full k := first k.length
  hash2Full k := second k.length

/-- All keys belong to the first bucket of the first table, and to the first bucket of the
second table unless they are among the first eight. -/
structure Crowds (first second : ℕ → UInt64) : Prop where
  first : ∀ i, (first i).toNat % 3 = 0
  second : ∀ i, 8 ≤ i → (second i).toNat % 3 = 0

/-- The number of the key in a storage cell, when key `m` has the last cell. -/
def inCell (m x : ℕ) : ℕ :=
  if x = 16 then m else x

variable {first second : ℕ → UInt64}

theorem Crowds.next (hc : Crowds first second) {i : ℕ} (hi : i < 16) :
    Next (hashing first second) 3 key (rowByRow 1 0) i := by
  refine next_rowByRow hi (fun j hj he => hj.ne (key_inj he)) ?_ ?_
  · intro hlt
    change (first (key i).length).toNat % 3 = i / 8
    rw [hc.first]
    omega
  · intro hle
    change (first (key i).length).toNat % 3 < 1 ∧ (second (key i).length).toNat % 3 = _
    rw [hc.first, key_length, hc.second i (by omega), Nat.mod_one]
    exact ⟨Nat.one_pos, rfl⟩

/-- The table with sixteen keys in its first buckets. -/
theorem Crowds.run (hc : Crowds first second) :
    ∃ t, (CuckooTable.new 3 17).run (hashing first second) (fillOps key secret 16) = .ok t ∧
      Laid (hashing first second) 3 key (rowByRow 1 0) 16 t ∧ t.maxCapacity = 17 := by
  obtain ⟨t, hrun, ht, hshape⟩ := run_fillOps (by decide) (by decide) secret
    (by decide : 16 ≤ (CuckooTable.new 3 17).maxCapacity) fun i hi => hc.next hi
  exact ⟨t, hrun, ht, hshape.maxCapacity⟩

section Crowded

variable {t : CuckooTable} {m : ℕ}

/-- A further key gets the seventeenth storage cell. -/
theorem allocate_crowded (ht : Laid (hashing first second) 3 key (rowByRow 1 0) 16 t)
    (hmax : t.maxCapacity = 17) (m : ℕ) :
    t.allocate (hashing first second) (key m) [] =
      .ok (some 16, t.growStorage (freshEntry (key m) [])) := by
  rcases allocate_cases ht.inv (key m) [] with ⟨index, t₁, hrun, ha⟩ | ⟨hzero, -⟩
  · have hfree := ht.freeListSize
    have hsize := ht.storageSize
    cases ha with
    | free hpos hindex => omega
    | grow hnone hroom hindex =>
      rw [hsize] at hindex
      rw [hrun, UInt32.toNat_inj.mp (show index.toNat = (16 : UInt32).toNat from hindex)]
    | evict hnone hfull hpos hindex hclear => omega
  · omega

theorem absent_crowded (ht : Laid (hashing first second) 3 key (rowByRow 1 0) 16 t)
    (hm : 16 ≤ m) : ∀ l, t.Occupied l → t.slotKey l ≠ key m := by
  intro l hl he
  obtain ⟨i, hi, hkey⟩ := ht.slotKey hl
  have := key_inj (hkey.symm.trans he)
  omega

theorem allocates_crowded (ht : Laid (hashing first second) 3 key (rowByRow 1 0) 16 t)
    (hmax : t.maxCapacity = 17) (m : ℕ) :
    Allocates (hashing first second) t (key m) [] 16 (t.growStorage (freshEntry (key m) [])) :=
  .grow ht.freeListSize (by rw [ht.storageSize, hmax]; decide) (by rw [ht.storageSize]; rfl)

theorem allocated_crowded (ht : Laid (hashing first second) 3 key (rowByRow 1 0) 16 t)
    (hmax : t.maxCapacity = 17) (hm : 16 ≤ m) :
    Allocated (hashing first second) t (key m) [] 16 (t.growStorage (freshEntry (key m) [])) :=
  (allocates_crowded ht hmax m).allocated ht.inv (absent_crowded ht hm)

theorem keyAt_crowded (ht : Laid (hashing first second) 3 key (rowByRow 1 0) 16 t) {x : ℕ}
    (hx : x ≤ 16) : (t.growStorage (freshEntry (key m) [])).keyAt x = key (inCell m x) := by
  rw [keyAt, growStorage_entryAt, ht.storageSize, inCell]
  split
  · rfl
  · exact ht.key x (by omega)

theorem rowByRow_full {j : Fin 8} :
    rowByRow 1 0 j.val = ⟨.first, 0, j⟩ ∧ rowByRow 1 0 (8 + j.val) = ⟨.second, 0, j⟩ := by
  have hj := j.isLt
  rw [rowByRow_first (by omega), rowByRow_second (by omega)]
  simp only [Loc.mk.injEq, true_and]
  refine ⟨⟨by omega, Fin.ext (Nat.mod_eq_of_lt hj)⟩, Nat.mod_one _, Fin.ext ?_⟩
  change (8 + j.val) % 8 = j.val
  omega

/-- The slots of the first bucket hold the first eight cells in order. -/
theorem row_crowded (ht : Laid (hashing first second) 3 key (rowByRow 1 0) 16 t)
    (e : SecretEntry) : (t.growStorage e).row 0 = fun j => UInt32.ofNat j.val := by
  funext j
  have hj := j.isLt
  have hslot := (ht.slot j.val (by omega)).2
  rw [rowByRow_full.1] at hslot
  apply UInt32.toNat_inj.mp
  rw [UInt32.toNat_ofNat', Nat.mod_eq_of_lt (by omega)]
  exact hslot

theorem occupied_crowded (ht : Laid (hashing first second) 3 key (rowByRow 1 0) 16 t)
    (side : Side) (b : ℕ) (j : Fin 8) : t.Occupied ⟨side, b, j⟩ ↔ b = 0 := by
  rw [ht.occupied_iff]
  constructor
  · rintro ⟨i, hi, he⟩
    have hbucket := congrArg Loc.bucket he
    change _ = b at hbucket
    rw [← hbucket, rowByRow]
    split
    · next hlt =>
      change i / 8 = 0
      omega
    · exact Nat.mod_one _
  · rintro rfl
    have hj := j.isLt
    cases side with
    | first => exact ⟨j.val, by omega, rowByRow_full.1⟩
    | second => exact ⟨8 + j.val, by omega, rowByRow_full.2⟩

theorem home_crowded (ht : Laid (hashing first second) 3 key (rowByRow 1 0) 16 t)
    (side : Side) (k : ℕ) (j : Fin 8) : t.home (hashing first second) side (key k) j =
      ⟨side, ((hashing first second).full side (key k)).toNat % 3, j⟩ := by
  rw [home, bucketIndex, ht.capacity]

/-- Only a key that belongs to another bucket of the second table has room. -/
theorem hasRoom_crowded (hc : Crowds first second)
    (ht : Laid (hashing first second) 3 key (rowByRow 1 0) 16 t) {x : UInt32}
    (hx : x.toNat ≤ 16) :
    (t.growStorage (freshEntry (key m) [])).HasRoom (hashing first second) x ↔
      (second (inCell m x.toNat)).toNat % 3 ≠ 0 := by
  have hhome : ∀ side j, (t.growStorage (freshEntry (key m) [])).Occupied
      ((t.growStorage (freshEntry (key m) [])).home (hashing first second) side
        (key (inCell m x.toNat)) j) ↔
      ((hashing first second).full side (key (inCell m x.toNat))).toNat % 3 = 0 := by
    intro side j
    rw [← ht.capacity]
    exact (occupied_crowded ht side _ j)
  rw [HasRoom, keyAt_crowded ht hx]
  simp only [hhome]
  constructor
  · rintro ⟨side, -, hne⟩
    cases side with
    | first => exact (hne (hc.first _)).elim
    | second =>
      change (second (key (inCell m x.toNat)).length).toNat % 3 ≠ 0 at hne
      rwa [key_length] at hne
  · intro hne
    refine ⟨.second, 0, ?_⟩
    change (second (key (inCell m x.toNat)).length).toNat % 3 ≠ 0
    rwa [key_length]

/-! ## The walk -/

/-- The slot that the entry of cell `x` trades with in round `i`. -/
def trade (first : ℕ → UInt64) (m : ℕ) (x : UInt32) (i : ℕ) : Fin 8 :=
  ⟨((first (inCell m x.toNat)).toNat + x.toNat + i) % 2 ^ 64 % 8,
    Nat.mod_lt _ (Nat.zero_lt_succ 7)⟩

/-- The bucket and the storage cell carried after `n` rounds. -/
def trades (first : ℕ → UInt64) (m n : ℕ) : (Fin 8 → UInt32) × UInt32 :=
  ExchangeWalk.walk (trade first m) n 0 (fun j => UInt32.ofNat j.val, 16)

theorem trades_le (first : ℕ → UInt64) (m n : ℕ) : (trades first m n).2.toNat ≤ 16 := by
  rcases ExchangeWalk.walk_mem n 0 ((fun j : Fin 8 => UInt32.ofNat j.val), (16 : UInt32)) with
    hsame | ⟨j, hj⟩
  · exact (congrArg UInt32.toNat hsame).le
  · have hlt := j.isLt
    refine (congrArg UInt32.toNat hj).trans_le ?_
    rw [UInt32.toNat_ofNat']
    omega

theorem carriedAfter_crowded (hc : Crowds first second)
    (ht : Laid (hashing first second) 3 key (rowByRow 1 0) 16 t) (n : ℕ) :
    (t.growStorage (freshEntry (key m) [])).carriedAfter (hashing first second) 16 n =
      (trades first m n).2 := by
  have hbucket : (t.growStorage (freshEntry (key m) [])).bucketIndex (hashing first second) .first
      ((t.growStorage (freshEntry (key m) [])).keyAt (16 : UInt32).toNat) = 0 := by
    change (first _).toNat % t.capacity = 0
    rw [ht.capacity, hc.first]
  rw [carriedAfter, tradesFrom, hbucket, row_crowded ht, trades]
  congr 1
  refine ExchangeWalk.walk_congr (P := fun x => x.toNat ≤ 16) ?_ n 0 _ le_rfl ?_
  · intro x hx
    funext i
    rw [tradeSlot, keyAt_crowded ht hx]
    simp only [victimSlot, trade, hashing, key_length]
  · intro j
    have hlt := j.isLt
    change (UInt32.ofNat j.val).toNat ≤ 16
    rw [UInt32.toNat_ofNat']
    omega

theorem nextCell_crowded (ht : Laid (hashing first second) 3 key (rowByRow 1 0) 16 t)
    (hmax : t.maxCapacity = 17) : t.nextCell = 16 :=
  (allocates_crowded ht hmax 0).index_eq.symm

/-- The further key is rejected unless the walk meets a key with room. -/
theorem insert_crowded (hc : Crowds first second)
    (ht : Laid (hashing first second) 3 key (rowByRow 1 0) 16 t) (hmax : t.maxCapacity = 17)
    (hm : 16 ≤ m)
    (hnone : ∀ n, n < 256 → (second (inCell m (trades first m n).2.toNat)).toNat % 3 = 0) :
    ∃ t', t.insert (hashing first second) (key m) secret = .ok (false, t') ∧
      GivesUp (hashing first second) (t.growStorage (freshEntry (key m) [])) 16 t' := by
  have halloc := allocated_crowded ht hmax hm
  rcases insert_cases ht.inv (key m) secret with
    ⟨l, hl, hkey, -⟩ | ⟨-, ⟨hzero, -⟩ | ⟨index, t₁, hallocate, -, hins⟩⟩
  · exact (absent_crowded ht hm l hl hkey).elim
  · omega
  · have hallocate' := (allocate_crowded ht hmax m).symm.trans hallocate
    obtain ⟨⟨rfl⟩, rfl⟩ := Prod.mk.inj (Except.ok.inj hallocate')
    obtain ⟨success, t', hrun, -, -⟩ := displace_spec 256 0 _ 16 _ (key m) halloc.inv
      halloc.carried rfl halloc.keyAt
    have hiff := (displace_walk 256 0 _ 16 _ (key m) halloc.inv halloc.carried rfl
      halloc.keyAt success t' hrun).1
    have hfalse : success = false := by
      rw [← Bool.not_eq_true, hiff]
      rintro ⟨n, hn, hroom⟩
      have hcarried := carriedAfter_crowded (m := m) hc ht n
      rw [carriedAfter] at hcarried
      rw [hcarried, hasRoom_crowded hc ht (trades_le first m n)] at hroom
      exact hroom (hnone n hn)
    subst hfalse
    exact ⟨t', hins.trans hrun, givesUp_of_displace halloc hrun⟩

/-- The insertion of a key that is rejected makes the walk. -/
theorem willCarry_crowded (hc : Crowds first second)
    (ht : Laid (hashing first second) 3 key (rowByRow 1 0) 16 t) (hmax : t.maxCapacity = 17)
    (hm : 16 ≤ m) {t' : CuckooTable}
    (hgive : GivesUp (hashing first second) (t.growStorage (freshEntry (key m) [])) 16 t')
    (n : ℕ) : t.willCarry (hashing first second) (key m) n = (trades first m n).2 := by
  rw [← carriedAfter_allocated ht.inv (allocates_crowded ht hmax m) (allocated_crowded ht hmax hm)
    (hgive.noRoom 0 (by decide)), carriedAfter_crowded hc ht]

end Crowded

/-! ## Two ways around the slots -/

/-- The entry in slot `j` trades with slot `i - 1` in round `i`, whichever `j` is. -/
def turning (i : ℕ) : UInt64 :=
  if i < 8 then UInt64.ofNat (9 * (7 - i)) else if i = 17 then 9 else 0

/-- Like `turning`, but the entry in the first slot trades with slot `i` in round `i`. -/
def pinning (i : ℕ) : UInt64 :=
  if i = 0 then 0 else turning i

/-- The second key belongs to another bucket of the second table than all others. -/
def straying (i : ℕ) : UInt64 :=
  if i = 1 then 1 else 0

theorem toNat_turning {v : ℕ} (hv : v < 8) : (turning v).toNat = 9 * (7 - v) := by
  rw [turning, if_pos hv, UInt64.toNat_ofNat']
  exact Nat.mod_eq_of_lt (by omega)

theorem turning_mod (i : ℕ) : (turning i).toNat % 3 = 0 := by
  by_cases hi : i < 8
  · rw [toNat_turning hi]
    omega
  · rw [turning, if_neg hi]
    split <;> rfl

theorem crowds_turning : Crowds turning straying where
  first := turning_mod
  second i hi := by
    rw [straying, if_neg (by omega)]
    rfl

theorem crowds_pinning : Crowds pinning fun _ => 0 where
  first i := by
    unfold pinning
    split
    · rfl
    · exact turning_mod i
  second _ _ := rfl

theorem trade_resident {first : ℕ → UInt64} {m v : ℕ} (hv : v < 8)
    (hfirst : first v = turning v) (i : ℕ) :
    (trade first m (UInt32.ofNat v) i).val = (7 + i) % 8 := by
  have hnat : (UInt32.ofNat v).toNat = v := by
    rw [UInt32.toNat_ofNat']
    omega
  have hcell : inCell m v = v := if_neg (by omega)
  change ((first (inCell m (UInt32.ofNat v).toNat)).toNat + (UInt32.ofNat v).toNat + i) %
    2 ^ 64 % 8 = _
  rw [hnat, hcell, hfirst, toNat_turning hv]
  omega

theorem trade_new (first : ℕ → UInt64) (m i : ℕ) :
    (trade first m 16 i).val = ((first m).toNat + 16 + i) % 2 ^ 64 % 8 :=
  rfl

/-- The new entry is exchanged with the even slots in turn and comes back every time. -/
theorem trades_turning (n : ℕ) :
    trades turning 16 (2 * n) = (fun j => UInt32.ofNat j.val, 16) := by
  refine ExchangeWalk.walk_back_and_forth n 0 _ _ ?_
  intro k _
  have hnew := trade_new turning 16 (0 + 2 * k)
  apply Fin.ext
  rw [trade_resident (Fin.isLt _) rfl, hnew]
  change _ = (0 + 16 + (0 + 2 * k)) % 2 ^ 64 % 8
  omega

theorem trades_turning_odd (n : ℕ) :
    (trades turning 16 (2 * n + 1)).2 = UInt32.ofNat (2 * n % 8) := by
  have hlast : trades turning 16 (2 * n + 1) =
      ExchangeWalk.walk (trade turning 16) 1 (0 + 2 * n) (trades turning 16 (2 * n)) :=
    ExchangeWalk.walk_add _ _ _ _
  rw [hlast, trades_turning]
  change UInt32.ofNat (trade turning 16 16 (0 + 2 * n)).val = _
  rw [trade_new]
  congr 1
  change (0 + 16 + (0 + 2 * n)) % 2 ^ 64 % 8 = _
  omega

/-- The walk over the even slots never meets the one key with room. -/
theorem straying_trades (n : ℕ) :
    (straying (inCell 16 (trades turning 16 n).2.toNat)).toNat % 3 = 0 := by
  rcases Nat.even_or_odd' n with ⟨k, rfl | rfl⟩
  · rw [trades_turning]
    rfl
  · have hnat : (UInt32.ofNat (2 * k % 8)).toNat = 2 * k % 8 := by
      rw [UInt32.toNat_ofNat']
      omega
    rw [trades_turning_odd, hnat, inCell, if_neg (by omega), straying, if_neg (by omega)]
    rfl

/-- The new entry stays in the first slot, and the last one carried is the eighth. -/
theorem trades_pinning : (trades pinning 16 256).2 = 7 := by
  have hrest : ExchangeWalk.walk (trade pinning 16) (2 * 127) 1
      (Function.update (fun j => UInt32.ofNat j.val) 0 16, 0) =
        (Function.update (fun j => UInt32.ofNat j.val) 0 16, 0) := by
    refine ExchangeWalk.walk_back_and_forth 127 1 _ _ ?_
    intro k _
    have hzero : (trade pinning 16 0 (1 + 2 * k)).val = (1 + 2 * k) % 2 ^ 64 % 8 := by
      change (0 + 0 + (1 + 2 * k)) % 2 ^ 64 % 8 = _
      rw [Nat.zero_add]
    have hne : trade pinning 16 0 (1 + 2 * k) ≠ 0 := by
      intro he
      rw [he] at hzero
      change 0 = _ at hzero
      omega
    apply Fin.ext
    rw [Function.update_of_ne hne, trade_resident (Fin.isLt _), hzero]
    · omega
    · rw [pinning, if_neg]
      exact fun he => hne (Fin.ext he)
  have hsplit : trades pinning 16 256 = ExchangeWalk.walk (trade pinning 16) 1 255
      (ExchangeWalk.walk (trade pinning 16) (2 * 127) 1
        (Function.update (fun j => UInt32.ofNat j.val) 0 16, 0)) :=
    (ExchangeWalk.walk_add 1 255 0 _).trans (ExchangeWalk.walk_add (2 * 127) 1 1 _)
  rw [hsplit, hrest]
  rfl

end Kallisto.Cuckoo.Crowding
