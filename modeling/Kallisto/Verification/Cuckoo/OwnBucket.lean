import Kallisto.Verification.Cuckoo.Correctness
import Kallisto.Verification.Cuckoo.WiderArena

/-! # The bucket of an insertion

An entry that is displaced from a bucket of the first table belongs to that bucket, so an
insertion that displaces entries never leaves the first bucket of its own key, and of the
second table it fills one empty slot at most. -/

namespace Kallisto.Cuckoo.CuckooTable

open RawMemory

variable {h : Hashing} {t t' : CuckooTable}

/-! ## The hands of a displacement -/

/-- The hands of the displacement loop, from the head of every round on. When the rounds
run out, the entry that is dropped comes last. -/
def hands (h : Hashing) : ℕ → ℕ → Hand → Except Fault (List Hand)
  | 0, _, hand => .ok [hand]
  | fuel + 1, i, hand => do
    match ← hand.round h i with
    | .inl _ => return [hand]
    | .inr next => return hand :: (← hands h fuel (i + 1) next)

/-- Every slot of a bucket of the carried entry is in use. -/
def Hand.Full (h : Hashing) (side : Side) (hand : Hand) : Prop :=
  ∀ j, hand.table.Occupied (hand.table.home h side hand.key j)

/-- What a displacement with these hands does to the slots: all carried entries have one
first bucket, no other bucket of the first table changes, and in the second table no
occupied slot changes and at most one slot does. -/
structure StaysHome (h : Hashing) (t : CuckooTable) (key : String) (hs : List Hand)
    (t' : CuckooTable) : Prop where
  bucket : ∀ hand ∈ hs,
    hand.table.bucketIndex h .first hand.key = t.bucketIndex h .first key
  first : ∀ l, l.side = .first → l.bucket ≠ t.bucketIndex h .first key →
    t'.slotAt l = t.slotAt l
  second : ∀ l, l.side = .second → t.Occupied l → t'.slotAt l = t.slotAt l
  filled : ∀ l m, l.side = .second → m.side = .second → t'.slotAt l ≠ t.slotAt l →
    t'.slotAt m ≠ t.slotAt m → l = m

theorem staysHome_self (t : CuckooTable) (index tag : UInt32) (key : String) :
    StaysHome h t key [⟨t, index, tag, key⟩] t where
  bucket hand hmem := by rw [List.mem_singleton.mp hmem]
  first _ _ _ := rfl
  second _ _ _ := rfl
  filled l _ _ _ hl := (hl rfl).elim

theorem staysHome_place {side : Side} {key : String} {j : Fin 8} (index tag : UInt32)
    (hempty : ¬ t.Occupied (t.home h side key j)) :
    StaysHome h t key [⟨t, index, tag, key⟩] (t.setSlot (t.home h side key j) ⟨tag, index⟩) where
  bucket hand hmem := by rw [List.mem_singleton.mp hmem]
  first l hside hbucket := by
    refine setSlot_slotAt_of_ne _ _ _ ?_
    rintro rfl
    cases hside
    exact hbucket rfl
  second l _ hocc := by
    refine setSlot_slotAt_of_ne _ _ _ ?_
    rintro rfl
    exact hempty hocc
  filled l m _ _ hl hm := by
    have hchanged : ∀ x, (t.setSlot (t.home h side key j) ⟨tag, index⟩).slotAt x ≠ t.slotAt x →
        x = t.home h side key j := by
      intro x hx
      by_contra hne
      exact hx (setSlot_slotAt_of_ne _ _ _ hne)
    rw [hchanged l hl, hchanged m hm]

/-- An exchange in the first bucket of the carried entry hands on an entry of the same bucket. -/
theorem StaysHome.exchange (hinv : Invariant h t) {index tag : UInt32} {key : String} {l : Loc}
    {j : Fin 8} (hl : l = t.home h .first key j) (hocc : t.Occupied l) {hs : List Hand}
    (hrest : StaysHome h (t.setSlot l ⟨tag, index⟩) (t.slotKey l) hs t') :
    StaysHome h t key (⟨t, index, tag, key⟩ :: hs) t' := by
  have hhome : t.bucketIndex h .first (t.slotKey l) = t.bucketIndex h .first key := by
    have hslot := hinv.slot_home l hocc
    rw [hl] at hslot ⊢
    exact hslot
  have hsecond : ∀ m : Loc, m.side = .second →
      (t.setSlot l ⟨tag, index⟩).slotAt m = t.slotAt m := by
    intro m hm
    refine setSlot_slotAt_of_ne _ _ _ ?_
    rintro rfl
    rw [hl] at hm
    cases hm
  refine ⟨?_, ?_, ?_, ?_⟩
  · intro hand hmem
    rcases List.mem_cons.mp hmem with rfl | hmem
    · rfl
    · rw [hrest.bucket hand hmem, setSlot_bucketIndex, hhome]
  · intro m hside hbucket
    rw [hrest.first m hside (by rw [setSlot_bucketIndex, hhome]; exact hbucket)]
    refine setSlot_slotAt_of_ne _ _ _ ?_
    rintro rfl
    exact hbucket (congrArg Loc.bucket hl)
  · intro m hside hm
    rw [hrest.second m hside (by rw [Occupied, hsecond m hside]; exact hm), hsecond m hside]
  · intro m n hm hn hdiffm hdiffn
    refine hrest.filled m n hm hn ?_ ?_
    · rw [hsecond m hm]
      exact hdiffm
    · rw [hsecond n hn]
      exact hdiffn

/-- A full first bucket is still full when two entries are exchanged in it. -/
theorem Hand.Full.exchange (hinv : Invariant h t) {index tag : UInt32} {key : String}
    (hfirst : Hand.Full h .first ⟨t, index, tag, key⟩) (hc : Carried t index) {l : Loc} {i : Fin 8}
    (hl : l = t.home h .first key i) (hocc : t.Occupied l) :
    Hand.Full h .first ⟨t.setSlot l ⟨tag, index⟩, (t.slotAt l).index, (t.slotAt l).tag,
      t.slotKey l⟩ := by
  intro j
  have hbucket := hinv.slot_home l hocc
  have hside : l.side = .first := by rw [hl]; rfl
  rw [hside] at hbucket
  have hhome : (t.setSlot l ⟨tag, index⟩).home h .first (t.slotKey l) j =
      t.home h .first key j := by
    rw [home, setSlot_bucketIndex, hbucket, hl]
    rfl
  change (t.setSlot l ⟨tag, index⟩).Occupied _
  rw [hhome, setSlot_occupied_iff hocc (hinv.ne_u32Max hc.lt)]
  exact hfirst j

/-- The hands of a displacement stay in the bucket of the first one. Starting from a full
bucket it gives up exactly when the second bucket of every hand of its rounds is full. -/
theorem displace_hands (fuel : ℕ) : ∀ (i : ℕ) (t : CuckooTable) (index tag : UInt32)
    (key : String), Invariant h t → Carried t index →
    tag = getTag (h.hash1Full key) → key = t.keyAt index.toNat →
    ∀ success t', displace h fuel i t index tag key = .ok (success, t') →
      ∃ hs, hands h fuel i ⟨t, index, tag, key⟩ = .ok hs ∧ StaysHome h t key hs t' ∧
        (Hand.Full h .first ⟨t, index, tag, key⟩ →
          (success = false ↔ ∀ hand ∈ hs.take fuel, hand.Full h .second)) := by
  induction fuel with
  | zero =>
    intro i t index tag key _ _ _ _ success t' hrun
    obtain ⟨rfl, rfl⟩ := Prod.mk.inj (Except.ok.inj hrun)
    exact ⟨_, rfl, staysHome_self t index tag key, fun _ => by simp⟩
  | succ fuel ih =>
    intro i t index tag key hinv hc htag hkey success t' hrun
    have hsucc := displace_succ (h := h) fuel i ⟨t, index, tag, key⟩
    rw [hrun] at hsucc
    rcases round_cases hinv i index tag key with
      ⟨side, j, ⟨hempty, -⟩, hround⟩ | ⟨hfull, hround⟩
    · rw [hround] at hsucc
      obtain ⟨rfl, rfl⟩ := Prod.mk.inj (Except.ok.inj hsucc)
      have hfree := findEmpty_some hempty
      refine ⟨[⟨t, index, tag, key⟩], ?_, staysHome_place index tag hfree, fun hfirst => ?_⟩
      · rw [hands, hround]
        rfl
      · refine iff_of_false Bool.noConfusion fun hall => ?_
        -- The slot taken is in the second table, as the first bucket is full.
        cases side with
        | first => exact hfree (hfirst j)
        | second => exact hfree (hall ⟨t, index, tag, key⟩ (by simp) j)
    · obtain ⟨l, hl⟩ : ∃ l, l = t.home h .first key (victimSlot h key index i) := ⟨_, rfl⟩
      have hocc : t.Occupied l := by
        rw [hl]
        exact findEmpty_none (hfull .first) _
      have hfits : Fits h t l ⟨tag, index⟩ := by
        rw [hl]
        exact hc.fits (by rw [htag, hkey]) (by rw [← hkey]; rfl)
      have hinv' : Invariant h (t.setSlot l ⟨tag, index⟩) :=
        hinv.setSlot (by rw [hl]; exact hinv.bucketIndex_lt .first key) fun _ => hfits
      rw [hround l hl] at hsucc
      obtain ⟨hs, hhands, hrest, hiff⟩ := ih (i + 1) _ _ _ _ hinv'
        (carried_of_setSlot hinv hocc fun _ he => hc.key_ne _ hocc he.symm)
        (hinv.slot_tag _ hocc) (by rw [setSlot_keyAt]; rfl) success t' hsucc.symm
      refine ⟨⟨t, index, tag, key⟩ :: hs, ?_, hrest.exchange hinv hl hocc, fun hfirst => ?_⟩
      · rw [hands, hround l hl, ok_bind]
        dsimp only
        rw [hhands]
        rfl
      · have hnext := Hand.Full.exchange hinv hfirst hc hl hocc
        rw [hiff hnext, List.take_succ_cons, List.forall_mem_cons]
        exact (and_iff_right fun j => findEmpty_none (hfull .second) j).symm

/-! ## A table with a cell without an index -/

section LastCell

open LastCell (hashing lastKey)
open Overflow (key secret)

/-- An entry in the last of `2 ^ 32` cells is carried into a full bucket, whose slot it
leaves open to the entry displaced from there. -/
theorem insert_laid_lastCell {w size cap : ℕ}
    (ht : Laid (hashing w) size key (rowByRow w 0) (16 * w - 1) t) (hw : 2 ≤ w)
    (hlast : u32Max.toNat = 16 * w - 1) (hmax : t.maxCapacity ≤ cap)
    (hroom : 16 * w - 1 < cap) (entry : SecretEntry) : ∃ index t₁ hs t',
    (t.widen cap).search (hashing w) (lastKey w) = .ok none ∧
    (t.widen cap).allocate (hashing w) (lastKey w) entry.payload = .ok (some index, t₁) ∧
    hands (hashing w) 256 0
      ⟨t₁, index, getTag ((hashing w).hash1Full (lastKey w)), lastKey w⟩ = .ok hs ∧
    (∀ j, t₁.Occupied (t₁.home (hashing w) .first (lastKey w) j)) ∧
    (∀ hand ∈ hs.take 256, hand.Full (hashing w) .second) ∧
    (t.widen cap).insert (hashing w) (lastKey w) entry = .ok (true, t') := by
  have hsearch : t.search (hashing w) (lastKey w) = .ok none := by
    refine search_of_absent ht.inv fun m hm hkey => ?_
    obtain ⟨i, hi, hslot⟩ := ht.slotKey hm
    exact hi.ne (Overflow.key_inj (hslot.symm.trans hkey))
  have hwide := search_widen ht.inv hmax hsearch
  have halloc := allocate_widen (h := hashing w) ht.freeListSize
    (by rw [ht.storageSize]; exact hroom) (hlast.trans ht.storageSize.symm)
    (lastKey w) entry.payload
  obtain ⟨hand, hhand⟩ : ∃ hand : Hand, hand = ⟨(t.widen cap).growStorage
      (freshEntry (lastKey w) entry.payload), u32Max,
        getTag ((hashing w).hash1Full (lastKey w)), lastKey w⟩ := ⟨_, rfl⟩
  obtain ⟨next, t', hround₀, hround₁, hnext⟩ := LastCell.rounds_lastCell ht hw hmax
    (freshEntry (lastKey w) entry.payload) (getTag ((hashing w).hash1Full (lastKey w)))
  rw [← hhand] at hround₀
  have hfull : ∀ side, hand.Full (hashing w) side := by
    intro side j
    rw [hhand, home, LastCell.bucketIndex_lastKey hw, Occupied, growStorage_slotAt, widen_slotAt]
    cases side with
    | first => exact (LastCell.slot_first ht hw j).1
    | second => exact LastCell.occupied_second ht hw j
  have hhands : hands (hashing w) 256 0 hand = .ok [hand, next] := by
    rw [hands, hround₀, ok_bind]
    dsimp only
    rw [hands, hround₁]
    rfl
  have hdisplace : displace (hashing w) 256 0 hand.table hand.index hand.tag hand.key =
      .ok (true, t') := by
    rw [displace_succ, hround₀, ok_bind, Sum.elim_inr, displace_succ, hround₁]
    rfl
  rw [hhand] at hhands hdisplace
  refine ⟨u32Max, _, _, t', hwide, halloc, hhands, ?_, ?_, ?_⟩
  · have hfirst := hfull .first
    rw [hhand] at hfirst
    exact hfirst
  · intro hand' hmem
    rcases List.mem_cons.mp (List.mem_of_mem_take hmem) with rfl | hmem
    · rw [← hhand]
      exact hfull .second
    · rw [List.mem_singleton.mp hmem]
      exact hnext
  · rw [CuckooTable.insert, hwide, ok_bind]
    dsimp only
    rw [halloc, ok_bind]
    exact hdisplace

end LastCell

/-! ## The whole insertion -/

/-- Obtaining a storage cell changes one slot at most: in a full storage without free cells
it empties the slot of the CLOCK victim. -/
structure ClearsVictim (t : CuckooTable) (index : UInt32) (t' : CuckooTable) : Prop where
  slot : ∀ l, t'.slotAt l ≠ t.slotAt l → t'.slotAt l = .empty ∧ (t.slotAt l).index = index ∧
    index.toNat = t.clockVictim ∧ t.freeListSize = 0 ∧ t.storageSize = t.maxCapacity
  one : ∀ l m, t'.slotAt l ≠ t.slotAt l → t'.slotAt m ≠ t.slotAt m → l = m

theorem clearsVictim_of_slotAt {index : UInt32} (hsame : ∀ l, t'.slotAt l = t.slotAt l) :
    ClearsVictim t index t' where
  slot l hl := (hl (hsame l)).elim
  one l _ hl := (hl (hsame l)).elim

theorem Allocates.clearsVictim (hinv : Invariant h t) {key : String} {payload : List UInt8}
    {index : UInt32} (ha : Allocates h t key payload index t') : ClearsVictim t index t' := by
  cases ha with
  | free hfree hindex => exact clearsVictim_of_slotAt fun l => setEntry_slotAt _ _ _ l
  | grow hfree hroom hindex => exact clearsVictim_of_slotAt fun _ => rfl
  | @evict t₂ hfree hfull hpos hindex hclear =>
    have hlt : index.toNat < t.swept.storageSize := by
      rw [hindex]
      exact (clockVictim_lt hpos).trans_eq hfull.symm
    rw [← keyAt_swept] at hclear
    rcases clearVictim_cases hinv.swept hlt with ⟨m, -, hm, hrun⟩ | ⟨-, hrun⟩
    · rw [hclear] at hrun
      obtain rfl := Except.ok.inj hrun
      have hchanged : ∀ l, ((t.swept.setSlot m .empty).setEntry index.toNat
          (freshEntry key payload)).slotAt l ≠ t.slotAt l → l = m := by
        intro l hl
        by_contra hne
        exact hl ((setEntry_slotAt _ _ _ l).trans (setSlot_slotAt_of_ne _ _ _ hne))
      constructor
      · intro l hl
        obtain rfl := hchanged l hl
        refine ⟨?_, hm, hindex, hfree, hfull⟩
        rw [setEntry_slotAt, setSlot_slotAt_self]
      · intro l n hl hn
        rw [hchanged l hl, hchanged n hn]
    · rw [hclear] at hrun
      obtain rfl := Except.ok.inj hrun
      exact clearsVictim_of_slotAt fun l => setEntry_slotAt _ _ _ l

/-- What an insertion does to the slots. It leaves them as they are when it finds the key or
obtains no cell. Otherwise it displaces entries of its own first bucket, after the slot of
the CLOCK victim was emptied; if that bucket was full, it gives up exactly when no entry
carried in a round has an empty slot in its second bucket. -/
def InsertsAtHome (h : Hashing) (t : CuckooTable) (key : String) (entry : SecretEntry)
    (success : Bool) (t' : CuckooTable) : Prop :=
  (((∃ found, t.search h key = .ok (some found)) ∨
      ∃ t₀, t.allocate h key entry.payload = .ok (none, t₀)) ∧
    ∀ l, t'.slotAt l = t.slotAt l) ∨
  (t.search h key = .ok none ∧ ∃ index t₁ hs,
    t.allocate h key entry.payload = .ok (some index, t₁) ∧ ClearsVictim t index t₁ ∧
    hands h 256 0 ⟨t₁, index, getTag (h.hash1Full key), key⟩ = .ok hs ∧
    StaysHome h t₁ key hs t' ∧
    ((∀ j, t₁.Occupied (t₁.home h .first key j)) →
      (success = false ↔ ∀ hand ∈ hs.take 256, hand.Full h .second)))

theorem insertsAtHome_of_invariant (hinv : Invariant h t) (key : String) (entry : SecretEntry) :
    ∃ success t', t.insert h key entry = .ok (success, t') ∧
      InsertsAtHome h t key entry success t' := by
  rcases insert_cases hinv key entry with
    ⟨l, hl, rfl, hins⟩ | ⟨habsent, ⟨hzero, hins⟩ | ⟨index, t₁, hrun, ha, hins⟩⟩
  · exact ⟨_, _, hins, Or.inl ⟨Or.inl ⟨_, search_of_occupied hinv hl⟩,
      fun m => setEntry_slotAt _ _ _ m⟩⟩
  · rcases allocate_cases hinv key entry.payload with ⟨index, t₁, -, ha⟩ | ⟨-, hrun⟩
    · have hpos := ha.maxCapacity_pos hinv
      omega
    · exact ⟨_, _, hins, Or.inl ⟨Or.inr ⟨_, hrun⟩, fun _ => rfl⟩⟩
  · have halloc := ha.allocated hinv habsent
    obtain ⟨success, t', hdisplace, -, -⟩ := displace_spec 256 0 t₁ index
      (getTag (h.hash1Full key)) key halloc.inv halloc.carried rfl halloc.keyAt
    obtain ⟨hs, hhands, hstays, hiff⟩ := displace_hands 256 0 t₁ index
      (getTag (h.hash1Full key)) key halloc.inv halloc.carried rfl halloc.keyAt success t' hdisplace
    exact ⟨success, t', hins.trans hdisplace,
      Or.inr ⟨search_of_absent hinv habsent, index, t₁, hs, hrun, ha.clearsVictim hinv, hhands,
        hstays, hiff⟩⟩

/-- In every state that calls reach from a table whose cells all have an index, an insertion
displaces entries of its own first bucket only. -/
theorem run_insertsAtHome {size cap : ℕ}
    (hcap : (CuckooTable.new size cap).maxCapacity ≤ u32Max.toNat) {ops : List Op}
    (hrun : (CuckooTable.new size cap).run h ops = .ok t) (key : String) (entry : SecretEntry) :
    (1 ≤ size → ∃ r, t.insert h key entry = .ok r) ∧
      ∀ success t', t.insert h key entry = .ok (success, t') →
        InsertsAtHome h t key entry success t' := by
  rcases run_reaches hcap hrun with ⟨-, hinv⟩ | ⟨rfl, rfl⟩
  · obtain ⟨success, t', hins, hhome⟩ := insertsAtHome_of_invariant hinv key entry
    refine ⟨fun _ => ⟨_, hins⟩, fun success₂ t₂ hins₂ => ?_⟩
    rw [hins] at hins₂
    obtain ⟨rfl, rfl⟩ := Prod.mk.inj (Except.ok.inj hins₂)
    exact hhome
  · refine ⟨fun hsize => absurd hsize (by decide), fun success t' hins => ?_⟩
    cases hins

/-- One more key for a full bucket of either table. -/
theorem run_insertsAtHome_crowded : ∃ t success t',
    (CuckooTable.new 3 17).run (Crowding.hashing (fun _ => 0) fun _ => 0)
      (fillOps Overflow.key Overflow.secret 16) = .ok t ∧
    t.insert (Crowding.hashing (fun _ => 0) fun _ => 0) (Overflow.key 16) Overflow.secret =
      .ok (success, t') ∧
    InsertsAtHome (Crowding.hashing (fun _ => 0) fun _ => 0) t (Overflow.key 16) Overflow.secret
      success t' := by
  have hcrowds : Crowding.Crowds (fun _ => 0) fun _ => 0 := ⟨fun _ => rfl, fun _ _ => rfl⟩
  obtain ⟨t, hrun, -, -⟩ := hcrowds.run
  obtain ⟨hreturns, hhome⟩ :=
    run_insertsAtHome (by decide) hrun (Overflow.key 16) Overflow.secret
  obtain ⟨⟨success, t'⟩, hins⟩ := hreturns (by decide)
  exact ⟨t, success, t', hrun, hins, hhome success t' hins⟩

section Counterexample

open LastCell (hashing lastKey)
open Overflow (key secret)

/-- With `2 ^ 32` storage cells an insertion into a full bucket succeeds although no entry
it carries has an empty slot in its second bucket. -/
theorem insert_reopensSlot : ∃ t index t₁ hs t',
    (CuckooTable.new (2 ^ 29) (2 ^ 32)).run (hashing (2 ^ 28))
      (fillOps key secret (16 * 2 ^ 28 - 1)) = .ok t ∧
    t.search (hashing (2 ^ 28)) (lastKey (2 ^ 28)) = .ok none ∧
    t.allocate (hashing (2 ^ 28)) (lastKey (2 ^ 28)) secret.payload = .ok (some index, t₁) ∧
    hands (hashing (2 ^ 28)) 256 0 ⟨t₁, index, getTag ((hashing (2 ^ 28)).hash1Full
      (lastKey (2 ^ 28))), lastKey (2 ^ 28)⟩ = .ok hs ∧
    (∀ j, t₁.Occupied (t₁.home (hashing (2 ^ 28)) .first (lastKey (2 ^ 28)) j)) ∧
    (∀ hand ∈ hs.take 256, hand.Full (hashing (2 ^ 28)) .second) ∧
    t.insert (hashing (2 ^ 28)) (lastKey (2 ^ 28)) secret = .ok (true, t') := by
  have hmax : (CuckooTable.new (2 ^ 29) (2 ^ 32 - 1)).maxCapacity = 2 ^ 32 - 1 := by decide
  have hnew : (CuckooTable.new (2 ^ 29) (2 ^ 32 - 1)).widen (2 ^ 32) =
      CuckooTable.new (2 ^ 29) (2 ^ 32) := rfl
  obtain ⟨t, hrun, ht, hshape⟩ := run_fillOps_widen (by decide) (hmax.trans_le (by decide))
    (hmax.trans_le (by decide : 2 ^ 32 - 1 ≤ 2 ^ 32)) secret
    ((by decide : 16 * 2 ^ 28 - 1 ≤ 2 ^ 32 - 1).trans_eq hmax.symm)
    fun i hi => LastCell.next (by decide : 2 ^ 28 ≤ 2 ^ 29) (by decide) hi
  rw [hnew] at hrun
  obtain ⟨index, t₁, hs, t', hinsert⟩ := insert_laid_lastCell ht (by decide) (by decide)
    ((hshape.maxCapacity.trans hmax).trans_le (by decide : 2 ^ 32 - 1 ≤ 2 ^ 32)) (by decide) secret
  exact ⟨_, index, t₁, hs, t', hrun, hinsert⟩

end Counterexample

end Kallisto.Cuckoo.CuckooTable
