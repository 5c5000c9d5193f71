import Kallisto.Verification.Cuckoo.LastVictim
import Kallisto.Verification.Cuckoo.Visibility

/-! # The second chance of an entry

The reference flags record the history of the calls: a flag is set exactly when its
cell was looked up or written after the hand last passed over it. The scan of a full
table therefore spares such cells as long as some other flag is cleared. -/

namespace Kallisto.Cuckoo.CuckooTable

open RawMemory

variable {h : Hashing} {t : CuckooTable}

/-! ## The history of the flags -/

/-- What a call does to the reference flags, the latest event first: a lookup or an
insertion uses the cell of its key, and the scan of a full table passes over cells
before the victim is reused. -/
def clockEvents (h : Hashing) (t : CuckooTable) : Op → List Clock.Event
  | .insert key entry =>
    match t.search h key with
    | .ok (some (_, _, index)) => [.used index.toNat]
    | _ =>
      match t.allocate h key entry.payload with
      | .ok (some index, _) => .used index.toNat ::
          if t.freeListSize = 0 ∧ t.storageSize = t.maxCapacity then
            Clock.passes t.maxCapacity t.clockHand
              (Clock.lead t.maxCapacity (flags t.storage) t.clockHand)
          else []
      | _ => []
  | .lookup key =>
    match t.search h key with
    | .ok (some (_, _, index)) => [.used index.toNat]
    | _ => []
  | .remove _ => []

/-- The events of a sequence of calls, the latest first. -/
def clockHistory (h : Hashing) : CuckooTable → List Op → List Clock.Event
  | _, [] => []
  | t, op :: ops =>
    match t.apply h op with
    | .ok t' => clockHistory h t' ops ++ t.clockEvents h op
    | .error _ => []

/-- Passing over cells clears their flags and no others. -/
theorem flags_swept : flags t.swept.storage =
    Clock.cleared t.maxCapacity (flags t.storage) t.clockHand
      (Clock.lead t.maxCapacity (flags t.storage) t.clockHand) := by
  funext i
  simp only [swept, withFlags, flags, Clock.cleared]
  cases t.storage.cell i <;> rfl

/-- The flags after an allocation. -/
theorem Allocates.flags (hinv : Invariant h t) {key : String} {payload : List UInt8}
    {index : UInt32} {t₁ : CuckooTable} (ha : Allocates h t key payload index t₁) :
    CuckooTable.flags t₁.storage = Clock.flagAfter (CuckooTable.flags t.storage)
      (.used index.toNat :: if t.freeListSize = 0 ∧ t.storageSize = t.maxCapacity then
        Clock.passes t.maxCapacity t.clockHand
          (Clock.lead t.maxCapacity (CuckooTable.flags t.storage) t.clockHand)
      else []) := by
  rw [Clock.flagAfter]
  cases ha with
  | free hfree hindex =>
    rw [if_neg (fun hboth => hfree.ne' hboth.1)]
    exact flags_set t.storage _ _
  | grow hfree hroom hindex =>
    rw [if_neg (fun hboth => hroom.ne hboth.2), hindex]
    exact flags_set t.storage _ _
  | evict hfree hfull hpos hindex hclear =>
    have harena := (cleared_spec hinv hpos hfull hindex hclear).2.1
    rw [if_pos ⟨hfree, hfull⟩]
    refine (flags_set _ _ _).trans ?_
    rw [harena.storage, flags_swept]
    congr 1
    funext i
    rw [Clock.flagAfter_passes]

/-- One call changes the flags as its events say. -/
theorem flags_apply (hinv : Invariant h t) {op : Op} {t' : CuckooTable}
    (hstep : t.apply h op = .ok t') :
    flags t'.storage = Clock.flagAfter (flags t.storage) (t.clockEvents h op) := by
  cases op with
  | insert key entry =>
    rw [CuckooTable.apply] at hstep
    rcases insert_cases hinv key entry with
      ⟨l, hl, rfl, hrun⟩ | ⟨habsent, ⟨hzero, hrun⟩ | ⟨index, t₁, hallocate, ha, hrun⟩⟩
    · rw [hrun, map_ok] at hstep
      obtain rfl := Except.ok.inj hstep
      rw [clockEvents, search_of_occupied hinv hl]
      exact flags_set t.storage _ _
    · rw [hrun, map_ok] at hstep
      obtain rfl := Except.ok.inj hstep
      rcases allocate_cases hinv key entry.payload with ⟨index, t₁, -, ha⟩ | ⟨-, hnone⟩
      · exact absurd (ha.maxCapacity_pos hinv) (by omega)
      · rw [clockEvents, search_of_absent hinv habsent]
        dsimp only
        rw [hnone]
        rfl
    · have halloc := ha.allocated hinv habsent
      obtain ⟨success, t₂, hdisplace, -, hd⟩ :=
        displace_spec 256 0 t₁ index (getTag (h.hash1Full key)) key halloc.inv halloc.carried
          rfl halloc.keyAt
      rw [hrun, hdisplace, map_ok] at hstep
      obtain rfl := Except.ok.inj hstep
      rw [hd.arena.storage, clockEvents, search_of_absent hinv habsent]
      dsimp only
      rw [hallocate]
      exact ha.flags hinv
  | lookup key =>
    rw [CuckooTable.apply, lookup] at hstep
    rcases lookupMap_cases hinv key id with ⟨l, hl, rfl, hrun⟩ | ⟨habsent, hrun⟩
    · rw [hrun, map_ok] at hstep
      obtain rfl := Except.ok.inj hstep
      rw [clockEvents, search_of_occupied hinv hl]
      exact flags_set t.storage _ _
    · rw [hrun, map_ok] at hstep
      obtain rfl := Except.ok.inj hstep
      rw [clockEvents, search_of_absent hinv habsent]
      rfl
  | remove key =>
    rw [CuckooTable.apply] at hstep
    rcases remove_cases hinv key with ⟨l, hl, -, hrun⟩ | ⟨-, hrun⟩
    · rw [hrun, map_ok] at hstep
      obtain rfl := Except.ok.inj hstep
      exact congrArg flags (setSlot_storage t l .empty)
    · rw [hrun, map_ok] at hstep
      obtain rfl := Except.ok.inj hstep
      rfl

theorem flags_run (ops : List Op) : ∀ t : CuckooTable, Invariant h t → ∀ t',
    t.run h ops = .ok t' →
    flags t'.storage = Clock.flagAfter (flags t.storage) (clockHistory h t ops) := by
  induction ops with
  | nil =>
    intro t _ t' hrun
    obtain rfl := Except.ok.inj hrun
    rfl
  | cons op ops ih =>
    intro t hinv t' hrun
    obtain ⟨t₁, hstep, hinv₁, -⟩ := apply_spec hinv op
    rw [CuckooTable.run, hstep, ok_bind] at hrun
    rw [ih t₁ hinv₁ t' hrun, clockHistory, hstep, Clock.flagAfter_append, flags_apply hinv hstep]

/-- In a reached state a flag is set exactly when its cell was used since it was last
passed over. -/
theorem flags_iff {size cap : ℕ} (hsize : 1 ≤ size)
    (hcap : (CuckooTable.new size cap).maxCapacity ≤ u32Max.toNat) {ops : List Op}
    (hrun : (CuckooTable.new size cap).run h ops = .ok t) (i : ℕ) :
    flags t.storage i = true ↔
      Clock.UsedSincePassed (clockHistory h (CuckooTable.new size cap) ops) i := by
  rw [← Clock.flagAfter_iff, flags_run ops _ (invariant_new h size cap hsize hcap) t hrun]
  rfl

/-! ## The scan of a full table -/

/-- A scan that passes over `passed` cells and chooses `victim`. -/
structure SecondChance (t : CuckooTable) (history : List Clock.Event) (passed victim : ℕ)
    (storage : Block SecretEntry) : Prop where
  /-- It ends with the victim after one step more than it passes over cells. -/
  ends : passed ≤ t.maxCapacity ∧ ∀ steps, passed < steps →
    clockScan t.maxCapacity steps t.storage t.clockHand =
      .ok (UInt32.ofNat victim, storage, victim + 1)
  /-- The victim is a proper index, so that the scan does not count as failed. -/
  found : UInt32.ofNat victim ≠ u32Max ∧ (UInt32.ofNat victim).toNat = victim
  /-- It is the first cell in cyclic order from the hand whose flag is cleared, or the cell
  at the hand when all flags are set. -/
  first : victim = Clock.ahead t.maxCapacity t.clockHand passed ∧
    (∀ j, j < passed →
      (t.entryAt (Clock.ahead t.maxCapacity t.clockHand j)).referenced = true) ∧
    (passed < t.maxCapacity ∧ (t.entryAt victim).referenced = false ∨
      passed = t.maxCapacity ∧ victim = Clock.start t.maxCapacity t.clockHand)
  /-- The flags of the cells passed over are cleared and nothing else changes. -/
  cleared : ∀ i, i < t.maxCapacity → storage.cell i = some { t.entryAt i with
    referenced := (t.entryAt i).referenced &&
      decide (∀ j, j < passed → Clock.ahead t.maxCapacity t.clockHand j ≠ i) }
  /-- A cell used since the hand last passed over it is spared while a flag is cleared. -/
  spares : (∃ i, i < t.maxCapacity ∧ (t.entryAt i).referenced = false) →
    ¬ Clock.UsedSincePassed history victim

theorem secondChance_of_full (hinv : Invariant h t) (hpos : 0 < t.maxCapacity)
    (hfull : t.storageSize = t.maxCapacity) {history : List Clock.Event}
    (hflags : ∀ i, flags t.storage i = true ↔ Clock.UsedSincePassed history i) :
    SecondChance t history (Clock.lead t.maxCapacity (flags t.storage) t.clockHand) t.clockVictim
      t.swept.storage where
  ends := ⟨Clock.lead_le, fun steps hsteps => clockScan_swept hinv hpos hfull hsteps⟩
  found := by
    have hnat := hinv.toNat_ofNat (clockVictim_lt hpos)
    refine ⟨hinv.ne_u32Max ?_, hnat⟩
    rw [hnat, hfull]
    exact clockVictim_lt hpos
  first := by
    refine ⟨rfl, fun j => Clock.lead_set, ?_⟩
    rcases Nat.lt_or_eq_of_le
      (Clock.lead_le : Clock.lead t.maxCapacity (flags t.storage) t.clockHand ≤ _) with hlt | heq
    · exact Or.inl ⟨hlt, Clock.lead_stop hlt⟩
    · refine Or.inr ⟨heq, ?_⟩
      rw [clockVictim, heq, Clock.ahead_self, Clock.ahead_zero hpos]
  cleared i hi := by
    obtain ⟨e, he⟩ := Option.isSome_iff_exists.mp ((hinv.storage_init i).mpr (hfull ▸ hi))
    have hentry : t.entryAt i = e := by rw [entryAt, he]; rfl
    have hflag : flags t.storage i = e.referenced := by rw [flags, he]; rfl
    change (t.storage.cell i).map _ = _
    rw [he, hentry, Option.map_some, Clock.cleared, hflag]
  spares := by
    rintro ⟨i, hi, hclear⟩ hused
    have hstop : flags t.storage t.clockVictim = false := Clock.lead_stop (Clock.lead_lt hi hclear)
    rw [(hflags _).mpr hused] at hstop
    exact Bool.noConfusion hstop

/-- In every reached state with an empty free list and all storage in use, the scan gives
a second chance, and an insertion reuses the cell that it chooses. -/
theorem run_secondChance (h : Hashing) (size cap : ℕ)
    (hcap : (CuckooTable.new size cap).maxCapacity ≤ u32Max.toNat) (ops : List Op)
    (t : CuckooTable) (hrun : (CuckooTable.new size cap).run h ops = .ok t)
    (hpos : 1 ≤ t.maxCapacity) (hfree : t.freeListSize = 0)
    (hfull : t.storageSize = t.maxCapacity) :
    ∃ passed victim storage,
      SecondChance t (clockHistory h (CuckooTable.new size cap) ops) passed victim storage ∧
        ∀ key payload, ∃ t', t.allocate h key payload = .ok (some (UInt32.ofNat victim), t') := by
  rcases run_reaches hcap hrun with ⟨hsize, hinv⟩ | ⟨-, rfl⟩
  · refine ⟨_, _, _, secondChance_of_full hinv hpos hfull (flags_iff hsize hcap hrun), ?_⟩
    intro key payload
    rcases allocate_cases hinv key payload with ⟨index, t', hallocate, ha⟩ | ⟨hzero, -⟩
    · refine ⟨t', ?_⟩
      cases ha with
      | free hsome hindex => omega
      | grow hnone hroom hindex => omega
      | evict hnone hall hsome hindex hclear =>
        rw [hallocate, ← hindex, UInt32.ofNat_toNat]
    · omega
  · simp [CuckooTable.new, UnsafeCuckoo.new] at hpos

/-- An eviction among three cells, after which one of the two others is looked up. -/
def sparingOps : List Op :=
  [.insert "a" ⟨"a", [1], true⟩, .insert "b" ⟨"b", [2], true⟩, .insert "c" ⟨"c", [3], true⟩,
    .insert "d" ⟨"d", [4], true⟩, .lookup "b"]

/-- The cell that was looked up is passed over, and the next one is chosen. -/
theorem run_secondChance_sparing :
    let history := clockHistory ⟨fun _ => 0, fun _ => 0⟩ (CuckooTable.new 1 3) sparingOps
    ∃ t, (CuckooTable.new 1 3).run ⟨fun _ => 0, fun _ => 0⟩ sparingOps = .ok t ∧
      ∃ passed storage, SecondChance t history passed 2 storage ∧
        Clock.UsedSincePassed history 1 ∧ ¬ Clock.UsedSincePassed history 2 := by
  have hends : ((CuckooTable.new 1 3).run ⟨fun _ => 0, fun _ => 0⟩ sparingOps).map (fun t =>
      (t.maxCapacity, t.freeListSize, t.storageSize, (t.entryAt 2).referenced,
        (clockScan 3 4 t.storage t.clockHand).map fun r => r.2.2)) =
      .ok (3, 0, 3, false, .ok 3) := by
    decide +kernel
  cases hrun : (CuckooTable.new 1 3).run ⟨fun _ => 0, fun _ => 0⟩ sparingOps with
  | error e =>
    rw [hrun] at hends
    cases hends
  | ok t =>
    rw [hrun] at hends
    simp only [Except.map, Except.ok.injEq, Prod.mk.injEq] at hends
    obtain ⟨hmax, hfree, hsize, hclear, hscan⟩ := hends
    obtain ⟨passed, victim, storage, hchance, -⟩ := run_secondChance ⟨fun _ => 0, fun _ => 0⟩ 1 3
      (by decide) sparingOps t hrun (by omega) hfree (hsize.trans hmax.symm)
    obtain ⟨hpassed, hvictim⟩ := hchance.ends
    rw [hmax] at hpassed hvictim
    rw [hvictim 4 (Nat.lt_succ_of_le hpassed)] at hscan
    obtain rfl : victim = 2 := Nat.succ.inj (Except.ok.inj hscan)
    refine ⟨t, rfl, passed, storage, hchance, ?_, hchance.spares ⟨2, by omega, hclear⟩⟩
    rw [← Clock.flagAfter_iff]
    decide +kernel

/-- In a full table with `2 ^ 32` storage cells the scan stops at the last cell, whose
index counts as no victim, and the insertion is rejected. -/
theorem clockScan_lastCell : ∃ t storage t',
    (CuckooTable.new (2 ^ 33) (2 ^ 32)).run Overflow.hashing.toHashing
        (Overflow.turnOps (2 ^ 32)) = .ok t ∧
      1 ≤ t.maxCapacity ∧ t.freeListSize = 0 ∧ t.storageSize = t.maxCapacity ∧
      clockScan t.maxCapacity (t.maxCapacity * 2) t.storage t.clockHand =
        .ok (u32Max, storage, t.maxCapacity) ∧
      t.insert Overflow.hashing.toHashing (Overflow.key (2 ^ 32 + 1)) Overflow.secret =
        .ok (false, t') := by
  have hnew : CuckooTable.new (2 ^ 33) (2 ^ 32) = Overflow.filled (2 ^ 33) (2 ^ 32) 0 := by
    rw [Overflow.filled_zero]
    rfl
  have hlast : UInt32.ofNat (2 ^ 32 - 1) = u32Max := by decide
  rw [hnew]
  generalize hcap : 2 ^ 32 = cap at hlast ⊢
  generalize hsize : 2 ^ 33 = size
  obtain ⟨storage, hscan⟩ := Overflow.clockScan_turned size (by omega : 2 ≤ cap)
  obtain ⟨t', hins⟩ := Overflow.insert_turned (by omega : 2 ≤ cap) hlast
    (by omega : cap + 1 < size) (by omega)
  rw [hlast] at hscan
  exact ⟨Overflow.turned size cap (cap - 2), storage, t',
    Overflow.run_turnOps (by omega) hcap.ge (by omega), (by omega : 1 ≤ cap), rfl, rfl, hscan,
    hins⟩

end Kallisto.Cuckoo.CuckooTable
