import Kallisto.Verification.Cuckoo.Visibility
import Kallisto.Verification.Cuckoo.Accounting

/-! # Insertions that one relocation makes possible -/

namespace Kallisto.Cuckoo.CuckooTable

open RawMemory

variable {h : Hashing} {t : CuckooTable}

/-- The key has an empty slot in one of its buckets. -/
theorem findsPlace_of_empty {key : String} {side : Side} {j : Fin 8}
    (hempty : ¬ t.Occupied (t.home h side key j)) : t.FindsPlace h key := by
  refine ⟨0, by decide, side, j, fun hstays => hempty ?_⟩
  have hown : t.nextKeyAt key (t.willCarry h key 0) = key := if_pos rfl
  rw [← hown]
  exact hstays.1

/-- With a storage cell to be had, the insertion of a new key succeeds exactly when an entry that
the displacement carries in one of its 256 rounds has an empty slot in one of its buckets. An empty
slot in a bucket of the key is enough; one in the second bucket of a resident is enough only if the
displacement carries that resident, and it is not needed if the new entry takes the cell of an entry
in the way. -/
theorem run_insertFinds (h : Hashing) (size cap : ℕ)
    (hcap : (CuckooTable.new size cap).maxCapacity ≤ u32Max.toNat) (ops : List Op)
    (t : CuckooTable) (hrun : (CuckooTable.new size cap).run h ops = .ok t)
    (hcell : 1 ≤ t.maxCapacity) (key : String) (entry : SecretEntry)
    (habsent : t.view h key = .ok none) :
    ∃ success t', t.insert h key entry = .ok (success, t') ∧
      (success = true ↔ t.FindsPlace h key) ∧
      ((∃ side j, ¬ t.Occupied (t.home h side key j)) → success = true) := by
  rcases run_reaches hcap hrun with ⟨-, hinv⟩ | ⟨-, rfl⟩
  · rcases insert_cases hinv key entry with
      ⟨l, hl, rfl, -⟩ | ⟨habsent, ⟨hzero, -⟩ | ⟨index, t₁, -, ha, hins⟩⟩
    · exact ((view_eq_none_iff hinv _).mp habsent _
        ((holds_iff_of_slotKey hinv hl _).mpr rfl)).elim
    · omega
    · obtain ⟨success, t₂, hdisplace, -, hiff⟩ :=
        displace_allocated hinv ha (ha.allocated hinv habsent)
      refine ⟨success, t₂, hins.trans hdisplace, hiff, ?_⟩
      rintro ⟨side, j, hempty⟩
      exact hiff.mpr (findsPlace_of_empty hempty)
  · simp [CuckooTable.new, UnsafeCuckoo.new] at hcell

section Crowded

open Crowding
open Overflow (key key_length secret)

/-- The second resident of the crowded bucket. -/
theorem resident_turning {t : CuckooTable}
    (ht : Laid (hashing turning straying) 3 key (rowByRow 1 0) 16 t) {m : ℕ} :
    t.home (hashing turning straying) .first (key m) 1 = rowByRow 1 0 1 := by
  rw [home_crowded ht]
  change (⟨.first, (turning (key m).length).toNat % 3, 1⟩ : Loc) = _
  rw [turning_mod]
  rfl

theorem roomy_turning {t : CuckooTable}
    (ht : Laid (hashing turning straying) 3 key (rowByRow 1 0) 16 t) (m : ℕ) :
    ¬ t.Occupied (t.home (hashing turning straying) .second
      (t.slotKey (t.home (hashing turning straying) .first (key m) 1)) 0) := by
  have hkey : t.slotKey (rowByRow 1 0 1) = key 1 := by
    rw [slotKey, (ht.slot 1 (by decide)).2, ht.key 1 (by decide)]
  rw [resident_turning ht, hkey, home_crowded ht, occupied_crowded ht]
  change (straying (key 1).length).toNat % 3 ≠ 0
  rw [key_length]
  decide

/-- The walk over the even slots misses the one resident with room in its second bucket. -/
theorem insert_turning_misses : ∃ t,
    (CuckooTable.new 3 17).run (hashing turning straying) (fillOps key secret 16) = .ok t ∧
      1 ≤ t.maxCapacity ∧ t.view (hashing turning straying) (key 16) = .ok none ∧
      (∃ j, ¬ t.Occupied (t.home (hashing turning straying) .second
        (t.slotKey (t.home (hashing turning straying) .first (key 16) 1)) j)) ∧
      ∃ t', t.insert (hashing turning straying) (key 16) secret = .ok (false, t') := by
  obtain ⟨t, hrun, ht, hmax⟩ := crowds_turning.run
  obtain ⟨t', hins, -⟩ := insert_crowded crowds_turning ht hmax le_rfl fun n _ => straying_trades n
  refine ⟨t, hrun, by omega, ?_, ⟨0, roomy_turning ht 16⟩, t', hins⟩
  rw [view_eq_none_iff ht.inv]
  exact not_holds_of_absent (absent_crowded ht le_rfl)

/-- A key that trades with that resident in the first round is placed. -/
theorem run_insertFinds_turning : ∃ t,
    (CuckooTable.new 3 17).run (hashing turning straying) (fillOps key secret 16) = .ok t ∧
      ∃ t', t.insert (hashing turning straying) (key 17) secret = .ok (true, t') := by
  obtain ⟨t, hrun, ht, hmax⟩ := crowds_turning.run
  have hle : 16 ≤ 17 := by decide
  have hplace : t.FindsPlace (hashing turning straying) (key 17) := by
    rw [← findsPlace_iff ht.inv (allocates_crowded ht hmax 17) (allocated_crowded ht hmax hle)]
    refine ⟨1, by decide, ?_⟩
    rw [carriedAfter_crowded crowds_turning ht, hasRoom_crowded crowds_turning ht (trades_le ..)]
    decide +kernel
  have habsent : t.view (hashing turning straying) (key 17) = .ok none := by
    rw [view_eq_none_iff ht.inv]
    exact not_holds_of_absent (absent_crowded ht hle)
  obtain ⟨success, t', hins, hiff, -⟩ := run_insertFinds (hashing turning straying) 3 17
    (by decide) (fillOps key secret 16) t hrun (by omega) (key 17) secret habsent
  obtain rfl := hiff.mpr hplace
  exact ⟨t, hrun, t', hins⟩

end Crowded

end Kallisto.Cuckoo.CuckooTable
