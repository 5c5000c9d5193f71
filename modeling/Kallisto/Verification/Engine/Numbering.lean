import Kallisto.Verification.Engine.Provenance

/-! # Numbers of versions

Concurrent puts may take the same number and overwrite each other's metadata. Still every
metadata record, wherever it is, lists the versions from one to its current version, in
order and without a gap. -/

namespace Kallisto.Engine

open Program Interleaving Cuckoo

variable {B Tid : Type}

/-! ## Numbered metadata -/

/-- The versions are numbered from one, and the current one is the last. Numbers wrap
around at `2 ^ 32`. -/
structure KeyMetadata.Numbered (m : KeyMetadata) : Prop where
  versions : m.versions.map VersionState.versionId =
    (List.range m.versions.length).map fun i => UInt32.ofNat (i + 1)
  current : m.currentVersion = UInt32.ofNat m.versions.length

theorem numbered_grown {m : KeyMetadata} (h : m.Numbered) (created : UInt64) :
    (m.grown created).Numbered := by
  have hnext : m.currentVersion + 1 = UInt32.ofNat (m.versions.length + 1) := by
    rw [h.current, UInt32.ofNat_add]
    rfl
  constructor
  · simp [KeyMetadata.grown, h.versions, hnext, List.range_succ]
  · simp [KeyMetadata.grown, hnext]

theorem numbered_updated {m : KeyMetadata} (h : m.Numbered) (version : UInt32)
    {f : VersionState → VersionState} (hf : ∀ v, (f v).versionId = v.versionId) :
    (m.updated version f).Numbered := by
  have hlength : (updateVersion version f m.versions).length = m.versions.length := by
    simpa using congrArg List.length (map_updateVersion (n := version) hf m.versions)
  constructor
  · simp only [KeyMetadata.updated, map_updateVersion hf, hlength]
    exact h.versions
  · simp only [KeyMetadata.updated, hlength]
    exact h.current

/-- Exactly the numbers up to the current one are found. -/
theorem KeyMetadata.Numbered.findVersion {m : KeyMetadata} (h : m.Numbered)
    (hfew : m.versions.length < 2 ^ 32) (version : UInt32) :
    (∃ v, findVersion version m = some v) ↔ 0 < version ∧ version ≤ m.currentVersion := by
  rw [findVersion_eq_some, h.versions, h.current, List.mem_map]
  simp only [List.mem_range, UInt32.lt_iff_toNat_lt, UInt32.le_iff_toNat_le]
  have hlength : (UInt32.ofNat m.versions.length).toNat = m.versions.length :=
    UInt32.toNat_ofNat_of_lt' hfew
  rw [hlength]
  constructor
  · rintro ⟨i, hi, rfl⟩
    rw [UInt32.toNat_ofNat_of_lt' (Nat.lt_of_le_of_lt hi hfew)]
    exact ⟨Nat.succ_pos i, hi⟩
  · rintro ⟨hpos, hle⟩
    have hpos : 0 < version.toNat := hpos
    refine ⟨version.toNat - 1, by omega, ?_⟩
    rw [Nat.sub_add_cancel hpos, UInt32.ofNat_toNat]

/-- The record, if it is metadata, is numbered. -/
def NumberedRecord (rkyv : Rkyv B) (key : String) (b : B) : Prop :=
  ∀ path, key = buildMetaKey path → (rkyv.archivedMetadata b).Numbered

theorem upkeep_numbered {rkyv : Rkyv B} (hrkyv : rkyv.Faithful) :
    Upkeep rkyv (NumberedRecord rkyv) (fun _ m => m.Numbered) fun _ _ => True where
  default _ := ⟨rfl, rfl⟩
  grown _ _ created hm := numbered_grown hm created
  updated _ _ version _ hf hm := numbered_updated hm version hf
  metadata path b hb := ⟨(hb path rfl).versions, (hb path rfl).current⟩
  storeMetadata path m b hm hb _ _ := by
    obtain ⟨b', hb', harchived⟩ := hrkyv.metadata m
    rw [Except.ok.inj (hb.symm.trans hb'), harchived]
    exact hm
  payload _ _ _ _ := trivial
  storePayload _ _ _ _ _ _ _ hkey := (buildMetaKey_ne_buildVersionKey _ _ _ hkey.symm).elim

/-! ## Main result -/

/-- At every moment the metadata in RocksDB is numbered, and so is all that any client has
found, in the cache or on disk, or has been shown. -/
structure NumbersVersions {h : ShardedHashing} (rkyv : Rkyv Bytes)
    (p : Pool (assembled h) EngineError Call Out Tid) : Prop where
  stored : ∀ path b, p.shared.rocksdb (buildMetaKey path) = some b →
    (rkyv.archivedMetadata b).Numbered
  found : ∀ t op r path b, .act t op r ∈ p.log → op.Finds (buildMetaKey path) b r →
    (rkyv.archivedMetadata b).Numbered
  shown : ∀ t path m, .respond t (.readMetadata path) (.ok (.metadata m)) ∈ p.log → m.Numbered ∧
    (m.versions.length < 2 ^ 32 → ∀ version,
      (∃ v, findVersion version m = some v) ↔ 0 < version ∧ version ≤ m.currentVersion)

theorem run_numbersVersions [DecidableEq Tid] (h : ShardedHashing) (rkyv : Rkyv Bytes)
    (hrkyv : rkyv.Faithful) (db : String → Option Bytes) (keys : List String) (mode : SyncMode)
    (hdb : ∀ path b, db (buildMetaKey path) = some b → (rkyv.archivedMetadata b).Numbered) :
    ∃ s, Assembly.opened db keys mode = some s ∧
      ∀ labels : List (Label (assembled h) Call Tid),
        NumbersVersions rkyv ((Pool.init s).run (body rkyv) labels) := by
  have hstored : ∀ key b, db key = some b → NumberedRecord rkyv key b := by
    rintro key b hb path rfl
    exact hdb path b hb
  obtain ⟨s, hopened, hrun⟩ := assembled_honoured Tid h db keys mode (body rkyv)
  refine ⟨s, hopened, fun labels => ?_⟩
  have hbody := body_keeps (upkeep_numbered hrkyv) (Texts.any rkyv fun _ => True)
  have hkept := hrun labels _ _ _ hstored (fun _ _ _ _ _ => trivial)
    fun _ c _ => hbody c fun _ _ _ _ => trivial
  refine ⟨?_, ?_, ?_⟩
  · exact fun path b hb => hkept.stored _ b hb path rfl
  · exact fun t op r path b hact hfinds =>
      authentic_of_finds (hkept.answers t op r hact) hfinds path rfl
  · intro t path m hresponse
    have hnumbered : m.Numbered := hkept.results t _ _ hresponse
    exact ⟨hnumbered, hnumbered.findVersion⟩

/-- A database with one path that has one version. -/
theorem run_numbersVersions_single :
    Plain.rkyv.Faithful ∧
      (∀ path b, Plain.single (buildMetaKey path) = some b →
        (Plain.rkyv.archivedMetadata b).Numbered) ∧
      ∃ s, Assembly.opened Plain.single [buildMetaKey "p", buildVersionKey "p" 1] .batch = some s ∧
        ∀ labels : List (Label (assembled colliding) Call ℕ),
          NumbersVersions Plain.rkyv ((Pool.init s).run (body Plain.rkyv) labels) := by
  have hnumbered : ∀ path b, Plain.single (buildMetaKey path) = some b →
      (Plain.rkyv.archivedMetadata b).Numbered := by
    intro path b hb
    unfold Plain.single at hb
    split at hb
    · rw [← Option.some.inj hb]
      change (Plain.metadata.take (Plain.metadata.put _)).1.Numbered
      rw [Plain.metadata.take_self]
      exact ⟨rfl, rfl⟩
    · rw [if_neg (buildMetaKey_ne_buildVersionKey path "p" 1)] at hb
      cases hb
  exact ⟨Plain.rkyv_faithful, hnumbered,
    run_numbersVersions colliding Plain.rkyv Plain.rkyv_faithful _ _ .batch hnumbered⟩

end Kallisto.Engine
