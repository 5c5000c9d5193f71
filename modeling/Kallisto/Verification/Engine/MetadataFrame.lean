import Kallisto.Verification.Engine.Alone

/-! # What mutations keep of the metadata -/

namespace Kallisto.Engine

variable {B : Type}

/-! ## Edits -/

/-- One version is changed. -/
def KeyMetadata.Changed (m m' : KeyMetadata) (version : UInt32) (f : VersionState → VersionState) :
    Prop :=
  m' = { m with versions := m.versions.map fun v => if v.versionId = version then f v else v }

/-- What a request that succeeds may change of the metadata of its path. -/
def KeyMetadata.Edited (m m' : KeyMetadata) : Call → Prop
  | .readMetadata _ => m' = m
  | .readVersion _ _ => m' = m
  | .putVersion _ _ _ => m'.currentVersion.toNat = m.currentVersion.toNat + 1 ∧
      ∃ created, m' = { m with
        currentVersion := m'.currentVersion
        versions := m.versions ++ [⟨created, 0, m'.currentVersion, false⟩] }
  | .softDelete _ version => ∃ now, m.Changed m' version fun v => { v with deletionTimeMs := now }
  | .undelete _ version => m.Changed m' version fun v => { v with deletionTimeMs := 0 }
  | .destroyVersion _ version => m.Changed m' version fun v => { v with destroyed := true }

theorem KeyMetadata.Edited.customMetadata {m m' : KeyMetadata} {c : Call} (h : m.Edited m' c) :
    m'.customMetadata = m.customMetadata := by
  cases c with
  | readMetadata path => rw [show m' = m from h]
  | readVersion path version => rw [show m' = m from h]
  | putVersion path x cas =>
    obtain ⟨-, created, h⟩ := h
    rw [h]
  | softDelete path version =>
    obtain ⟨now, h⟩ := h
    rw [h]
  | undelete path version => rw [show m' = _ from h]
  | destroyVersion path version => rw [show m' = _ from h]

/-- The record is found under the metadata key of the path, and it is in RocksDB or last in
the queue, as the mode has it. -/
structure StoredBack (s' : KvEngine B) (path : String) (b : B) : Prop where
  found : s'.view (buildMetaKey path) = some b
  direct : s'.syncMode = .immediate → s'.rocksdb (buildMetaKey path) = some b
  queued : s'.syncMode = .batch → s'.asyncQueue.getLast? = some (.put (buildMetaKey path) b)

theorem updateVersion_eq_map {version : UInt32} {f : VersionState → VersionState}
    {vs : List VersionState} (h : (vs.map VersionState.versionId).Nodup) :
    updateVersion version f vs = vs.map fun v => if v.versionId = version then f v else v := by
  induction vs with
  | nil => rfl
  | cons v vs ih =>
    obtain ⟨hnot, hrest⟩ := List.nodup_cons.mp h
    rw [updateVersion, List.map_cons]
    split
    · next heq =>
        have hothers : vs.map (fun w => if w.versionId = version then f w else w) = vs := by
          refine (List.map_congr_left fun w hw => if_neg ?_).trans (List.map_id vs)
          rintro rfl
          exact hnot (heq ▸ List.mem_map_of_mem hw)
        rw [hothers]
    · rw [ih hrest]

theorem deserializeMetadata_eq {rkyv : Rkyv B} {b : B}
    (h : (rkyv.archivedMetadata b).customMetadata = []) :
    deserializeMetadata rkyv b = rkyv.archivedMetadata b := by
  unfold deserializeMetadata
  rw [← h]

/-! ## Requests that succeed -/

section Success

variable {rkyv : Rkyv B} {given : Choice → Prop} {path : String} {s s' : KvEngine B} {out : Out}
  {writes : List (AsyncOp B)} {m : KeyMetadata}

theorem storedBack_accept (s : KvEngine B) (path : String) (b : B) :
    StoredBack (s.accept (.put (buildMetaKey path) b)) path b where
  found := by rw [KvEngine.view_accept_put, Function.update_self]
  direct hmode := by
    rw [KvEngine.accept_immediate (s := s) hmode]
    exact AsyncOp.apply_key s.rocksdb (.put (buildMetaKey path) b)
  queued hmode := by
    rw [KvEngine.accept_batch (s := s) hmode]
    exact List.getLast?_concat

/-- The metadata is stored at the end of a request. -/
theorem ends_stored (hrkyv : rkyv.Faithful) {next : Script B}
    (hnext : ∀ {s s' : KvEngine B} {writes : List (AsyncOp B)},
      next.Ends given s (.ok out) s' writes → s' = s ∨ s' = s.register path)
    (h : (storeMetadataScript rkyv path m next).Ends given s (.ok out) s' writes) :
    ∃ b, rkyv.archivedMetadata b = m ∧ StoredBack s' path b := by
  rcases ends_storeMetadataScript h with ⟨_, herror, _⟩ | ⟨b, later, hb, _, hrest⟩
  · cases herror
  · obtain ⟨b', hb', harchived⟩ := hrkyv.metadata m
    obtain rfl := Except.ok.inj (hb.symm.trans hb')
    have hstored := storedBack_accept s path b
    refine ⟨b, harchived, ?_⟩
    rcases hnext hrest with rfl | rfl
    · exact hstored
    · exact ⟨hstored.found, hstored.direct, hstored.queued⟩

theorem ends_register_ok {r r' : Except EngineError Out}
    (h : (Script.register path (.finish r)).Ends given s r' s' writes) :
    s' = s.register path := by
  cases h with
  | register h => exact ends_finish h

/-- The metadata is stored with one version changed. -/
theorem ends_updated (hrkyv : rkyv.Faithful) {version : UInt32} {f : VersionState → VersionState}
    {r : Except EngineError Out} (hdistinct : (m.versions.map VersionState.versionId).Nodup)
    (h : (storeMetadataScript rkyv path (m.updated version f) (.finish r)).Ends given s (.ok out)
      s' writes) :
    ∃ b, m.Changed (rkyv.archivedMetadata b) version f ∧ StoredBack s' path b := by
  obtain ⟨b, hb, hstored⟩ := ends_stored hrkyv (fun h => Or.inl (ends_finish h)) h
  refine ⟨b, ?_, hstored⟩
  rw [hb, KeyMetadata.updated, updateVersion_eq_map hdistinct]
  rfl

/-- A request that succeeds goes on with the metadata that it finds. -/
theorem ends_found {k : KeyMetadata → Script B} {b : B}
    (hb : s.view (buildMetaKey path) = some b)
    (h : (readMetadataScript rkyv path k).Ends given s (.ok out) s' writes) :
    ∃ s₁, (k (deserializeMetadata rkyv b)).Ends given s₁ (.ok out) s' writes := by
  rcases ends_readMetadataScript h with ⟨_, herror, _⟩ | ⟨s₁, b', _, hb', hrest⟩
  · cases herror
  · obtain rfl := Option.some.inj (hb.symm.trans hb')
    exact ⟨s₁, hrest⟩

/-- A put that succeeds has stored the metadata with a new version. -/
theorem ends_appended {x : SecretPayload}
    (h : (appendVersionScript rkyv path x m).Ends given s (.ok out) s' writes) :
    ∃ s₁ writes' created, (storeMetadataScript rkyv path (m.grown created)
      (.register path (.finish (.ok .unit)))).Ends given s₁ (.ok out) s' writes' := by
  unfold appendVersionScript at h
  cases h with
  | clock choice _ h =>
    split at h
    · cases h
    · cases h with
      | write h => exact ⟨_, _, choice.now, h⟩

end Success

/-- A mutation that succeeds stores the metadata that it has decoded back with its own change and
nothing else. -/
theorem request_edits {rkyv : Rkyv B} (hrkyv : rkyv.Faithful) {s : KvEngine B} {c : Call}
    {path : String} {choices : List Choice} {b : B} {out : Out} (hc : c.mutates = some path)
    (hb : s.view (buildMetaKey path) = some b)
    (hnumber : (rkyv.archivedMetadata b).currentVersion.toNat < 2 ^ 32 - 1)
    (hdistinct : ((rkyv.archivedMetadata b).versions.map VersionState.versionId).Nodup)
    (hok : (request rkyv s c choices).1 = .ok out) :
    ∃ b', (deserializeMetadata rkyv b).Edited (rkyv.archivedMetadata b') c ∧
      StoredBack (request rkyv s c choices).2 path b' := by
  have hends := request_ends rkyv s c choices
  rw [hok] at hends
  replace hdistinct : ((deserializeMetadata rkyv b).versions.map VersionState.versionId).Nodup :=
    hdistinct
  generalize (request rkyv s c choices).2 = s' at hends ⊢
  generalize acceptedWrites rkyv s c choices = writes at hends
  cases c with
  | readMetadata path => cases hc
  | readVersion path version => cases hc
  | putVersion path' x cas =>
    obtain rfl : path' = path := Option.some.inj hc
    unfold script putVersionScript at hends
    cases hends with
    | read hfills hrest =>
      rw [hb] at hrest
      dsimp only at hrest
      rw [Option.map_some, Option.getD_some] at hrest
      obtain ⟨s₂, writes', created, hrest⟩ := ends_appended (ends_checkCasScript hrest)
      obtain ⟨b', hb', hstored⟩ :=
        ends_stored hrkyv (fun h => Or.inr (ends_register_ok h)) hrest
      refine ⟨b', ?_, hstored⟩
      rw [hb']
      refine ⟨?_, created, rfl⟩
      change ((rkyv.archivedMetadata b).currentVersion + 1).toNat = _
      rw [UInt32.toNat_add]
      exact Nat.mod_eq_of_lt (by change _ + 1 < 2 ^ 32; omega)
  | softDelete path' version =>
    obtain rfl : path' = path := Option.some.inj hc
    unfold script softDeleteScript at hends
    obtain ⟨s₁, hrest⟩ := ends_found hb hends
    split at hrest
    · cases hrest
    · cases hrest with
      | clock choice _ hrest =>
        obtain ⟨b', hb', hstored⟩ := ends_updated hrkyv hdistinct hrest
        exact ⟨b', ⟨choice.now, hb'⟩, hstored⟩
  | undelete path' version =>
    obtain rfl : path' = path := Option.some.inj hc
    unfold script undeleteScript at hends
    obtain ⟨s₁, hrest⟩ := ends_found hb hends
    split at hrest
    · cases hrest
    · split at hrest
      · cases hrest
      · exact ends_updated hrkyv hdistinct hrest
  | destroyVersion path' version =>
    obtain rfl : path' = path := Option.some.inj hc
    unfold script destroyVersionScript at hends
    obtain ⟨s₁, hrest⟩ := ends_found hb hends
    split at hrest
    · cases hrest
    · cases hrest with
      | write hrest => exact ends_updated hrkyv hdistinct hrest

/-- A mutation that succeeds stores the metadata of its path back with its own change and nothing
else exactly when there is no custom metadata to lose. -/
theorem metadata_stored_back (rkyv : Rkyv B) (hrkyv : rkyv.Faithful) (s : KvEngine B) (c : Call)
    (path : String) (choices : List Choice) (b : B) (out : Out) (hc : c.mutates = some path)
    (hb : s.view (buildMetaKey path) = some b)
    (hnumber : (rkyv.archivedMetadata b).currentVersion.toNat < 2 ^ 32 - 1)
    (hdistinct : ((rkyv.archivedMetadata b).versions.map VersionState.versionId).Nodup)
    (hok : (request rkyv s c choices).1 = .ok out) :
    (∃ b', (rkyv.archivedMetadata b).Edited (rkyv.archivedMetadata b') c ∧
      StoredBack (request rkyv s c choices).2 path b') ↔
      (rkyv.archivedMetadata b).customMetadata = [] := by
  obtain ⟨b', hedited, hstored⟩ := request_edits hrkyv hc hb hnumber hdistinct hok
  constructor
  · rintro ⟨b'', hedited', hstored'⟩
    obtain rfl : b'' = b' := Option.some.inj (hstored'.found.symm.trans hstored.found)
    rw [← hedited'.customMetadata, hedited.customMetadata]
    rfl
  · intro hcustom
    rw [deserializeMetadata_eq hcustom] at hedited
    exact ⟨b', hedited, hstored⟩

/-- A database whose path has settings and custom metadata. -/
def Record.configured (custom : List (String × String)) (key : String) : Option Record :=
  if key = buildMetaKey "p" then
    some (.metadata ⟨1, 5, true, 60000, custom, [⟨1, 0, 1, false⟩]⟩)
  else if key = buildVersionKey "p" 1 then some (.payload ⟨"x", 0⟩)
  else none

theorem metadata_stored_back_configured :
    let s : KvEngine Record := .opened (Record.configured []) .immediate ["p"]
    ∃ b', (⟨1, 5, true, 60000, [], [⟨1, 0, 1, false⟩]⟩ : KeyMetadata).Edited
        (Record.rkyv.archivedMetadata b') (.softDelete "p" 1) ∧
      StoredBack (request Record.rkyv s (.softDelete "p" 1) []).2 "p" b' :=
  (metadata_stored_back Record.rkyv Record.rkyv_faithful
    (.opened (Record.configured []) .immediate ["p"]) (.softDelete "p" 1) "p" []
    (.metadata ⟨1, 5, true, 60000, [], [⟨1, 0, 1, false⟩]⟩) .unit rfl (by decide +kernel) (by decide)
    (by decide) (by decide +kernel)).mpr rfl

/-- A put erases the custom metadata of its path. -/
theorem metadata_stored_back_loses_custom :
    let s : KvEngine Record := .opened (Record.configured [("owner", "a")]) .immediate ["p"]
    let s' := (request Record.rkyv s (.putVersion "p" ⟨"y", 0⟩ none) []).2
    (request Record.rkyv s (.putVersion "p" ⟨"y", 0⟩ none) []).1 = .ok .unit ∧
      s.view (buildMetaKey "p") =
        some (.metadata ⟨1, 5, true, 60000, [("owner", "a")], [⟨1, 0, 1, false⟩]⟩) ∧
      s'.rocksdb (buildMetaKey "p") =
        some (.metadata ⟨2, 5, true, 60000, [], [⟨1, 0, 1, false⟩, ⟨1, 0, 2, false⟩]⟩) := by
  decide +kernel

end Kallisto.Engine
