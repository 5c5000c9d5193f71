import Kallisto.Model.EngineSystem

/-! # Requests as scripts

Every request is made of a few blocks: reads through the cache, writes followed by the
update of the cache, readings of the clock and entries into the path index. A property
of all programs made of these blocks is proved once, by induction on the script. -/

namespace Kallisto.Engine

open Program

variable {f : VersionState → VersionState}

inductive Script (B : Type) where
  | finish (r : Except EngineError Out)
  | read (key : String) (k : Option B → Script B)
  | clock (k : UInt64 → Script B)
  | write (op : AsyncOp B) (next : Script B)
  | register (path : String) (next : Script B)

variable {B : Type}

/-- The update of the cache that follows a write. -/
def AsyncOp.publish : AsyncOp B → EngineM B Unit
  | .put key value => cacheInsert key value
  | .delete key => cacheRemove key

def Script.run : Script B → EngineM B Out
  | .finish r => .done r
  | .read key k => readRawOptimistic key id >>= fun found => (k found).run
  | .clock k => nowMs >>= fun now => (k now).run
  | .write op next => enqueueOrExecute op >>= fun _ => op.publish >>= fun _ => next.run
  | .register path next => insertPathIfAbsent path >>= fun _ => next.run

/-! ## The scripts of the requests -/

section Scripts

variable (rkyv : Rkyv B)

def storeMetadataScript (path : String) (metadata : KeyMetadata) (next : Script B) : Script B :=
  match rkyv.metadataToBytes metadata with
  | .error e => .finish (.error (.storageError ("Metadata serialization failed: " ++ e)))
  | .ok bytes => .write (.put (buildMetaKey path) bytes) next

/-- Reading the metadata of a path that must be known. -/
def readMetadataScript (path : String) (k : KeyMetadata → Script B) : Script B :=
  .read (buildMetaKey path) fun
    | none => .finish (.error .notFound)
    | some bytes => k (deserializeMetadata rkyv bytes)

def readVersionScript (path : String) (version : UInt32) : Script B :=
  .read (buildMetaKey path) fun
    | none => .finish (.error .notFound)
    | some bytes =>
      match locate version (rkyv.archivedMetadata bytes) with
      | (_, none) => .finish (.error (.invalidVersion version))
      | (target, some v) =>
        if target = 0 then .finish (.error (.invalidVersion version))
        else if v.destroyed then .finish (.error .destroyed)
        else if v.deletionTimeMs > 0 then .finish (.error .softDeleted)
        else .read (buildVersionKey path target) fun
          | some payload =>
            .finish (.ok (.version (rkyv.archivedPayload payload) { v with versionId := target }))
          | none => .finish (.error (.storageError "Missing version payload"))

/-- The metadata with a new version. -/
def KeyMetadata.grown (metadata : KeyMetadata) (created : UInt64) : KeyMetadata :=
  { metadata with
    currentVersion := metadata.currentVersion + 1
    versions := metadata.versions ++ [⟨created, 0, metadata.currentVersion + 1, false⟩] }

def appendVersionScript (path : String) (payload : SecretPayload) (metadata : KeyMetadata) :
    Script B :=
  .clock fun created =>
    match rkyv.payloadToBytes payload with
    | .error e => .finish (.error (.storageError ("Payload serialization failed: " ++ e)))
    | .ok bytes => .write (.put (buildVersionKey path (metadata.currentVersion + 1)) bytes)
        (storeMetadataScript rkyv path (metadata.grown created)
          (.register path (.finish (.ok .unit))))

def checkCasScript (cas : Option UInt32) (metadata : KeyMetadata) (next : Script B) : Script B :=
  match cas with
  | some expected =>
    if metadata.currentVersion ≠ expected then
      .finish (.error (.casMismatch expected metadata.currentVersion))
    else next
  | none => next

def putVersionScript (path : String) (payload : SecretPayload) (cas : Option UInt32) : Script B :=
  .read (buildMetaKey path) fun found =>
    let metadata := (found.map (deserializeMetadata rkyv)).getD .default
    checkCasScript cas metadata (appendVersionScript rkyv path payload metadata)

/-- The metadata with one version changed. -/
def KeyMetadata.updated (metadata : KeyMetadata) (version : UInt32)
    (f : VersionState → VersionState) : KeyMetadata :=
  { metadata with versions := updateVersion version f metadata.versions }

def softDeleteScript (path : String) (version : UInt32) : Script B :=
  readMetadataScript rkyv path fun metadata =>
    match findVersion version metadata with
    | none => .finish (.error (.invalidVersion version))
    | some _ => .clock fun now => storeMetadataScript rkyv path
        (metadata.updated version fun v => { v with deletionTimeMs := now }) (.finish (.ok .unit))

def undeleteScript (path : String) (version : UInt32) : Script B :=
  readMetadataScript rkyv path fun metadata =>
    match findVersion version metadata with
    | none => .finish (.error (.invalidVersion version))
    | some v =>
      if v.destroyed then .finish (.error .destroyed)
      else storeMetadataScript rkyv path
        (metadata.updated version fun v => { v with deletionTimeMs := 0 }) (.finish (.ok .unit))

def destroyVersionScript (path : String) (version : UInt32) : Script B :=
  readMetadataScript rkyv path fun metadata =>
    match findVersion version metadata with
    | none => .finish (.error (.invalidVersion version))
    | some _ => .write (.delete (buildVersionKey path version))
        (storeMetadataScript rkyv path
          (metadata.updated version fun v => { v with destroyed := true }) (.finish (.ok .unit)))

def script : Call → Script B
  | .readMetadata path =>
    readMetadataScript rkyv path fun metadata => .finish (.ok (.metadata metadata))
  | .readVersion path version => readVersionScript rkyv path version
  | .putVersion path payload cas => putVersionScript rkyv path payload cas
  | .softDelete path version => softDeleteScript rkyv path version
  | .undelete path version => undeleteScript rkyv path version
  | .destroyVersion path version => destroyVersionScript rkyv path version

end Scripts

/-- Numbers of versions grow until they wrap around. -/
theorem lt_next {n : UInt32} (h : n + 1 ≠ 0) : n < n + 1 := by
  have hsize := n.toNat_lt
  have hne : (n + 1).toNat ≠ 0 := fun h0 => h (UInt32.toNat_inj.mp h0)
  have hone : (1 : UInt32).toNat = 1 := rfl
  rw [UInt32.toNat_add] at hne
  rw [UInt32.lt_iff_toNat_lt, UInt32.toNat_add]
  omega

/-- A change of one version that keeps the numbers. -/
theorem map_updateVersion {n : UInt32} (hf : ∀ v, (f v).versionId = v.versionId)
    (vs : List VersionState) :
    (updateVersion n f vs).map VersionState.versionId = vs.map VersionState.versionId := by
  induction vs with
  | nil => rfl
  | cons v vs ih =>
    rw [updateVersion]
    split
    · rw [List.map_cons, hf, List.map_cons]
    · rw [List.map_cons, ih, List.map_cons]

/-- The version that is found after a change of one version. -/
theorem find?_updateVersion {version : UInt32} (hf : ∀ v, (f v).versionId = v.versionId)
    (number : UInt32) (vs : List VersionState) :
    (updateVersion version f vs).find? (fun v => v.versionId = number) =
      (vs.find? fun v => v.versionId = number).map (if number = version then f else id) := by
  induction vs with
  | nil => rfl
  | cons v vs ih =>
    rw [updateVersion]
    by_cases hv : v.versionId = version
    · rw [if_pos hv, List.find?_cons, List.find?_cons, hf, hv]
      by_cases hnumber : version = number
      · simp [hnumber]
      · simp [hnumber, Ne.symm hnumber]
    · rw [if_neg hv, List.find?_cons, List.find?_cons, ih]
      by_cases hnumber : v.versionId = number
      · have hne : number ≠ version := fun heq => hv (hnumber.trans heq)
        simp [hnumber, hne]
      · simp [hnumber]

theorem findVersion_updated {version : UInt32} (hf : ∀ v, (f v).versionId = v.versionId)
    (n : UInt32) (m : KeyMetadata) :
    findVersion n (m.updated version f) = (findVersion n m).map (if n = version then f else id) :=
  find?_updateVersion hf n m.versions

theorem findVersion_locate {version target : UInt32} {m : KeyMetadata} {v : VersionState}
    (h : locate version m = (target, some v)) : findVersion target m = some v := by
  obtain ⟨htarget, hfound⟩ := Prod.mk.inj h
  rwa [htarget] at hfound

theorem findVersion_eq_some {version : UInt32} {m : KeyMetadata} :
    (∃ v, findVersion version m = some v) ↔ version ∈ m.versions.map VersionState.versionId := by
  rw [← Option.isSome_iff_exists, findVersion, List.find?_isSome]
  simp

/-! ## Requests run their scripts -/

section Run

variable (rkyv : Rkyv B)

theorem readRawOptimistic_bind {R α : Type} (key : String) (f : B → R)
    (g : Option R → EngineM B α) :
    readRawOptimistic key f >>= g =
      readRawOptimistic key id >>= fun found => g (found.map f) := by
  refine Prog.call_congr fun found => ?_
  cases found with
  | some payload => rfl
  | none =>
    refine Prog.call_congr fun disk => ?_
    rcases disk with e | (_ | disk) <;> rfl

theorem storeMetadata_bind (path : String) (metadata : KeyMetadata) (next : Script B) :
    (storeMetadata rkyv path metadata >>= fun _ => next.run) =
      (storeMetadataScript rkyv path metadata next).run := by
  unfold storeMetadata storeMetadataScript serializeMetadata
  cases rkyv.metadataToBytes metadata with
  | error e => rfl
  | ok bytes =>
    exact Prog.bind_assoc (enqueueOrExecute (.put (buildMetaKey path) bytes))
      (fun _ => cacheInsert (buildMetaKey path) bytes) fun _ => next.run

variable {f : KeyMetadata → EngineM B Out} {k : KeyMetadata → Script B}

theorem readMetadata_bind (path : String) (h : ∀ metadata, f metadata = (k metadata).run) :
    readMetadata rkyv path >>= f = (readMetadataScript rkyv path k).run := by
  unfold readMetadata
  rw [Prog.bind_assoc, readRawOptimistic_bind]
  refine Prog.bind_congr _ fun found => ?_
  cases found with
  | none => rfl
  | some bytes => exact h _

/-- A path without metadata starts from the default record. -/
theorem readMetadataOrDefault_bind (path : String)
    (h : ∀ metadata, f metadata = (k metadata).run) :
    readMetadataOrDefault rkyv path >>= f = Script.run (.read (buildMetaKey path) fun found =>
      k ((found.map (deserializeMetadata rkyv)).getD .default)) := by
  refine Prog.call_congr fun found => ?_
  cases found with
  | some payload => exact h _
  | none =>
    refine Prog.call_congr fun disk => ?_
    rcases disk with e | (_ | disk)
    · rfl
    · exact h _
    · exact Prog.call_congr fun _ => h _

theorem appendVersion_bind (path : String) (payload : SecretPayload) (metadata : KeyMetadata) :
    (appendVersion rkyv path payload metadata >>= fun _ => .done (.ok .unit)) =
      (appendVersionScript rkyv path payload metadata).run := by
  refine Prog.call_congr fun created => ?_
  unfold serializePayload
  cases rkyv.payloadToBytes payload with
  | error e => rfl
  | ok bytes =>
    change ((enqueueOrExecute (.put (buildVersionKey path (metadata.currentVersion + 1)) bytes) >>=
        fun _ => cacheInsert (buildVersionKey path (metadata.currentVersion + 1)) bytes >>=
          fun _ => storeMetadata rkyv path (metadata.grown created) >>=
            fun _ => insertPathIfAbsent path) >>= fun _ => Prog.done (.ok Out.unit)) = _
    rw [Prog.bind_assoc]
    refine Prog.bind_congr _ fun _ => Prog.call_congr fun _ => ?_
    rw [← storeMetadata_bind]
    exact Prog.bind_assoc (storeMetadata rkyv path (metadata.grown created))
      (fun _ => insertPathIfAbsent path) fun _ => Prog.done (.ok Out.unit)

theorem checkCas_bind (cas : Option UInt32) (metadata : KeyMetadata) {prog : EngineM B Out}
    {next : Script B} (h : prog = next.run) :
    (checkCas cas metadata >>= fun _ => prog) = (checkCasScript cas metadata next).run := by
  unfold checkCas checkCasScript
  cases cas with
  | none => exact h
  | some expected =>
    dsimp only
    split
    · rfl
    · exact h

theorem readVersion_bind (path : String) (version : UInt32) :
    (readVersion rkyv path version >>= fun x => .done (.ok (.version x.1 x.2))) =
      (readVersionScript rkyv path version).run := by
  unfold readVersion
  rw [Prog.bind_assoc, readRawOptimistic_bind]
  refine Prog.bind_congr _ fun found => ?_
  cases found with
  | none => rfl
  | some bytes =>
    dsimp only [Option.map]
    rcases locate version (rkyv.archivedMetadata bytes) with ⟨target, _ | v⟩
    · rfl
    · dsimp only
      split
      · rfl
      · split
        · rfl
        · split
          · rfl
          · rw [Prog.bind_assoc, readRawOptimistic_bind]
            refine Prog.bind_congr _ fun payload => ?_
            cases payload <;> rfl

theorem body_eq_run (c : Call) : body rkyv c = (script rkyv c).run := by
  cases c with
  | readMetadata path =>
    exact readMetadata_bind rkyv path (k := fun metadata => .finish (.ok (.metadata metadata)))
      fun _ => rfl
  | readVersion path version => exact readVersion_bind rkyv path version
  | putVersion path payload cas =>
    refine (Prog.bind_assoc (readMetadataOrDefault rkyv path) _ _).trans ?_
    refine readMetadataOrDefault_bind rkyv path (k := fun metadata =>
      checkCasScript cas metadata (appendVersionScript rkyv path payload metadata)) ?_
    intro metadata
    refine (Prog.bind_assoc (checkCas cas metadata) _ _).trans ?_
    exact checkCas_bind cas metadata (appendVersion_bind rkyv path payload metadata)
  | softDelete path version =>
    refine (Prog.bind_assoc (readMetadata rkyv path) _ _).trans ?_
    unfold script softDeleteScript
    refine readMetadata_bind rkyv path ?_
    intro metadata
    cases findVersion version metadata with
    | none => rfl
    | some v =>
      exact Prog.call_congr fun now => storeMetadata_bind rkyv path
        (metadata.updated version fun v => { v with deletionTimeMs := now })
        (.finish (.ok .unit))
  | undelete path version =>
    refine (Prog.bind_assoc (readMetadata rkyv path) _ _).trans ?_
    unfold script undeleteScript
    refine readMetadata_bind rkyv path ?_
    intro metadata
    cases findVersion version metadata with
    | none => rfl
    | some v =>
      dsimp only
      split
      · rfl
      · exact storeMetadata_bind rkyv path _ (.finish (.ok .unit))
  | destroyVersion path version =>
    refine (Prog.bind_assoc (readMetadata rkyv path) _ _).trans ?_
    unfold script destroyVersionScript
    refine readMetadata_bind rkyv path ?_
    intro metadata
    cases findVersion version metadata with
    | none => rfl
    | some v =>
      refine (Prog.bind_assoc (enqueueOrExecute _) _ _).trans (Prog.bind_congr _ fun _ => ?_)
      exact Prog.call_congr fun _ => storeMetadata_bind rkyv path
        (metadata.updated version fun v => { v with destroyed := true }) (.finish (.ok .unit))

end Run

end Kallisto.Engine
