import Kallisto.Verification.Engine.Accounts
import Kallisto.Verification.Engine.Refinement

/-! # What requests leave of the metadata and of the index -/

namespace Kallisto.Engine

variable {B : Type}

/-! ## Requests -/

/-- The metadata record of a path. -/
def Books.metadata (books : Books B) (path : String) : Option B :=
  books.records (buildMetaKey path)

/-- The number of the last version of a path. -/
def Books.current (rkyv : Rkyv B) (books : Books B) (path : String) : UInt32 :=
  ((books.metadata path).map fun b => (rkyv.archivedMetadata b).currentVersion).getD 0

def Call.isPut : Call → Bool
  | .putVersion _ _ _ => true
  | _ => false

/-- A request keeps all metadata, adds a version to its path, or changes versions that
its path has. A put that keeps the metadata is not acknowledged. -/
inductive Leaves (rkyv : Rkyv B) (books : Books B) :
    Call → Except EngineError Out → Books B → Prop where
  | keeps {c : Call} {r : Except EngineError Out} {books' : Books B}
      (hmetadata : books'.metadata = books.metadata) (hpaths : books'.paths = books.paths)
      (hput : c.isPut = true → ∃ e, r = .error e) : Leaves rkyv books c r books'
  | put {path : String} {x : SecretPayload} {cas : Option UInt32} {b : B} {books' : Books B}
      (hnumber : (rkyv.archivedMetadata b).currentVersion = books.current rkyv path + 1)
      (hmetadata : books'.metadata = Function.update books.metadata path (some b))
      (hpaths : books'.paths = (books.register path).paths) :
      Leaves rkyv books (.putVersion path x cas) (.ok .unit) books'
  | edit {c : Call} {path : String} {before b : B} {books' : Books B} (hput : c.isPut = false)
      (hbefore : books.metadata path = some before)
      (hnumber : (rkyv.archivedMetadata b).currentVersion =
        (rkyv.archivedMetadata before).currentVersion)
      (hmetadata : books'.metadata = Function.update books.metadata path (some b))
      (hpaths : books'.paths = books.paths) : Leaves rkyv books c (.ok .unit) books'

section Scripts

variable {rkyv : Rkyv B} {books : Books B} {path : String} {m : KeyMetadata} {now : UInt64}
  {faced : List Given}

theorem metadata_write_metaKey (books : Books B) (path : String) (b : B) :
    (books.write (.put (buildMetaKey path) b)).metadata =
      Function.update books.metadata path (some b) := by
  funext path'
  by_cases h : path' = path
  · subst h
    rw [Function.update_self]
    exact put_metaKey_self books.records path' b
  · rw [Function.update_of_ne h]
    exact put_metaKey_of_ne books.records b h

theorem metadata_write_versionKey (books : Books B) {op : AsyncOp B} {n : UInt32}
    (h : op.key = buildVersionKey path n) : (books.write op).metadata = books.metadata :=
  funext fun path' => apply_versionKey_metaKey books.records h path'

/-- Metadata is stored, or the request ends with an error. -/
theorem eval_storeMetadataScript (hrkyv : rkyv.Faithful) (next : Script B) :
    (∃ e, (storeMetadataScript rkyv path m next).eval now books faced = (.error e, books)) ∨
      ∃ b, rkyv.archivedMetadata b = m ∧ (storeMetadataScript rkyv path m next).eval now books faced =
        next.eval now (books.write (.put (buildMetaKey path) b)) faced.tail := by
  obtain ⟨b, hb, harchived⟩ := hrkyv.metadata m
  rw [storeMetadataScript, hb]
  dsimp only
  rw [Script.eval]
  cases nextOutcome faced with
  | some e => exact Or.inl ⟨_, rfl⟩
  | none => exact Or.inr ⟨b, harchived, rfl⟩

theorem leaves_error {c : Call} {e : EngineError} : Leaves rkyv books c (.error e) books :=
  .keeps rfl rfl fun _ => ⟨e, rfl⟩

/-- A request that changes versions ends by storing the metadata. -/
theorem leaves_storeMetadataScript (hrkyv : rkyv.Faithful) {c : Call} (hput : c.isPut = false)
    {before : B} {books' : Books B} (hbefore : books.metadata path = some before)
    (hnumber : m.currentVersion = (rkyv.archivedMetadata before).currentVersion)
    (hmetadata : books'.metadata = books.metadata) (hpaths : books'.paths = books.paths) :
    Leaves rkyv books c
      ((storeMetadataScript rkyv path m (.finish (.ok .unit))).eval now books' faced).1
      ((storeMetadataScript rkyv path m (.finish (.ok .unit))).eval now books' faced).2 := by
  rcases eval_storeMetadataScript hrkyv (.finish (.ok .unit)) with ⟨e, heval⟩ | ⟨b, hb, heval⟩
  · rw [heval]
    exact .keeps hmetadata hpaths fun _ => ⟨e, rfl⟩
  · rw [heval]
    refine .edit hput hbefore (hb ▸ hnumber) ?_ hpaths
    exact (metadata_write_metaKey books' path b).trans (by rw [hmetadata])

/-- Reading the metadata of a path that must be known. -/
theorem leaves_readMetadataScript {c : Call} {k : KeyMetadata → Script B}
    (h : ∀ before, books.metadata path = some before →
      Leaves rkyv books c ((k (deserializeMetadata rkyv before)).eval now books faced).1
        ((k (deserializeMetadata rkyv before)).eval now books faced).2) :
    Leaves rkyv books c ((readMetadataScript rkyv path k).eval now books faced).1
      ((readMetadataScript rkyv path k).eval now books faced).2 := by
  rw [readMetadataScript, Script.eval]
  cases hbefore : books.records (buildMetaKey path) with
  | none => exact leaves_error
  | some before => exact h before hbefore

theorem leaves_readVersion (version : UInt32) :
    Leaves rkyv books (.readVersion path version)
      ((readVersionScript rkyv path version).eval now books faced).1
      ((readVersionScript rkyv path version).eval now books faced).2 := by
  rw [readVersionScript, Script.eval]
  split
  · exact leaves_error
  · split
    · exact leaves_error
    · split
      · exact leaves_error
      · split
        · exact leaves_error
        · split
          · exact leaves_error
          · rw [Script.eval]
            split
            · exact .keeps rfl rfl nofun
            · exact leaves_error

theorem leaves_putVersion (hrkyv : rkyv.Faithful) (x : SecretPayload) (cas : Option UInt32) :
    Leaves rkyv books (.putVersion path x cas)
      ((putVersionScript rkyv path x cas).eval now books faced).1
      ((putVersionScript rkyv path x cas).eval now books faced).2 := by
  rw [putVersionScript, Script.eval]
  have hcurrent : (((books.records (buildMetaKey path)).map (deserializeMetadata rkyv)).getD
      .default).currentVersion = books.current rkyv path := by
    unfold Books.current Books.metadata
    cases books.records (buildMetaKey path) <;> rfl
  generalize ((books.records (buildMetaKey path)).map (deserializeMetadata rkyv)).getD
    .default = m at hcurrent
  have happend : Leaves rkyv books (.putVersion path x cas)
      ((appendVersionScript rkyv path x m).eval now books faced).1
      ((appendVersionScript rkyv path x m).eval now books faced).2 := by
    rw [appendVersionScript, Script.eval]
    obtain ⟨payload, hpayload, -⟩ := hrkyv.payload x
    rw [hpayload]
    dsimp only
    rw [Script.eval]
    cases nextOutcome faced.tail with
    | some e => exact leaves_error
    | none =>
      dsimp only
      have hsame := metadata_write_versionKey books
        (show (AsyncOp.put (buildVersionKey path (m.currentVersion + 1)) payload).key = _ from rfl)
      rcases eval_storeMetadataScript hrkyv (.register path (.finish (.ok .unit))) with
        ⟨e, heval⟩ | ⟨b, hb, heval⟩
      · rw [heval]
        exact .keeps hsame rfl fun _ => ⟨e, rfl⟩
      · rw [heval]
        refine .put (b := b) ?_ ?_ rfl
        · rw [hb, ← hcurrent]
          rfl
        · exact (metadata_write_metaKey _ path b).trans (by rw [hsame])
  dsimp only
  unfold checkCasScript
  split
  · split
    · exact leaves_error
    · exact happend
  · exact happend

theorem eval_leaves (hrkyv : rkyv.Faithful) (c : Call) (now : UInt64) (books : Books B)
    (faced : List Given) :
    Leaves rkyv books c ((script rkyv c).eval now books faced).1
      ((script rkyv c).eval now books faced).2 := by
  cases c with
  | readMetadata path =>
    unfold script
    exact leaves_readMetadataScript fun before _ => .keeps rfl rfl nofun
  | readVersion path version => exact leaves_readVersion version
  | putVersion path x cas => exact leaves_putVersion hrkyv x cas
  | softDelete path version =>
    unfold script softDeleteScript
    refine leaves_readMetadataScript fun before hbefore => ?_
    split
    · exact leaves_error
    · exact leaves_storeMetadataScript hrkyv rfl hbefore rfl rfl rfl
  | undelete path version =>
    unfold script undeleteScript
    refine leaves_readMetadataScript fun before hbefore => ?_
    split
    · exact leaves_error
    · split
      · exact leaves_error
      · exact leaves_storeMetadataScript hrkyv rfl hbefore rfl rfl rfl
  | destroyVersion path version =>
    unfold script destroyVersionScript
    refine leaves_readMetadataScript fun before hbefore => ?_
    split
    · exact leaves_error
    · rw [Script.eval]
      cases nextOutcome faced with
      | some e => exact leaves_error
      | none =>
        exact leaves_storeMetadataScript hrkyv rfl hbefore rfl
          (metadata_write_versionKey books rfl) rfl

end Scripts

end Kallisto.Engine
