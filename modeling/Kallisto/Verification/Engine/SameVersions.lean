import Kallisto.Verification.Engine.Outcomes

/-! # Books with the same versions

A request ends alike on books that differ only in payloads of versions that no metadata
lists. -/

namespace Kallisto.Engine

variable {B : Type} {op : AsyncOp B} {n : UInt32}

/-! ## Books with the same versions -/

/-- The numbers of the versions that a path lists. -/
def Books.numbers (rkyv : Rkyv B) (books : Books B) (path : String) : List UInt32 :=
  ((books.metadata path).map fun b =>
    (rkyv.archivedMetadata b).versions.map VersionState.versionId).getD []

/-- The metadata and the index are the same, and so are the payloads of listed versions. -/
structure Same (rkyv : Rkyv B) (books books' : Books B) : Prop where
  metadata : books'.metadata = books.metadata
  paths : books'.paths = books.paths
  payload : ∀ path, ∀ n ∈ books.numbers rkyv path,
    books'.records (buildVersionKey path n) = books.records (buildVersionKey path n)

section Same

variable {rkyv : Rkyv B} {books books' books'' : Books B} {path : String}

theorem numbers_congr (h : books'.metadata path = books.metadata path) :
    books'.numbers rkyv path = books.numbers rkyv path := by
  unfold Books.numbers
  rw [h]

theorem numbers_of_some {b : B} (h : books.metadata path = some b) :
    books.numbers rkyv path = (rkyv.archivedMetadata b).versions.map VersionState.versionId := by
  rw [Books.numbers, h]
  rfl

theorem Same.refl (books : Books B) : Same rkyv books books :=
  ⟨rfl, rfl, fun _ _ _ => rfl⟩

theorem Same.symm (h : Same rkyv books books') : Same rkyv books' books where
  metadata := h.metadata.symm
  paths := h.paths.symm
  payload path n hn := by
    rw [numbers_congr (congrFun h.metadata path)] at hn
    exact (h.payload path n hn).symm

theorem Same.trans (h : Same rkyv books books') (h' : Same rkyv books' books'') :
    Same rkyv books books'' where
  metadata := h'.metadata.trans h.metadata
  paths := h'.paths.trans h.paths
  payload path n hn := by
    rw [← h.payload path n hn]
    rw [← numbers_congr (congrFun h.metadata path)] at hn
    exact h'.payload path n hn

theorem Same.register (h : Same rkyv books books') (path : String) :
    Same rkyv (books.register path) (books'.register path) where
  metadata := h.metadata
  paths := by
    unfold Books.register
    rw [h.paths]
  payload := h.payload

/-- The same write of a payload. -/
theorem Same.writePayload (h : Same rkyv books books') (hop : op.key = buildVersionKey path n) :
    Same rkyv (books.write op) (books'.write op) where
  metadata := by
    rw [metadata_write_versionKey books hop, metadata_write_versionKey books' hop, h.metadata]
  paths := h.paths
  payload path' n' hn' := by
    change op.apply books'.records _ = op.apply books.records _
    by_cases hkey : buildVersionKey path' n' = op.key
    · rw [hkey, AsyncOp.apply_key, AsyncOp.apply_key]
    · rw [AsyncOp.apply_of_ne _ hkey, AsyncOp.apply_of_ne _ hkey]
      rw [numbers_congr (congrFun (metadata_write_versionKey books hop) path')] at hn'
      exact h.payload path' n' hn'

/-- The same metadata, whose versions have the same payloads. -/
theorem Same.writeMetadata (h : Same rkyv books books') {b : B}
    (hb : ∀ n ∈ (rkyv.archivedMetadata b).versions.map VersionState.versionId,
      books'.records (buildVersionKey path n) = books.records (buildVersionKey path n)) :
    Same rkyv (books.write (.put (buildMetaKey path) b))
      (books'.write (.put (buildMetaKey path) b)) where
  metadata := by rw [metadata_write_metaKey, metadata_write_metaKey, h.metadata]
  paths := h.paths
  payload path' n hn := by
    refine (put_metaKey_versionKey books'.records path path' n b).trans (Eq.trans ?_
      (put_metaKey_versionKey books.records path path' n b).symm)
    by_cases heq : path' = path
    · subst heq
      rw [numbers_of_some (congrFun (metadata_write_metaKey books path' b) path' |>.trans
        (Function.update_self _ _ _))] at hn
      exact hb n hn
    · rw [numbers_congr (congrFun (metadata_write_metaKey books path b) path' |>.trans
        (Function.update_of_ne heq _ _))] at hn
      exact h.payload path' n hn

/-- A payload under a number that is not listed makes no difference. -/
theorem same_writeUnlisted (hop : op.key = buildVersionKey path n)
    (hn : n ∉ books.numbers rkyv path) : Same rkyv books (books.write op) where
  metadata := metadata_write_versionKey books hop
  paths := rfl
  payload path' n' hn' := by
    refine AsyncOp.apply_of_ne _ fun hkey => ?_
    obtain ⟨rfl, rfl⟩ := buildVersionKey_inj.mp (hkey.trans hop)
    exact hn hn'

end Same

/-! ## What a request does -/

/-- The metadata that the record holds continues that of a path. -/
structure Continues (rkyv : Rkyv B) (books : Books B) (path : String) (b : B)
    (added : List UInt32) : Prop where
  current : (rkyv.archivedMetadata b).currentVersion =
    added.getLastD (books.current rkyv path)
  listed : (rkyv.archivedMetadata b).versions.map VersionState.versionId =
    books.numbers rkyv path ++ added

/-- How a request can end that finds the books, and what it does to books with the same
versions. -/
inductive Does (rkyv : Rkyv B) (books : Books B) :
    Call → Except EngineError Out → (Books B → Books B) → Prop where
  | nothing {c : Call} {r : Except EngineError Out} (hput : c.isPut = true → ∃ e, r = .error e) :
      Does rkyv books c r id
  | orphan {path : String} {x : SecretPayload} {cas : Option UInt32} (payload : B)
      (e : EngineError) :
      Does rkyv books (.putVersion path x cas) (.error e)
        (·.write (.put (buildVersionKey path (books.current rkyv path + 1)) payload))
  | put {path : String} {x : SecretPayload} {cas : Option UInt32} (payload : B) {b : B}
      (hb : Continues rkyv books path b [books.current rkyv path + 1]) :
      Does rkyv books (.putVersion path x cas) (.ok .unit) fun books' =>
        ((books'.write (.put (buildVersionKey path (books.current rkyv path + 1)) payload)).write
          (.put (buildMetaKey path) b)).register path
  | edit {c : Call} {path : String} {b : B} (hput : c.isPut = false)
      (hb : Continues rkyv books path b []) :
      Does rkyv books c (.ok .unit) (·.write (.put (buildMetaKey path) b))
  | lost {path : String} {version : UInt32} (e : EngineError) :
      Does rkyv books (.destroyVersion path version) (.error e)
        (·.write (.delete (buildVersionKey path version)))
  | destroyed {path : String} {version : UInt32} {b : B} (hb : Continues rkyv books path b []) :
      Does rkyv books (.destroyVersion path version) (.ok .unit) fun books' =>
        (books'.write (.delete (buildVersionKey path version))).write (.put (buildMetaKey path) b)

/-- The script ends in such a way on all books with the same versions. -/
def Script.Acts (rkyv : Rkyv B) (books : Books B) (c : Call) (sc : Script B) (given : List Given) :
    Prop :=
  ∃ r act, Does rkyv books c r act ∧
    ∀ books', Same rkyv books books' → sc.eval 0 books' given = (r, act books')

section Acts

variable {rkyv : Rkyv B} {books : Books B} {c : Call} {path : String} {m : KeyMetadata}
  {given : List Given} {f : VersionState → VersionState}

theorem acts_finish {r : Except EngineError Out} (hput : c.isPut = true → ∃ e, r = .error e) :
    (Script.finish r).Acts rkyv books c given :=
  ⟨r, id, .nothing hput, fun _ _ => rfl⟩

theorem acts_error {e : EngineError} : (Script.finish (.error e)).Acts rkyv books c given :=
  acts_finish fun _ => ⟨e, rfl⟩

theorem acts_clock {k : UInt64 → Script B}
    (h : (k (nextTime 0 given)).Acts rkyv books c given.tail) :
    (Script.clock k).Acts rkyv books c given :=
  h

theorem acts_readMetadataScript {k : KeyMetadata → Script B}
    (h : ∀ b, books.metadata path = some b →
      (k (deserializeMetadata rkyv b)).Acts rkyv books c given) :
    (readMetadataScript rkyv path k).Acts rkyv books c given := by
  cases hfound : books.metadata path with
  | none =>
    refine ⟨.error .notFound, id, .nothing fun _ => ⟨_, rfl⟩, fun books' hsame => ?_⟩
    have hfound' : books'.records (buildMetaKey path) = none :=
      (congrFun hsame.metadata path).trans hfound
    rw [readMetadataScript, Script.eval, hfound']
    rfl
  | some b =>
    obtain ⟨r, act, hdoes, heval⟩ := h b hfound
    refine ⟨r, act, hdoes, fun books' hsame => ?_⟩
    have hfound' : books'.records (buildMetaKey path) = some b :=
      (congrFun hsame.metadata path).trans hfound
    rw [readMetadataScript, Script.eval, hfound']
    exact heval books' hsame

/-- The metadata is stored or refused, on all books alike. -/
theorem eval_stored (hrkyv : rkyv.Faithful) (path : String) (m : KeyMetadata) (next : Script B)
    (given : List Given) :
    (∃ e, ∀ books : Books B,
        (storeMetadataScript rkyv path m next).eval 0 books given = (.error e, books)) ∨
      ∃ b, rkyv.archivedMetadata b = m ∧ ∀ books,
        (storeMetadataScript rkyv path m next).eval 0 books given =
          next.eval 0 (books.write (.put (buildMetaKey path) b)) given.tail := by
  obtain ⟨b, hb, harchived⟩ := hrkyv.metadata m
  rw [storeMetadataScript, hb]
  cases houtcome : nextOutcome given with
  | some e =>
    refine Or.inl ⟨(AsyncOp.put (buildMetaKey path) b).failure e, fun books => ?_⟩
    dsimp only
    rw [Script.eval, houtcome]
  | none =>
    refine Or.inr ⟨b, harchived, fun books => ?_⟩
    dsimp only
    rw [Script.eval, houtcome]

/-- A version of known metadata is changed. -/
theorem continues_updated {before b : B} (hbefore : books.metadata path = some before)
    {version : UInt32} (hf : ∀ v, (f v).versionId = v.versionId)
    (hb : rkyv.archivedMetadata b = (deserializeMetadata rkyv before).updated version f) :
    Continues rkyv books path b [] where
  current := by
    rw [hb, Books.current, hbefore]
    rfl
  listed := by
    rw [hb, numbers_of_some hbefore, List.append_nil]
    exact map_updateVersion hf _

theorem acts_updated (hrkyv : rkyv.Faithful) (hput : c.isPut = false) {before : B}
    (hbefore : books.metadata path = some before) {version : UInt32}
    (hf : ∀ v, (f v).versionId = v.versionId) :
    (storeMetadataScript rkyv path ((deserializeMetadata rkyv before).updated version f)
      (.finish (.ok .unit))).Acts rkyv books c given := by
  rcases eval_stored hrkyv path ((deserializeMetadata rkyv before).updated version f)
    (.finish (.ok .unit)) given with ⟨e, heval⟩ | ⟨b, hb, heval⟩
  · exact ⟨.error e, id, .nothing fun _ => ⟨e, rfl⟩, fun books' _ => heval books'⟩
  · exact ⟨.ok .unit, _, .edit hput (continues_updated hbefore hf hb),
      fun books' _ => heval books'⟩

theorem acts_appendVersionScript (hrkyv : rkyv.Faithful) {x : SecretPayload} {cas : Option UInt32}
    (hcurrent : m.currentVersion = books.current rkyv path)
    (hlisted : m.versions.map VersionState.versionId = books.numbers rkyv path) :
    (appendVersionScript rkyv path x m).Acts rkyv books (.putVersion path x cas) given := by
  obtain ⟨payload, hpayload, -⟩ := hrkyv.payload x
  have hunfold : ∀ books' : Books B, (appendVersionScript rkyv path x m).eval 0 books' given =
      (Script.write (.put (buildVersionKey path (books.current rkyv path + 1)) payload)
        (storeMetadataScript rkyv path (m.grown (nextTime 0 given))
          (.register path (.finish (.ok .unit))))).eval 0 books' given.tail := by
    intro books'
    rw [appendVersionScript, Script.eval, hpayload, hcurrent]
  cases houtcome : nextOutcome given.tail with
  | some e =>
    refine ⟨.error ((AsyncOp.put (buildVersionKey path (books.current rkyv path + 1))
      payload).failure e), id, .nothing fun _ => ⟨_, rfl⟩, fun books' _ => ?_⟩
    rw [hunfold, Script.eval, houtcome]
    rfl
  | none =>
    rcases eval_stored hrkyv path (m.grown (nextTime 0 given))
      (.register path (.finish (.ok .unit))) given.tail.tail with ⟨e, heval⟩ | ⟨b, hb, heval⟩
    · refine ⟨.error e, _, .orphan payload e, fun books' _ => ?_⟩
      rw [hunfold, Script.eval, houtcome]
      exact heval _
    · refine ⟨.ok .unit, _, .put payload (b := b) ⟨?_, ?_⟩, fun books' _ => ?_⟩
      · rw [hb, ← hcurrent]
        rfl
      · rw [hb, ← hcurrent, ← hlisted]
        exact List.map_append
      · rw [hunfold, Script.eval, houtcome]
        exact heval _

theorem acts_putVersionScript (hrkyv : rkyv.Faithful) (x : SecretPayload) (cas : Option UInt32) :
    (putVersionScript rkyv path x cas).Acts rkyv books (.putVersion path x cas) given := by
  have hrest : (checkCasScript cas (((books.metadata path).map (deserializeMetadata rkyv)).getD
      .default) (appendVersionScript rkyv path x (((books.metadata path).map
        (deserializeMetadata rkyv)).getD .default))).Acts rkyv books (.putVersion path x cas)
          given := by
    have happend : (appendVersionScript rkyv path x (((books.metadata path).map
        (deserializeMetadata rkyv)).getD .default)).Acts rkyv books (.putVersion path x cas)
          given := by
      refine acts_appendVersionScript hrkyv ?_ ?_
      · unfold Books.current
        cases books.metadata path <;> rfl
      · unfold Books.numbers
        cases books.metadata path <;> rfl
    unfold checkCasScript
    split
    · split
      · exact acts_error
      · exact happend
    · exact happend
  obtain ⟨r, act, hdoes, heval⟩ := hrest
  refine ⟨r, act, hdoes, fun books' hsame => ?_⟩
  have hfound : books'.records (buildMetaKey path) = books.metadata path :=
    congrFun hsame.metadata path
  rw [putVersionScript, Script.eval, hfound]
  exact heval books' hsame

theorem acts_destroyVersionScript (hrkyv : rkyv.Faithful) (version : UInt32) :
    (destroyVersionScript rkyv path version).Acts rkyv books (.destroyVersion path version)
      given := by
  refine acts_readMetadataScript fun before hbefore => ?_
  split
  · exact acts_error
  · cases houtcome : nextOutcome given with
    | some e =>
      refine ⟨.error ((AsyncOp.delete (buildVersionKey path version) : AsyncOp B).failure e), id,
        .nothing nofun, fun books' _ => ?_⟩
      rw [Script.eval, houtcome]
      rfl
    | none =>
      rcases eval_stored hrkyv path ((deserializeMetadata rkyv before).updated version fun v =>
        { v with destroyed := true }) (.finish (.ok .unit)) given.tail with
        ⟨e, heval⟩ | ⟨b, hb, heval⟩
      · refine ⟨.error e, _, .lost e, fun books' _ => ?_⟩
        rw [Script.eval, houtcome]
        exact heval _
      · have hcontinues := continues_updated hbefore
          (f := fun v => { v with destroyed := true }) (fun _ => rfl) hb
        refine ⟨.ok .unit, _, .destroyed hcontinues, fun books' _ => ?_⟩
        rw [Script.eval, houtcome]
        exact heval _

theorem acts_readVersionScript (version : UInt32) :
    (readVersionScript rkyv path version).Acts rkyv books (.readVersion path version) given := by
  refine ⟨((readVersionScript rkyv path version).eval 0 books given).1, id, .nothing nofun,
    fun books' hsame => ?_⟩
  have hfound : books'.records (buildMetaKey path) = books.records (buildMetaKey path) :=
    congrFun hsame.metadata path
  rw [readVersionScript, Script.eval, Script.eval, hfound]
  cases hmetadata : books.records (buildMetaKey path) with
  | none => rfl
  | some b =>
    dsimp only
    rcases hlocate : locate version (rkyv.archivedMetadata b) with ⟨target, _ | v⟩
    · rfl
    · dsimp only
      split
      · rfl
      · split
        · rfl
        · split
          · rfl
          · have hlisted : target ∈ books.numbers rkyv path := by
              rw [numbers_of_some hmetadata]
              exact findVersion_eq_some.mp ⟨v, findVersion_locate hlocate⟩
            rw [Script.eval, Script.eval, hsame.payload path target hlisted]
            cases books.records (buildVersionKey path target) <;> rfl

end Acts

/-- Every request ends in such a way. -/
theorem script_acts {rkyv : Rkyv B} (hrkyv : rkyv.Faithful) (books : Books B) (c : Call)
    (given : List Given) : (script rkyv c).Acts rkyv books c given := by
  cases c with
  | readMetadata path =>
    unfold script
    exact acts_readMetadataScript fun b _ => acts_finish (by exact nofun)
  | readVersion path version => exact acts_readVersionScript version
  | putVersion path x cas => exact acts_putVersionScript hrkyv x cas
  | softDelete path version =>
    unfold script softDeleteScript
    refine acts_readMetadataScript fun before hbefore => ?_
    split
    · exact acts_error
    · exact acts_clock (acts_updated hrkyv rfl hbefore fun _ => rfl)
  | undelete path version =>
    unfold script undeleteScript
    refine acts_readMetadataScript fun before hbefore => ?_
    split
    · exact acts_error
    · split
      · exact acts_error
      · exact acts_updated hrkyv rfl hbefore fun _ => rfl
  | destroyVersion path version => exact acts_destroyVersionScript hrkyv version

/-! ## Steps of two runs -/

/-- The calls that leave nothing when they fail. -/
def Call.revocable : Call → Bool
  | .putVersion _ _ _ => true
  | .softDelete _ _ => true
  | .undelete _ _ => true
  | _ => false

/-- A put of the path is acknowledged. -/
def putAnswered (path : String) : Call → Except EngineError Out → Bool
  | .putVersion path' _ _, .ok _ => path' = path
  | _, _ => false

/-- The versions of a path are numbered from one to the number of its acknowledged puts, as
far as 32 bits go. -/
structure Numbered (rkyv : Rkyv B) (path : String) (k : ℕ) (books : Books B) : Prop where
  current : books.current rkyv path = UInt32.ofNat k
  listed : ∀ n ∈ books.numbers rkyv path, ∃ i, 1 ≤ i ∧ i ≤ k ∧ n = UInt32.ofNat i

section Steps

variable {rkyv : Rkyv B} {books books' : Books B} {c : Call} {r : Except EngineError Out}
  {act : Books B → Books B} {path : String} {k : ℕ} {b : B} {added : List UInt32}

/-- The same request keeps books with the same versions so. -/
theorem Does.same (h : Does rkyv books c r act) (hsame : Same rkyv books books') :
    Same rkyv (act books) (act books') := by
  cases h with
  | nothing => exact hsame
  | orphan payload e => exact hsame.writePayload rfl
  | @put path x cas payload b hb =>
    have hwritten : Same rkyv
        (books.write (.put (buildVersionKey path (books.current rkyv path + 1)) payload))
        (books'.write (.put (buildVersionKey path (books.current rkyv path + 1)) payload)) :=
      hsame.writePayload rfl
    refine Same.register (hwritten.writeMetadata fun n hn => ?_) path
    rw [hb.listed] at hn
    rcases List.mem_append.mp hn with hold | hnew
    · refine hwritten.payload path n ?_
      rwa [numbers_congr (congrFun (metadata_write_versionKey books rfl) path)]
    · rw [List.mem_singleton.mp hnew]
      exact (AsyncOp.apply_key books'.records (.put _ payload)).trans
        (AsyncOp.apply_key books.records (.put _ payload)).symm
  | edit hput hb =>
    refine hsame.writeMetadata fun n hn => hsame.payload _ n ?_
    rwa [hb.listed, List.append_nil] at hn
  | lost e => exact hsame.writePayload rfl
  | @destroyed path version b hb =>
    have hwritten : Same rkyv (books.write (.delete (buildVersionKey path version)))
        (books'.write (.delete (buildVersionKey path version))) := hsame.writePayload rfl
    refine hwritten.writeMetadata fun n hn => hwritten.payload path n ?_
    rw [hb.listed, List.append_nil] at hn
    rwa [numbers_congr (congrFun (metadata_write_versionKey books rfl) path)]

/-- A revocable call that fails leaves books with the same versions, when the number of the
next version is not listed. -/
theorem Does.failed {e : EngineError} (h : Does rkyv books c (.error e) act)
    (hc : c.revocable = true)
    (hfresh : ∀ path, books.current rkyv path + 1 ∉ books.numbers rkyv path) :
    Same rkyv books (act books) := by
  cases h with
  | nothing => exact .refl books
  | orphan payload => exact same_writeUnlisted rfl (hfresh _)
  | lost => cases hc

theorem Numbered.fresh (h : Numbered rkyv path k books) (hk : k < 2 ^ 32) :
    books.current rkyv path + 1 ∉ books.numbers rkyv path := by
  intro hlisted
  obtain ⟨i, hi, hik, heq⟩ := h.listed _ hlisted
  rw [h.current] at heq
  have hnumber := congrArg UInt32.toNat heq
  simp only [UInt32.toNat_add, UInt32.toNat_ofNat', UInt32.toNat_one] at hnumber
  omega

theorem Numbered.congr (h : Numbered rkyv path k books)
    (hsame : books'.metadata path = books.metadata path) : Numbered rkyv path k books' where
  current := by
    rw [Books.current, hsame]
    exact h.current
  listed := by
    rw [numbers_congr hsame]
    exact h.listed

/-- The metadata of the path is replaced. -/
theorem Numbered.replace (h : Numbered rkyv path k books) (hb' : books'.metadata path = some b)
    (hb : Continues rkyv books path b added)
    (hadded : added = [] ∨ added = [books.current rkyv path + 1]) :
    Numbered rkyv path (k + added.length) books' := by
  have hcurrent : books'.current rkyv path = (rkyv.archivedMetadata b).currentVersion := by
    rw [Books.current, hb']
    rfl
  have hnext : books.current rkyv path + 1 = UInt32.ofNat (k + 1) := by
    rw [h.current, UInt32.ofNat_add]
    rfl
  constructor
  · rw [hcurrent, hb.current]
    rcases hadded with rfl | rfl
    · exact h.current
    · exact hnext
  · rw [numbers_of_some hb', hb.listed]
    intro n hn
    rcases List.mem_append.mp hn with hold | hnew
    · obtain ⟨i, hi, hik, heq⟩ := h.listed n hold
      exact ⟨i, hi, hik.trans (Nat.le_add_right k _), heq⟩
    · rcases hadded with rfl | rfl
      · cases hnew
      · rw [List.mem_singleton.mp hnew]
        exact ⟨k + 1, Nat.le_add_left 1 k, le_refl _, hnext⟩

/-- Of the metadata after a request, that of one path is new. -/
theorem Numbered.write (h : Numbered rkyv path k books) {path' : String}
    (hmetadata : books'.metadata = Function.update books.metadata path' (some b))
    (hb : Continues rkyv books path' b added)
    (hadded : added = [] ∨ added = [books.current rkyv path' + 1]) :
    Numbered rkyv path (k + if path' = path then added.length else 0) books' := by
  by_cases heq : path' = path
  · subst heq
    rw [if_pos rfl]
    exact h.replace (hmetadata ▸ Function.update_self _ _ _) hb hadded
  · rw [if_neg heq]
    exact h.congr (hmetadata ▸ Function.update_of_ne (Ne.symm heq) _ _)

/-- A write of metadata after one of a payload. -/
theorem metadata_write_write (books : Books B) {path path' : String}
    (hop : op.key = buildVersionKey path n) (b : B) :
    ((books.write op).write (.put (buildMetaKey path') b)).metadata =
      Function.update books.metadata path' (some b) := by
  rw [metadata_write_metaKey, metadata_write_versionKey books hop]

/-- The numbers go on with the acknowledged puts. -/
theorem Does.numbered (h : Does rkyv books c r act) (hk : Numbered rkyv path k books) :
    Numbered rkyv path (k + if putAnswered path c r then 1 else 0) (act books) := by
  have hunput : c.isPut = false → putAnswered path c r = false := by
    intro hc
    cases c with
    | putVersion path' x cas => cases hc
    | _ => rfl
  cases h with
  | nothing hput =>
    have hnot : putAnswered path c r = false := by
      cases hc : c.isPut with
      | false => exact hunput hc
      | true =>
        obtain ⟨e, rfl⟩ := hput hc
        cases c <;> rfl
    rw [hnot]
    exact hk
  | orphan payload e => exact hk.congr (congrFun (metadata_write_versionKey books rfl) path)
  | @put path' x cas payload b hb =>
    have hmetadata : (((books.write (.put (buildVersionKey path' (books.current rkyv path' + 1))
        payload)).write (.put (buildMetaKey path') b)).register path').metadata =
          Function.update books.metadata path' (some b) := metadata_write_write books rfl b
    have hnumbered := hk.write hmetadata hb (Or.inr rfl)
    simpa [putAnswered] using hnumbered
  | @edit _ path' b hput hb =>
    rw [hunput hput]
    have hnumbered := hk.write (metadata_write_metaKey books path' b) hb (Or.inl rfl)
    simpa using hnumbered
  | lost e => exact hk.congr (congrFun (metadata_write_versionKey books rfl) path)
  | @destroyed path' version b hb =>
    have hmetadata : ((books.write (.delete (buildVersionKey path' version))).write
        (.put (buildMetaKey path') b)).metadata =
          Function.update books.metadata path' (some b) := metadata_write_write books rfl b
    have hnumbered := hk.write hmetadata hb (Or.inl rfl)
    simpa [putAnswered] using hnumbered

end Steps

end Kallisto.Engine
