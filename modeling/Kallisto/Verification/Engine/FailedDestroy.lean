import Kallisto.Verification.Engine.Alone
import Kallisto.Verification.Engine.ImmediateWrites

/-! # A destruction that fails

`destroy_version` deletes the payload before it marks the version in the metadata. -/

namespace Kallisto.Engine

open Program Interleaving

variable {B : Type} {c : Call} {f : VersionState → VersionState} {X : String → Prop}

namespace KvEngine

/-! ## Reads that the worker leaves alone -/

/-- Outside the keys `X` a pending write is covered by a cache entry. -/
def Covered (X : String → Prop) (s : KvEngine B) : Prop :=
  ∀ key, ¬ X key → s.cache key = none → ∀ op ∈ s.pending, op.key ≠ key

/-- The engine after steps of the worker, whose flushes may fail. -/
def worked (s : KvEngine B) (steps : List (Bool × Bool)) : KvEngine B :=
  steps.foldl (fun s step => s.workerStep step.1 step.2) s

theorem cache_workerStep (s : KvEngine B) (timeout fails : Bool) :
    (s.workerStep timeout fails).cache = s.cache :=
  rfl

namespace Covered

variable {X X' : String → Prop} {s s' : KvEngine B}

theorem mono (h : s.Covered X) (hX : ∀ key, X key → X' key) : s.Covered X' :=
  fun key hkey => h key fun hx => hkey (hX key hx)

theorem fills (h : s.Covered X) (hfills : s.Fills s') : s'.Covered X := by
  intro key hkey hcache
  have hbefore : s.cache key = none := by
    cases hentry : s.cache key with
    | none => rfl
    | some b => exact (hfills.kept key b hentry).symm.trans hcache
  have hpending : s'.pending = s.pending := by rw [hfills.rest]; rfl
  rw [hpending]
  exact h key hkey hbefore

theorem accept (h : s.Covered X) (op : AsyncOp B)
    (hop : op.value = none → X op.key) : (s.accept op).Covered X := by
  intro key hkey hcache op' hmem
  change Function.update s.cache op.key op.value key = none at hcache
  have hne : key ≠ op.key := by
    rintro rfl
    rw [Function.update_self] at hcache
    exact hkey (hop hcache)
  rw [Function.update_of_ne hne] at hcache
  have hwhere : op' ∈ s.pending ∨ op' = op := by
    unfold pending KvEngine.accept at hmem
    dsimp only at hmem
    split at hmem
    · exact Or.inl hmem
    · rw [← List.append_assoc] at hmem
      exact (List.mem_append.mp hmem).imp_right List.mem_singleton.mp
  rcases hwhere with hold | rfl
  · exact h key hkey hcache op' hold
  · exact hne.symm

/-- A put covers its key. -/
theorem acceptPut (h : s.Covered X) (key : String) (b : B) :
    (s.accept (.put key b)).Covered X :=
  h.accept (.put key b) nofun

theorem workerStep (h : s.Covered X) (timeout fails : Bool) :
    (s.workerStep timeout fails).Covered X := by
  intro key hkey hcache op hop
  rw [cache_workerStep] at hcache
  exact h key hkey hcache op (workerStep_pending hop)

/-- The worker changes no covered record. -/
theorem view_workerStep (h : s.Covered X) {key : String} (hkey : ¬ X key) (timeout fails : Bool) :
    (s.workerStep timeout fails).view key = s.view key := by
  rw [KvEngine.view, KvEngine.view, cache_workerStep]
  cases hcache : s.cache key with
  | some b => rfl
  | none =>
    have hdisk : (s.workerStep timeout fails).rocksdb key = s.rocksdb key := by
      rw [rocksdb_workerStep]
      exact WriteBehind.writeAll_of_forall_ne _ fun op hop =>
        h key hkey hcache op (flushed_pending hop)
    rw [hdisk]

theorem view_worked {key : String} (hkey : ¬ X key) (steps : List (Bool × Bool)) :
    ∀ {s : KvEngine B}, s.Covered X → (s.worked steps).view key = s.view key := by
  induction steps with
  | nil => exact fun _ => rfl
  | cons step steps ih =>
    exact fun h => (ih (h.workerStep step.1 step.2)).trans (h.view_workerStep hkey step.1 step.2)

end Covered

end KvEngine

/-! ## What reads look at -/

/-- The metadata has the version as deleted or destroyed. -/
def Hidden (rkyv : Rkyv B) (records : String → Option B) (path : String) (version : UInt32) :
    Prop :=
  ∃ b v, records (buildMetaKey path) = some b ∧
    findVersion version (rkyv.archivedMetadata b) = some v ∧
      (v.destroyed = true ∨ 0 < v.deletionTimeMs)

/-- No read looks at the payload of a hidden version. -/
theorem readResult_congr {rkyv : Rkyv B} {records records' : String → Option B}
    (hmetadata : ∀ path, records' (buildMetaKey path) = records (buildMetaKey path))
    (hpayload : ∀ path n, ¬ Hidden rkyv records path n →
      records' (buildVersionKey path n) = records (buildVersionKey path n))
    (hread : c.mutates = none) : readResult rkyv records' c = readResult rkyv records c := by
  cases c with
  | readMetadata path => rw [readResult_readMetadata, readResult_readMetadata, hmetadata]
  | readVersion path version =>
    rw [readResult_readVersion, readResult_readVersion, hmetadata]
    cases hfound : records (buildMetaKey path) with
    | none => rfl
    | some b =>
      dsimp only
      rcases hlocate : locate version (rkyv.archivedMetadata b) with ⟨target, _ | v⟩
      · rfl
      · unfold readLocated
        dsimp only
        split
        · rfl
        · split
          · rfl
          · next hdestroyed =>
              split
              · rfl
              · next hdeleted =>
                  have hshown : ¬ Hidden rkyv records path target := by
                    rintro ⟨b', v', hb', hv', hhidden⟩
                    obtain rfl := Option.some.inj (hfound.symm.trans hb')
                    obtain rfl := Option.some.inj ((findVersion_locate hlocate).symm.trans hv')
                    exact hhidden.elim hdestroyed hdeleted
                  rw [hpayload path target hshown]
  | _ => cases hread

/-! ## Destroyed versions -/

/-- The metadata has the version as destroyed. -/
def Destroyed (rkyv : Rkyv B) (records : String → Option B) (path : String) (version : UInt32) :
    Prop :=
  ∃ b v, records (buildMetaKey path) = some b ∧
    findVersion version (rkyv.archivedMetadata b) = some v ∧ v.destroyed = true

/-- The key of the payload of a destroyed version. -/
def Gone (rkyv : Rkyv B) (records : String → Option B) (key : String) : Prop :=
  ∃ path version, key = buildVersionKey path version ∧ Destroyed rkyv records path version

theorem Destroyed.hidden {rkyv : Rkyv B} {records : String → Option B} {path : String}
    {version : UInt32} (h : Destroyed rkyv records path version) :
    Hidden rkyv records path version := by
  obtain ⟨b, v, hb, hv, hdestroyed⟩ := h
  exact ⟨b, v, hb, hv, Or.inl hdestroyed⟩

theorem Gone.congr {rkyv : Rkyv B} {records records' : String → Option B} {key : String}
    (h : Gone rkyv records key)
    (hmetadata : ∀ path, records' (buildMetaKey path) = records (buildMetaKey path)) :
    Gone rkyv records' key := by
  obtain ⟨path, version, hkey, b, v, hb, hv⟩ := h
  exact ⟨path, version, hkey, b, v, (hmetadata path).trans hb, hv⟩

/-- What is destroyed stays destroyed. -/
def KeyMetadata.Keeps (m m' : KeyMetadata) : Prop :=
  ∀ n v, findVersion n m = some v → v.destroyed = true →
    ∃ v', findVersion n m' = some v' ∧ v'.destroyed = true

theorem keeps_grown (m : KeyMetadata) (created : UInt64) : m.Keeps (m.grown created) := by
  intro n v hv hdestroyed
  refine ⟨v, ?_, hdestroyed⟩
  unfold findVersion KeyMetadata.grown at *
  rw [List.find?_append, hv, Option.some_or]

theorem keeps_updated {version : UInt32} (hf : ∀ v, (f v).versionId = v.versionId)
    (hdestroyed : ∀ v, v.destroyed = true → (f v).destroyed = true) (m : KeyMetadata) :
    m.Keeps (m.updated version f) := by
  intro n v hv hbefore
  rw [findVersion_updated hf, hv, Option.map_some]
  split
  · exact ⟨f v, rfl, hdestroyed v hbefore⟩
  · exact ⟨v, rfl, hbefore⟩

/-! ## States whose pending writes are covered -/

/-- Only payloads of destroyed versions have pending writes that no cache entry covers. -/
def KvEngine.Shielded (rkyv : Rkyv B) (s : KvEngine B) : Prop :=
  s.Covered (Gone rkyv s.view)

namespace KvEngine.Shielded

variable {rkyv : Rkyv B} {s s' : KvEngine B} {path : String}

theorem fills (h : s.Shielded rkyv) (hfills : s.Fills s') : s'.Shielded rkyv := by
  unfold Shielded
  rw [hfills.view]
  exact Covered.fills h hfills

theorem acceptPayload (h : s.Shielded rkyv) (path : String) (version : UInt32) (b : B) :
    (s.accept (.put (buildVersionKey path version) b)).Shielded rkyv := by
  refine (Covered.acceptPut h _ b).mono fun key hgone => hgone.congr fun path' => ?_
  exact view_accept_of_ne s (buildMetaKey_ne_buildVersionKey path' path version)

theorem register (h : s.Shielded rkyv) (path : String) : (s.register path).Shielded rkyv :=
  h

/-- The metadata of a path is replaced by one that keeps what is destroyed. -/
theorem gone_acceptMetadata {b : B}
    (hkeeps : ∀ b₀, s.view (buildMetaKey path) = some b₀ →
      (rkyv.archivedMetadata b₀).Keeps (rkyv.archivedMetadata b)) {key : String}
    (h : Gone rkyv s.view key) :
    Gone rkyv (s.accept (.put (buildMetaKey path) b)).view key := by
  obtain ⟨path', version, hkey, b₀, v, hb₀, hv, hdestroyed⟩ := h
  refine ⟨path', version, hkey, ?_⟩
  rw [view_accept_put]
  by_cases heq : path' = path
  · subst heq
    obtain ⟨v', hv', hdestroyed'⟩ := hkeeps b₀ hb₀ version v hv hdestroyed
    exact ⟨b, v', Function.update_self _ _ _, hv', hdestroyed'⟩
  · refine ⟨b₀, v, ?_, hv, hdestroyed⟩
    rwa [Function.update_of_ne fun hkeys => heq (buildMetaKey_inj.mp hkeys)]

end KvEngine.Shielded

/-! ## Requests keep the pending writes covered -/

section Requests

variable {rkyv : Rkyv B} (hrkyv : rkyv.Faithful) {given : Choice → Prop} {path : String}
  {version : UInt32} {s s' : KvEngine B} {r : Except EngineError Out} {writes : List (AsyncOp B)}

include hrkyv

/-- After the metadata is stored, only payloads of destroyed versions are not covered. -/
theorem shielded_storeMetadataScript {m : KeyMetadata} {next : Script B} (hs : s.Covered X)
    (hX : ∀ b, rkyv.archivedMetadata b = m → ∀ key, X key →
      Gone rkyv (s.accept (.put (buildMetaKey path) b)).view key)
    (hnext : ∀ s₁ later, next.Ends given s₁ r s' later → s₁.Shielded rkyv → s'.Shielded rkyv)
    (h : (storeMetadataScript rkyv path m next).Ends given s r s' writes) :
    (s' = s ∧ ∃ e, r = .error e) ∨ s'.Shielded rkyv := by
  rcases ends_storeMetadataScript h with ⟨e, hr, hsame, _⟩ | ⟨b, later, hb, _, hrest⟩
  · exact Or.inl ⟨hsame, e, hr⟩
  · obtain ⟨b', hb', harchived⟩ := hrkyv.metadata m
    obtain rfl := Except.ok.inj (hb.symm.trans hb')
    exact Or.inr (hnext _ _ hrest ((hs.acceptPut _ b).mono (hX b harchived)))

theorem shielded_updated {b : B} {r₀ : Except EngineError Out}
    (hf : ∀ v, (f v).versionId = v.versionId)
    (hdestroyed : ∀ v, v.destroyed = true → (f v).destroyed = true) (hs : s.Shielded rkyv)
    (hb : s.view (buildMetaKey path) = some b)
    (h : (storeMetadataScript rkyv path ((deserializeMetadata rkyv b).updated version f)
      (.finish r₀)).Ends given s r s' writes) : s'.Shielded rkyv := by
  have hstored := shielded_storeMetadataScript hrkyv hs (fun b' hb' key hgone => by
    refine KvEngine.Shielded.gone_acceptMetadata (fun b₀ hb₀ => ?_) hgone
    obtain rfl := Option.some.inj (hb.symm.trans hb₀)
    rw [hb']
    exact keeps_updated hf hdestroyed (deserializeMetadata rkyv b))
    (fun s₁ later hends hshielded => by
      cases hends
      exact hshielded) h
  rcases hstored with ⟨rfl, _⟩ | hshielded
  · exact hs
  · exact hshielded

theorem shielded_appendVersion {x : SecretPayload} {found : Option B}
    (hs : s.Shielded rkyv) (hfound : s.view (buildMetaKey path) = found)
    (h : (appendVersionScript rkyv path x ((found.map (deserializeMetadata rkyv)).getD
      .default)).Ends given s r s' writes) : s'.Shielded rkyv := by
  unfold appendVersionScript at h
  cases h with
  | clock choice _ h =>
    split at h
    · cases h
      exact hs
    · next payload _ =>
        cases h with
        | refused => exact hs
        | write h =>
          have hs₁ := hs.acceptPayload path
            (((found.map (deserializeMetadata rkyv)).getD .default).currentVersion + 1) payload
          have hstored := shielded_storeMetadataScript hrkyv hs₁ ?_ ?_ h
          · rcases hstored with ⟨rfl, _⟩ | hshielded
            · exact hs₁
            · exact hshielded
          · intro b hb key hgone
            refine KvEngine.Shielded.gone_acceptMetadata (fun b₀ hb₀ => ?_) hgone
            rw [KvEngine.view_accept_of_ne s (buildMetaKey_ne_buildVersionKey path path _),
              hfound] at hb₀
            subst hb₀
            rw [hb]
            exact keeps_grown (deserializeMetadata rkyv b₀) choice.now
          · intro s₂ later hends hshielded
            cases hends with
            | register hends =>
              cases hends
              exact hshielded.register path

theorem shielded_putVersion {x : SecretPayload} {cas : Option UInt32} (hs : s.Shielded rkyv)
    (h : (putVersionScript rkyv path x cas).Ends given s r s' writes) : s'.Shielded rkyv := by
  unfold putVersionScript at h
  cases h with
  | unreadable => exact hs
  | @read _ _ _ s₁ _ _ _ hfills h =>
    have hs₁ := hs.fills hfills
    dsimp only at h
    unfold checkCasScript at h
    split at h
    · split at h
      · cases h
        exact hs₁
      · exact shielded_appendVersion hrkyv hs₁ (congrFun hfills.view _) h
    · exact shielded_appendVersion hrkyv hs₁ (congrFun hfills.view _) h

/-- A destruction that succeeds, or that fails on a destroyed version. -/
theorem shielded_destroyVersion (hs : s.Shielded rkyv)
    (herror : ∀ e, r = .error e → writes = [] ∨ Destroyed rkyv s.view path version)
    (h : (destroyVersionScript rkyv path version).Ends given s r s' writes) :
    s'.Shielded rkyv := by
  unfold destroyVersionScript at h
  rcases ends_readMetadataScript h with ⟨_, _, hfills, _, _⟩ | ⟨s₁, b, hfills, hb, hrest⟩
  · exact hs.fills hfills
  · have hs₁ := hs.fills hfills
    split at hrest
    · cases hrest
      exact hs₁
    · next v hv =>
      cases hrest with
      | refused => exact hs₁
      | write hrest =>
        have hs₂ : (s₁.accept (.delete (buildVersionKey path version))).Covered
            (fun key => Gone rkyv s₁.view key ∨ key = buildVersionKey path version) :=
          (hs₁.mono fun _ => Or.inl).accept _ fun _ => Or.inr rfl
        have hmetadata : ∀ path', (s₁.accept (.delete (buildVersionKey path version))).view
            (buildMetaKey path') = s₁.view (buildMetaKey path') := fun path' =>
          KvEngine.view_accept_of_ne s₁ (buildMetaKey_ne_buildVersionKey path' path version)
        have hstored := shielded_storeMetadataScript hrkyv hs₂ ?_ ?_ hrest
        · rcases hstored with ⟨rfl, e, hr⟩ | hshielded
          · rcases herror e hr with hnone | hdestroyed
            · exact absurd hnone (List.append_ne_nil_of_right_ne_nil _ (List.cons_ne_nil _ _))
            · rw [← hfills.view] at hdestroyed
              refine hs₂.mono fun key hkey => ?_
              rcases hkey with hgone | rfl
              · exact hgone.congr hmetadata
              · exact Gone.congr ⟨path, version, rfl, hdestroyed⟩ hmetadata
          · exact hshielded
        · intro b' hb' key hkey
          rcases hkey with hgone | rfl
          · refine KvEngine.Shielded.gone_acceptMetadata (fun b₀ hb₀ => ?_)
              (hgone.congr hmetadata)
            rw [hmetadata, hfills.view, hb] at hb₀
            obtain rfl := Option.some.inj hb₀
            rw [hb']
            exact keeps_updated (f := fun v => { v with destroyed := true }) (fun _ => rfl)
              (fun _ _ => rfl) (deserializeMetadata rkyv b)
          · refine ⟨path, version, rfl, b', { v with destroyed := true }, ?_, ?_, rfl⟩
            · rw [KvEngine.view_accept_put, Function.update_self]
            · rw [hb', findVersion_updated (f := fun v => { v with destroyed := true })
                fun _ => rfl, hv, if_pos rfl, Option.map_some]
        · intro s₃ later hends hshielded
          cases hends
          exact hshielded

theorem request_shielded (hs : s.Shielded rkyv) (c : Call) (choices : List Choice)
    (herror : ∀ path version, c = .destroyVersion path version → ∀ e,
      (request rkyv s c choices).1 = .error e →
        acceptedWrites rkyv s c choices = [] ∨ Destroyed rkyv s.view path version) :
    (request rkyv s c choices).2.Shielded rkyv := by
  have hends := request_ends rkyv s c choices
  cases c with
  | readMetadata path => exact hs.fills (request_fills rkyv s choices rfl)
  | readVersion path version => exact hs.fills (request_fills rkyv s choices rfl)
  | putVersion path x cas => exact shielded_putVersion hrkyv hs hends
  | softDelete path version =>
    unfold script softDeleteScript at hends
    rcases ends_readMetadataScript hends with ⟨_, _, hfills, _, _⟩ | ⟨s₁, b, hfills, hb, hrest⟩
    · exact hs.fills hfills
    · rw [← hfills.view] at hb
      split at hrest
      · rw [ends_finish hrest]
        exact hs.fills hfills
      · cases hrest with
        | clock choice _ hrest =>
          refine shielded_updated hrkyv ?_ ?_ (hs.fills hfills) hb hrest
          · exact fun _ => rfl
          · exact fun _ h => h
  | undelete path version =>
    unfold script undeleteScript at hends
    rcases ends_readMetadataScript hends with ⟨_, _, hfills, _, _⟩ | ⟨s₁, b, hfills, hb, hrest⟩
    · exact hs.fills hfills
    · rw [← hfills.view] at hb
      split at hrest
      · rw [ends_finish hrest]
        exact hs.fills hfills
      · split at hrest
        · rw [ends_finish hrest]
          exact hs.fills hfills
        · refine shielded_updated hrkyv ?_ ?_ (hs.fills hfills) hb hrest
          · exact fun _ => rfl
          · exact fun _ h => h
  | destroyVersion path version =>
    exact shielded_destroyVersion hrkyv hs (herror path version rfl) hends

end Requests

/-! ## Runs -/

/-- A turn of a sequential run: a request, or a step that no client takes. -/
inductive Turn where
  | request (c : Call) (choices : List Choice)
  | env (e : EnvStep)

def KvEngine.turn (rkyv : Rkyv B) (s : KvEngine B) : Turn → KvEngine B
  | .request c choices => (Engine.request rkyv s c choices).2
  | .env e => s.env e

/-- No destruction of a version fails after its payload is deleted, unless the version was
destroyed before, and the cache loses a record only when it is the one in RocksDB and no
write of its key is pending. -/
def Turn.Harmless (rkyv : Rkyv B) (s : KvEngine B) : Turn → Prop
  | .request c choices => ∀ path version, c = .destroyVersion path version → ∀ e,
      (Engine.request rkyv s c choices).1 = .error e →
        acceptedWrites rkyv s c choices = [] ∨ Destroyed rkyv s.view path version
  | .env (.dropEntry key) => s.cache key ≠ none →
      s.rocksdb key = s.cache key ∧ ∀ op ∈ s.pending, op.key ≠ key
  | .env _ => True

variable {s : KvEngine B}

/-- Reads find a lost record in RocksDB. -/
theorem KvEngine.view_dropEntry {key : String}
    (hkey : s.cache key ≠ none → s.rocksdb key = s.cache key) :
    (s.env (.dropEntry key)).view = s.view := by
  funext key'
  change (Function.update s.cache key none key').or (s.rocksdb key') = _
  rw [Function.update_apply]
  split
  · next heq =>
      subst heq
      rw [KvEngine.view]
      cases hcache : s.cache key' with
      | none => rfl
      | some b =>
        have hentry : s.cache key' ≠ none := by
          rw [hcache]
          exact Option.some_ne_none b
        rw [hkey hentry, hcache]
        rfl
  · rfl

/-- The cache loses an entry. -/
theorem KvEngine.Shielded.dropEntry {rkyv : Rkyv B} (hs : s.Shielded rkyv) {key : String}
    (hkey : s.cache key ≠ none → s.rocksdb key = s.cache key ∧ ∀ op ∈ s.pending, op.key ≠ key) :
    (s.env (.dropEntry key)).Shielded rkyv := by
  unfold KvEngine.Shielded
  rw [KvEngine.view_dropEntry fun hentry => (hkey hentry).1]
  intro key' hgone hcache
  change Function.update s.cache key none key' = none at hcache
  rw [Function.update_apply] at hcache
  split at hcache
  · next heq =>
      subst heq
      by_cases hnone : s.cache key' = none
      · exact hs key' hgone hnone
      · exact (hkey hnone).2
  · exact hs key' hgone hcache

theorem not_gone_buildMetaKey (rkyv : Rkyv B) (records : String → Option B) (path : String) :
    ¬ Gone rkyv records (buildMetaKey path) := by
  rintro ⟨path', version, hkey, _⟩
  exact buildMetaKey_ne_buildVersionKey path path' version hkey

theorem KvEngine.Shielded.workerStep {rkyv : Rkyv B} (hs : s.Shielded rkyv)
    (timeout fails : Bool) : (s.workerStep timeout fails).Shielded rkyv := by
  refine (Covered.workerStep hs timeout fails).mono fun key hgone => hgone.congr fun path => ?_
  exact Covered.view_workerStep hs (not_gone_buildMetaKey rkyv s.view path) timeout fails

/-- No read looks at what the worker may change. -/
theorem KvEngine.Shielded.readResult_workerStep {rkyv : Rkyv B} (hs : s.Shielded rkyv)
    (timeout fails : Bool) (hread : c.mutates = none) :
    readResult rkyv (s.workerStep timeout fails).view c = readResult rkyv s.view c := by
  refine readResult_congr (fun path => ?_) (fun path n hshown => ?_) hread
  · exact Covered.view_workerStep hs (not_gone_buildMetaKey rkyv s.view path) timeout fails
  · refine Covered.view_workerStep hs ?_ timeout fails
    rintro ⟨path', n', hkey, hdestroyed⟩
    obtain ⟨rfl, rfl⟩ := buildVersionKey_inj.mp hkey
    exact hshown hdestroyed.hidden

theorem KvEngine.Shielded.turn {rkyv : Rkyv B} (hrkyv : rkyv.Faithful) (s : KvEngine B)
    (turn : Turn) (hs : s.Shielded rkyv) (hturn : turn.Harmless rkyv s) :
    (s.turn rkyv turn).Shielded rkyv := by
  cases turn with
  | request c choices => exact request_shielded hrkyv hs c choices hturn
  | env e =>
    cases e with
    | dropEntry key => exact hs.dropEntry hturn
    | worker timeout fails => exact hs.workerStep timeout fails
    | changeSyncMode mode => exact hs
    | stop => exact hs

theorem shielded_opened (rkyv : Rkyv B) (db : String → Option B) (mode : SyncMode)
    (paths : List String) : (KvEngine.opened db mode paths).Shielded rkyv :=
  fun _ _ _ => nofun

/-! ## Failures -/

/-- A destruction fails before it has written anything, or after the delete. -/
theorem destroyVersion_failed {rkyv : Rkyv B} {path : String} {version : UInt32}
    {choices : List Choice} {e : EngineError}
    (herror : (request rkyv s (.destroyVersion path version) choices).1 = .error e) :
    acceptedWrites rkyv s (.destroyVersion path version) choices = [] ∨
      ∃ s₁, s.Fills s₁ ∧ (request rkyv s (.destroyVersion path version) choices).2 =
        s₁.accept (.delete (buildVersionKey path version)) := by
  have hends := request_ends rkyv s (.destroyVersion path version) choices
  rw [herror] at hends
  generalize (request rkyv s (.destroyVersion path version) choices).2 = s' at hends ⊢
  generalize acceptedWrites rkyv s (.destroyVersion path version) choices = writes at hends ⊢
  unfold script destroyVersionScript at hends
  rcases ends_readMetadataScript hends with ⟨_, _, _, hnone, _⟩ | ⟨s₁, b, hfills, _, hrest⟩
  · exact Or.inl hnone
  · split at hrest
    · cases hrest
      exact Or.inl rfl
    · cases hrest with
      | refused => exact Or.inl rfl
      | write hrest =>
        rcases ends_storeMetadataScript hrest with ⟨_, _, hsame, _⟩ | ⟨b', later, _, _, hrest⟩
        · exact Or.inr ⟨s₁, hfills, hsame⟩
        · cases hrest

/-- No read looks at what a shielded engine may still change. -/
theorem request_read_worked {rkyv : Rkyv B} {s' : KvEngine B}
    (hX : ∀ key, X key → ∃ path n, key = buildVersionKey path n ∧ Hidden rkyv s.view path n)
    (hview : ∀ key, ¬ X key → s'.view key = s.view key) (hs' : s'.Covered X)
    (steps : List (Bool × Bool)) (hread : c.mutates = none) :
    (request rkyv (s'.worked steps) c []).1 = (request rkyv s c []).1 := by
  have hsame : ∀ key, ¬ X key → (s'.worked steps).view key = s.view key := fun key hkey =>
    (KvEngine.Covered.view_worked hkey steps hs').trans (hview key hkey)
  rw [request_read rkyv _ hread .nil, request_read rkyv s hread .nil]
  refine readResult_congr (fun path => hsame _ fun hkey => ?_) (fun path n hshown => ?_) hread
  · obtain ⟨path', n, heq, _⟩ := hX _ hkey
    exact buildMetaKey_ne_buildVersionKey path path' n heq
  · refine hsame _ fun hkey => ?_
    obtain ⟨path', n', heq, hhidden⟩ := hX _ hkey
    obtain ⟨rfl, rfl⟩ := buildVersionKey_inj.mp heq
    exact hshown hhidden

/-- In a run without the harm, a destruction that fails changes no read, now and whatever
the worker does after it, when it has written nothing or the version was hidden. -/
theorem destroyVersion_failed_intact (rkyv : Rkyv B) (hrkyv : rkyv.Faithful)
    (db : String → Option B) (mode : SyncMode) (paths : List String) (turns : List Turn)
    (hrun : Along (KvEngine.turn rkyv) (Turn.Harmless rkyv) (.opened db mode paths) turns)
    (s : KvEngine B) (hs : s = turns.foldl (KvEngine.turn rkyv) (.opened db mode paths))
    (path : String) (version : UInt32) (choices : List Choice) (e : EngineError)
    (hwhen : acceptedWrites rkyv s (.destroyVersion path version) choices = [] ∨
      Hidden rkyv s.view path version)
    (herror : (request rkyv s (.destroyVersion path version) choices).1 = .error e) :
    ∀ (c : Call) (steps : List (Bool × Bool)), c.mutates = none →
      (request rkyv ((request rkyv s (.destroyVersion path version) choices).2.worked steps)
        c []).1 = (request rkyv s c []).1 := by
  intro c steps hread
  have hshielded : s.Shielded rkyv := by
    rw [hs]
    exact Along.invariant (KvEngine.Shielded.turn hrkyv) turns _
      (shielded_opened rkyv db mode paths) hrun
  have hgone : ∀ key, Gone rkyv s.view key →
      ∃ path n, key = buildVersionKey path n ∧ Hidden rkyv s.view path n := by
    rintro key ⟨path', n, hkey, hdestroyed⟩
    exact ⟨path', n, hkey, hdestroyed.hidden⟩
  have hnothing : acceptedWrites rkyv s (.destroyVersion path version) choices = [] →
      (request rkyv ((request rkyv s (.destroyVersion path version) choices).2.worked steps)
        c []).1 = (request rkyv s c []).1 := by
    intro hnone
    have hfills := (request_unwritten rkyv s (.destroyVersion path version) choices nofun hnone).2
    exact request_read_worked hgone (fun key _ => congrFun hfills.view key)
      (KvEngine.Covered.fills hshielded hfills) steps hread
  rcases hwhen with hnone | hhidden
  · exact hnothing hnone
  · rcases destroyVersion_failed herror with hnone | ⟨s₁, hfills, hs'⟩
    · exact hnothing hnone
    · -- The payload is gone, or its delete is queued; no read looks for it.
      rw [hs']
      have hcovered : (s₁.accept (.delete (buildVersionKey path version))).Covered
          (fun key => Gone rkyv s.view key ∨ key = buildVersionKey path version) :=
        ((KvEngine.Covered.fills hshielded hfills).mono fun _ => Or.inl).accept _
          fun _ => Or.inr rfl
      refine request_read_worked ?_ (fun key hkey => ?_) hcovered steps hread
      · rintro key (hkey | rfl)
        · exact hgone key hkey
        · exact ⟨path, version, rfl, hhidden⟩
      · rw [KvEngine.view_accept_of_ne s₁ fun heq => hkey (Or.inr heq), hfills.view]

/-- RocksDB refuses the delete of the payload. -/
def refusedDelete : List Choice :=
  [.at 1, .at 1, ⟨some "no space", 1⟩]

theorem destroyVersion_failed_intact_refusedDelete :
    let s := (request Record.rkyv (.opened (fun _ => none) .immediate [])
      (.putVersion "p" ⟨"x", 0⟩ none) []).2
    (request Record.rkyv s (.destroyVersion "p" 1) refusedDelete).1 =
        .error (.storageError "Immediate delete failed: no space") ∧
      ∀ (c : Call) (steps : List (Bool × Bool)), c.mutates = none →
        (request Record.rkyv ((request Record.rkyv s (.destroyVersion "p" 1)
          refusedDelete).2.worked steps) c []).1 = (request Record.rkyv s c []).1 := by
  have herror : (request Record.rkyv (request Record.rkyv (.opened (fun _ => none) .immediate [])
      (.putVersion "p" ⟨"x", 0⟩ none) []).2 (.destroyVersion "p" 1) refusedDelete).1 =
        .error (.storageError "Immediate delete failed: no space") := by decide +kernel
  have hnone : acceptedWrites Record.rkyv (request Record.rkyv
      (.opened (fun _ => none) .immediate []) (.putVersion "p" ⟨"x", 0⟩ none) []).2
      (.destroyVersion "p" 1) refusedDelete = [] := by decide +kernel
  exact ⟨herror, destroyVersion_failed_intact Record.rkyv Record.rkyv_faithful (fun _ => none)
    .immediate [] [.request (.putVersion "p" ⟨"x", 0⟩ none) []] ⟨nofun, trivial⟩ _ rfl "p" 1
    refusedDelete _ (Or.inl hnone) herror⟩

/-- RocksDB refuses the metadata after the payload is deleted. -/
def refusedMark : List Choice :=
  [.at 1, .at 1, .at 1, .at 1, .at 1, ⟨some "no space", 1⟩]

/-- The version that could not be destroyed is lost. -/
theorem destroyVersion_failed_lost :
    let s := (request Record.rkyv (.opened (fun _ => none) .immediate [])
      (.putVersion "p" ⟨"x", 0⟩ none) []).2
    let s' := (request Record.rkyv s (.destroyVersion "p" 1) refusedMark).2
    (request Record.rkyv s (.destroyVersion "p" 1) refusedMark).1 =
        .error (.storageError "Immediate write failed: no space") ∧
      (request Record.rkyv s (.readVersion "p" 1) []).1 =
        .ok (.version ⟨"x", 0⟩ ⟨1, 0, 1, false⟩) ∧
      (request Record.rkyv s' (.readVersion "p" 1) []).1 =
        .error (.storageError "Missing version payload") := by
  decide +kernel

end Kallisto.Engine
