import Kallisto.Verification.Engine.Accounts
import Kallisto.Verification.Engine.Conformance
import Kallisto.Verification.Engine.Listing

/-! # Results up to times

Two runs of the same requests on a healthy storage, at different times, end with results
that differ in the times only. -/

namespace Kallisto.Engine

open Program Interleaving

variable {B : Type}

/-! ## Records without their times -/

/-- A version without its times. That it was deleted is kept. -/
def VersionState.timeless (v : VersionState) : VersionState :=
  { v with createdTimeMs := 0, deletionTimeMs := if v.deletionTimeMs = 0 then 0 else 1 }

def KeyMetadata.timeless (m : KeyMetadata) : KeyMetadata :=
  { m with versions := m.versions.map VersionState.timeless }

def Out.timeless : Out → Out
  | .unit => .unit
  | .metadata m => .metadata m.timeless
  | .version payload state => .version payload state.timeless

/-- Two results are equal, times aside. -/
def TimesAside (r r' : Except EngineError Out) : Prop :=
  r.map Out.timeless = r'.map Out.timeless

section Versions

variable {v v' : VersionState} {m m' : KeyMetadata}

theorem versionId_of_timeless (h : v.timeless = v'.timeless) : v.versionId = v'.versionId :=
  show v.timeless.versionId = v'.timeless.versionId from congrArg VersionState.versionId h

theorem destroyed_of_timeless (h : v.timeless = v'.timeless) : v.destroyed = v'.destroyed :=
  show v.timeless.destroyed = v'.timeless.destroyed from congrArg VersionState.destroyed h

theorem deleted_of_timeless (h : v.timeless = v'.timeless) :
    v.deletionTimeMs = 0 ↔ v'.deletionTimeMs = 0 := by
  have hdeletion : (if v.deletionTimeMs = 0 then (0 : UInt64) else 1) =
      if v'.deletionTimeMs = 0 then 0 else 1 := congrArg VersionState.deletionTimeMs h
  split at hdeletion <;> split at hdeletion <;> simp_all

theorem timeless_versions (h : m.timeless = m'.timeless) :
    m.versions.map VersionState.timeless = m'.versions.map VersionState.timeless :=
  congrArg KeyMetadata.versions h

theorem currentVersion_of_timeless (h : m.timeless = m'.timeless) :
    m.currentVersion = m'.currentVersion :=
  show m.timeless.currentVersion = m'.timeless.currentVersion from
    congrArg KeyMetadata.currentVersion h

/-- Versions are found by their number. -/
theorem find?_timeless (n : UInt32) (vs : List VersionState) :
    (vs.find? fun v => v.versionId = n).map VersionState.timeless =
      (vs.map VersionState.timeless).find? fun v => v.versionId = n := by
  rw [List.find?_map]
  rfl

theorem findVersion_timeless (h : m.timeless = m'.timeless) (n : UInt32) :
    (findVersion n m).map VersionState.timeless = (findVersion n m').map VersionState.timeless := by
  rw [findVersion, findVersion, find?_timeless, find?_timeless, timeless_versions h]

theorem updateVersion_timeless {f f' : VersionState → VersionState} (n : UInt32)
    (hf : ∀ v v', v.timeless = v'.timeless → (f v).timeless = (f' v').timeless) :
    ∀ {vs vs' : List VersionState},
      vs.map VersionState.timeless = vs'.map VersionState.timeless →
      (updateVersion n f vs).map VersionState.timeless =
        (updateVersion n f' vs').map VersionState.timeless := by
  intro vs
  induction vs with
  | nil =>
    intro vs' h
    rw [List.map_eq_nil_iff.mp h.symm]
    rfl
  | cons v vs ih =>
    intro vs' h
    cases vs' with
    | nil => cases h
    | cons v' vs' =>
      obtain ⟨hv, hvs⟩ := List.cons.inj h
      simp only [updateVersion, versionId_of_timeless hv]
      split
      · rw [List.map_cons, List.map_cons, hf v v' hv, hvs]
      · rw [List.map_cons, List.map_cons, hv, ih hvs]

theorem updated_timeless {f f' : VersionState → VersionState} (h : m.timeless = m'.timeless)
    (n : UInt32) (hf : ∀ v v', v.timeless = v'.timeless → (f v).timeless = (f' v').timeless) :
    (m.updated n f).timeless = (m'.updated n f').timeless := by
  have hversions := updateVersion_timeless n hf (timeless_versions h)
  simp only [KeyMetadata.timeless, KeyMetadata.updated, KeyMetadata.mk.injEq] at h ⊢
  exact ⟨h.1, h.2.1, h.2.2.1, h.2.2.2.1, h.2.2.2.2.1, hversions⟩

theorem grown_timeless (h : m.timeless = m'.timeless) (created created' : UInt64) :
    (m.grown created).timeless = (m'.grown created').timeless := by
  have hversions := timeless_versions h
  have hcurrent := currentVersion_of_timeless h
  simp only [KeyMetadata.timeless, KeyMetadata.grown, KeyMetadata.mk.injEq] at h ⊢
  refine ⟨by rw [hcurrent], h.2.1, h.2.2.1, h.2.2.2.1, h.2.2.2.2.1, ?_⟩
  rw [List.map_append, List.map_append, hversions, hcurrent]
  rfl

end Versions

/-! ## Scripts -/

/-- Two values of a key: metadata may differ in times. -/
def SameValue (rkyv : Rkyv B) (key : String) (x x' : Option B) : Prop :=
  match pathOfKey key with
  | some _ => x.map (fun b => (rkyv.archivedMetadata b).timeless) =
      x'.map fun b => (rkyv.archivedMetadata b).timeless
  | none => x = x'

structure Books.Alike (rkyv : Rkyv B) (books books' : Books B) : Prop where
  records : ∀ key, SameValue rkyv key (books.records key) (books'.records key)
  paths : ∀ path, path ∈ books.paths ↔ path ∈ books'.paths

/-- Scripts that do the same, times aside, when they read the same and the clock reads zero
for both or for none. -/
inductive Script.Alike (rkyv : Rkyv B) : Script B → Script B → Prop where
  | finish {r r' : Except EngineError Out} (h : TimesAside r r') :
      Alike rkyv (.finish r) (.finish r')
  | read {key : String} {k k' : Option B → Script B}
      (h : ∀ found found', SameValue rkyv key found found' → Alike rkyv (k found) (k' found')) :
      Alike rkyv (.read key k) (.read key k')
  | clock {k k' : UInt64 → Script B}
      (h : ∀ now now', (now = 0 ↔ now' = 0) → Alike rkyv (k now) (k' now')) :
      Alike rkyv (.clock k) (.clock k')
  | write {op op' : AsyncOp B} {next next' : Script B} (hkey : op.key = op'.key)
      (hvalue : SameValue rkyv op.key op.value op'.value) (h : Alike rkyv next next') :
      Alike rkyv (.write op next) (.write op' next')
  | register {path : String} {next next' : Script B} (h : Alike rkyv next next') :
      Alike rkyv (.register path next) (.register path next')

section Values

variable {rkyv : Rkyv B}

theorem SameValue.refl (key : String) (x : Option B) : SameValue rkyv key x x := by
  unfold SameValue
  split <;> rfl

theorem Books.Alike.refl (books : Books B) : books.Alike rkyv books :=
  ⟨fun key => .refl key _, fun _ => Iff.rfl⟩

theorem sameValue_metaKey {path : String} {x x' : Option B} :
    SameValue rkyv (buildMetaKey path) x x' ↔
      x.map (fun b => (rkyv.archivedMetadata b).timeless) =
        x'.map fun b => (rkyv.archivedMetadata b).timeless := by
  rw [SameValue, pathOfKey_buildMetaKey]

theorem sameValue_versionKey {path : String} {n : UInt32} {x x' : Option B}
    (h : SameValue rkyv (buildVersionKey path n) x x') : x = x' := by
  rwa [SameValue, pathOfKey_buildVersionKey] at h

/-- Both metadata records are missing, or both are there and are alike. -/
theorem SameValue.metadata {path : String} {x x' : Option B}
    (h : SameValue rkyv (buildMetaKey path) x x') :
    (x = none ∧ x' = none) ∨ ∃ b b', x = some b ∧ x' = some b' ∧
      (rkyv.archivedMetadata b).timeless = (rkyv.archivedMetadata b').timeless := by
  rw [sameValue_metaKey] at h
  cases x with
  | none =>
    cases x' with
    | none => exact Or.inl ⟨rfl, rfl⟩
    | some b' => cases h
  | some b =>
    cases x' with
    | none => cases h
    | some b' => exact Or.inr ⟨b, b', rfl, rfl, Option.some.inj h⟩

theorem Books.Alike.write {books books' : Books B} (h : books.Alike rkyv books') {op op' : AsyncOp B}
    (hkey : op.key = op'.key) (hvalue : SameValue rkyv op.key op.value op'.value) :
    (books.write op).Alike rkyv (books'.write op') where
  records key := by
    change SameValue rkyv key (op.apply books.records key) (op'.apply books'.records key)
    by_cases heq : key = op.key
    · rw [heq, AsyncOp.apply_key, hkey, AsyncOp.apply_key, ← hkey]
      exact hvalue
    · rw [AsyncOp.apply_of_ne _ heq, AsyncOp.apply_of_ne _ (hkey ▸ heq)]
      exact h.records key
  paths := h.paths

theorem Books.Alike.register {books books' : Books B} (h : books.Alike rkyv books')
    (path : String) : (books.register path).Alike rkyv (books'.register path) where
  records := h.records
  paths path' := by rw [Books.mem_register, Books.mem_register, h.paths path']

end Values

/-! ## Evaluation -/

/-- Writes succeed, and the clock reads zero always or never. -/
structure Steady (zero : Prop) (now : UInt64) (faced : List Given) : Prop where
  now : now = 0 ↔ zero
  times : ∀ now, .time now ∈ faced → (now = 0 ↔ zero)
  outcomes : ∀ e, .outcome (some e) ∉ faced

section Evaluation

variable {zero : Prop} {now now' : UInt64} {faced faced' : List Given}

theorem Steady.tail (h : Steady zero now faced) : Steady zero now faced.tail :=
  ⟨h.now, fun now hnow => h.times now (List.mem_of_mem_tail hnow),
    fun e he => h.outcomes e (List.mem_of_mem_tail he)⟩

theorem Steady.nextTime (h : Steady zero now faced) : nextTime now faced = 0 ↔ zero := by
  unfold Engine.nextTime
  split
  · exact h.times _ List.mem_cons_self
  · exact h.now

/-- Scripts that are alike have results that are equal, times aside. -/
theorem Script.Alike.eval {rkyv : Rkyv B} {sc sc' : Script B} (h : sc.Alike rkyv sc') :
    ∀ {books books' : Books B} {faced faced' : List Given}, books.Alike rkyv books' →
      Steady zero now faced → Steady zero now' faced' →
      TimesAside (sc.eval now books faced).1 (sc'.eval now' books' faced').1 ∧
        (sc.eval now books faced).2.Alike rkyv (sc'.eval now' books' faced').2 := by
  induction h with
  | finish h => exact fun hbooks _ _ => ⟨h, hbooks⟩
  | read h ih => exact fun hbooks hsteady hsteady' => ih _ _ (hbooks.records _) hbooks hsteady hsteady'
  | clock h ih =>
    intro books books' faced faced' hbooks hsteady hsteady'
    exact ih _ _ (hsteady.nextTime.trans hsteady'.nextTime.symm) hbooks hsteady.tail hsteady'.tail
  | write hkey hvalue h ih =>
    intro books books' faced faced' hbooks hsteady hsteady'
    simp only [Script.eval, nextOutcome_eq_none hsteady.outcomes,
      nextOutcome_eq_none hsteady'.outcomes]
    exact ih (hbooks.write hkey hvalue) hsteady.tail hsteady'.tail
  | register h ih => exact fun hbooks => ih (hbooks.register _)

end Evaluation

/-! ## Every request is alike itself -/

section Requests

variable {rkyv : Rkyv B} {m m' : KeyMetadata}

theorem alike_error (e : EngineError) : Script.Alike rkyv (.finish (.error e)) (.finish (.error e)) :=
  .finish rfl

theorem alike_ok : Script.Alike rkyv (.finish (.ok .unit)) (.finish (.ok .unit)) :=
  .finish rfl

theorem alike_storeMetadataScript (hrkyv : rkyv.Faithful) (path : String)
    (h : m.timeless = m'.timeless) {next next' : Script B} (hnext : next.Alike rkyv next') :
    (storeMetadataScript rkyv path m next).Alike rkyv (storeMetadataScript rkyv path m' next') := by
  obtain ⟨b, hb, harchived⟩ := hrkyv.metadata m
  obtain ⟨b', hb', harchived'⟩ := hrkyv.metadata m'
  rw [storeMetadataScript, storeMetadataScript, hb, hb']
  refine .write rfl (sameValue_metaKey.mpr ?_) hnext
  change some (rkyv.archivedMetadata b).timeless = some (rkyv.archivedMetadata b').timeless
  rw [harchived, harchived', h]

theorem deserializeMetadata_timeless {b b' : B}
    (h : (rkyv.archivedMetadata b).timeless = (rkyv.archivedMetadata b').timeless) :
    (deserializeMetadata rkyv b).timeless = (deserializeMetadata rkyv b').timeless := by
  simp only [KeyMetadata.timeless, deserializeMetadata, KeyMetadata.mk.injEq] at h ⊢
  exact ⟨h.1, h.2.1, h.2.2.1, h.2.2.2.1, trivial, h.2.2.2.2.2⟩

theorem alike_readMetadataScript (path : String) {k k' : KeyMetadata → Script B}
    (h : ∀ m m', m.timeless = m'.timeless → (k m).Alike rkyv (k' m')) :
    (readMetadataScript rkyv path k).Alike rkyv (readMetadataScript rkyv path k') := by
  refine .read fun found found' hfound => ?_
  rcases hfound.metadata with ⟨rfl, rfl⟩ | ⟨b, b', rfl, rfl, hb⟩
  · exact alike_error .notFound
  · exact h _ _ (deserializeMetadata_timeless hb)

/-- The common shape of the mutations of one version. -/
theorem alike_mutation (path : String) (version : UInt32)
    {k k' : KeyMetadata → VersionState → Script B}
    (h : ∀ m m' v v', m.timeless = m'.timeless → v.timeless = v'.timeless →
      (k m v).Alike rkyv (k' m' v')) :
    (readMetadataScript rkyv path fun m => match findVersion version m with
      | none => .finish (.error (.invalidVersion version))
      | some v => k m v).Alike rkyv (readMetadataScript rkyv path fun m =>
        match findVersion version m with
        | none => .finish (.error (.invalidVersion version))
        | some v => k' m v) := by
  refine alike_readMetadataScript path fun m m' hm => ?_
  have hfound := findVersion_timeless hm version
  cases hv : findVersion version m with
  | none =>
    cases hv' : findVersion version m' with
    | none => exact alike_error _
    | some v' =>
      rw [hv, hv'] at hfound
      cases hfound
  | some v =>
    cases hv' : findVersion version m' with
    | none =>
      rw [hv, hv'] at hfound
      cases hfound
    | some v' =>
      rw [hv, hv'] at hfound
      exact h m m' v v' hm (Option.some.inj hfound)

theorem alike_readVersionScript (path : String) (version : UInt32) :
    (readVersionScript rkyv path version).Alike rkyv (readVersionScript rkyv path version) := by
  refine .read fun found found' hfound => ?_
  rcases hfound.metadata with ⟨rfl, rfl⟩ | ⟨b, b', rfl, rfl, hb⟩
  · exact alike_error .notFound
  · have htarget : (locate version (rkyv.archivedMetadata b)).1 =
        (locate version (rkyv.archivedMetadata b')).1 := by
      simp only [locate, currentVersion_of_timeless hb]
    have hstate : (locate version (rkyv.archivedMetadata b)).2.map VersionState.timeless =
        (locate version (rkyv.archivedMetadata b')).2.map VersionState.timeless := by
      simp only [locate, currentVersion_of_timeless hb]
      exact findVersion_timeless hb _
    dsimp only
    generalize locate version (rkyv.archivedMetadata b) = x at htarget hstate ⊢
    generalize locate version (rkyv.archivedMetadata b') = x' at htarget hstate ⊢
    rcases x with ⟨target, _ | v⟩ <;> rcases x' with ⟨target', _ | v'⟩
    · exact alike_error _
    · cases hstate
    · cases hstate
    · obtain rfl : target = target' := htarget
      have hv : v.timeless = v'.timeless := Option.some.inj hstate
      have hdeleted : v.deletionTimeMs > 0 ↔ v'.deletionTimeMs > 0 := by
        rw [gt_iff_lt, gt_iff_lt, UInt64.pos_iff_ne_zero, UInt64.pos_iff_ne_zero, ne_eq, ne_eq,
          deleted_of_timeless hv]
      simp only [destroyed_of_timeless hv, hdeleted]
      split
      · exact alike_error _
      · split
        · exact alike_error _
        · split
          · exact alike_error _
          · refine .read fun x x' hx => ?_
            obtain rfl := sameValue_versionKey hx
            cases x with
            | none => exact alike_error _
            | some payload =>
              refine .finish ?_
              change Except.ok (Out.version _ _) = Except.ok (Out.version _ _)
              simp only [VersionState.timeless, VersionState.mk.injEq] at hv ⊢
              rw [hv.2.1]

theorem alike_putVersionScript (hrkyv : rkyv.Faithful) (path : String) (payload : SecretPayload)
    (cas : Option UInt32) :
    (putVersionScript rkyv path payload cas).Alike rkyv (putVersionScript rkyv path payload cas) := by
  have happend : ∀ m m' : KeyMetadata, m.timeless = m'.timeless →
      (appendVersionScript rkyv path payload m).Alike rkyv
        (appendVersionScript rkyv path payload m') := by
    intro m m' hm
    refine .clock fun now now' _ => ?_
    rw [currentVersion_of_timeless hm]
    split
    · exact alike_error _
    · exact .write rfl (.refl _ _) (alike_storeMetadataScript hrkyv path
        (grown_timeless hm now now') (.register alike_ok))
  refine .read fun found found' hfound => ?_
  have hm : ((found.map (deserializeMetadata rkyv)).getD .default).timeless =
      ((found'.map (deserializeMetadata rkyv)).getD .default).timeless := by
    rcases hfound.metadata with ⟨rfl, rfl⟩ | ⟨b, b', rfl, rfl, hb⟩
    · rfl
    · exact deserializeMetadata_timeless hb
  dsimp only
  unfold checkCasScript
  cases cas with
  | none => exact happend _ _ hm
  | some expected =>
    dsimp only
    rw [currentVersion_of_timeless hm]
    split
    · exact alike_error _
    · exact happend _ _ hm

theorem script_alike (hrkyv : rkyv.Faithful) (c : Call) :
    (script rkyv c).Alike rkyv (script rkyv c) := by
  cases c with
  | readMetadata path =>
    unfold script
    exact alike_readMetadataScript path fun m m' hm =>
      .finish (congrArg (fun m => Except.ok (Out.metadata m)) hm)
  | readVersion path version => exact alike_readVersionScript path version
  | putVersion path payload cas => exact alike_putVersionScript hrkyv path payload cas
  | softDelete path version =>
    unfold script softDeleteScript
    refine alike_mutation path version fun m m' v v' hm _ => .clock fun now now' hnow => ?_
    refine alike_storeMetadataScript hrkyv path (updated_timeless hm version ?_) alike_ok
    intro v v' hv
    simp only [VersionState.timeless, VersionState.mk.injEq, hnow] at hv ⊢
    exact ⟨trivial, trivial, hv.2.2⟩
  | undelete path version =>
    unfold script undeleteScript
    refine alike_mutation path version fun m m' v v' hm hv => ?_
    rw [destroyed_of_timeless hv]
    split
    · exact alike_error _
    · refine alike_storeMetadataScript hrkyv path (updated_timeless hm version ?_) alike_ok
      intro v v' hv
      simp only [VersionState.timeless, VersionState.mk.injEq] at hv ⊢
      exact ⟨trivial, trivial, hv.2.2⟩
  | destroyVersion path version =>
    unfold script destroyVersionScript
    refine alike_mutation path version fun m m' v v' hm _ => .write rfl (.refl _ _) ?_
    refine alike_storeMetadataScript hrkyv path (updated_timeless hm version ?_) alike_ok
    intro v v' hv
    simp only [VersionState.timeless, VersionState.mk.injEq] at hv ⊢
    exact ⟨trivial, hv.2.1, hv.2.2.1, trivial⟩

end Requests

/-! ## Replays -/

/-- No write of the request was refused. -/
def Request.Healthy (request : Request) : Prop :=
  ∀ e, .outcome (some e) ∉ request.faced

def Given.time? : Given → Option UInt64
  | .time now => some now
  | .outcome _ => none

/-- The times that the request read. -/
def Request.times (request : Request) : List UInt64 :=
  request.faced.filterMap Given.time?

/-- The same call, for which the clock read zero in both runs or in none. -/
def Request.Matches (request request' : Request) : Prop :=
  request.call = request'.call ∧ ((∀ now ∈ request.times ++ request'.times, now = 0) ∨
    ∀ now ∈ request.times ++ request'.times, now ≠ 0)

instance (request request' : Request) : Decidable (request.Matches request') :=
  -- by the list of the times, not by all numbers
  have : Decidable (∀ now ∈ request.times ++ request'.times, now = 0) := List.decidableBAll _ _
  have : Decidable (∀ now ∈ request.times ++ request'.times, now ≠ 0) := List.decidableBAll _ _
  inferInstanceAs (Decidable (request.call = request'.call ∧
    ((∀ now ∈ request.times ++ request'.times, now = 0) ∨
      ∀ now ∈ request.times ++ request'.times, now ≠ 0)))

theorem Request.mem_times {request : Request} {now : UInt64} (h : .time now ∈ request.faced) :
    now ∈ request.times :=
  List.mem_filterMap.mpr ⟨.time now, h, rfl⟩

/-- Two replays of the same calls have the same results, times aside. -/
theorem Replays.alike {rkyv : Rkyv B} (hrkyv : rkyv.Faithful) {books₀ books₀' : Books B}
    (hbooks₀ : books₀.Alike rkyv books₀') {requests requests' : List Request}
    (hmatches : List.Forall₂ Request.Matches requests requests') :
    ∀ {books books' : Books B}, Replays rkyv books₀ requests books →
      Replays rkyv books₀' requests' books' → (∀ request ∈ requests, request.Healthy) →
      (∀ request ∈ requests', request.Healthy) →
      List.Forall₂ (fun request request' => TimesAside request.result request'.result)
        requests requests' ∧ books.Alike rkyv books' := by
  induction hmatches with
  | nil =>
    rintro books books' ⟨⟩ ⟨⟩ _ _
    exact ⟨.nil, hbooks₀⟩
  | @cons request request' _ _ hmatch _ ih =>
    rintro books books' (_ | ⟨_, hbefore, heval⟩) (_ | ⟨_, hbefore', heval'⟩) hhealthy hhealthy'
    obtain ⟨hresults, hbooks⟩ := ih hbefore hbefore'
      (fun x hx => hhealthy x (List.mem_cons_of_mem _ hx))
      (fun x hx => hhealthy' x (List.mem_cons_of_mem _ hx))
    obtain ⟨hcall, htimes⟩ := hmatch
    -- a default time that reads as the clock of both requests does
    obtain ⟨zero, now, hnow, hzero⟩ : ∃ (zero : Prop) (now : UInt64), (now = 0 ↔ zero) ∧
        ∀ now ∈ request.times ++ request'.times, (now = 0 ↔ zero) := by
      rcases htimes with htimes | htimes
      · exact ⟨True, 0, iff_of_true rfl trivial, fun t ht => iff_of_true (htimes t ht) trivial⟩
      · exact ⟨False, 1, iff_of_false (by decide) id, fun t ht => iff_of_false (htimes t ht) id⟩
    have hsteady : Steady zero now request.faced :=
      ⟨hnow, fun t ht => hzero t (List.mem_append_left _ (Request.mem_times ht)),
        hhealthy request List.mem_cons_self⟩
    have hsteady' : Steady zero now request'.faced :=
      ⟨hnow, fun t ht => hzero t (List.mem_append_right _ (Request.mem_times ht)),
        hhealthy' request' List.mem_cons_self⟩
    have hsame := (script_alike hrkyv request.call).eval hbooks hsteady hsteady'
    rw [heval now, hcall, heval' now] at hsame
    exact ⟨.cons hsame.1 hresults, hsame.2⟩

/-! ## Healthy runs -/

section Healthy

variable {Tid : Type} [DecidableEq Tid]

theorem mem_facedBy {given : Given} {trace : List ((op : Effect B) × op.Ret)}
    (h : given ∈ facedBy trace) : ∃ x ∈ trace, given ∈ x.1.faced x.2 := by
  induction trace with
  | nil => cases h
  | cons x trace ih =>
    rcases List.mem_append.mp h with h | h
    · obtain ⟨y, hy, hgiven⟩ := ih h
      exact ⟨y, List.mem_cons_of_mem x hy, hgiven⟩
    · exact ⟨x, List.mem_cons_self, h⟩

/-- What a request took from outside came from a call in the log. -/
theorem mem_requestsOf {t : Tid} {request : Request} {given : Given}
    (hgiven : given ∈ request.faced) :
    ∀ {log : List (Event (system B) EngineError Call Out Tid)}, request ∈ requestsOf t log →
      ∃ op r, .act t op r ∈ log ∧ given ∈ op.faced r := by
  intro log
  induction log with
  | nil => exact nofun
  | cons e log ih =>
    intro h
    have hlater : request ∈ requestsOf t log →
        ∃ op r, .act t op r ∈ e :: log ∧ given ∈ op.faced r := by
      intro hrequest
      obtain ⟨op, r, hact, hfaced⟩ := ih hrequest
      exact ⟨op, r, List.mem_cons_of_mem e hact, hfaced⟩
    cases e with
    | respond t' c r =>
      rw [requestsOf] at h
      split at h
      · rcases List.mem_cons.mp h with rfl | h
        · obtain ⟨x, hx, hfaced⟩ := mem_facedBy hgiven
          exact ⟨x.1, x.2, List.mem_cons_of_mem _ (act_mem_of_mem_callTrace hx), hfaced⟩
        · exact hlater h
      · exact hlater h
    | _ => exact hlater h

/-- No write was refused so far. -/
def HealthyLog (log : List (Event (system B) EngineError Call Out Tid)) : Prop :=
  ∀ t op r, .act t op r ∈ log → ∀ e, .outcome (some e) ∉ op.faced r

theorem HealthyLog.request {t : Tid} {log : List (Event (system B) EngineError Call Out Tid)}
    (h : HealthyLog log) : ∀ request ∈ requestsOf t log, request.Healthy := by
  intro request hrequest e he
  obtain ⟨op, r, hact, hfaced⟩ := mem_requestsOf he hrequest
  exact h t op r hact e hfaced

theorem HealthyLog.step {rkyv : Rkyv B} {p : Clients B Tid} {l : Step B Tid} (h : HealthyLog p.log)
    (hsteady : SteadyStep l) : HealthyLog (p.step (body rkyv) l).log := by
  have hcons : ∀ {p : Clients B Tid} {e : Event (system B) EngineError Call Out Tid},
      HealthyLog p.log → (∀ t op r, e ≠ .act t op r) → HealthyLog (e :: p.log) := by
    intro p e h hne t op r hact
    rcases List.mem_cons.mp hact with heq | hact
    · exact (hne t op r heq.symm).elim
    · exact h t op r hact
  refine Pool.step_invariant (I := fun p => HealthyLog p.log) (fun _ l => SteadyStep l)
    ?_ ?_ ?_ ?_ h hsteady
  · exact fun p t c h _ _ => hcons h nofun
  · intro p t choice c op k h hok _ t' op' r' hact
    rcases List.mem_cons.mp hact with heq | hact
    · cases heq
      exact faced_healthy p.shared op hok
    · exact h t' op' r' hact
  · exact fun p t c r h _ _ => hcons h nofun
  · exact fun p e h _ => hcons h nofun

end Healthy

end Kallisto.Engine
