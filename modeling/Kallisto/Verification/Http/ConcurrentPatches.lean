import Kallisto.Verification.Engine.FailedDestroy
import Kallisto.Verification.Http.MergePatch
import Kallisto.Verification.Http.ReadBack
import Mathlib.Data.List.Permutation

/-! # Patches of several clients

Every call of the engine is one step. A patch reads the latest version, merges and writes a
new one; nothing tells it that the version it has read was replaced meanwhile. -/

namespace Kallisto.Http

open Program Interleaving Engine Json

variable {B N Tid : Type} {prog : HttpM Response} {choices : List Choice} {t : Tid}

/-! ## Requests -/

structure PatchRequest where
  uri : Uri
  body : ByteArray

section Requests

variable (sonic : Sonic N)

def PatchRequest.handler (mounted : String → Bool) (r : PatchRequest) : HttpM Response :=
  patchSecret sonic mounted r.uri r.body

/-- The patch in the body; the handler fails without one. -/
def PatchRequest.patch (r : PatchRequest) : Value N :=
  ((sonic.fromSlice r.body).map patchData).getD (.object [])

/-- The request is for the path and has no `options.cas`. -/
def PatchRequest.WithoutCas (path : String) (r : PatchRequest) : Prop :=
  (extractMountAndPath r.uri.path "data").map Prod.snd = some path ∧
    (sonic.fromSlice r.body).bind (optionsCas sonic) = none

instance (path : String) (r : PatchRequest) : Decidable (r.WithoutCas sonic path) :=
  inferInstanceAs (Decidable (_ ∧ _))

/-- Patches merged one after the other. -/
def mergeAll (original : Value N) (patches : List (Value N)) : Value N :=
  patches.foldl (fun v patch => mergePatch (some v) patch) original

/-- The value that a read of the latest version finds. -/
def latestValue (rkyv : Rkyv B) (s : KvEngine B) (path : String) : Option (Value N) :=
  match readResult rkyv s.view (.readVersion path 0) with
  | .ok (.version payload _) => some (currentValue sonic payload.value)
  | _ => none

end Requests

/-- Clients that patch over one engine. -/
abbrev Patchers (rkyv : Rkyv B) (Tid : Type) : Type :=
  Pool (server rkyv) Failure PatchRequest Response Tid

abbrev PatchStep (rkyv : Rkyv B) (Tid : Type) : Type :=
  Label (server rkyv) PatchRequest Tid

/-- The patches that were answered, the latest first. -/
def acknowledgedPatches {rkyv : Rkyv B} (sonic : Sonic N) :
    List (Event (server rkyv) Failure PatchRequest Response Tid) → List (Value N)
  | [] => []
  | .respond _ r (.ok _) :: log => r.patch sonic :: acknowledgedPatches sonic log
  | _ :: log => acknowledgedPatches sonic log

/-- The number of the version that a client has just read. -/
def versionRead : List ((c : Call) × CallRet c) → Option UInt32
  | ⟨.readVersion _ _, .ok x⟩ :: _ => some x.2.versionId
  | _ => none

/-- Only patches of the path are requested. -/
def PatchesPath {rkyv : Rkyv B} (sonic : Sonic N) (path : String) : PatchStep rkyv Tid → Prop
  | .invoke _ r => r.WithoutCas sonic path
  | _ => True

/-- A version is put while the one that its client has read is the current one, and its own
number is not in use; the metadata is read from a healthy storage; the cache loses a record
only when it is the one in RocksDB and no write of its key is pending. -/
def Undisturbed [DecidableEq Tid] {rkyv : Rkyv B} (p : Patchers rkyv Tid) :
    PatchStep rkyv Tid → Prop
  | .act t choices =>
    match p.nextCall t with
    | some (.putVersion path _ _) =>
      versionRead (callTrace t p.log) = some (p.shared.current rkyv path) ∧
        p.shared.current rkyv path + 1 ≠ 0 ∧
        ∀ v ∈ (p.shared.metadata rkyv path).versions, v.versionId ≠ p.shared.current rkyv path + 1
    | some (.readMetadata _) => Healthy choices
    | _ => True
  | .env e => (Turn.env e).Harmless rkyv p.shared
  | _ => True

/-! ## The handler, call by call -/

/-- What a handler does with the result of a call. -/
def onOk {α β : Type} (f : α → HttpM β) : Except EngineError α → HttpM β
  | .ok x => f x
  | .error e => fail (.engine e)

theorem ask_bind {α : Type} (c : Call) (f : CallResult c → HttpM α) :
    ask c >>= f = .call c (onOk f) :=
  Prog.call_congr fun r => by cases r <;> rfl

/-- The answer to a patch whose version is put. -/
def concludePatch (metaAfter : KeyMetadata) : HttpM Response := do
  let latest ← unwrap metaAfter.versions.getLast?
  return .json (patchBody latest)

/-- The rest of a patch that has read the latest version. -/
def storePatch (sonic : Sonic N) (path : String) (r : PatchRequest) (payload : SecretPayload) :
    HttpM Response :=
  match sonic.fromSlice r.body with
  | none => fail (.engine (.storageError "Invalid patch JSON"))
  | some patch => do
    let merged ← unwrap (jsonMergePatch (currentValue sonic payload.value) (patchData patch))
    ask (.putVersion path ⟨sonic.toString merged, payload.ttl⟩ (optionsCas sonic patch))
    let metaAfter ← ask (.readMetadata path)
    concludePatch metaAfter

/-- Where a patch of the path stands, when the path has the current version and the latest
value and the client has just read the version; whether its own version is put. -/
inductive Stage (sonic : Sonic N) (path : String) (current : UInt32) (latest : Option (Value N))
    (read : Option UInt32) (r : PatchRequest) : Bool → HttpM Response → Prop
  | reading : Stage sonic path current latest read r false
      (.call (.readVersion path 0) (onOk fun x => storePatch sonic path r x.1))
  | storing (payload : SecretPayload) (n : UInt32) (hread : read = some n) (hle : n ≤ current)
      (hlatest : n = current → latest = some (currentValue sonic payload.value)) :
      Stage sonic path current latest read r false
        (.call (.putVersion path
          ⟨sonic.toString (mergePatch (some (currentValue sonic payload.value)) (r.patch sonic)),
            payload.ttl⟩ none)
          (onOk fun _ => .call (.readMetadata path) (onOk concludePatch)))
  | stored : Stage sonic path current latest read r true
      (.call (.readMetadata path) (onOk concludePatch))
  | answered (response : Response) : Stage sonic path current latest read r true
      (.done (.ok response))
  | failed (e : Failure) : Stage sonic path current latest read r false (.done (.error e))

section Stages

variable {sonic : Sonic N} {mounted : String → Bool} {path : String} {current : UInt32}
  {latest : Option (Value N)} {read : Option UInt32} {r : PatchRequest}

/-- A request begins with the read, or it has failed. -/
theorem stage_handler (h : r.WithoutCas sonic path) :
    Stage sonic path current latest read r false (r.handler sonic mounted) := by
  unfold PatchRequest.handler patchSecret
  rcases resolve_cases mounted r.uri "data" with hfail | ⟨mount, path', hpath, hok⟩
  · rw [hfail]
    exact .failed _
  · rw [PatchRequest.WithoutCas, hpath] at h
    obtain rfl : path' = path := Option.some.inj h.1
    rw [hok, Prog.ok_bind, ask_bind]
    exact .reading

/-- After the read a request puts its version, or it has failed. -/
theorem stage_storePatch (h : r.WithoutCas sonic path) {payload : SecretPayload} {n : UInt32}
    (hread : read = some n) (hle : n ≤ current)
    (hlatest : n = current → latest = some (currentValue sonic payload.value)) :
    Stage sonic path current latest read r false (storePatch sonic path r payload) := by
  unfold storePatch
  cases hbody : sonic.fromSlice r.body with
  | none => exact .failed _
  | some patch =>
    have hcas : optionsCas sonic patch = none := by
      have hnone := h.2
      rwa [hbody] at hnone
    have hpatch : r.patch sonic = patchData patch := by
      rw [PatchRequest.patch, hbody, Option.map_some, Option.getD_some]
    dsimp only
    rw [jsonMergePatch_eq, hcas, ← hpatch]
    have hstage : Stage sonic path current latest read r false _ :=
      .storing payload n hread hle hlatest
    rw [← ask_bind, ← ask_bind] at hstage
    exact hstage

/-- Where the others stand does not change while the current version stays or grows. -/
theorem Stage.later {accepted : Bool} {current' : UInt32} {latest' : Option (Value N)}
    (h : Stage sonic path current latest read r accepted prog) (hle : current ≤ current')
    (hsame : current' = current → latest' = latest) :
    Stage sonic path current' latest' read r accepted prog := by
  cases h with
  | reading => exact .reading
  | storing payload n hread hn hlatest =>
    refine .storing payload n hread (UInt32.le_trans hn hle) fun heq => ?_
    subst heq
    have hcurrent : n = current := UInt32.le_antisymm hn hle
    rw [hsame hcurrent, hlatest hcurrent]
  | stored => exact .stored
  | answered response => exact .answered response
  | failed e => exact .failed e

end Stages

/-! ## The path between two puts -/

/-- Reads find the path as before. -/
structure Unchanged (rkyv : Rkyv B) (path : String) (s s' : KvEngine B) : Prop where
  metadata : s'.view (buildMetaKey path) = s.view (buildMetaKey path)
  latest : readResult rkyv s'.view (.readVersion path 0) =
    readResult rkyv s.view (.readVersion path 0)

section Effects

variable {rkyv : Rkyv B} {path : String} {s s' : KvEngine B}

theorem Unchanged.of_view (h : s'.view = s.view) : Unchanged rkyv path s s' where
  metadata := by rw [h]
  latest := by rw [h]

theorem Unchanged.current (h : Unchanged rkyv path s s') :
    s'.current rkyv path = s.current rkyv path := by
  rw [KvEngine.current, h.metadata, KvEngine.current]

theorem Unchanged.latestValue (h : Unchanged rkyv path s s') (sonic : Sonic N) :
    latestValue sonic rkyv s' path = latestValue sonic rkyv s path := by
  rw [Http.latestValue, h.latest, Http.latestValue]

theorem Unchanged.env (hs : s.Shielded rkyv) {e : EnvStep}
    (he : (Turn.env e).Harmless rkyv s) : Unchanged rkyv path s (s.env e) := by
  cases e with
  | dropEntry key => exact .of_view (KvEngine.view_dropEntry fun hentry => (he hentry).1)
  | worker timeout fails =>
    exact ⟨KvEngine.Covered.view_workerStep hs (not_gone_buildMetaKey rkyv s.view path) _ _,
      hs.readResult_workerStep timeout fails rfl⟩
  | changeSyncMode mode => exact .of_view rfl
  | stop => exact .of_view rfl

/-- A put that fails has written no payload of the current version. -/
theorem Unchanged.putVersion {x : SecretPayload} {cas : Option UInt32} {e : EngineError}
    (herror : (request rkyv s (.putVersion path x cas) choices).1 = .error e) :
    Unchanged rkyv path s (request rkyv s (.putVersion path x cas) choices).2 := by
  have hmetadata := request_putVersion_error herror
    (buildMetaKey_ne_buildVersionKey path path (s.current rkyv path + 1))
  refine ⟨hmetadata, ?_⟩
  rw [readResult_readVersion, readResult_readVersion, hmetadata]
  cases hfound : s.view (buildMetaKey path) with
  | none => rfl
  | some b =>
    have hcurrent : s.current rkyv path = (rkyv.archivedMetadata b).currentVersion := by
      rw [KvEngine.current, hfound, Option.map_some, Option.getD_some]
    have hkey : buildVersionKey path (s.current rkyv path) ≠
        buildVersionKey path (s.current rkyv path + 1) := fun heq => by
      simpa using (buildVersionKey_inj.mp heq).2
    have hpayload := request_putVersion_error herror hkey
    rw [hcurrent] at hpayload
    exact readLocated_congr rkyv hpayload 0 _

/-- The latest version is the current one. -/
theorem versionId_of_latest {payload : SecretPayload} {state : VersionState}
    (h : readResult rkyv s.view (.readVersion path 0) = .ok (.version payload state)) :
    state.versionId = s.current rkyv path := by
  rw [readResult_readVersion] at h
  cases hfound : s.view (buildMetaKey path) with
  | none =>
    rw [hfound] at h
    cases h
  | some b =>
    rw [KvEngine.current, hfound, Option.map_some, Option.getD_some]
    rw [hfound] at h
    exact versionId_of_readLocated h

/-- A read without a number is a read of the current version. -/
theorem readResult_latest {out : Out} (hzero : s.current rkyv path ≠ 0)
    (h : readResult rkyv s.view (.readVersion path (s.current rkyv path)) = .ok out) :
    readResult rkyv s.view (.readVersion path 0) = .ok out := by
  rw [readResult_readVersion] at h ⊢
  cases hfound : s.view (buildMetaKey path) with
  | none =>
    rw [hfound] at h
    cases h
  | some b =>
    have hcurrent : s.current rkyv path = (rkyv.archivedMetadata b).currentVersion := by
      rw [KvEngine.current, hfound, Option.map_some, Option.getD_some]
    have hlocate : locate (s.current rkyv path) (rkyv.archivedMetadata b) =
        locate 0 (rkyv.archivedMetadata b) := by
      unfold locate
      rw [if_neg hzero, if_pos rfl, hcurrent]
    rw [hfound] at h
    dsimp only at h ⊢
    rw [hlocate] at h
    exact readLocated_ok h 0

section Created

variable {x : SecretPayload} (h : Created rkyv s s' path x)

include h

theorem current_of_created : s'.current rkyv path = s.current rkyv path + 1 := by
  obtain ⟨b, b', created, -, hmetadata, hview⟩ := h
  rw [KvEngine.current, hview, Function.update_self, Option.map_some, Option.getD_some, hmetadata,
    KeyMetadata.grown, KvEngine.metadata_currentVersion]

/-- The metadata lists the new version. -/
theorem listed_of_created : ∃ b, s'.view (buildMetaKey path) = some b ∧
    (deserializeMetadata rkyv b).versions ≠ [] := by
  obtain ⟨b, b', created, -, hmetadata, hview⟩ := h
  refine ⟨b', by rw [hview, Function.update_self], ?_⟩
  change (rkyv.archivedMetadata b').versions ≠ []
  rw [hmetadata]
  exact List.append_ne_nil_of_right_ne_nil _ (List.cons_ne_nil _ _)

/-- The payload is the latest value. -/
theorem latestValue_of_created (sonic : Sonic N) (hzero : s.current rkyv path + 1 ≠ 0)
    (hnew : ∀ v ∈ (s.metadata rkyv path).versions, v.versionId ≠ s.current rkyv path + 1) :
    latestValue sonic rkyv s' path = some (currentValue sonic x.value) := by
  have husable : NumberUsable rkyv s path := by
    refine ⟨hzero, fun old hold => ?_⟩
    have hid : old.versionId = s.current rkyv path + 1 := by simpa using List.find?_some hold
    exact (hnew old (List.mem_of_find?_eq_some hold) hid).elim
  obtain ⟨state, -, ⟨-, hread⟩ | ⟨hunusable, -⟩⟩ := readResult_created h
  case inr => exact (hunusable husable).elim
  rw [← current_of_created h] at hzero hread
  rw [Http.latestValue, readResult_latest hzero hread]

end Created

end Effects

/-! ## What the clients have done -/

/-- Where the clients stand: those whose version is put are pending, each with its patch. -/
structure Roster (sonic : Sonic N) (path : String) (current : UInt32) (latest : Option (Value N))
    (read : Tid → Option UInt32) (client : Tid → Option (PatchRequest × HttpM Response))
    (pending : List (Tid × Value N)) : Prop where
  clients : ∀ t r prog, client t = some (r, prog) → r.WithoutCas sonic path ∧
    ∃ accepted, Stage sonic path current latest (read t) r accepted prog ∧
      (accepted = true → (t, r.patch sonic) ∈ pending) ∧
      (accepted = false → ∀ v, (t, v) ∉ pending)
  owners : ∀ x ∈ pending, client x.1 ≠ none
  nodup : (pending.map Prod.fst).Nodup

variable {r : PatchRequest}

section Rosters

variable [DecidableEq Tid] {sonic : Sonic N} {path : String} {current current' : UInt32}
  {latest latest' : Option (Value N)} {read read' : Tid → Option UInt32}
  {client : Tid → Option (PatchRequest × HttpM Response)} {pending pending' : List (Tid × Value N)}

/-- One client moves; the others stay where they are while the current version stays or grows. -/
theorem Roster.move (h : Roster sonic path current latest read client pending)
    {x : Option (PatchRequest × HttpM Response)} (hle : current ≤ current')
    (hsame : current' = current → latest' = latest) (hread : ∀ t', t' ≠ t → read' t' = read t')
    (hothers : ∀ t' v, t' ≠ t → ((t', v) ∈ pending' ↔ (t', v) ∈ pending))
    (hnodup : (pending'.map Prod.fst).Nodup) (howner : ∀ v, (t, v) ∈ pending' → x ≠ none)
    (hx : ∀ r prog, x = some (r, prog) → r.WithoutCas sonic path ∧
      ∃ accepted, Stage sonic path current' latest' (read' t) r accepted prog ∧
        (accepted = true → (t, r.patch sonic) ∈ pending') ∧
        (accepted = false → ∀ v, (t, v) ∉ pending')) :
    Roster sonic path current' latest' read' (Function.update client t x) pending' where
  clients t' r prog hclient := by
    by_cases ht : t' = t
    · subst ht
      rw [Function.update_self] at hclient
      exact hx r prog hclient
    · rw [Function.update_of_ne ht] at hclient
      obtain ⟨hcas, accepted, hstage, haccepted, hrejected⟩ := h.clients t' r prog hclient
      refine ⟨hcas, accepted, ?_, fun ha => ?_, fun ha v hv => ?_⟩
      · rw [hread t' ht]
        exact hstage.later hle hsame
      · exact (hothers t' _ ht).mpr (haccepted ha)
      · exact hrejected ha v ((hothers t' v ht).mp hv)
  owners y hy := by
    obtain ⟨t', v⟩ := y
    by_cases ht : t' = t
    · subst ht
      rw [Function.update_self]
      exact howner v hy
    · rw [Function.update_of_ne ht]
      exact h.owners (t', v) ((hothers t' v ht).mp hy)
  nodup := hnodup

/-- One client moves while the path stays as it is and no version is put. -/
theorem Roster.advance (h : Roster sonic path current latest read client pending)
    {accepted : Bool} (hcas : r.WithoutCas sonic path)
    (haccepted : accepted = true → (t, r.patch sonic) ∈ pending)
    (hrejected : accepted = false → ∀ v, (t, v) ∉ pending)
    (hread : ∀ t', t' ≠ t → read' t' = read t')
    (hstage : Stage sonic path current latest (read' t) r accepted prog) :
    Roster sonic path current latest read' (Function.update client t (some (r, prog))) pending := by
  refine h.move (UInt32.le_refl current) (fun _ => rfl) hread (fun _ _ _ => Iff.rfl) h.nodup
    (fun _ _ => Option.some_ne_none _) ?_
  rintro r' prog' ⟨⟩
  exact ⟨hcas, accepted, hstage, haccepted, hrejected⟩

/-- A client whose version is not put begins, goes on or fails. -/
theorem Roster.attempt (h : Roster sonic path current latest read client pending)
    (hcas : r.WithoutCas sonic path) (hnot : ∀ v, (t, v) ∉ pending)
    (hread : ∀ t', t' ≠ t → read' t' = read t')
    (hstage : Stage sonic path current latest (read' t) r false prog) :
    Roster sonic path current latest read' (Function.update client t (some (r, prog))) pending := by
  refine h.advance hcas ?_ (fun _ => hnot) hread hstage
  exact fun hfalse => Bool.noConfusion hfalse

/-- A client puts its version. -/
theorem Roster.put (h : Roster sonic path current latest read client pending)
    (hlt : current < current') (hcas : r.WithoutCas sonic path) (hnot : ∀ v, (t, v) ∉ pending)
    (hread : ∀ t', t' ≠ t → read' t' = read t')
    (hstage : Stage sonic path current' latest' (read' t) r true prog) :
    Roster sonic path current' latest' read' (Function.update client t (some (r, prog)))
      ((t, r.patch sonic) :: pending) := by
  refine h.move (UInt32.le_of_lt hlt) (fun heq => absurd heq (UInt32.ne_of_lt hlt).symm) hread
    (fun t' v ht => ?_) ?_ (fun _ _ => Option.some_ne_none _) ?_
  · rw [List.mem_cons, Prod.mk.injEq]
    exact or_iff_right fun heq => ht heq.1
  · refine List.nodup_cons.mpr ⟨fun hmem => ?_, h.nodup⟩
    obtain ⟨⟨t', v⟩, hv, rfl⟩ := List.mem_map.mp hmem
    exact hnot v hv
  · rintro r' prog' ⟨⟩
    exact ⟨hcas, true, hstage, fun _ => List.mem_cons_self, fun hfalse => Bool.noConfusion hfalse⟩

/-- A client whose version is put returns. -/
theorem Roster.acknowledge {before after : List (Tid × Value N)} {v : Value N}
    (h : Roster sonic path current latest read client (before ++ (t, v) :: after))
    (hread : ∀ t', t' ≠ t → read' t' = read t') :
    Roster sonic path current latest read' (Function.update client t none) (before ++ after) := by
  have hperm : (before ++ (t, v) :: after).Perm ((t, v) :: (before ++ after)) := List.perm_middle
  have hnodup : (t :: (before ++ after).map Prod.fst).Nodup :=
    (hperm.map Prod.fst).nodup_iff.mp h.nodup
  have hgone : ∀ v', (t, v') ∉ before ++ after := fun v' hv' =>
    (List.nodup_cons.mp hnodup).1 (List.mem_map.mpr ⟨(t, v'), hv', rfl⟩)
  refine h.move (UInt32.le_refl current) (fun _ => rfl) hread (fun t' v' ht => ?_)
    (List.nodup_cons.mp hnodup).2 (fun v' hv' => absurd hv' (hgone v')) nofun
  rw [hperm.mem_iff, List.mem_cons, Prod.mk.injEq]
  exact (or_iff_right fun heq => ht heq.1).symm

/-- A client whose version is not put returns. -/
theorem Roster.reject (h : Roster sonic path current latest read client pending)
    (hnot : ∀ v, (t, v) ∉ pending) (hread : ∀ t', t' ≠ t → read' t' = read t') :
    Roster sonic path current latest read' (Function.update client t none) pending :=
  h.move (UInt32.le_refl current) (fun _ => rfl) hread (fun _ _ _ => Iff.rfl) h.nodup
    (fun v hv => absurd hv (hnot v)) nofun

end Rosters

/-! ## What the engine holds -/

/-- The latest value is the original one with the applied patches, and once there is one the
metadata lists a version. -/
structure Merged (sonic : Sonic N) (rkyv : Rkyv B) (path : String) (original : Option (Value N))
    (s : KvEngine B) (applied : List (Value N)) : Prop where
  shielded : s.Shielded rkyv
  value : latestValue sonic rkyv s path = original.map fun v => mergeAll v applied
  absent : original = none → applied = []
  listed : applied ≠ [] → ∃ b, s.view (buildMetaKey path) = some b ∧
    (deserializeMetadata rkyv b).versions ≠ []

section Engines

variable {sonic : Sonic N} {rkyv : Rkyv B} {path : String} {original : Option (Value N)}
  {s s' : KvEngine B} {applied : List (Value N)}

theorem Merged.unchanged (h : Merged sonic rkyv path original s applied)
    (hs' : s'.Shielded rkyv) (hsame : Unchanged rkyv path s s') :
    Merged sonic rkyv path original s' applied where
  shielded := hs'
  value := (hsame.latestValue sonic).trans h.value
  absent := h.absent
  listed hne := by
    rw [hsame.metadata]
    exact h.listed hne

theorem mergeAll_append (original : Value N) (patches : List (Value N)) (patch : Value N) :
    mergeAll original (patches ++ [patch]) = mergePatch (some (mergeAll original patches)) patch := by
  rw [mergeAll, List.foldl_append]
  rfl

/-- The version that a patch puts has the latest value with the patch. -/
theorem Merged.put (h : Merged sonic rkyv path original s applied)
    (hsonic : ∀ v, sonic.fromStr (sonic.toString v) = some v) (hs' : s'.Shielded rkyv)
    {latest patch : Value N} {ttl : UInt64}
    (hlatest : latestValue sonic rkyv s path = some latest)
    (hcreated : Created rkyv s s' path ⟨sonic.toString (mergePatch (some latest) patch), ttl⟩)
    (hzero : s.current rkyv path + 1 ≠ 0)
    (hnew : ∀ v ∈ (s.metadata rkyv path).versions, v.versionId ≠ s.current rkyv path + 1) :
    Merged sonic rkyv path original s' (applied ++ [patch]) := by
  rw [h.value] at hlatest
  obtain ⟨v, horiginal, hv⟩ := Option.map_eq_some_iff.mp hlatest
  refine ⟨hs', ?_, fun hnone => ?_, fun _ => listed_of_created hcreated⟩
  · rw [latestValue_of_created hcreated sonic hzero hnew, currentValue, hsonic, Option.getD_some,
      horiginal, Option.map_some, mergeAll_append, hv]
  · rw [horiginal] at hnone
    cases hnone

end Engines

/-! ## The steps of a run -/

/-- Every applied patch is pending or acknowledged, and every such patch is applied. -/
structure NoLostPatch [DecidableEq Tid] {rkyv : Rkyv B} (sonic : Sonic N) (path : String)
    (original : Option (Value N)) (p : Patchers rkyv Tid) (applied : List (Value N))
    (pending : List (Tid × Value N)) : Prop where
  merged : Merged sonic rkyv path original p.shared applied
  roster : Roster sonic path (p.shared.current rkyv path) (latestValue sonic rkyv p.shared path)
    (fun t => versionRead (callTrace t p.log)) p.client pending
  order : applied.Perm (pending.map Prod.snd ++ acknowledgedPatches sonic p.log)

section Steps

variable [DecidableEq Tid] {rkyv : Rkyv B} {sonic : Sonic N} {mounted : String → Bool}
  {path : String} {original : Option (Value N)} {p : Patchers rkyv Tid}
  {applied : List (Value N)} {pending : List (Tid × Value N)}

/-- The calls of the others are not in what one client does. -/
theorem versionRead_act {t' : Tid} (ht : t' ≠ t) (c : Call) (x : CallRet c)
    (log : List (Event (server rkyv) Failure PatchRequest Response Tid)) :
    versionRead (callTrace t' (.act t c x :: log)) = versionRead (callTrace t' log) := by
  rw [callTrace, if_neg ht.symm]

theorem NoLostPatch.invoke (h : NoLostPatch sonic path original p applied pending)
    (hclient : p.client t = none) (hcas : r.WithoutCas sonic path) :
    NoLostPatch sonic path original
      (⟨p.shared, p.setClient t (some (r, r.handler sonic mounted)), .invoke t r :: p.log⟩ :
        Patchers rkyv Tid) applied pending where
  merged := h.merged
  roster := by
    refine h.roster.attempt hcas (fun v hv => h.roster.owners (t, v) hv hclient) (fun t' ht => ?_)
      (stage_handler hcas)
    dsimp only
    rw [callTrace, if_neg ht.symm]
  order := h.order

/-- A read finds the latest version, or the request has failed. -/
theorem NoLostPatch.read (h : NoLostPatch sonic path original p applied pending)
    (hcas : r.WithoutCas sonic path) (hnot : ∀ v, (t, v) ∉ pending) (choices : List Choice) :
    NoLostPatch sonic path original
      (⟨((server rkyv).exec p.shared (.readVersion path 0) choices).2,
        p.setClient t (some (r, onOk (fun x => storePatch sonic path r x.1)
          ((server rkyv).exec p.shared (.readVersion path 0) choices).1)),
        .act t (.readVersion path 0) ((server rkyv).exec p.shared (.readVersion path 0) choices).1
          :: p.log⟩ : Patchers rkyv Tid) applied pending := by
  have hrequest := request_eq_exec rkyv p.shared (.readVersion path 0) choices
  have hfills := request_fills rkyv p.shared (c := .readVersion path 0) choices rfl
  generalize (server rkyv).exec p.shared (.readVersion path 0) choices = ended at hrequest ⊢
  obtain ⟨result, s'⟩ := ended
  rw [hrequest] at hfills
  have hsame : Unchanged rkyv path p.shared s' := .of_view hfills.view
  refine ⟨h.merged.unchanged (h.merged.shielded.fills hfills) hsame, ?_, h.order⟩
  dsimp only
  rw [hsame.current, hsame.latestValue sonic]
  refine h.roster.attempt hcas hnot (fun t' ht => versionRead_act ht _ _ _) ?_
  rw [callTrace, if_pos rfl]
  cases result with
  | error e => exact .failed _
  | ok x =>
    obtain ⟨payload, state⟩ := x
    have hread : readResult rkyv p.shared.view (.readVersion path 0) =
        .ok (.version payload state) := by
      have hok : (request rkyv p.shared (.readVersion path 0) choices).1 =
          .ok (.version payload state) := by
        rw [hrequest]
        rfl
      exact request_read_ok rkyv p.shared rfl hok
    have hnumber := versionId_of_latest hread
    refine stage_storePatch hcas rfl (UInt32.le_of_eq hnumber) fun _ => ?_
    rw [latestValue, hread]

/-- A version is put for the latest value, or the request has failed. -/
theorem NoLostPatch.put (hrkyv : rkyv.Faithful)
    (hsonic : ∀ v, sonic.fromStr (sonic.toString v) = some v)
    (h : NoLostPatch sonic path original p applied pending) (hcas : r.WithoutCas sonic path)
    (hnot : ∀ v, (t, v) ∉ pending) {latest : Value N} {ttl : UInt64}
    (hlatest : latestValue sonic rkyv p.shared path = some latest)
    (hzero : p.shared.current rkyv path + 1 ≠ 0)
    (hnew : ∀ v ∈ (p.shared.metadata rkyv path).versions,
      v.versionId ≠ p.shared.current rkyv path + 1) (choices : List Choice) {c : Call}
    (hc : c = .putVersion path
      ⟨sonic.toString (mergePatch (some latest) (r.patch sonic)), ttl⟩ none)
    (k : CallRet c → HttpM Response)
    (hok : ∀ x, k (.ok x) = .call (.readMetadata path) (onOk concludePatch))
    (herror : ∀ e, k (.error e) = fail (.engine e)) :
    ∃ applied' pending', NoLostPatch sonic path original
      (⟨((server rkyv).exec p.shared c choices).2,
        p.setClient t (some (r, k ((server rkyv).exec p.shared c choices).1)),
        .act t c ((server rkyv).exec p.shared c choices).1 :: p.log⟩ : Patchers rkyv Tid)
      applied' pending' := by
  have hrequest := request_eq_exec rkyv p.shared c choices
  have hshielded : (request rkyv p.shared c choices).2.Shielded rkyv := by
    refine request_shielded hrkyv h.merged.shielded c choices fun path' version heq => ?_
    rw [hc] at heq
    cases heq
  generalize (server rkyv).exec p.shared c choices = ended at hrequest ⊢
  obtain ⟨result, s'⟩ := ended
  rw [hrequest] at hshielded
  cases result with
  | error e =>
    have hsame : Unchanged rkyv path p.shared s' := by
      subst hc
      have hfailed := Unchanged.putVersion (congrArg Prod.fst hrequest)
      rw [hrequest] at hfailed
      exact hfailed
    refine ⟨applied, pending, h.merged.unchanged hshielded hsame, ?_, h.order⟩
    dsimp only
    rw [hsame.current, hsame.latestValue sonic, herror]
    exact h.roster.attempt hcas hnot (fun t' ht => versionRead_act ht _ _ _) (.failed _)
  | ok x =>
    have hcreated : Created rkyv p.shared s' path
        ⟨sonic.toString (mergePatch (some latest) (r.patch sonic)), ttl⟩ := by
      subst hc
      have hcreated := request_putVersion_ok hrkyv (congrArg Prod.fst hrequest)
      rw [hrequest] at hcreated
      exact hcreated
    refine ⟨applied ++ [r.patch sonic], (t, r.patch sonic) :: pending,
      h.merged.put hsonic hshielded hlatest hcreated hzero hnew, ?_, ?_⟩
    · dsimp only
      rw [current_of_created hcreated, hok]
      exact h.roster.put (lt_next hzero) hcas hnot (fun t' ht => versionRead_act ht _ _ _) .stored
    · exact (List.perm_append_singleton _ _).trans (h.order.cons _)

/-- A patch whose version is put is answered. -/
theorem NoLostPatch.conclude (h : NoLostPatch sonic path original p applied pending)
    (hcas : r.WithoutCas sonic path) (hpending : (t, r.patch sonic) ∈ pending)
    (hhealthy : Healthy choices) :
    NoLostPatch sonic path original
      (⟨((server rkyv).exec p.shared (.readMetadata path) choices).2,
        p.setClient t (some (r, onOk concludePatch
          ((server rkyv).exec p.shared (.readMetadata path) choices).1)),
        .act t (.readMetadata path) ((server rkyv).exec p.shared (.readMetadata path) choices).1
          :: p.log⟩ : Patchers rkyv Tid) applied pending := by
  have hne : applied ≠ [] := by
    rintro rfl
    have hmem := h.order.mem_iff.mpr (List.mem_append_left _ (List.mem_map_of_mem hpending))
    exact List.not_mem_nil hmem
  obtain ⟨b, hb, hversions⟩ := h.merged.listed hne
  have hread := request_read rkyv p.shared (c := .readMetadata path) rfl hhealthy
  have hfills := request_fills rkyv p.shared (c := .readMetadata path) choices rfl
  have hfound : readResult rkyv p.shared.view (.readMetadata path) =
      .ok (.metadata (deserializeMetadata rkyv b)) := by
    rw [readResult_readMetadata, hb]
  obtain ⟨m, hm, hexec⟩ := exec_eq_ok rkyv p.shared (hread.trans hfound)
  obtain rfl := Out.metadata.inj hm
  have hsame : Unchanged rkyv path p.shared (request rkyv p.shared (.readMetadata path) choices).2 :=
    .of_view hfills.view
  rw [hexec]
  refine ⟨h.merged.unchanged (h.merged.shielded.fills hfills) hsame, ?_, h.order⟩
  dsimp only
  rw [hsame.current, hsame.latestValue sonic]
  obtain ⟨latest, hlatest⟩ : ∃ latest, (deserializeMetadata rkyv b).versions.getLast? =
      some latest := ⟨_, List.getLast?_eq_some_getLast hversions⟩
  have hanswer : onOk concludePatch (.ok (deserializeMetadata rkyv b)) =
      .done (.ok (.json (patchBody latest))) := by
    rw [onOk, concludePatch, hlatest]
    rfl
  rw [hanswer]
  refine h.roster.advance hcas (fun _ => hpending) ?_ (fun t' ht => versionRead_act ht _ _ _)
    (.answered _)
  exact fun hfalse => Bool.noConfusion hfalse

/-- A client returns: its patch is acknowledged, or it has failed. -/
theorem NoLostPatch.respond (h : NoLostPatch sonic path original p applied pending)
    {result : Except Failure Response} (hclient : p.client t = some (r, .done result)) :
    ∃ pending', NoLostPatch sonic path original
      (⟨p.shared, p.setClient t none, .respond t r result :: p.log⟩ : Patchers rkyv Tid)
      applied pending' := by
  obtain ⟨-, accepted, hstage, haccepted, hrejected⟩ := h.roster.clients t r _ hclient
  cases hstage with
  | answered response =>
    obtain ⟨before, after, hsplit⟩ := List.append_of_mem (haccepted rfl)
    refine ⟨before ++ after, h.merged, ?_, ?_⟩
    · have hroster := h.roster
      rw [hsplit] at hroster
      exact hroster.acknowledge fun _ _ => rfl
    · have horder := h.order
      rw [hsplit] at horder
      refine horder.trans ?_
      rw [acknowledgedPatches]
      simp only [List.map_append, List.map_cons, List.append_assoc, List.cons_append]
      refine List.Perm.append_left _ ?_
      exact List.perm_middle.symm
  | failed e => exact ⟨pending, h.merged, h.roster.reject (hrejected rfl) fun _ _ => rfl, h.order⟩

theorem NoLostPatch.env (hrkyv : rkyv.Faithful)
    (h : NoLostPatch sonic path original p applied pending) {e : EnvStep}
    (he : (Turn.env e).Harmless rkyv p.shared) :
    NoLostPatch sonic path original
      (⟨(server rkyv).env p.shared e, p.client, .env e :: p.log⟩ : Patchers rkyv Tid)
      applied pending := by
  have hsame : Unchanged rkyv path p.shared (p.shared.env e) := .env h.merged.shielded he
  have hshielded : (p.shared.env e).Shielded rkyv :=
    KvEngine.Shielded.turn hrkyv p.shared (.env e) h.merged.shielded he
  refine ⟨h.merged.unchanged hshielded hsame, ?_, h.order⟩
  change Roster sonic path ((p.shared.env e).current rkyv path)
    (latestValue sonic rkyv (p.shared.env e) path) _ p.client pending
  rw [hsame.current, hsame.latestValue sonic]
  exact h.roster

/-- A call of a client, in a step that disturbs no other. -/
theorem NoLostPatch.act (hrkyv : rkyv.Faithful)
    (hsonic : ∀ v, sonic.fromStr (sonic.toString v) = some v)
    (h : NoLostPatch sonic path original p applied pending)
    (hstep : Undisturbed p (.act t choices)) {c : Call} {k : CallRet c → HttpM Response}
    (hclient : p.client t = some (r, .call c k)) :
    ∃ applied' pending', NoLostPatch sonic path original
      (⟨((server rkyv).exec p.shared c choices).2,
        p.setClient t (some (r, k ((server rkyv).exec p.shared c choices).1)),
        .act t c ((server rkyv).exec p.shared c choices).1 :: p.log⟩ : Patchers rkyv Tid)
      applied' pending' := by
  obtain ⟨hcas, accepted, hstage, haccepted, hrejected⟩ := h.roster.clients t r _ hclient
  have hnext : p.nextCall t = some c := by rw [Pool.nextCall, hclient]
  rw [Undisturbed, hnext] at hstep
  cases hstage with
  | reading => exact ⟨applied, pending, h.read hcas (hrejected rfl) choices⟩
  | storing payload n hread hle hlatest =>
    obtain ⟨hcurrent, hzero, hnew⟩ := hstep
    have hn : n = p.shared.current rkyv path := Option.some.inj (hread.symm.trans hcurrent)
    exact h.put hrkyv hsonic hcas (hrejected rfl) (hlatest hn) hzero hnew choices rfl _
      (fun _ => rfl) fun _ => rfl
  | stored => exact ⟨applied, pending, h.conclude hcas (haccepted rfl) hstep⟩

end Steps

/-! ## Runs -/

theorem noLostPatch_init [DecidableEq Tid] {rkyv : Rkyv B} (sonic : Sonic N) (path : String)
    {s : KvEngine B} (hs : s.Shielded rkyv) :
    NoLostPatch sonic path (latestValue sonic rkyv s path) (Pool.init s : Patchers rkyv Tid) []
      [] where
  merged := {
    shielded := hs
    value := Option.map_id'.symm
    absent := fun _ => rfl
    listed := fun hne => (hne rfl).elim }
  roster := {
    clients := fun _ _ _ hclient => (Option.some_ne_none _ hclient.symm).elim
    owners := fun _ hx => (List.not_mem_nil hx).elim
    nodup := List.nodup_nil }
  order := .nil

/-- Patches that put their versions while the one they have read is the current one are all in
the latest value, in some order, and nothing else is. -/
theorem run_noLostPatch [DecidableEq Tid] {rkyv : Rkyv B} (hrkyv : rkyv.Faithful) (sonic : Sonic N)
    (hsonic : ∀ v, sonic.fromStr (sonic.toString v) = some v) (mounted : String → Bool)
    (path : String) (s : KvEngine B) (hs : s.Shielded rkyv) (labels : List (PatchStep rkyv Tid))
    (hsteps : Along (Pool.step (PatchRequest.handler sonic mounted))
      (fun p l => PatchesPath sonic path l ∧ Undisturbed p l) (Pool.init s) labels)
    (p : Patchers rkyv Tid)
    (hp : p = (Pool.init s).run (PatchRequest.handler sonic mounted) labels)
    (hidle : ∀ t, p.client t = none) :
    ∃ order, order.Perm (acknowledgedPatches sonic p.log) ∧
      latestValue sonic rkyv p.shared path =
        (latestValue sonic rkyv s path).map (fun v => mergeAll v order) ∧
      (latestValue sonic rkyv s path = none → order = []) := by
  have hrun : ∃ applied pending,
      NoLostPatch sonic path (latestValue sonic rkyv s path) p applied pending := by
    rw [hp]
    refine Pool.run_invariant (I := fun p => ∃ applied pending,
      NoLostPatch sonic path (latestValue sonic rkyv s path) p applied pending) ?_ ?_ ?_ ?_
      ⟨[], [], noLostPatch_init sonic path hs⟩ hsteps
    · rintro p t r ⟨applied, pending, h⟩ hok hclient
      exact ⟨applied, pending, h.invoke hclient hok.1⟩
    · rintro p t choices r c k ⟨applied, pending, h⟩ hok hclient
      exact h.act hrkyv hsonic hok.2 hclient
    · rintro p t r result ⟨applied, pending, h⟩ _ hclient
      obtain ⟨pending', h'⟩ := h.respond hclient
      exact ⟨applied, pending', h'⟩
    · rintro p e ⟨applied, pending, h⟩ hok
      exact ⟨applied, pending, h.env hrkyv hok.2⟩
  obtain ⟨applied, pending, h⟩ := hrun
  have hnone : pending = [] := List.eq_nil_iff_forall_not_mem.mpr fun x hx =>
    h.roster.owners x hx (hidle x.1)
  have horder := h.order
  rw [hnone] at horder
  exact ⟨applied, horder, h.merged.value, h.merged.absent⟩

/-! ## Two clients -/

instance [DecidableEq B] [DecidableEq Tid] {rkyv : Rkyv B} (p : Patchers rkyv Tid)
    (l : PatchStep rkyv Tid) : Decidable (Undisturbed p l) :=
  match l with
  | .act t choices =>
    show Decidable (match p.nextCall t with
      | some (.putVersion path _ _) =>
        versionRead (callTrace t p.log) = some (p.shared.current rkyv path) ∧
          p.shared.current rkyv path + 1 ≠ 0 ∧
          ∀ v ∈ (p.shared.metadata rkyv path).versions,
            v.versionId ≠ p.shared.current rkyv path + 1
      | some (.readMetadata _) => Healthy choices
      | _ => True) from
    match p.nextCall t with
    | some (.putVersion _ _ _) => inferInstanceAs (Decidable (_ ∧ _ ∧ _))
    | some (.readMetadata _) =>
      inferInstanceAs (Decidable (∀ choice ∈ choices, choice.error = none))
    | none => .isTrue trivial
    | some (.readVersion _ _) => .isTrue trivial
    | some (.softDelete _ _) => .isTrue trivial
    | some (.undelete _ _) => .isTrue trivial
    | some (.destroyVersion _ _) => .isTrue trivial
  | .env (.dropEntry key) => inferInstanceAs (Decidable (p.shared.cache key ≠ none →
      p.shared.rocksdb key = p.shared.cache key ∧ ∀ op ∈ p.shared.pending, op.key ≠ key))
  | .env (.worker _ _) => .isTrue trivial
  | .env (.changeSyncMode _) => .isTrue trivial
  | .env .stop => .isTrue trivial
  | .invoke _ _ => .isTrue trivial
  | .respond _ => .isTrue trivial

instance {rkyv : Rkyv B} (sonic : Sonic N) (path : String) (l : PatchStep rkyv Tid) :
    Decidable (PatchesPath sonic path l) :=
  match l with
  | .invoke _ r => inferInstanceAs (Decidable (r.WithoutCas sonic path))
  | .act _ _ => .isTrue trivial
  | .respond _ => .isTrue trivial
  | .env _ => .isTrue trivial

/-- A patch that sets one member. -/
def settingMember (member : String) : PatchRequest :=
  ⟨⟨"/v1/secret/data/p", none⟩, ("\x7b\"data\":\x7b" ++ member ++ "\x7d\x7d").toUTF8⟩

/-- The first client has made `early` of the three calls of its patch when the second makes all
of its own. -/
def patchRace (early late : ℕ) : List (PatchStep Record.rkyv Bool) :=
  .invoke false (settingMember "\"a\":1") :: List.replicate early (.act false []) ++
    .invoke true (settingMember "\"b\":2") :: List.replicate 3 (.act true []) ++
    .respond true :: List.replicate late (.act false []) ++ [.respond false]

theorem run_noLostPatch_waiting :
    let p : Patchers Record.rkyv Bool :=
      (Pool.init single).run (PatchRequest.handler texts isSecret) (patchRace 0 3)
    (acknowledgedPatches texts p.log).length = 2 ∧
      ∃ order, order.Perm (acknowledgedPatches texts p.log) ∧
        latestValue texts Record.rkyv p.shared "p" =
          (latestValue texts Record.rkyv single "p").map (fun v => mergeAll v order) ∧
        (latestValue texts Record.rkyv single "p" = none → order = []) :=
  ⟨by decide +kernel, run_noLostPatch Record.rkyv_faithful texts decode_print isSecret "p" single
    (shielded_opened _ _ _ _) (patchRace 0 3) (by decide +kernel) _ rfl (by decide +kernel)⟩

/-- Both patches read the first version, and both are answered; the member of the one that is
put first is lost. -/
theorem patchRace_loses_member :
    let p : Patchers Record.rkyv Bool :=
      (Pool.init single).run (PatchRequest.handler texts isSecret) (patchRace 1 2)
    (∀ l ∈ patchRace 1 2, PatchesPath texts "p" l) ∧ (∀ t, p.client t = none) ∧
      acknowledgedPatches texts p.log =
        [.object [("a", .number (.ofNat 1))], .object [("b", .number (.ofNat 2))]] ∧
      latestValue texts Record.rkyv single "p" = some (.object []) ∧
      latestValue texts Record.rkyv p.shared "p" =
        some (.object [("a", .number (.ofNat 1))]) ∧
      ∀ order, order.Perm (acknowledgedPatches texts p.log) →
        latestValue texts Record.rkyv p.shared "p" ≠
          (latestValue texts Record.rkyv single "p").map fun v => mergeAll v order := by
  intro p
  have hanswered : acknowledgedPatches texts p.log =
      [.object [("a", .number (.ofNat 1))], .object [("b", .number (.ofNat 2))]] := by
    decide +kernel
  have hbefore : latestValue texts Record.rkyv single "p" = some (.object []) := by
    decide +kernel
  have hafter : latestValue texts Record.rkyv p.shared "p" =
      some (.object [("a", .number (.ofNat 1))]) := by
    decide +kernel
  refine ⟨by decide +kernel, by decide +kernel, hanswered, hbefore, hafter, fun order horder => ?_⟩
  rw [hanswered] at horder
  rw [hbefore, hafter]
  rcases List.pair_perm.mp horder.symm with rfl | rfl
  · decide +kernel
  · decide +kernel

end Kallisto.Http
