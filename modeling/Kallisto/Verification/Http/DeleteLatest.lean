import Kallisto.Verification.Http.Versions

/-! # Deleting the latest version

`delete_latest` asks for version 0. Reads take 0 for the latest version; deletions look for
a version with the number 0. -/

namespace Kallisto.Http

open Program Engine Interleaving

variable {B : Type}

/-- The request is one for a list with the number 0 alone. -/
theorem deleteLatest_eq {mounted : String → Bool} {uri : Uri} {path : String}
    (h : resolve mounted uri "data" = .done (.ok path)) :
    deleteLatest mounted uri = VersionsRequest.softDelete.answer path [0] := by
  rw [deleteLatest, h]
  exact Prog.call_congr fun r => by cases r <;> rfl

/-! ## Reads after the request -/

/-- Every version is read as before, and the metadata of every other path. -/
structure ReadsKept (rkyv : Rkyv B) (path : String) (s s' : KvEngine B) : Prop where
  versions : ∀ path' number, (request rkyv s' (.readVersion path' number) []).1 =
    (request rkyv s (.readVersion path' number) []).1
  paths : ∀ path', path' ≠ path →
    (request rkyv s' (.readMetadata path') []).1 = (request rkyv s (.readMetadata path') []).1

section Reads

variable {rkyv : Rkyv B} {s s' : KvEngine B} {path : String}

theorem readsKept_of_fills (h : s.Fills s') : ReadsKept rkyv path s s' := by
  constructor
  · intro path' number
    rw [request_read rkyv _ rfl .nil, request_read rkyv _ rfl .nil, h.view]
  · intro path' _
    rw [request_read rkyv _ rfl .nil, request_read rkyv _ rfl .nil, h.view]

/-- Reads never look for the number 0. -/
theorem locate_updated_zero {m : KeyMetadata} {f : VersionState → VersionState}
    (hf : ∀ v, (f v).versionId = v.versionId) (hcurrent : m.currentVersion ≠ 0) (number : UInt32) :
    locate number (m.updated 0 f) = locate number m := by
  have htarget : (if number = 0 then m.currentVersion else number) ≠ 0 := by
    split
    · exact hcurrent
    · assumption
  have hfound : findVersion _ (m.updated 0 f) = _ :=
    findVersion_updated hf (if number = 0 then m.currentVersion else number) m
  rw [if_neg htarget, Option.map_id] at hfound
  exact Prod.ext rfl hfound

theorem readsKept_of_updated {b : B} {f : VersionState → VersionState}
    (hf : ∀ v, (f v).versionId = v.versionId) (hcurrent : s.current rkyv path ≠ 0)
    (hb : rkyv.archivedMetadata b = (s.metadata rkyv path).updated 0 f)
    (hview : s'.view = Function.update s.view (buildMetaKey path) (some b)) :
    ReadsKept rkyv path s s' := by
  have hother : ∀ {path'}, path' ≠ path →
      s'.view (buildMetaKey path') = s.view (buildMetaKey path') := fun hpath => by
    rw [hview, Function.update_of_ne fun heq => hpath (buildMetaKey_inj.mp heq)]
  constructor
  · intro path' number
    rw [request_read rkyv _ rfl .nil, request_read rkyv _ rfl .nil, readResult_readVersion,
      readResult_readVersion]
    have hpayload : ∀ located, readLocated rkyv s'.view path' number located =
        readLocated rkyv s.view path' number located := fun ⟨target, found⟩ =>
      readLocated_congr rkyv (by
        rw [hview, Function.update_of_ne (buildMetaKey_ne_buildVersionKey _ _ _).symm]) number found
    by_cases hpath : path' = path
    · subst hpath
      cases hstored : s.view (buildMetaKey path') with
      | none =>
        rw [KvEngine.current, hstored] at hcurrent
        exact (hcurrent rfl).elim
      | some b₀ =>
        have hm : s.metadata rkyv path' = deserializeMetadata rkyv b₀ := by
          rw [KvEngine.metadata, hstored]
          rfl
        have hne : (s.metadata rkyv path').currentVersion ≠ 0 := by
          rwa [s.metadata_currentVersion rkyv path']
        rw [hview, Function.update_self, ← hview]
        dsimp only
        rw [hpayload, hb, locate_updated_zero hf hne, hm]
        rfl
    · rw [hother hpath]
      simp only [hpayload]
  · intro path' hpath
    rw [request_read rkyv _ rfl .nil, request_read rkyv _ rfl .nil, readResult_readMetadata,
      readResult_readMetadata, hother hpath]

/-- Whatever becomes of the call, reads find what they did. -/
theorem readsKept_of_ends {given : Choice → Prop} {r : Except EngineError Out}
    (h : VersionsRequest.softDelete.Ends rkyv given s path 0 r s')
    (hcurrent : s.current rkyv path ≠ 0) : ReadsKept rkyv path s s' := by
  cases h with
  | failed hfills hwhy => exact readsKept_of_fills hfills
  | halfway hfills hvalid hwhy => exact readsKept_of_fills hfills
  | @marked s₁ b now hfills hvalid hnow hb =>
    refine readsKept_of_updated (f := VersionsRequest.softDelete.mark now) (fun _ => rfl) hcurrent hb
      ?_
    exact (KvEngine.view_accept_put s₁ _ b).trans (by rw [hfills.view])

/-- A version that is read as deleted or destroyed is. -/
theorem readLocated_eq_deleted {records : String → Option B} {number target : UInt32}
    {v : VersionState} (htarget : target ≠ 0) :
    readLocated rkyv records path number (target, some v) =
        .error (if v.destroyed then .destroyed else .softDeleted) ↔
      v.destroyed = true ∨ 0 < v.deletionTimeMs := by
  rw [readLocated, if_neg htarget]
  cases v.destroyed with
  | true => simp
  | false =>
    by_cases hdeleted : 0 < v.deletionTimeMs
    · simp [hdeleted]
    · cases records (buildVersionKey path target) <;> simp [hdeleted]

/-- The latest version is read by its number and by 0. -/
theorem request_latest {n number : UInt32} {v : VersionState} (hn : s.current rkyv path = n)
    (hne : n ≠ 0) (hv : findVersion n (s.metadata rkyv path) = some v)
    (hnumber : number = 0 ∨ number = n) :
    (request rkyv s (.readVersion path number) []).1 =
      readLocated rkyv s.view path number (n, some v) := by
  rw [request_read rkyv _ rfl .nil, readResult_readVersion]
  cases hstored : s.view (buildMetaKey path) with
  | none =>
    rw [KvEngine.current, hstored] at hn
    exact (hne hn.symm).elim
  | some b =>
    have hcurrent : (rkyv.archivedMetadata b).currentVersion = n := by
      rwa [KvEngine.current, hstored] at hn
    have hv' : findVersion n (rkyv.archivedMetadata b) = some v := by
      rw [KvEngine.metadata, hstored] at hv
      exact hv
    have htarget : (if number = 0 then (rkyv.archivedMetadata b).currentVersion else number) = n := by
      rcases hnumber with rfl | rfl
      · exact (if_pos rfl).trans hcurrent
      · exact if_neg hne
    dsimp only
    rw [locate, htarget, ← hv']
    rfl

end Reads

/-! ## The latest version -/

/-- A deletion of the latest version as it should be: the version is not read any more, by
its number or as the latest, and everything else is read as before. -/
structure LatestDeleted (rkyv : Rkyv B) (s : KvEngine B) (path : String) (n : UInt32)
    (ended : Except Failure Response × KvEngine B) : Prop where
  succeeds : ended.1 = .ok .noContent
  latest : ∃ v, findVersion n (s.metadata rkyv path) = some v ∧ ∀ number, number = 0 ∨ number = n →
    (request rkyv ended.2 (.readVersion path number) []).1 =
      .error (if v.destroyed then .destroyed else .softDeleted)
  versions : ∀ number, number ≠ 0 → number ≠ n →
    (request rkyv ended.2 (.readVersion path number) []).1 =
      (request rkyv s (.readVersion path number) []).1
  paths : ∀ path', path' ≠ path →
    (∀ number, (request rkyv ended.2 (.readVersion path' number) []).1 =
      (request rkyv s (.readVersion path' number) []).1) ∧
    (request rkyv ended.2 (.readMetadata path') []).1 = (request rkyv s (.readMetadata path') []).1

/-- Without a version that has the number 0 the request fails, and every version is read as before.
With one it is that version that is deleted, so the latest version is as it should be only when it
was deleted or destroyed before. -/
theorem deleteLatest_deletes_latest {rkyv : Rkyv B} (hrkyv : rkyv.Faithful)
    (mounted : String → Bool) (uri : Uri) (s : KvEngine B) (choices : List (List Choice))
    (mount path : String) (hpath : extractMountAndPath uri.path "data" = some (mount, path))
    (hmount : mounted mount = true) (n : UInt32) (hn : s.current rkyv path = n) (hpos : 0 < n)
    (hclock : Clocked choices) :
    let ended := handle rkyv s (deleteLatest mounted uri) choices
    (findVersion 0 (s.metadata rkyv path) = none →
      (∃ failure, ended.1 = .error failure) ∧ ReadsKept rkyv path s ended.2) ∧
    ((∀ given ∈ choices, Healthy given) → s.Room 1 →
      (LatestDeleted rkyv s path n ended ↔
        (∃ v, findVersion 0 (s.metadata rkyv path) = some v) ∧
          ∃ v, findVersion n (s.metadata rkyv path) = some v ∧
            (v.destroyed = true ∨ 0 < v.deletionTimeMs))) := by
  intro ended
  have hne : n ≠ 0 := by
    rintro rfl
    exact absurd hpos (by decide)
  have hends := VersionsRequest.request_ends hrkyv .softDelete s path 0 hclock.head
  have hkept := readsKept_of_ends hends (hn ▸ hne)
  have hended : ended = handle rkyv s (VersionsRequest.softDelete.answer path [0]) choices := by
    change handle rkyv s (deleteLatest mounted uri) choices = _
    rw [deleteLatest_eq (resolve_of_mounted hpath hmount)]
  have hvalid : VersionsRequest.softDelete.Valid rkyv s path 0 ↔
      ∃ v, findVersion 0 (s.metadata rkyv path) = some v := by
    refine ⟨fun ⟨m, hm, _⟩ => ?_, fun ⟨v, hv⟩ => VersionsRequest.valid_of_some hv nofun⟩
    obtain ⟨v, hv, -⟩ := Option.map_eq_some_iff.mp hm
    exact ⟨v, hv⟩
  rcases VersionsRequest.handle_answer_cons s 0 [] choices
    with ⟨e, hrequest, heq⟩ | ⟨⟨out, hrequest⟩, heq⟩
  · rw [heq] at hended
    rw [hended]
    refine ⟨fun _ => ⟨⟨_, rfl⟩, hkept⟩, fun hhealthy hroom => iff_of_false ?_ ?_⟩
    · exact fun h => nomatch h.succeeds
    · rintro ⟨hzero, -⟩
      have hok := hends.ok (healthy_head hhealthy).not_faulty hroom (hvalid.mpr hzero)
      exact nomatch hrequest.symm.trans hok
  · replace hended : ended = (.ok .noContent, _) := hended.trans heq
    rw [hrequest] at hends
    have hzero := hvalid.mp hends.valid
    rw [hended]
    refine ⟨fun hnone => ?_, fun _ _ => ⟨fun h => ⟨hzero, ?_⟩, fun h => ?_⟩⟩
    · obtain ⟨v, hv⟩ := hzero
      exact nomatch hnone.symm.trans hv
    · obtain ⟨v, hv, hread⟩ := h.latest
      have hdeleted := hread n (Or.inr rfl)
      rw [hkept.versions, request_latest hn hne hv (Or.inr rfl)] at hdeleted
      exact ⟨v, hv, (readLocated_eq_deleted hne).mp hdeleted⟩
    · obtain ⟨-, v, hv, hdeleted⟩ := h
      refine ⟨rfl, ⟨v, hv, fun number hnumber => ?_⟩, fun number _ _ => hkept.versions path number,
        fun path' hpath => ⟨hkept.versions path', hkept.paths path' hpath⟩⟩
      rw [hkept.versions, request_latest hn hne hv hnumber]
      exact (readLocated_eq_deleted hne).mpr hdeleted

/-- The numbers have wrapped around: version 1, deleted, comes after version 0. -/
def wrapped : KvEngine Record :=
  .opened (Function.update (fun _ => none) (buildMetaKey "p")
    (some (.metadata { KeyMetadata.default with
      currentVersion := 1, versions := [⟨1, 0, 0, false⟩, ⟨1, 2, 1, false⟩] }))) .immediate ["p"]

theorem deleteLatest_deletes_latest_wrapped :
    LatestDeleted Record.rkyv wrapped "p" 1
      (handle Record.rkyv wrapped (deleteLatest isSecret ⟨"/v1/secret/data/p", none⟩) []) :=
  ((deleteLatest_deletes_latest Record.rkyv_faithful isSecret ⟨"/v1/secret/data/p", none⟩ wrapped []
    "secret" "p" (by decide +kernel) (by decide +kernel) 1 (by decide +kernel) (by decide) nofun).2
    nofun (fun hmode => absurd hmode (by decide +kernel))).mpr
    ⟨⟨⟨1, 0, 0, false⟩, by decide +kernel⟩, ⟨1, 2, 1, false⟩, by decide +kernel, Or.inr (by decide)⟩

/-- One version of one path is written. -/
def onePut : List (Step Record Unit) :=
  requesting () (.putVersion "p" ⟨"x", 0⟩ none) 10

/-- Asked to delete the latest version, the server answers that there is no version 0, and
the version is read as before. -/
theorem deleteLatest_fails :
    let s := ((Clients.opened (fun _ => none) .immediate []).run (body Record.rkyv) onePut).shared
    let ended := handle Record.rkyv s (deleteLatest isSecret ⟨"/v1/secret/data/p", none⟩) []
    s.current Record.rkyv "p" = 1 ∧
      ended.1 = .error (.error (.engine (.invalidVersion 0))) ∧
      (request Record.rkyv ended.2 (.readVersion "p" 0) []).1 =
        .ok (.version ⟨"x", 0⟩ ⟨1, 0, 1, false⟩) := by
  decide +kernel

end Kallisto.Http
