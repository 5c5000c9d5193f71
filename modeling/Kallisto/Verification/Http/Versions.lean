import Kallisto.Verification.Engine.Pending
import Kallisto.Verification.Http.Handling
import Kallisto.Verification.Http.Texts

/-! # Requests about lists of versions

The calls for the listed versions are made in turn, and the first error ends the request. -/

namespace Kallisto.Http

open Program Engine Json

variable {B N : Type} {choices : List (List Choice)}

/-! ## Requests -/

/-- The requests that name a list of versions. -/
inductive VersionsRequest where
  | softDelete
  | undelete
  | destroy

namespace VersionsRequest

def action : VersionsRequest → String
  | softDelete => "delete"
  | undelete => "undelete"
  | destroy => "destroy"

/-- The call of the engine for one version. -/
def call : VersionsRequest → String → UInt32 → Call
  | softDelete => Call.softDelete
  | undelete => Call.undelete
  | destroy => Call.destroyVersion

/-- The call for one version, from a handler. -/
def askFor (kind : VersionsRequest) (path : String) (version : UInt32) : HttpM Unit :=
  ask (kind.call path version) >>= fun _ => return ()

/-- How many writes the call makes. -/
def writes : VersionsRequest → ℕ
  | softDelete => 1
  | undelete => 1
  | destroy => 2

def handler (sonic : Sonic N) (mounted : String → Bool) :
    VersionsRequest → Uri → ByteArray → HttpM Response
  | softDelete => softDeleteVersions sonic mounted
  | undelete => undeleteVersions sonic mounted
  | destroy => destroyVersions sonic mounted

theorem handler_eq (kind : VersionsRequest) (sonic : Sonic N) (mounted : String → Bool) (uri : Uri)
    (body : ByteArray) : kind.handler sonic mounted uri body =
      versionsHandler sonic mounted kind.action kind.askFor uri body := by
  cases kind <;> refine congrArg (versionsHandler sonic mounted _ · uri body) ?_ <;>
    exact funext fun path => funext fun version => Prog.call_congr fun r => by cases r <;> rfl

end VersionsRequest

/-! ## Deleted and destroyed versions -/

structure Marks where
  deleted : Bool
  destroyed : Bool
  deriving DecidableEq

def marks (v : VersionState) : Marks :=
  ⟨0 < v.deletionTimeMs, v.destroyed⟩

/-- The marks of a version, if the path has it. -/
def marksAt (rkyv : Rkyv B) (s : KvEngine B) (path : String) (version : UInt32) : Option Marks :=
  (findVersion version (s.metadata rkyv path)).map marks

/-- No version of the path has changed its marks or lost its payload: neither the one that reads
find nor the one that RocksDB holds once the queue is drained. -/
structure VersionsKept (rkyv : Rkyv B) (path : String) (s s' : KvEngine B) : Prop where
  marks : ∀ n, marksAt rkyv s' path n = marksAt rkyv s path n
  found : ∀ n m, marksAt rkyv s path n = some m → m.destroyed = false →
    s'.view (buildVersionKey path n) = s.view (buildVersionKey path n)
  stored : ∀ n, s'.settled (buildVersionKey path n) = s.settled (buildVersionKey path n)

section Kept

variable {rkyv : Rkyv B} {path : String} {s s' s'' : KvEngine B}

theorem VersionsKept.trans (h : VersionsKept rkyv path s s') (h' : VersionsKept rkyv path s' s'') :
    VersionsKept rkyv path s s'' where
  marks n := (h'.marks n).trans (h.marks n)
  found n m hm hlive := (h'.found n m ((h.marks n).trans hm) hlive).trans (h.found n m hm hlive)
  stored n := (h'.stored n).trans (h.stored n)

theorem marksAt_of_view (h : s'.view (buildMetaKey path) = s.view (buildMetaKey path)) (n : UInt32) :
    marksAt rkyv s' path n = marksAt rkyv s path n := by
  rw [marksAt, KvEngine.metadata, h, marksAt, KvEngine.metadata]

theorem settled_of_fills (h : s.Fills s') : s'.settled = s.settled := by
  rw [h.rest]
  rfl

theorem versionsKept_of_fills (h : s.Fills s') : VersionsKept rkyv path s s' where
  marks n := marksAt_of_view (congrFun h.view _) n
  found _ _ _ _ := congrFun h.view _
  stored _ := congrFun (settled_of_fills h) _

/-- An accepted write settles its own key only. -/
theorem settled_accept_of_ne (s : KvEngine B) {op : AsyncOp B} {key : String} (h : key ≠ op.key) :
    (s.accept op).settled key = s.settled key := by
  cases hmode : s.syncMode with
  | immediate =>
    rw [KvEngine.accept_immediate hmode, KvEngine.settled, applyBatch, WriteBehind.writeAll_apply,
      KvEngine.settled, applyBatch, WriteBehind.writeAll_apply]
    exact congrArg _ (AsyncOp.apply_of_ne s.rocksdb h)
  | batch =>
    rw [KvEngine.accept_batch hmode]
    exact (congrFun (KvEngine.settled_enqueue s op) key).trans (AsyncOp.apply_of_ne s.settled h)

/-- A payload that is gone stays gone when it is deleted. -/
theorem settled_accept_delete {key : String} (h : s.settled key = none) :
    (s.accept (.delete key)).settled key = none := by
  cases hmode : s.syncMode with
  | immediate =>
    rw [KvEngine.accept_immediate hmode]
    exact WriteBehind.writeAll_eq_none h (AsyncOp.apply_key s.rocksdb (.delete key))
  | batch =>
    rw [KvEngine.accept_batch hmode]
    exact (congrFun (KvEngine.settled_enqueue s _) key).trans
      (AsyncOp.apply_key s.settled (.delete key))

/-- Nothing is left in the queue from another mode. -/
def Drained (s : KvEngine B) : Prop :=
  s.syncMode = .immediate → s.pending = []

theorem Drained.accept (h : Drained s) (op : AsyncOp B) : Drained (s.accept op) := by
  intro hmode
  rw [KvEngine.accept_immediate (s := s) hmode]
  exact h hmode

end Kept

/-! ## What the calls meet -/

/-- The times that the calls meet are positive. -/
def Clocked (choices : List (List Choice)) : Prop :=
  ∀ given ∈ choices, ∀ choice ∈ given, 0 < choice.now

theorem Clocked.head (h : Clocked choices) : ∀ choice ∈ choices.headD [], 0 < choice.now := by
  cases choices with
  | nil => exact nofun
  | cons given choices => exact h given List.mem_cons_self

theorem healthy_head (h : ∀ given ∈ choices, Healthy given) : Healthy (choices.headD []) := by
  cases choices with
  | nil => exact .nil
  | cons given choices => exact h given List.mem_cons_self

theorem Clocked.tail (h : Clocked choices) : Clocked choices.tail :=
  fun given hmem => h given (List.mem_of_mem_tail hmem)

/-! ## The call for one version -/

namespace VersionsRequest

variable {n : UInt32}

/-- The call for the version is not refused for what the metadata says. -/
def Valid (kind : VersionsRequest) (rkyv : Rkyv B) (s : KvEngine B) (path : String)
    (version : UInt32) : Prop :=
  ∃ m, marksAt rkyv s path version = some m ∧ (kind = undelete → m.destroyed = false)

/-- The version is already as the call would leave it. -/
def Done (kind : VersionsRequest) (rkyv : Rkyv B) (s : KvEngine B) (path : String)
    (version : UInt32) : Prop :=
  ∃ m, marksAt rkyv s path version = some m ∧
    match kind with
    | softDelete => m.deleted = true
    | undelete => m.deleted = false
    | destroy => m.destroyed = true ∧ s.settled (buildVersionKey path version) = none

def mark (kind : VersionsRequest) (now : UInt64) (v : VersionState) : VersionState :=
  match kind with
  | softDelete => { v with deletionTimeMs := now }
  | undelete => { v with deletionTimeMs := 0 }
  | destroy => { v with destroyed := true }

def set (kind : VersionsRequest) (m : Marks) : Marks :=
  match kind with
  | softDelete => { m with deleted := true }
  | undelete => { m with deleted := false }
  | destroy => { m with destroyed := true }

/-- The payload of a destroyed version is deleted before the version is marked. -/
def discard (kind : VersionsRequest) (s : KvEngine B) (path : String) (version : UInt32) :
    KvEngine B :=
  match kind with
  | softDelete => s
  | undelete => s
  | destroy => s.accept (.delete (buildVersionKey path version))

/-- How the call for one version ends: nothing was written, or nothing but the deletion of the
payload, or the version is marked. -/
inductive Ends (kind : VersionsRequest) (rkyv : Rkyv B) (given : Choice → Prop) (s : KvEngine B)
    (path : String) (version : UInt32) : Except EngineError Out → KvEngine B → Prop where
  | failed {e : EngineError} {s' : KvEngine B} (hfills : s.Fills s')
      (hwhy : Faulty given ∨ s.Full ∨ ¬ kind.Valid rkyv s path version) :
      Ends kind rkyv given s path version (.error e) s'
  | halfway {e : EngineError} {s₁ : KvEngine B} (hfills : s.Fills s₁)
      (hvalid : kind.Valid rkyv s path version)
      (hwhy : Faulty given ∨ (kind.discard s₁ path version).Full) :
      Ends kind rkyv given s path version (.error e) (kind.discard s₁ path version)
  | marked {s₁ : KvEngine B} {b : B} {now : UInt64} (hfills : s.Fills s₁)
      (hvalid : kind.Valid rkyv s path version) (hnow : 0 < now)
      (hb : rkyv.archivedMetadata b = (s.metadata rkyv path).updated version (kind.mark now)) :
      Ends kind rkyv given s path version (.ok .unit)
        ((kind.discard s₁ path version).accept (.put (buildMetaKey path) b))

section Call

variable {kind : VersionsRequest} {rkyv : Rkyv B} {given : Choice → Prop} {s s' : KvEngine B}
  {path : String} {version : UInt32} {r : Except EngineError Out}

/-- The metadata is stored with the version marked, or the call fails. -/
theorem ends_store (kind : VersionsRequest) (now : UInt64) (hrkyv : rkyv.Faithful)
    {s₁ : KvEngine B} {writes : List (AsyncOp B)} (hfills : s.Fills s₁)
    (hvalid : kind.Valid rkyv s path version) (hnow : 0 < now)
    (h : (storeMetadataScript rkyv path ((s.metadata rkyv path).updated version (kind.mark now))
      (.finish (.ok .unit))).Ends given (kind.discard s₁ path version) r s' writes) :
    kind.Ends rkyv given s path version r s' := by
  obtain ⟨b, hb, harchived⟩ :=
    hrkyv.metadata ((s.metadata rkyv path).updated version (kind.mark now))
  rcases ends_storeMetadataScript h with ⟨e, rfl, rfl, -, hwhy⟩ | ⟨b', later, hb', -, hrest⟩
  · refine .halfway hfills hvalid (hwhy.imp_right fun hwhy => hwhy.resolve_right ?_)
    rintro ⟨e, herror⟩
    rw [hb] at herror
    cases herror
  · obtain rfl := Except.ok.inj (hb.symm.trans hb')
    cases hrest
    exact .marked hfills hvalid hnow harchived

theorem not_valid_of_none (h : findVersion version (s.metadata rkyv path) = none) :
    ¬ kind.Valid rkyv s path version := by
  rintro ⟨m, hm, -⟩
  rw [marksAt, h] at hm
  cases hm

theorem valid_of_some {v : VersionState} (h : findVersion version (s.metadata rkyv path) = some v)
    (hlive : kind = undelete → v.destroyed = false) : kind.Valid rkyv s path version :=
  ⟨marks v, by rw [marksAt, h]; rfl, hlive⟩

/-- The call goes on with the metadata that it finds, or fails. -/
theorem ends_read {k : KeyMetadata → Script B} {writes : List (AsyncOp B)}
    (h : (readMetadataScript rkyv path k).Ends given s r s' writes) :
    kind.Ends rkyv given s path version r s' ∨
      ∃ s₁, s.Fills s₁ ∧ (k (s.metadata rkyv path)).Ends given s₁ r s' writes := by
  rcases ends_readMetadataScript h with ⟨e, rfl, hfills, -, hwhy⟩ | ⟨s₁, b, hfills, hb, hrest⟩
  · refine Or.inl (.failed hfills (hwhy.imp_right fun hnone => Or.inr (not_valid_of_none ?_)))
    rw [KvEngine.metadata, hnone]
    rfl
  · refine Or.inr ⟨s₁, hfills, ?_⟩
    rw [KvEngine.metadata, hb]
    exact hrest

theorem request_ends (hrkyv : rkyv.Faithful) (kind : VersionsRequest) (s : KvEngine B)
    (path : String) (version : UInt32) {choices : List Choice}
    (hclock : ∀ choice ∈ choices, 0 < choice.now) :
    kind.Ends rkyv (Faced choices) s path version (request rkyv s (kind.call path version) choices).1
      (request rkyv s (kind.call path version) choices).2 := by
  have hends := Engine.request_ends rkyv s (kind.call path version) choices
  generalize (request rkyv s (kind.call path version) choices).1 = r at hends ⊢
  generalize (request rkyv s (kind.call path version) choices).2 = s' at hends ⊢
  generalize acceptedWrites rkyv s (kind.call path version) choices = writes at hends
  cases kind with
  | softDelete =>
    unfold call script softDeleteScript at hends
    rcases ends_read hends with hfailed | ⟨s₁, hfills, hrest⟩
    · exact hfailed
    · split at hrest
      · next hnone =>
          cases hrest
          exact .failed hfills (Or.inr (Or.inr (not_valid_of_none hnone)))
      · next v hv =>
          cases hrest with
          | clock choice hgiven hrest =>
            have hnow : 0 < choice.now := by
              rcases hgiven with rfl | hmem
              · decide
              · exact hclock choice hmem
            exact ends_store softDelete choice.now hrkyv hfills (valid_of_some hv nofun) hnow hrest
  | undelete =>
    unfold call script undeleteScript at hends
    rcases ends_read hends with hfailed | ⟨s₁, hfills, hrest⟩
    · exact hfailed
    · split at hrest
      · next hnone =>
          cases hrest
          exact .failed hfills (Or.inr (Or.inr (not_valid_of_none hnone)))
      · next v hv =>
          split at hrest
          · next hdestroyed =>
              cases hrest
              refine .failed hfills (Or.inr (Or.inr ?_))
              rintro ⟨m, hm, hlive⟩
              rw [marksAt, hv] at hm
              obtain rfl := Option.some.inj hm
              exact Bool.false_ne_true ((hlive rfl).symm.trans hdestroyed)
          · next hlive =>
              exact ends_store undelete 1 hrkyv hfills
                (valid_of_some hv fun _ => Bool.eq_false_of_not_eq_true hlive) (by decide) hrest
  | destroy =>
    unfold call script destroyVersionScript at hends
    rcases ends_read hends with hfailed | ⟨s₁, hfills, hrest⟩
    · exact hfailed
    · split at hrest
      · next hnone =>
          cases hrest
          exact .failed hfills (Or.inr (Or.inr (not_valid_of_none hnone)))
      · next v hv =>
          cases hrest with
          | refused _ _ _ e hwhy =>
            refine .failed hfills (hwhy.imp_right fun hfull => Or.inl ?_)
            rwa [hfills.rest] at hfull
          | write hrest =>
            exact ends_store destroy 1 hrkyv hfills (valid_of_some hv nofun) (by decide) hrest

/-! ### What the call leaves -/

theorem marks_mark (kind : VersionsRequest) {now : UInt64} (hnow : 0 < now) (v : VersionState) :
    marks (kind.mark now v) = kind.set (marks v) := by
  cases kind with
  | softDelete => simp [marks, mark, set, hnow]
  | undelete => rfl
  | destroy => rfl

theorem view_discard (kind : VersionsRequest) (s : KvEngine B) (path : String) (version : UInt32)
    {key : String} (h : kind = destroy → key ≠ buildVersionKey path version) :
    (kind.discard s path version).view key = s.view key := by
  cases kind with
  | softDelete => rfl
  | undelete => rfl
  | destroy => exact KvEngine.view_accept_of_ne s (h rfl)

theorem settled_discard (kind : VersionsRequest) (s : KvEngine B) (path : String)
    (version : UInt32) {key : String} (h : kind = destroy → key ≠ buildVersionKey path version) :
    (kind.discard s path version).settled key = s.settled key := by
  cases kind with
  | softDelete => rfl
  | undelete => rfl
  | destroy => exact settled_accept_of_ne s (h rfl)

/-- The call marks its version when it succeeds, and no other. -/
theorem Ends.marksAt (h : kind.Ends rkyv given s path version r s') (n : UInt32) :
    (∃ e, r = .error e) ∧ marksAt rkyv s' path n = marksAt rkyv s path n ∨
      r = .ok .unit ∧ kind.Valid rkyv s path version ∧
        Http.marksAt rkyv s' path n =
          (Http.marksAt rkyv s path n).map (if n = version then kind.set else id) := by
  have hdiscard : ∀ {s₁ : KvEngine B}, s.Fills s₁ → Http.marksAt rkyv (kind.discard s₁ path version)
      path n = Http.marksAt rkyv s path n := by
    intro s₁ hfills
    refine marksAt_of_view ?_ n
    rw [view_discard kind s₁ path version fun _ => buildMetaKey_ne_buildVersionKey _ _ _, hfills.view]
  cases h with
  | failed hfills hwhy => exact Or.inl ⟨⟨_, rfl⟩, marksAt_of_view (congrFun hfills.view _) n⟩
  | halfway hfills hvalid hwhy => exact Or.inl ⟨⟨_, rfl⟩, hdiscard hfills⟩
  | @marked s₁ b now hfills hvalid hnow hb =>
    refine Or.inr ⟨rfl, hvalid, ?_⟩
    have hid : ∀ v : VersionState, (kind.mark now v).versionId = v.versionId := by
      cases kind <;> exact fun _ => rfl
    have hfind : findVersion n (rkyv.archivedMetadata b) = _ :=
      (congrArg (findVersion n) hb).trans (findVersion_updated hid n _)
    have hstored : findVersion n (((kind.discard s₁ path version).accept
        (.put (buildMetaKey path) b)).metadata rkyv path) =
        findVersion n (rkyv.archivedMetadata b) := by
      rw [KvEngine.metadata, KvEngine.view_accept_put, Function.update_self]
      rfl
    rw [Http.marksAt, hstored, hfind, Http.marksAt, Option.map_map, Option.map_map]
    refine congrArg (Option.map · _) (funext fun v => ?_)
    split
    · exact marks_mark kind hnow v
    · rfl

/-- The payloads of other versions stay as they are. -/
theorem Ends.payload (h : kind.Ends rkyv given s path version r s')
    (hn : kind = destroy → n ≠ version) :
    s'.view (buildVersionKey path n) = s.view (buildVersionKey path n) ∧
      s'.settled (buildVersionKey path n) = s.settled (buildVersionKey path n) := by
  have hkey : kind = destroy → buildVersionKey path n ≠ buildVersionKey path version :=
    fun hkind heq => hn hkind (buildVersionKey_inj.mp heq).2
  have hmeta := (buildMetaKey_ne_buildVersionKey path path n).symm
  cases h with
  | failed hfills hwhy => exact ⟨congrFun hfills.view _, congrFun (settled_of_fills hfills) _⟩
  | halfway hfills hvalid hwhy =>
    rw [view_discard kind _ path version hkey, settled_discard kind _ path version hkey, hfills.view,
      settled_of_fills hfills]
    exact ⟨rfl, rfl⟩
  | marked hfills hvalid hnow hb =>
    rw [KvEngine.view_accept_of_ne _ hmeta, settled_accept_of_ne _ hmeta,
      view_discard kind _ path version hkey, settled_discard kind _ path version hkey, hfills.view,
      settled_of_fills hfills]
    exact ⟨rfl, rfl⟩

/-- A payload that is gone stays gone. -/
theorem Ends.gone (h : kind.Ends rkyv given s path version r s')
    (hn : s.settled (buildVersionKey path n) = none) :
    s'.settled (buildVersionKey path n) = none := by
  by_cases hown : kind = destroy ∧ n = version
  · obtain ⟨rfl, rfl⟩ := hown
    have hmeta := (buildMetaKey_ne_buildVersionKey path path n).symm
    cases h with
    | failed hfills hwhy => rwa [settled_of_fills hfills]
    | halfway hfills hvalid hwhy => exact settled_accept_delete (by rwa [settled_of_fills hfills])
    | marked hfills hvalid hnow hb =>
      rw [settled_accept_of_ne _ hmeta]
      exact settled_accept_delete (by rwa [settled_of_fills hfills])
  · rw [(h.payload fun hkind heq => hown ⟨hkind, heq⟩).2]
    exact hn

theorem Ends.done (h : kind.Ends rkyv given s path version r s') (hn : kind.Done rkyv s path n) :
    kind.Done rkyv s' path n := by
  obtain ⟨m, hm, hdone⟩ := hn
  have hafter : Http.marksAt rkyv s' path n = some m ∨
      Http.marksAt rkyv s' path n = some (kind.set m) := by
    rcases h.marksAt n with ⟨-, hsame⟩ | ⟨-, -, hset⟩
    · exact Or.inl (hsame.trans hm)
    · rw [hset, hm]
      split
      · exact Or.inr rfl
      · exact Or.inl rfl
  rcases hafter with hm' | hm'
  · refine ⟨m, hm', ?_⟩
    cases kind with
    | softDelete => exact hdone
    | undelete => exact hdone
    | destroy => exact ⟨hdone.1, h.gone hdone.2⟩
  · refine ⟨kind.set m, hm', ?_⟩
    cases kind with
    | softDelete => rfl
    | undelete => rfl
    | destroy => exact ⟨rfl, h.gone hdone.2⟩

/-- A call for a version that is refused, or that is already as the call would leave it. -/
theorem Ends.kept (h : kind.Ends rkyv given s path version r s')
    (hdone : kind.Valid rkyv s path version → kind.Done rkyv s path version) :
    VersionsKept rkyv path s s' := by
  by_cases hvalid : kind.Valid rkyv s path version
  · obtain ⟨m, hm, hm'⟩ := hdone hvalid
    have hset : kind.set m = m := by
      cases kind with
      | softDelete => exact congrArg (Marks.mk · m.destroyed) hm'.symm
      | undelete => exact congrArg (Marks.mk · m.destroyed) hm'.symm
      | destroy => exact congrArg (Marks.mk m.deleted) hm'.1.symm
    refine ⟨fun n => ?_, fun n m' hn hlive => ?_, fun n => ?_⟩
    · rcases h.marksAt n with ⟨-, hsame⟩ | ⟨-, -, hmap⟩
      · exact hsame
      · rw [hmap]
        split
        · next heq => rw [heq, hm, Option.map_some, hset]
        · exact Option.map_id_apply
    · refine (h.payload ?_).1
      rintro rfl rfl
      rw [hm] at hn
      rw [← Option.some.inj hn, hm'.1] at hlive
      cases hlive
    · by_cases hown : kind = destroy ∧ n = version
      · obtain ⟨rfl, rfl⟩ := hown
        exact (h.gone hm'.2).trans hm'.2.symm
      · exact (h.payload fun hkind heq => hown ⟨hkind, heq⟩).2
  · cases h with
    | failed hfills hwhy => exact versionsKept_of_fills hfills
    | halfway hfills hvalid' hwhy => exact (hvalid hvalid').elim
    | marked hfills hvalid' hnow hb => exact (hvalid hvalid').elim

theorem Ends.valid {out : Out} (h : kind.Ends rkyv given s path version (.ok out) s') :
    kind.Valid rkyv s path version := by
  cases h with
  | marked hfills hvalid hnow hb => exact hvalid

theorem Ends.room {out : Out} {n : ℕ} (h : kind.Ends rkyv given s path version (.ok out) s')
    (hroom : s.Room (n + kind.writes)) : s'.Room n := by
  cases h with
  | marked hfills hvalid hnow hb =>
    have hroom₁ := hroom.fills hfills
    cases kind with
    | softDelete => exact hroom₁.accept _
    | undelete => exact hroom₁.accept _
    | destroy => exact (hroom₁.accept _).accept _

theorem Ends.drained {out : Out} (h : kind.Ends rkyv given s path version (.ok out) s')
    (hdrained : Drained s) : Drained s' := by
  cases h with
  | @marked s₁ b now hfills hvalid hnow hb =>
    have hdrained₁ : Drained s₁ := by
      rw [hfills.rest]
      exact hdrained
    cases kind with
    | softDelete => exact hdrained₁.accept _
    | undelete => exact hdrained₁.accept _
    | destroy => exact (hdrained₁.accept _).accept _

/-- On a healthy storage with room the call succeeds unless it is refused. -/
theorem Ends.ok (h : kind.Ends rkyv given s path version r s') (hhealthy : ¬ Faulty given)
    (hroom : s.Room kind.writes) (hvalid : kind.Valid rkyv s path version) : r = .ok .unit := by
  cases h with
  | failed hfills hwhy =>
    rcases hwhy with hfaulty | hfull | hinvalid
    · exact (hhealthy hfaulty).elim
    · cases kind <;> exact (hroom.not_full hfull).elim
    · exact (hinvalid hvalid).elim
  | halfway hfills hvalid hwhy =>
    refine (hwhy.elim hhealthy ?_).elim
    cases kind with
    | softDelete => exact (hroom.fills hfills).not_full
    | undelete => exact (hroom.fills hfills).not_full
    | destroy => exact ((hroom.fills hfills).accept _).not_full
  | marked hfills hvalid hnow hb => rfl

end Call

/-! ## The calls for a list -/

/-- The versions listed before the first one whose call is refused in one state are, in another,
as the calls would leave them. -/
def DoneFirst (kind : VersionsRequest) (rkyv : Rkyv B) (path : String) (s s' : KvEngine B) :
    List UInt32 → Prop
  | [] => True
  | version :: versions => kind.Valid rkyv s path version →
      kind.Done rkyv s' path version ∧ kind.DoneFirst rkyv path s s' versions

/-- The calls for the listed versions, then the answer. -/
def answer (kind : VersionsRequest) (path : String) (versions : List UInt32) : HttpM Response :=
  forVersions (kind.askFor path) versions >>= fun _ => return .noContent

section List

variable {kind : VersionsRequest} {rkyv : Rkyv B} {path : String}

theorem handle_answer_cons (s : KvEngine B) (version : UInt32) (versions : List UInt32)
    (choices : List (List Choice)) :
    (∃ e, (request rkyv s (kind.call path version) (choices.headD [])).1 = .error e ∧
        handle rkyv s (kind.answer path (version :: versions)) choices =
          (.error (.error (.engine e)), (request rkyv s (kind.call path version) (choices.headD [])).2)) ∨
      (∃ out, (request rkyv s (kind.call path version) (choices.headD [])).1 = .ok out) ∧
        handle rkyv s (kind.answer path (version :: versions)) choices =
          handle rkyv (request rkyv s (kind.call path version) (choices.headD [])).2
            (kind.answer path versions) choices.tail := by
  rw [answer, forVersions, askFor, Prog.bind_assoc, Prog.bind_assoc, handle_ask]
  cases hrequest : (request rkyv s (kind.call path version) (choices.headD [])).1 with
  | error e =>
    rw [exec_eq_error rkyv s hrequest]
    exact Or.inl ⟨e, rfl, rfl⟩
  | ok out =>
    obtain ⟨x, -, hexec⟩ := exec_eq_ok rkyv s hrequest
    rw [hexec]
    exact Or.inr ⟨⟨out, rfl⟩, rfl⟩

theorem DoneFirst.congr {s s₁ s' s₁' : KvEngine B}
    (hvalid : ∀ n, kind.Valid rkyv s₁ path n → kind.Valid rkyv s path n)
    (hdone : ∀ n, kind.Done rkyv s' path n → kind.Done rkyv s₁' path n) {versions : List UInt32}
    (h : kind.DoneFirst rkyv path s s' versions) : kind.DoneFirst rkyv path s₁ s₁' versions := by
  induction versions with
  | nil => trivial
  | cons version versions ih =>
    intro hversion
    obtain ⟨hown, hrest⟩ := h (hvalid version hversion)
    exact ⟨hdone version hown, ih hrest⟩

end List

end VersionsRequest

/-! ## All or nothing -/

/-- An engine with one version of one path. -/
def single : KvEngine Record :=
  .opened Record.single .immediate ["p"]

def isSecret (mount : String) : Bool :=
  mount = "secret"

end Kallisto.Http
