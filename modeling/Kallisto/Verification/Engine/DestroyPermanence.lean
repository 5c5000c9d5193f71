import Kallisto.Verification.Engine.Conformance
import Kallisto.Verification.Engine.Retention

/-! # Destroyed versions stay destroyed

A destroyed version comes back when a request that has read the metadata before stores it
afterwards. It does not come back when, once a destruction has stored its metadata, only
that request and those that begin after its answer store metadata of the path. -/

namespace Kallisto.Engine

open Program Interleaving

variable {B Tid : Type} {e : Event (system B) EngineError Call Out Tid}

/-! ## Metadata that has a version as destroyed -/

def KeyMetadata.Destroys (version : UInt32) (m : KeyMetadata) : Prop :=
  ∃ v, findVersion version m = some v ∧ v.destroyed = true

def ShowsDestroyed (rkyv : Rkyv B) (version : UInt32) (b : B) : Prop :=
  (rkyv.archivedMetadata b).Destroys version

variable {m : KeyMetadata}

theorem KeyMetadata.Destroys.grown {version : UInt32} (h : m.Destroys version) (created : UInt64) :
    (m.grown created).Destroys version := by
  obtain ⟨v, hv, hdestroyed⟩ := h
  refine ⟨v, ?_, hdestroyed⟩
  unfold findVersion at hv
  rw [findVersion, KeyMetadata.grown, List.find?_append, hv]
  rfl

theorem KeyMetadata.Destroys.updated {version : UInt32} (h : m.Destroys version) (n : UInt32)
    {f : VersionState → VersionState} (hid : ∀ v, (f v).versionId = v.versionId)
    (hf : ∀ v, v.destroyed = true → (f v).destroyed = true) : (m.updated n f).Destroys version := by
  obtain ⟨v, hv, hdestroyed⟩ := h
  unfold findVersion at hv
  refine ⟨(if version = n then f else id) v, ?_, ?_⟩
  · rw [findVersion, KeyMetadata.updated, find?_updateVersion hid, hv]
    rfl
  · split
    · exact hf v hdestroyed
    · exact hdestroyed

theorem destroys_destroyed {version : UInt32} {v : VersionState}
    (hv : findVersion version m = some v) :
    (m.updated version fun v => { v with destroyed := true }).Destroys version := by
  unfold findVersion at hv
  refine ⟨{ v with destroyed := true }, ?_, rfl⟩
  have hid : ∀ v : VersionState, ({ v with destroyed := true } : VersionState).versionId =
      v.versionId := fun _ => rfl
  rw [findVersion, KeyMetadata.updated, find?_updateVersion hid, hv, if_pos rfl]
  rfl

/-- A read that finds a version to return finds another one. -/
theorem KeyMetadata.Destroys.locate_ne {version n target : UInt32} {v : VersionState}
    (h : m.Destroys version) (hlocate : locate n m = (target, some v))
    (hv : ¬ v.destroyed = true) : target ≠ version ∧ (n = version → version = 0) := by
  obtain ⟨w, hw, hdestroyed⟩ := h
  have hne : target ≠ version := by
    rintro rfl
    cases hw.symm.trans (findVersion_locate hlocate)
    exact hv hdestroyed
  refine ⟨hne, fun hn => ?_⟩
  by_contra hzero
  obtain ⟨htarget, _⟩ := Prod.mk.inj hlocate
  rw [if_neg (hn ▸ hzero)] at htarget
  exact hne (htarget.symm.trans hn)

/-! ## Requests and the destroyed version -/

/-- A read does not return the version. The number 0 asks for the latest one. -/
def Quiet (path : String) (version : UInt32) (c : Call) (r : Except EngineError Out) : Prop :=
  ∀ n payload state, c = .readVersion path n → r = .ok (.version payload state) →
    state.versionId ≠ version ∧ (n = version → version = 0)

def Acknowledges (path : String) (version : UInt32) (c : Call) (r : Except EngineError Out) :
    Prop :=
  c = .destroyVersion path version ∧ ∃ out, r = .ok out

/-- The script keeps what it finds of the version under the metadata key of the path. -/
abbrev Script.KeepsDestroyed (rkyv : Rkyv B) (path : String) (version : UInt32) (c : Call)
    (trusted marked : Prop) (sc : Script B) : Prop :=
  sc.Retains (buildMetaKey path) (ShowsDestroyed rkyv version) (Quiet path version c)
    (Acknowledges path version c) trusted marked

section Requests

variable {rkyv : Rkyv B} {path q : String} {version : UInt32} {c : Call} {trusted marked : Prop}

theorem quiet_error (e : EngineError) : Quiet path version c (.error e) := by
  intro n payload state _ h
  cases h

theorem not_acknowledges_error (e : EngineError) : ¬ Acknowledges path version c (.error e) := by
  rintro ⟨_, out, h⟩
  cases h

theorem retains_error (e : EngineError) :
    (Script.finish (.error e) : Script B).KeepsDestroyed rkyv path version c trusted marked :=
  ⟨fun _ => quiet_error e, fun h => (not_acknowledges_error e h).elim⟩

theorem retains_unit (rkyv : Rkyv B) (h : c = .destroyVersion path version → marked) :
    (Script.finish (.ok .unit) : Script B).KeepsDestroyed rkyv path version c trusted marked := by
  refine ⟨?_, fun hacks => h hacks.1⟩
  intro _ n payload state _ hr
  cases hr

theorem retains_payload {op : AsyncOp B} {next : Script B} {n : UInt32}
    (hop : op.key = buildVersionKey q n)
    (h : next.KeepsDestroyed rkyv path version c trusted marked) :
    (Script.write op next).KeepsDestroyed rkyv path version c trusted marked := by
  have hkey : op.key ≠ buildMetaKey path := by
    rw [hop]
    exact (buildMetaKey_ne_buildVersionKey path q n).symm
  refine ⟨fun heq => (hkey heq).elim, ?_⟩
  rw [if_neg hkey]
  exact h

theorem retains_storeMetadata (hrkyv : rkyv.Faithful) {next : Script B}
    (hm : q = path → trusted → m.Destroys version)
    (hnext : ∀ marked' : Prop, (q = path → m.Destroys version → marked') →
      next.KeepsDestroyed rkyv path version c trusted marked') :
    (storeMetadataScript rkyv q m next).KeepsDestroyed rkyv path version c trusted marked := by
  obtain ⟨b, hb, harchived⟩ := hrkyv.metadata m
  have hshows : m.Destroys version → ShowsDestroyed rkyv version b := by
    intro h
    rwa [ShowsDestroyed, harchived]
  unfold storeMetadataScript
  rw [hb]
  refine ⟨fun hkey => ?_, hnext _ fun hq hdestroys => ?_⟩
  · obtain rfl := buildMetaKey_inj.mp hkey
    exact ⟨b, rfl, fun htrusted => hshows (hm rfl htrusted)⟩
  · subst hq
    have hkey : (AsyncOp.put (buildMetaKey q) b).key = buildMetaKey q := rfl
    rw [if_pos hkey]
    exact bears_some.mpr (hshows hdestroys)

theorem retains_readMetadata {k : KeyMetadata → Script B}
    (h : ∀ (m : KeyMetadata) (trusted : Prop), (q = path → trusted → m.Destroys version) →
      (k m).KeepsDestroyed rkyv path version c trusted False) :
    (readMetadataScript rkyv q k).KeepsDestroyed rkyv path version c True False := by
  refine ⟨fun _ => id, fun found => ?_⟩
  cases found with
  | none => exact retains_error _
  | some b =>
    refine h _ _ fun hq htrusted => ?_
    have hshows : ShowsDestroyed rkyv version b :=
      bears_some.mp (htrusted.2 (buildMetaKey_inj.mpr hq))
    exact hshows

theorem retains_readVersion (q : String) (n : UInt32) :
    (readVersionScript rkyv q n).KeepsDestroyed rkyv path version (.readVersion q n) True
      False := by
  refine ⟨fun _ => id, fun found => ?_⟩
  cases found with
  | none => exact retains_error _
  | some b =>
    dsimp only
    split
    · exact retains_error _
    · next target v hlocate =>
      split
      · exact retains_error _
      · split
        · exact retains_error _
        · next hdestroyed =>
          split
          · exact retains_error _
          · refine ⟨fun heq => (buildMetaKey_ne_buildVersionKey _ _ _ heq.symm).elim, fun x => ?_⟩
            cases x with
            | none => exact retains_error _
            | some payload =>
              refine ⟨?_, fun hacks => Call.noConfusion hacks.1⟩
              intro htrusted n' payload' state hc hr
              obtain ⟨hq, rfl⟩ := Call.readVersion.inj hc
              obtain ⟨_, rfl⟩ := Out.version.inj (Except.ok.inj hr)
              have hshows : ShowsDestroyed rkyv version b :=
                bears_some.mp (htrusted.1.2 (buildMetaKey_inj.mpr hq))
              exact hshows.locate_ne hlocate hdestroyed

theorem retains_appendVersion (hrkyv : rkyv.Faithful)
    (hm : q = path → trusted → m.Destroys version) (x : SecretPayload) (cas : Option UInt32) :
    (appendVersionScript rkyv q x m).KeepsDestroyed rkyv path version (.putVersion q x cas)
      trusted False := by
  intro created
  obtain ⟨payload, hpayload, _⟩ := hrkyv.payload x
  rw [hpayload]
  refine retains_payload rfl (retains_storeMetadata hrkyv ?_ ?_)
  · exact fun hq htrusted => (hm hq htrusted).grown created
  · exact fun marked' _ => retains_unit rkyv nofun

theorem retains_putVersion (hrkyv : rkyv.Faithful) (q : String) (x : SecretPayload)
    (cas : Option UInt32) :
    (putVersionScript rkyv q x cas).KeepsDestroyed rkyv path version (.putVersion q x cas) True
      False := by
  refine ⟨fun _ => id, fun found => ?_⟩
  have hfound : q = path → (True ∧ (buildMetaKey q = buildMetaKey path →
      Bears (ShowsDestroyed rkyv version) found)) →
      ((found.map (deserializeMetadata rkyv)).getD .default).Destroys version := by
    rintro rfl ⟨_, htrusted⟩
    obtain ⟨b, rfl, hb⟩ := htrusted rfl
    exact hb
  dsimp only
  unfold checkCasScript
  split
  · split
    · exact retains_error _
    · exact retains_appendVersion hrkyv hfound x _
  · exact retains_appendVersion hrkyv hfound x _

/-- Every request keeps what it finds of the version, and a destruction that succeeds has
stored the version as destroyed. -/
theorem retains_script (hrkyv : rkyv.Faithful) (c : Call) :
    (script rkyv c).KeepsDestroyed rkyv path version c True False := by
  cases c with
  | readMetadata q =>
    unfold script
    refine retains_readMetadata fun m trusted _ => ⟨?_, fun hacks => Call.noConfusion hacks.1⟩
    intro _ n payload state hc
    cases hc
  | readVersion q n => exact retains_readVersion q n
  | putVersion q x cas => exact retains_putVersion hrkyv q x cas
  | softDelete q n =>
    unfold script softDeleteScript
    refine retains_readMetadata fun m trusted hm => ?_
    split
    · exact retains_error _
    · refine fun now => retains_storeMetadata hrkyv ?_ fun marked' _ => retains_unit rkyv nofun
      exact fun hq htrusted => (hm hq htrusted).updated n (fun _ => rfl) fun _ h => h
  | undelete q n =>
    unfold script undeleteScript
    refine retains_readMetadata fun m trusted hm => ?_
    split
    · exact retains_error _
    · split
      · exact retains_error _
      · refine retains_storeMetadata hrkyv ?_ fun marked' _ => retains_unit rkyv nofun
        exact fun hq htrusted => (hm hq htrusted).updated n (fun _ => rfl) fun _ h => h
  | destroyVersion q n =>
    unfold script destroyVersionScript
    refine retains_readMetadata fun m trusted hm => ?_
    split
    · exact retains_error _
    · next v hv =>
      refine retains_payload rfl (retains_storeMetadata hrkyv ?_ fun marked' hmarked =>
        retains_unit rkyv fun hc => ?_)
      · exact fun hq htrusted => (hm hq htrusted).updated n (fun _ => rfl) fun _ _ => rfl
      · obtain ⟨hq, rfl⟩ := Call.destroyVersion.inj hc
        exact hmarked hq (destroys_destroyed hv)

end Requests

/-! ## Answered destructions -/

/-- The answer to a destruction of the version that has succeeded. -/
def Acknowledgement (path : String) (version : UInt32) :
    Event (system B) EngineError Call Out Tid → Prop
  | .respond _ c r => Acknowledges path version c r
  | _ => False

def Acknowledged (path : String) (version : UInt32)
    (log : List (Event (system B) EngineError Call Out Tid)) : Prop :=
  ∃ e ∈ log, Acknowledgement path version e

theorem acknowledged_event_cons {path : String} {version : UInt32}
    {log : List (Event (system B) EngineError Call Out Tid)} :
    Acknowledged path version (e :: log) ↔
      Acknowledgement path version e ∨ Acknowledged path version log := by
  simp only [Acknowledged, List.mem_cons, exists_eq_or_imp]

/-- The last request of the client began after such an answer. -/
def BeganAfter [DecidableEq Tid] (path : String) (version : UInt32) (t : Tid) :
    List (Event (system B) EngineError Call Out Tid) → Prop
  | [] => False
  | .invoke t' _ :: log =>
    if t' = t then Acknowledged path version log else BeganAfter path version t log
  | .act _ _ _ :: log => BeganAfter path version t log
  | .respond _ _ _ :: log => BeganAfter path version t log
  | .env _ :: log => BeganAfter path version t log

/-- The client is in a destruction of the version and has stored the metadata. -/
def Marking [DecidableEq Tid] (path : String) (version : UInt32) (p : Clients B Tid) (t : Tid) :
    Prop :=
  (p.client t).map Prod.fst = some (.destroyVersion path version) ∧
    ∃ op ∈ writesOf (callTrace t p.log), op.key = buildMetaKey path

/-- Once a destruction of the version has stored its metadata, metadata of the path is stored
only by this request and by those that begin after such a destruction was answered. The
cache loses the metadata only when no write of it is pending. -/
def Timely [DecidableEq Tid] (path : String) (version : UInt32) (p : Clients B Tid) :
    Step B Tid → Prop
  | .act t _ => (p.nextCall t).bind (Effect.stores (buildMetaKey path)) = none ∨
      BeganAfter path version t p.log ∨
        ¬ Acknowledged path version p.log ∧ ∀ u, u ≠ t → ¬ Marking path version p u
  | .env (.dropEntry key) => key = buildMetaKey path →
      p.shared.cache key = none ∨ ∀ op ∈ p.shared.pending, op.key ≠ key
  | _ => True

/-- The mode is not changed, and the worker's writes do not fail. -/
def UndisturbedStep : Step B Tid → Prop
  | .env (.changeSyncMode _) => False
  | .env (.worker _ fails) => fails = false
  | _ => True

/-- After a destruction of the version was answered, every metadata record of the path that is
stored has it as destroyed, and no request that begins then reads it. -/
structure DestroyPermanent [DecidableEq Tid] (rkyv : Rkyv B) (path : String) (version : UInt32)
    (log : List (Event (system B) EngineError Call Out Tid)) : Prop where
  stored : ∀ t op r before, (.act t op r :: before) <:+ log → Acknowledged path version before →
    ∀ b, op.stores (buildMetaKey path) = some b → ShowsDestroyed rkyv version b
  unread : ∀ t c r before, (.respond t c r :: before) <:+ log → BeganAfter path version t before →
    Quiet path version c r

section Events

variable [DecidableEq Tid] {rkyv : Rkyv B} {path : String} {version : UInt32}
  {log : List (Event (system B) EngineError Call Out Tid)}

theorem BeganAfter.acknowledged {t : Tid} :
    ∀ {log : List (Event (system B) EngineError Call Out Tid)},
      BeganAfter path version t log → Acknowledged path version log := by
  intro log
  induction log with
  | nil => exact False.elim
  | cons e log ih =>
    have hlater : Acknowledged path version log → Acknowledged path version (e :: log) :=
      fun hack => acknowledged_event_cons.mpr (Or.inr hack)
    cases e with
    | invoke t' c =>
      intro h
      rw [BeganAfter] at h
      split at h
      · exact hlater h
      · exact hlater (ih h)
    | act t' op r => exact fun h => hlater (ih h)
    | respond t' c r => exact fun h => hlater (ih h)
    | env e => exact fun h => hlater (ih h)

theorem DestroyPermanent.cons (h : DestroyPermanent rkyv path version log)
    (hact : ∀ t op r, e = .act t op r → Acknowledged path version log →
      ∀ b, op.stores (buildMetaKey path) = some b → ShowsDestroyed rkyv version b)
    (hrespond : ∀ t c r, e = .respond t c r → BeganAfter path version t log →
      Quiet path version c r) : DestroyPermanent rkyv path version (e :: log) where
  stored t op r before hsuffix := by
    rcases List.suffix_cons_iff.mp hsuffix with heq | hsuffix
    · obtain ⟨he, rfl⟩ := List.cons.inj heq
      exact hact t op r he.symm
    · exact h.stored t op r before hsuffix
  unread t c r before hsuffix := by
    rcases List.suffix_cons_iff.mp hsuffix with heq | hsuffix
    · obtain ⟨he, rfl⟩ := List.cons.inj heq
      exact hrespond t c r he.symm
    · exact h.unread t c r before hsuffix

end Events

/-! ## The invariant -/

section Runs

variable [DecidableEq Tid] {rkyv : Rkyv B} {mode : SyncMode} {path : String} {version : UInt32}
  {p : Clients B Tid}

/-- Where a client stands with the metadata of the path. -/
def custodyOf (rkyv : Rkyv B) (mode : SyncMode) (path : String) (version : UInt32)
    (log : List (Event (system B) EngineError Call Out Tid)) (t : Tid) : Custody :=
  (custodyProtocol (buildMetaKey path) (ShowsDestroyed rkyv version) mode).after Custody.start
    (callTrace t log)

/-- A destruction of the version was answered, or one that is in progress has come as far
as given. -/
def Reached (path : String) (version : UInt32) (p : Clients B Tid) (mark : Tid → Prop) : Prop :=
  Acknowledged path version p.log ∨
    ∃ t, (p.client t).map Prod.fst = some (.destroyVersion path version) ∧ mark t

structure Preserves (rkyv : Rkyv B) (mode : SyncMode) (path : String) (version : UInt32)
    (p : Clients B Tid) : Prop where
  inMode : p.shared.InMode mode
  tracked : Tracked (custodyProtocol (buildMetaKey path) (ShowsDestroyed rkyv version) mode)
    (fun c => Custody.Ends (Quiet path version c) (Acknowledges path version c)) Custody.start p
  marks : ∀ t, (custodyOf rkyv mode path version p.log t).cached →
    (custodyOf rkyv mode path version p.log t).written
  settled : Reached path version p (fun t => (custodyOf rkyv mode path version p.log t).written) →
    Bears (ShowsDestroyed rkyv version) (p.shared.settled (buildMetaKey path))
  retained : Reached path version p (fun t => (custodyOf rkyv mode path version p.log t).cached) →
    p.shared.Retains (buildMetaKey path) (ShowsDestroyed rkyv version)
  trusted : ∀ t, BeganAfter path version t p.log →
    (custodyOf rkyv mode path version p.log t).trusted
  missed : ∀ t, BeganAfter path version t p.log →
    (custodyOf rkyv mode path version p.log t).missed →
      p.shared.Durable (buildMetaKey path) (ShowsDestroyed rkyv version)
  permanent : DestroyPermanent rkyv path version p.log

omit [DecidableEq Tid] in
theorem Reached.mono {mark mark' : Tid → Prop} (h : Reached path version p mark)
    (hmark : ∀ t, mark t → mark' t) : Reached path version p mark' := by
  rcases h with hack | ⟨t, ht, hmarked⟩
  · exact Or.inl hack
  · exact Or.inr ⟨t, ht, hmark t hmarked⟩

theorem preserves_opened (db : String → Option B) (mode : SyncMode) (paths : List String) :
    Preserves rkyv mode path version (Clients.opened db mode paths : Clients B Tid) where
  inMode := ⟨rfl, fun _ => ⟨rfl, rfl⟩⟩
  tracked := tracked_init _
  marks _ h := h.elim
  settled h := by
    rcases h with ⟨e, he, _⟩ | ⟨t, ht, _⟩
    · cases he
    · cases ht
  retained h := by
    rcases h with ⟨e, he, _⟩ | ⟨t, ht, _⟩
    · cases he
    · cases ht
  trusted _ h := h.elim
  missed _ h := h.elim
  permanent := by
    refine ⟨fun t op r before hsuffix => ?_, fun t c r before hsuffix => ?_⟩
    · cases List.suffix_nil.mp hsuffix
    · cases List.suffix_nil.mp hsuffix

namespace Preserves

theorem env (h : Preserves rkyv mode path version p) {e : EnvStep}
    (hstep : UndisturbedStep (.env e : Step B Tid))
    (htimely : Timely path version p (.env e)) :
    Preserves rkyv mode path version ⟨p.shared.env e, p.client, .env e :: p.log⟩ := by
  have hlog : ∀ mark : Tid → Prop,
      Reached path version ⟨p.shared.env e, p.client, .env e :: p.log⟩ mark →
        Reached path version p mark := by
    rintro mark (hack | hmark)
    · exact Or.inl ((acknowledged_event_cons.mp hack).resolve_left False.elim)
    · exact Or.inr hmark
  have hpermanent : DestroyPermanent rkyv path version
      ((.env e : Event (system B) EngineError Call Out Tid) :: p.log) :=
    h.permanent.cons (fun _ _ _ heq => by cases heq) (fun _ _ _ heq => by cases heq)
  cases e with
  | dropEntry key =>
    refine ⟨⟨h.inMode.fixed, h.inMode.direct⟩, h.tracked.env _ _, h.marks,
      fun hr => h.settled (hlog _ hr), fun hr => ?_, h.trusted, fun t ht hmissed => ?_,
      hpermanent⟩
    · exact (h.retained (hlog _ hr)).dropEntry htimely
    · have hdurable := h.missed t ht hmissed
      exact ⟨hdurable.disk, hdurable.pending⟩
  | worker timeout fails =>
    obtain rfl : fails = false := hstep
    have hmoves := p.shared.workerStep_moves timeout
    refine ⟨h.inMode.workerMoves hmoves, h.tracked.env _ _, h.marks, fun hr => ?_, fun hr => ?_,
      h.trusted, fun t ht hmissed => (h.missed t ht hmissed).workerMoves hmoves, hpermanent⟩
    · change Bears _ ((p.shared.workerStep timeout false).settled _)
      rw [hmoves.settled]
      exact h.settled (hlog _ hr)
    · exact (h.retained (hlog _ hr)).workerMoves hmoves
  | changeSyncMode mode => exact hstep.elim
  | stop =>
    refine ⟨⟨h.inMode.fixed, h.inMode.direct⟩, h.tracked.env _ _, h.marks,
      fun hr => h.settled (hlog _ hr), fun hr => ?_, h.trusted, fun t ht hmissed => ?_,
      hpermanent⟩
    · have hretained := h.retained (hlog _ hr)
      refine ⟨hretained.cached, hretained.settled, fun hmiss => ?_⟩
      have hdurable := hretained.missed hmiss
      exact ⟨hdurable.disk, hdurable.pending⟩
    · have hdurable := h.missed t ht hmissed
      exact ⟨hdurable.disk, hdurable.pending⟩

theorem invoke (h : Preserves rkyv mode path version p) (hrkyv : rkyv.Faithful) {t : Tid}
    (hidle : p.client t = none) (c : Call) :
    Preserves rkyv mode path version
      ⟨p.shared, p.setClient t (some (c, body rkyv c)), .invoke t c :: p.log⟩ := by
  have hself : custodyOf rkyv mode path version
      ((.invoke t c : Event (system B) EngineError Call Out Tid) :: p.log) t = Custody.start := by
    rw [custodyOf, callTrace, if_pos rfl]
    rfl
  have hother : ∀ u, u ≠ t → custodyOf rkyv mode path version
      ((.invoke t c : Event (system B) EngineError Call Out Tid) :: p.log) u =
        custodyOf rkyv mode path version p.log u := by
    intro u hu
    rw [custodyOf, callTrace, if_neg (Ne.symm hu)]
    rfl
  have hreached : ∀ mark : Custody → Prop, ¬ mark Custody.start →
      Reached path version ⟨p.shared, p.setClient t (some (c, body rkyv c)), .invoke t c :: p.log⟩
        (fun u => mark (custodyOf rkyv mode path version (.invoke t c :: p.log) u)) →
      Reached path version p (fun u => mark (custodyOf rkyv mode path version p.log u)) := by
    rintro mark hstart (hack | ⟨u, hu, hmark⟩)
    · exact Or.inl ((acknowledged_event_cons.mp hack).resolve_left False.elim)
    · by_cases hut : u = t
      · subst hut
        rw [hself] at hmark
        exact (hstart hmark).elim
      · rw [hother u hut] at hmark
        change (Function.update p.client t _ u).map Prod.fst = _ at hu
        rw [Function.update_of_ne hut] at hu
        exact Or.inr ⟨u, hu, hmark⟩
  have hbegan : ∀ u, u ≠ t →
      BeganAfter path version u
          ((.invoke t c : Event (system B) EngineError Call Out Tid) :: p.log) →
        BeganAfter path version u p.log := by
    intro u hu hafter
    rwa [BeganAfter, if_neg (Ne.symm hu)] at hafter
  refine ⟨h.inMode, h.tracked.invoke ?_ t, fun u => ?_, fun hr => h.settled (hreached _ id hr),
    fun hr => h.retained (hreached _ id hr), fun u hu => ?_, fun u hu hmissed => ?_, ?_⟩
  · rw [body_eq_run]
    exact (retains_script hrkyv c).follows quiet_error not_acknowledges_error ⟨id, False.elim, id⟩
  · by_cases hut : u = t
    · subst hut
      rw [hself]
      exact id
    · rw [hother u hut]
      exact h.marks u
  · by_cases hut : u = t
    · subst hut
      rw [hself]
      trivial
    · rw [hother u hut]
      exact h.trusted u (hbegan u hut hu)
  · by_cases hut : u = t
    · subst hut
      rw [hself] at hmissed
      exact hmissed.elim
    · rw [hother u hut] at hmissed
      exact h.missed u (hbegan u hut hu) hmissed
  · exact h.permanent.cons (fun _ _ _ heq => by cases heq) (fun _ _ _ heq => by cases heq)

theorem respond (h : Preserves rkyv mode path version p) {t : Tid} {c : Call}
    {r : Except EngineError Out} (hclient : p.client t = some (c, .done r)) :
    Preserves rkyv mode path version ⟨p.shared, p.setClient t none, .respond t c r :: p.log⟩ := by
  have hends := h.tracked.returns hclient
  -- An answer to the destruction was preceded by its last step.
  have hreached : ∀ mark : Tid → Prop,
      ((custodyOf rkyv mode path version p.log t).cached → mark t) →
      Reached path version ⟨p.shared, p.setClient t none, .respond t c r :: p.log⟩ mark →
        Reached path version p mark := by
    rintro mark hmark (hack | ⟨u, hu, hmarked⟩)
    · rcases acknowledged_event_cons.mp hack with hnow | hbefore
      · refine Or.inr ⟨t, ?_, hmark (hends.2 hnow)⟩
        rw [hclient]
        exact congrArg some hnow.1
      · exact Or.inl hbefore
    · change (Function.update p.client t none u).map Prod.fst = _ at hu
      by_cases hut : u = t
      · subst hut
        rw [Function.update_self] at hu
        cases hu
      · rw [Function.update_of_ne hut] at hu
        exact Or.inr ⟨u, hu, hmarked⟩
  refine ⟨h.inMode, h.tracked.respond t c r, h.marks, fun hr => h.settled ?_,
    fun hr => h.retained ?_, h.trusted, h.missed, ?_⟩
  · exact hreached _ (h.marks t) hr
  · exact hreached _ id hr
  · refine h.permanent.cons (fun _ _ _ heq => by cases heq) ?_
    intro t' c' r' heq hbegan
    cases heq
    exact hends.1 (h.trusted t hbegan)

section Act

variable {t : Tid} {c : Call} {op : Effect B} {k : op.Ret → EngineM B Out} {choice : Choice}

/-- Once another destruction has stored its metadata, or was answered, only records that have
the version as destroyed are stored. -/
theorem shows_stored (h : Preserves rkyv mode path version p)
    (hclient : p.client t = some (c, .call op k)) (htimely : Timely path version p (.act t choice))
    (hreached : Reached path version p fun u =>
      u ≠ t ∧ (custodyOf rkyv mode path version p.log u).written)
    {b : B} (hstores : op.stores (buildMetaKey path) = some b) : ShowsDestroyed rkyv version b := by
  rcases htimely with hnone | hbegan | ⟨hack, hmarking⟩
  · rw [Pool.nextCall, hclient] at hnone
    cases hstores.symm.trans hnone
  · exact allowed_stores (h.tracked t c _ hclient).1 hstores (h.trusted t hbegan)
  · rcases hreached with hacked | ⟨u, hu, hne, hwritten⟩
    · exact (hack hacked).elim
    · exact (hmarking u hne ⟨hu, exists_write_of_written hwritten⟩).elim

theorem custodyOf_act_self (r : op.Ret) :
    custodyOf rkyv mode path version
        ((.act t op r : Event (system B) EngineError Call Out Tid) :: p.log) t =
      (custodyProtocol (buildMetaKey path) (ShowsDestroyed rkyv version) mode).next
        (custodyOf rkyv mode path version p.log t) op r := by
  rw [custodyOf, callTrace, if_pos rfl]
  rfl

theorem custodyOf_act_other (r : op.Ret) {u : Tid} (hu : u ≠ t) :
    custodyOf rkyv mode path version
        ((.act t op r : Event (system B) EngineError Call Out Tid) :: p.log) u =
      custodyOf rkyv mode path version p.log u := by
  rw [custodyOf, callTrace, if_neg (Ne.symm hu)]
  rfl

/-- How far the destructions are after a call of one client. -/
theorem reached_act (hclient : p.client t = some (c, .call op k)) {s : KvEngine B} {r : op.Ret}
    {mark : Custody → Prop}
    (h : Reached path version ⟨s, p.setClient t (some (c, k r)), .act t op r :: p.log⟩
      fun u => mark (custodyOf rkyv mode path version (.act t op r :: p.log) u)) :
    Reached path version p (fun u => u ≠ t ∧ mark (custodyOf rkyv mode path version p.log u)) ∨
      (p.client t).map Prod.fst = some (.destroyVersion path version) ∧
        mark ((custodyProtocol (buildMetaKey path) (ShowsDestroyed rkyv version) mode).next
          (custodyOf rkyv mode path version p.log t) op r) := by
  rcases h with hack | ⟨u, hu, hmark⟩
  · exact Or.inl (Or.inl ((acknowledged_event_cons.mp hack).resolve_left False.elim))
  · change (Function.update p.client t _ u).map Prod.fst = _ at hu
    by_cases hut : u = t
    · subst hut
      rw [custodyOf_act_self] at hmark
      rw [Function.update_self] at hu
      refine Or.inr ⟨?_, hmark⟩
      rw [hclient]
      exact hu
    · rw [custodyOf_act_other r hut] at hmark
      rw [Function.update_of_ne hut] at hu
      exact Or.inl (Or.inr ⟨u, hu, hut, hmark⟩)

theorem act (h : Preserves rkyv mode path version p)
    (hclient : p.client t = some (c, .call op k))
    (htimely : Timely path version p (.act t choice)) :
    Preserves rkyv mode path version
      ⟨(p.shared.exec op choice).2, p.setClient t (some (c, k (p.shared.exec op choice).1)),
        .act t op (p.shared.exec op choice).1 :: p.log⟩ := by
  have hallowed := (h.tracked t c _ hclient).1
  obtain ⟨hmode, hpossible⟩ := exec_inMode h.inMode hallowed choice
  obtain ⟨stored, htreats, hstores⟩ := exec_handles h.inMode hallowed choice
  have hshows : Reached path version p (fun u =>
      u ≠ t ∧ (custodyOf rkyv mode path version p.log u).written) →
      ∀ b, stored = some b → ShowsDestroyed rkyv version b :=
    fun hreached b hb => h.shows_stored hclient htimely hreached (hstores b hb)
  have hshowsBegan : ∀ u, BeganAfter path version u p.log →
      ∀ b, stored = some b → ShowsDestroyed rkyv version b :=
    fun u hu => hshows (Or.inl hu.acknowledged)
  have htrusted : BeganAfter path version t p.log → _ := fun hbegan =>
    next_trusted (h.retained (Or.inl hbegan.acknowledged)) hallowed (h.trusted t hbegan)
      (h.missed t hbegan) choice
  refine ⟨hmode, h.tracked.act hclient hpossible, fun u => ?_, fun hr => ?_, fun hr => ?_,
    fun u hu => ?_, fun u hu hmissed => ?_, ?_⟩
  · by_cases hut : u = t
    · subst hut
      rw [custodyOf_act_self]
      exact htreats.written_of_cached (h.marks u)
    · rw [custodyOf_act_other _ hut]
      exact h.marks u
  · rcases reached_act hclient hr with hothers | ⟨hself, hwritten⟩
    · exact htreats.settled (hshows hothers) (h.settled (hothers.mono fun _ => And.right))
    · exact htreats.settled_own (fun hd => h.settled (Or.inr ⟨t, hself, hd⟩)) hwritten
  · rcases reached_act hclient hr with hothers | ⟨hself, hcached⟩
    · refine htreats.retains (hshows (hothers.mono fun u hu => ⟨hu.1, h.marks u hu.2⟩)) ?_
      exact h.retained (hothers.mono fun _ => And.right)
    · exact htreats.retains_own (fun hd => h.settled (Or.inr ⟨t, hself, hd⟩))
        (fun hd => h.retained (Or.inr ⟨t, hself, hd⟩)) hcached
  · by_cases hut : u = t
    · subst hut
      rw [custodyOf_act_self]
      exact (htrusted hu).1
    · rw [custodyOf_act_other _ hut]
      exact h.trusted u hu
  · refine htreats.durable (hshowsBegan u hu) ?_
    by_cases hut : u = t
    · subst hut
      rw [custodyOf_act_self] at hmissed
      exact (htrusted hu).2 hmissed
    · rw [custodyOf_act_other _ hut] at hmissed
      exact h.missed u hu hmissed
  · refine h.permanent.cons ?_ (fun _ _ _ heq => by cases heq)
    intro t' op' r' heq hack b hb
    cases heq
    exact h.shows_stored hclient htimely (Or.inl hack) hb

end Act

end Preserves

/-- In either mode, from any database, a version whose destruction was answered stays destroyed
in every run whose steps are timely. -/
theorem run_destroyPermanent (hrkyv : rkyv.Faithful) (mode : SyncMode) (db : String → Option B)
    (paths : List String) (path : String) (version : UInt32) (labels : List (Step B Tid))
    (hsteps : Along (Pool.step (body rkyv))
      (fun p l => UndisturbedStep l ∧ Timely path version p l) (Clients.opened db mode paths)
      labels) :
    DestroyPermanent rkyv path version
      ((Clients.opened db mode paths : Clients B Tid).run (body rkyv) labels).log := by
  have hinv : Preserves rkyv mode path version
      ((Clients.opened db mode paths : Clients B Tid).run (body rkyv) labels) := by
    refine Pool.run_invariant ?_ ?_ ?_ ?_ (preserves_opened db mode paths) hsteps
    · exact fun p t c h _ hidle => h.invoke hrkyv hidle c
    · exact fun p t choice c op k h hok hclient => h.act hclient hok.2
    · exact fun p t c r h _ hclient => h.respond hclient
    · exact fun p e h hok => h.env hok.1 hok.2
  exact hinv.permanent

end Runs

/-! ## Racing clients -/

section Decidable

variable {path : String} {version : UInt32}

instance (c : Call) (r : Except EngineError Out) : Decidable (Acknowledges path version c r) :=
  match r with
  | .ok out => decidable_of_iff (c = .destroyVersion path version)
      ⟨fun h => ⟨h, out, rfl⟩, fun h => h.1⟩
  | .error e => .isFalse (not_acknowledges_error e)

instance (e : Event (system B) EngineError Call Out Tid) :
    Decidable (Acknowledgement path version e) :=
  match e with
  | .respond _ c r => inferInstanceAs (Decidable (Acknowledges path version c r))
  | .invoke _ _ => .isFalse id
  | .act _ _ _ => .isFalse id
  | .env _ => .isFalse id

instance (log : List (Event (system B) EngineError Call Out Tid)) :
    Decidable (Acknowledged path version log) :=
  inferInstanceAs (Decidable (∃ e ∈ log, Acknowledgement path version e))

instance BeganAfter.decidable [DecidableEq Tid] (t : Tid) :
    ∀ log : List (Event (system B) EngineError Call Out Tid),
      Decidable (BeganAfter path version t log)
  | [] => .isFalse id
  | .invoke t' _ :: log =>
    have : Decidable (BeganAfter path version t log) := BeganAfter.decidable t log
    inferInstanceAs (Decidable (if t' = t then Acknowledged path version log
      else BeganAfter path version t log))
  | .act _ _ _ :: log => BeganAfter.decidable t log
  | .respond _ _ _ :: log => BeganAfter.decidable t log
  | .env _ :: log => BeganAfter.decidable t log

instance (p : Clients B Bool) (t : Bool) : Decidable (Marking path version p t) :=
  inferInstanceAs (Decidable (_ ∧ ∃ op ∈ writesOf (callTrace t p.log), op.key = buildMetaKey path))

instance [DecidableEq B] (p : Clients B Bool) (l : Step B Bool) :
    Decidable (Timely path version p l) :=
  match l with
  | .act t _ => inferInstanceAs (Decidable (
      (p.nextCall t).bind (Effect.stores (buildMetaKey path)) = none ∨
        BeganAfter path version t p.log ∨
          ¬ Acknowledged path version p.log ∧ ∀ u, u ≠ t → ¬ Marking path version p u))
  | .env (.dropEntry key) => inferInstanceAs (Decidable (key = buildMetaKey path →
      p.shared.cache key = none ∨ ∀ op ∈ p.shared.pending, op.key ≠ key))
  | .env (.worker _ _) => .isTrue trivial
  | .env (.changeSyncMode _) => .isTrue trivial
  | .env .stop => .isTrue trivial
  | .invoke _ _ => .isTrue trivial
  | .respond _ => .isTrue trivial

instance (l : Step B Tid) : Decidable (UndisturbedStep l) :=
  match l with
  | .env (.worker _ fails) => inferInstanceAs (Decidable (fails = false))
  | .env (.changeSyncMode _) => .isFalse id
  | .env (.dropEntry _) => .isTrue trivial
  | .env .stop => .isTrue trivial
  | .invoke _ _ => .isTrue trivial
  | .act _ _ => .isTrue trivial
  | .respond _ => .isTrue trivial

end Decidable

/-- A put that has stored its metadata when the version is destroyed and returns later, and a
read of the version. -/
def overtakenPut : List (Step Record Bool) :=
  List.flatten [
    calling false (.putVersion "p" ⟨"y", 0⟩ none) 10,
    requesting true (.destroyVersion "p" 1) 7,
    [.act false (.at 1), .respond false],
    requesting true (.readVersion "p" 1) 1]

theorem run_destroyPermanent_overtakenPut :
    let p : Clients Record Bool :=
      (Clients.opened Record.single .immediate ["p"]).run (body Record.rkyv) overtakenPut
    Acknowledged "p" 1 p.log ∧ (∀ t, p.client t = none) ∧
      DestroyPermanent Record.rkyv "p" 1 p.log :=
  ⟨by decide, fun t => by cases t <;> rfl,
    run_destroyPermanent Record.rkyv_faithful .immediate Record.single ["p"] "p" 1 overtakenPut
      (by decide)⟩

/-- A put that has read the metadata, and a read that has fetched the payload, go on after the
version was destroyed; then the version is read. -/
def staleRequests : List (Step Record (Fin 3)) :=
  List.flatten [
    calling 2 (.readVersion "p" 1) 5,
    calling 0 (.putVersion "p" ⟨"y", 0⟩ none) 1,
    requesting 1 (.destroyVersion "p" 1) 7,
    [.act 2 (.at 1), .respond 2],
    List.replicate 8 (.act 0 (.at 1)),
    [.respond 0],
    requesting 2 (.readVersion "p" 1) 2]

/-- The put stores the version as not destroyed, and the read that begins after the answer to
the destruction returns its payload. -/
theorem staleRequests_restore :
    let p : Clients Record (Fin 3) :=
      (Clients.opened Record.single .immediate ["p"]).run (body Record.rkyv) staleRequests
    (∀ l ∈ staleRequests, SteadyStep l) ∧
      (∃ r before, (.act 0 (.putRaw "m:p"
          (.metadata ⟨2, 0, false, 0, [], [⟨1, 0, 1, false⟩, ⟨1, 0, 2, false⟩]⟩)) r :: before) <:+
            p.log ∧
        Acknowledged "p" 1 before) ∧
      ∃ before, p.log = .respond 2 (.readVersion "p" 1)
          (.ok (.version ⟨"x", 0⟩ ⟨1, 0, 1, false⟩)) :: before ∧
        BeganAfter "p" 1 2 before := by
  intro p
  refine ⟨by decide, ⟨(.ok () : Except String Unit), p.log.drop 8, ⟨p.log.take 7, rfl⟩, ?_⟩,
    p.log.drop 1, rfl, ?_⟩
  · decide
  · decide

end Kallisto.Engine
