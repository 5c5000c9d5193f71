import Kallisto.Verification.Engine.Effects
import Kallisto.Verification.Engine.Keys
import Kallisto.Verification.Engine.Pending

/-! # The order of writes on disk -/

namespace Kallisto.Engine

open Program Interleaving

variable {B : Type} {c : Call} {r : Except EngineError Out}

/-! ## Acknowledged raw writes -/

/-- The accepted raw writes of a run, in the order of the calls. -/
def acknowledged {Tid : Type} :
    List (Event (system B) EngineError Call Out Tid) → List (AsyncOp B)
  | [] => []
  | .act _ op r :: log => acknowledged log ++ (op.acked r).toList
  | _ :: log => acknowledged log

/-- The metadata record of a path among accepted writes. -/
def recordIn (path : String) (writes : List (AsyncOp B)) : Option B :=
  (writes.find? fun op => op.key = buildMetaKey path).bind AsyncOp.value

/-- The metadata record written by the last acknowledged mutation of a path. -/
def lastRecord (path : String) :
    List (Event (system B) EngineError Call Out Unit) → Option B
  | [] => none
  | .respond t c (.ok _) :: log =>
    if c.mutates = some path then recordIn path (writesOf (callTrace t log))
    else lastRecord path log
  | _ :: log => lastRecord path log

/-- A mutation of the path was acknowledged. -/
def Mutated (path : String) (log : List (Event (system B) EngineError Call Out Unit)) : Prop :=
  ∃ t c out, .respond t c (.ok out) ∈ log ∧ c.mutates = some path

/-! ## What a request writes -/

/-- The protocol that collects accepted writes. -/
def ackProtocol : Protocol (Effect.Ret (B := B)) (List (AsyncOp B)) where
  allowed _ _ := True
  possible
    | _, .enqueue _, (r : Except QueueError Unit) => r ≠ .error .empty
    | _, _, _ => True
  next writes op r := (op.acked r).toList ++ writes

theorem ackProtocol_after (trace : List ((op : Effect B) × op.Ret)) :
    ackProtocol.after [] trace = writesOf trace := by
  induction trace with
  | nil => rfl
  | cons x trace ih =>
    change (x.1.acked x.2).toList ++ ackProtocol.after [] trace = _
    rw [ih]
    cases h : x.1.acked x.2 <;> simp [writesOf, h]

/-- None of the writes is to a metadata record. -/
def NoMetadata (writes : List (AsyncOp B)) : Prop :=
  ∀ op ∈ writes, ∀ path, op.key ≠ buildMetaKey path

/-- A mutation writes the metadata of its path last, and fails only before that. -/
def Committed {α : Type} (path : String) (writes : List (AsyncOp B)) :
    Except EngineError α → Prop
  | .ok _ => ∃ b rest, writes = .put (buildMetaKey path) b :: rest ∧ NoMetadata rest
  | .error _ => NoMetadata writes

section Committed

variable {α β : Type} {prog : EngineM B α} {f : α → EngineM B β}

/-- The program makes no raw write. -/
def Silent (prog : EngineM B α) : Prop :=
  ∀ writes, Follows ackProtocol (fun writes' _ => writes' = writes) writes prog

/-- The program is the rest of a mutation of the path. -/
def Commits (path : String) (prog : EngineM B α) : Prop :=
  ∀ writes, NoMetadata writes → Follows ackProtocol (Committed path) writes prog

theorem Silent.bind (h : Silent prog) (hf : ∀ a, Silent (f a)) : Silent (prog >>= f) := by
  intro writes
  refine Follows.bind ?_ ?_ (h writes)
  · rintro _ a rfl
    exact hf a _
  · exact fun _ _ h => h

theorem Silent.bind_commits {path : String} (h : Silent prog) (hf : ∀ a, Commits path (f a)) :
    Commits path (prog >>= f) := by
  intro writes hwrites
  refine Follows.bind ?_ ?_ (h writes)
  · rintro _ a rfl
    exact hf a _ hwrites
  · rintro _ e rfl
    exact hwrites

theorem Commits.bind_done {path : String} (h : Commits path prog) (b : β) :
    Commits path (prog >>= fun _ => .done (.ok b)) := by
  intro writes hwrites
  refine Follows.bind ?_ ?_ (h writes hwrites)
  · exact fun _ _ hok => hok
  · exact fun _ _ herror => herror

theorem silent_done (r : Except EngineError α) : Silent (.done r : EngineM B α) :=
  fun _ => rfl

theorem commits_error (path : String) (e : EngineError) :
    Commits path (.done (.error e) : EngineM B α) :=
  fun _ hwrites => hwrites

theorem silent_readRawOptimistic {R : Type} (key : String) (f : B → R) :
    Silent (readRawOptimistic key f) := by
  intro writes
  refine ⟨trivial, ?_⟩
  rintro (_ | payload) -
  · refine ⟨trivial, ?_⟩
    rintro (e | (_ | disk)) -
    · rfl
    · rfl
    · exact ⟨trivial, fun _ _ => rfl⟩
  · rfl

theorem follows_enqueueOrExecute_acked (op : AsyncOp B) (writes : List (AsyncOp B)) :
    Follows ackProtocol (fun writes' r => writes' = match r with
      | .ok _ => op :: writes
      | .error _ => writes) writes (enqueueOrExecute op) := by
  refine ⟨trivial, ?_⟩
  rintro (_ | _) -
  · cases op with
    | put key value =>
      refine ⟨trivial, ?_⟩
      rintro (e | ⟨⟩) - <;> rfl
    | delete key =>
      refine ⟨trivial, ?_⟩
      rintro (e | ⟨⟩) - <;> rfl
  · refine ⟨trivial, ?_⟩
    rintro ((_ | _) | ⟨⟩) hpossible
    · rfl
    · exact (hpossible rfl).elim
    · rfl

theorem noMetadata_cons_version {op : AsyncOp B} {writes : List (AsyncOp B)} {path : String}
    {n : UInt32} (hop : op.key = buildVersionKey path n) (h : NoMetadata writes) :
    NoMetadata (op :: writes) := by
  intro op' hmem path'
  rcases List.mem_cons.mp hmem with rfl | hmem
  · rw [hop]
    exact (buildMetaKey_ne_buildVersionKey _ _ _).symm
  · exact h op' hmem path'

/-- A payload record is written before the metadata. -/
theorem commits_enqueueOrExecute {path path' : String} {n : UInt32} {op : AsyncOp B}
    {f : Unit → EngineM B α} (hop : op.key = buildVersionKey path' n)
    (hf : ∀ a, Commits path (f a)) : Commits path (enqueueOrExecute op >>= f) := by
  intro writes hwrites
  refine Follows.bind ?_ ?_ (follows_enqueueOrExecute_acked op writes)
  · rintro _ a rfl
    exact hf a _ (noMetadata_cons_version hop hwrites)
  · rintro _ e rfl
    exact hwrites

variable (rkyv : Rkyv B)

theorem silent_serializePayload (x : SecretPayload) : Silent (serializePayload rkyv x) := by
  unfold serializePayload
  split <;> exact silent_done _

theorem silent_serializeMetadata (m : KeyMetadata) : Silent (serializeMetadata rkyv m) := by
  unfold serializeMetadata
  split <;> exact silent_done _

theorem commits_storeMetadata (path : String) (m : KeyMetadata) :
    Commits path (storeMetadata rkyv path m) := by
  refine (silent_serializeMetadata rkyv m).bind_commits fun bytes writes hwrites => ?_
  refine Follows.bind ?_ ?_ (follows_enqueueOrExecute_acked _ writes)
  · rintro _ ⟨⟩ rfl
    exact ⟨trivial, fun _ _ => ⟨bytes, writes, rfl, hwrites⟩⟩
  · rintro _ e rfl
    exact hwrites

theorem silent_readMetadata (path : String) : Silent (readMetadata rkyv path) := by
  refine (silent_readRawOptimistic _ _).bind fun found => ?_
  cases found <;> exact silent_done _

theorem silent_readVersion (path : String) (version : UInt32) :
    Silent (readVersion rkyv path version) := by
  refine (silent_readRawOptimistic _ _).bind fun found => ?_
  rcases found with _ | ⟨target, _ | v⟩
  · exact silent_done _
  · exact silent_done _
  · dsimp only
    split
    · exact silent_done _
    · split
      · exact silent_done _
      · split
        · exact silent_done _
        · refine (silent_readRawOptimistic _ _).bind fun payload => ?_
          cases payload <;> exact silent_done _

theorem silent_readMetadataOrDefault (path : String) :
    Silent (readMetadataOrDefault rkyv path) := by
  have hread : Silent (readMetadata rkyv path).attempt :=
    fun writes => Follows.attempt (fun _ _ h => h) (silent_readMetadata rkyv path writes)
  refine hread.bind fun found => ?_
  rcases found with (_ | _ | _ | _ | _ | _ | _) | m <;> exact silent_done _

theorem silent_checkCas (cas : Option UInt32) (m : KeyMetadata) :
    Silent (checkCas cas m : EngineM B Unit) := by
  unfold checkCas
  split
  · split <;> exact silent_done _
  · exact silent_done _

theorem commits_appendVersion (path : String) (x : SecretPayload) (m : KeyMetadata) :
    Commits path (appendVersion rkyv path x m) := by
  refine fun writes hwrites => ⟨trivial, fun created _ => ?_⟩
  refine (silent_serializePayload rkyv x).bind_commits (fun bytes => ?_) writes hwrites
  refine commits_enqueueOrExecute rfl fun _ writes hwrites => ⟨trivial, fun _ _ => ?_⟩
  have hstore := commits_storeMetadata rkyv path { m with
    currentVersion := m.currentVersion + 1
    versions := m.versions ++ [⟨created, 0, m.currentVersion + 1, false⟩] } writes hwrites
  change Follows ackProtocol (Committed path) writes
    (storeMetadata rkyv path _ >>= fun _ => insertPathIfAbsent path)
  refine Follows.bind ?_ ?_ hstore
  · exact fun _ _ hok => ⟨trivial, fun _ _ => hok⟩
  · exact fun _ _ herror => herror

theorem commits_putVersion (path : String) (x : SecretPayload) (cas : Option UInt32) :
    Commits path (putVersion rkyv path x cas) :=
  (silent_readMetadataOrDefault rkyv path).bind_commits fun m =>
    (silent_checkCas cas m).bind_commits fun _ => commits_appendVersion rkyv path x m

theorem commits_softDelete (path : String) (version : UInt32) :
    Commits path (softDelete rkyv path version) := by
  refine (silent_readMetadata rkyv path).bind_commits fun m => ?_
  split
  · exact commits_error path _
  · exact fun writes hwrites =>
      ⟨trivial, fun now _ => commits_storeMetadata rkyv path _ writes hwrites⟩

theorem commits_undelete (path : String) (version : UInt32) :
    Commits path (undelete rkyv path version) := by
  refine (silent_readMetadata rkyv path).bind_commits fun m => ?_
  split
  · exact commits_error path _
  · split
    · exact commits_error path _
    · exact commits_storeMetadata rkyv path _

theorem commits_destroyVersion (path : String) (version : UInt32) :
    Commits path (destroyVersion rkyv path version) := by
  refine (silent_readMetadata rkyv path).bind_commits fun m => ?_
  split
  · exact commits_error path _
  · refine commits_enqueueOrExecute rfl fun _ writes hwrites => ⟨trivial, fun _ _ => ?_⟩
    exact commits_storeMetadata rkyv path _ writes hwrites

end Committed

/-- How a request ends after its accepted writes. -/
def Outcome (c : Call) (writes : List (AsyncOp B)) (r : Except EngineError Out) : Prop :=
  match c.mutates with
  | some path => Committed path writes r
  | none => writes = []

theorem follows_body_outcome (rkyv : Rkyv B) (c : Call) :
    Follows ackProtocol (Outcome c) [] (body rkyv c) := by
  have hnone : NoMetadata ([] : List (AsyncOp B)) := by simp [NoMetadata]
  cases c with
  | readMetadata path =>
    exact (silent_readMetadata rkyv path).bind (fun _ => silent_done _) []
  | readVersion path version =>
    exact (silent_readVersion rkyv path version).bind (fun _ => silent_done _) []
  | putVersion path x cas => exact (commits_putVersion rkyv path x cas).bind_done _ [] hnone
  | softDelete path version => exact (commits_softDelete rkyv path version).bind_done _ [] hnone
  | undelete path version => exact (commits_undelete rkyv path version).bind_done _ [] hnone
  | destroyVersion path version =>
    exact (commits_destroyVersion rkyv path version).bind_done _ [] hnone

theorem NoMetadata.find?_eq_none {writes : List (AsyncOp B)} (h : NoMetadata writes)
    (path : String) : (writes.find? fun op => op.key = buildMetaKey path) = none := by
  rw [List.find?_eq_none]
  intro op hop
  simpa using h op hop path

/-- An acknowledged mutation has written the record of its path. -/
theorem Outcome.ok {writes : List (AsyncOp B)} {out : Out} {path : String}
    (h : Outcome c writes (.ok out)) (hpath : c.mutates = some path) :
    ∃ b, writes.find? (fun op => op.key = buildMetaKey path) =
      some (.put (buildMetaKey path) b) := by
  unfold Outcome at h
  rw [hpath] at h
  obtain ⟨b, rest, rfl, _⟩ := h
  exact ⟨b, by simp [AsyncOp.key]⟩

/-- Any other request has not. -/
theorem Outcome.find?_eq_none {writes : List (AsyncOp B)} (h : Outcome c writes r)
    {path : String} (hother : ∀ out, r = .ok out → c.mutates ≠ some path) :
    (writes.find? fun op => op.key = buildMetaKey path) = none := by
  unfold Outcome at h
  split at h
  · next path' hpath =>
      cases r with
      | error e => exact NoMetadata.find?_eq_none h path
      | ok out =>
        obtain ⟨b, rest, rfl, hrest⟩ := h
        have hne : path' ≠ path := fun he => hother out rfl (hpath.trans (congrArg some he))
        rw [List.find?_cons_of_neg]
        · exact hrest.find?_eq_none path
        · simpa [AsyncOp.key, buildMetaKey_inj] using hne
  · rw [h]
    rfl

/-! ## Steps -/

/-- Steps of a healthy worker, before the engine is dropped. -/
def HealthyWorker {Tid : Type} : Step B Tid → Prop
  | .env (.worker _ fails) => fails = false
  | .env .stop => False
  | _ => True

/-- A direct write is made only when no write to its key is pending. -/
def NotOvertaking {Tid : Type} (p : Clients B Tid) : Step B Tid → Prop
  | .act t _ => ∀ op ∈ p.shared.pending, (p.nextCall t).bind Effect.writes ≠ some op.key
  | _ => True

/-- Accepted writes take effect in order. -/
theorem exec_settled (s : KvEngine B) (op : Effect B) (c : Choice)
    (h : ∀ op' ∈ s.pending, op.writes ≠ some op'.key) :
    (s.exec op c).2.settled = applyBatch s.settled (op.acked (s.exec op c).1).toList := by
  have hwrite : ∀ o : AsyncOp B, op.writes = some o.key → ∀ op' ∈ s.pending, op'.key ≠ o.key :=
    fun o ho op' hop' he => h op' hop' (ho.trans (congrArg some he.symm))
  obtain ⟨error, now⟩ := c
  cases op with
  | getRaw key => cases error <;> rfl
  | putRaw key value =>
    cases error with
    | some e => rfl
    | none => exact s.settled_write (hwrite (.put key value) rfl)
  | delRaw key =>
    cases error with
    | some e => rfl
    | none => exact s.settled_write (hwrite (.delete key) rfl)
  | enqueue op =>
    simp only [KvEngine.exec]
    split
    · exact s.settled_enqueue op
    · rfl
  | _ => rfl

theorem exec_possible (s : KvEngine B) (op : Effect B) (c : Choice)
    (writes : List (AsyncOp B)) : ackProtocol.possible writes op (s.exec op c).1 := by
  cases op with
  | enqueue op =>
    simp only [KvEngine.exec]
    split
    · exact fun h => by cases h
    · exact fun h => by cases h
  | _ => trivial

theorem exec_worker (s : KvEngine B) (op : Effect B) (c : Choice) :
    (s.exec op c).2.worker = s.worker ∧ (s.exec op c).2.asyncRunning = s.asyncRunning := by
  obtain ⟨error, now⟩ := c
  cases op with
  | getRaw key => cases error <;> exact ⟨rfl, rfl⟩
  | putRaw key value => cases error <;> exact ⟨rfl, rfl⟩
  | delRaw key => cases error <;> exact ⟨rfl, rfl⟩
  | enqueue op =>
    simp only [KvEngine.exec]
    split <;> exact ⟨rfl, rfl⟩
  | _ => exact ⟨rfl, rfl⟩

/-! ## The invariant of a run -/

/-- The record of a path that the writes of the running request leave. -/
def currentRecord (path : String)
    (log : List (Event (system B) EngineError Call Out Unit)) : Option B :=
  match (writesOf (callTrace () log)).find? fun op => op.key = buildMetaKey path with
  | some op => op.value
  | none => lastRecord path log

/-- The worker has not begun its final drain. -/
structure Working (s : KvEngine B) : Prop where
  running : s.asyncRunning = true
  drain : s.worker ≠ .drain
  exited : s.worker ≠ .exited

structure Ordered (db : String → Option B) (p : Clients B Unit) : Prop where
  working : Working p.shared
  tracked : Tracked ackProtocol Outcome [] p
  contents : p.shared.settled = applyBatch db (acknowledged p.log)
  busy : ∀ x, p.client () = some x → ∀ path b, currentRecord path p.log = some b →
    applyBatch db (acknowledged p.log) (buildMetaKey path) = some b
  idle : p.client () = none → ∀ path b, lastRecord path p.log = some b →
    applyBatch db (acknowledged p.log) (buildMetaKey path) = some b
  mutated : ∀ path, Mutated path p.log → ∃ b, lastRecord path p.log = some b

theorem ordered_init (db : String → Option B) (mode : SyncMode) (paths : List String) :
    Ordered db (Clients.opened db mode paths) where
  working := ⟨rfl, by simp [Pool.init, KvEngine.opened], by simp [Pool.init, KvEngine.opened]⟩
  tracked := tracked_init _
  contents := rfl
  busy _ h := by cases h
  idle _ _ _ h := by cases h
  mutated := by
    rintro path ⟨t, c, out, hmem, _⟩
    cases hmem

theorem Working.workerStep {s : KvEngine B} (h : Working s) (timeout : Bool) :
    Working (s.workerStep timeout false) := by
  rw [KvEngine.workerStep_eq]
  obtain ⟨cache, db, mode, queue, running, worker, batch, paths⟩ := s
  obtain ⟨hrunning, hdrain, hexited⟩ := h
  obtain rfl : running = true := hrunning
  cases worker with
  | head => exact ⟨rfl, nofun, nofun⟩
  | poll =>
    cases queue with
    | nil => exact ⟨rfl, nofun, nofun⟩
    | cons op rest => exact ⟨rfl, nofun, nofun⟩
  | settle =>
    dsimp only
    split <;> exact ⟨rfl, nofun, nofun⟩
  | drain => exact (hdrain rfl).elim
  | exited => exact (hexited rfl).elim

section Steps

variable {db : String → Option B} {p : Clients B Unit} {t : Unit}

theorem Mutated.of_cons {path : String} {e : Event (system B) EngineError Call Out Unit}
    {log : List (Event (system B) EngineError Call Out Unit)}
    (he : ∀ t c r, e ≠ .respond t c r) (h : Mutated path (e :: log)) : Mutated path log := by
  obtain ⟨t, c, out, hmem, hpath⟩ := h
  rcases List.mem_cons.mp hmem with rfl | hmem
  · exact (he _ _ _ rfl).elim
  · exact ⟨t, c, out, hmem, hpath⟩

theorem Ordered.invoke (h : Ordered db p) (rkyv : Rkyv B) (hclient : p.client t = none) :
    Ordered db ⟨p.shared, p.setClient t (some (c, body rkyv c)), .invoke t c :: p.log⟩ where
  working := h.working
  tracked := h.tracked.invoke (follows_body_outcome rkyv c) t
  contents := h.contents
  busy _ _ path b hb := h.idle hclient path b hb
  idle hidle := by cases hidle
  mutated path hpath := h.mutated path (hpath.of_cons fun _ _ _ he => by cases he)

theorem Ordered.env (h : Ordered db p) {e : EnvStep}
    (he : HealthyWorker (.env e : Step B Unit)) :
    Ordered db ⟨p.shared.env e, p.client, .env e :: p.log⟩ where
  working := by
    cases e with
    | dropEntry key => exact ⟨h.working.running, h.working.drain, h.working.exited⟩
    | worker timeout fails =>
      obtain rfl : fails = false := he
      exact h.working.workerStep timeout
    | changeSyncMode mode => exact ⟨h.working.running, h.working.drain, h.working.exited⟩
    | stop => exact he.elim
  tracked := h.tracked.env _ e
  contents := by
    cases e with
    | dropEntry key => exact h.contents
    | worker timeout fails =>
      obtain rfl : fails = false := he
      exact (KvEngine.workerStep_moves _ timeout).settled.trans h.contents
    | changeSyncMode mode => exact h.contents
    | stop => exact he.elim
  busy := h.busy
  idle := h.idle
  mutated path hpath := h.mutated path (hpath.of_cons fun _ _ _ he => by cases he)

/-- An accepted write of a metadata record becomes the current record. -/
theorem currentRecord_act (path : String) (op : Effect B) (r : op.Ret)
    (log : List (Event (system B) EngineError Call Out Unit)) :
    currentRecord path (.act () op r :: log) =
      match op.acked r with
      | some o => if o.key = buildMetaKey path then o.value else currentRecord path log
      | none => currentRecord path log := by
  have hlast : lastRecord path (.act () op r :: log) = lastRecord path log := rfl
  unfold currentRecord
  rw [hlast]
  cases h : op.acked r with
  | none => simp [callTrace, writesOf, h]
  | some o => by_cases hkey : o.key = buildMetaKey path <;> simp [callTrace, writesOf, h, hkey]

theorem Ordered.act (h : Ordered db p) {choice : Choice} {op : Effect B}
    {k : op.Ret → EngineM B Out} (hclient : p.client t = some (c, .call op k))
    (hwrites : ∀ op' ∈ p.shared.pending, op.writes ≠ some op'.key) :
    Ordered db ⟨(p.shared.exec op choice).2,
      p.setClient t (some (c, k (p.shared.exec op choice).1)),
      .act t op (p.shared.exec op choice).1 :: p.log⟩ where
  working := by
    obtain ⟨hworker, hrunning⟩ := exec_worker p.shared op choice
    refine ⟨hrunning.trans h.working.running, ?_, ?_⟩
    · rw [hworker]
      exact h.working.drain
    · rw [hworker]
      exact h.working.exited
  tracked := h.tracked.act hclient (exec_possible _ _ _ _)
  contents := by
    rw [exec_settled _ _ _ hwrites, h.contents]
    exact (applyBatch_append db _ _).symm
  busy x _ path b hb := by
    rw [currentRecord_act] at hb
    change applyBatch db (acknowledged p.log ++ _) _ = _
    rw [applyBatch_append]
    cases hacked : op.acked (p.shared.exec op choice).1 with
    | none =>
      rw [hacked] at hb
      exact h.busy _ hclient path b hb
    | some o =>
      rw [hacked] at hb
      rw [Option.toList_some, applyBatch_singleton]
      dsimp only at hb
      split at hb
      · next hkey => rw [← hkey, AsyncOp.apply_key, hb]
      · next hkey =>
          rw [AsyncOp.apply_of_ne _ (Ne.symm hkey)]
          exact h.busy _ hclient path b hb
  idle hidle := by
    change Function.update p.client t _ () = none at hidle
    rw [Function.update_self] at hidle
    cases hidle
  mutated path hpath := h.mutated path (hpath.of_cons fun _ _ _ he => by cases he)

theorem Ordered.respond (h : Ordered db p) (hclient : p.client t = some (c, .done r)) :
    Ordered db ⟨p.shared, p.setClient t none, .respond t c r :: p.log⟩ := by
  have hout : Outcome c (writesOf (callTrace t p.log)) r := by
    rw [← ackProtocol_after]
    exact h.tracked.returns hclient
  -- The last record of a path after the response is its current record before it.
  have hlast : ∀ path, (∃ out, r = .ok out ∧ c.mutates = some path ∧
      ∃ b, lastRecord path (.respond t c r :: p.log) = some b ∧
        currentRecord path p.log = some b) ∨
      (∀ out, r = .ok out → c.mutates ≠ some path) ∧
        lastRecord path (.respond t c r :: p.log) = lastRecord path p.log ∧
        currentRecord path p.log = lastRecord path p.log := by
    intro path
    by_cases hpath : ∃ out, r = .ok out ∧ c.mutates = some path
    · obtain ⟨out, rfl, hpath⟩ := hpath
      obtain ⟨b, hb⟩ := hout.ok hpath
      refine Or.inl ⟨out, rfl, hpath, b, ?_, ?_⟩
      · simp [lastRecord, hpath, recordIn, hb, AsyncOp.value]
      · simp [currentRecord, hb, AsyncOp.value]
    · have hother : ∀ out, r = .ok out → c.mutates ≠ some path :=
        fun out hr hc => hpath ⟨out, hr, hc⟩
      refine Or.inr ⟨hother, ?_, ?_⟩
      · cases r with
        | error e => rfl
        | ok out => simp [lastRecord, hother out rfl]
      · simp [currentRecord, hout.find?_eq_none hother]
  refine ⟨h.working, h.tracked.respond t c r, h.contents, ?_, ?_, ?_⟩
  · intro x hx
    change Function.update p.client t none () = some x at hx
    rw [Function.update_self] at hx
    cases hx
  · intro _ path b hb
    refine h.busy _ hclient path b ?_
    rcases hlast path with ⟨out, _, _, b', hb', hcurrent⟩ | ⟨_, hsame, hcurrent⟩
    · rw [hcurrent, ← hb', hb]
    · rw [hcurrent, ← hsame, hb]
  · rintro path ⟨t', c', out, hmem, hpath⟩
    rcases hlast path with ⟨_, _, _, b', hb', _⟩ | ⟨hother, hsame, _⟩
    · exact ⟨b', hb'⟩
    · rcases List.mem_cons.mp hmem with heq | hmem
      · cases heq
        exact (hother out rfl hpath).elim
      · rw [hsame]
        exact h.mutated path ⟨t', c', out, hmem, hpath⟩

end Steps

/-! ## Runs -/

/-- Once the engine is dropped and its worker has ended, which it does, RocksDB holds what
the accepted writes leave there in the order of the calls; for a path that was mutated
this is the record of the last acknowledged mutation. -/
def KeepsOrder (db : String → Option B) (p : Clients B Unit) : Prop :=
  ∀ timeouts, (p.shared.remaining ≤ timeouts.length →
      (p.shared.dropped timeouts).worker = .exited) ∧
    ((p.shared.dropped timeouts).worker = .exited →
      (p.shared.dropped timeouts).rocksdb = applyBatch db (acknowledged p.log) ∧
      (p.client () = none → ∀ path, Mutated path p.log → ∃ b,
        lastRecord path p.log = some b ∧
          (p.shared.dropped timeouts).rocksdb (buildMetaKey path) = some b))

theorem Ordered.keepsOrder {db : String → Option B} {p : Clients B Unit} (h : Ordered db p) :
    KeepsOrder db p := by
  intro timeouts
  obtain ⟨hends, hcontents⟩ := KvEngine.dropped_settles h.working.exited timeouts
  refine ⟨hends, fun hexited => ?_⟩
  have hdb : (p.shared.dropped timeouts).rocksdb = applyBatch db (acknowledged p.log) :=
    (hcontents hexited).trans h.contents
  refine ⟨hdb, fun hidle path hpath => ?_⟩
  obtain ⟨b, hb⟩ := h.mutated path hpath
  exact ⟨b, hb, by rw [hdb, h.idle hidle path b hb]⟩

/-- A client whose direct writes never overtake pending ones keeps the order, however the
mode is switched and the worker is scheduled. -/
theorem run_keepsOrder (rkyv : Rkyv B) (db : String → Option B) (mode : SyncMode)
    (paths : List String) (labels : List (Step B Unit))
    (hsteps : Along (Pool.step (body rkyv)) (fun p l => HealthyWorker l ∧ NotOvertaking p l)
      (Clients.opened db mode paths) labels) :
    KeepsOrder db ((Clients.opened db mode paths).run (body rkyv) labels) := by
  have hinv : Ordered db ((Clients.opened db mode paths).run (body rkyv) labels) := by
    refine Pool.run_invariant ?_ ?_ ?_ ?_ (ordered_init db mode paths) hsteps
    · exact fun p t c h _ hclient => h.invoke rkyv hclient
    · intro p t choice c op k h hok hclient
      refine h.act hclient fun op' hop' hwrites => hok.2 op' hop' ?_
      simpa [Pool.nextCall, hclient] using hwrites
    · exact fun p t c r h _ hclient => h.respond hclient
    · exact fun p e h hok => h.env hok.1
  exact hinv.keepsOrder

instance {Tid : Type} (l : Step B Tid) : Decidable (HealthyWorker l) :=
  match l with
  | .act _ _ => .isTrue trivial
  | .invoke _ _ => .isTrue trivial
  | .respond _ => .isTrue trivial
  | .env (.changeSyncMode _) => .isTrue trivial
  | .env (.dropEntry _) => .isTrue trivial
  | .env (.worker _ fails) => inferInstanceAs (Decidable (fails = false))
  | .env .stop => .isFalse id

instance {Tid : Type} (p : Clients B Tid) (l : Step B Tid) : Decidable (NotOvertaking p l) :=
  match l with
  | .act t _ => inferInstanceAs (Decidable
      (∀ op ∈ p.shared.pending, (p.nextCall t).bind Effect.writes ≠ some op.key))
  | .invoke _ _ => .isTrue trivial
  | .respond _ => .isTrue trivial
  | .env _ => .isTrue trivial

/-- A put in batch mode, the given steps of the worker, and a put in immediate mode. -/
def switching (worker : List Bool) : List (Step Record Unit) :=
  List.flatten [
    requesting () (.putVersion "p" ⟨"x", 0⟩ none) 10,
    worker.map fun timeout => .env (.worker timeout false),
    [.env (.changeSyncMode .immediate)],
    requesting () (.putVersion "p" ⟨"y", 0⟩ none) 9]

theorem run_keepsOrder_flushed :
    Along (Pool.step (body Record.rkyv)) (fun p l => HealthyWorker l ∧ NotOvertaking p l)
        (Clients.opened (fun _ => none) .batch [])
        (switching [false, false, false, false, false, true]) ∧
      KeepsOrder (fun _ => none) ((Clients.opened (fun _ => none) .batch []).run
        (body Record.rkyv) (switching [false, false, false, false, false, true])) := by
  have hsteps : Along (Pool.step (body Record.rkyv))
      (fun p l => HealthyWorker l ∧ NotOvertaking p l)
      (Clients.opened (fun _ => none) .batch [])
      (switching [false, false, false, false, false, true]) := by decide
  exact ⟨hsteps, run_keepsOrder _ _ _ _ _ hsteps⟩

/-- With the first put still queued, the second one reaches the disk first, and the drop
of the engine writes the older record over it. -/
theorem switching_reorders :
    Along (Pool.step (body Record.rkyv)) (fun _ l => HealthyWorker l)
        (Clients.opened (fun _ => none) .batch []) (switching []) ∧
      ¬ KeepsOrder (fun _ => none) ((Clients.opened (fun _ => none) .batch []).run
        (body Record.rkyv) (switching [])) := by
  refine ⟨by decide, fun h => ?_⟩
  have hexited := (h [false, false, false, false]).1 (by decide)
  have hdb := ((h [false, false, false, false]).2 hexited).1
  have hrecord := congrArg (fun db => db (buildMetaKey "p")) hdb
  revert hrecord
  decide

end Kallisto.Engine
