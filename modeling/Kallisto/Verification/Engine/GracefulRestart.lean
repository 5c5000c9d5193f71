import Kallisto.Verification.Engine.BatchMode
import Kallisto.Verification.Engine.Listing
import Kallisto.Verification.Engine.WriteOrder

/-! # Restarts in batch mode

Dropping an engine joins its worker, which writes everything that is still queued. A
client in batch mode goes on with its own writes after any number of restarts. -/

namespace Kallisto.Engine

open Program Interleaving

variable {B : Type}

/-! ## Sessions -/

/-- A step of the engine, or the engine is dropped and opened again: the worker takes the
given steps, and a scan of the database returns the keys. -/
inductive BatchStep (B : Type) where
  | engine (l : Step B Unit)
  | restart (timeouts : List Bool) (keys : List String)

/-- An engine is opened in batch mode. -/
def KvEngine.restarted (s : KvEngine B) (timeouts : List Bool) (keys : List String) : KvEngine B :=
  .opened (s.dropped timeouts).rocksdb .batch (scannedIndex keys)

def batchStep (rkyv : Rkyv B) (p : Clients B Unit) : BatchStep B → Clients B Unit
  | .engine l => p.step (body rkyv) l
  | .restart timeouts keys => { p with shared := p.shared.restarted timeouts keys }

/-- The storage is healthy, the queue has room, no path gets more than `2 ^ 32 - 2` versions
(`FewPuts`), and the cache keeps what is still to be written. A request holds the engine,
so it is dropped between requests; the drop returns when the worker has ended. -/
def BatchRules (a₀ : Store) (p : Clients B Unit) : BatchStep B → Prop
  | .engine l =>
    HealthyWorker l ∧ (SteadyStep l ∧ QueueRoom p l) ∧ FewPuts a₀ p l ∧ CleanDrop p l
  | .restart timeouts keys =>
    p.client () = none ∧ (p.shared.dropped timeouts).worker = .exited ∧
      IsScan (p.shared.dropped timeouts).rocksdb keys

/-! ## The invariant -/

theorem working_opened (db : String → Option B) (mode : SyncMode) (paths : List String) :
    Working (KvEngine.opened db mode paths) :=
  ⟨rfl, by simp [KvEngine.opened], by simp [KvEngine.opened]⟩

/-- The worker keeps working until the engine is dropped. -/
theorem Working.step {rkyv : Rkyv B} {p : Clients B Unit} (h : Working p.shared)
    {l : Step B Unit} (hl : HealthyWorker l) : Working (p.step (body rkyv) l).shared := by
  refine Pool.step_invariant (I := fun p : Clients B Unit => Working p.shared)
    (fun _ l => HealthyWorker l) ?_ ?_ ?_ ?_ h hl
  · exact fun p t c hp _ _ => hp
  · intro p t choice c op k hp _ _
    obtain ⟨hworker, hrunning⟩ := exec_worker p.shared op choice
    exact ⟨hrunning.trans hp.running, hworker ▸ hp.drain, hworker ▸ hp.exited⟩
  · exact fun p t c r hp _ _ => hp
  · intro p e hp he
    cases e with
    | dropEntry key => exact ⟨hp.running, hp.drain, hp.exited⟩
    | changeSyncMode mode => exact ⟨hp.running, hp.drain, hp.exited⟩
    | stop => exact he.elim
    | worker timeout fails =>
      obtain rfl : fails = false := he
      exact hp.workerStep timeout

/-- What holds throughout a session: the requests so far were answered by a store, which
the engine still holds. -/
structure InBatchSession (rkyv : Rkyv B) (a₀ : Store) (p : Clients B Unit) : Prop where
  serialized : Serialized (regime B .batch ⟨true, false⟩) (body rkyv) (Holds rkyv .batch)
    (Answers ⟨true, false⟩) a₀ p
  working : Working p.shared

theorem inBatchSession_opened {rkyv : Rkyv B} {db : String → Option B} {a₀ : Store}
    (hdb : Stores rkyv db a₀) (paths : List String) :
    InBatchSession rkyv a₀ (Clients.opened db .batch paths) :=
  ⟨serialized_opened hdb .batch ⟨true, false⟩ paths, working_opened db .batch paths⟩

section Session

variable {rkyv : Rkyv B} {a₀ : Store} {p : Clients B Unit}

theorem InBatchSession.engine (hrkyv : rkyv.Faithful) (h : InBatchSession rkyv a₀ p)
    {l : Step B Unit} (hl : BatchRules a₀ p (.engine l)) :
    InBatchSession rkyv a₀ (p.step (body rkyv) l) := by
  refine ⟨?_, h.working.step hl.1⟩
  have hsteps : Along (Pool.step (body rkyv))
      (fun p l => (SteadyStep l ∧ QueueRoom p l) ∧ FewPuts a₀ p l ∧ CleanDrop p l) p [l] :=
    ⟨hl.2, trivial⟩
  exact serialized_batch hrkyv h.serialized hsteps

/-- The worker writes what is pending before it ends, so RocksDB holds the store. -/
theorem InBatchSession.stored (h : InBatchSession rkyv a₀ p) (hidle : p.client () = none)
    {timeouts : List Bool} (hexited : (p.shared.dropped timeouts).worker = .exited) :
    ∃ a, History (Answers ⟨true, false⟩) a₀ a p.log ∧
      Stores rkyv (p.shared.dropped timeouts).rocksdb a := by
  obtain ⟨a, hhistory, L, hstores, hrepresents⟩ := h.serialized.idle fun _ => hidle
  refine ⟨a, hhistory, ?_⟩
  rw [(KvEngine.dropped_settles h.working.exited timeouts).2 hexited, hrepresents.settled]
  exact hstores

theorem InBatchSession.restart (h : InBatchSession rkyv a₀ p) (hidle : p.client () = none)
    {timeouts : List Bool} (hexited : (p.shared.dropped timeouts).worker = .exited)
    (keys : List String) :
    InBatchSession rkyv a₀ { p with shared := p.shared.restarted timeouts keys } := by
  obtain ⟨a, hhistory, hstores⟩ := h.stored hidle hexited
  refine ⟨⟨?_, a, hhistory, Or.inl ⟨?_, _, hstores, ?_⟩⟩, working_opened _ _ _⟩
  · intro t c prog hclient
    change p.client () = _ at hclient
    rw [hidle] at hclient
    cases hclient
  · intro t
    change ((p.client ()).isSome && _) = false
    rw [hidle]
    rfl
  · exact (represents_opened _ _).mono fun _ hX => hX.elim

theorem InBatchSession.step (hrkyv : rkyv.Faithful) (h : InBatchSession rkyv a₀ p)
    {l : BatchStep B} (hl : BatchRules a₀ p l) : InBatchSession rkyv a₀ (batchStep rkyv p l) := by
  cases l with
  | engine l => exact h.engine hrkyv hl
  | restart timeouts keys => exact h.restart hl.1 hl.2.1 keys

/-- A scan finds the paths of the store that have a version. -/
theorem Stores.mem_scannedIndex {L : String → Option B} {a : Store} (h : Stores rkyv L a)
    {keys : List String} (hscan : IsScan L keys) (path : String) :
    path ∈ scannedIndex keys ↔ a path ≠ [] := by
  rw [Engine.mem_scannedIndex hscan]
  constructor
  · exact fun hkey hnone => hkey (h.unknown path hnone)
  · intro hknown
    obtain ⟨b, hb, _⟩ := h.known path hknown
    rw [hb]
    exact nofun

end Session

/-! ## Main result -/

theorem KvEngine.remaining_le (s : KvEngine B) : s.remaining ≤ s.asyncQueue.length + 4 := by
  unfold KvEngine.remaining
  split <;> omega

/-- The client reads its own writes throughout the session. The engine can be dropped in
any state, within a bounded number of steps of its worker, and between requests RocksDB is
then left with the store of all answers, and a scan with its paths. -/
structure SurvivesRestarts (rkyv : Rkyv B) (a₀ : Store) (p : Clients B Unit) : Prop where
  reads : ReadsOwnWrites p.log
  joins : ∀ timeouts, p.shared.asyncQueue.length + 4 ≤ timeouts.length →
    (p.shared.dropped timeouts).worker = .exited
  stored : p.client () = none → ∀ timeouts, (p.shared.dropped timeouts).worker = .exited →
    ∃ a, History (Answers ⟨true, false⟩) a₀ a p.log ∧
      Stores rkyv (p.shared.dropped timeouts).rocksdb a ∧
      ∀ keys, IsScan (p.shared.dropped timeouts).rocksdb keys →
        ∀ path, path ∈ scannedIndex keys ↔ a path ≠ []

theorem run_survivesRestarts {rkyv : Rkyv B} (hrkyv : rkyv.Faithful) {db : String → Option B}
    {a₀ : Store} (hdb : Stores rkyv db a₀) (paths : List String) (session : List (BatchStep B))
    (hsteps : Along (batchStep rkyv) (BatchRules a₀) (Clients.opened db .batch paths) session) :
    SurvivesRestarts rkyv a₀
      (session.foldl (batchStep rkyv) (Clients.opened db .batch paths)) := by
  have h := Along.invariant (I := InBatchSession rkyv a₀) (fun p l hp hl => hp.step hrkyv hl)
    session _ (inBatchSession_opened hdb paths) hsteps
  generalize session.foldl (batchStep rkyv) (Clients.opened db .batch paths) = p at h
  refine ⟨?_, ?_, ?_⟩
  · obtain ⟨a, hhistory, _⟩ := h.serialized.running
    exact readsOwnWrites rfl hhistory
  · intro timeouts hlong
    refine (KvEngine.dropped_settles h.working.exited timeouts).1 ?_
    exact p.shared.remaining_le.trans hlong
  · intro hidle timeouts hexited
    obtain ⟨a, hhistory, hstores⟩ := h.stored hidle hexited
    exact ⟨a, hhistory, hstores, fun keys hscan => hstores.mem_scannedIndex hscan⟩

/-- The steps of an engine that is not dropped. -/
theorem along_batch {rkyv : Rkyv B} {a₀ : Store} {labels : List (Step B Unit)}
    {p : Clients B Unit} (h : Along (Pool.step (body rkyv))
      (fun p l => HealthyWorker l ∧ (SteadyStep l ∧ QueueRoom p l) ∧ FewPuts a₀ p l ∧ CleanDrop p l)
      p labels) :
    Along (batchStep rkyv) (BatchRules a₀) p (labels.map .engine) := by
  induction labels generalizing p with
  | nil => trivial
  | cons l labels ih => exact ⟨h.1, ih h.2⟩

/-- A version is put, the engine is dropped with the writes still queued, and the version
is read from the engine that was opened again. -/
def handover : List (BatchStep Record) :=
  (requesting () (.putVersion "a/x" ⟨"x", 0⟩ none) 10).map .engine ++
    .restart (List.replicate 6 false) [buildMetaKey "a/x", buildVersionKey "a/x" 1] ::
      (requesting () (.readVersion "a/x" 0) 6).map .engine

theorem handover_scan :
    IsScan ((((requesting () (.putVersion "a/x" ⟨"x", 0⟩ none) 10).map .engine).foldl
        (batchStep Record.rkyv) (Clients.opened (fun _ => none) .batch [])).shared.dropped
          (List.replicate 6 false)).rocksdb
      [buildMetaKey "a/x", buildVersionKey "a/x" 1] :=
  (isScan_empty.cons (buildVersionKey "a/x" 1) nofun (Record.payload ⟨"x", 0⟩)).cons
    (buildMetaKey "a/x") (by decide) (.metadata ⟨1, 0, false, 0, [], [⟨1, 0, 1, false⟩]⟩)

theorem run_survivesRestarts_handover :
    Along (batchStep Record.rkyv) (BatchRules fun _ => []) (Clients.opened (fun _ => none) .batch [])
        handover ∧
      SurvivesRestarts Record.rkyv (fun _ => [])
        (handover.foldl (batchStep Record.rkyv) (Clients.opened (fun _ => none) .batch [])) := by
  have hsteps : Along (batchStep Record.rkyv) (BatchRules fun _ => [])
      (Clients.opened (fun _ => none) .batch []) handover :=
    (along_batch (by decide)).append ⟨⟨rfl, rfl, handover_scan⟩, along_batch (by decide)⟩
  exact ⟨hsteps, run_survivesRestarts Record.rkyv_faithful (stores_empty _) [] handover hsteps⟩

end Kallisto.Engine
