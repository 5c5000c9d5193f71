import Kallisto.Verification.Engine.Isolation

/-! # Restarts are invisible

In immediate mode on a healthy storage a client cannot tell an engine that was dropped and
opened again from one that was not. -/

namespace Kallisto.Engine

open Program Interleaving

variable {B : Type} {books₀ : Books B} {records : String → Option B} {p : Clients B Unit}

/-! ## Sessions -/

/-- A session of one client: a step of the engine, or the engine is opened again after it
was dropped, on the keys that a scan of the database returns. -/
inductive SessionStep (B : Type) where
  | engine (l : Step B Unit)
  | reopen (keys : List String)

/-- The engine opened again in immediate mode. -/
def KvEngine.reopened (s : KvEngine B) (keys : List String) : KvEngine B :=
  .opened s.rocksdb .immediate (scannedIndex keys)

def sessionStep (rkyv : Rkyv B) (p : Clients B Unit) : SessionStep B → Clients B Unit
  | .engine l => p.step (body rkyv) l
  | .reopen keys => { p with shared := p.shared.reopened keys }

/-- The storage is healthy. The engine is opened again between requests, when its worker
has ended. -/
def SessionRules (p : Clients B Unit) : SessionStep B → Prop
  | .engine l => SteadyStep l
  | .reopen keys => p.client () = none ∧ p.shared.worker = .exited ∧ IsScan p.shared.rocksdb keys

/-! ## The index and the metadata -/

/-- The paths in the index are those with metadata. -/
def Indexed (books : Books B) : Prop :=
  ∀ path, path ∈ books.paths ↔ books.metadata path ≠ none

theorem Leaves.indexed {rkyv : Rkyv B} {books books' : Books B} {c : Call}
    {r : Except EngineError Out} (h : Leaves rkyv books c r books') (hindexed : Indexed books) :
    Indexed books' := by
  intro path
  cases h with
  | keeps hmetadata hpaths hput =>
    rw [hpaths, hmetadata]
    exact hindexed path
  | @put path' x cas b _ hnumber hmetadata hpaths =>
    rw [hpaths, hmetadata, Books.mem_register]
    by_cases hpath : path = path'
    · rw [hpath, Function.update_self]
      exact iff_of_true (Or.inl rfl) nofun
    · rw [Function.update_of_ne hpath, or_iff_right hpath]
      exact hindexed path
  | @edit _ path' before b _ hput hbefore hnumber hmetadata hpaths =>
    rw [hpaths, hmetadata, hindexed path]
    by_cases hpath : path = path'
    · rw [hpath, Function.update_self, hbefore]
      exact iff_of_true nofun nofun
    · rw [Function.update_of_ne hpath]

theorem Replays.indexed {rkyv : Rkyv B} (hrkyv : rkyv.Faithful) {books : Books B}
    {requests : List Request} (h : Replays rkyv books₀ requests books) (h₀ : Indexed books₀) :
    Indexed books := by
  induction h with
  | nil => exact h₀
  | @cons requests books books' request before heval ih =>
    have hleaves := eval_leaves hrkyv request.call 0 books request.faced
    rw [heval 0] at hleaves
    exact hleaves.indexed ih

/-! ## The keys of the database -/

/-- All keys with a record are in a list. -/
def KeysAmong (keys : List String) (records : String → Option B) : Prop :=
  ∀ key, records key ≠ none → key ∈ keys

theorem KeysAmong.apply {keys : List String} (h : KeysAmong keys records) (op : AsyncOp B) :
    KeysAmong (op.key :: keys) (op.apply records) := by
  intro key hkey
  by_cases heq : key = op.key
  · exact heq ▸ List.mem_cons_self
  · rw [AsyncOp.apply_of_ne _ heq] at hkey
    exact List.mem_cons_of_mem _ (h key hkey)

theorem Script.eval_keysAmong (sc : Script B) (now : UInt64) :
    ∀ (books : Books B) {keys : List String} (faced : List Given), KeysAmong keys books.records →
      ∃ keys', KeysAmong keys' (sc.eval now books faced).2.records := by
  induction sc with
  | finish r => exact fun _ _ _ h => ⟨_, h⟩
  | read key k ih => exact fun books _ faced h => ih _ books faced h
  | clock k ih => exact fun books _ faced h => ih _ books faced.tail h
  | write op next ih =>
    intro books keys faced h
    rw [Script.eval]
    cases nextOutcome faced with
    | some e => exact ⟨keys, h⟩
    | none => exact ih (books.write op) faced.tail (h.apply op)
  | register path next ih => exact fun books _ faced h => ih (books.register path) faced h

theorem Replays.keysAmong {rkyv : Rkyv B} {paths : List String} {requests : List Request}
    {books : Books B} (h : Replays rkyv ⟨fun _ => none, paths⟩ requests books) :
    ∃ keys, KeysAmong keys books.records := by
  induction h with
  | nil => exact ⟨[], fun key hkey => (hkey rfl).elim⟩
  | @cons requests books books' request before heval ih =>
    obtain ⟨keys, hkeys⟩ := ih
    obtain ⟨keys', hkeys'⟩ := (script rkyv request.call).eval_keysAmong 0 books request.faced hkeys
    rw [heval 0] at hkeys'
    exact ⟨keys', hkeys'⟩

/-- A database with finitely many keys can be scanned. -/
theorem KeysAmong.scan {keys : List String} (h : KeysAmong keys records) :
    ∃ keys', IsScan records keys' := by
  refine ⟨(keys.toFinset.filter fun key => (records key).isSome).sort (· ≤ ·), ?_, ?_⟩
  · exact Index.sort_sorted _
  · intro key
    rw [Finset.mem_sort, Finset.mem_filter, List.mem_toFinset, Option.isSome_iff_ne_none]
    exact and_iff_right_of_imp (h key)

/-! ## Reopening -/

/-- With nothing pending RocksDB holds the records. -/
theorem Mirrors.rocksdb {Tid : Type} {C : String → Prop} {K : Tid → String → Prop}
    {p : Clients B Tid} {stance : Tid → Stance B} (h : Mirrors .immediate C K p stance records) :
    p.shared.rocksdb = records := by
  rw [← KvEngine.settled_of_pending_nil (h.represents.direct rfl), h.represents.settled]

/-- A scan finds the paths that are in the index. -/
theorem Accounted.mem_scannedIndex {rkyv : Rkyv B} (hrkyv : rkyv.Faithful) (h₀ : Indexed books₀)
    {stance : Unit → Stance B} (h : Accounted rkyv books₀ (fun _ _ => True) p stance records)
    (hidle : p.client () = none) {keys : List String} (hscan : IsScan p.shared.rocksdb keys)
    (path : String) : path ∈ scannedIndex keys ↔ path ∈ p.shared.pathIndex := by
  have haccount := h.accounts ()
  rw [hidle] at haccount
  obtain ⟨own, hreplays, hagree⟩ := haccount
  have hmetadata : own.metadata path = records (buildMetaKey path) :=
    hagree.records (buildMetaKey path) trivial
  rw [Engine.mem_scannedIndex hscan, h.mirrors.rocksdb, ← hmetadata,
    ← hreplays.indexed hrkyv h₀ path]
  exact hagree.paths path trivial

theorem Accounted.reopen {rkyv : Rkyv B} (hrkyv : rkyv.Faithful) (h₀ : Indexed books₀)
    {stance : Unit → Stance B} (h : Accounted rkyv books₀ (fun _ _ => True) p stance records)
    (hidle : p.client () = none) {keys : List String} (hscan : IsScan p.shared.rocksdb keys) :
    Accounted rkyv books₀ (fun _ _ => True) { p with shared := p.shared.reopened keys } stance
      records := by
  have hclear : ∀ t, (stance t).place = .clear := fun t => h.mirrors.idle t hidle
  have haccount := h.accounts ()
  rw [hidle] at haccount
  obtain ⟨own, hreplays, hagree⟩ := haccount
  refine ⟨⟨?_, h.mirrors.idle, ?_, ?_, h.mirrors.proper⟩, fun _ => ?_⟩
  · change Represents .immediate _ records (KvEngine.opened p.shared.rocksdb .immediate _)
    rw [h.mirrors.rocksdb]
    exact (represents_opened records _).mono fun _ hX => hX.elim
  · intro t c prog hclient
    rw [hidle] at hclient
    cases hclient
  · intro t
    rw [hclear t]
    trivial
  · change Account rkyv books₀ (fun _ => True) ⟨records, scannedIndex keys⟩ _ _ _ (p.client ())
    rw [hidle]
    refine ⟨own, hreplays, hagree.records, fun path _ => ?_⟩
    exact (hagree.paths path trivial).trans (h.mem_scannedIndex hrkyv h₀ hidle hscan path).symm

/-- What holds throughout a session. -/
structure InSession (rkyv : Rkyv B) (p : Clients B Unit) : Prop where
  accounted : ∃ stance records,
    Accounted rkyv ⟨fun _ => none, []⟩ (fun _ _ => True) p stance records
  healthy : HealthyLog p.log

theorem indexed_empty : Indexed (⟨fun _ => none, []⟩ : Books B) :=
  fun _ => iff_of_false List.not_mem_nil fun h => h rfl

theorem InSession.step {rkyv : Rkyv B} (hrkyv : rkyv.Faithful) (h : InSession rkyv p)
    {l : SessionStep B} (hl : SessionRules p l) : InSession rkyv (sessionStep rkyv p l) := by
  cases l with
  | engine l =>
    exact ⟨Accounted.step h.accounted (fun _ _ _ _ _ => rfl) (SteadyStep.fair hl) (ownStep_all l),
      h.healthy.step hl⟩
  | reopen keys =>
    obtain ⟨stance, records, haccounted⟩ := h.accounted
    exact ⟨⟨stance, records, haccounted.reopen hrkyv indexed_empty hl.1 hl.2.2⟩, h.healthy⟩

theorem inSession_opened (rkyv : Rkyv B) :
    InSession rkyv (Clients.opened (fun _ => none) .immediate []) :=
  ⟨⟨_, _, Accounted.opened rkyv (fun _ => none) [] _⟩, nofun⟩

/-! ## Runs -/

/-- Two sessions with the same requests have the same results and listings. -/
theorem InSession.alike {rkyv : Rkyv B} (hrkyv : rkyv.Faithful) {p' : Clients B Unit}
    (h : InSession rkyv p) (h' : InSession rkyv p')
    (hmatches : List.Forall₂ Request.Matches (requestsOf () p.log) (requestsOf () p'.log)) :
    List.Forall₂ (fun request request' => TimesAside request.result request'.result)
        (requestsOf () p.log) (requestsOf () p'.log) ∧
      (p.client () = none → p'.client () = none → ∀ pre,
        p.shared.listKeys pre = p'.shared.listKeys pre) := by
  obtain ⟨stance, records, haccounted⟩ := h.accounted
  obtain ⟨stance', records', haccounted'⟩ := h'.accounted
  have haccount := haccounted.accounts ()
  have haccount' := haccounted'.accounts ()
  constructor
  · obtain ⟨books, hreplays⟩ := haccount.replays
    obtain ⟨books', hreplays'⟩ := haccount'.replays
    exact (hreplays.alike hrkyv (.refl _) hmatches hreplays' h.healthy.request
      h'.healthy.request).1
  · intro hidle hidle' pre
    rw [hidle] at haccount
    rw [hidle'] at haccount'
    obtain ⟨own, hreplays, hagree⟩ := haccount
    obtain ⟨own', hreplays', hagree'⟩ := haccount'
    have hbooks := (hreplays.alike hrkyv (.refl _) hmatches hreplays' h.healthy.request
      h'.healthy.request).2
    refine listKeys_congr (fun path => ?_) pre
    exact (hagree.paths path trivial).symm.trans
      ((hbooks.paths path).trans (hagree'.paths path trivial))

/-- A client gets the results and the listings of any run without restarts in which it
makes the same requests. The engine can be opened again at any time, and the index built
from the keys lists what the index before it did. -/
structure RestartInvisible (rkyv : Rkyv B) (p : Clients B Unit) : Prop where
  same : ∀ labels : List (Step B Unit),
    Along (Pool.step (body rkyv)) (fun _ l => SteadyStep l)
      (Clients.opened (fun _ => none) .immediate []) labels →
    let plain := (Clients.opened (fun _ => none) .immediate []).run (body rkyv) labels
    List.Forall₂ Request.Matches (requestsOf () p.log) (requestsOf () plain.log) →
      List.Forall₂ (fun request request' => TimesAside request.result request'.result)
          (requestsOf () p.log) (requestsOf () plain.log) ∧
        (p.client () = none → plain.client () = none → ∀ pre,
          p.shared.listKeys pre = plain.shared.listKeys pre)
  scans : p.client () = none → ∃ keys, IsScan p.shared.rocksdb keys
  rebuilds : p.client () = none → ∀ keys, IsScan p.shared.rocksdb keys → ∀ pre,
    (p.shared.reopened keys).listKeys pre = p.shared.listKeys pre
  returns : ∀ c prog, p.client () = some (c, prog) → ∀ choices : ℕ → Choice, ∃ n r,
    (p.advance (body rkyv) () ((List.range n).map choices)).client () = some (c, .done r)

theorem run_restartInvisible {rkyv : Rkyv B} (hrkyv : rkyv.Faithful)
    (session : List (SessionStep B))
    (hsteps : Along (sessionStep rkyv) SessionRules
      (Clients.opened (fun _ => none) .immediate []) session) :
    RestartInvisible rkyv
      (session.foldl (sessionStep rkyv) (Clients.opened (fun _ => none) .immediate [])) := by
  have h := Along.invariant (I := InSession rkyv) (fun p l hp hl => hp.step hrkyv hl) session _
    (inSession_opened rkyv) hsteps
  generalize session.foldl (sessionStep rkyv) (Clients.opened (fun _ => none) .immediate []) = p
    at h
  obtain ⟨stance, records, haccounted⟩ := h.accounted
  refine ⟨?_, ?_, ?_, ?_⟩
  · intro labels hlabels plain hmatches
    refine h.alike hrkyv ?_ hmatches
    exact Along.invariant (I := InSession rkyv) (fun p l hp hl => hp.step (l := .engine l) hrkyv hl)
      labels _ (inSession_opened rkyv) hlabels
  · intro hidle
    have haccount := haccounted.accounts ()
    rw [hidle] at haccount
    obtain ⟨own, hreplays, hagree⟩ := haccount
    obtain ⟨keys, hkeys⟩ := hreplays.keysAmong
    have hamong : KeysAmong keys p.shared.rocksdb := by
      intro key hkey
      rw [haccounted.mirrors.rocksdb] at hkey
      exact hkeys key (by rwa [hagree.records key trivial])
    exact hamong.scan
  · intro hidle keys hscan
    exact listKeys_congr (haccounted.mem_scannedIndex hrkyv indexed_empty hidle hscan)
  · exact fun c prog hclient choices => Pool.advance_done (body rkyv) hclient choices

/-- The steps of an engine that is not opened again. -/
theorem along_engine {rkyv : Rkyv B} {labels : List (Step B Unit)} :
    ∀ {p : Clients B Unit}, (∀ l ∈ labels, SteadyStep l) →
      Along (sessionStep rkyv) SessionRules p (labels.map .engine) := by
  induction labels with
  | nil => exact fun _ => trivial
  | cons l labels ih =>
    exact fun h => ⟨h l List.mem_cons_self, ih fun l' hl' => h l' (List.mem_cons_of_mem l hl')⟩

/-- A version is put and the engine is dropped. -/
def putAndDrop : List (Step Record Unit) :=
  List.flatten [
    requesting () (.putVersion "a/x" ⟨"x", 0⟩ none) 10,
    [.env .stop, .env (.worker false false), .env (.worker false false)]]

/-- The version is deleted and read. -/
def deleteAndRead : List (Step Record Unit) :=
  List.flatten [
    requesting () (.softDelete "a/x" 1) 7,
    requesting () (.readVersion "a/x" 1) 3]

def reopening : List (SessionStep Record) :=
  putAndDrop.map .engine ++ .reopen [buildMetaKey "a/x", buildVersionKey "a/x" 1] ::
    deleteAndRead.map .engine

theorem reopening_scan :
    IsScan ((putAndDrop.map .engine).foldl (sessionStep Record.rkyv)
      (Clients.opened (fun _ => none) .immediate [])).shared.rocksdb
      [buildMetaKey "a/x", buildVersionKey "a/x" 1] :=
  (isScan_empty.cons (buildVersionKey "a/x" 1) nofun (Record.payload ⟨"x", 0⟩)).cons
    (buildMetaKey "a/x") (by decide) (.metadata ⟨1, 0, false, 0, [], [⟨1, 0, 1, false⟩]⟩)

theorem run_restartInvisible_reopening :
    Along (sessionStep Record.rkyv) SessionRules (Clients.opened (fun _ => none) .immediate [])
        reopening ∧
      Along (Pool.step (body Record.rkyv)) (fun _ l => SteadyStep l)
        (Clients.opened (fun _ => none) .immediate []) (putAndDrop ++ deleteAndRead) ∧
      List.Forall₂ Request.Matches
        (requestsOf () (reopening.foldl (sessionStep Record.rkyv)
          (Clients.opened (fun _ => none) .immediate [])).log)
        (requestsOf () ((Clients.opened (fun _ => none) .immediate []).run (body Record.rkyv)
          (putAndDrop ++ deleteAndRead)).log) ∧
      RestartInvisible Record.rkyv (reopening.foldl (sessionStep Record.rkyv)
        (Clients.opened (fun _ => none) .immediate [])) := by
  have hsteps : Along (sessionStep Record.rkyv) SessionRules
      (Clients.opened (fun _ => none) .immediate []) reopening :=
    (along_engine (by decide)).append ⟨⟨rfl, rfl, reopening_scan⟩, along_engine (by decide)⟩
  exact ⟨hsteps, by decide, by decide, run_restartInvisible Record.rkyv_faithful reopening hsteps⟩

end Kallisto.Engine
