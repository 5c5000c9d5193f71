import Kallisto.Verification.Engine.Accounts
import Kallisto.Verification.Engine.CacheCoherence
import Kallisto.Verification.Engine.Listing

/-! # The cache is invisible to a sequential client

In immediate mode a client gets from the engine what it gets from one without a cache that
faces the same failures of writes. -/

namespace Kallisto.Engine

open Program Interleaving

variable {B : Type}

/-! ## The engine without a cache -/

/-- Every lookup misses, and nothing is cached. -/
def KvEngine.execUncached (s : KvEngine B) : (op : Effect B) → Choice → op.Ret × KvEngine B
  | .cacheLookup _, _ => (none, s)
  | .cacheInsert _ _, _ => ((), s)
  | .cacheRemove _, _ => ((), s)
  | .getRaw key, c => s.exec (.getRaw key) c
  | .putRaw key value, c => s.exec (.putRaw key value) c
  | .delRaw key, c => s.exec (.delRaw key) c
  | .enqueue op, c => s.exec (.enqueue op) c
  | .getSyncMode, c => s.exec .getSyncMode c
  | .nowMs, c => s.exec .nowMs c
  | .insertPathIfAbsent path, c => s.exec (.insertPathIfAbsent path) c

abbrev uncached (B : Type) : System (Effect.Ret (B := B)) :=
  { system B with exec := KvEngine.execUncached }

/-- Writes and readings of the clock take what is given in turn; reads do not fail. -/
def draw : Effect B → List Given → Choice × List Given
  | .putRaw _ _, given => (⟨nextOutcome given, 0⟩, given.tail)
  | .delRaw _, given => (⟨nextOutcome given, 0⟩, given.tail)
  | .nowMs, given => (⟨none, nextTime 0 given⟩, given.tail)
  | _, given => (.at 0, given)

/-- A request made of the engine without a cache. -/
def askUncached (rkyv : Rkyv B) (s : KvEngine B) (request : Request) :
    Except EngineError Out × KvEngine B :=
  (uncached B).fed draw (body rkyv request.call) s request.faced

/-- The engine without a cache after the requests, the latest of which comes first. -/
def withoutCache (rkyv : Rkyv B) (s : KvEngine B) : List Request → KvEngine B
  | [] => s
  | request :: requests => (askUncached rkyv (withoutCache rkyv s requests) request).2

/-! ## It follows the scripts -/

def KvEngine.books (s : KvEngine B) : Books B :=
  ⟨s.rocksdb, s.pathIndex⟩

def KvEngine.withBooks (s : KvEngine B) (books : Books B) : KvEngine B :=
  { s with rocksdb := books.records, pathIndex := books.paths }

theorem fed_read (key : String) (k : Option B → EngineM B Out) (s : KvEngine B)
    (given : List Given) :
    (uncached B).fed draw (readRawOptimistic key id >>= k) s given =
      (uncached B).fed draw (k (s.rocksdb key)) s given := by
  have hmiss : (uncached B).fed draw (readRawOptimistic key id >>= k) s given =
      (uncached B).fed draw (readMissed key >>= k) s given := rfl
  rw [hmiss]
  cases hdisk : s.rocksdb key with
  | none =>
    have hget : (uncached B).exec s (.getRaw key) (.at 0) =
        ((.ok none : Except String (Option B)), s) := Prod.ext (congrArg Except.ok hdisk) rfl
    exact System.fed_call rfl hget
  | some b =>
    have hget : (uncached B).exec s (.getRaw key) (.at 0) =
        ((.ok (some b) : Except String (Option B)), s) := Prod.ext (congrArg Except.ok hdisk) rfl
    exact System.fed_call rfl hget

theorem fed_write (op : AsyncOp B) (next : EngineM B Out) (s : KvEngine B) (given : List Given)
    (hmode : s.syncMode = .immediate) :
    (uncached B).fed draw (enqueueOrExecute op >>= fun _ => op.publish >>= fun _ => next) s given =
      match nextOutcome given with
      | some e => (.error (op.failure e), s)
      | none => (uncached B).fed draw next (s.withBooks (s.books.write op)) given.tail := by
  obtain ⟨cache, rocksdb, mode, queue, running, worker, batch, paths⟩ := s
  obtain rfl : mode = .immediate := hmode
  cases op with
  | put key value => rcases given with _ | ⟨⟨_ | e⟩ | now, rest⟩ <;> rfl
  | delete key => rcases given with _ | ⟨⟨_ | e⟩ | now, rest⟩ <;> rfl

theorem fed_run (sc : Script B) : ∀ (s : KvEngine B) (given : List Given),
    s.syncMode = .immediate → (uncached B).fed draw sc.run s given =
      ((sc.eval 0 s.books given).1, s.withBooks (sc.eval 0 s.books given).2) := by
  induction sc with
  | finish r => exact fun _ _ _ => rfl
  | read key k ih =>
    intro s given hmode
    rw [Script.run, fed_read, ih _ s given hmode]
    rfl
  | clock k ih => exact fun s given hmode => ih _ s given.tail hmode
  | write op next ih =>
    intro s given hmode
    rw [Script.run, fed_write op next.run s given hmode, Script.eval]
    cases nextOutcome given with
    | some e => rfl
    | none => exact ih (s.withBooks (s.books.write op)) given.tail hmode
  | register path next ih =>
    exact fun s given hmode => ih (s.withBooks (s.books.register path)) given hmode

theorem askUncached_eq {rkyv : Rkyv B} {s : KvEngine B} (hmode : s.syncMode = .immediate)
    {request : Request} {books books' : Books B}
    (heval : ∀ now, (script rkyv request.call).eval now books request.faced =
      (request.result, books')) :
    askUncached rkyv (s.withBooks books) request = (request.result, s.withBooks books') := by
  rw [askUncached, body_eq_run, fed_run _ (s.withBooks books) _ hmode]
  change (((script rkyv request.call).eval 0 books request.faced).1,
    s.withBooks ((script rkyv request.call).eval 0 books request.faced).2) = _
  rw [heval 0]

theorem withoutCache_eq {rkyv : Rkyv B} {s : KvEngine B} (hmode : s.syncMode = .immediate)
    {requests : List Request} {books : Books B} (h : Replays rkyv s.books requests books) :
    withoutCache rkyv s requests = s.withBooks books := by
  induction h with
  | nil => rfl
  | cons request before heval ih => rw [withoutCache, ih, askUncached_eq hmode heval]

/-- In immediate mode the cache is behind only between a write and its publication. -/
theorem Mirrors.cacheAgrees {Tid : Type} {K : Tid → String → Prop} {p : Clients B Tid}
    {stance : Tid → Stance B} {records : String → Option B}
    (h : Mirrors .immediate (fun _ => True) K p stance records) (hidle : ∀ t, p.client t = none) :
    CacheAgrees p.shared := by
  intro key b hcache
  have hbehind : ¬ Behind (fun _ => True) stance key := by
    rintro (hnot | ⟨t, hstale⟩)
    · exact hnot trivial
    · rw [h.idle t (hidle t)] at hstale
      cases hstale
  rw [← KvEngine.settled_of_pending_nil (h.represents.direct rfl), h.represents.settled]
  exact h.represents.cached key b hbehind hcache

/-! ## Runs -/

def Effect.isRead : Effect B → Bool
  | .getRaw _ => true
  | _ => false

/-- Reads of RocksDB do not fail, and the mode stays. -/
def ReliableReads (p : Clients B Unit) : Step B Unit → Prop
  | .act t choice => (p.nextCall t).any Effect.isRead = true → choice.error = none
  | .env (.changeSyncMode _) => False
  | _ => True

theorem ReliableReads.fair {p : Clients B Unit} {l : Step B Unit} (h : ReliableReads p l) :
    FairStep .immediate (fun _ => True) p l := by
  cases l with
  | act t choice => exact ⟨fun key hcall => h (by rw [hcall]; rfl), nofun⟩
  | env e =>
    cases e with
    | dropEntry key => exact Or.inl rfl
    | worker timeout fails => exact Or.inl rfl
    | changeSyncMode mode => exact h
    | stop => trivial
  | _ => trivial

/-- The client gets the answers of an engine without a cache that starts from the same
state, and when it waits for none the cache holds what RocksDB holds. -/
structure Transparent (rkyv : Rkyv B) (s₀ : KvEngine B) (p : Clients B Unit) : Prop where
  results : ∀ later request earlier, requestsOf () p.log = later ++ request :: earlier →
    request.result = (askUncached rkyv (withoutCache rkyv s₀ earlier) request).1
  listings : p.client () = none → ∀ pre,
    p.shared.listKeys pre = (withoutCache rkyv s₀ (requestsOf () p.log)).listKeys pre
  cached : p.client () = none → CacheAgrees p.shared
  returns : ∀ c prog, p.client () = some (c, prog) → ∀ choices : ℕ → Choice, ∃ n r,
    (p.advance (body rkyv) () ((List.range n).map choices)).client () = some (c, .done r)

theorem run_transparent (rkyv : Rkyv B) (db : String → Option B) (paths : List String)
    (labels : List (Step B Unit))
    (hsteps : Along (Pool.step (body rkyv)) ReliableReads (Clients.opened db .immediate paths)
      labels) :
    Transparent rkyv (.opened db .immediate paths)
      ((Clients.opened db .immediate paths).run (body rkyv) labels) := by
  obtain ⟨stance, records, h⟩ := Accounted.run (K := fun _ _ => True) rkyv db paths
    (fun _ _ _ _ _ => rfl) (fun p l hl => ⟨hl.fair, ownStep_all l⟩) hsteps
  have haccount := h.accounts ()
  constructor
  · intro later request earlier hrequests
    obtain ⟨books, hreplays⟩ := haccount.replays
    rw [hrequests] at hreplays
    obtain ⟨before, after, hbefore, heval⟩ := hreplays.split
    rw [withoutCache_eq rfl hbefore, askUncached_eq rfl heval]
  · intro hidle pre
    rw [hidle] at haccount
    obtain ⟨own, hreplays, hagree⟩ := haccount
    rw [withoutCache_eq rfl hreplays]
    exact listKeys_congr (fun path => (hagree.paths path trivial).symm) pre
  · exact fun hidle => h.mirrors.cacheAgrees fun _ => hidle
  · exact fun c prog hclient choices => Pool.advance_done (body rkyv) hclient choices

instance (p : Clients B Unit) (l : Step B Unit) : Decidable (ReliableReads p l) :=
  match l with
  | .act t choice => inferInstanceAs (Decidable
      ((p.nextCall t).any Effect.isRead = true → choice.error = none))
  | .invoke _ _ => .isTrue trivial
  | .respond _ => .isTrue trivial
  | .env (.changeSyncMode _) => .isFalse id
  | .env (.dropEntry _) => .isTrue trivial
  | .env (.worker _ _) => .isTrue trivial
  | .env .stop => .isTrue trivial

/-- A put is refused after its payload is written, and the version before it is read with
its metadata dropped from the cache. -/
def refusedPut : List (Step Record Unit) :=
  List.flatten [
    requesting () (.putVersion "p" ⟨"x", 0⟩ none) 10,
    calling () (.putVersion "p" ⟨"y", 0⟩ none) 6,
    [.act () ⟨some "no space", 1⟩, .respond (), .env (.dropEntry (buildMetaKey "p"))],
    requesting () (.readVersion "p" 0) 4]

theorem run_transparent_refusedPut :
    Along (Pool.step (body Record.rkyv)) ReliableReads
        (Clients.opened (fun _ => none) .immediate []) refusedPut ∧
      Transparent Record.rkyv (.opened (fun _ => none) .immediate [])
        ((Clients.opened (fun _ => none) .immediate []).run (body Record.rkyv) refusedPut) := by
  have hsteps : Along (Pool.step (body Record.rkyv)) ReliableReads
      (Clients.opened (fun _ => none) .immediate []) refusedPut := by decide
  exact ⟨hsteps, run_transparent Record.rkyv (fun _ => none) [] refusedPut hsteps⟩

end Kallisto.Engine
