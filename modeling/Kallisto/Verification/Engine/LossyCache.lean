import Kallisto.Verification.Engine.CacheTransparency

/-! # A cache that loses entries

In immediate mode a request ends as its script does on RocksDB and the index, whatever
entries the cache loses on the way. -/

namespace Kallisto.Engine

open Program

variable {B : Type}

/-! ## Losses -/

/-- The cache loses the entries of some keys. -/
def KvEngine.lose (s : KvEngine B) (keys : List String) : KvEngine B :=
  { s with cache := fun key => if key ∈ keys then none else s.cache key }

/-- The engine, with the keys whose entries are lost before each of its next calls. -/
abbrev lossy (B : Type) : System (Effect.Ret (B := B)) where
  State := KvEngine B × List (List String)
  Choice := Choice
  Env := EnvStep
  exec s op c :=
    (((s.1.lose (s.2.headD [])).exec op c).1, ((s.1.lose (s.2.headD [])).exec op c).2, s.2.tail)
  env s e := (s.1.env e, s.2)

/-- A request made while the cache loses entries. -/
def askLossy (rkyv : Rkyv B) (s : KvEngine B) (c : Call) (given : List Given)
    (losses : List (List String)) : Except EngineError Out × KvEngine B :=
  (((lossy B).fed draw (body rkyv c) (s, losses) given).1,
    ((lossy B).fed draw (body rkyv c) (s, losses) given).2.1)

theorem lose_cache {s : KvEngine B} {keys : List String} {key : String} {b : B}
    (h : (s.lose keys).cache key = some b) : s.cache key = some b := by
  change (if key ∈ keys then none else s.cache key) = some b at h
  split at h
  · cases h
  · exact h

theorem CacheAgrees.lose {s : KvEngine B} (h : CacheAgrees s) (keys : List String) :
    CacheAgrees (s.lose keys) :=
  fun key b hb => h key b (lose_cache hb)

/-! ## Scripts -/

/-- An engine in immediate mode whose cache holds nothing but what RocksDB holds. -/
structure Settled (s : KvEngine B) : Prop where
  syncMode : s.syncMode = .immediate
  cache : CacheAgrees s

theorem Settled.lose {s : KvEngine B} (h : Settled s) (keys : List String) : Settled (s.lose keys) :=
  ⟨h.syncMode, h.cache.lose keys⟩

/-- A run ends with a result and with the books, in a settled engine. -/
def EndsWith (ended : Except EngineError Out × KvEngine B × List (List String))
    (result : Except EngineError Out × Books B) : Prop :=
  ended.1 = result.1 ∧ ended.2.1.books = result.2 ∧ Settled ended.2.1

section Calls

variable {s : KvEngine B} {losses : List (List String)} {given : List Given}
  {result : Except EngineError Out × Books B}

/-- A record that RocksDB has may be cached. -/
theorem Settled.cacheInsert (h : Settled s) {key : String} {b : B} (hb : s.rocksdb key = some b) :
    Settled { s with cache := Function.update s.cache key (some b) } where
  syncMode := h.syncMode
  cache key' b' hcache := by
    change Function.update s.cache key (some b) key' = some b' at hcache
    rw [Function.update_apply] at hcache
    split at hcache
    · next heq => rw [heq, ← hcache, hb]
    · exact h.cache key' b' hcache

/-- The cache follows a write. -/
theorem Settled.publish (h : Settled s) (op : AsyncOp B) {cache : String → Option B}
    (hcache : ∀ key b, cache key = some b → s.cache key = some b) :
    Settled { s with
      rocksdb := op.apply s.rocksdb
      cache := Function.update cache op.key op.value } where
  syncMode := h.syncMode
  cache key b hentry := by
    change Function.update cache op.key op.value key = some b at hentry
    change op.apply s.rocksdb key = some b
    rw [Function.update_apply] at hentry
    split at hentry
    · next heq => rw [heq, AsyncOp.apply_key, hentry]
    · next hne =>
        rw [AsyncOp.apply_of_ne _ hne]
        exact h.cache key b (hcache key b hentry)

/-- One call of a run. -/
theorem EndsWith.call {op : Effect B} {k : op.Ret → EngineM B Out} {choice : Choice}
    {rest : List Given} (hdraw : draw op given = (choice, rest))
    (h : EndsWith ((lossy B).fed draw (k ((s.lose (losses.headD [])).exec op choice).1)
      (((s.lose (losses.headD [])).exec op choice).2, losses.tail) rest) result) :
    EndsWith ((lossy B).fed draw (.call op k) (s, losses) given) result := by
  have hfed : (lossy B).fed draw (.call op k) (s, losses) given = _ := System.fed_call hdraw rfl
  rw [hfed]
  exact h

section Read

variable {key : String} {k : Option B → EngineM B Out}
  (h : ∀ (s' : KvEngine B) losses', Settled s' → s'.books = s.books →
    EndsWith ((lossy B).fed draw (k (s.rocksdb key)) (s', losses') given) result)

include h

theorem endsWith_readMissed (hs : Settled s) :
    EndsWith ((lossy B).fed draw (readMissed key >>= k) (s, losses) given) result := by
  have hlost := hs.lose (losses.headD [])
  have hdraw : draw (.getRaw key : Effect B) given = (.at 0, given) := rfl
  have hget : (s.lose (losses.headD [])).exec (.getRaw key) (.at 0) =
      (.ok (s.rocksdb key), s.lose (losses.headD [])) := rfl
  refine .call hdraw ?_
  rw [hget]
  cases hdisk : s.rocksdb key with
  | none =>
    rw [hdisk] at h
    exact h _ _ hlost rfl
  | some b =>
    rw [hdisk] at h
    exact h _ _ ((hlost.lose (losses.tail.headD [])).cacheInsert hdisk) rfl

theorem endsWith_read (hs : Settled s) :
    EndsWith ((lossy B).fed draw (readRawOptimistic key id >>= k) (s, losses) given) result := by
  have hlost := hs.lose (losses.headD [])
  have hdraw : draw (.cacheLookup key : Effect B) given = (.at 0, given) := rfl
  have hlookup : (s.lose (losses.headD [])).exec (.cacheLookup key) (.at 0) =
      ((s.lose (losses.headD [])).cache key, s.lose (losses.headD [])) := rfl
  refine .call hdraw ?_
  rw [hlookup]
  cases hcache : (s.lose (losses.headD [])).cache key with
  | some b =>
    rw [hs.cache key b (lose_cache hcache)] at h
    exact h _ _ hlost rfl
  | none => exact endsWith_readMissed h hlost

end Read

/-- The entries lost by the next three calls. -/
def KvEngine.loseThree (s : KvEngine B) (losses : List (List String)) : KvEngine B :=
  ((s.lose (losses.headD [])).lose (losses.tail.headD [])).lose (losses.tail.tail.headD [])

theorem lossy_write (op : AsyncOp B) (next : EngineM B Out) (hmode : s.syncMode = .immediate) :
    (lossy B).fed draw (enqueueOrExecute op >>= fun _ => op.publish >>= fun _ => next)
        (s, losses) given =
      match nextOutcome given with
      | some e => (.error (op.failure e),
          (s.lose (losses.headD [])).lose (losses.tail.headD []), losses.tail.tail)
      | none => (lossy B).fed draw next
          ({ s with
            rocksdb := op.apply s.rocksdb
            cache := Function.update (s.loseThree losses).cache op.key op.value },
            losses.tail.tail.tail) given.tail := by
  obtain ⟨cache, rocksdb, mode, queue, running, worker, batch, paths⟩ := s
  obtain rfl : mode = .immediate := hmode
  cases op with
  | put key value => rcases given with _ | ⟨⟨_ | e⟩ | now, rest⟩ <;> rfl
  | delete key => rcases given with _ | ⟨⟨_ | e⟩ | now, rest⟩ <;> rfl

end Calls

/-- A script ends as it does on the books. -/
theorem endsWith_run (sc : Script B) : ∀ (s : KvEngine B) losses given, Settled s →
    EndsWith ((lossy B).fed draw sc.run (s, losses) given) (sc.eval 0 s.books given) := by
  induction sc with
  | finish r => exact fun s losses given hs => ⟨rfl, rfl, hs⟩
  | read key k ih =>
    intro s losses given hs
    refine endsWith_read (fun s' losses' hs' hbooks => ?_) hs
    have hrest := ih (s.rocksdb key) s' losses' given hs'
    rwa [hbooks] at hrest
  | clock k ih => exact fun s losses given hs => ih _ _ losses.tail given.tail (hs.lose _)
  | write op next ih =>
    intro s losses given hs
    rw [Script.run, lossy_write op next.run hs.syncMode, Script.eval]
    cases nextOutcome given with
    | some e => exact ⟨rfl, rfl, (hs.lose _).lose _⟩
    | none =>
      exact ih _ _ given.tail (hs.publish op fun key b hentry =>
        lose_cache (lose_cache (lose_cache hentry)))
  | register path next ih =>
    exact fun s losses given hs => ih _ losses.tail given
      ⟨hs.syncMode, (hs.lose (losses.headD [])).cache⟩

/-- A request ends as its script does on RocksDB and the index. -/
theorem askLossy_eq (rkyv : Rkyv B) {s : KvEngine B} (hs : Settled s) (c : Call)
    (given : List Given) (losses : List (List String)) :
    (askLossy rkyv s c given losses).1 = ((script rkyv c).eval 0 s.books given).1 ∧
      (askLossy rkyv s c given losses).2.books = ((script rkyv c).eval 0 s.books given).2 ∧
      Settled (askLossy rkyv s c given losses).2 := by
  unfold askLossy
  rw [body_eq_run]
  exact endsWith_run (script rkyv c) s losses given hs

end Kallisto.Engine
