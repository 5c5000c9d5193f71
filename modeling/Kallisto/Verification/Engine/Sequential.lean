import Kallisto.Library.Serialization
import Kallisto.Verification.Engine.Effects
import Kallisto.Verification.Engine.Pending

/-! # One request at a time

While a single request runs, the engine behaves as a map under every schedule of the
worker and every loss of a cache entry that has no pending write. -/

namespace Kallisto.Engine

open Program Interleaving

variable {B : Type} {X' : String → Prop}

/-! ## The map behind the cache and the queue -/

/-- The engine stands for the map `L` outside the keys `X`: a cached record is that of
the map, and a key without a cached record has no pending write. -/
structure Represents (mode : SyncMode) (X : String → Prop) (L : String → Option B)
    (s : KvEngine B) : Prop where
  syncMode : s.syncMode = mode
  settled : s.settled = L
  cached : ∀ key b, ¬ X key → s.cache key = some b → L key = some b
  missing : ∀ key, ¬ X key → s.cache key = none → ∀ op ∈ s.pending, op.key ≠ key
  direct : mode = .immediate → s.pending = []

/-- What is assumed of the queue and of the clock: that there is room for every write,
and that the time is positive. -/
structure Assumed where
  room : Bool
  ticking : Bool

/-- A healthy engine in a fixed mode. Outside the immediate mode the cache loses only
entries without a pending write. -/
def regime (B : Type) (mode : SyncMode) (given : Assumed) : Rules (system B) where
  op s op c := c.error = none ∧ (given.ticking = true → 0 < c.now) ∧
    match op with
    | .enqueue _ => mode = .batch → given.room = true → s.asyncQueue.length < queueCapacity
    | _ => True
  env s
    | .dropEntry key => mode = .immediate ∨ ∀ op ∈ s.pending, op.key ≠ key
    | .worker _ fails => fails = false
    | .changeSyncMode _ => False
    | .stop => True

section Represents

variable {mode : SyncMode} {given : Assumed} {X : String → Prop} {L : String → Option B}
  {s : KvEngine B}

theorem Represents.mono (h : Represents mode X L s) (hX : ∀ key, X key → X' key) :
    Represents mode X' L s where
  syncMode := h.syncMode
  settled := h.settled
  cached key b hkey := h.cached key b fun hx => hkey (hX key hx)
  missing key hkey := h.missing key fun hx => hkey (hX key hx)
  direct := h.direct

theorem Represents.stable (given : Assumed) : Stable (regime B mode given) (Represents mode X L) := by
  intro s e h he
  cases e with
  | dropEntry key =>
    have hfree : ∀ op ∈ s.pending, op.key ≠ key := by
      rcases he with hmode | hfree
      · have hnone : KvEngine.pending s = [] := h.direct hmode
        simp [hnone]
      · exact hfree
    refine ⟨h.syncMode, h.settled, ?_, ?_, h.direct⟩
    · intro key' b hkey hcache
      change Function.update s.cache key none key' = some b at hcache
      rw [Function.update_apply] at hcache
      split at hcache
      · cases hcache
      · exact h.cached key' b hkey hcache
    · intro key' hkey hcache
      change Function.update s.cache key none key' = none at hcache
      rw [Function.update_apply] at hcache
      split at hcache
      · next heq =>
          subst heq
          exact hfree
      · exact h.missing key' hkey hcache
  | worker timeout fails =>
    obtain rfl : fails = false := he
    have hmoves := s.workerStep_moves timeout
    refine ⟨hmoves.syncMode.trans h.syncMode, hmoves.settled.trans h.settled, ?_, ?_, ?_⟩
    · intro key b hkey hcache
      exact h.cached key b hkey (by rwa [← hmoves.cache])
    · intro key hkey hcache op hop
      exact h.missing key hkey (by rwa [← hmoves.cache]) op (hmoves.pending_suffix.mem hop)
    · intro hmode
      have hsuffix := hmoves.pending_suffix
      rw [h.direct hmode] at hsuffix
      exact List.suffix_nil.mp hsuffix
  | changeSyncMode mode' => exact he.elim
  | stop => exact ⟨h.syncMode, h.settled, h.cached, h.missing, h.direct⟩

/-- A record of the map may be put into the cache. -/
theorem Represents.cacheInsert (h : Represents mode X L s) {key : String} {b : B}
    (hb : L key = some b) (hX : ∀ key', key' ≠ key → ¬ X' key' → ¬ X key') :
    Represents mode X' L { s with cache := Function.update s.cache key (some b) } where
  syncMode := h.syncMode
  settled := h.settled
  cached key' b' hkey hcache := by
    change Function.update s.cache key (some b) key' = some b' at hcache
    rw [Function.update_apply] at hcache
    split at hcache
    · next heq =>
        rw [heq, hb, hcache]
    · next hne => exact h.cached key' b' (hX key' hne hkey) hcache
  missing key' hkey hcache := by
    change Function.update s.cache key (some b) key' = none at hcache
    rw [Function.update_apply] at hcache
    split at hcache
    · cases hcache
    · next hne => exact h.missing key' (hX key' hne hkey) hcache
  direct := h.direct

theorem Represents.cacheRemove (h : Represents mode X L s) {key : String} (hkey : X key) :
    Represents mode X L { s with cache := Function.update s.cache key none } where
  syncMode := h.syncMode
  settled := h.settled
  cached key' b' hkey' hcache := by
    change Function.update s.cache key none key' = some b' at hcache
    rw [Function.update_of_ne (by rintro rfl; exact hkey' hkey)] at hcache
    exact h.cached key' b' hkey' hcache
  missing key' hkey' hcache := by
    change Function.update s.cache key none key' = none at hcache
    rw [Function.update_of_ne (by rintro rfl; exact hkey' hkey)] at hcache
    exact h.missing key' hkey' hcache
  direct := h.direct

/-- A direct write changes the map; the cache follows later. -/
theorem Represents.write (h : Represents .immediate X L s) (op : AsyncOp B) :
    Represents .immediate (fun key => key = op.key ∨ X key) (op.apply L)
      { s with rocksdb := op.apply s.rocksdb } where
  syncMode := h.syncMode
  settled := by
    rw [KvEngine.settled_write s (by simp [h.direct rfl]), h.settled]
  cached key b hkey hcache := by
    rw [AsyncOp.apply_of_ne L fun heq => hkey (Or.inl heq)]
    exact h.cached key b (fun hx => hkey (Or.inr hx)) hcache
  missing key hkey hcache := h.missing key (fun hx => hkey (Or.inr hx)) hcache
  direct := h.direct

/-- So does a queued write. -/
theorem Represents.enqueue (h : Represents .batch X L s) (op : AsyncOp B) :
    Represents .batch (fun key => key = op.key ∨ X key) (op.apply L)
      { s with asyncQueue := s.asyncQueue ++ [op] } where
  syncMode := h.syncMode
  settled := by
    rw [KvEngine.settled_enqueue, h.settled]
  cached key b hkey hcache := by
    rw [AsyncOp.apply_of_ne L fun heq => hkey (Or.inl heq)]
    exact h.cached key b (fun hx => hkey (Or.inr hx)) hcache
  missing key hkey hcache op' hop' := by
    have hmem : op' ∈ s.pending ++ [op] := by
      rw [KvEngine.pending, List.append_assoc]
      exact hop'
    rcases List.mem_append.mp hmem with hmem | hmem
    · exact h.missing key (fun hx => hkey (Or.inr hx)) hcache op' hmem
    · rw [List.mem_singleton.mp hmem]
      exact fun heq => hkey (Or.inl heq.symm)
  direct hmode := nomatch hmode

end Represents

theorem represents_opened {mode : SyncMode} (db : String → Option B) (paths : List String) :
    Represents mode (fun _ => False) db (.opened db mode paths) where
  syncMode := rfl
  settled := rfl
  cached _ _ _ h := by cases h
  missing _ _ _ _ hop := by cases hop
  direct _ := rfl

/-! ## Rules for the calls of a request -/

/-- The running request sees the map `L` and has made the given writes. -/
def At (mode : SyncMode) (X : String → Prop) (L : String → Option B)
    (writes : List (AsyncOp B)) (s : (system B).traced.State) : Prop :=
  Represents mode X L s.1 ∧ writesOf s.2 = writes

section Rules

variable {mode : SyncMode} {given : Assumed} {X : String → Prop} {L : String → Option B}
  {writes : List (AsyncOp B)} {α R : Type}
  {Q : Except EngineError α → (system B).traced.State → Prop} {f : Unit → EngineM B α}

theorem At.stable (given : Assumed) : Stable (regime B mode given).traced (At mode X L writes) :=
  fun s e h he => ⟨Represents.stable given s.1 e h.1 he, h.2⟩

/-- A call without effect on the map. -/
theorem At.observe {s s' : KvEngine B} {trace : List ((op : Effect B) × op.Ret)} {op : Effect B}
    {r : op.Ret} (h : At mode X L writes (s, trace)) (hs : Represents mode X' L s')
    (hr : op.acked r = none) : At mode X' L writes (s', ⟨op, r⟩ :: trace) := by
  refine ⟨hs, ?_⟩
  rw [← h.2]
  simp [writesOf, hr]

/-- No write to the key is pending. -/
theorem stable_notPending (key : String) :
    Stable (regime B mode given).traced
      (fun s => At mode X L writes s ∧ ∀ op ∈ s.1.pending, op.key ≠ key) := by
  rintro ⟨s, trace⟩ e ⟨hs, hfree⟩ he
  refine ⟨At.stable given _ e hs he, ?_⟩
  cases e with
  | worker timeout fails =>
    obtain rfl : fails = false := he
    exact fun op hop => hfree op ((s.workerStep_moves timeout).pending_suffix.mem hop)
  | changeSyncMode mode' => exact he.elim
  | dropEntry key' => exact hfree
  | stop => exact hfree

/-- A read returns the record of the map. -/
theorem returns_readRawOptimistic {key : String} (g : B → R) (hkey : ¬ X key) :
    Returns (regime B mode given).traced (At mode X L writes) (readRawOptimistic key g)
      (.ok ((L key).map g)) := by
  refine Triple.traced_call (At.stable given) ?_
  intro s trace c hs _
  refine ⟨s.cache key, s, rfl, ?_⟩
  cases hcache : s.cache key with
  | some b =>
    rw [hs.1.cached key b hkey hcache]
    exact ⟨_, hs.observe hs.1 rfl, Returns.done (At.stable given) _⟩
  | none =>
    -- Nothing is pending for the key, now or before the disk is read.
    refine ⟨_, ⟨hs.observe hs.1 rfl, hs.1.missing key hkey hcache⟩,
      Triple.traced_call (stable_notPending key) ?_⟩
    rintro s trace c ⟨hs, hfree⟩ ⟨herror, _⟩
    have hdb : s.rocksdb key = L key := by
      rw [← hs.1.settled, KvEngine.settled_of_forall_ne hfree]
    refine ⟨_, _, s.exec_getRaw key herror, ?_⟩
    rw [hdb]
    cases hL : L key with
    | none => exact ⟨_, hs.observe hs.1 rfl, Returns.done (At.stable given) _⟩
    | some b =>
      refine ⟨_, hs.observe hs.1 rfl, Triple.traced_call (At.stable given) ?_⟩
      intro s trace c hs _
      exact ⟨(), _, rfl, _, hs.observe (hs.1.cacheInsert hL fun _ _ h => h) rfl,
        Returns.done (At.stable given) _⟩

/-- A raw write changes the map, or finds the queue full. -/
theorem triple_enqueueOrExecute {op : AsyncOp B} (hok : Triple (regime B mode given).traced
      (At mode (fun key => key = op.key ∨ X key) (op.apply L) (op :: writes)) (f ()) Q)
    (hfull : given.room = false → ∀ s, At mode X L writes s → Q (.error .queueFull) s) :
    Triple (regime B mode given).traced (At mode X L writes) (enqueueOrExecute op >>= f) Q := by
  refine Triple.traced_call (At.stable given) ?_
  intro s trace c hs _
  refine ⟨mode, s, Prod.ext hs.1.syncMode rfl, _, hs.observe hs.1 rfl, ?_⟩
  cases mode with
  | immediate =>
    cases op with
    | put key value =>
      refine Triple.traced_call (At.stable given) ?_
      rintro s trace c hs ⟨herror, _⟩
      refine ⟨_, _, s.exec_putRaw key value herror, _, ⟨hs.1.write (.put key value), ?_⟩, hok⟩
      exact congrArg (List.cons _) hs.2
    | delete key =>
      refine Triple.traced_call (At.stable given) ?_
      rintro s trace c hs ⟨herror, _⟩
      refine ⟨_, _, s.exec_delRaw key herror, _, ⟨hs.1.write (.delete key), ?_⟩, hok⟩
      exact congrArg (List.cons _) hs.2
  | batch =>
    refine Triple.traced_call (At.stable given) ?_
    rintro s trace c hs ⟨_, _, hroom⟩
    by_cases hlength : s.asyncQueue.length < queueCapacity
    · refine ⟨.ok (), { s with asyncQueue := s.asyncQueue ++ [op] }, if_pos hlength, _,
        ⟨hs.1.enqueue op, ?_⟩, hok⟩
      exact congrArg (List.cons op) hs.2
    · have hfits : given.room = false := by
        cases hgiven : given.room with
        | false => rfl
        | true => exact (hlength (hroom rfl hgiven)).elim
      exact ⟨.error .full, s, if_neg hlength, _, hs.observe hs.1 rfl,
        Triple.done (At.stable given) (hfull hfits)⟩

/-- The cache is given the record that was written. -/
theorem triple_cacheInsert {key : String} {b : B} (hb : L key = some b)
    (hf : Triple (regime B mode given).traced (At mode X L writes) (f ()) Q) :
    Triple (regime B mode given).traced (At mode (fun key' => key' = key ∨ X key') L writes)
      (cacheInsert key b >>= f) Q := by
  refine Triple.traced_call (At.stable given) ?_
  intro s trace c hs _
  refine ⟨(), _, rfl, _, hs.observe (hs.1.cacheInsert hb ?_) rfl, hf⟩
  rintro key' hkey hX (heq | hx)
  · exact hkey heq
  · exact hX hx

theorem triple_cacheRemove {key : String} (hkey : X key)
    (hf : Triple (regime B mode given).traced (At mode X L writes) (f ()) Q) :
    Triple (regime B mode given).traced (At mode X L writes) (cacheRemove key >>= f) Q := by
  refine Triple.traced_call (At.stable given) ?_
  intro s trace c hs _
  exact ⟨(), _, rfl, _, hs.observe (hs.1.cacheRemove hkey) rfl, hf⟩

theorem triple_nowMs {f : UInt64 → EngineM B α}
    (hf : ∀ now, (given.ticking = true → 0 < now) →
      Triple (regime B mode given).traced (At mode X L writes) (f now) Q) :
    Triple (regime B mode given).traced (At mode X L writes) (nowMs >>= f) Q := by
  refine Triple.traced_call (At.stable given) ?_
  rintro s trace c hs ⟨_, hnow, _⟩
  exact ⟨c.now, s, rfl, _, hs.observe hs.1 rfl, hf c.now hnow⟩

theorem returns_insertPathIfAbsent (path : String) :
    Returns (regime B mode given).traced (At mode X L writes) (insertPathIfAbsent path)
      (.ok ()) := by
  refine Triple.traced_call (At.stable given) ?_
  intro s trace c hs _
  refine ⟨(), _, rfl, _, hs.observe ?_ rfl, Returns.done (At.stable given) _⟩
  exact ⟨hs.1.syncMode, hs.1.settled, hs.1.cached, hs.1.missing, hs.1.direct⟩

end Rules

end Kallisto.Engine
