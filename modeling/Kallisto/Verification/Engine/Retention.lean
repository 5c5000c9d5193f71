import Kallisto.Verification.Engine.Effects
import Kallisto.Verification.Engine.Pending
import Kallisto.Verification.Engine.Scripts

/-! # A property of the record under one key

A request relies on a property of the records that it finds under the key, and stores only
records that have it. What is found later then has the property, whether it comes from the
cache, from RocksDB or from a pending write. -/

namespace Kallisto.Engine

open Program

variable {B : Type}

/-! ## Where the record is -/

/-- A record is found and has the property. -/
def Bears (Φ : B → Prop) (found : Option B) : Prop :=
  ∃ b, found = some b ∧ Φ b

theorem bears_some {Φ : B → Prop} {b : B} : Bears Φ (some b) ↔ Φ b := by
  constructor
  · rintro ⟨b', heq, hb'⟩
    cases heq
    exact hb'
  · exact fun hb => ⟨b, rfl, hb⟩

/-- The property holds on disk and will hold there after each pending write. -/
structure KvEngine.Durable (key : String) (Φ : B → Prop) (s : KvEngine B) : Prop where
  disk : Bears Φ (s.rocksdb key)
  pending : ∀ op ∈ s.pending, op.key = key → Bears Φ op.value

/-- Whoever reads the key finds a record with the property. -/
structure KvEngine.Retains (key : String) (Φ : B → Prop) (s : KvEngine B) : Prop where
  cached : ∀ b, s.cache key = some b → Φ b
  settled : Bears Φ (s.settled key)
  missed : s.cache key = none → s.Durable key Φ

/-- The mode is not changed, and in immediate mode no write is pending. -/
structure KvEngine.InMode (mode : SyncMode) (s : KvEngine B) : Prop where
  fixed : s.syncMode = mode
  direct : mode = .immediate → s.asyncQueue = [] ∧ s.batch = []

section State

variable {key : String} {Φ : B → Prop} {mode : SyncMode} {s s' : KvEngine B}

theorem bears_applyBatch {ops : List (AsyncOp B)} :
    ∀ {db : String → Option B}, (∀ op ∈ ops, op.key = key → Bears Φ op.value) →
      Bears Φ (db key) → Bears Φ (applyBatch db ops key) := by
  induction ops with
  | nil => exact fun _ hdb => hdb
  | cons op ops ih =>
    intro db hops hdb
    have happly : Bears Φ (op.apply db key) := by
      by_cases hkey : op.key = key
      · subst hkey
        rw [AsyncOp.apply_key]
        exact hops op List.mem_cons_self rfl
      · rwa [AsyncOp.apply_of_ne db (Ne.symm hkey)]
    exact ih (fun op' hop' => hops op' (List.mem_cons_of_mem op hop')) happly

theorem KvEngine.Durable.workerMoves (h : s.Durable key Φ) (hmoves : KvEngine.WorkerMoves s s') :
    s'.Durable key Φ where
  disk := by
    cases hmoves with
    | goto pc => exact h.disk
    | take op rest pc hqueue => exact h.disk
    | flush pc =>
      exact bears_applyBatch (fun op hop => h.pending op (List.mem_append_left _ hop)) h.disk
  pending op hop := h.pending op (hmoves.pending_suffix.subset hop)

theorem KvEngine.Retains.workerMoves (h : s.Retains key Φ) (hmoves : KvEngine.WorkerMoves s s') :
    s'.Retains key Φ where
  cached b hb := h.cached b (by rwa [hmoves.cache] at hb)
  settled := by
    rw [hmoves.settled]
    exact h.settled
  missed hmiss := (h.missed (by rwa [hmoves.cache] at hmiss)).workerMoves hmoves

theorem KvEngine.InMode.workerMoves (h : s.InMode mode) (hmoves : KvEngine.WorkerMoves s s') :
    s'.InMode mode := by
  refine ⟨hmoves.syncMode.trans h.fixed, fun himmediate => ?_⟩
  obtain ⟨hqueue, hbatch⟩ := h.direct himmediate
  have hnone : s.pending = [] := by
    rw [KvEngine.pending, hqueue, hbatch]
    rfl
  have hsuffix := hmoves.pending_suffix
  rw [hnone, List.suffix_nil] at hsuffix
  exact (List.append_eq_nil_iff.mp hsuffix).symm

/-- A record that is on disk can be lost from the cache. -/
theorem KvEngine.Retains.dropEntry (h : s.Retains key Φ) {key' : String}
    (hdrop : key' = key → s.cache key' = none ∨ ∀ op ∈ s.pending, op.key ≠ key') :
    (s.env (.dropEntry key')).Retains key Φ := by
  by_cases hkey : key = key'
  · subst hkey
    have hdurable : s.Durable key Φ := by
      rcases hdrop rfl with hnone | hpending
      · exact h.missed hnone
      · have hsettled := h.settled
        rw [KvEngine.settled_of_forall_ne hpending] at hsettled
        exact ⟨hsettled, fun op hop heq => (hpending op hop heq).elim⟩
    refine ⟨fun b hb => ?_, h.settled, fun _ => ⟨hdurable.disk, hdurable.pending⟩⟩
    change Function.update s.cache key none key = some b at hb
    rw [Function.update_self] at hb
    cases hb
  · have hcache : (s.env (.dropEntry key')).cache key = s.cache key :=
      Function.update_of_ne hkey _ _
    refine ⟨fun b hb => h.cached b (hcache ▸ hb), h.settled, fun hmiss => ?_⟩
    have hdurable := h.missed (hcache ▸ hmiss)
    exact ⟨hdurable.disk, hdurable.pending⟩

end State

/-! ## What a request relies on and keeps -/

/-- The record that a call stores under the key, by a write or in the cache. -/
def Effect.stores (key : String) : Effect B → Option B
  | .cacheInsert k b => if k = key then some b else none
  | .putRaw k b => if k = key then some b else none
  | .enqueue (.put k b) => if k = key then some b else none
  | _ => none

/-- Where a request stands: all records that it has found under the key have the property,
it has missed the key in the cache, its last write of the key has the property, and so has
the record that it has cached after this write. -/
structure Custody where
  trusted : Prop
  missed : Prop
  written : Prop
  cached : Prop

namespace Custody

/-- Before the first call. -/
def start : Custody :=
  ⟨True, False, False, False⟩

variable (key : String) (Φ : B → Prop)

def looked (d : Custody) (k : String) (found : Option B) : Custody :=
  if k = key then
    { d with trusted := d.trusted ∧ ∀ b, found = some b → Φ b, missed := d.missed ∨ found = none }
  else d

def fetched (d : Custody) (k : String) (found : Option B) : Custody :=
  if k = key then { d with trusted := d.trusted ∧ Bears Φ found } else d

def inserted (d : Custody) (k : String) (b : B) : Custody :=
  if k = key then { d with cached := d.written ∧ Φ b } else d

def wrote (d : Custody) (op : AsyncOp B) : Custody :=
  if op.key = key then { d with written := Bears Φ op.value, cached := False } else d

end Custody

/-- The key is never deleted. RocksDB is read after a miss only, and a request that has
found records with the property stores no others. -/
def custodyProtocol (key : String) (Φ : B → Prop) (mode : SyncMode) :
    Protocol (Effect.Ret (B := B)) Custody where
  allowed
    | d, .cacheInsert k b => k = key → (d.trusted → Φ b) ∧ (d.written → Φ b)
    | _, .cacheRemove k => k ≠ key
    | d, .getRaw k => k = key → d.missed
    | d, .putRaw k b => mode = .immediate ∧ (k = key → d.trusted → Φ b)
    | _, .delRaw k => mode = .immediate ∧ k ≠ key
    | d, .enqueue op => mode = .batch ∧
        (op.key = key → ∃ b, op = .put key b ∧ (d.trusted → Φ b))
    | _, _ => True
  possible
    | _, .getSyncMode, (m : SyncMode) => m = mode
    | _, .enqueue _, (r : Except QueueError Unit) => r ≠ .error .empty
    | _, _, _ => True
  next
    | d, .cacheLookup k, (found : Option B) => d.looked key Φ k found
    | d, .getRaw k, (.ok found : Except String (Option B)) => d.fetched key Φ k found
    | d, .cacheInsert k b, _ => d.inserted key Φ k b
    | d, .putRaw k b, (.ok () : Except String Unit) => d.wrote key Φ (.put k b)
    | d, .delRaw k, (.ok () : Except String Unit) => d.wrote key Φ (.delete k)
    | d, .enqueue op, (.ok () : Except QueueError Unit) => d.wrote key Φ op
    | d, _, _ => d

/-- How a request ends. -/
def Custody.Ends (quiet acks : Except EngineError Out → Prop) (d : Custody)
    (r : Except EngineError Out) : Prop :=
  (d.trusted → quiet r) ∧ (acks r → d.cached)

/-- The protocol, block by block. -/
def Script.Retains (key : String) (Φ : B → Prop) (quiet acks : Except EngineError Out → Prop) :
    Prop → Prop → Script B → Prop
  | trusted, marked, .finish r => (trusted → quiet r) ∧ (acks r → marked)
  | trusted, marked, .read k next => (k = key → ¬ marked) ∧ ∀ found,
      (next found).Retains key Φ quiet acks (trusted ∧ (k = key → Bears Φ found)) marked
  | trusted, marked, .clock next => ∀ now, (next now).Retains key Φ quiet acks trusted marked
  | trusted, marked, .write op next =>
    (op.key = key → ∃ b, op = .put key b ∧ (trusted → Φ b)) ∧
      next.Retains key Φ quiet acks trusted (if op.key = key then Bears Φ op.value else marked)
  | trusted, marked, .register _ next => next.Retains key Φ quiet acks trusted marked

/-- What is known of a request between two blocks. -/
structure Custody.Between (d : Custody) (trusted marked : Prop) : Prop where
  trusted : d.trusted → trusted
  cached : marked → d.cached
  written : d.written → marked

/-! ## Scripts follow the protocol -/

section Scripts

variable {key : String} {Φ : B → Prop} {mode : SyncMode}
  {quiet acks : Except EngineError Out → Prop} {trusted marked : Prop} {d : Custody}

theorem Custody.ends_error (hquiet : ∀ e, quiet (.error e)) (hacks : ∀ e, ¬ acks (.error e))
    (d : Custody) (e : EngineError) : d.Ends quiet acks (.error e) :=
  ⟨fun _ => hquiet e, fun h => (hacks e h).elim⟩

theorem Custody.Between.hit (h : d.Between trusted marked) (k : String) (b : B) :
    (d.looked key Φ k (some b)).Between (trusted ∧ (k = key → Bears Φ (some b))) marked := by
  unfold Custody.looked
  split
  · exact ⟨fun htrusted => ⟨h.trusted htrusted.1, fun _ => ⟨b, rfl, htrusted.2 b rfl⟩⟩, h.cached,
      h.written⟩
  · next hkey => exact ⟨fun htrusted => ⟨h.trusted htrusted, fun heq => (hkey heq).elim⟩, h.cached,
      h.written⟩

theorem Custody.Between.fetch (h : d.Between trusted marked) (k : String) (found : Option B) :
    ((d.looked key Φ k none).fetched key Φ k found).Between
      (trusted ∧ (k = key → Bears Φ found)) marked := by
  unfold Custody.fetched Custody.looked
  split
  · exact ⟨fun htrusted => ⟨h.trusted htrusted.1.1, fun _ => htrusted.2⟩, h.cached, h.written⟩
  · next hkey => exact ⟨fun htrusted => ⟨h.trusted htrusted, fun heq => (hkey heq).elim⟩, h.cached,
      h.written⟩

/-- A refill leaves the marks alone: a request reads the key before it writes it. -/
theorem Custody.Between.refill (h : d.Between trusted marked) {k : String} (hk : k = key → ¬ marked)
    (b : B) : (d.inserted key Φ k b).Between trusted marked := by
  unfold Custody.inserted
  split
  · next hkey => exact ⟨h.trusted, fun hmarked => (hk hkey hmarked).elim, h.written⟩
  · exact h

theorem follows_readKey (hquiet : ∀ e, quiet (.error e)) (hacks : ∀ e, ¬ acks (.error e))
    {k : String} {next : Option B → Script B} (hd : d.Between trusted marked)
    (hk : k = key → ¬ marked)
    (h : ∀ found d', d'.Between (trusted ∧ (k = key → Bears Φ found)) marked →
      Follows (custodyProtocol key Φ mode) (Custody.Ends quiet acks) d' (next found).run) :
    Follows (custodyProtocol key Φ mode) (Custody.Ends quiet acks) d (Script.read k next).run := by
  refine ⟨trivial, ?_⟩
  rintro (_ | payload) -
  · refine ⟨fun hkey => ?_, ?_⟩
    · change (d.looked key Φ k none).missed
      rw [Custody.looked, if_pos hkey]
      exact Or.inr rfl
    · rintro (e | (_ | disk)) -
      · exact Custody.ends_error hquiet hacks _ _
      · exact h none _ (hd.fetch k none)
      · have hfetched : ((d.looked key Φ k none).fetched key Φ k (some disk)).Between
            (trusted ∧ (k = key → Bears Φ (some disk))) marked := hd.fetch k (some disk)
        refine ⟨fun hkey => ⟨fun htrusted => ?_, fun hwritten => ?_⟩, fun _ _ => ?_⟩
        · exact bears_some.mp ((hfetched.trusted htrusted).2 hkey)
        · exact (hk hkey (hfetched.written hwritten)).elim
        · exact h (some disk) _ (hfetched.refill hk disk)
  · exact h (some payload) _ (hd.hit k payload)

/-- The update of the cache after an accepted write. -/
theorem follows_publishKey {op : AsyncOp B} {next : Script B} (hd : d.Between trusted marked)
    (hop : op.key = key → ∃ b, op = .put key b ∧ (trusted → Φ b))
    (h : ∀ d', d'.Between trusted (if op.key = key then Bears Φ op.value else marked) →
      Follows (custodyProtocol key Φ mode) (Custody.Ends quiet acks) d' next.run) :
    Follows (custodyProtocol key Φ mode) (Custody.Ends quiet acks) (d.wrote key Φ op)
      (op.publish >>= fun _ => next.run) := by
  by_cases hkey : op.key = key
  · obtain ⟨b, rfl, hb⟩ := hop hkey
    rw [if_pos hkey] at h
    rw [Custody.wrote, if_pos hkey]
    refine ⟨fun _ => ⟨fun htrusted => hb (hd.trusted htrusted), bears_some.mp⟩, fun _ _ => h _ ?_⟩
    change (Custody.inserted key Φ _ key b).Between _ _
    rw [Custody.inserted, if_pos rfl]
    exact ⟨hd.trusted, fun hmarked => ⟨hmarked, bears_some.mp hmarked⟩, id⟩
  · rw [if_neg hkey] at h
    rw [Custody.wrote, if_neg hkey]
    cases op with
    | put k b =>
      refine ⟨fun heq => (hkey heq).elim, fun _ _ => h _ ?_⟩
      exact hd.refill (fun heq => (hkey heq).elim) b
    | delete k => exact ⟨hkey, fun _ _ => h _ hd⟩

theorem follows_writeKey (hquiet : ∀ e, quiet (.error e)) (hacks : ∀ e, ¬ acks (.error e))
    {op : AsyncOp B} {next : Script B} (hd : d.Between trusted marked)
    (hop : op.key = key → ∃ b, op = .put key b ∧ (trusted → Φ b))
    (h : ∀ d', d'.Between trusted (if op.key = key then Bears Φ op.value else marked) →
      Follows (custodyProtocol key Φ mode) (Custody.Ends quiet acks) d' next.run) :
    Follows (custodyProtocol key Φ mode) (Custody.Ends quiet acks) d
      (Script.write op next).run := by
  have hpublish := follows_publishKey hd hop h
  refine ⟨trivial, fun m hm => ?_⟩
  obtain rfl : m = mode := hm
  cases m with
  | immediate =>
    cases op with
    | put k b =>
      refine ⟨⟨rfl, fun hkey htrusted => ?_⟩, ?_⟩
      · obtain ⟨b', heq, hb'⟩ := hop hkey
        cases heq
        exact hb' (hd.trusted htrusted)
      · rintro (e | ⟨⟩) -
        · exact Custody.ends_error hquiet hacks _ _
        · exact hpublish
    | delete k =>
      refine ⟨⟨rfl, fun hkey => ?_⟩, ?_⟩
      · obtain ⟨b, heq, _⟩ := hop hkey
        cases heq
      · rintro (e | ⟨⟩) -
        · exact Custody.ends_error hquiet hacks _ _
        · exact hpublish
  | batch =>
    refine ⟨⟨rfl, fun hkey => ?_⟩, ?_⟩
    · obtain ⟨b, heq, hb⟩ := hop hkey
      exact ⟨b, heq, fun htrusted => hb (hd.trusted htrusted)⟩
    · rintro ((_ | _) | ⟨⟩) hpossible
      · exact Custody.ends_error hquiet hacks _ _
      · exact (hpossible rfl).elim
      · exact hpublish

theorem Script.Retains.follows (hquiet : ∀ e, quiet (.error e)) (hacks : ∀ e, ¬ acks (.error e))
    {sc : Script B} : ∀ {trusted marked : Prop} {d : Custody},
      sc.Retains key Φ quiet acks trusted marked → d.Between trusted marked →
        Follows (custodyProtocol key Φ mode) (Custody.Ends quiet acks) d sc.run := by
  induction sc with
  | finish r =>
    exact fun h hd => ⟨fun htrusted => h.1 (hd.trusted htrusted), fun hr => hd.cached (h.2 hr)⟩
  | read k next ih =>
    exact fun h hd => follows_readKey hquiet hacks hd h.1 fun found _ => ih found (h.2 found)
  | clock next ih => exact fun h hd => ⟨trivial, fun now _ => ih now (h now) hd⟩
  | write op next ih =>
    exact fun h hd => follows_writeKey hquiet hacks hd h.1 fun _ => ih h.2
  | register path next ih => exact fun h hd => ⟨trivial, fun _ _ => ih h hd⟩

end Scripts

/-! ## Calls and the record -/

section Calls

variable {key : String} {Φ : B → Prop} {mode : SyncMode} {s s' : KvEngine B} {d : Custody}

/-- What an allowed call can do to the record, with the record that it has stored, and what
the request then knows of its own writes. A refused write stores nothing. -/
inductive Treats (key : String) (Φ : B → Prop) (s : KvEngine B) (d : Custody) :
    Option B → KvEngine B → Custody → Prop where
  | spares {s' : KvEngine B} {d' : Custody} (hcache : s'.cache key = s.cache key)
      (hdisk : s'.rocksdb key = s.rocksdb key) (hsettled : s'.settled key = s.settled key)
      (hpending : ∀ op ∈ s'.pending, op.key = key → op ∈ s.pending)
      (hwritten : d'.written = d.written) (hcached : d'.cached = d.cached) :
      Treats key Φ s d none s' d'
  | writes {s' : KvEngine B} (b : B) (hcache : s'.cache key = s.cache key)
      (hsettled : s'.settled key = some b)
      (hdisk : s'.rocksdb key = s.rocksdb key ∨ s'.rocksdb key = some b)
      (hpending : ∀ op ∈ s'.pending, op.key = key → op ∈ s.pending ∨ op = .put key b) :
      Treats key Φ s d (some b) s' { d with written := Φ b, cached := False }
  | caches {s' : KvEngine B} (b : B) (hcache : s'.cache key = some b)
      (hdisk : s'.rocksdb = s.rocksdb) (hpending : s'.pending = s.pending) :
      Treats key Φ s d (some b) s' { d with cached := d.written ∧ Φ b }

/-- A call, with the record that it stores. -/
def Handles (key : String) (Φ : B → Prop) (s : KvEngine B) (d : Custody) (op : Effect B)
    (s' : KvEngine B) (d' : Custody) : Prop :=
  ∃ stored, Treats key Φ s d stored s' d' ∧ ∀ b, stored = some b → op.stores key = some b

variable {op : Effect B} {d' : Custody}

theorem handles_spares (hcache : s'.cache key = s.cache key)
    (hdisk : s'.rocksdb key = s.rocksdb key) (hsettled : s'.settled key = s.settled key)
    (hpending : ∀ op ∈ s'.pending, op.key = key → op ∈ s.pending)
    (hwritten : d'.written = d.written) (hcached : d'.cached = d.cached) :
    Handles key Φ s d op s' d' :=
  ⟨none, .spares hcache hdisk hsettled hpending hwritten hcached, nofun⟩

theorem handles_same (hwritten : d'.written = d.written) (hcached : d'.cached = d.cached) :
    Handles key Φ s d op s d' :=
  handles_spares rfl rfl rfl (fun _ hop _ => hop) hwritten hcached

theorem handles_stores {b : B} (h : Treats key Φ s d (some b) s' d')
    (hstores : op.stores key = some b) : Handles key Φ s d op s' d' := by
  refine ⟨some b, h, fun b' heq => ?_⟩
  cases heq
  exact hstores

theorem wrote_of_ne {op : AsyncOp B} (hkey : op.key ≠ key) : d.wrote key Φ op = d :=
  if_neg hkey

theorem wrote_put (b : B) :
    d.wrote key Φ (.put key b) = { d with written := Φ b, cached := False } := by
  have hkey : (AsyncOp.put key b).key = key := rfl
  rw [Custody.wrote, if_pos hkey]
  congr 1
  exact propext bears_some

/-- A direct write finds no write pending. -/
theorem handles_write (hmode : s.InMode .immediate) (op : AsyncOp B) {call : Effect B}
    (hop : op.key = key → ∃ b, op = .put key b ∧ call.stores key = some b) :
    Handles key Φ s d call { s with rocksdb := op.apply s.rocksdb } (d.wrote key Φ op) := by
  obtain ⟨hqueue, hbatch⟩ := hmode.direct rfl
  have hnone : s.pending = [] := by
    rw [KvEngine.pending, hqueue, hbatch]
    rfl
  have hsettled : KvEngine.settled { s with rocksdb := op.apply s.rocksdb } = op.apply s.settled :=
    s.settled_write (by rw [hnone]; exact nofun)
  by_cases hkey : op.key = key
  · obtain ⟨b, rfl, hstores⟩ := hop hkey
    rw [wrote_put]
    refine handles_stores (.writes b rfl ?_ (Or.inr ?_) fun _ hop' _ => Or.inl hop') hstores
    · rw [hsettled]
      exact AsyncOp.apply_key s.settled (.put key b)
    · exact AsyncOp.apply_key s.rocksdb (.put key b)
  · rw [wrote_of_ne hkey]
    refine handles_spares rfl ?_ ?_ (fun _ hop' _ => hop') rfl rfl
    · exact AsyncOp.apply_of_ne s.rocksdb (Ne.symm hkey)
    · rw [hsettled]
      exact AsyncOp.apply_of_ne s.settled (Ne.symm hkey)

theorem handles_enqueue (op : AsyncOp B) {call : Effect B}
    (hop : op.key = key → ∃ b, op = .put key b ∧ call.stores key = some b) :
    Handles key Φ s d call { s with asyncQueue := s.asyncQueue ++ [op] } (d.wrote key Φ op) := by
  have hpending : ∀ op' ∈ KvEngine.pending { s with asyncQueue := s.asyncQueue ++ [op] },
      op' ∈ s.pending ∨ op' = op := by
    intro op' hop'
    change op' ∈ s.batch ++ (s.asyncQueue ++ [op]) at hop'
    rw [← List.append_assoc] at hop'
    rcases List.mem_append.mp hop' with hold | hnew
    · exact Or.inl hold
    · exact Or.inr (List.mem_singleton.mp hnew)
  have hsettled := s.settled_enqueue op
  by_cases hkey : op.key = key
  · obtain ⟨b, rfl, hstores⟩ := hop hkey
    rw [wrote_put]
    refine handles_stores (.writes b rfl ?_ (Or.inl rfl) ?_) hstores
    · rw [hsettled]
      exact AsyncOp.apply_key s.settled (.put key b)
    · exact fun op' hop' _ => hpending op' hop'
  · rw [wrote_of_ne hkey]
    refine handles_spares rfl rfl ?_ (fun op' hop' hkey' => ?_) rfl rfl
    · rw [hsettled]
      exact AsyncOp.apply_of_ne s.settled (Ne.symm hkey)
    · rcases hpending op' hop' with hold | rfl
      · exact hold
      · exact (hkey hkey').elim

theorem exec_handles (hmode : s.InMode mode)
    (hallowed : (custodyProtocol key Φ mode).allowed d op) (c : Choice) :
    Handles key Φ s d op (s.exec op c).2
      ((custodyProtocol key Φ mode).next d op (s.exec op c).1) := by
  obtain ⟨error, now⟩ := c
  cases op with
  | cacheLookup k =>
    change Handles key Φ s d _ s (d.looked key Φ k (s.cache k))
    unfold Custody.looked
    split <;> exact handles_same rfl rfl
  | cacheInsert k b =>
    change Handles key Φ s d _ { s with cache := Function.update s.cache k (some b) }
      (d.inserted key Φ k b)
    unfold Custody.inserted
    split
    · next hkey =>
      subst hkey
      exact handles_stores (.caches b (Function.update_self ..) rfl rfl) (if_pos rfl)
    · next hkey =>
      exact handles_spares (Function.update_of_ne (Ne.symm hkey) ..) rfl rfl
        (fun _ hop _ => hop) rfl rfl
  | cacheRemove k =>
    exact handles_spares (Function.update_of_ne (Ne.symm hallowed) ..) rfl rfl
      (fun _ hop _ => hop) rfl rfl
  | getRaw k =>
    cases error with
    | some e => exact handles_same rfl rfl
    | none =>
      change Handles key Φ s d _ s (d.fetched key Φ k (s.rocksdb k))
      unfold Custody.fetched
      split <;> exact handles_same rfl rfl
  | putRaw k b =>
    obtain ⟨rfl, _⟩ := hallowed
    cases error with
    | some e => exact handles_same rfl rfl
    | none =>
      refine handles_write hmode (.put k b) fun hkey => ⟨b, ?_, if_pos hkey⟩
      exact congrArg (AsyncOp.put · b) hkey
  | delRaw k =>
    obtain ⟨rfl, hkey⟩ := hallowed
    cases error with
    | some e => exact handles_same rfl rfl
    | none => exact handles_write hmode (.delete k) fun heq => (hkey heq).elim
  | enqueue op =>
    change Handles key Φ s d _ (if _ then _ else _ : _ × _).2
      ((custodyProtocol key Φ mode).next d (.enqueue op) (if _ then _ else _ : _ × _).1)
    split
    · refine handles_enqueue op fun hkey => ?_
      obtain ⟨b, rfl, _⟩ := hallowed.2 hkey
      exact ⟨b, rfl, if_pos rfl⟩
    · exact handles_same rfl rfl
  | getSyncMode => exact handles_same rfl rfl
  | nowMs => exact handles_same rfl rfl
  | insertPathIfAbsent path => exact handles_spares rfl rfl rfl (fun _ hop _ => hop) rfl rfl

/-- A request that has written the property has made a write of the key. -/
theorem next_written {r : op.Ret} (h : ((custodyProtocol key Φ mode).next d op r).written) :
    d.written ∨ ∃ w, op.acked r = some w ∧ w.key = key := by
  have hwrote : ∀ w, (d.wrote key Φ w).written → d.written ∨ w.key = key := by
    intro w hw
    by_cases hkey : w.key = key
    · exact Or.inr hkey
    · rw [wrote_of_ne hkey] at hw
      exact Or.inl hw
  cases op with
  | cacheLookup k =>
    change (d.looked key Φ k r).written at h
    unfold Custody.looked at h
    split at h <;> exact Or.inl h
  | cacheInsert k b =>
    change (d.inserted key Φ k b).written at h
    unfold Custody.inserted at h
    split at h <;> exact Or.inl h
  | getRaw k =>
    rcases r with e | found
    · exact Or.inl h
    · change (d.fetched key Φ k found).written at h
      unfold Custody.fetched at h
      split at h <;> exact Or.inl h
  | putRaw k b =>
    rcases r with e | ⟨⟩
    · exact Or.inl h
    · exact (hwrote (.put k b) h).imp id fun hkey => ⟨.put k b, rfl, hkey⟩
  | delRaw k =>
    rcases r with e | ⟨⟩
    · exact Or.inl h
    · exact (hwrote (.delete k) h).imp id fun hkey => ⟨.delete k, rfl, hkey⟩
  | enqueue w =>
    rcases r with e | ⟨⟩
    · exact Or.inl h
    · exact (hwrote w h).imp id fun hkey => ⟨w, rfl, hkey⟩
  | cacheRemove k => exact Or.inl h
  | getSyncMode => exact Or.inl h
  | nowMs => exact Or.inl h
  | insertPathIfAbsent path => exact Or.inl h

theorem exists_write_of_written :
    ∀ {trace : List ((op : Effect B) × op.Ret)},
      ((custodyProtocol key Φ mode).after Custody.start trace).written →
        ∃ w ∈ writesOf trace, w.key = key := by
  intro trace
  induction trace with
  | nil => exact False.elim
  | cons x trace ih =>
    intro h
    rcases next_written h with hbefore | ⟨w, hacked, hkey⟩
    · obtain ⟨w, hw, hkey⟩ := ih hbefore
      refine ⟨w, ?_, hkey⟩
      rw [writesOf, List.filterMap_cons]
      split
      · exact hw
      · exact List.mem_cons_of_mem _ hw
    · refine ⟨w, ?_, hkey⟩
      rw [writesOf, List.filterMap_cons, hacked]
      exact List.mem_cons_self

theorem exec_inMode (hmode : s.InMode mode)
    (hallowed : (custodyProtocol key Φ mode).allowed d op) (c : Choice) :
    (s.exec op c).2.InMode mode ∧ (custodyProtocol key Φ mode).possible d op (s.exec op c).1 := by
  obtain ⟨error, now⟩ := c
  cases op with
  | cacheLookup k => exact ⟨hmode, trivial⟩
  | cacheInsert k b => exact ⟨⟨hmode.fixed, hmode.direct⟩, trivial⟩
  | cacheRemove k => exact ⟨⟨hmode.fixed, hmode.direct⟩, trivial⟩
  | getRaw k =>
    cases error with
    | some e => exact ⟨hmode, trivial⟩
    | none => exact ⟨hmode, trivial⟩
  | putRaw k b =>
    cases error with
    | some e => exact ⟨hmode, trivial⟩
    | none => exact ⟨⟨hmode.fixed, hmode.direct⟩, trivial⟩
  | delRaw k =>
    cases error with
    | some e => exact ⟨hmode, trivial⟩
    | none => exact ⟨⟨hmode.fixed, hmode.direct⟩, trivial⟩
  | enqueue op =>
    obtain ⟨rfl, _⟩ := hallowed
    by_cases hroom : s.asyncQueue.length < queueCapacity
    · have hexec : s.exec (.enqueue op) ⟨error, now⟩ =
          (.ok (), { s with asyncQueue := s.asyncQueue ++ [op] }) := if_pos hroom
      rw [hexec]
      refine ⟨⟨hmode.fixed, nofun⟩, fun h => ?_⟩
      change (.ok () : Except QueueError Unit) = .error .empty at h
      cases h
    · have hexec : s.exec (.enqueue op) ⟨error, now⟩ = (.error .full, s) := if_neg hroom
      rw [hexec]
      exact ⟨hmode, fun h => QueueError.noConfusion (Except.error.inj h)⟩
  | getSyncMode => exact ⟨hmode, hmode.fixed⟩
  | nowMs => exact ⟨hmode, trivial⟩
  | insertPathIfAbsent path => exact ⟨⟨hmode.fixed, hmode.direct⟩, trivial⟩

/-- A request that trusts what it has found stores only records with the property. -/
theorem allowed_stores (hallowed : (custodyProtocol key Φ mode).allowed d op) {b : B}
    (hstores : op.stores key = some b) (htrusted : d.trusted) : Φ b := by
  cases op with
  | cacheInsert k b' =>
    obtain ⟨hkey, heq⟩ := Option.ite_none_right_eq_some.mp hstores
    cases heq
    exact (hallowed hkey).1 htrusted
  | putRaw k b' =>
    obtain ⟨hkey, heq⟩ := Option.ite_none_right_eq_some.mp hstores
    cases heq
    exact hallowed.2 hkey htrusted
  | enqueue w =>
    cases w with
    | put k b' =>
      obtain ⟨hkey, heq⟩ := Option.ite_none_right_eq_some.mp hstores
      cases heq
      obtain ⟨b'', hput, hb''⟩ := hallowed.2 hkey
      cases hput
      exact hb'' htrusted
    | delete k => cases hstores
  | cacheLookup k => cases hstores
  | cacheRemove k => cases hstores
  | getRaw k => cases hstores
  | delRaw k => cases hstores
  | getSyncMode => cases hstores
  | nowMs => cases hstores
  | insertPathIfAbsent path => cases hstores

/-- What a request finds while the record is retained. -/
theorem next_trusted (hs : s.Retains key Φ)
    (hallowed : (custodyProtocol key Φ mode).allowed d op) (htrusted : d.trusted)
    (hmissed : d.missed → s.Durable key Φ) (c : Choice) :
    ((custodyProtocol key Φ mode).next d op (s.exec op c).1).trusted ∧
      (((custodyProtocol key Φ mode).next d op (s.exec op c).1).missed → s.Durable key Φ) := by
  have hwrote : ∀ w, (d.wrote key Φ w).trusted ∧
      ((d.wrote key Φ w).missed → s.Durable key Φ) := by
    intro w
    unfold Custody.wrote
    split <;> exact ⟨htrusted, hmissed⟩
  obtain ⟨error, now⟩ := c
  cases op with
  | cacheLookup k =>
    change (d.looked key Φ k (s.cache k)).trusted ∧
      ((d.looked key Φ k (s.cache k)).missed → s.Durable key Φ)
    unfold Custody.looked
    split
    · next hkey =>
      subst hkey
      exact ⟨⟨htrusted, hs.cached⟩, fun h => h.elim hmissed hs.missed⟩
    · exact ⟨htrusted, hmissed⟩
  | cacheInsert k b =>
    change (d.inserted key Φ k b).trusted ∧ ((d.inserted key Φ k b).missed → s.Durable key Φ)
    unfold Custody.inserted
    split <;> exact ⟨htrusted, hmissed⟩
  | cacheRemove k => exact ⟨htrusted, hmissed⟩
  | getRaw k =>
    cases error with
    | some e => exact ⟨htrusted, hmissed⟩
    | none =>
      change (d.fetched key Φ k (s.rocksdb k)).trusted ∧
        ((d.fetched key Φ k (s.rocksdb k)).missed → s.Durable key Φ)
      unfold Custody.fetched
      split
      · next hkey =>
        have hdurable := hmissed (hallowed hkey)
        subst hkey
        exact ⟨⟨htrusted, hdurable.disk⟩, hmissed⟩
      · exact ⟨htrusted, hmissed⟩
  | putRaw k b =>
    cases error with
    | some e => exact ⟨htrusted, hmissed⟩
    | none => exact hwrote (.put k b)
  | delRaw k =>
    cases error with
    | some e => exact ⟨htrusted, hmissed⟩
    | none => exact hwrote (.delete k)
  | enqueue w =>
    change ((custodyProtocol key Φ mode).next d (.enqueue w)
        (if _ then _ else _ : _ × _).1).trusted ∧
      (((custodyProtocol key Φ mode).next d (.enqueue w)
        (if _ then _ else _ : _ × _).1).missed → _)
    split
    · exact hwrote w
    · exact ⟨htrusted, hmissed⟩
  | getSyncMode => exact ⟨htrusted, hmissed⟩
  | nowMs => exact ⟨htrusted, hmissed⟩
  | insertPathIfAbsent path => exact ⟨htrusted, hmissed⟩

namespace Treats

variable {stored : Option B} {d' : Custody}

theorem durable (h : Treats key Φ s d stored s' d') (hstored : ∀ b, stored = some b → Φ b)
    (hs : s.Durable key Φ) : s'.Durable key Φ := by
  cases h with
  | spares hcache hdisk hsettled hpending =>
    refine ⟨?_, fun w hw hkey => hs.pending w (hpending w hw hkey) hkey⟩
    rw [hdisk]
    exact hs.disk
  | writes b hcache hsettled hdisk hpending =>
    have hb := hstored b rfl
    refine ⟨?_, fun w hw hkey => ?_⟩
    · rcases hdisk with hdisk | hdisk
      · rw [hdisk]
        exact hs.disk
      · rw [hdisk]
        exact bears_some.mpr hb
    · rcases hpending w hw hkey with hold | rfl
      · exact hs.pending w hold hkey
      · exact bears_some.mpr hb
  | caches b hcache hdisk hpending =>
    refine ⟨?_, ?_⟩
    · rw [hdisk]
      exact hs.disk
    · rw [hpending]
      exact hs.pending

/-- A cached record is not yet, or no longer, the latest write. -/
theorem settled_eq (hdisk : s'.rocksdb = s.rocksdb) (hpending : s'.pending = s.pending) :
    s'.settled = s.settled := by
  rw [KvEngine.settled, hdisk, hpending]
  rfl

theorem settled (h : Treats key Φ s d stored s' d') (hstored : ∀ b, stored = some b → Φ b)
    (hs : Bears Φ (s.settled key)) : Bears Φ (s'.settled key) := by
  cases h with
  | spares hcache hdisk hsettled =>
    rw [hsettled]
    exact hs
  | writes b hcache hsettled =>
    rw [hsettled]
    exact bears_some.mpr (hstored b rfl)
  | caches b hcache hdisk hpending =>
    rw [settled_eq hdisk hpending]
    exact hs

theorem retains (h : Treats key Φ s d stored s' d') (hstored : ∀ b, stored = some b → Φ b)
    (hs : s.Retains key Φ) : s'.Retains key Φ := by
  refine ⟨?_, h.settled hstored hs.settled, ?_⟩
  · cases h with
    | spares hcache => exact fun b hb => hs.cached b (hcache ▸ hb)
    | writes _ hcache => exact fun b hb => hs.cached b (hcache ▸ hb)
    | caches b hcache =>
      intro b' hb'
      cases hcache.symm.trans hb'
      exact hstored b rfl
  · intro hmiss
    refine h.durable hstored (hs.missed ?_)
    cases h with
    | spares hcache => exact hcache ▸ hmiss
    | writes _ hcache => exact hcache ▸ hmiss
    | caches _ hcache => cases hcache.symm.trans hmiss

/-- A request caches after it has written. -/
theorem written_of_cached (h : Treats key Φ s d stored s' d') (hd : d.cached → d.written) :
    d'.cached → d'.written := by
  cases h with
  | spares _ _ _ _ hwritten hcached =>
    rw [hwritten, hcached]
    exact hd
  | writes b => exact False.elim
  | caches b => exact fun hcached => hcached.1

/-- What a request that has written the property knows of the latest write. -/
theorem settled_own (h : Treats key Φ s d stored s' d') (hd : d.written → Bears Φ (s.settled key))
    (hwritten : d'.written) : Bears Φ (s'.settled key) := by
  cases h with
  | spares _ _ hsettled _ hsame =>
    rw [hsame] at hwritten
    rw [hsettled]
    exact hd hwritten
  | writes b _ hsettled =>
    rw [hsettled]
    exact bears_some.mpr hwritten
  | caches b _ hdisk hpending =>
    rw [settled_eq hdisk hpending]
    exact hd hwritten

/-- The record is retained once the latest write and the cache have the property. -/
theorem retains_own (h : Treats key Φ s d stored s' d') (hd : d.written → Bears Φ (s.settled key))
    (hs : d.cached → s.Retains key Φ) (hcached : d'.cached) : s'.Retains key Φ := by
  cases h with
  | spares hcache hdisk hsettled hpending hwritten hsame =>
    rw [hsame] at hcached
    exact (Treats.spares hcache hdisk hsettled hpending hwritten hsame).retains nofun (hs hcached)
  | writes b => exact hcached.elim
  | caches b hcache hdisk hpending =>
    have hsettled : Bears Φ (s'.settled key) := by
      rw [settled_eq hdisk hpending]
      exact hd hcached.1
    refine ⟨fun b' hb' => ?_, hsettled, fun hmiss => ?_⟩
    · cases hcache.symm.trans hb'
      exact hcached.2
    · cases hcache.symm.trans hmiss

end Treats

end Calls

end Kallisto.Engine
