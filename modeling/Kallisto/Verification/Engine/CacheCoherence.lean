import Kallisto.Verification.Engine.Effects
import Kallisto.Verification.Engine.Keys
import Kallisto.Verification.Engine.Pending

/-! # Agreement of cache and disk -/

namespace Kallisto.Engine

open Program Interleaving

variable {B Tid : Type} {p : Clients B Tid} {log : List (Event (system B) EngineError Call Out Tid)}

/-! ## What a program owes to the cache -/

/-- After a write or a read of RocksDB the next call updates the cache accordingly. -/
inductive Debt (B : Type) where
  | clear
  | insert (key : String) (value : B)
  | remove (key : String)

namespace Debt

def key : Debt B → Option String
  | clear => none
  | insert key _ => some key
  | remove key => some key

/-- The value of RocksDB that the owed update publishes. -/
def Owed (db : String → Option B) : Debt B → Prop
  | clear => True
  | insert key value => db key = some value
  | remove key => db key = none

def allowed : Debt B → Effect B → Prop
  | clear, .cacheInsert _ _ => False
  | clear, .cacheRemove _ => False
  | clear, .enqueue _ => False
  | clear, _ => True
  | insert key value, op => op = .cacheInsert key value
  | remove key, op => op = .cacheRemove key

def next : Debt B → (op : Effect B) → op.Ret → Debt B
  | clear, .putRaw key value, (.ok () : Except String Unit) => insert key value
  | clear, .delRaw key, (.ok () : Except String Unit) => remove key
  | clear, .getRaw key, (.ok (some value) : Except String (Option B)) => insert key value
  | _, _, _ => clear

/-- In immediate mode the queue is not used. -/
def possible : Debt B → (op : Effect B) → op.Ret → Prop
  | _, .getSyncMode, (mode : SyncMode) => mode = .immediate
  | _, _, _ => True

end Debt

def cacheProtocol : Protocol (Effect.Ret (B := B)) (Debt B) where
  allowed := Debt.allowed
  possible := Debt.possible
  next := Debt.next

/-- The program settles every debt it makes. -/
def Tidy {α : Type} (prog : EngineM B α) : Prop :=
  Follows cacheProtocol (fun d _ => d = .clear) .clear prog

section Tidy

variable {α β : Type} {prog : EngineM B α}

theorem Tidy.bind {f : α → EngineM B β} (h : Tidy prog) (hf : ∀ a, Tidy (f a)) :
    Tidy (prog >>= f) := by
  refine Follows.bind ?_ ?_ h
  · rintro d a rfl
    exact hf a
  · exact fun d e hd => hd

theorem Tidy.attempt (h : Tidy prog) : Tidy prog.attempt :=
  Follows.attempt (fun _ _ hd => hd) h

theorem tidy_done (r : Except EngineError α) : Tidy (.done r : EngineM B α) :=
  rfl

theorem tidy_readRawOptimistic {R : Type} (key : String) (f : B → R) :
    Tidy (readRawOptimistic key f) := by
  refine ⟨trivial, ?_⟩
  rintro (_ | payload) -
  · refine ⟨trivial, ?_⟩
    rintro (e | (_ | disk)) -
    · rfl
    · rfl
    · exact ⟨rfl, fun _ _ => rfl⟩
  · rfl

/-- The update that a raw write owes. -/
def Debt.ofOp : AsyncOp B → Debt B
  | .put key value => .insert key value
  | .delete key => .remove key

theorem follows_enqueueOrExecute (op : AsyncOp B) :
    Follows cacheProtocol (fun d r => d = match r with
      | .ok _ => .ofOp op
      | .error _ => .clear) .clear (enqueueOrExecute op) := by
  refine ⟨trivial, ?_⟩
  intro mode hmode
  obtain rfl : mode = SyncMode.immediate := hmode
  cases op with
  | put key value =>
    refine ⟨trivial, ?_⟩
    rintro (e | ⟨⟩) - <;> rfl
  | delete key =>
    refine ⟨trivial, ?_⟩
    rintro (e | ⟨⟩) - <;> rfl

/-- A write followed by the update of the cache that it owes. -/
theorem tidy_publish {op : AsyncOp B} {f : Unit → EngineM B β}
    (hf : Follows cacheProtocol (fun d _ => d = .clear) (.ofOp op) (f ())) :
    Tidy (enqueueOrExecute op >>= f) := by
  refine Follows.bind ?_ ?_ (follows_enqueueOrExecute op)
  · rintro d ⟨⟩ rfl
    exact hf
  · exact fun d e hd => hd

variable (rkyv : Rkyv B)

theorem tidy_serializePayload (x : SecretPayload) : Tidy (serializePayload rkyv x) := by
  unfold serializePayload
  split <;> exact tidy_done _

theorem tidy_serializeMetadata (m : KeyMetadata) : Tidy (serializeMetadata rkyv m) := by
  unfold serializeMetadata
  split <;> exact tidy_done _

theorem tidy_storeMetadata (path : String) (m : KeyMetadata) :
    Tidy (storeMetadata rkyv path m) := by
  refine (tidy_serializeMetadata rkyv m).bind fun bytes => tidy_publish ?_
  exact ⟨rfl, fun _ _ => rfl⟩

theorem tidy_readMetadata (path : String) : Tidy (readMetadata rkyv path) := by
  refine (tidy_readRawOptimistic _ _).bind fun found => ?_
  cases found <;> exact tidy_done _

theorem tidy_readVersion (path : String) (version : UInt32) :
    Tidy (readVersion rkyv path version) := by
  refine (tidy_readRawOptimistic _ _).bind fun found => ?_
  rcases found with _ | ⟨target, _ | v⟩
  · exact tidy_done _
  · exact tidy_done _
  · dsimp only
    split
    · exact tidy_done _
    · split
      · exact tidy_done _
      · split
        · exact tidy_done _
        · refine (tidy_readRawOptimistic _ _).bind fun payload => ?_
          cases payload <;> exact tidy_done _

theorem tidy_readMetadataOrDefault (path : String) : Tidy (readMetadataOrDefault rkyv path) := by
  refine (tidy_readMetadata rkyv path).attempt.bind fun found => ?_
  rcases found with (_ | _ | _ | _ | _ | _ | _) | m <;> exact tidy_done _

theorem tidy_checkCas (cas : Option UInt32) (m : KeyMetadata) :
    Tidy (checkCas cas m : EngineM B Unit) := by
  unfold checkCas
  split
  · split <;> exact tidy_done _
  · exact tidy_done _

theorem tidy_appendVersion (path : String) (x : SecretPayload) (m : KeyMetadata) :
    Tidy (appendVersion rkyv path x m) := by
  refine ⟨trivial, fun created _ => ?_⟩
  refine (tidy_serializePayload rkyv x).bind fun bytes => tidy_publish ⟨rfl, fun _ _ => ?_⟩
  exact (tidy_storeMetadata rkyv path _).bind fun _ => ⟨trivial, fun _ _ => rfl⟩

theorem tidy_putVersion (path : String) (x : SecretPayload) (cas : Option UInt32) :
    Tidy (putVersion rkyv path x cas) :=
  (tidy_readMetadataOrDefault rkyv path).bind fun m =>
    (tidy_checkCas cas m).bind fun _ => tidy_appendVersion rkyv path x m

theorem tidy_softDelete (path : String) (version : UInt32) :
    Tidy (softDelete rkyv path version) := by
  refine (tidy_readMetadata rkyv path).bind fun m => ?_
  split
  · exact tidy_done _
  · exact ⟨trivial, fun now _ => tidy_storeMetadata rkyv path _⟩

theorem tidy_undelete (path : String) (version : UInt32) : Tidy (undelete rkyv path version) := by
  refine (tidy_readMetadata rkyv path).bind fun m => ?_
  split
  · exact tidy_done _
  · split
    · exact tidy_done _
    · exact tidy_storeMetadata rkyv path _

theorem tidy_destroyVersion (path : String) (version : UInt32) :
    Tidy (destroyVersion rkyv path version) := by
  refine (tidy_readMetadata rkyv path).bind fun m => ?_
  split
  · exact tidy_done _
  · exact tidy_publish ⟨rfl, fun _ _ => tidy_storeMetadata rkyv path _⟩

theorem tidy_body (c : Call) : Tidy (body rkyv c) := by
  cases c with
  | readMetadata path => exact (tidy_readMetadata rkyv path).bind fun _ => tidy_done _
  | readVersion path version =>
    exact (tidy_readVersion rkyv path version).bind fun _ => tidy_done _
  | putVersion path x cas => exact (tidy_putVersion rkyv path x cas).bind fun _ => tidy_done _
  | softDelete path version =>
    exact (tidy_softDelete rkyv path version).bind fun _ => tidy_done _
  | undelete path version => exact (tidy_undelete rkyv path version).bind fun _ => tidy_done _
  | destroyVersion path version =>
    exact (tidy_destroyVersion rkyv path version).bind fun _ => tidy_done _

end Tidy

/-! ## The invariant of the clients -/

structure Coherent (p : Clients B Tid) (debt : Tid → Debt B) : Prop where
  mode : p.shared.syncMode = .immediate
  queue : p.shared.asyncQueue = []
  batch : p.shared.batch = []
  follows : ∀ t c prog, p.client t = some (c, prog) →
    Follows cacheProtocol (fun d _ => d = .clear) (debt t) prog
  idle : ∀ t, p.client t = none → debt t = .clear
  owed : ∀ t, (debt t).Owed p.shared.rocksdb
  cached : ∀ key b, p.shared.cache key = some b →
    p.shared.rocksdb key = some b ∨ ∃ t, (debt t).key = some key

/-- The cache holds nothing but what RocksDB holds. -/
def CacheAgrees (s : KvEngine B) : Prop :=
  ∀ key b, s.cache key = some b → s.rocksdb key = some b

variable {debt : Tid → Debt B}

/-- A debt that is not the client's own belongs to another one. -/
theorem Coherent.cached_other (hc : Coherent p debt) {t : Tid} {key : String} {b : B}
    (ht : (debt t).key ≠ some key) (h : p.shared.cache key = some b) :
    p.shared.rocksdb key = some b ∨ ∃ t', t' ≠ t ∧ (debt t').key = some key := by
  rcases hc.cached key b h with h | ⟨t', h⟩
  · exact Or.inl h
  · refine Or.inr ⟨t', ?_, h⟩
    rintro rfl
    exact ht h

theorem Coherent.agrees (hc : Coherent p debt) (hidle : ∀ t, p.client t = none) :
    CacheAgrees p.shared := by
  intro key b hb
  rcases hc.cached key b hb with h | ⟨t, ht⟩
  · exact h
  · rw [hc.idle t (hidle t)] at ht
    cases ht

/-- A debt shows in the next call of its client. -/
theorem Coherent.publishes (hc : Coherent p debt) {t : Tid} {key : String}
    (hkey : (debt t).key = some key) : ∃ op, p.nextCall t = some op ∧ op.publishes = some key := by
  rcases hclient : p.client t with _ | ⟨c, prog⟩
  · rw [hc.idle t hclient] at hkey
    cases hkey
  · have hfollows := hc.follows t c prog hclient
    cases prog with
    | done r =>
      have hclear : debt t = .clear := hfollows
      rw [hclear] at hkey
      cases hkey
    | call op k =>
      refine ⟨op, by simp [Pool.nextCall, hclient], ?_⟩
      have hallowed : (debt t).allowed op := hfollows.1
      cases hd : debt t with
      | clear =>
        rw [hd] at hkey
        cases hkey
      | insert key' value =>
        rw [hd] at hkey hallowed
        obtain rfl : op = .cacheInsert key' value := hallowed
        exact hkey
      | remove key' =>
        rw [hd] at hkey hallowed
        obtain rfl : op = .cacheRemove key' := hallowed
        exact hkey

section Coherent

variable [DecidableEq Tid] {p : Clients B Tid} {debt : Tid → Debt B} {prog : EngineM B Out}

/-- The frame of every step of a client: the others keep their debts. -/
theorem Coherent.move (hc : Coherent p debt) {t : Tid} {s : KvEngine B}
    {client : Option (Call × EngineM B Out)} {d : Debt B}
    (hmode : s.syncMode = p.shared.syncMode) (hqueue : s.asyncQueue = p.shared.asyncQueue)
    (hbatch : s.batch = p.shared.batch) (hfollows : ∀ c prog, client = some (c, prog) →
      Follows cacheProtocol (fun d _ => d = .clear) d prog) (hidle : client = none → d = .clear)
    (hself : d.Owed s.rocksdb) (hothers : ∀ t', t' ≠ t → (debt t').Owed s.rocksdb)
    (hcached : ∀ key b, s.cache key = some b →
      s.rocksdb key = some b ∨ d.key = some key ∨ ∃ t', t' ≠ t ∧ (debt t').key = some key) :
    Coherent ⟨s, p.setClient t client, log⟩ (Function.update debt t d) where
  mode := hmode.trans hc.mode
  queue := hqueue.trans hc.queue
  batch := hbatch.trans hc.batch
  follows t' c prog h := by
    change Function.update p.client t client t' = some (c, prog) at h
    by_cases ht : t' = t
    · subst ht
      rw [Function.update_self] at h ⊢
      exact hfollows c prog h
    · rw [Function.update_of_ne ht] at h ⊢
      exact hc.follows t' c prog h
  idle t' h := by
    change Function.update p.client t client t' = none at h
    by_cases ht : t' = t
    · subst ht
      rw [Function.update_self] at h ⊢
      exact hidle h
    · rw [Function.update_of_ne ht] at h ⊢
      exact hc.idle t' h
  owed t' := by
    by_cases ht : t' = t
    · subst ht
      rw [Function.update_self]
      exact hself
    · rw [Function.update_of_ne ht]
      exact hothers t' ht
  cached key b h := by
    rcases hcached key b h with h | h | ⟨t', ht, h⟩
    · exact Or.inl h
    · exact Or.inr ⟨t, by rw [Function.update_self]; exact h⟩
    · exact Or.inr ⟨t', by rw [Function.update_of_ne ht]; exact h⟩

/-! ## Steps of a client -/

variable {t : Tid} {c : Call} {log : List (Event (system B) EngineError Call Out Tid)}

/-- A call that changes neither the cache nor RocksDB. -/
theorem Coherent.observe (hc : Coherent p debt) {s : KvEngine B} {d : Debt B}
    (hclear : debt t = .clear) (hcache : s.cache = p.shared.cache)
    (hdb : s.rocksdb = p.shared.rocksdb) (hmode : s.syncMode = p.shared.syncMode)
    (hqueue : s.asyncQueue = p.shared.asyncQueue) (hbatch : s.batch = p.shared.batch)
    (hfollows : Follows cacheProtocol (fun d _ => d = .clear) d prog)
    (hself : d.Owed p.shared.rocksdb) :
    Coherent ⟨s, p.setClient t (some (c, prog)), log⟩ (Function.update debt t d) := by
  refine hc.move hmode hqueue hbatch ?_ (by simp) (by rwa [hdb]) ?_ ?_
  · rintro c' prog' h
    obtain ⟨_, rfl⟩ := Prod.mk.inj (Option.some.inj h)
    exact hfollows
  · intro t' _
    rw [hdb]
    exact hc.owed t'
  · intro key b h
    rw [hcache] at h
    rw [hdb]
    rcases hc.cached_other (by rw [hclear]; simp [Debt.key]) h with h | h
    · exact Or.inl h
    · exact Or.inr (Or.inr h)

/-- A raw write that no other client is about to publish over. -/
theorem Coherent.write (hc : Coherent p debt) (op : AsyncOp B) (hclear : debt t = .clear)
    (hfollows : Follows cacheProtocol (fun d _ => d = .clear) (.ofOp op) prog)
    (hother : ∀ t', t' ≠ t → (debt t').key ≠ some op.key) :
    Coherent ⟨{ p.shared with rocksdb := op.apply p.shared.rocksdb },
      p.setClient t (some (c, prog)), log⟩ (Function.update debt t (.ofOp op)) := by
  have hne : ∀ key, key ≠ op.key → op.apply p.shared.rocksdb key = p.shared.rocksdb key :=
    fun key h => Function.update_of_ne h _ _
  refine hc.move rfl rfl rfl ?_ (by simp) ?_ ?_ ?_
  · rintro c' prog' h
    obtain ⟨_, rfl⟩ := Prod.mk.inj (Option.some.inj h)
    exact hfollows
  · cases op <;> exact Function.update_self _ _ _
  · intro t' ht
    have howed := hc.owed t'
    have hkey := hother t' ht
    cases hd : debt t' with
    | clear => trivial
    | insert key value =>
      rw [hd] at howed hkey
      exact (hne key fun h => hkey (congrArg some h)).trans howed
    | remove key =>
      rw [hd] at howed hkey
      exact (hne key fun h => hkey (congrArg some h)).trans howed
  · intro key b h
    by_cases hkey : key = op.key
    · right
      left
      cases op <;> exact congrArg some hkey.symm
    · rcases hc.cached_other (by rw [hclear]; simp [Debt.key]) h with h | h
      · exact Or.inl ((hne key hkey).trans h)
      · exact Or.inr (Or.inr h)

/-- The client publishes what RocksDB holds. -/
theorem Coherent.publish (hc : Coherent p debt) {key : String} {value : Option B}
    (hkey : (debt t).key = some key) (hvalue : p.shared.rocksdb key = value)
    (hfollows : Follows cacheProtocol (fun d _ => d = .clear) .clear prog) :
    Coherent ⟨{ p.shared with cache := Function.update p.shared.cache key value },
      p.setClient t (some (c, prog)), log⟩ (Function.update debt t .clear) := by
  refine hc.move rfl rfl rfl ?_ (by simp) trivial (fun t' _ => hc.owed t') ?_
  · rintro c' prog' h
    obtain ⟨_, rfl⟩ := Prod.mk.inj (Option.some.inj h)
    exact hfollows
  · intro key' b h
    by_cases he : key' = key
    · subst he
      left
      change Function.update p.shared.cache key' value key' = some b at h
      rwa [Function.update_self, ← hvalue] at h
    · have h : p.shared.cache key' = some b := (Function.update_of_ne he _ _).symm.trans h
      rcases hc.cached_other (t := t) (by rw [hkey]; simpa using Ne.symm he) h with h | h
      · exact Or.inl h
      · exact Or.inr (Or.inr h)

theorem Coherent.act (hc : Coherent p debt) {choice : Choice} {op : Effect B}
    {k : op.Ret → EngineM B Out} (hclient : p.client t = some (c, .call op k))
    (herror : choice.error = none)
    (hother : ∀ key, op.writes = some key → ∀ t', t' ≠ t → (debt t').key ≠ some key) :
    ∃ debt', Coherent ⟨(p.shared.exec op choice).2,
      p.setClient t (some (c, k (p.shared.exec op choice).1)), log⟩ debt' := by
  obtain ⟨hallowed, hrest⟩ := hc.follows t c _ hclient
  have howed := hc.owed t
  cases hd : debt t with
  | insert key value =>
    rw [hd] at hallowed hrest howed
    obtain rfl : op = .cacheInsert key value := hallowed
    exact ⟨_, hc.publish (by rw [hd]; rfl) howed (hrest () trivial)⟩
  | remove key =>
    rw [hd] at hallowed hrest howed
    obtain rfl : op = .cacheRemove key := hallowed
    exact ⟨_, hc.publish (by rw [hd]; rfl) howed (hrest () trivial)⟩
  | clear =>
    rw [hd] at hallowed hrest
    cases op with
    | cacheLookup key =>
      exact ⟨_, hc.observe hd rfl rfl rfl rfl rfl (hrest _ trivial) trivial⟩
    | cacheInsert key value => exact hallowed.elim
    | cacheRemove key => exact hallowed.elim
    | getRaw key =>
      rw [KvEngine.exec_getRaw _ _ herror]
      have hfollows := hrest (.ok (p.shared.rocksdb key) : Except String (Option B)) trivial
      cases hdb : p.shared.rocksdb key with
      | none =>
        rw [hdb] at hfollows
        exact ⟨_, hc.observe hd rfl rfl rfl rfl rfl hfollows trivial⟩
      | some value =>
        rw [hdb] at hfollows
        exact ⟨_, hc.observe hd rfl rfl rfl rfl rfl hfollows hdb⟩
    | putRaw key value =>
      rw [KvEngine.exec_putRaw _ _ _ herror]
      exact ⟨_, hc.write (.put key value) hd (hrest (.ok () : Except String Unit) trivial)
        (hother key rfl)⟩
    | delRaw key =>
      rw [KvEngine.exec_delRaw _ _ herror]
      exact ⟨_, hc.write (.delete key) hd (hrest (.ok () : Except String Unit) trivial)
        (hother key rfl)⟩
    | enqueue op => exact hallowed.elim
    | getSyncMode =>
      exact ⟨_, hc.observe hd rfl rfl rfl rfl rfl (hrest _ hc.mode) trivial⟩
    | nowMs => exact ⟨_, hc.observe hd rfl rfl rfl rfl rfl (hrest _ trivial) trivial⟩
    | insertPathIfAbsent path =>
      exact ⟨_, hc.observe hd rfl rfl rfl rfl rfl (hrest _ trivial) trivial⟩

end Coherent

/-! ## Runs -/

theorem coherent_init (db : String → Option B) (paths : List String) :
    Coherent (Clients.opened db .immediate paths : Clients B Tid) fun _ => .clear where
  mode := rfl
  queue := rfl
  batch := rfl
  follows _ _ _ h := by cases h
  idle _ _ := rfl
  owed _ := trivial
  cached _ _ h := by cases h

/-- Steps in immediate mode on a healthy storage. -/
def ImmediateStep : Step B Tid → Prop
  | .act _ c => c.error = none
  | .env (.changeSyncMode _) => False
  | _ => True

theorem Coherent.env (hc : Coherent p debt) {e : EnvStep}
    (he : ImmediateStep (.env e : Step B Tid)) : Coherent ⟨p.shared.env e, p.client, log⟩ debt := by
  cases e with
  | dropEntry key =>
    refine ⟨hc.mode, hc.queue, hc.batch, hc.follows, hc.idle, hc.owed, ?_⟩
    intro key' b h
    change Function.update p.shared.cache key none key' = some b at h
    rw [Function.update_apply] at h
    split at h
    · cases h
    · exact hc.cached key' b h
  | worker timeout fails =>
    obtain ⟨pc, hpc⟩ := workerStep_idle p.shared hc.queue hc.batch timeout fails
    change Coherent ⟨p.shared.workerStep timeout fails, p.client, log⟩ debt
    rw [hpc]
    exact ⟨hc.mode, hc.queue, hc.batch, hc.follows, hc.idle, hc.owed, hc.cached⟩
  | changeSyncMode mode => exact he.elim
  | stop => exact ⟨hc.mode, hc.queue, hc.batch, hc.follows, hc.idle, hc.owed, hc.cached⟩

instance (l : Step B Tid) : Decidable (ImmediateStep l) :=
  match l with
  | .act _ c => inferInstanceAs (Decidable (c.error = none))
  | .invoke _ _ => .isTrue trivial
  | .respond _ => .isTrue trivial
  | .env (.changeSyncMode _) => .isFalse id
  | .env (.dropEntry _) => .isTrue trivial
  | .env (.worker _ _) => .isTrue trivial
  | .env .stop => .isTrue trivial

/-- A client writes a key of RocksDB only while no other client is about to update the
cache entry of that key. -/
def NoCrossing (p : Clients B Tid) : Step B Tid → Prop
  | .act t _ => (p.nextCall t).bind Effect.writes = none ∨ ∀ t', t' ≠ t →
      (p.nextCall t').bind Effect.publishes ≠ (p.nextCall t).bind Effect.writes
  | _ => True

instance (p : Clients B Bool) (l : Step B Bool) : Decidable (NoCrossing p l) :=
  match l with
  | .act t _ => inferInstanceAs (Decidable ((p.nextCall t).bind Effect.writes = none ∨
      ∀ t', t' ≠ t → (p.nextCall t').bind Effect.publishes ≠ (p.nextCall t).bind Effect.writes))
  | .invoke _ _ => .isTrue trivial
  | .respond _ => .isTrue trivial
  | .env _ => .isTrue trivial

/-- Clients without crossing writes leave cache and disk in agreement whenever none of
them is in a call. -/
theorem quiescent_cacheAgrees [DecidableEq Tid] (rkyv : Rkyv B) (db : String → Option B)
    (paths : List String) (labels : List (Step B Tid))
    (hsteps : Along (Pool.step (body rkyv)) (fun p l => ImmediateStep l ∧ NoCrossing p l)
      (Clients.opened db .immediate paths) labels)
    (hidle : ∀ t, ((Clients.opened db .immediate paths : Clients B Tid).run
      (body rkyv) labels).client t = none) :
    CacheAgrees ((Clients.opened db .immediate paths : Clients B Tid).run
      (body rkyv) labels).shared := by
  have hinv : ∃ debt, Coherent ((Clients.opened db .immediate paths : Clients B Tid).run
      (body rkyv) labels) debt := by
    refine Pool.run_invariant (I := fun p => ∃ debt, Coherent p debt) ?_ ?_ ?_ ?_
      ⟨_, coherent_init db paths⟩ hsteps
    · rintro p t c ⟨debt, hc⟩ _ hclient
      exact ⟨_, hc.observe (hc.idle t hclient) rfl rfl rfl rfl rfl (tidy_body rkyv c) trivial⟩
    · rintro p t choice c op k ⟨debt, hc⟩ ⟨herror, hcross⟩ hclient
      refine hc.act hclient herror ?_
      intro key hwrites t' ht hkey
      obtain ⟨op', hnext, hpublishes⟩ := hc.publishes hkey
      have hnow : (p.nextCall t).bind Effect.writes = some key := by
        simp [Pool.nextCall, hclient, hwrites]
      rcases hcross with hnone | hcross
      · rw [hnow] at hnone
        cases hnone
      · refine hcross t' ht ?_
        rw [hnow, hnext]
        exact hpublishes
    · rintro p t c r ⟨debt, hc⟩ _ hclient
      have hclear : debt t = .clear := hc.follows t c _ hclient
      refine ⟨_, hc.move (d := .clear) rfl rfl rfl (by simp) (fun _ => rfl) trivial
        (fun t' _ => hc.owed t') ?_⟩
      intro key b h
      rcases hc.cached_other (t := t) (by rw [hclear]; simp [Debt.key]) h with h | h
      · exact Or.inl h
      · exact Or.inr (Or.inr h)
    · rintro p e ⟨debt, hc⟩ ⟨he, _⟩
      exact ⟨debt, hc.env he⟩
  obtain ⟨debt, hc⟩ := hinv
  exact hc.agrees hidle

/-! ## Two clients of one path -/

/-- A read that begins before a put and goes on after it. -/
def overtakenRead : List (Step Record Bool) :=
  List.flatten [
    calling false (.readMetadata "p") 1,
    requesting true (.putVersion "p" ⟨"y", 0⟩ none) 11,
    [.act false (.at 1), .act false (.at 1), .respond false]]

theorem quiescent_cacheAgrees_overtakenRead :
    Along (Pool.step (body Record.rkyv)) (fun p l => ImmediateStep l ∧ NoCrossing p l)
        (Clients.opened Record.single .immediate ["p"]) overtakenRead ∧
      CacheAgrees ((Clients.opened Record.single .immediate ["p"] : Clients Record Bool).run
        (body Record.rkyv) overtakenRead).shared := by
  have hsteps : Along (Pool.step (body Record.rkyv)) (fun p l => ImmediateStep l ∧ NoCrossing p l)
      (Clients.opened Record.single .immediate ["p"]) overtakenRead := by decide
  exact ⟨hsteps, quiescent_cacheAgrees _ _ _ _ hsteps fun t => by cases t <;> rfl⟩

/-- A read that takes a record from the disk before a put and fills the cache with it
after the put. -/
def staleRefill : List (Step Record Bool) :=
  List.flatten [
    calling false (.readMetadata "p") 2,
    requesting true (.putVersion "p" ⟨"y", 0⟩ none) 11,
    [.act false (.at 1), .respond false]]

/-- No call is left in progress, and the cache keeps the old record. -/
theorem staleRefill_disagrees :
    (∀ l ∈ staleRefill, ImmediateStep l) ∧
      (∀ t, ((Clients.opened Record.single .immediate ["p"] : Clients Record Bool).run
        (body Record.rkyv) staleRefill).client t = none) ∧
      ¬ CacheAgrees ((Clients.opened Record.single .immediate ["p"] :
        Clients Record Bool).run (body Record.rkyv) staleRefill).shared := by
  refine ⟨by decide, fun t => by cases t <;> rfl, ?_⟩
  intro h
  have hdb := h "m:p" (.metadata ⟨1, 0, false, 0, [], [⟨1, 0, 1, false⟩]⟩) rfl
  revert hdb
  decide

end Kallisto.Engine
