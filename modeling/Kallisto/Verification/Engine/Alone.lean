import Kallisto.Verification.Engine.Effects
import Kallisto.Verification.Engine.Mirror

/-! # A request alone

What one request does from an arbitrary state of the engine when nothing else happens
meanwhile, whatever the storage refuses. -/

namespace Kallisto.Engine

open Program

variable {B : Type} {choices : List Choice} {m : KeyMetadata} {c : Call} {given : Choice → Prop}
  {r : Except EngineError Out} {n : ℕ}

/-- A request whose calls face the choices in turn, and a healthy storage at time one when
none is left. -/
def request (rkyv : Rkyv B) (s : KvEngine B) (c : Call) (choices : List Choice) :
    Except EngineError Out × KvEngine B :=
  (system B).fed (inTurn (.at 1)) (body rkyv c) s choices

/-- The raw writes of a request that were accepted, the latest first. -/
def acceptedWrites (rkyv : Rkyv B) (s : KvEngine B) (c : Call) (choices : List Choice) :
    List (AsyncOp B) :=
  writesOf ((system B).traced.fed (inTurn (.at 1)) (body rkyv c) (s, []) choices).2.2

/-- No call of RocksDB fails. -/
def Healthy (choices : List Choice) : Prop :=
  ∀ choice ∈ choices, choice.error = none

theorem Healthy.nil : Healthy [] := nofun

/-- What the calls of a request may face. -/
def Faced (choices : List Choice) (choice : Choice) : Prop :=
  choice = .at 1 ∨ choice ∈ choices

/-- Some call of RocksDB may fail. -/
def Faulty (given : Choice → Prop) : Prop :=
  ∃ choice, given choice ∧ choice.error ≠ none

theorem Healthy.not_faulty (h : Healthy choices) : ¬ Faulty (Faced choices) := by
  rintro ⟨choice, rfl | hmem, herror⟩
  · exact herror rfl
  · exact herror (h choice hmem)

variable {s s' : KvEngine B}

namespace KvEngine

/-! ## What reads see -/

/-- The record that a read finds under a key. -/
def view (s : KvEngine B) (key : String) : Option B :=
  (s.cache key).or (s.rocksdb key)

/-- Only the cache has changed, and only by records that reads found before. -/
structure Fills (s s' : KvEngine B) : Prop where
  rest : s' = { s with cache := s'.cache }
  kept : ∀ key b, s.cache key = some b → s'.cache key = some b
  filled : ∀ key b, s'.cache key = some b → s.view key = some b

theorem Fills.refl (s : KvEngine B) : Fills s s where
  rest := rfl
  kept _ _ h := h
  filled key b h := by rw [KvEngine.view, h, Option.some_or]

theorem Fills.view (h : Fills s s') : s'.view = s.view := by
  funext key
  have hdisk : s'.rocksdb = s.rocksdb := by rw [h.rest]
  cases hcache' : s'.cache key with
  | some b => rw [h.filled key b hcache', KvEngine.view, hcache', Option.some_or]
  | none =>
    cases hcache : s.cache key with
    | some b =>
      rw [h.kept key b hcache] at hcache'
      cases hcache'
    | none => rw [KvEngine.view, KvEngine.view, hcache', hcache, hdisk]

theorem Fills.trans {s'' : KvEngine B} (h : Fills s s') (h' : Fills s' s'') : Fills s s'' where
  rest := by rw [h'.rest, h.rest]
  kept key b hcache := h'.kept key b (h.kept key b hcache)
  filled key b hcache := by rw [← h.view, h'.filled key b hcache]

theorem Fills.cacheInsert (s : KvEngine B) {key : String} {b : B} (hcache : s.cache key = none)
    (hdisk : s.rocksdb key = some b) :
    Fills s { s with cache := Function.update s.cache key (some b) } where
  rest := rfl
  kept key' b' h := by
    have hne : key' ≠ key := by
      rintro rfl
      rw [hcache] at h
      cases h
    rwa [← Function.update_of_ne hne (some b) s.cache] at h
  filled key' b' h := by
    change Function.update s.cache key (some b) key' = some b' at h
    rw [Function.update_apply] at h
    split at h
    · next heq => rw [heq, KvEngine.view, hcache, hdisk, ← h, Option.none_or]
    · rw [KvEngine.view, h, Option.some_or]

/-! ## Accepted writes -/

/-- A write is applied or queued, as the mode has it, and the cache follows. -/
def accept (s : KvEngine B) (op : AsyncOp B) : KvEngine B :=
  { s with
    cache := Function.update s.cache op.key op.value
    rocksdb := if s.syncMode = .immediate then op.apply s.rocksdb else s.rocksdb
    asyncQueue := if s.syncMode = .immediate then s.asyncQueue else s.asyncQueue ++ [op] }

theorem accept_immediate (h : s.syncMode = .immediate) (op : AsyncOp B) :
    s.accept op = { s with
      cache := Function.update s.cache op.key op.value
      rocksdb := op.apply s.rocksdb } := by
  rw [accept, if_pos h, if_pos h]

theorem accept_batch (h : s.syncMode = .batch) (op : AsyncOp B) :
    s.accept op = { s with
      cache := Function.update s.cache op.key op.value
      asyncQueue := s.asyncQueue ++ [op] } := by
  rw [accept, h, if_neg nofun, if_neg nofun]

/-- The records under other keys are found as before. -/
theorem view_accept_of_ne (s : KvEngine B) {op : AsyncOp B} {key : String} (h : key ≠ op.key) :
    (s.accept op).view key = s.view key := by
  have hcache : (s.accept op).cache key = s.cache key := by
    change Function.update s.cache op.key op.value key = s.cache key
    exact Function.update_of_ne h _ _
  have hdisk : (s.accept op).rocksdb key = s.rocksdb key := by
    unfold accept
    dsimp only
    split
    · exact AsyncOp.apply_of_ne s.rocksdb h
    · rfl
  rw [view, hcache, hdisk, view]

/-- A record that was put is found under its key. -/
theorem view_accept_put (s : KvEngine B) (key : String) (b : B) :
    (s.accept (.put key b)).view = Function.update s.view key (some b) := by
  funext key'
  by_cases h : key' = key
  · subst h
    rw [Function.update_self, view, accept]
    exact congrArg (Option.or · _) (Function.update_self key' (some b) s.cache)
  · rw [Function.update_of_ne h]
    exact view_accept_of_ne s h

/-- The queue has no place for a write. -/
def Full (s : KvEngine B) : Prop :=
  s.syncMode = .batch ∧ queueCapacity ≤ s.asyncQueue.length

/-- The entry of a path into the index. -/
def register (s : KvEngine B) (path : String) : KvEngine B :=
  { s with pathIndex := if path ∈ s.pathIndex then s.pathIndex else path :: s.pathIndex }

end KvEngine

/-! ## How a script ends -/

/-- How a script can end from a state, with the writes that were accepted, the latest
first, when its calls face choices among those given. -/
inductive Script.Ends (given : Choice → Prop) :
    Script B → KvEngine B → Except EngineError Out → KvEngine B → List (AsyncOp B) → Prop where
  | finish (r : Except EngineError Out) (s : KvEngine B) : Ends given (.finish r) s r s []
  | unreadable (key : String) (k : Option B → Script B) (s : KvEngine B) (e : EngineError)
      (hfaulty : Faulty given) : Ends given (.read key k) s (.error e) s []
  | read {key : String} {k : Option B → Script B} {s s₁ s' : KvEngine B}
      {r : Except EngineError Out} {writes : List (AsyncOp B)} (hfills : s.Fills s₁)
      (h : Ends given (k (s.view key)) s₁ r s' writes) : Ends given (.read key k) s r s' writes
  | clock {k : UInt64 → Script B} {s s' : KvEngine B} {r : Except EngineError Out}
      {writes : List (AsyncOp B)} (choice : Choice) (hgiven : given choice)
      (h : Ends given (k choice.now) s r s' writes) : Ends given (.clock k) s r s' writes
  | refused (op : AsyncOp B) (next : Script B) (s : KvEngine B) (e : EngineError)
      (h : Faulty given ∨ s.Full) : Ends given (.write op next) s (.error e) s []
  | write {op : AsyncOp B} {next : Script B} {s s' : KvEngine B} {r : Except EngineError Out}
      {writes : List (AsyncOp B)} (h : Ends given next (s.accept op) r s' writes) :
      Ends given (.write op next) s r s' (writes ++ [op])
  | register {path : String} {next : Script B} {s s' : KvEngine B} {r : Except EngineError Out}
      {writes : List (AsyncOp B)} (h : Ends given next (s.register path) r s' writes) :
      Ends given (.register path next) s r s' writes

/-! ## Runs of a script -/

variable {sc : Script B}

section Runs

variable {given : Choice → Prop} {choices : List Choice} {s : KvEngine B}
  {trace : List ((op : Effect B) × op.Ret)}
  {ended : Except EngineError Out × (system B).traced.State}

/-- A run ends as its script can, after what it has written before. -/
def EndsAs (given : Choice → Prop) (sc : Script B) (s : KvEngine B)
    (trace : List ((op : Effect B) × op.Ret))
    (ended : Except EngineError Out × (system B).traced.State) : Prop :=
  ∃ writes, sc.Ends given s ended.1 ended.2.1 writes ∧
    writesOf ended.2.2 = writes ++ writesOf trace

/-- Calls that are no accepted writes do not count. -/
theorem EndsAs.observe {op : Effect B} {r : op.Ret}
    (h : EndsAs given sc s (⟨op, r⟩ :: trace) ended) (hr : op.acked r = none) :
    EndsAs given sc s trace ended := by
  obtain ⟨writes, hends, hwrites⟩ := h
  exact ⟨writes, hends, hwrites.trans (congrArg (writes ++ ·) (List.filterMap_cons_none hr))⟩

/-- The run of a script from a state. -/
abbrev Script.runAlone (sc : Script B) (s : KvEngine B)
    (trace : List ((op : Effect B) × op.Ret)) (choices : List Choice) :
    Except EngineError Out × (system B).traced.State :=
  (system B).traced.fed (inTurn (.at 1)) sc.run (s, trace) choices

/-- A run ends well that ends well whatever its first call faces. -/
theorem EndsAs.call {s₁ : KvEngine B} {trace₁ : List ((op : Effect B) × op.Ret)} (op : Effect B)
    {k : op.Ret → EngineM B Out} (hdefault : given (.at 1)) (h : ∀ choice ∈ choices, given choice)
    (hnext : ∀ choice rest, given choice → (∀ choice ∈ rest, given choice) →
      EndsAs given sc s₁ trace₁ ((system B).traced.fed (inTurn (.at 1)) (k (s.exec op choice).1)
        ((s.exec op choice).2, ⟨op, (s.exec op choice).1⟩ :: trace) rest)) :
    EndsAs given sc s₁ trace₁
      ((system B).traced.fed (inTurn (.at 1)) (.call op k) (s, trace) choices) := by
  obtain ⟨choice, rest, hdraw, hgiven, hrest⟩ := inTurn_forall op hdefault h
  have hfed : (system B).traced.fed (inTurn (.at 1)) (.call op k) (s, trace) choices = _ :=
    System.fed_call hdraw rfl
  rw [hfed]
  exact hnext choice rest hgiven hrest

theorem EndsAs.read {key : String} {k : Option B → Script B} {s₁ : KvEngine B} {found : Option B}
    (h : EndsAs given (k found) s₁ trace ended) (hfills : s.Fills s₁)
    (hview : s.view key = found) : EndsAs given (.read key k) s trace ended := by
  obtain ⟨writes, hends, hwrites⟩ := h
  rw [← hview] at hends
  exact ⟨writes, .read hfills hends, hwrites⟩

section Read

variable {key : String} {k : Option B → Script B} (hdefault : given (.at 1))
  (ih : ∀ found s trace choices, (∀ choice ∈ choices, given choice) →
    EndsAs given (k found) s trace ((k found).runAlone s trace choices))

include hdefault ih

theorem endsAs_readMissed (hcache : s.cache key = none)
    (h : ∀ choice ∈ choices, given choice) :
    EndsAs given (.read key k) s trace
      ((system B).traced.fed (inTurn (.at 1)) (readMissed key >>= fun found => (k found).run)
        (s, trace) choices) := by
  have hview : s.view key = s.rocksdb key := by rw [KvEngine.view, hcache, Option.none_or]
  refine .call (.getRaw key) hdefault h fun choice rest hgiven hrest => ?_
  obtain ⟨error, now⟩ := choice
  cases error with
  | some e => exact ⟨[], .unreadable key k s _ ⟨_, hgiven, nofun⟩, rfl⟩
  | none =>
    have hexec : s.exec (.getRaw key) ⟨none, now⟩ = (.ok (s.rocksdb key), s) := rfl
    rw [hexec]
    cases hdisk : s.rocksdb key with
    | none => exact ((ih _ _ _ _ hrest).observe rfl).read (.refl s) (hview.trans hdisk)
    | some b =>
      refine .call (.cacheInsert key b) hdefault hrest fun _ rest' _ hrest' => ?_
      exact (((ih _ _ _ _ hrest').observe rfl).observe rfl).read (.cacheInsert s hcache hdisk)
        (hview.trans hdisk)

theorem endsAs_read (h : ∀ choice ∈ choices, given choice) :
    EndsAs given (.read key k) s trace ((Script.read key k).runAlone s trace choices) := by
  refine .call (.cacheLookup key) hdefault h fun choice rest _ hrest => ?_
  have hexec : s.exec (.cacheLookup key) choice = (s.cache key, s) := rfl
  rw [hexec]
  cases hcache : s.cache key with
  | some b =>
    refine ((ih (some b) _ _ _ hrest).observe rfl).read (.refl s) ?_
    rw [KvEngine.view, hcache, Option.some_or]
  | none => exact (endsAs_readMissed hdefault ih hcache hrest).observe rfl

end Read

section Write

variable {op : AsyncOp B} {next : Script B} (hdefault : given (.at 1))
  (ih : ∀ s trace choices, (∀ choice ∈ choices, given choice) →
    EndsAs given next s trace (next.runAlone s trace choices))

include hdefault ih

/-- The cache follows an accepted write. -/
theorem endsAs_publish {acked : Effect B} {r : acked.Ret} (hacked : acked.acked r = some op)
    (hs' : { s' with cache := Function.update s'.cache op.key op.value } = s.accept op)
    (h : ∀ choice ∈ choices, given choice) :
    EndsAs given (.write op next) s trace
      ((system B).traced.fed (inTurn (.at 1)) (op.publish >>= fun _ => next.run)
        (s', ⟨acked, r⟩ :: trace) choices) := by
  have hwrite : ∀ {update : Effect B} {u : update.Ret}
      {ended : Except EngineError Out × (system B).traced.State}, update.acked u = none →
      EndsAs given next (s.accept op) (⟨update, u⟩ :: ⟨acked, r⟩ :: trace) ended →
      EndsAs given (.write op next) s trace ended := by
    intro update u ended hupdate hended
    obtain ⟨writes, hends, hwrites⟩ := hended.observe hupdate
    refine ⟨writes ++ [op], .write hends, hwrites.trans ?_⟩
    rw [List.append_assoc]
    exact congrArg (writes ++ ·) (List.filterMap_cons_some hacked)
  rw [← hs'] at hwrite
  cases op with
  | put key value =>
    exact .call (.cacheInsert key value) hdefault h fun _ _ _ hrest => hwrite rfl (ih _ _ _ hrest)
  | delete key =>
    exact .call (.cacheRemove key) hdefault h fun _ _ _ hrest => hwrite rfl (ih _ _ _ hrest)

/-- A direct write is refused when RocksDB fails. -/
theorem endsAs_direct (hmode : s.syncMode = .immediate)
    (h : ∀ choice ∈ choices, given choice) :
    EndsAs given (.write op next) s trace
      ((system B).traced.fed (inTurn (.at 1))
        (executeIn .immediate op >>= fun _ => op.publish >>= fun _ => next.run)
        (s, trace) choices) := by
  have haccept := (KvEngine.accept_immediate hmode op).symm
  cases op with
  | put key value =>
    refine .call (.putRaw key value) hdefault h fun choice rest hgiven hrest => ?_
    obtain ⟨_ | e, now⟩ := choice
    · exact endsAs_publish hdefault ih rfl haccept hrest
    · exact ⟨[], .refused _ next s _ (Or.inl ⟨_, hgiven, nofun⟩), rfl⟩
  | delete key =>
    refine .call (.delRaw key) hdefault h fun choice rest hgiven hrest => ?_
    obtain ⟨_ | e, now⟩ := choice
    · exact endsAs_publish hdefault ih rfl haccept hrest
    · exact ⟨[], .refused _ next s _ (Or.inl ⟨_, hgiven, nofun⟩), rfl⟩

/-- A queued write is refused when the queue is full. -/
theorem endsAs_queued (hmode : s.syncMode = .batch)
    (h : ∀ choice ∈ choices, given choice) :
    EndsAs given (.write op next) s trace
      ((system B).traced.fed (inTurn (.at 1))
        (executeIn .batch op >>= fun _ => op.publish >>= fun _ => next.run)
        (s, trace) choices) := by
  have haccept := (KvEngine.accept_batch hmode op).symm
  refine .call (.enqueue op) hdefault h fun choice rest _ hrest => ?_
  by_cases hroom : s.asyncQueue.length < queueCapacity
  · rw [show s.exec (.enqueue op) choice = _ from if_pos hroom]
    exact endsAs_publish hdefault ih rfl haccept hrest
  · rw [show s.exec (.enqueue op) choice = _ from if_neg hroom]
    exact ⟨[], .refused op next s _ (Or.inr ⟨hmode, Nat.le_of_not_lt hroom⟩), rfl⟩

theorem endsAs_write (h : ∀ choice ∈ choices, given choice) :
    EndsAs given (.write op next) s trace ((Script.write op next).runAlone s trace choices) := by
  refine .call .getSyncMode hdefault h fun choice rest _ hrest => ?_
  have hexec : s.exec .getSyncMode choice = (s.syncMode, s) := rfl
  rw [hexec]
  cases hmode : s.syncMode with
  | immediate => exact (endsAs_direct hdefault ih hmode hrest).observe rfl
  | batch => exact (endsAs_queued hdefault ih hmode hrest).observe rfl

end Write

/-- Every run of a script ends as the script can. -/
theorem runAlone_endsAs (hdefault : given (.at 1)) (sc : Script B) :
    ∀ s trace choices, (∀ choice ∈ choices, given choice) →
      EndsAs given sc s trace (sc.runAlone s trace choices) := by
  induction sc with
  | finish r => exact fun s trace choices _ => ⟨[], .finish r s, rfl⟩
  | read key k ih => exact fun s trace choices h => endsAs_read hdefault ih h
  | clock k ih =>
    intro s trace choices h
    refine .call .nowMs hdefault h fun choice rest hgiven hrest => ?_
    obtain ⟨writes, hends, hwrites⟩ :=
      (ih choice.now s (⟨.nowMs, choice.now⟩ :: trace) rest hrest).observe rfl
    exact ⟨writes, .clock choice hgiven hends, hwrites⟩
  | write op next ih => exact fun s trace choices h => endsAs_write hdefault ih h
  | register path next ih =>
    intro s trace choices h
    refine .call (.insertPathIfAbsent path) hdefault h fun choice rest _ hrest => ?_
    obtain ⟨writes, hends, hwrites⟩ := (ih (s.register path)
      (⟨.insertPathIfAbsent path, ()⟩ :: trace) rest hrest).observe rfl
    exact ⟨writes, .register hends, hwrites⟩

end Runs

/-- How a request ends. -/
theorem request_ends (rkyv : Rkyv B) (s : KvEngine B) (c : Call) (choices : List Choice) :
    (script rkyv c).Ends (Faced choices) s (request rkyv s c choices).1
      (request rkyv s c choices).2 (acceptedWrites rkyv s c choices) := by
  have hdefault : Faced choices (.at 1) := Or.inl rfl
  obtain ⟨writes, hends, hwrites⟩ := runAlone_endsAs hdefault
    (script rkyv c) s [] choices fun choice hmem => Or.inr hmem
  obtain ⟨hresult, hstate⟩ :=
    (system B).fed_traced (inTurn (.at 1)) (script rkyv c).run s [] choices
  rw [request, acceptedWrites, body_eq_run, ← hresult, ← hstate, hwrites, writesOf,
    List.filterMap_nil, List.append_nil]
  exact hends

/-! ## Blocks of the requests -/

section Blocks

variable {rkyv : Rkyv B} {given : Choice → Prop} {path : String} {s s' : KvEngine B}
  {r : Except EngineError Out} {writes : List (AsyncOp B)}

theorem ends_finish {r₀ : Except EngineError Out}
    (h : (Script.finish r₀).Ends given s r s' writes) : s' = s := by
  cases h
  rfl

/-- The metadata is found, or the request ends with an error. -/
theorem ends_readMetadataScript {k : KeyMetadata → Script B}
    (h : (readMetadataScript rkyv path k).Ends given s r s' writes) :
    (∃ e, r = .error e ∧ s.Fills s' ∧ writes = [] ∧
        (Faulty given ∨ s.view (buildMetaKey path) = none)) ∨
      ∃ s₁ b, s.Fills s₁ ∧ s.view (buildMetaKey path) = some b ∧
        (k (deserializeMetadata rkyv b)).Ends given s₁ r s' writes := by
  unfold readMetadataScript at h
  cases h with
  | unreadable _ _ _ e hfaulty => exact Or.inl ⟨e, rfl, .refl s, rfl, Or.inl hfaulty⟩
  | read hfills h =>
    cases hview : s.view (buildMetaKey path) with
    | none =>
      rw [hview] at h
      cases h
      exact Or.inl ⟨_, rfl, hfills, rfl, Or.inr rfl⟩
    | some b =>
      rw [hview] at h
      exact Or.inr ⟨_, b, hfills, rfl, h⟩

/-- The metadata is stored, or the request ends with an error. -/
theorem ends_storeMetadataScript {next : Script B}
    (h : (storeMetadataScript rkyv path m next).Ends given s r s' writes) :
    (∃ e, r = .error e ∧ s' = s ∧ writes = [] ∧
        (Faulty given ∨ s.Full ∨ ∃ e, rkyv.metadataToBytes m = .error e)) ∨
      ∃ b later, rkyv.metadataToBytes m = .ok b ∧ writes = later ++ [.put (buildMetaKey path) b] ∧
        next.Ends given (s.accept (.put (buildMetaKey path) b)) r s' later := by
  unfold storeMetadataScript at h
  split at h
  · next e he =>
      cases h
      exact Or.inl ⟨_, rfl, rfl, rfl, Or.inr (Or.inr ⟨e, he⟩)⟩
  · next b hb =>
      cases h with
      | refused _ _ _ e hrefused =>
        exact Or.inl ⟨e, rfl, rfl, rfl, hrefused.imp_right Or.inl⟩
      | write h => exact Or.inr ⟨b, _, hb, rfl, h⟩

/-- A put fails at its check-and-set or passes it. -/
theorem ends_checkCasScript_cases {cas : Option UInt32} {next : Script B}
    (h : (checkCasScript cas m next).Ends given s r s' writes) :
    (s' = s ∧ ∃ e, r = .error e) ∨ next.Ends given s r s' writes := by
  unfold checkCasScript at h
  split at h
  · split at h
    · cases h
      exact Or.inl ⟨rfl, _, rfl⟩
    · exact Or.inr h
  · exact Or.inr h

/-- A put that succeeds has passed its check-and-set. -/
theorem ends_checkCasScript {cas : Option UInt32} {next : Script B} {out : Out}
    (h : (checkCasScript cas m next).Ends given s (.ok out) s' writes) :
    next.Ends given s (.ok out) s' writes := by
  rcases ends_checkCasScript_cases h with ⟨_, e, herror⟩ | hrest
  · cases herror
  · exact hrest

/-- On a healthy storage with room the metadata is stored. -/
theorem ends_storeMetadataScript_healthy (hrkyv : rkyv.Faithful) (hhealthy : ¬ Faulty given)
    (hroom : ¬ s.Full) {next : Script B}
    (h : (storeMetadataScript rkyv path m next).Ends given s r s' writes) :
    ∃ b later, rkyv.archivedMetadata b = m ∧
      next.Ends given (s.accept (.put (buildMetaKey path) b)) r s' later := by
  obtain ⟨b, hb, harchived⟩ := hrkyv.metadata m
  rcases ends_storeMetadataScript h with ⟨_, _, _, _, hwhy⟩ | ⟨b', later, hb', _, hrest⟩
  · rcases hwhy with hfaulty | hfull | ⟨e, herror⟩
    · exact (hhealthy hfaulty).elim
    · exact (hroom hfull).elim
    · rw [hb] at herror
      cases herror
  · obtain rfl := Except.ok.inj (hb.symm.trans hb')
    exact ⟨b, later, harchived, hrest⟩

end Blocks

/-! ## Reads -/

def Script.ReadOnly : Script B → Prop
  | .finish _ => True
  | .read _ k => ∀ found, (k found).ReadOnly
  | _ => False

theorem script_readOnly (rkyv : Rkyv B) (h : c.mutates = none) : (script rkyv c).ReadOnly := by
  cases c with
  | readMetadata path => rintro (_ | bytes) <;> trivial
  | readVersion path version =>
    rintro (_ | bytes)
    · trivial
    · dsimp only
      split
      · trivial
      · split
        · trivial
        · split
          · trivial
          · split
            · trivial
            · rintro (_ | payload) <;> trivial
  | _ => cases h

/-- What a read returns on a healthy storage that holds the records. -/
def readResult (rkyv : Rkyv B) (records : String → Option B) (c : Call) : Except EngineError Out :=
  ((script rkyv c).eval 0 ⟨records, []⟩ []).1

/-- A read that no failure ends returns what it finds. -/
theorem Script.Ends.readOnly {writes : List (AsyncOp B)} (h : sc.Ends given s r s' writes)
    (hread : sc.ReadOnly) (hreturns : ¬ Faulty given ∨ ∃ out, r = .ok out) :
    r = (sc.eval 0 ⟨s.view, []⟩ []).1 := by
  induction h with
  | finish r s => rfl
  | unreadable key k s e hfaulty =>
    rcases hreturns with hhealthy | ⟨out, hok⟩
    · exact (hhealthy hfaulty).elim
    · cases hok
  | read hfills h ih =>
    rw [ih (hread _) hreturns, hfills.view]
    rfl
  | _ => exact hread.elim

/-- What a read of a version returns once its state is known. -/
def readLocated (rkyv : Rkyv B) (records : String → Option B) (path : String) (version : UInt32) :
    UInt32 × Option VersionState → Except EngineError Out
  | (_, none) => .error (.invalidVersion version)
  | (target, some v) =>
    if target = 0 then .error (.invalidVersion version)
    else if v.destroyed then .error .destroyed
    else if v.deletionTimeMs > 0 then .error .softDeleted
    else
      match records (buildVersionKey path target) with
      | some payload =>
        .ok (.version (rkyv.archivedPayload payload) { v with versionId := target })
      | none => .error (.storageError "Missing version payload")

/-- Only the payload of the version is looked at. -/
theorem readLocated_congr (rkyv : Rkyv B) {records records' : String → Option B} {path : String}
    {target : UInt32} (h : records' (buildVersionKey path target) =
      records (buildVersionKey path target)) (version : UInt32) (found : Option VersionState) :
    readLocated rkyv records' path version (target, found) =
      readLocated rkyv records path version (target, found) := by
  cases found with
  | none => rfl
  | some v => rw [readLocated, readLocated, h]

section Located

variable {rkyv : Rkyv B} {records : String → Option B} {path : String} {version target : UInt32}
  {found : Option VersionState}

/-- The number that was asked for shows in errors only. -/
theorem readLocated_ok {out : Out}
    (h : readLocated rkyv records path version (target, found) = .ok out) (version' : UInt32) :
    readLocated rkyv records path version' (target, found) = .ok out := by
  cases found with
  | none => cases h
  | some v =>
    rw [readLocated] at h ⊢
    split at h
    · cases h
    · next htarget =>
        rw [if_neg htarget]
        exact h

/-- The version that is returned has the number that was looked for. -/
theorem versionId_of_readLocated {payload : SecretPayload} {state : VersionState}
    (h : readLocated rkyv records path version (target, found) = .ok (.version payload state)) :
    state.versionId = target := by
  cases found with
  | none => cases h
  | some v =>
    rw [readLocated] at h
    split at h
    · cases h
    · split at h
      · cases h
      · split at h
        · cases h
        · split at h
          · cases h
            rfl
          · cases h

end Located

theorem readResult_readVersion (rkyv : Rkyv B) (records : String → Option B) (path : String)
    (version : UInt32) :
    readResult rkyv records (.readVersion path version) =
      match records (buildMetaKey path) with
      | none => .error .notFound
      | some b => readLocated rkyv records path version
          (locate version (rkyv.archivedMetadata b)) := by
  unfold readResult script readVersionScript
  rw [Script.eval]
  dsimp only
  cases records (buildMetaKey path) with
  | none => rfl
  | some b =>
    dsimp only
    rcases locate version (rkyv.archivedMetadata b) with ⟨target, _ | v⟩
    · rfl
    · unfold readLocated
      dsimp only
      split
      · rfl
      · split
        · rfl
        · split
          · rfl
          · rw [Script.eval]
            dsimp only
            cases records (buildVersionKey path target) <;> rfl

theorem readResult_readMetadata (rkyv : Rkyv B) (records : String → Option B) (path : String) :
    readResult rkyv records (.readMetadata path) =
      match records (buildMetaKey path) with
      | none => .error .notFound
      | some b => .ok (.metadata (deserializeMetadata rkyv b)) := by
  unfold readResult script readMetadataScript
  rw [Script.eval]
  dsimp only
  cases records (buildMetaKey path) <;> rfl

/-- Reads write nothing. -/
theorem Script.Ends.fills {writes : List (AsyncOp B)} (h : sc.Ends given s r s' writes)
    (hread : sc.ReadOnly) : s.Fills s' := by
  induction h with
  | finish r s => exact .refl s
  | unreadable key k s e hfaulty => exact .refl s
  | read hfills h ih => exact hfills.trans (ih (hread _))
  | _ => exact hread.elim

theorem request_fills (rkyv : Rkyv B) (s : KvEngine B) (choices : List Choice)
    (h : c.mutates = none) : s.Fills (request rkyv s c choices).2 :=
  (request_ends rkyv s c choices).fills (script_readOnly rkyv h)

/-- A read returns what it finds, from every state of a healthy storage. -/
theorem request_read (rkyv : Rkyv B) (s : KvEngine B) (h : c.mutates = none)
    (hhealthy : Healthy choices) : (request rkyv s c choices).1 = readResult rkyv s.view c :=
  (request_ends rkyv s c choices).readOnly (script_readOnly rkyv h) (Or.inl hhealthy.not_faulty)

/-- A read that returns has returned what it finds. -/
theorem request_read_ok (rkyv : Rkyv B) (s : KvEngine B) {out : Out} (h : c.mutates = none)
    (hok : (request rkyv s c choices).1 = .ok out) : readResult rkyv s.view c = .ok out := by
  rw [← hok]
  exact ((request_ends rkyv s c choices).readOnly (script_readOnly rkyv h)
    (Or.inr ⟨out, hok⟩)).symm

/-- The number of the last version of a path. -/
def KvEngine.current (rkyv : Rkyv B) (s : KvEngine B) (path : String) : UInt32 :=
  ((s.view (buildMetaKey path)).map fun b => (rkyv.archivedMetadata b).currentVersion).getD 0

/-- The metadata that a put starts from. -/
def KvEngine.metadata (rkyv : Rkyv B) (s : KvEngine B) (path : String) : KeyMetadata :=
  ((s.view (buildMetaKey path)).map (deserializeMetadata rkyv)).getD .default

theorem KvEngine.metadata_currentVersion (rkyv : Rkyv B) (s : KvEngine B) (path : String) :
    (s.metadata rkyv path).currentVersion = s.current rkyv path := by
  unfold KvEngine.metadata KvEngine.current
  cases s.view (buildMetaKey path) <;> rfl

/-! ## Mutations that write nothing -/

/-- The script ends with an error unless it writes, and enters no path into the index
before. -/
def Script.MustWrite : Script B → Prop
  | .finish r => ∃ e, r = .error e
  | .read _ k => ∀ found, (k found).MustWrite
  | .clock k => ∀ now, (k now).MustWrite
  | .write _ _ => True
  | .register _ _ => False

theorem Script.Ends.mustWrite {writes : List (AsyncOp B)} (h : sc.Ends given s r s' writes)
    (hnone : writes = []) (hmust : sc.MustWrite) : (∃ e, r = .error e) ∧ s.Fills s' := by
  induction h with
  | finish r s => exact ⟨hmust, .refl s⟩
  | unreadable key k s e hfaulty => exact ⟨⟨e, rfl⟩, .refl s⟩
  | read hfills h ih =>
    obtain ⟨herror, hfills'⟩ := ih hnone (hmust _)
    exact ⟨herror, hfills.trans hfills'⟩
  | clock choice hgiven h ih => exact ih hnone (hmust choice.now)
  | refused op next s e h => exact ⟨⟨e, rfl⟩, .refl s⟩
  | write h ih => exact (List.append_ne_nil_of_right_ne_nil _ (List.cons_ne_nil _ _) hnone).elim
  | register h ih => exact hmust.elim

theorem mustWrite_storeMetadataScript (rkyv : Rkyv B) (path : String) (m : KeyMetadata)
    (next : Script B) : (storeMetadataScript rkyv path m next).MustWrite := by
  unfold storeMetadataScript
  split
  · exact ⟨_, rfl⟩
  · trivial

theorem mustWrite_readMetadataScript (rkyv : Rkyv B) (path : String)
    {k : KeyMetadata → Script B} (h : ∀ m, (k m).MustWrite) :
    (readMetadataScript rkyv path k).MustWrite := by
  rintro (_ | bytes)
  · exact ⟨_, rfl⟩
  · exact h _

theorem script_mustWrite (rkyv : Rkyv B) (h : c.mutates ≠ none) : (script rkyv c).MustWrite := by
  cases c with
  | readMetadata path => exact (h rfl).elim
  | readVersion path version => exact (h rfl).elim
  | putVersion path x cas =>
    intro found
    have happend : ∀ m, (appendVersionScript rkyv path x m).MustWrite := by
      intro m now
      split
      · exact ⟨_, rfl⟩
      · trivial
    dsimp only
    unfold checkCasScript
    split
    · split
      · exact ⟨_, rfl⟩
      · exact happend _
    · exact happend _
  | softDelete path version =>
    unfold script softDeleteScript
    refine mustWrite_readMetadataScript rkyv path fun m => ?_
    split
    · exact ⟨_, rfl⟩
    · exact fun now => mustWrite_storeMetadataScript rkyv path _ _
  | undelete path version =>
    unfold script undeleteScript
    refine mustWrite_readMetadataScript rkyv path fun m => ?_
    split
    · exact ⟨_, rfl⟩
    · split
      · exact ⟨_, rfl⟩
      · exact mustWrite_storeMetadataScript rkyv path _ _
  | destroyVersion path version =>
    unfold script destroyVersionScript
    refine mustWrite_readMetadataScript rkyv path fun m => ?_
    split
    · exact ⟨_, rfl⟩
    · trivial

/-- A mutation without an accepted write fails and leaves everything as reads find it. -/
theorem request_unwritten (rkyv : Rkyv B) (s : KvEngine B) (c : Call) (choices : List Choice)
    (hc : c.mutates ≠ none) (h : acceptedWrites rkyv s c choices = []) :
    (∃ e, (request rkyv s c choices).1 = .error e) ∧ s.Fills (request rkyv s c choices).2 :=
  (request_ends rkyv s c choices).mustWrite h (script_mustWrite rkyv hc)

/-- A put whose check-and-set does not match writes nothing. -/
theorem acceptedWrites_putVersion_mismatch (rkyv : Rkyv B) (s : KvEngine B) (path : String)
    (x : SecretPayload) {cas : UInt32} (choices : List Choice) (h : cas ≠ s.current rkyv path) :
    acceptedWrites rkyv s (.putVersion path x (some cas)) choices = [] := by
  have hends := request_ends rkyv s (.putVersion path x (some cas)) choices
  generalize (request rkyv s (.putVersion path x (some cas)) choices).1 = r at hends
  generalize (request rkyv s (.putVersion path x (some cas)) choices).2 = s' at hends
  generalize acceptedWrites rkyv s (.putVersion path x (some cas)) choices = writes at hends ⊢
  unfold script putVersionScript checkCasScript at hends
  cases hends with
  | unreadable => rfl
  | read hfills hrest =>
    have hcurrent := s.metadata_currentVersion rkyv path
    unfold KvEngine.metadata at hcurrent
    dsimp only at hrest
    rw [hcurrent, if_pos h.symm] at hrest
    cases hrest
    rfl

/-! ## Puts that succeed -/

/-- The queue has places for `n` writes. -/
def KvEngine.Room (s : KvEngine B) (n : ℕ) : Prop :=
  s.syncMode = .batch → s.asyncQueue.length + n ≤ queueCapacity

theorem KvEngine.Room.not_full (h : s.Room (n + 1)) : ¬ s.Full := by
  rintro ⟨hmode, hfull⟩
  have hroom := h hmode
  omega

theorem KvEngine.Room.mono {m : ℕ} (h : s.Room n) (hle : m ≤ n) : s.Room m := by
  intro hmode
  have hroom := h hmode
  omega

theorem KvEngine.Room.fills (h : s.Room n) (hfills : s.Fills s') : s'.Room n := by
  rw [hfills.rest]
  exact h

theorem KvEngine.Room.accept (h : s.Room (n + 1)) (op : AsyncOp B) : (s.accept op).Room n := by
  intro hmode
  rw [KvEngine.accept_batch (s := s) hmode]
  change (s.asyncQueue ++ [op]).length + n ≤ queueCapacity
  have hroom := h hmode
  rw [List.length_append, List.length_singleton]
  omega

/-- The path has one more version, with the payload. -/
def Created (rkyv : Rkyv B) (s s' : KvEngine B) (path : String) (x : SecretPayload) : Prop :=
  ∃ b b' created, rkyv.archivedPayload b = x ∧
    rkyv.archivedMetadata b' = (s.metadata rkyv path).grown created ∧
    s'.view = Function.update
      (Function.update s.view (buildVersionKey path (s.current rkyv path + 1)) (some b))
      (buildMetaKey path) (some b')

theorem Created.congr {rkyv : Rkyv B} {s₁ s₁' : KvEngine B} {path : String} {x : SecretPayload}
    (h : Created rkyv s s' path x) (hs : s₁.view = s.view) (hs' : s₁'.view = s'.view) :
    Created rkyv s₁ s₁' path x := by
  unfold Created KvEngine.metadata KvEngine.current
  rw [hs, hs']
  exact h

theorem Created.not_fills {rkyv : Rkyv B} {path : String} {x : SecretPayload}
    (h : Created rkyv s s' path x) : ¬ s.Fills s' := by
  intro hfills
  obtain ⟨b, b', created, -, hb', hview⟩ := h
  have hsame : s.current rkyv path + 1 = s.current rkyv path := by
    have hstored : s'.current rkyv path = (rkyv.archivedMetadata b').currentVersion := by
      rw [KvEngine.current, hview, Function.update_self]
      rfl
    rw [KvEngine.current, hfills.view] at hstored
    rw [hb', KeyMetadata.grown, s.metadata_currentVersion rkyv path] at hstored
    exact hstored.symm
  simp at hsame

theorem checkCasScript_of_matches {cas : Option UInt32} (next : Script B)
    (h : ∀ expected, cas = some expected → expected = m.currentVersion) :
    checkCasScript cas m next = next := by
  unfold checkCasScript
  cases cas with
  | none => rfl
  | some expected =>
    dsimp only
    rw [if_neg (not_not.mpr (h expected rfl).symm)]

section Append

variable {rkyv : Rkyv B} (hrkyv : rkyv.Faithful) {given : Choice → Prop} {s s' : KvEngine B}
  {path : String} {x : SecretPayload} {m : KeyMetadata} {r : Except EngineError Out} {out : Out}
  {writes : List (AsyncOp B)}

include hrkyv

/-- A version is added by a put that succeeds. -/
theorem ends_appendVersionScript
    (h : (appendVersionScript rkyv path x m).Ends given s (.ok out) s' writes) :
    ∃ b b' created, rkyv.archivedPayload b = x ∧
      rkyv.archivedMetadata b' = m.grown created ∧ s'.view = Function.update
        (Function.update s.view (buildVersionKey path (m.currentVersion + 1)) (some b))
        (buildMetaKey path) (some b') := by
  unfold appendVersionScript at h
  obtain ⟨b, hb, hpayload⟩ := hrkyv.payload x
  cases h with
  | clock choice _ h =>
    dsimp only at h
    rw [hb] at h
    cases h with
    | write h =>
      obtain ⟨b', hb', harchived⟩ := hrkyv.metadata (m.grown choice.now)
      rcases ends_storeMetadataScript h with ⟨_, herror, _⟩ | ⟨b₁, later, hb₁, _, hrest⟩
      · cases herror
      · obtain rfl := Except.ok.inj (hb₁.symm.trans hb')
        cases hrest with
        | register hrest =>
          cases hrest
          refine ⟨b, b₁, choice.now, hpayload, harchived, ?_⟩
          rw [← KvEngine.view_accept_put, ← KvEngine.view_accept_put]
          rfl

omit hrkyv in
theorem ends_appendVersionScript_error {e : EngineError}
    (h : (appendVersionScript rkyv path x m).Ends given s (.error e) s' writes) {key : String}
    (hkey : key ≠ buildVersionKey path (m.currentVersion + 1)) : s'.view key = s.view key := by
  unfold appendVersionScript at h
  cases h with
  | clock choice _ h =>
    dsimp only at h
    split at h
    · rw [ends_finish h]
    · cases h with
      | refused => rfl
      | write h =>
        rcases ends_storeMetadataScript h with ⟨_, _, hsame, _⟩ | ⟨b, later, _, _, hrest⟩
        · rw [hsame]
          exact KvEngine.view_accept_of_ne s hkey
        · cases hrest with
          | register hrest => cases hrest

/-- On a healthy storage with room a put succeeds. -/
theorem ends_appendVersionScript_healthy (hhealthy : ¬ Faulty given) (hroom : s.Room 2)
    (h : (appendVersionScript rkyv path x m).Ends given s r s' writes) : r = .ok .unit := by
  unfold appendVersionScript at h
  obtain ⟨b, hb, -⟩ := hrkyv.payload x
  cases h with
  | clock choice _ h =>
    dsimp only at h
    rw [hb] at h
    cases h with
    | refused _ _ _ _ hrefused => exact (hrefused.elim hhealthy hroom.not_full).elim
    | write h =>
      obtain ⟨b', later, -, hrest⟩ := ends_storeMetadataScript_healthy hrkyv hhealthy
        (hroom.accept _).not_full h
      cases hrest with
      | register hrest =>
        cases hrest
        rfl

omit hrkyv in
/-- A put finds the metadata, or its absence, and checks it before it adds a version. -/
theorem ends_putVersionScript {cas : Option UInt32}
    (h : (putVersionScript rkyv path x cas).Ends given s r s' writes) :
    (∃ e, r = .error e ∧ s' = s ∧ Faulty given) ∨
      ∃ s₁, s.Fills s₁ ∧ (checkCasScript cas (s.metadata rkyv path)
        (appendVersionScript rkyv path x (s.metadata rkyv path))).Ends given s₁ r s' writes := by
  unfold putVersionScript at h
  cases h with
  | unreadable _ _ _ e hfaulty => exact Or.inl ⟨e, rfl, rfl, hfaulty⟩
  | read hfills hrest => exact Or.inr ⟨_, hfills, hrest⟩

/-- A put that is acknowledged has created a version. -/
theorem request_putVersion_ok {cas : Option UInt32}
    (hok : (request rkyv s (.putVersion path x cas) choices).1 = .ok out) :
    Created rkyv s (request rkyv s (.putVersion path x cas) choices).2 path x := by
  have hends := request_ends rkyv s (.putVersion path x cas) choices
  rw [hok] at hends
  rcases ends_putVersionScript hends with ⟨_, herror, _⟩ | ⟨s₁, hfills, hrest⟩
  · cases herror
  · obtain ⟨b, b', created, hpayload, hmetadata, hview⟩ :=
      ends_appendVersionScript hrkyv (ends_checkCasScript hrest)
    rw [hfills.view, KvEngine.metadata_currentVersion] at hview
    exact ⟨b, b', created, hpayload, hmetadata, hview⟩

omit hrkyv in
/-- A put that fails has at most written a payload that no version has. -/
theorem request_putVersion_error {cas : Option UInt32} {e : EngineError}
    (herror : (request rkyv s (.putVersion path x cas) choices).1 = .error e) {key : String}
    (hkey : key ≠ buildVersionKey path (s.current rkyv path + 1)) :
    (request rkyv s (.putVersion path x cas) choices).2.view key = s.view key := by
  have hends := request_ends rkyv s (.putVersion path x cas) choices
  rw [herror] at hends
  rcases ends_putVersionScript hends with ⟨_, _, hsame, _⟩ | ⟨s₁, hfills, hrest⟩
  · rw [hsame]
  · rw [← hfills.view]
    rcases ends_checkCasScript_cases hrest with ⟨hsame, _⟩ | hrest
    · rw [hsame]
    · rw [← KvEngine.metadata_currentVersion] at hkey
      exact ends_appendVersionScript_error hrest hkey

end Append

/-- A put on a healthy storage with room succeeds when its check-and-set matches. -/
theorem request_putVersion {rkyv : Rkyv B} (hrkyv : rkyv.Faithful) {path : String}
    (x : SecretPayload) {cas : Option UInt32}
    (hcas : ∀ expected, cas = some expected → expected = s.current rkyv path)
    (hhealthy : Healthy choices) (hroom : s.Room 2) :
    (request rkyv s (.putVersion path x cas) choices).1 = .ok .unit ∧
      Created rkyv s (request rkyv s (.putVersion path x cas) choices).2 path x := by
  have hok : (request rkyv s (.putVersion path x cas) choices).1 = .ok .unit := by
    rcases ends_putVersionScript (request_ends rkyv s (.putVersion path x cas) choices) with
      ⟨_, _, _, hfaulty⟩ | ⟨s₁, hfills, hrest⟩
    · exact (hhealthy.not_faulty hfaulty).elim
    · rw [← KvEngine.metadata_currentVersion] at hcas
      rw [checkCasScript_of_matches _ hcas] at hrest
      exact ends_appendVersionScript_healthy hrkyv hhealthy.not_faulty (hroom.fills hfills) hrest
  exact ⟨hok, request_putVersion_ok hrkyv hok⟩

end Kallisto.Engine
