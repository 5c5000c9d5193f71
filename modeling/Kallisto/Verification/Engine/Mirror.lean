import Kallisto.Verification.Engine.MapSemantics
import Kallisto.Verification.Engine.Sequential

/-! # Clients on the map behind the engine

Clients whose keys do not meet move on one map as their scripts do, under every schedule
of the worker and every loss of a cache entry that has no pending write. -/

namespace Kallisto.Engine

open Program Interleaving

variable {B Tid : Type}

/-! ## Positions in a script -/

/-- What a client is about to do to the cache, between two moves of its script. -/
inductive Place (B : Type) where
  | clear
  | missed (key : String)
  | found (key : String) (b : B)
  | written (op : AsyncOp B)

/-- The key whose cache entry is behind the map. -/
def Place.stale : Place B → Option String
  | .written op => some op.key
  | _ => none

/-- The rest of a read that missed the cache. -/
def readMissed (key : String) : EngineM B (Option B) := do
  match ← getRaw key with
  | .error e => Prog.fail (.storageError ("RocksDB get error: " ++ e))
  | .ok (some disk) =>
    cacheInsert key disk
    return some disk
  | .ok none => return none

/-- The rest of a write once the mode is known. -/
def executeIn (mode : SyncMode) (op : AsyncOp B) : EngineM B Unit :=
  match mode with
  | .immediate =>
    match op with
    | .put key value => do
      match ← putRaw key value with
      | .error e => Prog.fail (.storageError ("Immediate write failed: " ++ e))
      | .ok () => return ()
    | .delete key => do
      match ← delRaw key with
      | .error e => Prog.fail (.storageError ("Immediate delete failed: " ++ e))
      | .ok () => return ()
  | .batch => do
    match ← enqueue op with
    | .error .full => Prog.fail .queueFull
    | _ => return ()

/-- The program of a client that has this script before it. -/
inductive Position (mode : SyncMode) : Script B → EngineM B Out → Place B → Prop where
  | start (sc : Script B) : Position mode sc sc.run .clear
  | missed (key : String) (k : Option B → Script B) :
      Position mode (.read key k) (readMissed key >>= fun found => (k found).run) (.missed key)
  | refill (key : String) (b : B) (sc : Script B) :
      Position mode sc (cacheInsert key b >>= fun _ => sc.run) (.found key b)
  | decided (op : AsyncOp B) (next : Script B) :
      Position mode (.write op next)
        (executeIn mode op >>= fun _ => op.publish >>= fun _ => next.run) .clear
  | publish (op : AsyncOp B) (next : Script B) :
      Position mode next (op.publish >>= fun _ => next.run) (.written op)

/-! ## The invariant -/

/-- What a client may rely on between its moves. -/
def Place.Valid (mode : SyncMode) (C K : String → Prop) (records : String → Option B)
    (s : KvEngine B) : Place B → Prop
  | .clear => True
  | .missed key => K key ∧ (C key → ∀ op ∈ s.pending, op.key ≠ key)
  | .found key b => K key ∧ (C key → records key = some b)
  | .written op => K op.key ∧ records op.key = op.value ∧
      (op.value = none → mode = .immediate ∨ ¬ C op.key)

/-- What is before a client. -/
structure Stance (B : Type) where
  script : Script B
  place : Place B

/-- The cache entries that may differ from the map. -/
def Behind (C : String → Prop) (stance : Tid → Stance B) (key : String) : Prop :=
  ¬ C key ∨ ∃ t, (stance t).place.stale = some key

/-- The clients stand in their scripts as told, and the engine represents the records. -/
structure Mirrors (mode : SyncMode) (C : String → Prop) (K : Tid → String → Prop)
    (p : Clients B Tid) (stance : Tid → Stance B) (records : String → Option B) : Prop where
  represents : Represents mode (Behind C stance) records p.shared
  idle : ∀ t, p.client t = none → (stance t).place = .clear
  position : ∀ t c prog, p.client t = some (c, prog) →
    Position mode (stance t).script prog (stance t).place
  valid : ∀ t, (stance t).place.Valid mode C (K t) records p.shared
  proper : ∀ t, (stance t).script.Proper mode C (K t)

/-- Reads do not fail, the queue has room, no batch fails in batch mode, and there the cache
keeps the entries of `C` that have a pending write. -/
def FairStep (mode : SyncMode) (C : String → Prop) (p : Clients B Tid) : Step B Tid → Prop
  | .act t choice => (∀ key, p.nextCall t = some (.getRaw key) → choice.error = none) ∧
      (mode = .batch → ∀ op, p.nextCall t = some (.enqueue op) →
        p.shared.asyncQueue.length < queueCapacity)
  | .env (.dropEntry key) => mode = .immediate ∨ ¬ C key ∨ ∀ op ∈ p.shared.pending, op.key ≠ key
  | .env (.worker _ fails) => mode = .immediate ∨ fails = false
  | .env (.changeSyncMode _) => False
  | _ => True

/-! ## Represented maps -/

section Represents

variable {mode : SyncMode} {X X' : String → Prop} {records : String → Option B} {s : KvEngine B}

/-- The cache entry of an excluded key may change. -/
theorem Represents.recache (h : Represents mode X records s) {key : String} (hkey : X key)
    (v : Option B) :
    Represents mode X records { s with cache := Function.update s.cache key v } where
  syncMode := h.syncMode
  settled := h.settled
  cached key' b hkey' hcache := by
    change Function.update s.cache key v key' = some b at hcache
    rw [Function.update_of_ne (by rintro rfl; exact hkey' hkey)] at hcache
    exact h.cached key' b hkey' hcache
  missing key' hkey' hcache := by
    change Function.update s.cache key v key' = none at hcache
    rw [Function.update_of_ne (by rintro rfl; exact hkey' hkey)] at hcache
    exact h.missing key' hkey' hcache
  direct := h.direct

/-- A key is no longer excluded once its cache entry is right. -/
theorem Represents.restore (h : Represents mode X records s) (key : String)
    (hX : ∀ key', ¬ X' key' → key' ≠ key → ¬ X key')
    (hcached : ¬ X' key → ∀ b, s.cache key = some b → records key = some b)
    (hmissing : ¬ X' key → s.cache key = none → ∀ op ∈ s.pending, op.key ≠ key) :
    Represents mode X' records s where
  syncMode := h.syncMode
  settled := h.settled
  cached key' b hkey' hcache := by
    by_cases heq : key' = key
    · subst heq
      exact hcached hkey' b hcache
    · exact h.cached key' b (hX key' hkey' heq) hcache
  missing key' hkey' hcache := by
    by_cases heq : key' = key
    · subst heq
      exact hmissing hkey' hcache
    · exact h.missing key' (hX key' hkey' heq) hcache
  direct := h.direct

/-- With nothing queued, writes do not fail and drops are harmless. -/
theorem Represents.env (h : Represents mode X records s) {C : String → Prop}
    (hC : ∀ key, ¬ C key → X key) {p : Clients B Tid} (hp : p.shared = s) {e : EnvStep}
    (he : FairStep mode C p (.env e : Step B Tid)) :
    Represents mode X records (s.env e) ∧
      ∀ op ∈ (s.env e).pending, op ∈ s.pending := by
  subst hp
  cases e with
  | dropEntry key =>
    refine ⟨?_, fun op hop => hop⟩
    rcases he with hmode | hfree | hfree
    · exact Represents.stable ⟨false, false⟩ _ (.dropEntry key) h (Or.inl hmode)
    · exact h.recache (hC key hfree) none
    · exact Represents.stable ⟨false, false⟩ _ (.dropEntry key) h (Or.inr hfree)
  | worker timeout fails =>
    rcases he with hmode | rfl
    · have hpending := h.direct hmode
      obtain ⟨hbatch, hqueue⟩ := List.append_eq_nil_iff.mp hpending
      obtain ⟨pc, hpc⟩ := workerStep_idle p.shared hqueue hbatch timeout fails
      change Represents mode X records (p.shared.workerStep timeout fails) ∧
        ∀ op ∈ (p.shared.workerStep timeout fails).pending, op ∈ p.shared.pending
      rw [hpc]
      exact ⟨⟨h.syncMode, h.settled, h.cached, h.missing, h.direct⟩, fun op hop => hop⟩
    · exact ⟨Represents.stable ⟨false, false⟩ _ (.worker timeout false) h rfl,
        fun op hop => (p.shared.workerStep_moves timeout).pending_suffix.mem hop⟩
  | changeSyncMode mode => exact he.elim
  | stop => exact ⟨⟨h.syncMode, h.settled, h.cached, h.missing, h.direct⟩, fun op hop => hop⟩

end Represents

/-! ## Steps of a client -/

/-- No two clients share a key. -/
def Disjoint (K : Tid → String → Prop) : Prop :=
  ∀ t t' key, K t key → K t' key → t = t'

section Steps

variable {mode : SyncMode} {C K : String → Prop} {s : KvEngine B} {t : Tid}
  {k : Option B → Script B} {c : Call} {r : Except EngineError Out}

theorem Place.Valid.keeps {records records' : String → Option B} {s' : KvEngine B}
    {place : Place B} (h : place.Valid mode C K records s)
    (hrecords : ∀ key, K key → records' key = records key)
    (hpending : ∀ op ∈ s'.pending, op ∈ s.pending ∨ ¬ K op.key) :
    place.Valid mode C K records' s' := by
  cases place with
  | clear => trivial
  | missed key =>
    refine ⟨h.1, fun hC op hop => ?_⟩
    rcases hpending op hop with hop | hop
    · exact h.2 hC op hop
    · rintro rfl
      exact hop h.1
  | found key b => exact ⟨h.1, fun hC => (hrecords key h.1).trans (h.2 hC)⟩
  | written op => exact ⟨h.1, (hrecords op.key h.1).trans h.2.1, h.2.2⟩

theorem Place.Valid.of_stale {records : String → Option B} {place : Place B}
    (h : place.Valid mode C K records s) {key : String} (hkey : place.stale = some key) :
    K key := by
  cases place with
  | written op =>
    cases hkey
    exact h.1
  | _ => cases hkey

variable [DecidableEq Tid] {K : Tid → String → Prop} {p : Clients B Tid}
  {stance : Tid → Stance B} {records : String → Option B}

omit [DecidableEq Tid] in
/-- The cache is right about the keys of a client that is not between a write and the
update of the cache. -/
theorem Mirrors.not_behind (h : Mirrors mode C K p stance records) (hdisjoint : Disjoint K)
    {key : String} (hC : C key) (hkey : K t key) (hplace : (stance t).place.stale ≠ some key) :
    ¬ Behind C stance key := by
  rintro (hnot | ⟨t', hstale⟩)
  · exact hnot hC
  · obtain rfl := hdisjoint t t' key hkey ((h.valid t').of_stale hstale)
    exact hplace hstale

omit [DecidableEq Tid] in
/-- What is on disk under a key that missed the cache. -/
theorem Mirrors.disk (h : Mirrors mode C K p stance records) {key : String}
    (hst : stance t = ⟨.read key k, .missed key⟩) (hC : C key) :
    p.shared.rocksdb key = records key := by
  have hvalid := h.valid t
  rw [hst] at hvalid
  rw [← h.represents.settled, KvEngine.settled_of_forall_ne (hvalid.2 hC)]

theorem behind_update {st : Stance B} {key : String} (hbehind : Behind C stance key)
    (hstale : (stance t).place.stale = some key → st.place.stale = some key) :
    Behind C (Function.update stance t st) key := by
  rcases hbehind with hnot | ⟨t', ht'⟩
  · exact Or.inl hnot
  · by_cases ht : t' = t
    · subst ht
      exact Or.inr ⟨t', by rw [Function.update_self]; exact hstale ht'⟩
    · exact Or.inr ⟨t', by rw [Function.update_of_ne ht]; exact ht'⟩

/-- One client moves and the others see their keys unchanged. -/
theorem Mirrors.move (h : Mirrors mode C K p stance records) (hdisjoint : Disjoint K)
    {x : Option (Call × EngineM B Out)} {st : Stance B} {records' : String → Option B}
    {log : List (Event (system B) EngineError Call Out Tid)}
    (hrepresents : Represents mode (Behind C (Function.update stance t st)) records' s)
    (hidle : x = none → st.place = .clear)
    (hposition : ∀ c prog, x = some (c, prog) → Position mode st.script prog st.place)
    (hvalid : st.place.Valid mode C (K t) records' s) (hproper : st.script.Proper mode C (K t))
    (hrecords : ∀ key, ¬ K t key → records' key = records key)
    (hpending : ∀ op ∈ s.pending, op ∈ p.shared.pending ∨ K t op.key) :
    Mirrors mode C K ⟨s, p.setClient t x, log⟩ (Function.update stance t st) records' where
  represents := hrepresents
  idle t' hclient := by
    change Function.update p.client t x t' = none at hclient
    by_cases ht : t' = t
    · subst ht
      rw [Function.update_self] at hclient ⊢
      exact hidle hclient
    · rw [Function.update_of_ne ht] at hclient ⊢
      exact h.idle t' hclient
  position t' c prog hclient := by
    change Function.update p.client t x t' = _ at hclient
    by_cases ht : t' = t
    · subst ht
      rw [Function.update_self] at hclient ⊢
      exact hposition c prog hclient
    · rw [Function.update_of_ne ht] at hclient ⊢
      exact h.position t' c prog hclient
  valid t' := by
    by_cases ht : t' = t
    · subst ht
      rw [Function.update_self]
      exact hvalid
    · rw [Function.update_of_ne ht]
      refine (h.valid t').keeps ?_ ?_
      · exact fun key hkey => hrecords key fun hkey' => ht (hdisjoint t' t key hkey hkey')
      · intro op hop
        rcases hpending op hop with hop | hop
        · exact Or.inl hop
        · exact Or.inr fun hkey => ht (hdisjoint t' t op.key hkey hop)
  proper t' := by
    by_cases ht : t' = t
    · subst ht
      rw [Function.update_self]
      exact hproper
    · rw [Function.update_of_ne ht]
      exact h.proper t'

/-- After a step of a client the clients stand in their scripts again. -/
def Progress (mode : SyncMode) (C : String → Prop) (K : Tid → String → Prop)
    (stance : Tid → Stance B) (records : String → Option B) (paths : List String) (t : Tid)
    (faced : List Given) (wrote : Option (AsyncOp B)) (p : Clients B Tid) : Prop :=
  ∃ st records', Mirrors mode C K p (Function.update stance t st) records' ∧
    (stance t).script.Advances C ⟨records, paths⟩ faced wrote st.script
      ⟨records', p.shared.pathIndex⟩ ∧
    ∀ key, ¬ K t key → records' key = records key

section Positions

variable (h : Mirrors mode C K p stance records) (hdisjoint : Disjoint K) {t : Tid} {c : Call}
  {log : List (Event (system B) EngineError Call Out Tid)} {sc : Script B} {op : AsyncOp B}

include h hdisjoint

/-- A step without effect on the shared state. -/
theorem Mirrors.observe {place : Place B} {prog : EngineM B Out} {faced : List Given}
    (hstale : (stance t).place.stale = none) (hposition : Position mode sc prog place)
    (hvalid : place.Valid mode C (K t) records p.shared)
    (hadvances : (stance t).script.Advances C ⟨records, p.shared.pathIndex⟩ faced none sc
      ⟨records, p.shared.pathIndex⟩) :
    Progress mode C K stance records p.shared.pathIndex t faced none
      ⟨p.shared, p.setClient t (some (c, prog)), log⟩ := by
  refine ⟨⟨sc, place⟩, records, h.move hdisjoint ?_ nofun ?_ hvalid ?_ (fun _ _ => rfl)
    (fun op hop => Or.inl hop), hadvances, fun _ _ => rfl⟩
  · refine h.represents.mono fun key hbehind => behind_update hbehind fun hkey => ?_
    rw [hstale] at hkey
    cases hkey
  · rintro c' prog' heq
    cases heq
    exact hposition
  · rcases hadvances with ⟨hscript, _⟩ | hmoves
    · rw [hscript]
      exact h.proper t
    · exact (h.proper t).moves hmoves

theorem Mirrors.hit {key : String} {b : B} (hst : stance t = ⟨.read key k, .clear⟩)
    (hcache : p.shared.cache key = some b) :
    Progress mode C K stance records p.shared.pathIndex t [] none
      ⟨p.shared, p.setClient t (some (c, (k (some b)).run)), log⟩ := by
  have hproper := h.proper t
  rw [hst] at hproper
  refine h.observe hdisjoint (by rw [hst]; rfl) (.start (k (some b))) trivial ?_
  rw [hst]
  refine Or.inr (.read key k _ (some b) fun hC => ?_)
  have hnot := h.not_behind hdisjoint hC hproper.1 (by rw [hst]; exact nofun)
  exact (h.represents.cached key b hnot hcache).symm

theorem Mirrors.miss {key : String} (hst : stance t = ⟨.read key k, .clear⟩)
    (hcache : p.shared.cache key = none) :
    Progress mode C K stance records p.shared.pathIndex t [] none
      ⟨p.shared, p.setClient t (some (c, readMissed key >>= fun found => (k found).run)), log⟩ := by
  have hproper := h.proper t
  rw [hst] at hproper
  refine h.observe hdisjoint (by rw [hst]; rfl) (.missed key k) ⟨hproper.1, fun hC => ?_⟩
    (Or.inl ⟨by rw [hst], rfl, rfl, rfl⟩)
  have hnot := h.not_behind hdisjoint hC hproper.1 (by rw [hst]; exact nofun)
  exact h.represents.missing key hnot hcache

theorem Mirrors.absent {key : String} (hst : stance t = ⟨.read key k, .missed key⟩)
    (hdisk : p.shared.rocksdb key = none) :
    Progress mode C K stance records p.shared.pathIndex t [] none
      ⟨p.shared, p.setClient t (some (c, (k none).run)), log⟩ := by
  refine h.observe hdisjoint (by rw [hst]; rfl) (.start (k none)) trivial ?_
  rw [hst]
  exact Or.inr (.read key k _ none fun hC => hdisk.symm.trans (h.disk hst hC))

theorem Mirrors.present {key : String} {b : B} (hst : stance t = ⟨.read key k, .missed key⟩)
    (hdisk : p.shared.rocksdb key = some b) :
    Progress mode C K stance records p.shared.pathIndex t [] none
      ⟨p.shared, p.setClient t (some (c, cacheInsert key b >>= fun _ => (k (some b)).run)),
        log⟩ := by
  have hproper := h.proper t
  rw [hst] at hproper
  have hfound : C key → records key = some b := fun hC => (h.disk hst hC).symm.trans hdisk
  refine h.observe hdisjoint (by rw [hst]; rfl) (.refill key b (k (some b))) ⟨hproper.1, hfound⟩ ?_
  rw [hst]
  exact Or.inr (.read key k _ (some b) fun hC => (hfound hC).symm)

/-- An update of the cache that ends a block of the script. -/
theorem Mirrors.recached {place : Place B} (hst : stance t = ⟨sc, place⟩)
    {cache : String → Option B}
    (hrepresents : Represents mode (Behind C (Function.update stance t ⟨sc, .clear⟩)) records
      { p.shared with cache := cache }) :
    Progress mode C K stance records p.shared.pathIndex t [] none
      ⟨{ p.shared with cache := cache }, p.setClient t (some (c, sc.run)), log⟩ := by
  have hproper := h.proper t
  rw [hst] at hproper
  refine ⟨⟨sc, .clear⟩, records, h.move hdisjoint hrepresents nofun ?_ trivial hproper
    (fun _ _ => rfl) (fun op hop => Or.inl hop), Or.inl ⟨by rw [hst], rfl, rfl, rfl⟩, fun _ _ => rfl⟩
  rintro c' prog' heq
  cases heq
  exact .start sc

theorem Mirrors.refill {key : String} {b : B} (hst : stance t = ⟨sc, .found key b⟩) :
    Progress mode C K stance records p.shared.pathIndex t [] none
      ⟨{ p.shared with cache := Function.update p.shared.cache key (some b) },
        p.setClient t (some (c, sc.run)), log⟩ := by
  have hvalid := h.valid t
  rw [hst] at hvalid
  have hbehind : Represents mode (Behind C (Function.update stance t ⟨sc, .clear⟩)) records
      p.shared := by
    refine h.represents.mono fun key hkey => behind_update hkey fun hstale => ?_
    rw [hst] at hstale
    cases hstale
  refine h.recached hdisjoint hst ?_
  by_cases hC : C key
  · exact hbehind.cacheInsert (hvalid.2 hC) fun _ _ hX => hX
  · exact hbehind.recache (Or.inl hC) (some b)

theorem Mirrors.publish (hst : stance t = ⟨sc, .written op⟩) :
    Progress mode C K stance records p.shared.pathIndex t [] none
      ⟨{ p.shared with cache := Function.update p.shared.cache op.key op.value },
        p.setClient t (some (c, sc.run)), log⟩ := by
  obtain ⟨hkey, hvalue, hdelete⟩ : K t op.key ∧ records op.key = op.value ∧
      (op.value = none → mode = .immediate ∨ ¬ C op.key) := by
    have hvalid := h.valid t
    rwa [hst] at hvalid
  have hstale : Behind C stance op.key := Or.inr ⟨t, by rw [hst]; rfl⟩
  refine h.recached hdisjoint hst ?_
  refine (h.represents.recache hstale op.value).restore op.key ?_ ?_ ?_
  · intro key hnot hne hbehind
    refine hnot (behind_update hbehind fun hown => ?_)
    rw [hst] at hown
    exact (hne (Option.some.inj hown).symm).elim
  · intro _ b hcache
    change Function.update p.shared.cache op.key op.value op.key = some b at hcache
    rw [Function.update_self] at hcache
    exact hvalue.trans hcache
  · intro hnot hcache op' hop'
    change Function.update p.shared.cache op.key op.value op.key = none at hcache
    rw [Function.update_self] at hcache
    rcases hdelete hcache with hmode | hC
    · have hnone : KvEngine.pending p.shared = [] := h.represents.direct hmode
      change op' ∈ KvEngine.pending p.shared at hop'
      rw [hnone] at hop'
      cases hop'
    · exact (hnot (Or.inl hC)).elim

/-- An accepted write changes the map, and the cache is behind. -/
theorem Mirrors.wrote {next : Script B} {place : Place B}
    (hst : stance t = ⟨.write op next, place⟩)
    (hrepresents : Represents mode (fun key => key = op.key ∨ Behind C stance key)
      (op.apply records) s) (hpending : ∀ op' ∈ s.pending, op' ∈ p.shared.pending ∨ op' = op)
    (hpaths : s.pathIndex = p.shared.pathIndex) (hplace : place.stale = none) :
    Progress mode C K stance records p.shared.pathIndex t [.outcome none] (some op)
      ⟨s, p.setClient t (some (c, op.publish >>= fun _ => next.run)), log⟩ := by
  obtain ⟨hkey, hdelete, hnext⟩ : K t op.key ∧
      (op.value = none → mode = .immediate ∨ ¬ C op.key) ∧ next.Proper mode C (K t) := by
    have hproper := h.proper t
    rwa [hst] at hproper
  have hother : ∀ key, ¬ K t key → op.apply records key = records key := by
    intro key hnot
    refine AsyncOp.apply_of_ne records ?_
    rintro rfl
    exact hnot hkey
  refine ⟨⟨next, .written op⟩, op.apply records, h.move hdisjoint ?_ nofun ?_
    ⟨hkey, AsyncOp.apply_key records op, hdelete⟩ hnext hother ?_, ?_, hother⟩
  · refine hrepresents.mono ?_
    rintro key (rfl | hbehind)
    · exact Or.inr ⟨t, by rw [Function.update_self]; rfl⟩
    · refine behind_update hbehind fun hstale => ?_
      rw [hst, hplace] at hstale
      cases hstale
  · rintro c' prog' heq
    cases heq
    exact .publish op next
  · intro op' hop'
    rcases hpending op' hop' with hold | rfl
    · exact Or.inl hold
    · exact Or.inr hkey
  · rw [hst, hpaths]
    exact Or.inr (.write op next _)

theorem Mirrors.refuse {next : Script B} (hst : stance t = ⟨.write op next, .clear⟩) (e : String) :
    Progress mode C K stance records p.shared.pathIndex t [.outcome (some e)] none
      ⟨p.shared, p.setClient t (some (c, .done (.error (op.failure e)))), log⟩ := by
  refine h.observe hdisjoint (by rw [hst]; rfl) (.start (.finish (.error (op.failure e)))) trivial ?_
  rw [hst]
  exact Or.inr (.refused op next _ e)

theorem Mirrors.register {path : String} {next : Script B}
    (hst : stance t = ⟨.register path next, .clear⟩) :
    Progress mode C K stance records p.shared.pathIndex t [] none
      ⟨{ p.shared with pathIndex := if path ∈ p.shared.pathIndex then p.shared.pathIndex
          else path :: p.shared.pathIndex }, p.setClient t (some (c, next.run)), log⟩ := by
  have hproper := h.proper t
  rw [hst] at hproper
  refine ⟨⟨next, .clear⟩, records, h.move hdisjoint ?_ nofun ?_ trivial hproper.2 (fun _ _ => rfl)
    (fun op hop => Or.inl hop), ?_, fun _ _ => rfl⟩
  · have hsame : Represents mode (Behind C (Function.update stance t ⟨next, .clear⟩)) records
        p.shared := by
      refine h.represents.mono fun key hkey => behind_update hkey fun hstale => ?_
      rw [hst] at hstale
      cases hstale
    exact ⟨hsame.syncMode, hsame.settled, hsame.cached, hsame.missing, hsame.direct⟩
  · rintro c' prog' heq
    cases heq
    exact .start next
  · rw [hst]
    exact Or.inr (.register path next _)

end Positions

/-- A client whose next call is known stands somewhere in its script. -/
theorem Mirrors.act (h : Mirrors mode C K p stance records) (hdisjoint : Disjoint K)
    {op : Effect B} {k : op.Ret → EngineM B Out} {choice : Choice} {r : op.Ret}
    (hclient : p.client t = some (c, .call op k)) (hfair : FairStep mode C p (.act t choice))
    (hexec : p.shared.exec op choice = (r, s)) :
    Progress mode C K stance records p.shared.pathIndex t (op.faced r) (op.acked r)
      ⟨s, p.setClient t (some (c, k r)), .act t op r :: p.log⟩ := by
  have hcall : p.nextCall t = some op := by rw [Pool.nextCall, hclient]
  have hposition := h.position t c _ hclient
  rcases hst : stance t with ⟨script, place⟩
  rw [hst] at hposition
  dsimp only at hposition
  generalize hprog : Prog.call op k = prog at hposition
  cases hposition with
  | start =>
    cases script with
    | finish r => cases hprog
    | read key k' =>
      change Prog.call op k = Prog.call (.cacheLookup key) _ at hprog
      cases hprog
      obtain ⟨hr, rfl⟩ := Prod.mk.inj hexec
      cases r with
      | none => exact h.miss hdisjoint hst hr
      | some b => exact h.hit hdisjoint hst hr
    | clock k' =>
      change Prog.call op k = Prog.call .nowMs _ at hprog
      cases hprog
      obtain ⟨-, rfl⟩ := Prod.mk.inj hexec
      refine h.observe hdisjoint (by rw [hst]; rfl) (.start (k' r)) trivial ?_
      rw [hst]
      exact Or.inr (.clock k' _ r)
    | write op' next =>
      change Prog.call op k = Prog.call .getSyncMode _ at hprog
      cases hprog
      obtain ⟨hr, rfl⟩ := Prod.mk.inj hexec
      obtain rfl : mode = r := h.represents.syncMode.symm.trans hr
      exact h.observe hdisjoint (by rw [hst]; rfl) (.decided op' next) trivial
        (Or.inl ⟨by rw [hst], rfl, rfl, rfl⟩)
    | register path next =>
      change Prog.call op k = Prog.call (.insertPathIfAbsent path) _ at hprog
      cases hprog
      obtain ⟨-, rfl⟩ := Prod.mk.inj hexec
      exact h.register hdisjoint hst
  | missed key k' =>
    change Prog.call op k = Prog.call (.getRaw key) _ at hprog
    cases hprog
    rw [KvEngine.exec_getRaw _ _ (hfair.1 key hcall)] at hexec
    obtain ⟨hr, rfl⟩ := Prod.mk.inj hexec
    cases hdisk : p.shared.rocksdb key with
    | none =>
      rw [hdisk] at hr
      subst hr
      exact h.absent hdisjoint hst hdisk
    | some b =>
      rw [hdisk] at hr
      subst hr
      exact h.present hdisjoint hst hdisk
  | refill key b =>
    change Prog.call op k = Prog.call (.cacheInsert key b) _ at hprog
    cases hprog
    obtain ⟨-, rfl⟩ := Prod.mk.inj hexec
    exact h.refill hdisjoint hst
  | decided op' next =>
    cases mode with
    | immediate =>
      have hwrote : ∀ log, Progress .immediate C K stance records p.shared.pathIndex t [.outcome none]
          (some op') (⟨{ p.shared with rocksdb := op'.apply p.shared.rocksdb },
            p.setClient t (some (c, op'.publish >>= fun _ => next.run)), log⟩ :
            Clients B Tid) := fun log =>
        h.wrote hdisjoint hst (h.represents.write op') (fun _ hop => Or.inl hop) rfl rfl
      obtain ⟨error, now⟩ := choice
      cases op' with
      | put key b =>
        change Prog.call op k = Prog.call (.putRaw key b) _ at hprog
        cases hprog
        cases error with
        | none =>
          obtain ⟨rfl, rfl⟩ := Prod.mk.inj hexec
          exact hwrote _
        | some e =>
          obtain ⟨rfl, rfl⟩ := Prod.mk.inj hexec
          exact h.refuse hdisjoint hst e
      | delete key =>
        change Prog.call op k = Prog.call (.delRaw key) _ at hprog
        cases hprog
        cases error with
        | none =>
          obtain ⟨rfl, rfl⟩ := Prod.mk.inj hexec
          exact hwrote _
        | some e =>
          obtain ⟨rfl, rfl⟩ := Prod.mk.inj hexec
          exact h.refuse hdisjoint hst e
    | batch =>
      change Prog.call op k = Prog.call (.enqueue op') _ at hprog
      cases hprog
      have hroom : p.shared.asyncQueue.length < queueCapacity := hfair.2 rfl op' hcall
      have haccepted : p.shared.exec (.enqueue op') choice =
          ((.ok () : Except QueueError Unit),
            { p.shared with asyncQueue := p.shared.asyncQueue ++ [op'] }) := if_pos hroom
      obtain ⟨rfl, rfl⟩ := Prod.mk.inj (haccepted.symm.trans hexec)
      refine h.wrote hdisjoint hst (h.represents.enqueue op') ?_ rfl rfl
      intro op'' hop''
      have hmem : op'' ∈ p.shared.pending ++ [op'] := by
        rw [KvEngine.pending, List.append_assoc]
        exact hop''
      rcases List.mem_append.mp hmem with hold | hnew
      · exact Or.inl hold
      · exact Or.inr (List.mem_singleton.mp hnew)
  | publish op' =>
    cases op' with
    | put key b =>
      change Prog.call op k = Prog.call (.cacheInsert key b) _ at hprog
      cases hprog
      obtain ⟨-, rfl⟩ := Prod.mk.inj hexec
      exact h.publish hdisjoint hst
    | delete key =>
      change Prog.call op k = Prog.call (.cacheRemove key) _ at hprog
      cases hprog
      obtain ⟨-, rfl⟩ := Prod.mk.inj hexec
      exact h.publish hdisjoint hst

theorem Mirrors.invoke (h : Mirrors mode C K p stance records) (hdisjoint : Disjoint K)
    (rkyv : Rkyv B) (hclient : p.client t = none) (hproper : (script rkyv c).Proper mode C (K t)) :
    Mirrors mode C K ⟨p.shared, p.setClient t (some (c, body rkyv c)), .invoke t c :: p.log⟩
      (Function.update stance t ⟨script rkyv c, .clear⟩) records := by
  refine h.move hdisjoint ?_ nofun ?_ trivial hproper (fun _ _ => rfl) fun op hop => Or.inl hop
  · refine h.represents.mono fun key hbehind => behind_update hbehind fun hstale => ?_
    rw [h.idle t hclient] at hstale
    cases hstale
  · rintro c' prog heq
    cases heq
    rw [body_eq_run]
    exact .start (script rkyv c)

omit [DecidableEq Tid] in
/-- A client that has its result is at the end of its script. -/
theorem Mirrors.finished (h : Mirrors mode C K p stance records)
    (hclient : p.client t = some (c, .done r)) : stance t = ⟨.finish r, .clear⟩ := by
  have hposition := h.position t c _ hclient
  rcases hst : stance t with ⟨script, place⟩
  rw [hst] at hposition
  dsimp only at hposition
  generalize hprog : (Prog.done r : EngineM B Out) = prog at hposition
  cases hposition with
  | start =>
    cases script with
    | finish r' =>
      cases hprog
      rfl
    | _ => cases hprog
  | missed key k' => cases hprog
  | refill key b => cases hprog
  | decided op next => cases mode <;> cases op <;> cases hprog
  | publish op => cases op <;> cases hprog

theorem Mirrors.respond (h : Mirrors mode C K p stance records)
    (hclient : p.client t = some (c, .done r)) :
    Mirrors mode C K ⟨p.shared, p.setClient t none, .respond t c r :: p.log⟩ stance records where
  represents := h.represents
  idle t' hidle := by
    change Function.update p.client t none t' = none at hidle
    by_cases ht : t' = t
    · subst ht
      rw [h.finished hclient]
    · rw [Function.update_of_ne ht] at hidle
      exact h.idle t' hidle
  position t' c' prog hrunning := by
    change Function.update p.client t none t' = _ at hrunning
    by_cases ht : t' = t
    · subst ht
      rw [Function.update_self] at hrunning
      cases hrunning
    · rw [Function.update_of_ne ht] at hrunning
      exact h.position t' c' prog hrunning
  valid := h.valid
  proper := h.proper

omit [DecidableEq Tid] in
theorem Mirrors.env (h : Mirrors mode C K p stance records) {e : EnvStep}
    (he : FairStep mode C p (.env e)) :
    Mirrors mode C K ⟨p.shared.env e, p.client, .env e :: p.log⟩ stance records := by
  obtain ⟨hrepresents, hpending⟩ := h.represents.env (fun key hC => Or.inl hC) rfl he
  exact ⟨hrepresents, h.idle, h.position,
    fun t => (h.valid t).keeps (fun _ _ => rfl) fun op hop => Or.inl (hpending op hop), h.proper⟩

end Steps

theorem env_pathIndex (s : KvEngine B) (e : EnvStep) : (s.env e).pathIndex = s.pathIndex := by
  cases e <;> rfl

/-- No client has made a request of a newly opened engine. -/
theorem mirrors_opened (mode : SyncMode) (C : String → Prop) (K : Tid → String → Prop)
    (db : String → Option B) (paths : List String) :
    Mirrors mode C K (Clients.opened db mode paths) (fun _ => ⟨.finish (.ok .unit), .clear⟩) db where
  represents := (represents_opened db paths).mono fun _ h => h.elim
  idle _ _ := rfl
  position _ _ _ h := nomatch h
  valid _ := trivial
  proper _ := trivial

end Kallisto.Engine
