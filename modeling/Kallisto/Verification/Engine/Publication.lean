import Kallisto.Verification.Engine.CacheCoherence
import Kallisto.Verification.Engine.Pending
import Kallisto.Verification.Engine.Scripts

/-! # Payloads before metadata

Without `destroy_version` no payload is ever deleted, and a metadata record is written
only after the payloads of the versions it lists. -/

namespace Kallisto.Engine

open Program Interleaving

variable {B Tid : Type} {b : B} {db : String → Option B}

/-! ## Versions that a client knows to be stored -/

/-- The record of the key lists the version of the path. -/
def Listed (rkyv : Rkyv B) (key : String) (b : B) (path : String) (n : UInt32) : Prop :=
  key = buildMetaKey path ∧ ∃ v ∈ (rkyv.archivedMetadata b).versions, v.versionId = n

/-- Versions whose payloads were written, or that a record found in the cache or on disk
lists. -/
abbrev Known : Type :=
  String → UInt32 → Prop

/-- What is known after a record was looked for. -/
def Known.found (rkyv : Rkyv B) (known : Known) (key : String) : Option B → Known
  | none => known
  | some b => fun path n => known path n ∨ Listed rkyv key b path n

/-- What is known after a record was written. -/
def Known.wrote (known : Known) (key : String) : Known :=
  fun path n => known path n ∨ key = buildVersionKey path n

/-- A record may be published when it lists known versions only. -/
def Publishable (rkyv : Rkyv B) (known : Known) (key : String) (b : B) : Prop :=
  ∀ path n, Listed rkyv key b path n → known path n

def missingPayload {α : Type} : Except EngineError α :=
  .error (.storageError "Missing version payload")

/-- Records are published only when they list known versions, in the way of the mode, and
nothing is deleted. In immediate mode a known payload is found on disk. -/
def publishProtocol (rkyv : Rkyv B) (mode : SyncMode) : Protocol (Effect.Ret (B := B)) Known where
  allowed
    | known, .cacheInsert key b => Publishable rkyv known key b
    | known, .putRaw key b => mode = .immediate ∧ Publishable rkyv known key b
    | known, .enqueue (.put key b) => mode = .batch ∧ Publishable rkyv known key b
    | _, .enqueue (.delete _) => False
    | _, .delRaw _ => False
    | _, _ => True
  possible
    | _, .getSyncMode, (m : SyncMode) => m = mode
    | known, .getRaw key, (.ok none : Except String (Option B)) =>
      mode = .immediate → ∀ path n, known path n → key ≠ buildVersionKey path n
    | _, .enqueue _, (r : Except QueueError Unit) => r ≠ .error .empty
    | _, _, _ => True
  next
    | known, .cacheLookup key, (found : Option B) => known.found rkyv key found
    | known, .getRaw key, (.ok found : Except String (Option B)) => known.found rkyv key found
    | known, .putRaw key _, (.ok () : Except String Unit) => known.wrote key
    | known, .enqueue (.put key _), (.ok () : Except QueueError Unit) => known.wrote key
    | known, _, _ => known

/-- The script writes metadata of known versions only, and does not miss a payload that it
knows. -/
def Script.Backed (rkyv : Rkyv B) (mode : SyncMode) : Known → Script B → Prop
  | _, .finish r => mode = .immediate → r ≠ missingPayload
  | known, .read key k => ∀ found,
      (found = none → mode = .immediate → ∀ path n, known path n → key ≠ buildVersionKey path n) →
      (k found).Backed rkyv mode (known.found rkyv key found)
  | known, .clock k => ∀ now, (k now).Backed rkyv mode known
  | known, .write (.put key b) next =>
    Publishable rkyv known key b ∧ next.Backed rkyv mode (known.wrote key)
  | _, .write (.delete _) _ => False
  | known, .register _ next => next.Backed rkyv mode known

/-! ## Scripts follow the protocol -/

variable {c : Call}

section Scripts

variable {rkyv : Rkyv B} {mode : SyncMode} {f : VersionState → VersionState}

theorem storageError_ne_missingPayload {α : Type} {s : String} {c : Char} (e : String)
    (hs : s.toList.head? = some c) (hc : c ≠ 'M') :
    (.error (.storageError (s ++ e)) : Except EngineError α) ≠ missingPayload := by
  intro heq
  have hstring : s ++ e = "Missing version payload" :=
    EngineError.storageError.inj (Except.error.inj heq)
  have hhead := congrArg (fun s => s.toList.head?) hstring
  simp only [String.toList_append, List.head?_append, hs, Option.some_or] at hhead
  exact hc (Option.some.inj hhead)

/-- How requests end in immediate mode. -/
def Unmissed {α : Type} (mode : SyncMode) (_ : Known) (r : Except EngineError α) : Prop :=
  mode = .immediate → r ≠ missingPayload

variable {known : Known}

theorem follows_read {key : String} {k : Option B → Script B} (h : ∀ found,
      (found = none → mode = .immediate → ∀ path n, known path n → key ≠ buildVersionKey path n) →
      Follows (publishProtocol rkyv mode) (Unmissed mode) (known.found rkyv key found)
        (k found).run) :
    Follows (publishProtocol rkyv mode) (Unmissed mode) known (Script.read key k).run := by
  refine ⟨trivial, ?_⟩
  rintro (_ | payload) -
  · refine ⟨trivial, ?_⟩
    rintro (e | (_ | disk)) hpossible
    · exact fun _ => storageError_ne_missingPayload e rfl (by decide)
    · exact h none fun _ => hpossible
    · refine ⟨fun path n hlisted => Or.inr hlisted, fun _ _ => ?_⟩
      exact h (some disk) nofun
  · exact h (some payload) nofun

theorem follows_write {key : String} {next : Script B}
    (hpublishable : Publishable rkyv known key b)
    (h : Follows (publishProtocol rkyv mode) (Unmissed mode) (known.wrote key) next.run) :
    Follows (publishProtocol rkyv mode) (Unmissed mode) known
      (Script.write (.put key b) next).run := by
  have hinsert : Follows (publishProtocol rkyv mode) (Unmissed mode) (known.wrote key)
      ((AsyncOp.put key b).publish >>= fun _ => next.run) :=
    ⟨fun path n hlisted => Or.inl (hpublishable path n hlisted), fun _ _ => h⟩
  refine ⟨trivial, fun m hm => ?_⟩
  obtain rfl : m = mode := hm
  cases m with
  | immediate =>
    refine ⟨⟨rfl, hpublishable⟩, ?_⟩
    rintro (e | ⟨⟩) -
    · exact fun _ => storageError_ne_missingPayload e rfl (by decide)
    · exact hinsert
  | batch =>
    refine ⟨⟨rfl, hpublishable⟩, ?_⟩
    rintro ((_ | _) | ⟨⟩) hpossible
    · exact nofun
    · exact (hpossible rfl).elim
    · exact hinsert

theorem Script.Backed.follows {s : Script B} :
    ∀ {known : Known}, s.Backed rkyv mode known →
      Follows (publishProtocol rkyv mode) (Unmissed mode) known s.run := by
  induction s with
  | finish r => exact fun h => h
  | read key k ih => exact fun h => follows_read fun found hfound => ih found (h found hfound)
  | clock k ih => exact fun h => ⟨trivial, fun now _ => ih now (h now)⟩
  | write op next ih =>
    intro known h
    cases op with
    | put key b => exact follows_write h.1 (ih h.2)
    | delete key => exact h.elim
  | register path next ih => exact fun h => ⟨trivial, fun _ _ => ih h⟩

/-! ## Requests other than destroy -/

theorem mem_updateVersion {version : UInt32} (hf : ∀ v, (f v).versionId = v.versionId)
    {v : VersionState} :
    ∀ {vs : List VersionState}, v ∈ updateVersion version f vs →
      ∃ v' ∈ vs, v'.versionId = v.versionId := by
  intro vs
  induction vs with
  | nil =>
    intro h
    cases h
  | cons w vs ih =>
    intro h
    rw [updateVersion] at h
    split at h
    · rcases List.mem_cons.mp h with rfl | h
      · exact ⟨w, List.mem_cons_self, (hf w).symm⟩
      · exact ⟨v, List.mem_cons_of_mem w h, rfl⟩
    · rcases List.mem_cons.mp h with rfl | h
      · exact ⟨v, List.mem_cons_self, rfl⟩
      · obtain ⟨v', hv', hid⟩ := ih h
        exact ⟨v', List.mem_cons_of_mem w hv', hid⟩

theorem backed_storeMetadataScript (hrkyv : rkyv.Faithful) {path : String}
    {metadata : KeyMetadata} {next : Script B}
    (hknown : ∀ v ∈ metadata.versions, known path v.versionId)
    (hnext : ∀ known, next.Backed rkyv mode known) :
    (storeMetadataScript rkyv path metadata next).Backed rkyv mode known := by
  obtain ⟨bytes, hbytes, harchived⟩ := hrkyv.metadata metadata
  rw [storeMetadataScript, hbytes]
  refine ⟨?_, hnext _⟩
  rintro path' n ⟨hkey, v, hv, rfl⟩
  obtain rfl : path = path' := buildMetaKey_inj.mp hkey
  rw [harchived] at hv
  exact hknown v hv

theorem backed_ok (known : Known) (out : Out) :
    (Script.finish (.ok out) : Script B).Backed rkyv mode known :=
  nofun

/-- The versions of a record that was found are known. -/
theorem known_found {path : String} {bytes : B} {v : VersionState}
    (hv : v ∈ (rkyv.archivedMetadata bytes).versions) :
    known.found rkyv (buildMetaKey path) (some bytes) path v.versionId :=
  Or.inr ⟨rfl, v, hv, rfl⟩

theorem backed_readMetadataScript {path : String} {k : KeyMetadata → Script B}
    (hk : ∀ metadata known, (∀ v ∈ metadata.versions, known path v.versionId) →
      (k metadata).Backed rkyv mode known) :
    (readMetadataScript rkyv path k).Backed rkyv mode known := by
  intro found _
  cases found with
  | none => exact nofun
  | some bytes => exact hk _ _ fun v hv => known_found hv

theorem backed_appendVersionScript (hrkyv : rkyv.Faithful) {path : String}
    (payload : SecretPayload) {metadata : KeyMetadata}
    (hknown : ∀ v ∈ metadata.versions, known path v.versionId) :
    (appendVersionScript rkyv path payload metadata).Backed rkyv mode known := by
  intro created
  obtain ⟨bytes, hbytes, _⟩ := hrkyv.payload payload
  rw [hbytes]
  refine ⟨?_, backed_storeMetadataScript hrkyv ?_ fun _ => nofun⟩
  · rintro path' n ⟨hkey, _⟩
    exact (buildMetaKey_ne_buildVersionKey _ _ _ hkey.symm).elim
  · intro v hv
    rcases List.mem_append.mp hv with hv | hv
    · exact Or.inl (hknown v hv)
    · rw [List.mem_singleton.mp hv]
      exact Or.inr rfl

theorem backed_putVersionScript (hrkyv : rkyv.Faithful) (known : Known) (path : String)
    (payload : SecretPayload) (cas : Option UInt32) :
    (putVersionScript rkyv path payload cas).Backed rkyv mode known := by
  intro found _
  have hknown : ∀ v ∈ ((found.map (deserializeMetadata rkyv)).getD .default).versions,
      known.found rkyv (buildMetaKey path) found path v.versionId := by
    intro v hv
    cases found with
    | none => simp [KeyMetadata.default] at hv
    | some bytes => exact known_found hv
  have happend : (appendVersionScript rkyv path payload _).Backed rkyv mode _ :=
    backed_appendVersionScript hrkyv payload hknown
  dsimp only
  unfold checkCasScript
  split
  · split
    · exact nofun
    · exact happend
  · exact happend

theorem backed_readVersionScript (known : Known) (path : String) (version : UInt32) :
    (readVersionScript rkyv path version).Backed rkyv mode known := by
  intro found _
  cases found with
  | none => exact nofun
  | some bytes =>
    dsimp only
    rcases hlocate : locate version (rkyv.archivedMetadata bytes) with ⟨target, _ | v⟩
    · exact nofun
    · obtain ⟨htarget, hfind⟩ := Prod.mk.inj hlocate
      have hv := List.mem_of_find?_eq_some hfind
      have hid : v.versionId = target := by
        rw [← htarget]
        simpa using List.find?_some hfind
      dsimp only
      split
      · exact nofun
      · split
        · exact nofun
        · split
          · exact nofun
          · intro payload hmissing
            cases payload with
            | some payload => exact nofun
            | none =>
              intro himmediate _
              have hknown : known.found rkyv (buildMetaKey path) (some bytes) path target := by
                rw [← hid]
                exact known_found hv
              exact hmissing rfl himmediate path target hknown rfl

/-- The request destroys nothing. -/
def Call.Keeps : Call → Prop
  | .destroyVersion _ _ => False
  | _ => True

/-- Changing the state of a version lists no other versions. -/
theorem known_updated {path : String} {metadata : KeyMetadata} {version : UInt32}
    (hf : ∀ v, (f v).versionId = v.versionId)
    (hknown : ∀ v ∈ metadata.versions, known path v.versionId) :
    ∀ v ∈ (metadata.updated version f).versions, known path v.versionId := by
  intro v hv
  obtain ⟨v', hv', hid⟩ := mem_updateVersion hf hv
  rw [← hid]
  exact hknown v' hv'

theorem backed_script (hrkyv : rkyv.Faithful) (hc : c.Keeps) (known : Known) :
    (script rkyv c).Backed rkyv mode known := by
  cases c with
  | readMetadata path =>
    unfold script
    exact backed_readMetadataScript fun _ known _ => backed_ok known _
  | readVersion path version => exact backed_readVersionScript known path version
  | putVersion path payload cas => exact backed_putVersionScript hrkyv known path payload cas
  | softDelete path version =>
    unfold script softDeleteScript
    refine backed_readMetadataScript fun metadata known hknown => ?_
    split
    · exact nofun
    · exact fun now => backed_storeMetadataScript hrkyv (known_updated (fun _ => rfl) hknown)
        fun known => backed_ok known _
  | undelete path version =>
    unfold script undeleteScript
    refine backed_readMetadataScript fun metadata known hknown => ?_
    split
    · exact nofun
    · split
      · exact nofun
      · exact backed_storeMetadataScript hrkyv (known_updated (fun _ => rfl) hknown)
          fun known => backed_ok known _
  | destroyVersion path version => exact hc.elim

end Scripts

/-! ## Storage states -/

/-- Every version that a metadata record lists has its payload. -/
def Complete (rkyv : Rkyv B) (db : String → Option B) : Prop :=
  ∀ key b path n, db key = some b → Listed rkyv key b path n → db (buildVersionKey path n) ≠ none

/-- The payload of the version is on disk, or on its way there. -/
def Present (s : KvEngine B) (path : String) (n : UInt32) : Prop :=
  s.settled (buildVersionKey path n) ≠ none

/-- Only puts are pending, and whichever of them have reached the disk, payloads came
first. -/
structure Sound (rkyv : Rkyv B) (mode : SyncMode) (s : KvEngine B) : Prop where
  fixed : s.syncMode = mode
  direct : mode = .immediate → s.asyncQueue = [] ∧ s.batch = []
  puts : ∀ op ∈ s.pending, ∃ key b, op = .put key b
  disk : ∀ done rest, s.pending = done ++ rest → Complete rkyv (applyBatch s.rocksdb done)
  cached : ∀ key b path n, s.cache key = some b → Listed rkyv key b path n → Present s path n

theorem applyBatch_ne_none {key : String} {ops : List (AsyncOp B)} :
    ∀ {db : String → Option B}, (∀ op ∈ ops, ∃ key b, op = .put key b) → db key ≠ none →
      applyBatch db ops key ≠ none := by
  induction ops with
  | nil => exact fun _ h => h
  | cons op ops ih =>
    intro db hputs h
    obtain ⟨key', b, rfl⟩ := hputs op List.mem_cons_self
    exact ih (fun op' hop' => hputs op' (List.mem_cons_of_mem _ hop')) (put_apply_ne_none b h)

/-- A record of known versions may be added. -/
theorem Complete.put {rkyv : Rkyv B} (h : Complete rkyv db) {key : String}
    (hknown : ∀ path n, Listed rkyv key b path n → db (buildVersionKey path n) ≠ none) :
    Complete rkyv ((AsyncOp.put key b).apply db) := by
  intro key' b' path n hb' hlisted
  refine put_apply_ne_none b ?_
  by_cases hkey : key' = key
  · subst hkey
    change (AsyncOp.put key' b).apply db (AsyncOp.put key' b).key = _ at hb'
    rw [AsyncOp.apply_key] at hb'
    cases hb'
    exact hknown path n hlisted
  · rw [AsyncOp.apply_of_ne db hkey] at hb'
    exact h key' b' path n hb' hlisted

namespace Sound

variable {rkyv : Rkyv B} {mode : SyncMode} {s : KvEngine B}

theorem rocksdb (h : Sound rkyv mode s) : Complete rkyv s.rocksdb :=
  h.disk [] s.pending rfl

theorem settled (h : Sound rkyv mode s) : Complete rkyv s.settled :=
  h.disk s.pending [] (by simp)

theorem settled_eq (h : Sound rkyv mode s) (himmediate : mode = .immediate) :
    s.settled = s.rocksdb := by
  obtain ⟨hqueue, hbatch⟩ := h.direct himmediate
  exact KvEngine.settled_of_pending_nil (by simp [KvEngine.pending, hqueue, hbatch])

/-- What is on disk stays when the pending writes arrive. -/
theorem present (h : Sound rkyv mode s) {path : String} {n : UInt32}
    (hdisk : s.rocksdb (buildVersionKey path n) ≠ none) : Present s path n :=
  applyBatch_ne_none h.puts hdisk

/-- A state that differs in the cache only. -/
theorem recached (h : Sound rkyv mode s) {cache : String → Option B}
    (hcached : ∀ key b path n, cache key = some b → Listed rkyv key b path n →
      Present s path n) : Sound rkyv mode { s with cache := cache } :=
  ⟨h.fixed, h.direct, h.puts, h.disk, hcached⟩

theorem insert (h : Sound rkyv mode s) {key : String}
    (hknown : ∀ path n, Listed rkyv key b path n → Present s path n) :
    Sound rkyv mode { s with cache := Function.update s.cache key (some b) } := by
  refine h.recached fun key' b' path n hb' hlisted => ?_
  rw [Function.update_apply] at hb'
  split at hb'
  · next hkey =>
    cases hb'
    subst hkey
    exact hknown path n hlisted
  · exact h.cached key' b' path n hb' hlisted

theorem remove (h : Sound rkyv mode s) (key : String) :
    Sound rkyv mode { s with cache := Function.update s.cache key none } := by
  refine h.recached fun key' b' path n hb' hlisted => ?_
  rw [Function.update_apply] at hb'
  split at hb'
  · cases hb'
  · exact h.cached key' b' path n hb' hlisted

theorem write (h : Sound rkyv mode s) (himmediate : mode = .immediate) {key : String}
    (hknown : ∀ path n, Listed rkyv key b path n → Present s path n) :
    Sound rkyv mode { s with rocksdb := (AsyncOp.put key b).apply s.rocksdb } := by
  have heq := h.settled_eq himmediate
  obtain ⟨hqueue, hbatch⟩ := h.direct himmediate
  have hpending : s.pending = [] := by simp [KvEngine.pending, hqueue, hbatch]
  have hpresent : ∀ path n, Present s path n →
      Present { s with rocksdb := (AsyncOp.put key b).apply s.rocksdb } path n := by
    intro path n hpresent
    unfold Present at hpresent ⊢
    rw [heq] at hpresent
    rw [KvEngine.settled_of_pending_nil (by exact hpending)]
    exact put_apply_ne_none b hpresent
  refine ⟨h.fixed, h.direct, h.puts, ?_, ?_⟩
  · intro done rest hsplit
    obtain ⟨rfl, _⟩ := List.append_eq_nil_iff.mp (hsplit.symm.trans hpending)
    refine h.rocksdb.put fun path n hlisted => ?_
    have hthere := hknown path n hlisted
    unfold Present at hthere
    rwa [heq] at hthere
  · exact fun key' b' path n hb' hlisted => hpresent path n (h.cached key' b' path n hb' hlisted)

theorem enqueue (h : Sound rkyv mode s) (hbatch : mode = .batch) {key : String}
    (hknown : ∀ path n, Listed rkyv key b path n → Present s path n) :
    Sound rkyv mode { s with asyncQueue := s.asyncQueue ++ [.put key b] } := by
  have hpending : KvEngine.pending { s with asyncQueue := s.asyncQueue ++ [.put key b] } =
      s.pending ++ [.put key b] := (List.append_assoc _ _ _).symm
  refine ⟨h.fixed, fun himmediate => ?_, ?_, ?_, ?_⟩
  · rw [hbatch] at himmediate
    cases himmediate
  · intro op hop
    rw [hpending] at hop
    rcases List.mem_append.mp hop with hop | hop
    · exact h.puts op hop
    · exact ⟨key, b, List.mem_singleton.mp hop⟩
  · intro done rest hsplit
    rw [hpending] at hsplit
    rcases List.eq_nil_or_concat rest with rfl | ⟨rest, op, rfl⟩
    · rw [List.append_nil] at hsplit
      rw [← hsplit]
      change Complete rkyv (applyBatch s.rocksdb (s.pending ++ [.put key b]))
      rw [applyBatch_append]
      exact h.settled.put hknown
    · rw [List.concat_eq_append, ← List.append_assoc] at hsplit
      exact h.disk done rest (List.append_inj_left' hsplit rfl)
  · intro key' b' path n hb' hlisted
    have hthere := h.cached key' b' path n hb' hlisted
    unfold Present at hthere ⊢
    rw [KvEngine.settled_enqueue]
    exact put_apply_ne_none b hthere

theorem workerMoves (h : Sound rkyv mode s) {s' : KvEngine B} (hmoves : KvEngine.WorkerMoves s s') :
    Sound rkyv mode s' := by
  have hsettled := hmoves.settled
  have hpresent : ∀ path n, Present s path n → Present s' path n := by
    intro path n hthere
    unfold Present at hthere ⊢
    rwa [hsettled]
  refine ⟨hmoves.syncMode.trans h.fixed, ?_, fun op hop => h.puts op (hmoves.pending_suffix.mem hop),
    ?_, ?_⟩
  · intro himmediate
    obtain ⟨hqueue, hbatch⟩ := h.direct himmediate
    have hnil : s'.pending = [] := by
      have hsuffix := hmoves.pending_suffix
      have hpending : s.pending = [] := by simp [KvEngine.pending, hqueue, hbatch]
      rw [hpending] at hsuffix
      exact List.suffix_nil.mp hsuffix
    obtain ⟨hbatch', hqueue'⟩ := List.append_eq_nil_iff.mp hnil
    exact ⟨hqueue', hbatch'⟩
  · cases hmoves with
    | goto pc => exact h.disk
    | take op rest pc hqueue =>
      intro done rest' hsplit
      rw [KvEngine.pending_take hqueue] at hsplit
      exact h.disk done rest' hsplit
    | flush pc =>
      intro done rest hsplit
      have hqueue : s.asyncQueue = done ++ rest := hsplit
      have hdone := h.disk (s.batch ++ done) rest (by
        rw [KvEngine.pending, hqueue, List.append_assoc])
      rwa [applyBatch_append] at hdone
  · intro key b path n hb hlisted
    rw [hmoves.cache] at hb
    exact hpresent path n (h.cached key b path n hb hlisted)

end Sound

/-! ## Steps -/

/-- One mode, no failing batch in batch mode, and nothing is destroyed. -/
def KeepingStep (mode : SyncMode) : Step B Tid → Prop
  | .invoke _ c => c.Keeps
  | .env (.changeSyncMode _) => False
  | .env (.worker _ fails) => mode = .immediate ∨ fails = false
  | _ => True

theorem Sound.env {rkyv : Rkyv B} {mode : SyncMode} {s : KvEngine B} (h : Sound rkyv mode s)
    {e : EnvStep} (he : KeepingStep mode (.env e : Step B Tid)) :
    Sound rkyv mode (s.env e) ∧ ∀ path n, Present s path n → Present (s.env e) path n := by
  cases e with
  | dropEntry key => exact ⟨h.remove key, fun _ _ hthere => hthere⟩
  | worker timeout fails =>
    rcases he with himmediate | rfl
    · obtain ⟨hqueue, hbatch⟩ := h.direct himmediate
      obtain ⟨pc, hpc⟩ := workerStep_idle s hqueue hbatch timeout fails
      change Sound rkyv mode (s.workerStep timeout fails) ∧
        ∀ path n, Present s path n → Present (s.workerStep timeout fails) path n
      rw [hpc]
      exact ⟨h.workerMoves (.goto pc), fun _ _ hthere => hthere⟩
    · have hmoves := s.workerStep_moves timeout
      refine ⟨h.workerMoves hmoves, fun path n hthere => ?_⟩
      unfold Present at hthere ⊢
      rwa [← hmoves.settled] at hthere
  | changeSyncMode mode => exact he.elim
  | stop => exact ⟨⟨h.fixed, h.direct, h.puts, h.disk, h.cached⟩, fun _ _ hthere => hthere⟩

/-- An allowed call keeps the state sound, can be answered as it is, and makes known only
what is stored. -/
structure Executed (rkyv : Rkyv B) (mode : SyncMode) (s : KvEngine B) (known : Known)
    (op : Effect B) (r : op.Ret) (s' : KvEngine B) : Prop where
  sound : Sound rkyv mode s'
  kept : ∀ path n, Present s path n → Present s' path n
  possible : (publishProtocol rkyv mode).possible known op r
  known : ∀ path n, (publishProtocol rkyv mode).next known op r path n → Present s' path n

namespace Sound

variable {rkyv : Rkyv B} {mode : SyncMode} {s : KvEngine B} {known : Known}

/-- Versions listed by a record in the cache or on disk are stored. -/
theorem found (h : Sound rkyv mode s) (hknown : ∀ path n, known path n → Present s path n)
    {key : String} {found : Option B} (hfound : found = s.cache key ∨ found = s.rocksdb key) :
    ∀ path n, known.found rkyv key found path n → Present s path n := by
  intro path n hpath
  cases found with
  | none => exact hknown path n hpath
  | some b =>
    rcases hpath with hpath | hlisted
    · exact hknown path n hpath
    · rcases hfound with hcache | hdisk
      · exact h.cached key b path n hcache.symm hlisted
      · exact h.present (h.rocksdb key b path n hdisk.symm hlisted)

/-- A payload is stored once its put has been accepted. -/
theorem wrote {s' : KvEngine B} {key : String}
    (hsettled : s'.settled = (AsyncOp.put key b).apply s.settled)
    (hknown : ∀ path n, known path n → Present s path n) :
    (∀ path n, Present s path n → Present s' path n) ∧
      ∀ path n, known.wrote key path n → Present s' path n := by
  have hkept : ∀ path n, Present s path n → Present s' path n := by
    intro path n hthere
    unfold Present at hthere ⊢
    rw [hsettled]
    exact put_apply_ne_none b hthere
  refine ⟨hkept, ?_⟩
  rintro path n (hpath | rfl)
  · exact hkept path n (hknown path n hpath)
  · unfold Present
    rw [hsettled]
    change (AsyncOp.put (buildVersionKey path n) b).apply s.settled
      (AsyncOp.put (buildVersionKey path n) b).key ≠ none
    rw [AsyncOp.apply_key]
    exact nofun

theorem exec (h : Sound rkyv mode s) (hknown : ∀ path n, known path n → Present s path n)
    {op : Effect B} (hallowed : (publishProtocol rkyv mode).allowed known op) (c : Choice) :
    Executed rkyv mode s known op (s.exec op c).1 (s.exec op c).2 := by
  obtain ⟨error, now⟩ := c
  cases op with
  | cacheLookup key =>
    exact ⟨h, fun _ _ hthere => hthere, trivial, h.found hknown (Or.inl rfl)⟩
  | cacheInsert key b =>
    exact ⟨h.insert fun path n hlisted => hknown path n (hallowed path n hlisted),
      fun _ _ hthere => hthere, trivial, hknown⟩
  | cacheRemove key => exact ⟨h.remove key, fun _ _ hthere => hthere, trivial, hknown⟩
  | getRaw key =>
    cases error with
    | some e => exact ⟨h, fun _ _ hthere => hthere, trivial, hknown⟩
    | none =>
      refine ⟨h, fun _ _ hthere => hthere, ?_, h.found hknown (Or.inr rfl)⟩
      change (publishProtocol rkyv mode).possible known (.getRaw key)
        (.ok (s.rocksdb key) : Except String (Option B))
      cases hdisk : s.rocksdb key with
      | some b => trivial
      | none =>
        rintro himmediate path n hpath rfl
        have hthere := hknown path n hpath
        unfold Present at hthere
        rw [h.settled_eq himmediate] at hthere
        exact hthere hdisk
  | putRaw key b =>
    obtain ⟨himmediate, hpublishable⟩ := hallowed
    cases error with
    | some e => exact ⟨h, fun _ _ hthere => hthere, trivial, hknown⟩
    | none =>
      obtain ⟨hqueue, hbatch⟩ := h.direct himmediate
      have hsettled : KvEngine.settled { s with rocksdb := (AsyncOp.put key b).apply s.rocksdb } =
          (AsyncOp.put key b).apply s.settled :=
        s.settled_write (by simp [KvEngine.pending, hqueue, hbatch])
      obtain ⟨hkept, hwrote⟩ := wrote hsettled hknown
      exact ⟨h.write himmediate fun path n hlisted => hknown path n (hpublishable path n hlisted),
        hkept, trivial, hwrote⟩
  | delRaw key => exact hallowed.elim
  | enqueue op =>
    cases op with
    | delete key => exact hallowed.elim
    | put key b =>
      obtain ⟨hbatch, hpublishable⟩ := hallowed
      change Executed rkyv mode s known _ (if _ then _ else _ : _ × _).1
        (if _ then _ else _ : _ × _).2
      split
      · obtain ⟨hkept, hwrote⟩ := wrote (s.settled_enqueue (.put key b)) hknown
        exact ⟨h.enqueue hbatch fun path n hlisted => hknown path n (hpublishable path n hlisted),
          hkept, nofun, hwrote⟩
      · exact ⟨h, fun _ _ hthere => hthere, nofun, hknown⟩
  | getSyncMode => exact ⟨h, fun _ _ hthere => hthere, h.fixed, hknown⟩
  | nowMs => exact ⟨h, fun _ _ hthere => hthere, trivial, hknown⟩
  | insertPathIfAbsent path =>
    exact ⟨⟨h.fixed, h.direct, h.puts, h.disk, h.cached⟩, fun _ _ hthere => hthere, trivial,
      hknown⟩

end Sound

/-! ## Runs -/

section Runs

variable [DecidableEq Tid]

/-- What every client in a call may rely on. -/
def knownTo (rkyv : Rkyv B) (mode : SyncMode) (p : Clients B Tid) (t : Tid) : Known :=
  (publishProtocol rkyv mode).after (fun _ _ => False) (callTrace t p.log)

structure Publishing (rkyv : Rkyv B) (mode : SyncMode) (p : Clients B Tid) : Prop where
  sound : Sound rkyv mode p.shared
  tracked : Tracked (publishProtocol rkyv mode) (fun _ => Unmissed mode) (fun _ _ => False) p
  known : ∀ t path n, knownTo rkyv mode p t path n → Present p.shared path n
  answered : ∀ t c r, .respond t c r ∈ p.log → mode = .immediate → r ≠ missingPayload

namespace Publishing

variable {rkyv : Rkyv B} {mode : SyncMode} {p : Clients B Tid}

theorem opened (hdb : Complete rkyv db) (mode : SyncMode) (paths : List String) :
    Publishing rkyv mode (Clients.opened db mode paths : Clients B Tid) where
  sound := by
    refine ⟨rfl, fun _ => ⟨rfl, rfl⟩, nofun, ?_, nofun⟩
    intro done rest hsplit
    obtain ⟨rfl, _⟩ := List.append_eq_nil_iff.mp hsplit.symm
    exact hdb
  tracked := tracked_init _
  known _ _ _ h := h.elim
  answered := nofun

theorem invoke (h : Publishing rkyv mode p) (hrkyv : rkyv.Faithful) (hc : c.Keeps) (t : Tid) :
    Publishing rkyv mode
      ⟨p.shared, p.setClient t (some (c, body rkyv c)), .invoke t c :: p.log⟩ where
  sound := h.sound
  tracked := by
    refine h.tracked.invoke ?_ t
    rw [body_eq_run]
    exact (backed_script hrkyv hc _).follows
  known t' path n hpath := by
    unfold knownTo callTrace at hpath
    split at hpath
    · exact hpath.elim
    · exact h.known t' path n hpath
  answered t' c' r hlog := by
    rcases List.mem_cons.mp hlog with heq | hlog
    · cases heq
    · exact h.answered t' c' r hlog

theorem act (h : Publishing rkyv mode p) {t : Tid} {op : Effect B} {k : op.Ret → EngineM B Out}
    (hclient : p.client t = some (c, .call op k)) (choice : Choice) :
    Publishing rkyv mode
      ⟨(p.shared.exec op choice).2, p.setClient t (some (c, k (p.shared.exec op choice).1)),
        .act t op (p.shared.exec op choice).1 :: p.log⟩ := by
  have hexec := h.sound.exec (h.known t) (h.tracked t c _ hclient).1 choice
  refine ⟨hexec.sound, h.tracked.act hclient hexec.possible, ?_, ?_⟩
  · intro t' path n hpath
    unfold knownTo callTrace at hpath
    split at hpath
    · next ht =>
      subst ht
      exact hexec.known path n hpath
    · exact hexec.kept path n (h.known t' path n hpath)
  · intro t' c' r hlog
    rcases List.mem_cons.mp hlog with heq | hlog
    · cases heq
    · exact h.answered t' c' r hlog

theorem respond (h : Publishing rkyv mode p) {t : Tid} {r : Except EngineError Out}
    (hclient : p.client t = some (c, .done r)) :
    Publishing rkyv mode ⟨p.shared, p.setClient t none, .respond t c r :: p.log⟩ where
  sound := h.sound
  tracked := h.tracked.respond t c r
  known := h.known
  answered t' c' r' hlog := by
    rcases List.mem_cons.mp hlog with heq | hlog
    · cases heq
      exact h.tracked.returns hclient
    · exact h.answered t' c' r' hlog

theorem env (h : Publishing rkyv mode p) {e : EnvStep}
    (he : KeepingStep mode (.env e : Step B Tid)) :
    Publishing rkyv mode ⟨p.shared.env e, p.client, .env e :: p.log⟩ where
  sound := (h.sound.env he).1
  tracked := h.tracked.env _ e
  known t path n hpath := (h.sound.env he).2 path n (h.known t path n hpath)
  answered t c r hlog := by
    rcases List.mem_cons.mp hlog with heq | hlog
    · cases heq
    · exact h.answered t c r hlog

end Publishing

/-- The versions that a metadata record lists have their payloads in RocksDB. -/
def Covers (rkyv : Rkyv B) (records payloads : String → Option B) : Prop :=
  ∀ path b, records (buildMetaKey path) = some b → ∀ v ∈ (rkyv.archivedMetadata b).versions,
    ∃ x, payloads (buildVersionKey path v.versionId) = some x

/-- Metadata is published after the payloads it names. -/
structure PayloadsFirst (rkyv : Rkyv B) (mode : SyncMode) (p : Clients B Tid) : Prop where
  disk : Covers rkyv p.shared.rocksdb p.shared.rocksdb
  cached : mode = .immediate → Covers rkyv p.shared.cache p.shared.rocksdb
  answered : mode = .immediate → ∀ t path version,
    .respond t (.readVersion path version)
      (.error (.storageError "Missing version payload")) ∉ p.log

theorem Publishing.payloadsFirst {rkyv : Rkyv B} {mode : SyncMode} {p : Clients B Tid}
    (h : Publishing rkyv mode p) : PayloadsFirst rkyv mode p where
  disk path b hb v hv :=
    Option.ne_none_iff_exists'.mp
      (h.sound.rocksdb (buildMetaKey path) b path v.versionId hb ⟨rfl, v, hv, rfl⟩)
  cached himmediate path b hb v hv := by
    have hthere := h.sound.cached (buildMetaKey path) b path v.versionId hb ⟨rfl, v, hv, rfl⟩
    unfold Present at hthere
    rw [h.sound.settled_eq himmediate] at hthere
    exact Option.ne_none_iff_exists'.mp hthere
  answered himmediate t path version hlog := h.answered t _ _ hlog himmediate rfl

/-- Clients that destroy nothing publish metadata after payloads only, in one mode, from
any database in which that holds. -/
theorem run_payloadsFirst {rkyv : Rkyv B} (hrkyv : rkyv.Faithful) (mode : SyncMode)
    {db : String → Option B} (hdb : Covers rkyv db db) (paths : List String)
    (labels : List (Step B Tid)) (hsteps : ∀ l ∈ labels, KeepingStep mode l) :
    PayloadsFirst rkyv mode ((Clients.opened db mode paths).run (body rkyv) labels) := by
  have hcomplete : Complete rkyv db := by
    rintro key b path n hb ⟨rfl, v, hv, rfl⟩
    exact Option.ne_none_iff_exists'.mpr (hdb path b hb v hv)
  have hinv : Publishing rkyv mode ((Clients.opened db mode paths).run (body rkyv) labels) := by
    refine Pool.run_invariant ?_ ?_ ?_ ?_ (Publishing.opened hcomplete mode paths)
      (Along.of_forall _ hsteps)
    · exact fun p t c h hc _ => h.invoke hrkyv hc t
    · exact fun p t choice c op k h _ hclient => h.act hclient choice
    · exact fun p t c r h _ hclient => h.respond hclient
    · exact fun p e h he => h.env he
  exact hinv.payloadsFirst

end Runs

/-! ## Racing clients -/

instance (c : Call) : Decidable c.Keeps :=
  match c with
  | .readMetadata _ => .isTrue trivial
  | .readVersion _ _ => .isTrue trivial
  | .putVersion _ _ _ => .isTrue trivial
  | .softDelete _ _ => .isTrue trivial
  | .undelete _ _ => .isTrue trivial
  | .destroyVersion _ _ => .isFalse id

instance (mode : SyncMode) (l : Step B Tid) : Decidable (KeepingStep mode l) :=
  match l with
  | .invoke _ c => inferInstanceAs (Decidable c.Keeps)
  | .act _ _ => .isTrue trivial
  | .respond _ => .isTrue trivial
  | .env (.dropEntry _) => .isTrue trivial
  | .env (.worker _ fails) => inferInstanceAs (Decidable (mode = .immediate ∨ fails = false))
  | .env (.changeSyncMode _) => .isFalse id
  | .env .stop => .isTrue trivial

/-- A put whose metadata write fails, a second put of the same version, and a read. -/
def failingPut : List (Step Record Bool) :=
  List.flatten [
    calling false (.putVersion "p" ⟨"x", 0⟩ none) 6,
    requesting true (.putVersion "p" ⟨"y", 0⟩ none) 10,
    [.act false (.at 1), .act false ⟨some "disk full", 1⟩, .respond false],
    [.env (.dropEntry "m:p")],
    requesting true (.readVersion "p" 0) 4]

theorem run_payloadsFirst_failingPut :
    (∀ l ∈ failingPut, KeepingStep .immediate l) ∧
      PayloadsFirst Record.rkyv .immediate
        ((Clients.opened (fun _ => none) .immediate []).run (body Record.rkyv) failingPut) := by
  have hsteps : ∀ l ∈ failingPut, KeepingStep .immediate l := by decide
  have hempty : Covers Record.rkyv (fun _ => none) fun _ => none := by
    intro path b hb
    cases hb
  exact ⟨hsteps, run_payloadsFirst Record.rkyv_faithful .immediate hempty [] _ hsteps⟩

end Kallisto.Engine
