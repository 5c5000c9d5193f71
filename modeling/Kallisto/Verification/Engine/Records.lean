import Kallisto.Verification.Engine.Pending
import Kallisto.Verification.Engine.Scripts

/-! # Facts about every record

A fact that holds of every record that requests make from records of which it holds is
true of all records in the cache, in RocksDB and among the pending writes, under every
schedule and every failure. -/

namespace Kallisto.Engine

open Program

variable {B : Type} {P : String → B → Prop} {M : String → Prop}

/-! ## Calls and records -/

def AsyncOp.Meets (P : String → B → Prop) (op : AsyncOp B) : Prop :=
  ∀ b, op.value = some b → P op.key b

structure KvEngine.Meets (P : String → B → Prop) (s : KvEngine B) : Prop where
  cache : ∀ key b, s.cache key = some b → P key b
  rocksdb : ∀ key b, s.rocksdb key = some b → P key b
  pending : ∀ op ∈ s.pending, op.Meets P

/-- Only records that meet the fact are put anywhere, and only such are found. RocksDB reports
errors of the given kind. -/
def recordProtocol (P : String → B → Prop) (M : String → Prop) :
    Protocol (Effect.Ret (B := B)) Unit where
  allowed _
    | .cacheInsert key b => P key b
    | .putRaw key b => P key b
    | .enqueue op => op.Meets P
    | _ => True
  possible _
    | .cacheLookup key, (found : Option B) => ∀ b, found = some b → P key b
    | .getRaw key, (found : Except String (Option B)) =>
      (∀ b, found = .ok (some b) → P key b) ∧ ∀ e, found = .error e → M e
    | .putRaw _ _, (r : Except String Unit) => ∀ e, r = .error e → M e
    | .delRaw _, (r : Except String Unit) => ∀ e, r = .error e → M e
    | _, _ => True
  next _ _ _ := ()

variable {op : AsyncOp B}

theorem AsyncOp.Meets.apply {db : String → Option B} (hop : op.Meets P)
    (hdb : ∀ key b, db key = some b → P key b) : ∀ key b, op.apply db key = some b → P key b := by
  intro key b h
  by_cases hkey : key = op.key
  · subst hkey
    rw [AsyncOp.apply_key] at h
    exact hop b h
  · rw [AsyncOp.apply_of_ne db hkey] at h
    exact hdb key b h

theorem meets_applyBatch {ops : List (AsyncOp B)} :
    ∀ {db : String → Option B}, (∀ op ∈ ops, op.Meets P) →
      (∀ key b, db key = some b → P key b) →
        ∀ key b, applyBatch db ops key = some b → P key b := by
  induction ops with
  | nil => exact fun _ hdb => hdb
  | cons op ops ih =>
    exact fun hops hdb => ih (fun op' hop' => hops op' (List.mem_cons_of_mem op hop'))
      ((hops op List.mem_cons_self).apply hdb)

variable {s : KvEngine B}

theorem KvEngine.Meets.flush (h : s.Meets P) (fails : Bool) : (s.flush fails).Meets P where
  cache := h.cache
  rocksdb key b hb := by
    cases fails with
    | true => exact h.rocksdb key b hb
    | false =>
      exact meets_applyBatch (fun op hop => h.pending op (List.mem_append_left _ hop)) h.rocksdb
        key b hb
  pending op hop := h.pending op (List.mem_append_right _ hop)

theorem KvEngine.Meets.take (h : s.Meets P) {rest : List (AsyncOp B)}
    (hqueue : s.asyncQueue = op :: rest) (pc : WorkerPc) :
    KvEngine.Meets P { s with asyncQueue := rest, batch := s.batch ++ [op], worker := pc } where
  cache := h.cache
  rocksdb := h.rocksdb
  pending op' hop' := h.pending op' (by rwa [KvEngine.pending_take hqueue pc] at hop')

theorem KvEngine.Meets.workerStep (h : s.Meets P) (timeout fails : Bool) :
    (s.workerStep timeout fails).Meets P := by
  rw [KvEngine.workerStep_eq]
  split
  · exact ⟨h.cache, h.rocksdb, h.pending⟩
  · split
    · exact ⟨h.cache, h.rocksdb, h.pending⟩
    · next op rest hqueue => exact h.take hqueue .settle
  · split
    · have hflush := h.flush fails
      exact ⟨hflush.cache, hflush.rocksdb, hflush.pending⟩
    · exact ⟨h.cache, h.rocksdb, h.pending⟩
  · split
    · have hflush := h.flush fails
      exact ⟨hflush.cache, hflush.rocksdb, hflush.pending⟩
    · next op rest hqueue => exact h.take hqueue s.worker
  · exact h

theorem KvEngine.Meets.env (h : s.Meets P) (e : EnvStep) : (s.env e).Meets P := by
  cases e with
  | dropEntry key =>
    refine ⟨fun key' b hb => ?_, h.rocksdb, h.pending⟩
    change Function.update s.cache key none key' = some b at hb
    rw [Function.update_apply] at hb
    split at hb
    · cases hb
    · exact h.cache key' b hb
  | worker timeout fails => exact h.workerStep timeout fails
  | changeSyncMode mode => exact ⟨h.cache, h.rocksdb, h.pending⟩
  | stop => exact ⟨h.cache, h.rocksdb, h.pending⟩

/-- A direct write. -/
theorem KvEngine.Meets.write (h : s.Meets P) (choice : Choice) (hop : op.Meets P) :
    (s.write choice op).2.Meets P := by
  unfold KvEngine.write
  split
  · exact h
  · exact ⟨h.cache, hop.apply h.rocksdb, h.pending⟩

theorem KvEngine.Meets.update (h : s.Meets P) {key : String} {value : Option B}
    (hvalue : ∀ b, value = some b → P key b) :
    KvEngine.Meets P { s with cache := Function.update s.cache key value } := by
  refine ⟨fun key' b hb => ?_, h.rocksdb, h.pending⟩
  change Function.update s.cache key value key' = some b at hb
  rw [Function.update_apply] at hb
  split at hb
  · next heq => exact heq ▸ hvalue b hb
  · exact h.cache key' b hb

theorem KvEngine.write_error {choice : Choice} {e : String}
    (h : (s.write choice op).1 = .error e) : choice.error = some e := by
  unfold KvEngine.write at h
  split at h
  · next e' he => rw [he, Except.error.inj h]
  · cases h

/-- The calls of the protocol keep the fact. -/
theorem KvEngine.Meets.exec (h : s.Meets P) (op : Effect B) {choice : Choice}
    (hallowed : (recordProtocol P M).allowed () op) (hchoice : ∀ e, choice.error = some e → M e) :
    (recordProtocol P M).possible () op (s.exec op choice).1 ∧ (s.exec op choice).2.Meets P := by
  cases op with
  | cacheLookup key => exact ⟨h.cache key, h⟩
  | cacheInsert key payload => exact ⟨trivial, h.update fun b hb => Option.some.inj hb ▸ hallowed⟩
  | cacheRemove key => exact ⟨trivial, h.update nofun⟩
  | getRaw key =>
    obtain ⟨_ | e, now⟩ := choice
    · exact ⟨⟨fun b hb => h.rocksdb key b (Except.ok.inj hb), nofun⟩, h⟩
    · exact ⟨⟨nofun, fun e' he' => Except.error.inj he' ▸ hchoice e rfl⟩, h⟩
  | putRaw key value =>
    exact ⟨fun e he => hchoice e (KvEngine.write_error he),
      h.write choice fun b hb => Option.some.inj hb ▸ hallowed⟩
  | delRaw key => exact ⟨fun e he => hchoice e (KvEngine.write_error he), h.write choice nofun⟩
  | enqueue op =>
    refine ⟨trivial, ?_⟩
    simp only [KvEngine.exec]
    split
    · refine ⟨h.cache, h.rocksdb, fun op' hop' => ?_⟩
      rw [KvEngine.pending, ← List.append_assoc] at hop'
      rcases List.mem_append.mp hop' with hop' | hop'
      · exact h.pending op' hop'
      · rw [List.mem_singleton.mp hop']
        exact hallowed
    · exact h
  | getSyncMode => exact ⟨trivial, h⟩
  | nowMs => exact ⟨trivial, h⟩
  | insertPathIfAbsent path => exact ⟨trivial, h.cache, h.rocksdb, h.pending⟩

/-! ## Scripts under contract -/

/-- What the script writes meets `P` and its result meets `F`, if what it reads meets `P`. -/
def Script.Keeps (P : String → B → Prop) (F : Except EngineError Out → Prop) : Script B → Prop
  | .finish r => F r
  | .read key k => ∀ found, (∀ b, found = some b → P key b) → (k found).Keeps P F
  | .clock k => ∀ now, (k now).Keeps P F
  | .write op next => op.Meets P ∧ next.Keeps P F
  | .register _ next => next.Keeps P F

/-- The script may end with the errors of the storage and of the queue. -/
structure AllowsTrouble (M : String → Prop) (F : Except EngineError Out → Prop) : Prop where
  get : ∀ e, M e → F (.error (.storageError ("RocksDB get error: " ++ e)))
  put : ∀ e, M e → F (.error (.storageError ("Immediate write failed: " ++ e)))
  delete : ∀ e, M e → F (.error (.storageError ("Immediate delete failed: " ++ e)))
  queueFull : F (.error .queueFull)

section Keeps

variable {F : Except EngineError Out → Prop}

theorem follows_readRawOptimistic (hF : AllowsTrouble M F) {key : String}
    {k : Option B → EngineM B Out} (h : ∀ found, (∀ b, found = some b → P key b) →
      Follows (recordProtocol P M) (fun _ => F) () (k found)) :
    Follows (recordProtocol P M) (fun _ => F) () (readRawOptimistic key id >>= k) := by
  refine ⟨trivial, fun found hfound => ?_⟩
  cases found with
  | some b => exact h (some b) hfound
  | none =>
    refine ⟨trivial, fun disk hdisk => ?_⟩
    rcases disk with e | (_ | b)
    · exact hF.get e (hdisk.2 e rfl)
    · exact h none nofun
    · have hb := hdisk.1 b rfl
      exact ⟨hb, fun _ _ => h (some b) fun b' hb' => Option.some.inj hb' ▸ hb⟩

theorem follows_enqueueOrExecute_meets (hF : AllowsTrouble M F) {k : Unit → EngineM B Out}
    (hop : op.Meets P) (h : Follows (recordProtocol P M) (fun _ => F) () (k ())) :
    Follows (recordProtocol P M) (fun _ => F) () (enqueueOrExecute op >>= k) := by
  refine ⟨trivial, fun mode _ => ?_⟩
  cases mode with
  | immediate =>
    cases op with
    | put key value =>
      refine ⟨hop value rfl, fun r hr => ?_⟩
      cases r with
      | error e => exact hF.put e (hr e rfl)
      | ok u => exact h
    | delete key =>
      refine ⟨trivial, fun r hr => ?_⟩
      cases r with
      | error e => exact hF.delete e (hr e rfl)
      | ok u => exact h
  | batch =>
    refine ⟨hop, fun r _ => ?_⟩
    rcases r with (_ | _) | u
    · exact hF.queueFull
    · exact h
    · exact h

theorem Script.Keeps.follows (hF : AllowsTrouble M F) {sc : Script B} (h : sc.Keeps P F) :
    Follows (recordProtocol P M) (fun _ => F) () sc.run := by
  induction sc with
  | finish r => exact h
  | read key k ih => exact follows_readRawOptimistic hF fun found hfound => ih found (h found hfound)
  | clock k ih => exact ⟨trivial, fun now _ => ih now (h now)⟩
  | write op next ih =>
    refine follows_enqueueOrExecute_meets hF h.1 ?_
    cases op with
    | put key value => exact ⟨h.1 value rfl, fun _ _ => ih h.2⟩
    | delete key => exact ⟨trivial, fun _ _ => ih h.2⟩
  | register path next ih => exact ⟨trivial, fun _ _ => ih h⟩

end Keeps

/-! ## Metadata and payloads -/

/-- A fact about records that follows from facts about the metadata and the payloads of paths, and
those from it. The changes that requests make keep them. -/
structure Upkeep (rkyv : Rkyv B) (P : String → B → Prop) (Q : String → KeyMetadata → Prop)
    (S : String → SecretPayload → Prop) : Prop where
  default : ∀ path, Q path .default
  grown : ∀ path m created, Q path m → Q path (m.grown created)
  updated : ∀ path m version (f : VersionState → VersionState),
    (∀ v, (f v).versionId = v.versionId) → Q path m → Q path (m.updated version f)
  metadata : ∀ path b, P (buildMetaKey path) b → Q path (deserializeMetadata rkyv b)
  storeMetadata : ∀ path m b, Q path m → rkyv.metadataToBytes m = .ok b → P (buildMetaKey path) b
  payload : ∀ path n b, P (buildVersionKey path n) b → S path (rkyv.archivedPayload b)
  storePayload : ∀ path n x b, S path x → rkyv.payloadToBytes x = .ok b →
    P (buildVersionKey path n) b

/-- The texts of the engine's storage errors, around the errors of RocksDB and of the encoding. -/
structure Texts (rkyv : Rkyv B) (M T : String → Prop) : Prop where
  get : ∀ e, M e → T ("RocksDB get error: " ++ e)
  put : ∀ e, M e → T ("Immediate write failed: " ++ e)
  delete : ∀ e, M e → T ("Immediate delete failed: " ++ e)
  metadata : ∀ m e, rkyv.metadataToBytes m = .error e → T ("Metadata serialization failed: " ++ e)
  payload : ∀ x e, rkyv.payloadToBytes x = .error e → T ("Payload serialization failed: " ++ e)
  missing : T "Missing version payload"

theorem Texts.any (rkyv : Rkyv B) (M : String → Prop) : Texts rkyv M fun _ => True where
  get _ _ := trivial
  put _ _ := trivial
  delete _ _ := trivial
  metadata _ _ _ := trivial
  payload _ _ _ := trivial
  missing := trivial

/-- The text of an error, if it has one. -/
def EngineError.Tells (T : String → Prop) (e : EngineError) : Prop :=
  ∀ text, e = .storageError text → T text

theorem tells_storageError {T : String → Prop} {text : String} (h : T text) :
    (EngineError.storageError text).Tells T :=
  fun _ heq => EngineError.storageError.inj heq ▸ h

/-- What requests return: metadata and payloads of their paths, or errors with such texts. -/
def Belongs (Q : String → KeyMetadata → Prop) (S : String → SecretPayload → Prop)
    (T : String → Prop) : Call → Except EngineError Out → Prop
  | .readMetadata path, .ok (.metadata m) => Q path m
  | .readVersion path _, .ok (.version x _) => S path x
  | _, .error e => e.Tells T
  | _, _ => True

section Scripts

variable {rkyv : Rkyv B} {Q : String → KeyMetadata → Prop} {S : String → SecretPayload → Prop}
  {T : String → Prop} {c : Call} {path : String}

theorem belongs_error {e : EngineError} : Belongs Q S T c (.error e) ↔ e.Tells T := by
  cases c <;> exact Iff.rfl

theorem allowsTrouble_belongs (htexts : Texts rkyv M T) (c : Call) :
    AllowsTrouble M (Belongs Q S T c) where
  get e he := belongs_error.mpr (tells_storageError (htexts.get e he))
  put e he := belongs_error.mpr (tells_storageError (htexts.put e he))
  delete e he := belongs_error.mpr (tells_storageError (htexts.delete e he))
  queueFull := belongs_error.mpr nofun

theorem keeps_readMetadataScript (hP : Upkeep rkyv P Q S) {k : KeyMetadata → Script B}
    (hk : ∀ m, Q path m → (k m).Keeps P (Belongs Q S T c)) :
    (readMetadataScript rkyv path k).Keeps P (Belongs Q S T c) := by
  intro found hfound
  cases found with
  | none => exact belongs_error.mpr nofun
  | some b => exact hk _ (hP.metadata path b (hfound b rfl))

theorem keeps_storeMetadataScript (hP : Upkeep rkyv P Q S) (htexts : Texts rkyv M T)
    {m : KeyMetadata} (hm : Q path m) {next : Script B} (hnext : next.Keeps P (Belongs Q S T c)) :
    (storeMetadataScript rkyv path m next).Keeps P (Belongs Q S T c) := by
  unfold storeMetadataScript
  cases hbytes : rkyv.metadataToBytes m with
  | error e => exact belongs_error.mpr (tells_storageError (htexts.metadata m e hbytes))
  | ok bytes =>
    exact ⟨fun b hb => Option.some.inj hb ▸ hP.storeMetadata path m bytes hm hbytes, hnext⟩

theorem keeps_putVersionScript (hP : Upkeep rkyv P Q S) (htexts : Texts rkyv M T)
    {x : SecretPayload} (hx : S path x) (cas : Option UInt32) :
    (putVersionScript rkyv path x cas).Keeps P (Belongs Q S T (.putVersion path x cas)) := by
  intro found hfound
  have hm : Q path ((found.map (deserializeMetadata rkyv)).getD .default) := by
    cases found with
    | none => exact hP.default path
    | some b => exact hP.metadata path b (hfound b rfl)
  have happend : (appendVersionScript rkyv path x ((found.map (deserializeMetadata rkyv)).getD
      .default)).Keeps P (Belongs Q S T (.putVersion path x cas)) := by
    intro created
    cases hbytes : rkyv.payloadToBytes x with
    | error e => exact tells_storageError (htexts.payload x e hbytes)
    | ok bytes =>
      refine ⟨fun b hb => Option.some.inj hb ▸ hP.storePayload path _ x bytes hx hbytes, ?_⟩
      exact keeps_storeMetadataScript hP htexts (hP.grown path _ created hm) trivial
  dsimp only
  unfold checkCasScript
  split
  · split
    · exact nofun
    · exact happend
  · exact happend

theorem keeps_readVersionScript (hP : Upkeep rkyv P Q S) (htexts : Texts rkyv M T)
    (version : UInt32) :
    (readVersionScript rkyv path version).Keeps P (Belongs Q S T (.readVersion path version)) := by
  intro found _
  cases found with
  | none => exact nofun
  | some bytes =>
    dsimp only
    split
    · exact nofun
    · split
      · exact nofun
      · split
        · exact nofun
        · split
          · exact nofun
          · intro payload hpayload
            cases payload with
            | none => exact tells_storageError htexts.missing
            | some b => exact hP.payload path _ b (hpayload b rfl)

/-- Every request writes records that meet the fact and returns what belongs to its path, if what
it puts does. -/
theorem script_keeps (hP : Upkeep rkyv P Q S) (htexts : Texts rkyv M T) (c : Call)
    (hput : ∀ path x cas, c = .putVersion path x cas → S path x) :
    (script rkyv c).Keeps P (Belongs Q S T c) := by
  have hupdated : ∀ {path : String} {m : KeyMetadata} {version : UInt32}
      {f : VersionState → VersionState}, (∀ v, (f v).versionId = v.versionId) → Q path m →
      Belongs Q S T c (.ok .unit) → (storeMetadataScript rkyv path (m.updated version f)
        (.finish (.ok .unit))).Keeps P (Belongs Q S T c) :=
    fun hf hm hok => keeps_storeMetadataScript hP htexts (hP.updated _ _ _ _ hf hm) hok
  cases c with
  | readMetadata path =>
    unfold script
    exact keeps_readMetadataScript hP fun m hm => hm
  | readVersion path version => exact keeps_readVersionScript hP htexts version
  | putVersion path x cas => exact keeps_putVersionScript hP htexts (hput path x cas rfl) cas
  | softDelete path version =>
    unfold script softDeleteScript
    refine keeps_readMetadataScript hP fun m hm => ?_
    split
    · exact nofun
    · exact fun now => hupdated (fun _ => rfl) hm trivial
  | undelete path version =>
    unfold script undeleteScript
    refine keeps_readMetadataScript hP fun m hm => ?_
    split
    · exact nofun
    · split
      · exact nofun
      · exact hupdated (fun _ => rfl) hm trivial
  | destroyVersion path version =>
    unfold script destroyVersionScript
    refine keeps_readMetadataScript hP fun m hm => ?_
    split
    · exact nofun
    · exact ⟨nofun, hupdated (fun _ => rfl) hm trivial⟩

theorem body_keeps (hP : Upkeep rkyv P Q S) (htexts : Texts rkyv M T) (c : Call)
    (hput : ∀ path x cas, c = .putVersion path x cas → S path x) :
    Follows (recordProtocol P M) (fun _ => Belongs Q S T c) () (body rkyv c) := by
  rw [body_eq_run]
  exact (script_keeps hP htexts c hput).follows (allowsTrouble_belongs htexts c)

end Scripts

end Kallisto.Engine
