import Mathlib.Data.List.Nodup
import Kallisto.Verification.Engine.BatchMode
import Kallisto.Verification.Engine.Durability
import Kallisto.Verification.Engine.Mirror

/-! # Crash consistency in batch mode

The payload of a version that is not destroyed is on disk whenever its metadata is, as
long as no batch ends between the two writes of a destroy. -/

namespace Kallisto.Engine

open Program Interleaving

variable {B : Type} {v : VersionState} {m : KeyMetadata} {s : KvEngine B}

/-! ## Intact records -/

/-- The versions of a record have different numbers, and those not destroyed have their
payloads. -/
structure Intact (records : String → Option B) (path : String) (m : KeyMetadata) : Prop where
  distinct : (m.versions.map VersionState.versionId).Nodup
  numbered : ∀ v ∈ m.versions, v.versionId ≠ 0 ∧ v.versionId ≤ m.currentVersion
  live : ∀ v ∈ m.versions, v.destroyed = false → records (buildVersionKey path v.versionId) ≠ none

/-- All metadata records are intact. -/
def AllIntact (rkyv : Rkyv B) (records : String → Option B) : Prop :=
  ∀ path b, records (buildMetaKey path) = some b → Intact records path (rkyv.archivedMetadata b)

section Records

variable {rkyv : Rkyv B} {records records' : String → Option B} {path : String} {m : KeyMetadata}
  {n : UInt32} {f : VersionState → VersionState}

theorem Intact.keeps (h : Intact records path m)
    (hkeeps : ∀ n, records (buildVersionKey path n) ≠ none → records' (buildVersionKey path n) ≠ none) :
    Intact records' path m :=
  ⟨h.distinct, h.numbered, fun v hv hlive => hkeeps _ (h.live v hv hlive)⟩

/-- A payload may be added. -/
theorem AllIntact.putPayload (h : AllIntact rkyv records) (path : String) (n : UInt32) (b : B) :
    AllIntact rkyv ((AsyncOp.put (buildVersionKey path n) b).apply records) := by
  intro path' b' hb'
  rw [AsyncOp.apply_of_ne _ (buildMetaKey_ne_buildVersionKey path' path n)] at hb'
  exact (h path' b' hb').keeps fun n' => put_apply_ne_none b

/-- A record may be replaced by one that is intact beside the others. -/
theorem AllIntact.putMetadata
    (h : ∀ path' b, path' ≠ path → records (buildMetaKey path') = some b →
      Intact records path' (rkyv.archivedMetadata b))
    {b : B} (hm : Intact records path (rkyv.archivedMetadata b)) :
    AllIntact rkyv ((AsyncOp.put (buildMetaKey path) b).apply records) := by
  have hkeeps : ∀ path' n, records (buildVersionKey path' n) ≠ none →
      (AsyncOp.put (buildMetaKey path) b).apply records (buildVersionKey path' n) ≠ none :=
    fun path' n => put_apply_ne_none b
  intro path' b' hb'
  by_cases hpath : path' = path
  · subst hpath
    change (AsyncOp.put (buildMetaKey path') b).apply records
      (AsyncOp.put (buildMetaKey path') b).key = some b' at hb'
    rw [AsyncOp.apply_key] at hb'
    cases hb'
    exact hm.keeps (hkeeps path')
  · rw [AsyncOp.apply_of_ne _ fun heq => hpath (buildMetaKey_inj.mp heq)] at hb'
    exact (h path' b' hpath hb').keeps (hkeeps path')

/-- A put appends a version whose payload it has written. -/
theorem Intact.grown (h : Intact records path m) (hwrap : m.currentVersion + 1 ≠ 0)
    (created : UInt64) (hpayload : records (buildVersionKey path (m.currentVersion + 1)) ≠ none) :
    Intact records path (m.grown created) := by
  have hold : ∀ v ∈ m.versions, v.versionId < m.currentVersion + 1 :=
    fun v hv => UInt32.lt_of_le_of_lt (h.numbered v hv).2 (lt_next hwrap)
  refine ⟨?_, ?_, ?_⟩
  · change ((m.versions ++ [_]).map VersionState.versionId).Nodup
    rw [List.map_append, List.nodup_append]
    refine ⟨h.distinct, List.nodup_cons.mpr ⟨List.not_mem_nil, List.nodup_nil⟩, ?_⟩
    intro n hn n' hn' heq
    obtain ⟨v, hv, rfl⟩ := List.mem_map.mp hn
    rw [List.mem_singleton.mp hn'] at heq
    have hlt' := hold v hv
    rw [heq] at hlt'
    exact UInt32.lt_irrefl _ hlt'
  · intro v hv
    rcases List.mem_append.mp hv with hv | hv
    · exact ⟨(h.numbered v hv).1, UInt32.le_of_lt (hold v hv)⟩
    · rw [List.mem_singleton.mp hv]
      exact ⟨hwrap, UInt32.le_refl _⟩
  · intro v hv hlive
    rcases List.mem_append.mp hv with hv | hv
    · exact h.live v hv hlive
    · rw [List.mem_singleton.mp hv]
      exact hpayload

theorem mem_of_mem_updateVersion :
    ∀ {vs : List VersionState}, v ∈ updateVersion n f vs → v ∈ vs ∨ ∃ w ∈ vs, v = f w := by
  intro vs
  induction vs with
  | nil => exact fun h => Or.inl h
  | cons w vs ih =>
    intro h
    rw [updateVersion] at h
    split at h
    · rcases List.mem_cons.mp h with rfl | h
      · exact Or.inr ⟨w, List.mem_cons_self, rfl⟩
      · exact Or.inl (List.mem_cons_of_mem w h)
    · rcases List.mem_cons.mp h with rfl | h
      · exact Or.inl List.mem_cons_self
      · rcases ih h with h | ⟨u, hu, rfl⟩
        · exact Or.inl (List.mem_cons_of_mem w h)
        · exact Or.inr ⟨u, List.mem_cons_of_mem w hu, rfl⟩

/-- With different numbers, the version of the number is the changed one. -/
theorem changed_of_mem_updateVersion (hv : v.versionId = n) :
    ∀ {vs : List VersionState}, (vs.map VersionState.versionId).Nodup →
      v ∈ updateVersion n f vs → ∃ w, v = f w := by
  intro vs
  induction vs with
  | nil =>
    intro _ h
    cases h
  | cons w vs ih =>
    intro hdistinct h
    obtain ⟨hnot, hrest⟩ := List.nodup_cons.mp hdistinct
    rw [updateVersion] at h
    split at h
    · next hw =>
      rcases List.mem_cons.mp h with rfl | h
      · exact ⟨w, rfl⟩
      · rw [hw, ← hv] at hnot
        exact (hnot (List.mem_map_of_mem h)).elim
    · next hw =>
      rcases List.mem_cons.mp h with rfl | h
      · exact (hw hv).elim
      · exact ih hrest h

theorem numbered_of_map_eq {vs vs' : List VersionState}
    (hmap : vs'.map VersionState.versionId = vs.map VersionState.versionId)
    (h : ∀ v ∈ vs, v.versionId ≠ 0 ∧ v.versionId ≤ n) :
    ∀ v ∈ vs', v.versionId ≠ 0 ∧ v.versionId ≤ n := by
  intro v hv
  have hmem : v.versionId ∈ vs.map VersionState.versionId := by
    rw [← hmap]
    exact List.mem_map_of_mem hv
  obtain ⟨w, hw, hid⟩ := List.mem_map.mp hmem
  rw [← hid]
  exact h w hw

/-- A change that revives nothing. -/
theorem Intact.updated (h : Intact records path m) (n : UInt32)
    (hf : ∀ v, (f v).versionId = v.versionId) (hdestroyed : ∀ v, (f v).destroyed = v.destroyed) :
    Intact records path (m.updated n f) where
  distinct := by
    change ((updateVersion n f m.versions).map VersionState.versionId).Nodup
    rw [map_updateVersion hf]
    exact h.distinct
  numbered := numbered_of_map_eq (map_updateVersion hf m.versions) h.numbered
  live v hv hlive := by
    rcases mem_of_mem_updateVersion hv with hv | ⟨w, hw, rfl⟩
    · exact h.live v hv hlive
    · rw [hf]
      exact h.live w hw ((hdestroyed w).symm.trans hlive)

/-- A destroyed version does without its payload. -/
theorem Intact.destroyed (h : Intact records path m) (n : UInt32) :
    Intact ((AsyncOp.delete (buildVersionKey path n)).apply records) path
      (m.updated n fun v => { v with destroyed := true }) := by
  have hmap := map_updateVersion (n := n) (f := fun v => { v with destroyed := true })
    (fun _ => rfl) m.versions
  refine ⟨?_, numbered_of_map_eq hmap h.numbered, ?_⟩
  · exact hmap ▸ h.distinct
  · intro v hv hlive
    have hid : v.versionId ≠ n := by
      intro hid
      obtain ⟨w, rfl⟩ := changed_of_mem_updateVersion hid h.distinct hv
      cases hlive
    rw [AsyncOp.apply_of_ne _ fun heq => hid (buildVersionKey_inj.mp heq).2]
    rcases mem_of_mem_updateVersion hv with hv | ⟨w, hw, rfl⟩
    · exact h.live v hv hlive
    · cases hlive

/-- The payloads of other paths stay. -/
theorem AllIntact.other (h : AllIntact rkyv records) (n : UInt32) {path' : String} {b : B}
    (hpath : path' ≠ path)
    (hb : (AsyncOp.delete (buildVersionKey path n)).apply records (buildMetaKey path') = some b) :
    Intact ((AsyncOp.delete (buildVersionKey path n)).apply records) path'
      (rkyv.archivedMetadata b) := by
  rw [AsyncOp.apply_of_ne _ (buildMetaKey_ne_buildVersionKey path' path n)] at hb
  refine (h path' b hb).keeps fun n' hthere => ?_
  rwa [AsyncOp.apply_of_ne _ fun heq => hpath (buildVersionKey_inj.mp heq).1]

end Records

/-! ## Requests keep the records intact -/

def IsMeta (key : String) : Prop :=
  ∃ path, key = buildMetaKey path

/-- A put finds a version number that does not wrap around. -/
def Call.Fits (rkyv : Rkyv B) : Call → (String → Option B) → Prop
  | .putVersion path _ _, records =>
    ∀ b ∈ records (buildMetaKey path), (rkyv.archivedMetadata b).currentVersion + 1 ≠ 0
  | _, _ => True

/-- Every put leaves intact records, and so does the script at its end, as long as its writes
are made on records that meet the condition. -/
def Script.Safe (rkyv : Rkyv B) (fits : (String → Option B) → Prop) :
    Script B → (String → Option B) → Prop
  | .finish _, records => AllIntact rkyv records
  | .read key k, records => (IsMeta key → (k (records key)).Safe rkyv fits records) ∧
      (¬ IsMeta key → ∀ found, (k found).Safe rkyv fits records)
  | .clock k, records => ∀ now, (k now).Safe rkyv fits records
  | .write op next, records => fits records → next.Safe rkyv fits (op.apply records) ∧
      (op.value ≠ none → AllIntact rkyv (op.apply records))
  | .register _ next, records => next.Safe rkyv fits records

theorem Script.Safe.moves {rkyv : Rkyv B} {fits : (String → Option B) → Prop}
    {sc sc' : Script B} {books books' : Books B} {faced : List Given}
    {wrote : Option (AsyncOp B)} (h : sc.Safe rkyv fits books.records)
    (hmoves : sc.Moves IsMeta books faced wrote sc' books')
    (hhealthy : ∀ e, .outcome (some e) ∉ faced) (hfits : fits books.records) :
    sc'.Safe rkyv fits books'.records ∧
      ∀ op, wrote = some op → op.value ≠ none → AllIntact rkyv books'.records := by
  cases hmoves with
  | read key k books found hfound =>
    refine ⟨?_, nofun⟩
    by_cases hkey : IsMeta key
    · rw [hfound hkey]
      exact h.1 hkey
    · exact h.2 hkey found
  | clock k books now => exact ⟨h now, nofun⟩
  | write op next books =>
    obtain ⟨hnext, hintact⟩ := h hfits
    refine ⟨hnext, ?_⟩
    rintro op' heq hvalue
    cases heq
    exact hintact hvalue
  | refused op next books e => exact (hhealthy e List.mem_cons_self).elim
  | register path next books => exact ⟨h, nofun⟩

section Requests

variable {rkyv : Rkyv B} {fits : (String → Option B) → Prop} {records : String → Option B}
  {path : String}

theorem safe_storeMetadataScript (hrkyv : rkyv.Faithful) {next : Script B}
    (hothers : ∀ path' b, path' ≠ path → records (buildMetaKey path') = some b →
      Intact records path' (rkyv.archivedMetadata b)) (hm : Intact records path m)
    (hnext : ∀ records, AllIntact rkyv records → next.Safe rkyv fits records) :
    (storeMetadataScript rkyv path m next).Safe rkyv fits records := by
  obtain ⟨bytes, hbytes, harchived⟩ := hrkyv.metadata m
  rw [storeMetadataScript, hbytes]
  intro _
  have hintact : AllIntact rkyv ((AsyncOp.put (buildMetaKey path) bytes).apply records) :=
    AllIntact.putMetadata hothers (by rwa [harchived])
  exact ⟨hnext _ hintact, fun _ => hintact⟩

theorem safe_readMetadataScript (h : AllIntact rkyv records) {k : KeyMetadata → Script B}
    (hk : ∀ m, Intact records path m → (k m).Safe rkyv fits records) :
    (readMetadataScript rkyv path k).Safe rkyv fits records := by
  refine ⟨fun _ => ?_, fun hnot => (hnot ⟨path, rfl⟩).elim⟩
  cases hrecord : records (buildMetaKey path) with
  | none => exact h
  | some bytes =>
    have hintact := h path bytes hrecord
    exact hk _ ⟨hintact.distinct, hintact.numbered, hintact.live⟩

theorem intact_default : Intact records path .default :=
  ⟨List.nodup_nil, nofun, nofun⟩

theorem safe_appendVersionScript (hrkyv : rkyv.Faithful) (h : AllIntact rkyv records)
    (x : SecretPayload) (hm : Intact records path m)
    (hfits : fits records → m.currentVersion + 1 ≠ 0) :
    (appendVersionScript rkyv path x m).Safe rkyv fits records := by
  intro created
  obtain ⟨bytes, hbytes, _⟩ := hrkyv.payload x
  rw [hbytes]
  intro hroom
  have hput := h.putPayload path (m.currentVersion + 1) bytes
  refine ⟨safe_storeMetadataScript hrkyv (fun path' b _ hb => hput path' b hb) ?_ ?_, fun _ => hput⟩
  · refine (hm.keeps fun n => put_apply_ne_none bytes).grown (hfits hroom) created ?_
    change (AsyncOp.put (buildVersionKey path (m.currentVersion + 1)) bytes).apply records
      (AsyncOp.put (buildVersionKey path (m.currentVersion + 1)) bytes).key ≠ none
    rw [AsyncOp.apply_key]
    exact nofun
  · exact fun records hrecords => hrecords

theorem safe_readVersionScript (h : AllIntact rkyv records) (path : String) (version : UInt32) :
    (readVersionScript rkyv path version).Safe rkyv fits records := by
  refine ⟨fun _ => ?_, fun hnot => (hnot ⟨path, rfl⟩).elim⟩
  cases records (buildMetaKey path) with
  | none => exact h
  | some bytes =>
    dsimp only
    rcases locate version (rkyv.archivedMetadata bytes) with ⟨target, _ | v⟩
    · exact h
    · dsimp only
      split
      · exact h
      · split
        · exact h
        · split
          · exact h
          · refine ⟨fun _ => ?_, fun _ found => ?_⟩
            · cases records (buildVersionKey path target) <;> exact h
            · cases found <;> exact h

/-- From intact records every request keeps them. -/
theorem script_safe (hrkyv : rkyv.Faithful) (h : AllIntact rkyv records) (c : Call) :
    (script rkyv c).Safe rkyv (c.Fits rkyv) records := by
  have hothers : ∀ path path' b, path' ≠ path → records (buildMetaKey path') = some b →
      Intact records path' (rkyv.archivedMetadata b) := fun _ path' b _ hb => h path' b hb
  cases c with
  | readMetadata path =>
    unfold script
    exact safe_readMetadataScript h fun _ _ => h
  | readVersion path version => exact safe_readVersionScript h path version
  | putVersion path x cas =>
    refine ⟨fun _ => ?_, fun hnot => (hnot ⟨path, rfl⟩).elim⟩
    have happend : (appendVersionScript rkyv path x (((records (buildMetaKey path)).map
        (deserializeMetadata rkyv)).getD .default)).Safe rkyv
        ((Call.putVersion path x cas).Fits rkyv) records := by
      cases hrecord : records (buildMetaKey path) with
      | none => exact safe_appendVersionScript hrkyv h x intact_default fun _ => nofun
      | some bytes =>
        have hintact := h path bytes hrecord
        exact safe_appendVersionScript hrkyv h x
          ⟨hintact.distinct, hintact.numbered, hintact.live⟩ fun hfits => hfits bytes hrecord
    dsimp only
    unfold checkCasScript
    split
    · split
      · exact h
      · exact happend
    · exact happend
  | softDelete path version =>
    unfold script softDeleteScript
    refine safe_readMetadataScript h fun m hm => ?_
    split
    · exact h
    · exact fun now => safe_storeMetadataScript hrkyv (hothers path)
        (hm.updated version (fun _ => rfl) fun _ => rfl) fun _ hrecords => hrecords
  | undelete path version =>
    unfold script undeleteScript
    refine safe_readMetadataScript h fun m hm => ?_
    split
    · exact h
    · split
      · exact h
      · exact safe_storeMetadataScript hrkyv (hothers path)
          (hm.updated version (fun _ => rfl) fun _ => rfl) fun _ hrecords => hrecords
  | destroyVersion path version =>
    unfold script destroyVersionScript
    refine safe_readMetadataScript h fun m hm => ?_
    split
    · exact h
    · exact fun _ => ⟨safe_storeMetadataScript hrkyv
        (fun path' b hpath hb => h.other version hpath hb) (hm.destroyed version)
        fun _ hrecords => hrecords, fun hvalue => (hvalue rfl).elim⟩

end Requests

/-! ## Fronts of the pending writes -/

/-- The writes do not end with a delete. -/
def Boundary (ops : List (AsyncOp B)) : Prop :=
  ∀ op ∈ ops.getLast?, op.value ≠ none

/-- Whichever writes reach the disk, the records there are intact, unless a delete is the
last of them. -/
def Fronts (rkyv : Rkyv B) (s : KvEngine B) : Prop :=
  ∀ done rest, s.pending = done ++ rest → Boundary done → AllIntact rkyv (applyBatch s.rocksdb done)

theorem Fronts.rocksdb {rkyv : Rkyv B} (h : Fronts rkyv s) : AllIntact rkyv s.rocksdb :=
  h [] s.pending rfl nofun

/-- A write is queued behind the others. -/
theorem Fronts.enqueue {rkyv : Rkyv B} {s' : KvEngine B} (h : Fronts rkyv s)
    (hdb : s'.rocksdb = s.rocksdb) {op : AsyncOp B} (hpending : s'.pending = s.pending ++ [op])
    (hintact : op.value ≠ none → AllIntact rkyv s'.settled) : Fronts rkyv s' := by
  intro done rest hsplit hboundary
  rcases List.eq_nil_or_concat rest with rfl | ⟨rest, op', rfl⟩
  · rw [List.append_nil] at hsplit
    rw [← hsplit]
    refine hintact (hboundary op ?_)
    rw [← hsplit, hpending]
    simp
  · rw [List.concat_eq_append, ← List.append_assoc, hpending] at hsplit
    rw [hdb]
    exact h done rest (List.append_inj_left' hsplit rfl) hboundary

/-- A batch that does not end with a delete may be written. -/
theorem Fronts.workerStep {rkyv : Rkyv B} (h : Fronts rkyv s) (timeout : Bool)
    (hboundary : Boundary (s.flushed timeout false)) :
    Fronts rkyv (s.workerStep timeout false) := by
  intro done rest hsplit hdone
  rw [rocksdb_workerStep, ← applyBatch_append]
  refine h (s.flushed timeout false ++ done) rest ?_ ?_
  · rw [pending_workerStep s timeout, hsplit, List.append_assoc]
  · cases done with
    | nil =>
      rw [List.append_nil]
      exact hboundary
    | cons op done =>
      have hlast := List.getLast?_eq_some_getLast (List.cons_ne_nil op done)
      unfold Boundary at hdone ⊢
      rw [List.getLast?_append, hlast]
      rwa [hlast] at hdone

/-! ## Runs -/

/-- Outside direct writes a call queues what it has accepted. -/
theorem exec_queues (s : KvEngine B) {op : Effect B} (h : op.writes = none) (c : Choice) :
    (s.exec op c).2.rocksdb = s.rocksdb ∧
      (s.exec op c).2.pending = s.pending ++ (op.acked (s.exec op c).1).toList := by
  obtain ⟨error, now⟩ := c
  cases op with
  | getRaw key => cases error <;> exact ⟨rfl, (List.append_nil _).symm⟩
  | putRaw key value => cases h
  | delRaw key => cases h
  | enqueue op =>
    simp only [KvEngine.exec]
    split
    · exact ⟨rfl, (List.append_assoc _ _ _).symm⟩
    · exact ⟨rfl, (List.append_nil _).symm⟩
  | _ => exact ⟨rfl, (List.append_nil _).symm⟩

/-- One client in batch mode on a healthy storage. -/
structure CrashSafe (rkyv : Rkyv B) (p : Clients B Unit) (stance : Unit → Stance B)
    (records : String → Option B) : Prop where
  mirrors : Mirrors .batch IsMeta (fun _ _ => True) p stance records
  inMode : InMode p
  idle : p.client () = none → AllIntact rkyv records
  running : ∀ c prog, p.client () = some (c, prog) →
    (stance ()).script.Safe rkyv (c.Fits rkyv) records
  fronts : Fronts rkyv p.shared

/-- A put steps only while the number of its path does not wrap around. -/
def FitsStep (rkyv : Rkyv B) (p : Clients B Unit) : Step B Unit → Prop
  | .act t _ => ∀ x ∈ p.client t, x.1.Fits rkyv p.shared.settled
  | _ => True

/-- The worker writes no batch that ends with a delete. -/
def BoundaryStep (p : Clients B Unit) : Step B Unit → Prop
  | .env (.worker timeout fails) => Boundary (p.shared.flushed timeout fails)
  | _ => True

namespace CrashSafe

variable {rkyv : Rkyv B} {p : Clients B Unit} {stance : Unit → Stance B}
  {records : String → Option B} {t : Unit}

theorem opened {db : String → Option B} (hdb : AllIntact rkyv db) (paths : List String) :
    CrashSafe rkyv (Clients.opened db .batch paths) (fun _ => ⟨.finish (.ok .unit), .clear⟩) db where
  mirrors := mirrors_opened .batch IsMeta _ db paths
  inMode := tracked_init _
  idle _ := hdb
  running _ _ h := nomatch h
  fronts := by
    intro done rest hsplit _
    obtain ⟨rfl, _⟩ := List.append_eq_nil_iff.mp hsplit.symm
    exact hdb

variable {c : Call}

theorem invoke (h : CrashSafe rkyv p stance records) (hrkyv : rkyv.Faithful)
    (hclient : p.client t = none) :
    CrashSafe rkyv ⟨p.shared, p.setClient t (some (c, body rkyv c)), .invoke t c :: p.log⟩
      (Function.update stance t ⟨script rkyv c, .clear⟩) records where
  mirrors := h.mirrors.invoke (fun _ _ _ _ _ => rfl) rkyv hclient (script_proper rkyv
    (Or.inr fun path n hmeta => buildMetaKey_ne_buildVersionKey _ _ _ hmeta.choose_spec.symm) c
    fun _ _ => trivial)
  inMode := h.inMode.invoke (follows_mode rkyv _ c) t
  idle hidle := by
    change Function.update p.client t _ () = none at hidle
    rw [Function.update_self] at hidle
    cases hidle
  running c' prog hrunning := by
    change Function.update p.client t _ () = _ at hrunning
    rw [Function.update_self] at hrunning
    cases hrunning
    rw [Function.update_self]
    exact script_safe hrkyv (h.idle hclient) c
  fronts := h.fronts

theorem act (h : CrashSafe rkyv p stance records) {op : Effect B} {k : op.Ret → EngineM B Out}
    {choice : Choice} (hclient : p.client t = some (c, .call op k))
    (herror : choice.error = none) (hfair : FairStep .batch IsMeta p (.act t choice))
    (hfits : c.Fits rkyv p.shared.settled) :
    ∃ stance' records', CrashSafe rkyv ⟨(p.shared.exec op choice).2,
      p.setClient t (some (c, k (p.shared.exec op choice).1)),
      .act t op (p.shared.exec op choice).1 :: p.log⟩ stance' records' := by
  have hexec : p.shared.exec op choice =
      ((p.shared.exec op choice).1, (p.shared.exec op choice).2) := rfl
  obtain ⟨st, records', hmirrors, hadvances, -⟩ :=
    h.mirrors.act (fun _ _ _ _ _ => rfl) hclient hfair hexec
  have hsafe := h.running c _ hclient
  have hsettled : p.shared.settled = records := h.mirrors.represents.settled
  rw [hsettled] at hfits
  have hmoved : st.script.Safe rkyv (c.Fits rkyv) records' ∧
      ∀ o, op.acked (p.shared.exec op choice).1 = some o → o.value ≠ none →
        AllIntact rkyv records' := by
    rcases hadvances with ⟨hscript, hbooks, -, hnone⟩ | hmoves
    · rw [hscript, (Books.mk.inj hbooks).1]
      refine ⟨hsafe, fun o ho => ?_⟩
      rw [hnone] at ho
      cases ho
    · exact hsafe.moves hmoves (faced_healthy p.shared op herror) hfits
  refine ⟨_, records', hmirrors, h.inMode.act hclient choice, ?_, ?_, ?_⟩
  · intro hidle
    change Function.update p.client t _ () = none at hidle
    rw [Function.update_self] at hidle
    cases hidle
  · intro c' prog hrunning
    change Function.update p.client t _ () = _ at hrunning
    rw [Function.update_self] at hrunning
    cases hrunning
    rw [Function.update_self]
    exact hmoved.1
  · obtain ⟨hdb, hpending⟩ := exec_queues p.shared
      (h.inMode.writes_eq_none h.mirrors.represents.syncMode hclient) choice
    cases hacked : op.acked (p.shared.exec op choice).1 with
    | none =>
      rw [hacked] at hpending
      intro done rest hsplit hboundary
      change AllIntact rkyv (applyBatch (p.shared.exec op choice).2.rocksdb done)
      rw [hdb]
      refine h.fronts done rest ?_ hboundary
      rw [← hsplit]
      exact (hpending.trans (List.append_nil _)).symm
    | some o =>
      rw [hacked] at hpending
      refine h.fronts.enqueue hdb hpending fun hvalue => ?_
      rw [hmirrors.represents.settled]
      exact hmoved.2 o hacked hvalue

theorem respond (h : CrashSafe rkyv p stance records) {r : Except EngineError Out}
    (hclient : p.client t = some (c, .done r)) :
    CrashSafe rkyv ⟨p.shared, p.setClient t none, .respond t c r :: p.log⟩ stance records where
  mirrors := h.mirrors.respond hclient
  inMode := h.inMode.respond t c r
  idle _ := by
    have hsafe := h.running c _ hclient
    rwa [h.mirrors.finished hclient] at hsafe
  running c' prog hrunning := by
    change Function.update p.client t none () = _ at hrunning
    rw [Function.update_self] at hrunning
    cases hrunning
  fronts := h.fronts

theorem env (h : CrashSafe rkyv p stance records) {e : EnvStep}
    (hfair : FairStep .batch IsMeta p (.env e)) (hboundary : BoundaryStep p (.env e)) :
    CrashSafe rkyv ⟨p.shared.env e, p.client, .env e :: p.log⟩ stance records where
  mirrors := h.mirrors.env hfair
  inMode := by
    refine h.inMode.env ?_
    rintro mode rfl
    exact hfair
  idle := h.idle
  running := h.running
  fronts := by
    cases e with
    | worker timeout fails =>
      rcases hfair with hmode | rfl
      · cases hmode
      · exact h.fronts.workerStep timeout hboundary
    | changeSyncMode mode => exact hfair.elim
    | dropEntry key => exact h.fronts
    | stop => exact h.fronts

end CrashSafe

/-! ## Reading after a crash -/

/-- A read of an engine with an empty cache entry. -/
theorem alone_read (key : String) (k : Option B → Script B) (hcache : s.cache key = none)
    (now : UInt64) :
    ∃ s', (∀ key', key' ≠ key → s'.cache key' = s.cache key') ∧ s'.rocksdb = s.rocksdb ∧
      (system B).alone (.at now) (Script.read key k).run s =
        (system B).alone (.at now) (k (s.rocksdb key)).run s' := by
  have hlookup : (system B).exec s (.cacheLookup key) (.at now) = ((none : Option B), s) :=
    Prod.ext hcache rfl
  have hmiss : (system B).alone (.at now) (Script.read key k).run s =
      (system B).alone (.at now) (readMissed key >>= fun found => (k found).run) s :=
    System.alone_call hlookup
  rw [hmiss]
  cases hdisk : s.rocksdb key with
  | none =>
    have hget : (system B).exec s (.getRaw key) (.at now) =
        ((.ok none : Except String (Option B)), s) := Prod.ext (congrArg Except.ok hdisk) rfl
    exact ⟨s, fun _ _ => rfl, rfl, System.alone_call hget⟩
  | some b =>
    have hget : (system B).exec s (.getRaw key) (.at now) =
        ((.ok (some b) : Except String (Option B)), s) := Prod.ext (congrArg Except.ok hdisk) rfl
    exact ⟨{ s with cache := Function.update s.cache key (some b) },
      fun key' hne => Function.update_of_ne hne _ _, rfl, System.alone_call hget⟩

/-- After a crash and a new start, a version that is listed and not destroyed is read, or is
reported as deleted. -/
def ReadableAfterCrash (rkyv : Rkyv B) (s : KvEngine B) : Prop :=
  ∀ paths now path m v,
    ((system B).alone (.at now) (body rkyv (.readMetadata path))
      (.opened s.rocksdb .batch paths)).1 = .ok (.metadata m) →
    v ∈ m.versions → v.destroyed = false →
    (∃ x state, ((system B).alone (.at now) (body rkyv (.readVersion path v.versionId))
      (.opened s.rocksdb .batch paths)).1 = .ok (.version x state)) ∨
      ((system B).alone (.at now) (body rkyv (.readVersion path v.versionId))
        (.opened s.rocksdb .batch paths)).1 = .error .softDeleted

/-- The search for the number of a listed version finds that version. -/
theorem Intact.locate {records : String → Option B} {path : String} (h : Intact records path m)
    (hv : v ∈ m.versions) : locate v.versionId m = (v.versionId, some v) := by
  have hfind : (m.versions.find? fun w => w.versionId = v.versionId) = some v := by
    cases hfound : m.versions.find? fun w => w.versionId = v.versionId with
    | none => simpa using List.find?_eq_none.mp hfound v hv
    | some w =>
      have hw : w.versionId = v.versionId := by simpa using List.find?_some hfound
      rw [List.inj_on_of_nodup_map h.distinct (List.mem_of_find?_eq_some hfound) hv hw]
  rw [Engine.locate, if_neg (h.numbered v hv).1, hfind]

/-- Reading the metadata of a path from disk. -/
theorem alone_readMetadata (rkyv : Rkyv B) (db : String → Option B) (paths : List String)
    (now : UInt64) (path : String) :
    ((system B).alone (.at now) (body rkyv (.readMetadata path)) (.opened db .batch paths)).1 =
      match db (buildMetaKey path) with
      | none => .error .notFound
      | some bytes => .ok (.metadata (deserializeMetadata rkyv bytes)) := by
  obtain ⟨s, -, -, hread⟩ := alone_read (s := .opened db .batch paths) (buildMetaKey path)
    (fun
      | none => .finish (.error .notFound)
      | some bytes => .finish (.ok (.metadata (deserializeMetadata rkyv bytes)))) rfl now
  rw [body_eq_run]
  refine (congrArg Prod.fst hread).trans ?_
  change ((system B).alone _
    (Script.run (match db (buildMetaKey path) with | none => _ | some bytes => _)) s).1 = _
  cases db (buildMetaKey path) <;> rfl

/-- The script of a read of a version that is listed and not destroyed. -/
theorem readVersionScript_live (rkyv : Rkyv B) (path : String) {version target : UInt32}
    {bytes : B} (hlocate : locate version (rkyv.archivedMetadata bytes) = (target, some v))
    (htarget : target ≠ 0) (hlive : v.destroyed = false) :
    ∃ k, readVersionScript rkyv path version = .read (buildMetaKey path) k ∧
      ∃ k', k (some bytes) = (if v.deletionTimeMs > 0 then .finish (.error .softDeleted)
        else .read (buildVersionKey path target) k') ∧
      ∀ payload, k' (some payload) =
        .finish (.ok (.version (rkyv.archivedPayload payload) { v with versionId := target })) := by
  refine ⟨_, rfl, ?_⟩
  dsimp only
  rw [hlocate]
  dsimp only
  rw [if_neg htarget, if_neg (by rw [hlive]; exact Bool.false_ne_true)]
  exact ⟨_, rfl, fun _ => rfl⟩

/-- Reading a version that is listed and not destroyed. -/
theorem alone_readVersion (rkyv : Rkyv B) {db : String → Option B} (paths : List String)
    (now : UInt64) {path : String} {version target : UInt32} {bytes payload : B}
    (hbytes : db (buildMetaKey path) = some bytes)
    (hlocate : locate version (rkyv.archivedMetadata bytes) = (target, some v))
    (htarget : target ≠ 0) (hlive : v.destroyed = false)
    (hpayload : db (buildVersionKey path target) = some payload) :
    ((system B).alone (.at now) (body rkyv (.readVersion path version))
      (.opened db .batch paths)).1 =
      if v.deletionTimeMs > 0 then .error .softDeleted
      else .ok (.version (rkyv.archivedPayload payload) { v with versionId := target }) := by
  obtain ⟨k, hscript, k', hk, hk'⟩ := readVersionScript_live rkyv path hlocate htarget hlive
  obtain ⟨s, hcache, hdb, hread⟩ := alone_read (s := .opened db .batch paths) (buildMetaKey path)
    k rfl now
  rw [body_eq_run, script, hscript, hread]
  change ((system B).alone (.at now) (k (db (buildMetaKey path))).run s).1 = _
  rw [hbytes, hk]
  split
  · rfl
  · have hnone : s.cache (buildVersionKey path target) = none :=
      hcache _ (buildMetaKey_ne_buildVersionKey _ _ _).symm
    obtain ⟨s', -, -, hread'⟩ := alone_read (buildVersionKey path target) k' hnone now
    rw [hread', hdb]
    change ((system B).alone (.at now) (k' (db (buildVersionKey path target))).run s').1 = _
    rw [hpayload, hk']
    rfl

theorem AllIntact.readable {rkyv : Rkyv B} (h : AllIntact rkyv s.rocksdb) :
    ReadableAfterCrash rkyv s := by
  intro paths now path m v hmetadata hv hlive
  rw [alone_readMetadata] at hmetadata
  cases hbytes : s.rocksdb (buildMetaKey path) with
  | none =>
    rw [hbytes] at hmetadata
    cases hmetadata
  | some bytes =>
    rw [hbytes] at hmetadata
    cases hmetadata
    have hintact := h path bytes hbytes
    obtain ⟨payload, hpayload⟩ := Option.ne_none_iff_exists'.mp (hintact.live v hv hlive)
    rw [alone_readVersion rkyv paths now hbytes (hintact.locate hv) (hintact.numbered v hv).1
      hlive hpayload]
    split
    · exact Or.inr rfl
    · exact Or.inl ⟨_, _, rfl⟩

/-- A crash leaves every version that is not destroyed with its payload, when batches do not
end with a delete. -/
theorem run_readableAfterCrash {rkyv : Rkyv B} (hrkyv : rkyv.Faithful) {db : String → Option B}
    (hdb : AllIntact rkyv db) (paths : List String) (labels : List (Step B Unit))
    (hsteps : Along (Pool.step (body rkyv))
      (fun p l => (SteadyStep l ∧ QueueRoom p l) ∧ (CleanDrop p l ∧ FitsStep rkyv p l) ∧
        BoundaryStep p l) (Clients.opened db .batch paths) labels) :
    ReadableAfterCrash rkyv ((Clients.opened db .batch paths).run (body rkyv) labels).shared := by
  have hinv : ∃ stance records,
      CrashSafe rkyv ((Clients.opened db .batch paths).run (body rkyv) labels) stance records := by
    refine Pool.run_invariant (I := fun p => ∃ stance records, CrashSafe rkyv p stance records)
      ?_ ?_ ?_ ?_ ⟨_, _, CrashSafe.opened hdb paths⟩ hsteps
    · rintro p t c ⟨stance, records, h⟩ _ hclient
      exact ⟨_, _, h.invoke hrkyv hclient⟩
    · rintro p t choice c op k ⟨stance, records, h⟩ ⟨⟨herror, hroom⟩, ⟨-, hfits⟩, -⟩ hclient
      refine h.act hclient herror ⟨fun _ _ => herror, fun _ o ho => hroom ?_⟩ (hfits _ hclient)
      rw [ho]
      rfl
    · rintro p t c r ⟨stance, records, h⟩ _ hclient
      exact ⟨_, _, h.respond hclient⟩
    · rintro p e ⟨stance, records, h⟩ ⟨⟨hsteady, -⟩, ⟨hclean, -⟩, hboundary⟩
      refine ⟨_, _, h.env ?_ hboundary⟩
      cases e with
      | dropEntry key => exact Or.inr (Or.inr hclean)
      | worker timeout fails => exact Or.inr hsteady
      | changeSyncMode mode => exact hsteady
      | stop => trivial
  obtain ⟨stance, records, h⟩ := hinv
  exact h.fronts.rocksdb.readable

/-! ## A destroy that is cut in two -/

instance (ops : List (AsyncOp B)) : Decidable (Boundary ops) :=
  inferInstanceAs (Decidable (∀ op ∈ ops.getLast?, op.value ≠ none))

instance (rkyv : Rkyv B) (c : Call) (records : String → Option B) : Decidable (c.Fits rkyv records) :=
  match c with
  | .putVersion path _ _ => inferInstanceAs (Decidable
      (∀ b ∈ records (buildMetaKey path), (rkyv.archivedMetadata b).currentVersion + 1 ≠ 0))
  | .readMetadata _ => .isTrue trivial
  | .readVersion _ _ => .isTrue trivial
  | .softDelete _ _ => .isTrue trivial
  | .undelete _ _ => .isTrue trivial
  | .destroyVersion _ _ => .isTrue trivial

instance (rkyv : Rkyv B) (p : Clients B Unit) (l : Step B Unit) : Decidable (FitsStep rkyv p l) :=
  match l with
  | .act t _ => inferInstanceAs (Decidable (∀ x ∈ p.client t, x.1.Fits rkyv p.shared.settled))
  | .invoke _ _ => .isTrue trivial
  | .respond _ => .isTrue trivial
  | .env _ => .isTrue trivial

instance (p : Clients B Unit) (l : Step B Unit) : Decidable (BoundaryStep p l) :=
  match l with
  | .env (.worker timeout fails) =>
    inferInstanceAs (Decidable (Boundary (p.shared.flushed timeout fails)))
  | .env (.dropEntry _) => .isTrue trivial
  | .env (.changeSyncMode _) => .isTrue trivial
  | .env .stop => .isTrue trivial
  | .act _ _ => .isTrue trivial
  | .invoke _ _ => .isTrue trivial
  | .respond _ => .isTrue trivial

/-- A put that reaches the disk, a destroy, and the given steps of the worker. -/
def destroying (worker : List Bool) : List (Step Record Unit) :=
  List.flatten [
    requesting () (.putVersion "p" ⟨"x", 0⟩ none) 10,
    [false, false, false, false, false, true].map fun timeout => .env (.worker timeout false),
    requesting () (.destroyVersion "p" 1) 7,
    worker.map fun timeout => .env (.worker timeout false)]

theorem run_readableAfterCrash_whole :
    Along (Pool.step (body Record.rkyv))
        (fun p l => (SteadyStep l ∧ QueueRoom p l) ∧ (CleanDrop p l ∧ FitsStep Record.rkyv p l) ∧
          BoundaryStep p l) (Clients.opened (fun _ => none) .batch [])
        (destroying [false, false, false, false, false, true]) ∧
      ReadableAfterCrash Record.rkyv ((Clients.opened (fun _ => none) .batch []).run
        (body Record.rkyv) (destroying [false, false, false, false, false, true])).shared := by
  have hsteps : Along (Pool.step (body Record.rkyv))
      (fun p l => (SteadyStep l ∧ QueueRoom p l) ∧ (CleanDrop p l ∧ FitsStep Record.rkyv p l) ∧
        BoundaryStep p l) (Clients.opened (fun _ => none) .batch [])
      (destroying [false, false, false, false, false, true]) := by decide
  have hempty : AllIntact Record.rkyv fun _ => none := by
    intro path b hb
    cases hb
  exact ⟨hsteps, run_readableAfterCrash Record.rkyv_faithful hempty [] _ hsteps⟩

/-- The worker writes the delete of the payload in one batch and the engine crashes before the
metadata follows: the version is listed as live and has no payload. -/
theorem destroying_cut :
    Along (Pool.step (body Record.rkyv))
        (fun p l => (SteadyStep l ∧ QueueRoom p l) ∧ CleanDrop p l ∧ FitsStep Record.rkyv p l)
        (Clients.opened (fun _ => none) .batch []) (destroying [false, false, true]) ∧
      ¬ ReadableAfterCrash Record.rkyv ((Clients.opened (fun _ => none) .batch []).run
        (body Record.rkyv) (destroying [false, false, true])).shared := by
  refine ⟨by decide, fun h => ?_⟩
  have hread := h [] 1 "p" ⟨1, 0, false, 0, [], [⟨1, 0, 1, false⟩]⟩ ⟨1, 0, 1, false⟩ rfl (by decide) rfl
  rcases hread with ⟨x, state, hread⟩ | hread
  · cases hread
  · cases hread

end Kallisto.Engine
