import Kallisto.Verification.Engine.Assembly
import Kallisto.Verification.Engine.Directories
import Kallisto.Verification.Engine.Mirror

/-! # What a listing shows

A put enters its path into the index as its last call, after its writes were accepted.
The index therefore holds the paths of the acknowledged puts and no others, whatever the
interleaving and whatever fails. -/

namespace Kallisto.Engine

open Program Interleaving Cuckoo

variable {B Tid : Type} {t : Tid} {c : Call}

/-! ## PutAcknowledged puts -/

/-- The client has nothing left to do but to return from a put to the path. -/
def AcknowledgesPut (path : String) (client : Option (Call × EngineM B Out)) : Prop :=
  ∃ payload cas, client = some (.putVersion path payload cas, .done (.ok .unit))

/-- A put to the path has returned, or is about to. -/
def PutAcknowledged {sys : System (Effect.Ret (B := B))} (path : String)
    (p : Pool sys EngineError Call Out Tid) : Prop :=
  (∃ t payload cas, .respond t (.putVersion path payload cas) (.ok .unit) ∈ p.log) ∨
    ∃ t, AcknowledgesPut path (p.client t)

/-- A step of one client acknowledges what that client acknowledges. -/
theorem putAcknowledged_move [DecidableEq Tid] {sys : System (Effect.Ret (B := B))}
    {path : String} {p : Pool sys EngineError Call Out Tid} {s : sys.State}
    {x : Option (Call × EngineM B Out)} {e : Event sys EngineError Call Out Tid} {new : Prop}
    (h : ((∃ t' payload cas, e = .respond t' (.putVersion path payload cas) (.ok .unit)) ∨
      AcknowledgesPut path x) ↔ new ∨ AcknowledgesPut path (p.client t)) :
    PutAcknowledged path (⟨s, p.setClient t x, e :: p.log⟩ : Pool sys EngineError Call Out Tid) ↔
      new ∨ PutAcknowledged path p := by
  have hself : AcknowledgesPut path (p.setClient t x t) ↔ AcknowledgesPut path x := by
    rw [Pool.setClient, Function.update_self]
  have hother : ∀ t', t' ≠ t →
      (AcknowledgesPut path (p.setClient t x t') ↔ AcknowledgesPut path (p.client t')) := by
    intro t' ht
    rw [Pool.setClient, Function.update_of_ne ht]
  constructor
  · rintro (⟨t', payload, cas, hmem⟩ | ⟨t', hclient⟩)
    · rcases List.mem_cons.mp hmem with heq | hmem
      · rcases h.mp (Or.inl ⟨t', payload, cas, heq.symm⟩) with hnew | hold
        · exact Or.inl hnew
        · exact Or.inr (Or.inr ⟨t, hold⟩)
      · exact Or.inr (Or.inl ⟨t', payload, cas, hmem⟩)
    · by_cases ht : t' = t
      · subst ht
        rcases h.mp (Or.inr (hself.mp hclient)) with hnew | hold
        · exact Or.inl hnew
        · exact Or.inr (Or.inr ⟨t', hold⟩)
      · exact Or.inr (Or.inr ⟨t', (hother t' ht).mp hclient⟩)
  · have hfrom : new ∨ AcknowledgesPut path (p.client t) → PutAcknowledged path
        (⟨s, p.setClient t x, e :: p.log⟩ : Pool sys EngineError Call Out Tid) := by
      intro hnew
      rcases h.mpr hnew with ⟨t', payload, cas, rfl⟩ | hx
      · exact Or.inl ⟨t', payload, cas, List.mem_cons_self⟩
      · exact Or.inr ⟨t, hself.mpr hx⟩
    rintro (hnew | ⟨t', payload, cas, hmem⟩ | ⟨t', hclient⟩)
    · exact hfrom (Or.inl hnew)
    · exact Or.inl ⟨t', payload, cas, List.mem_cons_of_mem e hmem⟩
    · by_cases ht : t' = t
      · subst ht
        exact hfrom (Or.inr hclient)
      · exact Or.inr ⟨t', (hother t' ht).mpr hclient⟩

/-! ## Entering a path is the last call -/

def Effect.registers : Effect B → Option String
  | .insertPathIfAbsent path => some path
  | _ => none

/-- The state is the path that was entered. No call follows it. -/
def registerProtocol : Protocol (Effect.Ret (B := B)) (Option String) where
  allowed d _ := d = none
  possible _ _ _ := True
  next d op _ := op.registers.or d

/-- A put that succeeds has entered its path; no other request enters one. -/
def Registered : Call → Option String → Except EngineError Out → Prop
  | .putVersion path _ _, d, .ok out => d = some path ∧ out = .unit
  | _, d, _ => d = none

theorem registered_error (c : Call) (e : EngineError) : Registered c none (.error e) := by
  cases c <;> rfl

/-- Whoever has entered a path is done. -/
theorem acknowledgesPut_of_registered {path : String} {prog : EngineM B Out}
    (h : Follows registerProtocol (Registered c) (some path) prog) :
    AcknowledgesPut path (some (c, prog)) := by
  cases prog with
  | call op k => cases h.1
  | done r =>
    cases c with
    | putVersion path' payload cas =>
      cases r with
      | error e => cases h
      | ok out =>
        obtain ⟨heq, rfl⟩ := h
        cases heq
        exact ⟨payload, cas, rfl⟩
    | _ => cases h

/-- Whoever has entered none has not succeeded with a put. -/
theorem not_acknowledgesPut_of_registered {path : String} {prog : EngineM B Out}
    (h : Follows registerProtocol (Registered c) none prog) :
    ¬ AcknowledgesPut path (some (c, prog)) := by
  rintro ⟨payload, cas, heq⟩
  cases heq
  cases h.1

/-- The script ends as required of the request when it enters no path, and enters that of
a put at its end only. -/
def Script.Registers (c : Call) : Script B → Prop
  | .finish r => Registered c none r
  | .read _ k => ∀ found, (k found).Registers c
  | .clock k => ∀ now, (k now).Registers c
  | .write _ next => next.Registers c
  | .register path next => next = .finish (.ok .unit) ∧ ∃ x cas, c = .putVersion path x cas

theorem Script.Registers.follows {sc : Script B} (h : sc.Registers c) :
    Follows registerProtocol (Registered c) none sc.run := by
  induction sc with
  | finish r => exact h
  | read key k ih =>
    refine ⟨rfl, fun found _ => ?_⟩
    cases found with
    | some b => exact ih (some b) (h (some b))
    | none =>
      refine ⟨rfl, fun disk _ => ?_⟩
      rcases disk with e | (_ | b)
      · exact registered_error c _
      · exact ih none (h none)
      · exact ⟨rfl, fun _ _ => ih (some b) (h (some b))⟩
  | clock k ih => exact ⟨rfl, fun now _ => ih now (h now)⟩
  | write op next ih =>
    have hpublish : Follows registerProtocol (Registered c) none
        (op.publish >>= fun _ => next.run) := by
      cases op with
      | put key value => exact ⟨rfl, fun _ _ => ih h⟩
      | delete key => exact ⟨rfl, fun _ _ => ih h⟩
    refine ⟨rfl, fun mode _ => ?_⟩
    cases mode with
    | batch =>
      refine ⟨rfl, fun r _ => ?_⟩
      rcases r with (_ | _) | u
      · exact registered_error c _
      · exact hpublish
      · exact hpublish
    | immediate =>
      cases op with
      | put key value =>
        refine ⟨rfl, fun r _ => ?_⟩
        cases r with
        | error e => exact registered_error c _
        | ok u => exact hpublish
      | delete key =>
        refine ⟨rfl, fun r _ => ?_⟩
        cases r with
        | error e => exact registered_error c _
        | ok u => exact hpublish
  | register path next ih =>
    obtain ⟨rfl, x, cas, rfl⟩ := h
    exact ⟨rfl, fun _ _ => ⟨rfl, rfl⟩⟩

theorem registers_storeMetadataScript {rkyv : Rkyv B} {path : String} {m : KeyMetadata}
    {next : Script B} (h : next.Registers c) :
    (storeMetadataScript rkyv path m next).Registers c := by
  unfold storeMetadataScript
  split
  · exact registered_error c _
  · exact h

theorem registers_readMetadataScript {rkyv : Rkyv B} {path : String} {k : KeyMetadata → Script B}
    (h : ∀ m, (k m).Registers c) : (readMetadataScript rkyv path k).Registers c := by
  intro found
  cases found with
  | none => exact registered_error c _
  | some b => exact h _

theorem script_registers (rkyv : Rkyv B) (c : Call) : (script rkyv c).Registers c := by
  cases c with
  | readMetadata path =>
    unfold script
    exact registers_readMetadataScript fun _ => rfl
  | readVersion path version =>
    intro found
    cases found with
    | none => rfl
    | some bytes =>
      dsimp only
      split
      · rfl
      · split
        · rfl
        · split
          · rfl
          · split
            · rfl
            · rintro (_ | payload) <;> rfl
  | putVersion path x cas =>
    intro found
    have happend : (appendVersionScript rkyv path x ((found.map (deserializeMetadata rkyv)).getD
        .default)).Registers (.putVersion path x cas) := by
      intro created
      split
      · rfl
      · exact registers_storeMetadataScript ⟨rfl, x, cas, rfl⟩
    dsimp only
    unfold checkCasScript
    split
    · split
      · rfl
      · exact happend
    · exact happend
  | softDelete path version =>
    unfold script softDeleteScript
    refine registers_readMetadataScript fun m => ?_
    split
    · rfl
    · exact fun now => registers_storeMetadataScript rfl
  | undelete path version =>
    unfold script undeleteScript
    refine registers_readMetadataScript fun m => ?_
    split
    · rfl
    · split
      · rfl
      · exact registers_storeMetadataScript rfl
  | destroyVersion path version =>
    unfold script destroyVersionScript
    refine registers_readMetadataScript fun m => ?_
    split
    · rfl
    · exact registers_storeMetadataScript rfl

/-! ## The index -/

theorem mem_exec_pathIndex (s : KvEngine B) (op : Effect B) (choice : Choice) (path : String) :
    path ∈ (s.exec op choice).2.pathIndex ↔ op.registers = some path ∨ path ∈ s.pathIndex := by
  obtain ⟨error, now⟩ := choice
  cases op with
  | getRaw key => cases error <;> simp [KvEngine.exec, Effect.registers]
  | putRaw key value => cases error <;> simp [KvEngine.exec, KvEngine.write, Effect.registers]
  | delRaw key => cases error <;> simp [KvEngine.exec, KvEngine.write, Effect.registers]
  | enqueue op =>
    simp only [KvEngine.exec]
    split <;> simp [Effect.registers]
  | insertPathIfAbsent path' =>
    simp only [KvEngine.exec, Effect.registers, Option.some.injEq]
    split
    · next hmem =>
        refine (or_iff_right_of_imp ?_).symm
        rintro rfl
        exact hmem
    · rw [List.mem_cons, eq_comm]
  | _ => simp [KvEngine.exec, Effect.registers]

/-- The index holds the paths that it began with and those of the acknowledged puts. -/
structure Indexing [DecidableEq Tid] (paths : List String) (p : Clients B Tid) : Prop where
  tracked : Tracked registerProtocol Registered none p
  index : ∀ path, path ∈ p.shared.pathIndex ↔ path ∈ paths ∨ PutAcknowledged path p

section Steps

variable [DecidableEq Tid] {paths : List String} {p : Clients B Tid}

theorem indexing_opened (db : String → Option B) (mode : SyncMode) (paths : List String) :
    Indexing paths (Clients.opened db mode paths : Clients B Tid) where
  tracked := tracked_init _
  index path := by
    refine (or_iff_left ?_).symm
    rintro (⟨t, payload, cas, hmem⟩ | ⟨t, payload, cas, hclient⟩)
    · cases hmem
    · cases hclient

/-- One client moves; the index gains what the client newly acknowledges. -/
theorem Indexing.move (h : Indexing paths p) {s : KvEngine B} {x : Option (Call × EngineM B Out)}
    {e : Event (system B) EngineError Call Out Tid}
    (htracked : Tracked registerProtocol Registered none
      (⟨s, p.setClient t x, e :: p.log⟩ : Clients B Tid)) (new : String → Prop)
    (hindex : ∀ path, path ∈ s.pathIndex ↔ new path ∨ path ∈ p.shared.pathIndex) (hnew : ∀ path,
      ((∃ t' payload cas, e = .respond t' (.putVersion path payload cas) (.ok .unit)) ∨
        AcknowledgesPut path x) ↔ new path ∨ AcknowledgesPut path (p.client t)) :
    Indexing paths ⟨s, p.setClient t x, e :: p.log⟩ := by
  refine ⟨htracked, fun path => ?_⟩
  rw [hindex path, h.index path, putAcknowledged_move (hnew path)]
  exact or_left_comm

theorem Indexing.invoke (h : Indexing paths p) (rkyv : Rkyv B) (c : Call)
    (hclient : p.client t = none) :
    Indexing paths ⟨p.shared, p.setClient t (some (c, body rkyv c)), .invoke t c :: p.log⟩ := by
  have hbody : Follows registerProtocol (Registered c) none (body rkyv c) := by
    rw [body_eq_run]
    exact (script_registers rkyv c).follows
  refine h.move (h.tracked.invoke hbody t) (fun _ => False) (fun _ => by simp) ?_
  intro path
  rw [hclient, false_or]
  constructor
  · rintro (⟨t', payload, cas, heq⟩ | hx)
    · cases heq
    · exact (not_acknowledgesPut_of_registered hbody hx).elim
  · rintro ⟨payload, cas, heq⟩
    cases heq

theorem Indexing.act (h : Indexing paths p) {choice : Choice} {op : Effect B}
    {k : op.Ret → EngineM B Out} (hclient : p.client t = some (c, .call op k)) :
    Indexing paths ⟨(p.shared.exec op choice).2,
      p.setClient t (some (c, k (p.shared.exec op choice).1)),
      .act t op (p.shared.exec op choice).1 :: p.log⟩ := by
  obtain ⟨hnone, hnext⟩ := h.tracked t c _ hclient
  have hnext := hnext (p.shared.exec op choice).1 trivial
  rw [hnone] at hnext
  refine h.move (h.tracked.act hclient trivial) (fun path => op.registers = some path)
    (mem_exec_pathIndex p.shared op choice) fun path => ?_
  rw [hclient]
  constructor
  · rintro (⟨t', payload, cas, heq⟩ | hx)
    · cases heq
    · -- A client that is done with a put has just entered its path.
      cases hregisters : op.registers with
      | none =>
        have hrest : Follows registerProtocol (Registered c) none
            (k (p.shared.exec op choice).1) := by
          simpa [registerProtocol, hregisters] using hnext
        exact (not_acknowledgesPut_of_registered hrest hx).elim
      | some path' =>
        have hrest : Follows registerProtocol (Registered c) (some path')
            (k (p.shared.exec op choice).1) := by
          simpa [registerProtocol, hregisters] using hnext
        obtain ⟨payload, cas, heq⟩ := acknowledgesPut_of_registered hrest
        obtain ⟨payload', cas', heq'⟩ := hx
        rw [heq] at heq'
        cases heq'
        exact Or.inl rfl
  · rintro (hregisters | ⟨payload, cas, heq⟩)
    · have hrest : Follows registerProtocol (Registered c) (some path)
          (k (p.shared.exec op choice).1) := by
        simpa [registerProtocol, hregisters] using hnext
      exact Or.inr (acknowledgesPut_of_registered hrest)
    · cases heq

theorem Indexing.respond (h : Indexing paths p) {r : Except EngineError Out}
    (hclient : p.client t = some (c, .done r)) :
    Indexing paths ⟨p.shared, p.setClient t none, .respond t c r :: p.log⟩ := by
  refine h.move (h.tracked.respond t c r) (fun _ => False) (fun _ => by simp) ?_
  intro path
  rw [hclient, false_or]
  constructor
  · rintro (⟨t', payload, cas, heq⟩ | ⟨payload, cas, heq⟩)
    · cases heq
      exact ⟨payload, cas, rfl⟩
    · cases heq
  · rintro ⟨payload, cas, heq⟩
    cases heq
    exact Or.inl ⟨t, payload, cas, rfl⟩

theorem Indexing.env (h : Indexing paths p) (e : EnvStep) :
    Indexing paths ⟨p.shared.env e, p.client, .env e :: p.log⟩ := by
  refine ⟨h.tracked.env _ e, fun path => ?_⟩
  change path ∈ (p.shared.env e).pathIndex ↔ _
  rw [env_pathIndex, h.index path]
  refine or_congr_right (or_congr_left ?_)
  simp

theorem Indexing.run (h : Indexing paths p) (rkyv : Rkyv B) (labels : List (Step B Tid)) :
    Indexing paths (p.run (body rkyv) labels) := by
  have hall : Along (Pool.step (body rkyv)) (fun _ _ => True) p labels :=
    Along.of_forall p fun _ _ => trivial
  refine Pool.run_invariant ?_ ?_ ?_ ?_ h hall
  · exact fun p t c hp _ hclient => hp.invoke rkyv c hclient
  · exact fun p t choice c op k hp _ hclient => hp.act hclient
  · exact fun p t c r hp _ hclient => hp.respond hclient
  · exact fun p e hp _ => hp.env e

end Steps

/-! ## Main result -/

/-- The parts list what the engine lists. -/
theorem Models.listKeys {h : ShardedHashing} {s : Assembly} {a : KvEngine Bytes}
    (hm : Models h s a) (pre : String) : s.listKeys pre = a.listKeysBytes pre := by
  obtain ⟨manager, htree, hholds⟩ := pathTree_holds a
  have hparts : s.pathIndex.getAllPaths = some (a.pathIndex.toFinset.sort (· ≤ ·)) :=
    hm.pathIndex.getAllPaths
  have hpaths : manager.getAllPaths = some (a.pathIndex.toFinset.sort (· ≤ ·)) :=
    hholds.getAllPaths
  simp [Assembly.listKeys, KvEngine.listKeysBytes, htree, hparts, hpaths]

/-- Listings never panic and are increasing. They show what the paths found at the start and
those of the acknowledged puts contribute and nothing else, and so each directory of such a
path lists its next segment. -/
structure ListsAcknowledged {h : ShardedHashing} (keys : List String)
    (p : Pool (assembled h) EngineError Call Out Tid) : Prop where
  listed : ∀ pre, ∃ listing, p.shared.listKeys pre = some listing ∧ listing.Pairwise (· < ·) ∧
    ∀ key, key ∈ listing ↔
      ∃ path, (path ∈ keys.filterMap pathOfKey ∨ PutAcknowledged path p) ∧
        listedKey pre path = some key
  segments : ∀ (segments : List String) (i : ℕ) (pre : String), i < segments.length →
    (∀ part ∈ segments, part ≠ "" ∧ '/' ∉ part.toList) →
    PutAcknowledged ("/".intercalate segments) p →
    (pre = "/".intercalate (segments.take i) ∨
      0 < i ∧ pre = "/".intercalate (segments.take i) ++ "/") →
    ∃ listing, p.shared.listKeys pre = some listing ∧ segmentKey segments i ∈ listing

theorem run_listsAcknowledged [DecidableEq Tid] (h : ShardedHashing) (rkyv : Rkyv Bytes)
    (rocksdb : String → Option Bytes) (keys : List String) (mode : SyncMode) :
    ∃ s, Assembly.opened rocksdb keys mode = some s ∧
      ∀ labels : List (Label (assembled h) Call Tid),
        ListsAcknowledged keys ((Pool.init s).run (body rkyv) labels) := by
  obtain ⟨s, hopened, hstart⟩ := opened_agrees h rocksdb keys mode
  refine ⟨s, hopened, fun labels => ?_⟩
  obtain ⟨labels', -, hagree⟩ := hstart.run (body rkyv) labels
  have hindexing := (indexing_opened rocksdb mode (scannedIndex keys)).run rkyv labels'
  generalize (Pool.init s).run (body rkyv) labels = p at hagree
  generalize (Clients.opened rocksdb mode (scannedIndex keys)).run (body rkyv) labels' = q at *
  have hacknowledged : ∀ path, PutAcknowledged path p ↔ PutAcknowledged path q := by
    intro path
    refine or_congr ?_ ?_
    · exact exists_congr fun t => exists_congr fun payload => exists_congr fun cas =>
        hagree.mem_log (.respond t (.putVersion path payload cas) (.ok .unit))
    · rw [hagree.client]
  have hlisted : ∀ pre, ∃ listing, p.shared.listKeys pre = some listing ∧
      listing.Pairwise (· < ·) ∧ ∀ key, key ∈ listing ↔
        ∃ path, (path ∈ keys.filterMap pathOfKey ∨ PutAcknowledged path p) ∧
          listedKey pre path = some key := by
    intro pre
    rw [hagree.related.listKeys, listKeysBytes_eq]
    refine ⟨_, listKeys_eq q.shared pre, listKeys_increasing (listKeys_eq q.shared pre), ?_⟩
    intro key
    rw [mem_listKeys (listKeys_eq q.shared pre)]
    refine exists_congr fun path => and_congr_left fun _ => ?_
    rw [hindexing.index, hacknowledged]
    simp [scannedIndex, mem_foldl_insert]
  refine ⟨hlisted, fun segments i pre hi hsegments hput hpre => ?_⟩
  obtain ⟨listing, hlisting, -, hmem⟩ := hlisted pre
  refine ⟨listing, hlisting, (hmem _).mpr ⟨_, Or.inr hput, ?_⟩⟩
  exact listedKey_segments hsegments hi hpre

end Kallisto.Engine
