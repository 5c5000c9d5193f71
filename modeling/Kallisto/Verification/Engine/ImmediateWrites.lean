import Kallisto.Verification.Engine.Durability

/-! # Durability in immediate mode

A direct write is on stable storage when it returns, provided that the backend syncs it,
and only later writes to its key replace it there. -/

namespace Kallisto.Engine

open Program Interleaving

variable {B Tid : Type} {op : Effect B} {o : AsyncOp B} {s : KvEngine B}
  {e : Event (system B) EngineError Call Out Tid} {p : Clients B Tid} {t : Tid} {l : Step B Tid}
  {x : Installation B Tid}

/-! ## Direct writes -/

/-- The raw write that an event made, when it was accepted. -/
def accepted : Event (system B) EngineError Call Out Tid → List (AsyncOp B)
  | .act _ op r => (op.acked r).toList
  | _ => []

theorem acknowledged_cons (e : Event (system B) EngineError Call Out Tid)
    (log : List (Event (system B) EngineError Call Out Tid)) :
    acknowledged (e :: log) = acknowledged log ++ accepted e := by
  cases e with
  | act t op r => rfl
  | _ => exact (List.append_nil _).symm

/-- The response itself writes nothing. -/
theorem acknowledged_respond (t : Tid) (c : Call) (r : Except EngineError Out)
    (later during : List (Event (system B) EngineError Call Out Tid)) :
    acknowledged (later ++ .respond t c r :: during) = acknowledged (later ++ during) := by
  induction later with
  | nil => rfl
  | cons e later ih => simp only [List.cons_append, acknowledged_cons, ih]

/-- The key holds, and will hold, the value of one of the writes. -/
structure Shelved (s : KvEngine B) (key : String) (writes : List (AsyncOp B)) : Prop where
  rocksdb : WriteBehind.Holds AsyncOp.key AsyncOp.value s.rocksdb key writes
  pending : ∀ o ∈ s.pending, o.key = key → o ∈ writes

theorem stored_acked (s : KvEngine B) {c : Choice} (h : o ∈ op.stored c) :
    op.acked (s.exec op c).1 = some o := by
  obtain ⟨_ | e, now⟩ := c
  · cases op with
    | putRaw key value =>
      rw [List.mem_singleton.mp h]
      rfl
    | delRaw key =>
      rw [List.mem_singleton.mp h]
      rfl
    | _ => cases h
  · cases op <;> cases h

theorem exec_pending (s : KvEngine B) (op : Effect B) (c : Choice)
    (h : o ∈ (s.exec op c).2.pending) : o ∈ s.pending ∨ op.acked (s.exec op c).1 = some o := by
  obtain ⟨error, now⟩ := c
  cases op with
  | getRaw key => cases error <;> exact Or.inl h
  | putRaw key value => cases error <;> exact Or.inl h
  | delRaw key => cases error <;> exact Or.inl h
  | enqueue op =>
    simp only [KvEngine.exec] at h ⊢
    split at h
    · next hroom =>
      rw [if_pos hroom]
      have hmem : o ∈ s.batch ++ (s.asyncQueue ++ [op]) := h
      rw [← List.append_assoc] at hmem
      rcases List.mem_append.mp hmem with hmem | hmem
      · exact Or.inl hmem
      · rw [List.mem_singleton.mp hmem]
        exact Or.inr rfl
    · exact Or.inl h
  | _ => exact Or.inl h

theorem flushed_pending {timeout fails : Bool} (h : o ∈ s.flushed timeout fails) :
    o ∈ s.pending := by
  have hbatch : o ∈ s.batch := by
    unfold KvEngine.flushed at h
    split at h
    · split at h
      · split at h
        · cases h
        · exact h
      · cases h
    · split at h
      · split at h
        · cases h
        · exact h
      · cases h
    · cases h
  exact List.mem_append_left _ hbatch

theorem workerStep_pending {timeout fails : Bool} (h : o ∈ (s.workerStep timeout fails).pending) :
    o ∈ s.pending := by
  rw [KvEngine.workerStep_eq] at h
  obtain ⟨cache, db, mode, queue, running, worker, batch, paths⟩ := s
  cases worker with
  | head => exact h
  | poll =>
    cases queue with
    | nil => exact h
    | cons op rest =>
      have hmem : o ∈ (batch ++ [op]) ++ rest := h
      rwa [List.append_assoc] at hmem
  | settle =>
    dsimp only at h
    split at h
    · exact List.mem_append_right _ h
    · exact h
  | drain =>
    cases queue with
    | nil => exact List.mem_append_right _ h
    | cons op rest =>
      have hmem : o ∈ (batch ++ [op]) ++ rest := h
      rwa [List.append_assoc] at hmem
  | exited => exact h

namespace Shelved

variable {s : KvEngine B} {key : String} {writes : List (AsyncOp B)}

theorem exec (h : Shelved s key writes) (op : Effect B) (c : Choice) :
    Shelved (s.exec op c).2 key (writes ++ (op.acked (s.exec op c).1).toList) where
  rocksdb := by
    rw [rocksdb_exec]
    refine WriteBehind.Holds.writeAll (h.rocksdb.mono fun o ho => List.mem_append_left _ ho) ?_
    intro o ho _
    rw [stored_acked s ho]
    simp
  pending o ho hkey := by
    rcases exec_pending s op c ho with ho | hacked
    · exact List.mem_append_left _ (h.pending o ho hkey)
    · rw [hacked]
      simp

theorem env (h : Shelved s key writes) (e : EnvStep) : Shelved (s.env e) key writes := by
  cases e with
  | worker timeout fails =>
    refine ⟨?_, fun o ho hkey => h.pending o (workerStep_pending ho) hkey⟩
    change WriteBehind.Holds _ _ (s.workerStep timeout fails).rocksdb key writes
    rw [rocksdb_workerStep]
    exact h.rocksdb.writeAll fun o ho hkey => h.pending o (flushed_pending ho) hkey
  | _ => exact ⟨h.rocksdb, h.pending⟩

end Shelved

/-- An accepted direct write is the only thing that its call does. -/
theorem direct_exec (s : KvEngine B) {c : Choice} (hacked : op.acked (s.exec op c).1 = some o)
    (hdirect : op.writes = some o.key) :
    op.stored c = [o] ∧ (s.exec op c).2 = { s with rocksdb := o.apply s.rocksdb } := by
  obtain ⟨_ | e, now⟩ := c
  · cases op with
    | putRaw key value =>
      cases hacked
      exact ⟨rfl, rfl⟩
    | delRaw key =>
      cases hacked
      exact ⟨rfl, rfl⟩
    | _ => cases hdirect
  · cases op with
    | putRaw key value => cases hacked
    | delRaw key => cases hacked
    | _ => cases hdirect

/-! ## Positions in the log -/

/-- An accepted direct write, followed by the later events. -/
def WroteDirectly (log later : List (Event (system B) EngineError Call Out Tid))
    (o : AsyncOp B) : Prop :=
  ∃ t op r earlier, log = later ++ .act t op r :: earlier ∧ op.acked r = some o ∧
    op.writes = some o.key

theorem WroteDirectly.of_cons {log later : List (Event (system B) EngineError Call Out Tid)}
    (h : WroteDirectly (e :: log) later o) :
    (later = [] ∧ ∃ t op r, e = .act t op r ∧ op.acked r = some o ∧ op.writes = some o.key) ∨
      ∃ later', later = e :: later' ∧ WroteDirectly log later' o := by
  obtain ⟨t, op, r, earlier, hlog, hacked, hdirect⟩ := h
  rcases List.cons_eq_append_iff.mp hlog with ⟨hnil, hcons⟩ | ⟨later', hlater, hrest⟩
  · exact Or.inl ⟨hnil, t, op, r, (List.cons.inj hcons).1.symm, hacked, hdirect⟩
  · exact Or.inr ⟨later', hlater, t, op, r, earlier, hrest, hacked, hdirect⟩

/-- Only later writes to its key replace a direct write in RocksDB. -/
def Covered (p : Clients B Tid) : Prop :=
  ∀ later o, WroteDirectly p.log later o → Shelved p.shared o.key (o :: acknowledged later)

theorem Covered.quiet (h : Covered p) {client : Tid → Option (Call × EngineM B Out)}
    (he : ∀ t op r, e ≠ .act t op r)
    (hs : ∀ key writes, Shelved p.shared key writes → Shelved s key writes) :
    Covered (⟨s, client, e :: p.log⟩ : Clients B Tid) := by
  intro later o hwrote
  rcases hwrote.of_cons with ⟨_, t, op, r, rfl, _⟩ | ⟨later, rfl, hold⟩
  · exact (he t op r rfl).elim
  · have haccepted : accepted e = [] := by
      cases e with
      | act t op r => exact (he t op r rfl).elim
      | _ => rfl
    rw [acknowledged_cons, haccepted, List.append_nil]
    exact hs _ _ (h later o hold)

theorem Covered.act [DecidableEq Tid] (h : Covered p) {choice : Choice}
    {x : Option (Call × EngineM B Out)}
    (hwrites : ∀ op' ∈ p.shared.pending, op.writes ≠ some op'.key) :
    Covered (⟨(p.shared.exec op choice).2, p.setClient t x,
      .act t op (p.shared.exec op choice).1 :: p.log⟩ : Clients B Tid) := by
  intro later o hwrote
  rcases hwrote.of_cons with ⟨rfl, _, _, _, heq, hacked, hdirect⟩ | ⟨later, rfl, hold⟩
  · cases heq
    obtain ⟨-, hexec⟩ := direct_exec p.shared hacked hdirect
    change Shelved (p.shared.exec op choice).2 o.key [o]
    rw [hexec]
    refine ⟨⟨o, List.mem_singleton_self o, rfl, AsyncOp.apply_key _ o⟩, ?_⟩
    intro o' ho' hkey
    exact (hwrites o' ho' (hdirect.trans (congrArg some hkey.symm))).elim
  · rw [acknowledged_cons]
    exact (h later o hold).exec op choice

/-- A direct write is made only when no write to its key is pending. -/
theorem Covered.step [DecidableEq Tid] (h : Covered p) (rkyv : Rkyv B) (hl : NotOvertaking p l) :
    Covered (p.step (body rkyv) l) := by
  refine Pool.step_invariant (I := Covered) NotOvertaking ?_ ?_ ?_ ?_ h hl
  · exact fun p t c h _ _ => h.quiet (Event.invoke_ne_act t c) fun _ _ hs => hs
  · intro p t choice c op k h hok hclient
    refine h.act fun op' hop' hwrites => hok op' hop' ?_
    simpa [Pool.nextCall, hclient] using hwrites
  · exact fun p t c r h _ _ => h.quiet (Event.respond_ne_act t c r) fun _ _ hs => hs
  · exact fun p e h _ => h.quiet (Event.env_ne_act e) fun _ _ hs => hs.env e

/-! ## Stable storage -/

/-- Only later writes to its key replace a direct write on stable storage. -/
def Kept (x : Installation B Tid) : Prop :=
  ∀ later o, WroteDirectly x.clients.log later o →
    WriteBehind.Holds AsyncOp.key AsyncOp.value x.backend.synced o.key (o :: acknowledged later)

/-- The backend syncs direct writes, they do not overtake pending writes, and the mode is
changed only while no request is running. -/
def DurableStep (x : Installation B Tid) : Action B Tid → Prop
  | .engine (.act t choice) =>
    ((x.clients.nextCall t).bind Effect.writes ≠ none → x.backend.sync = true) ∧
      NotOvertaking x.clients (.act t choice)
  | .engine (.env (.changeSyncMode _)) => ∀ t, x.clients.client t = none
  | _ => True

/-- A step adds at most one event, that of its own call. -/
theorem step_log [DecidableEq Tid] (rkyv : Rkyv B) (p : Clients B Tid) (l : Step B Tid) :
    (p.step (body rkyv) l).log = p.log ∨ ∃ e, (p.step (body rkyv) l).log = e :: p.log ∧
      ∀ t op r, e = .act t op r → ∃ choice, l = .act t choice ∧ p.nextCall t = some op ∧
        (p.step (body rkyv) l).shared = (p.shared.exec op choice).2 ∧
        r = (p.shared.exec op choice).1 := by
  have hmoves := Pool.step_moves (body rkyv) p l
  generalize p.step (body rkyv) l = p' at hmoves
  cases hmoves with
  | stays => exact Or.inl rfl
  | invoke t c hclient =>
    exact Or.inr ⟨_, rfl, fun _ _ _ heq => (Event.invoke_ne_act t c _ _ _ heq).elim⟩
  | act t choice c op k hclient =>
    refine Or.inr ⟨_, rfl, ?_⟩
    intro t' op' r' heq
    cases heq
    exact ⟨choice, rfl, by rw [Pool.nextCall, hclient], rfl, rfl⟩
  | respond t c r hclient =>
    exact Or.inr ⟨_, rfl, fun _ _ _ heq => (Event.respond_ne_act t c r _ _ _ heq).elim⟩
  | env e => exact Or.inr ⟨_, rfl, fun _ _ _ heq => (Event.env_ne_act e _ _ _ heq).elim⟩

theorem DurableStep.notOvertaking (h : DurableStep x (.engine l)) : NotOvertaking x.clients l := by
  cases l with
  | act t choice => exact h.2
  | _ => trivial

/-- After a synced write everything is on stable storage. -/
theorem RocksDbBackend.synced_write_of_sync {d : RocksDbBackend B} (h : d.sync = true)
    (o : AsyncOp B) : (d.write [o]).synced = (d.write [o]).contents := by
  simp only [write, h, if_true]
  rfl

theorem Kept.step [DecidableEq Tid] (h : Kept x) (hconsistent : x.Consistent)
    (hcovered : Covered x.clients) (rkyv : Rkyv B) {a : Action B Tid} (ha : DurableStep x a) :
    Kept (x.step rkyv a) := by
  cases a with
  | setSync sync => exact h
  | forceFlush error =>
    cases error with
    | some e => exact h
    | none =>
      intro later o hwrote
      have hheld := (hcovered later o hwrote).rocksdb
      rw [show x.clients.shared.rocksdb = x.backend.contents from hconsistent] at hheld
      exact hheld
  | engine l =>
    have hnext : (x.step rkyv (.engine l)).clients.shared.rocksdb =
      (x.step rkyv (.engine l)).backend.contents := hconsistent.step rkyv (.engine l)
    -- Whatever was synced now is as good as RocksDB itself.
    have hwhole : (x.step rkyv (.engine l)).backend.synced =
        (x.step rkyv (.engine l)).backend.contents → Kept (x.step rkyv (.engine l)) := by
      intro hsynced later o hwrote
      rw [hsynced, ← hnext]
      exact (hcovered.step rkyv ha.notOvertaking later o hwrote).rocksdb
    rcases x.backend.synced_write (storedBy x.clients l) with hsame | hsynced
    · intro later o hwrote
      change WriteBehind.Holds _ _ (x.backend.write (storedBy x.clients l)).synced _ _
      rcases step_log rkyv x.clients l with hlog | ⟨e, hlog, hevent⟩
      · rw [hsame]
        refine h later o ?_
        rwa [← hlog]
      · have hwrote' : WroteDirectly (e :: x.clients.log) later o := by rwa [← hlog]
        rcases hwrote'.of_cons with ⟨-, t, op, r, rfl, hacked, hdirect⟩ | ⟨later, rfl, hold⟩
        · obtain ⟨choice, rfl, hcall, -, rfl⟩ := hevent t op r rfl
          have hstored : storedBy x.clients (.act t choice) = [o] := by
            simp only [storedBy, hcall]
            exact (direct_exec x.clients.shared hacked hdirect).1
          have hsync : x.backend.sync = true := ha.1 (by simp [hcall, hdirect])
          refine hwhole ?_ later o hwrote
          change (x.backend.write (storedBy x.clients (.act t choice))).synced =
            (x.backend.write (storedBy x.clients (.act t choice))).contents
          rw [hstored]
          exact RocksDbBackend.synced_write_of_sync hsync o
        · rw [hsame, acknowledged_cons]
          exact (h later o hold).mono fun o' ho' => List.mem_append_left (accepted e) ho'
    · exact hwhole hsynced

/-! ## Mutations in immediate mode -/

/-- The sync mode after the events. -/
def modeAfter (mode : SyncMode) : List (Event (system B) EngineError Call Out Tid) → SyncMode
  | [] => mode
  | .env (.changeSyncMode m) :: _ => m
  | _ :: log => modeAfter mode log

/-- All accepted writes among the calls are direct. -/
def Direct (trace : List ((op : Effect B) × op.Ret)) : Prop :=
  ∀ y ∈ trace, ∀ o, y.1.acked y.2 = some o → y.1.writes = some o.key

/-- The mode is changed only while no request is running. -/
def IdleModeChange (p : Clients B Tid) : Step B Tid → Prop
  | .env (.changeSyncMode _) => ∀ t, p.client t = none
  | _ => True

theorem DurableStep.idleModeChange (h : DurableStep x (.engine l)) :
    IdleModeChange x.clients l := by
  cases l with
  | env e =>
    cases e with
    | changeSyncMode m => exact h
    | _ => trivial
  | _ => trivial

theorem direct_of_allowed (h : (modeProtocol .immediate).allowed () op) (r : op.Ret)
    (hacked : op.acked r = some o) : op.writes = some o.key := by
  cases op with
  | putRaw key value =>
    obtain e | ⟨⟩ := r
    · cases hacked
    · cases hacked
      rfl
  | delRaw key =>
    obtain e | ⟨⟩ := r
    · cases hacked
    · cases hacked
      rfl
  | enqueue op => cases h
  | _ => cases hacked

section Mutations

variable [DecidableEq Tid]

/-- In immediate mode clients write directly. -/
structure WritesDirectly (mode : SyncMode) (p : Clients B Tid) : Prop where
  inMode : InMode p
  current : modeAfter mode p.log = p.shared.syncMode
  tracked : Tracked ackProtocol Outcome [] p
  running : ∀ t, p.client t ≠ none → p.shared.syncMode = .immediate → Direct (callTrace t p.log)
  answered : ∀ later t c r before, p.log = later ++ .respond t c r :: before →
    modeAfter mode before = .immediate →
    Direct (callTrace t before) ∧ Outcome c (writesOf (callTrace t before)) r

namespace WritesDirectly

variable {mode : SyncMode} {p : Clients B Tid}

/-- Earlier answers stay as they were. -/
theorem answered_cons (h : WritesDirectly mode p) (he : ∀ t c r, e ≠ .respond t c r) :
    ∀ later t c r before, e :: p.log = later ++ .respond t c r :: before →
      modeAfter mode before = .immediate →
      Direct (callTrace t before) ∧ Outcome c (writesOf (callTrace t before)) r := by
  intro later t c r before hlog
  rcases List.cons_eq_append_iff.mp hlog with ⟨-, hcons⟩ | ⟨later', -, hrest⟩
  · exact (he t c r (List.cons.inj hcons).1.symm).elim
  · exact h.answered later' t c r before hrest

theorem invoke (h : WritesDirectly mode p) (rkyv : Rkyv B) (t : Tid) (c : Call) :
    WritesDirectly mode
      ⟨p.shared, p.setClient t (some (c, body rkyv c)), .invoke t c :: p.log⟩ where
  inMode := h.inMode.invoke (follows_mode rkyv _ c) t
  current := h.current
  tracked := h.tracked.invoke (follows_body_outcome rkyv c) t
  running t' hclient himmediate := by
    unfold callTrace
    split
    · exact fun y hy => by cases hy
    · next ht =>
      refine h.running t' ?_ himmediate
      change Function.update p.client t _ t' ≠ none at hclient
      rwa [Function.update_of_ne (Ne.symm ht)] at hclient
  answered := h.answered_cons nofun

theorem act (h : WritesDirectly mode p) {c : Call} {k : op.Ret → EngineM B Out}
    (hclient : p.client t = some (c, .call op k)) (choice : Choice) :
    WritesDirectly mode ⟨(p.shared.exec op choice).2,
      p.setClient t (some (c, k (p.shared.exec op choice).1)),
      .act t op (p.shared.exec op choice).1 :: p.log⟩ where
  inMode := h.inMode.act hclient choice
  current := h.current.trans (exec_syncMode p.shared op choice).symm
  tracked := h.tracked.act hclient (exec_possible _ _ _ _)
  running t' hrunning himmediate := by
    have hmode : p.shared.syncMode = .immediate :=
      (exec_syncMode p.shared op choice).symm.trans himmediate
    unfold callTrace
    split
    · next ht =>
      subst ht
      intro y hy o hacked
      rcases List.mem_cons.mp hy with rfl | hy
      · have hallowed := h.inMode.allowed hclient
        rw [hmode] at hallowed
        exact direct_of_allowed hallowed _ hacked
      · exact h.running t (by rw [hclient]; exact Option.some_ne_none _) hmode y hy o hacked
    · next ht =>
      refine h.running t' ?_ hmode
      change Function.update p.client t _ t' ≠ none at hrunning
      rwa [Function.update_of_ne (Ne.symm ht)] at hrunning
  answered := h.answered_cons (Event.act_ne_respond t op _)

theorem respond (h : WritesDirectly mode p) {c : Call} {r : Except EngineError Out}
    (hclient : p.client t = some (c, .done r)) :
    WritesDirectly mode ⟨p.shared, p.setClient t none, .respond t c r :: p.log⟩ where
  inMode := h.inMode.respond t c r
  current := h.current
  tracked := h.tracked.respond t c r
  running t' hrunning himmediate := by
    refine h.running t' ?_ himmediate
    change Function.update p.client t none t' ≠ none at hrunning
    by_cases ht : t' = t
    · subst ht
      exact (hrunning (Function.update_self _ _ _)).elim
    · rwa [Function.update_of_ne ht] at hrunning
  answered later t' c' r' before hlog himmediate := by
    rcases List.cons_eq_append_iff.mp hlog with ⟨-, hcons⟩ | ⟨later', -, hrest⟩
    · cases hcons
      refine ⟨h.running t (by rw [hclient]; exact Option.some_ne_none _)
        (h.current.symm.trans himmediate), ?_⟩
      rw [← ackProtocol_after]
      exact h.tracked.returns hclient
    · exact h.answered later' t' c' r' before hrest himmediate

/-- A step of the environment that leaves the mode alone. -/
theorem env_of_ne (h : WritesDirectly mode p) {e : EnvStep} (he : ∀ m, e ≠ .changeSyncMode m) :
    WritesDirectly mode ⟨p.shared.env e, p.client, .env e :: p.log⟩ where
  inMode := h.inMode.env he
  current := by
    refine Eq.trans ?_ (h.current.trans (env_syncMode p.shared he).symm)
    cases e with
    | changeSyncMode m => exact (he m rfl).elim
    | _ => rfl
  tracked := h.tracked.env _ e
  running t hrunning himmediate :=
    h.running t hrunning ((env_syncMode p.shared he).symm.trans himmediate)
  answered := h.answered_cons nofun

theorem env (h : WritesDirectly mode p) {e : EnvStep}
    (he : IdleModeChange p (.env e : Step B Tid)) :
    WritesDirectly mode ⟨p.shared.env e, p.client, .env e :: p.log⟩ := by
  cases e with
  | changeSyncMode m =>
    exact ⟨InMode.of_idle he, rfl, h.tracked.env _ _, fun t hrunning => (hrunning (he t)).elim,
      h.answered_cons nofun⟩
  | _ => exact h.env_of_ne nofun

theorem step (h : WritesDirectly mode p) (rkyv : Rkyv B) (hl : IdleModeChange p l) :
    WritesDirectly mode (p.step (body rkyv) l) := by
  refine Pool.step_invariant (I := WritesDirectly mode) IdleModeChange ?_ ?_ ?_ ?_ h hl
  · exact fun p t c h _ _ => h.invoke rkyv t c
  · exact fun p t choice c op k h _ hclient => h.act hclient choice
  · exact fun p t c r h _ hclient => h.respond hclient
  · exact fun p e h he => h.env he

end WritesDirectly

/-! ## Runs -/

/-- A mutation that was acknowledged in immediate mode has written the metadata of its path,
and after a crash each record that it wrote, or a later one, is under its key. -/
structure Lasts (x : Installation B Tid)
    (later before : List (Event (system B) EngineError Call Out Tid)) (t : Tid)
    (path : String) : Prop where
  recorded : ∃ b, .put (buildMetaKey path) b ∈ writesOf (callTrace t before)
  present : ∀ during op r earlier o, before = during ++ .act t op r :: earlier →
    (∀ c, .invoke t c ∉ during) → op.acked r = some o → ∀ mode paths,
    WriteBehind.Holds AsyncOp.key AsyncOp.value (x.reopened mode paths).clients.shared.rocksdb o.key
      (o :: acknowledged (later ++ during))

/-- Mutations acknowledged in immediate mode survive a crash. -/
def ImmediateLasts (mode : SyncMode) (x : Installation B Tid) : Prop :=
  ∀ later t c out before path, x.clients.log = later ++ .respond t c (.ok out) :: before →
    modeAfter mode before = .immediate → c.mutates = some path → Lasts x later before t path

/-- The calls since the last request of a client began are its current ones. -/
theorem mem_callTrace {r : op.Ret} {earlier : List (Event (system B) EngineError Call Out Tid)} :
    ∀ {during : List (Event (system B) EngineError Call Out Tid)}, (∀ c, .invoke t c ∉ during) →
      ⟨op, r⟩ ∈ callTrace t (during ++ .act t op r :: earlier) := by
  intro during
  induction during with
  | nil => simp [callTrace]
  | cons e during ih =>
    intro hinvoke
    have hrest := ih fun c hc => hinvoke c (List.mem_cons_of_mem e hc)
    cases e with
    | invoke t' c =>
      have ht : t' ≠ t := by
        rintro rfl
        exact hinvoke c List.mem_cons_self
      simpa [callTrace, ht] using hrest
    | act t' op' r' =>
      simp only [List.cons_append, callTrace]
      split
      · exact List.mem_cons_of_mem _ hrest
      · exact hrest
    | respond t' c r' => exact hrest
    | env e => exact hrest

theorem Kept.immediateLasts {mode : SyncMode} (h : Kept x)
    (hdirect : WritesDirectly mode x.clients) : ImmediateLasts mode x := by
  intro later t c out before path hlog himmediate hpath
  obtain ⟨htrace, hout⟩ := hdirect.answered later t c _ before hlog himmediate
  constructor
  · unfold Outcome at hout
    rw [hpath] at hout
    obtain ⟨b, rest, hwrites, _⟩ := hout
    exact ⟨b, by rw [hwrites]; exact List.mem_cons_self⟩
  · rintro during op r earlier o rfl hinvoke hacked - -
    have hwrites := htrace ⟨op, r⟩ (mem_callTrace hinvoke) o hacked
    have hheld := h (later ++ .respond t c (.ok out) :: during) o
      ⟨t, op, r, earlier, by rw [hlog, List.append_assoc]; rfl, hacked, hwrites⟩
    rwa [acknowledged_respond] at hheld

/-- What the steps keep. -/
structure Durable (mode : SyncMode) (x : Installation B Tid) : Prop where
  consistent : x.Consistent
  covered : Covered x.clients
  kept : Kept x
  direct : WritesDirectly mode x.clients

theorem Durable.opened (db : String → Option B) (mode : SyncMode) (paths : List String) :
    Durable mode (Installation.opened db mode paths : Installation B Tid) where
  consistent := rfl
  covered := by
    rintro later o ⟨t, op, r, earlier, hlog, _⟩
    cases (List.append_eq_nil_iff.mp hlog.symm).2
  kept := by
    rintro later o ⟨t, op, r, earlier, hlog, _⟩
    cases (List.append_eq_nil_iff.mp hlog.symm).2
  direct := by
    refine ⟨tracked_init _, rfl, tracked_init _, fun t hclient => (hclient rfl).elim, ?_⟩
    intro later t c r before hlog
    cases (List.append_eq_nil_iff.mp hlog.symm).2

theorem Durable.step {mode : SyncMode} (h : Durable mode x) (rkyv : Rkyv B) {a : Action B Tid}
    (ha : DurableStep x a) : Durable mode (x.step rkyv a) where
  consistent := h.consistent.step rkyv a
  covered := by
    cases a with
    | engine l => exact h.covered.step rkyv ha.notOvertaking
    | setSync sync => exact h.covered
    | forceFlush error => exact h.covered
  kept := h.kept.step h.consistent h.covered rkyv ha
  direct := by
    cases a with
    | engine l => exact h.direct.step rkyv ha.idleModeChange
    | setSync sync => exact h.direct
    | forceFlush error => exact h.direct

/-- With the backend syncing direct writes, mutations of immediate mode survive a crash,
however the mode is switched in between. -/
theorem run_immediateLasts (rkyv : Rkyv B) (db : String → Option B) (mode : SyncMode)
    (paths : List String) (actions : List (Action B Tid))
    (hsteps : Along (Installation.step rkyv) DurableStep (Installation.opened db mode paths)
      actions) :
    ImmediateLasts mode ((Installation.opened db mode paths).run rkyv actions) := by
  have hinv : Durable mode ((Installation.opened db mode paths).run rkyv actions) :=
    Along.invariant (fun x a h ha => h.step rkyv ha) actions _ (Durable.opened db mode paths) hsteps
  exact hinv.kept.immediateLasts hinv.direct

end Mutations

/-! ## A put in immediate mode -/

instance (x : Installation B Unit) (a : Action B Unit) : Decidable (DurableStep x a) :=
  match a with
  | .engine (.act t choice) => inferInstanceAs (Decidable
      (((x.clients.nextCall t).bind Effect.writes ≠ none → x.backend.sync = true) ∧
        NotOvertaking x.clients (.act t choice)))
  | .engine (.env (.changeSyncMode _)) =>
    decidable_of_iff (x.clients.client () = none) ⟨fun h _ => h, fun h => h ()⟩
  | .engine (.invoke _ _) => .isTrue trivial
  | .engine (.respond _) => .isTrue trivial
  | .engine (.env (.dropEntry _)) => .isTrue trivial
  | .engine (.env (.worker _ _)) => .isTrue trivial
  | .engine (.env .stop) => .isTrue trivial
  | .setSync _ => .isTrue trivial
  | .forceFlush _ => .isTrue trivial

/-- The mode is switched and a put is acknowledged, after the given calls of `set_sync`. -/
def immediatePut (syncs : List Bool) : List (Action Record Unit) :=
  syncs.map .setSync ++
    (.env (.changeSyncMode .immediate) ::
      requesting () (.putVersion "p" ⟨"x", 0⟩ none) 10).map .engine

theorem run_immediateLasts_synced :
    Along (Installation.step Record.rkyv) DurableStep
        (Installation.opened (fun _ => none) .batch []) (immediatePut [true]) ∧
      ImmediateLasts .batch ((Installation.opened (fun _ => none) .batch []).run Record.rkyv
        (immediatePut [true])) := by
  have hsteps : Along (Installation.step Record.rkyv) DurableStep
      (Installation.opened (fun _ => none) .batch []) (immediatePut [true]) := by decide
  exact ⟨hsteps, run_immediateLasts Record.rkyv _ .batch [] _ hsteps⟩

/-- Changing the mode does not reach the flag of the backend: the put is acknowledged and a
crash loses it. -/
theorem immediatePut_lost :
    ¬ ImmediateLasts .batch ((Installation.opened (fun _ => none) .batch []).run Record.rkyv
      (immediatePut [])) := by
  intro h
  have hlasts := h [] () (.putVersion "p" ⟨"x", 0⟩ none) .unit _ "p" rfl rfl rfl
  obtain ⟨o, ho, -, hnone⟩ := hlasts.present
    [.act () (.insertPathIfAbsent "p") (), .act () (.cacheInsert "m:p"
      (.metadata ⟨1, 0, false, 0, [], [⟨1, 0, 1, false⟩]⟩)) ()]
    (.putRaw "m:p" (.metadata ⟨1, 0, false, 0, [], [⟨1, 0, 1, false⟩]⟩))
    (.ok () : Except String Unit) _ _ rfl (by simp) rfl .batch []
  rw [List.mem_singleton.mp ho] at hnone
  cases hnone

end Kallisto.Engine
