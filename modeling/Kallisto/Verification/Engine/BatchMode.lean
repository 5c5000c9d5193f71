import Kallisto.Verification.Engine.Conformance

/-! # Reading own writes in batch mode -/

namespace Kallisto.Engine

open Program Interleaving

variable {B : Type} {r : Except EngineError Out} {x : SecretPayload} {given : Assumed}

/-! ## Histories of the store -/

section Histories

variable {Tid : Type} [DecidableEq Tid] {given : Assumed} {a₀ a : Store}

/-- Versions are never taken away. -/
theorem length_le_of_history {earlier later : List (Event (system B) EngineError Call Out Tid)}
    (h : History (Answers given) a₀ a (later ++ earlier)) (path : String) :
    ∃ a', History (Answers given) a₀ a' earlier ∧ (a' path).length ≤ (a path).length := by
  refine h.split (R := fun a₁ a₂ => (a₁ path).length ≤ (a₂ path).length)
    (fun _ => Nat.le_refl _) later ?_
  exact fun _ _ _ _ _ _ _ _ hpost hle => hle.trans (hpost.length path).1

/-- Without an acknowledged mutation a path keeps its versions. -/
theorem same_of_unmutated {earlier between : List (Event (system B) EngineError Call Out Tid)}
    (h : History (Answers given) a₀ a (between ++ earlier)) {path : String}
    (hmutates : ∀ t c out, .respond t c (.ok out) ∈ between → c.mutates ≠ some path) :
    ∃ a', History (Answers given) a₀ a' earlier ∧ a' path = a path := by
  refine h.split (R := fun a₁ a₂ => a₁ path = a₂ path) (fun _ => rfl) between ?_
  intro t c r trace a₁ a₂ a₃ hmem hpost heq
  refine heq.trans (hpost.unmutated fun out hr => ?_).symm
  rw [hr] at hmem
  exact hmutates t c out hmem

/-- What a request answers when there is room in the queue. -/
theorem Answers.reply {c : Call} {trace : List ((op : Effect B) × op.Ret)} {a' : Store}
    (hroom : given.room = true) (h : Answers given a c r trace a') :
    ∃ ticked, r.map Out.reply = (a.performAt ticked c).1 := by
  rcases h with ⟨ticked, _, hr, _, _⟩ | ⟨hfull, _, _⟩
  · exact ⟨ticked, hr⟩
  · rw [hroom] at hfull
    cases hfull

/-- The last version is read. -/
theorem readVersion_append {path : String} {vs : List Version}
    (h : a path = vs ++ [⟨x, false, false⟩]) :
    a.readVersion path 0 = .ok (.version x ⟨vs.length + 1, false, false⟩) := by
  simp [Store.readVersion, h, nth, Version.info]

theorem reply_version {info : VersionInfo} (h : r.map Out.reply = .ok (.version x info)) :
    ∃ state, r = .ok (.version x state) := by
  cases r with
  | error e => cases h
  | ok out =>
    cases out with
    | version y state =>
      obtain ⟨rfl, _⟩ : y = x ∧ _ := by simpa [Except.map, Out.reply] using h
      exact ⟨state, rfl⟩
    | unit => cases h
    | metadata m => cases h

theorem reply_metadata {path : String} (hpath : a path ≠ [])
    (h : r.map Out.reply = a.readMetadata path) :
    ∃ m, r = .ok (.metadata m) ∧ m.currentVersion.toNat = (a path).length := by
  rw [Store.readMetadata, if_neg hpath] at h
  cases r with
  | error e => cases h
  | ok out =>
    cases out with
    | metadata m =>
      obtain ⟨hcurrent, _⟩ : m.currentVersion.toNat = (a path).length ∧ _ := by
        simpa [Except.map, Out.reply] using h
      exact ⟨m, rfl, hcurrent⟩
    | unit => cases h
    | version y state => cases h

end Histories

/-! ## What a client may rely on -/

/-- The request has written the payload of the version with the number. -/
def WroteVersion (path : String) (n : UInt32) (trace : List ((op : Effect B) × op.Ret)) : Prop :=
  ∃ b, .put (buildVersionKey path n) b ∈ writesOf trace

/-- A client reads its last acknowledged put until it mutates the path again, is never
shown an older metadata record, and gets a new number for every put. -/
structure ReadsOwnWrites (log : List (Event (system B) EngineError Call Out Unit)) : Prop where
  latest : ∀ after between before path x cas out r,
    log = after ++ .respond () (.readVersion path 0) r ::
      (between ++ .respond () (.putVersion path x cas) (.ok out) :: before) →
    (∀ t c out', .respond t c (.ok out') ∈ between → c.mutates ≠ some path) →
    ∃ state, r = .ok (.version x state)
  current : ∀ after between before path m r,
    log = after ++ .respond () (.readMetadata path) r ::
      (between ++ .respond () (.readMetadata path) (.ok (.metadata m)) :: before) →
    ∃ m', r = .ok (.metadata m') ∧ m.currentVersion ≤ m'.currentVersion
  acknowledged : ∀ after between before path x cas out n r,
    log = after ++ .respond () (.readMetadata path) r ::
      (between ++ .respond () (.putVersion path x cas) (.ok out) :: before) →
    WroteVersion path n (callTrace () before) →
    ∃ m, r = .ok (.metadata m) ∧ n ≤ m.currentVersion
  fresh : ∀ after between before path x cas out x' cas' out' n n',
    log = after ++ .respond () (.putVersion path x' cas') (.ok out') ::
      (between ++ .respond () (.putVersion path x cas) (.ok out) :: before) →
    WroteVersion path n (callTrace () before) →
    WroteVersion path n' (callTrace ()
      (between ++ .respond () (.putVersion path x cas) (.ok out) :: before)) →
    n < n'

/-- The number of an acknowledged put is the next one of the store. -/
theorem Granted.number {a : Store} {path : String} {cas : Option UInt32} {out : Out}
    {trace : List ((op : Effect B) × op.Ret)} {n : UInt32}
    (h : Granted a (.putVersion path x cas) (.ok out) (writesOf trace))
    (hn : WroteVersion path n trace) : n.toNat = (a path).length + 1 := by
  obtain ⟨n', b, b', hn', hwrites⟩ := h
  obtain ⟨b'', hmem⟩ := hn
  rw [hwrites, List.mem_cons, List.mem_singleton] at hmem
  rcases hmem with heq | heq
  · have hkey : buildVersionKey path n = buildMetaKey path := congrArg AsyncOp.key heq
    exact (buildMetaKey_ne_buildVersionKey _ _ _ hkey.symm).elim
  · have hkey : buildVersionKey path n = buildVersionKey path n' := congrArg AsyncOp.key heq
    rw [(buildVersionKey_inj.mp hkey).2, hn']

/-- The history of an acknowledged put: its number and what it leaves. -/
theorem history_put {Tid : Type} [DecidableEq Tid] {a₀ a : Store} {t : Tid} {path : String}
    {cas : Option UInt32} {out : Out} {log : List (Event (system B) EngineError Call Out Tid)}
    (h : History (Answers given) a₀ a (.respond t (.putVersion path x cas) (.ok out) :: log)) :
    ∃ vs, a path = vs ++ [⟨x, false, false⟩] ∧
      ∀ n, WroteVersion path n (callTrace t log) → n.toNat = vs.length + 1 := by
  obtain ⟨a', _, hpost⟩ := h.answered
  obtain ⟨rfl, hgranted⟩ := hpost.put
  refine ⟨a' path, Function.update_self _ _ _, fun n hn => hgranted.number hn⟩

theorem history_readMetadata {Tid : Type} [DecidableEq Tid] (hroom : given.room = true)
    {a₀ a : Store} {t : Tid} {path : String}
    {log : List (Event (system B) EngineError Call Out Tid)}
    (h : History (Answers given) a₀ a (.respond t (.readMetadata path) r :: log)) :
    ∃ a', History (Answers given) a₀ a' log ∧ a' path = a path ∧
      r.map Out.reply = a'.readMetadata path := by
  obtain ⟨a', hlog, hpost⟩ := h.answered
  obtain ⟨ticked, hr⟩ := hpost.reply hroom
  exact ⟨a', hlog, (hpost.unmutated fun _ _ => nofun).symm, hr⟩

theorem readsOwnWrites (hroom : given.room = true) {a₀ a : Store}
    {log : List (Event (system B) EngineError Call Out Unit)}
    (h : History (Answers given) a₀ a log) : ReadsOwnWrites log where
  latest after between before path x cas out r hlog hmutates := by
    subst hlog
    obtain ⟨a₁, hread, _⟩ := length_le_of_history h path
    obtain ⟨a₂, hrest, hpost⟩ := hread.answered
    obtain ⟨ticked, hr⟩ := hpost.reply hroom
    obtain ⟨a₃, hput, hsame⟩ := same_of_unmutated hrest hmutates
    obtain ⟨vs, hvs, _⟩ := history_put hput
    exact reply_version (hr.trans (readVersion_append (hsame.symm.trans hvs)))
  current after between before path m r hlog := by
    subst hlog
    obtain ⟨a₁, hread, _⟩ := length_le_of_history h path
    obtain ⟨a₂, hrest, _, hr⟩ := history_readMetadata hroom hread
    obtain ⟨a₃, hearlier, hlength⟩ := length_le_of_history hrest path
    obtain ⟨a₄, _, hsame, hr'⟩ := history_readMetadata hroom hearlier
    have hknown : a₄ path ≠ [] := by
      intro hnil
      simp [Store.readMetadata, hnil, Except.map] at hr'
    obtain ⟨m', hm', hcurrent⟩ := reply_metadata hknown hr'
    cases hm'
    rw [← hsame] at hlength
    have hknown' := List.ne_nil_of_length_pos
      (Nat.lt_of_lt_of_le (List.length_pos_iff.mpr hknown) hlength)
    obtain ⟨m', hm', hcurrent'⟩ := reply_metadata hknown' hr
    refine ⟨m', hm', UInt32.le_iff_toNat_le.mpr ?_⟩
    rw [hcurrent, hcurrent']
    exact hlength
  acknowledged after between before path x cas out n r hlog hn := by
    subst hlog
    obtain ⟨a₁, hread, _⟩ := length_le_of_history h path
    obtain ⟨a₂, hrest, _, hr⟩ := history_readMetadata hroom hread
    obtain ⟨a₃, hput, hlength⟩ := length_le_of_history hrest path
    obtain ⟨vs, hvs, hnumber⟩ := history_put hput
    rw [hvs, List.length_append] at hlength
    have hknown := List.ne_nil_of_length_pos (Nat.lt_of_lt_of_le (Nat.succ_pos _) hlength)
    obtain ⟨m, hm, hcurrent⟩ := reply_metadata hknown hr
    refine ⟨m, hm, UInt32.le_iff_toNat_le.mpr ?_⟩
    rw [hnumber n hn, hcurrent]
    exact hlength
  fresh after between before path x cas out x' cas' out' n n' hlog hn hn' := by
    subst hlog
    obtain ⟨a₁, hlater, _⟩ := length_le_of_history h path
    obtain ⟨a₂, hrest, hpost⟩ := hlater.answered
    obtain ⟨a₃, hput, hlength⟩ := length_le_of_history hrest path
    obtain ⟨vs, hvs, hnumber⟩ := history_put hput
    rw [hvs, List.length_append] at hlength
    refine UInt32.lt_iff_toNat_lt.mpr ?_
    rw [hnumber n hn, hpost.put.2.number hn']
    exact Nat.lt_succ_of_le hlength

/-! ## Runs -/

section Runs

variable {Tid : Type}

def Effect.enqueues : Effect B → Bool
  | .enqueue _ => true
  | _ => false

/-- The queue has room for every write. -/
def QueueRoom (p : Clients B Tid) : Step B Tid → Prop
  | .act t _ => (p.nextCall t).any Effect.enqueues = true →
      p.shared.asyncQueue.length < queueCapacity
  | _ => True

/-- The cache loses only entries without a pending write. -/
def CleanDrop (p : Clients B Tid) : Step B Tid → Prop
  | .env (.dropEntry key) => ∀ op ∈ p.shared.pending, op.key ≠ key
  | _ => True

instance (p : Clients B Tid) (l : Step B Tid) : Decidable (QueueRoom p l) :=
  match l with
  | .act t _ => inferInstanceAs (Decidable ((p.nextCall t).any Effect.enqueues = true →
      p.shared.asyncQueue.length < queueCapacity))
  | .invoke _ _ => .isTrue trivial
  | .respond _ => .isTrue trivial
  | .env _ => .isTrue trivial

instance (p : Clients B Tid) (l : Step B Tid) : Decidable (CleanDrop p l) :=
  match l with
  | .env (.dropEntry key) => inferInstanceAs (Decidable
      (∀ op ∈ p.shared.pending, op.key ≠ key))
  | .env (.worker _ _) => .isTrue trivial
  | .env (.changeSyncMode _) => .isTrue trivial
  | .env .stop => .isTrue trivial
  | .invoke _ _ => .isTrue trivial
  | .act _ _ => .isTrue trivial
  | .respond _ => .isTrue trivial

end Runs

/-- In batch mode the requests of a client are answered in turn by a store, which the
engine holds. -/
theorem serialized_batch {rkyv : Rkyv B} (hrkyv : rkyv.Faithful) {a₀ : Store} {p : Clients B Unit}
    (h : Serialized (regime B .batch ⟨true, false⟩) (body rkyv) (Holds rkyv .batch)
      (Answers ⟨true, false⟩) a₀ p) {labels : List (Step B Unit)}
    (hsteps : Along (Pool.step (body rkyv))
      (fun p l => (SteadyStep l ∧ QueueRoom p l) ∧ FewPuts a₀ p l ∧ CleanDrop p l) p labels) :
    Serialized (regime B .batch ⟨true, false⟩) (body rkyv) (Holds rkyv .batch)
      (Answers ⟨true, false⟩) a₀ (p.run (body rkyv) labels) := by
  refine Serialized.run (specification hrkyv .batch ⟨true, false⟩) (body_ne_done rkyv)
    ?_ ?_ ?_ ?_ h hsteps
  · exact fun p t choice _ hstarted _ => hstarted
  · exact fun a p t choice c prog h hok hclient =>
      fitting_of_roomFor h (hok.2.1.roomFor hclient) fun _ _ _ => rfl
  · rintro p t choice c op k ⟨⟨herror, hroom⟩, _⟩ hclient
    refine ⟨herror, nofun, ?_⟩
    cases op with
    | enqueue op =>
      intro _ _
      exact hroom (by simp [Pool.nextCall, hclient, Effect.enqueues])
    | _ => trivial
  · rintro p e ⟨⟨he, _⟩, _, hdrop⟩
    cases e with
    | dropEntry key => exact Or.inr hdrop
    | worker timeout fails => exact he
    | changeSyncMode mode => exact he.elim
    | stop => trivial

/-- As long as the cache keeps what is still to be written, a client in batch mode reads
its own writes. -/
theorem run_readsOwnWrites {rkyv : Rkyv B} (hrkyv : rkyv.Faithful) {db : String → Option B}
    {a₀ : Store} (hdb : Stores rkyv db a₀) (paths : List String) (labels : List (Step B Unit))
    (hsteps : Along (Pool.step (body rkyv))
      (fun p l => (SteadyStep l ∧ QueueRoom p l) ∧ FewPuts a₀ p l ∧ CleanDrop p l)
      (Clients.opened db .batch paths) labels) :
    ReadsOwnWrites ((Clients.opened db .batch paths).run (body rkyv) labels).log := by
  have hrun := serialized_batch hrkyv (serialized_opened hdb .batch ⟨true, false⟩ paths) hsteps
  obtain ⟨a, hhistory, _⟩ := hrun.running
  exact readsOwnWrites rfl hhistory

/-- A put, the given steps of the worker, the loss of the cached metadata, and a read. -/
def forgetting (worker : List Bool) : List (Step Record Unit) :=
  List.flatten [
    requesting () (.putVersion "p" ⟨"x", 0⟩ none) 10,
    worker.map fun timeout => .env (.worker timeout false),
    [.env (.dropEntry (buildMetaKey "p"))],
    requesting () (.readVersion "p" 0) (if worker = [] then 2 else 4)]

theorem run_readsOwnWrites_flushed :
    Along (Pool.step (body Record.rkyv))
        (fun p l => (SteadyStep l ∧ QueueRoom p l) ∧ FewPuts (fun _ => []) p l ∧ CleanDrop p l)
        (Clients.opened (fun _ => none) .batch [])
        (forgetting [false, false, false, false, false, true]) ∧
      ReadsOwnWrites ((Clients.opened (fun _ => none) .batch []).run (body Record.rkyv)
        (forgetting [false, false, false, false, false, true])).log := by
  have hsteps : Along (Pool.step (body Record.rkyv))
      (fun p l => (SteadyStep l ∧ QueueRoom p l) ∧ FewPuts (fun _ => []) p l ∧ CleanDrop p l)
      (Clients.opened (fun _ => none) .batch [])
      (forgetting [false, false, false, false, false, true]) := by decide
  exact ⟨hsteps, run_readsOwnWrites Record.rkyv_faithful (stores_empty _) [] _ hsteps⟩

/-- With the put still queued the lost entry is looked for on disk, and the path is
unknown. -/
theorem forgetting_loses_put :
    Along (Pool.step (body Record.rkyv))
        (fun p l => (SteadyStep l ∧ QueueRoom p l) ∧ FewPuts (fun _ => []) p l)
        (Clients.opened (fun _ => none) .batch []) (forgetting []) ∧
      ¬ ReadsOwnWrites ((Clients.opened (fun _ => none) .batch []).run (body Record.rkyv)
        (forgetting [])).log := by
  refine ⟨by decide, fun h => ?_⟩
  have hread := h.latest [] [.act () (.getRaw "m:p") (.ok none : Except String (Option Record)),
    .act () (.cacheLookup "m:p") (none : Option Record), .invoke () (.readVersion "p" 0),
    .env (.dropEntry "m:p")] _ "p" ⟨"x", 0⟩ none .unit (.error .notFound) rfl
    (fun t c out hmem => by simp at hmem)
  obtain ⟨state, hstate⟩ := hread
  cases hstate

end Kallisto.Engine
