import Kallisto.Verification.Engine.Refinement

/-! # Histories of one client -/

namespace Kallisto.Engine

open Program Interleaving

variable {B : Type}

/-! ## Answers -/

section Answers

variable {given : Assumed} {a a' : Store} {c : Call} {r : Except EngineError Out}
  {trace : List ((op : Effect B) × op.Ret)}

theorem Answers.length (h : Answers given a c r trace a') (path : String) :
    (a path).length ≤ (a' path).length ∧ (a' path).length ≤ (a path).length + c.puts path := by
  rcases h with ⟨ticked, _, _, rfl, _⟩ | ⟨_, _, rfl⟩
  · exact (a.performs ticked c).length path
  · exact ⟨Nat.le_refl _, Nat.le_add_right _ _⟩

/-- A path changes only through its own acknowledged mutations. -/
theorem Answers.unmutated (h : Answers given a c r trace a') {path : String}
    (hmutates : ∀ out, r = .ok out → c.mutates ≠ some path) : a' path = a path := by
  rcases h with ⟨ticked, _, hr, rfl, _⟩ | ⟨_, _, rfl⟩
  · have hperforms := a.performs ticked c
    cases r with
    | error e => exact congrFun (hperforms.error hr.symm) path
    | ok out => exact hperforms.other (hmutates out rfl)
  · rfl

/-- An acknowledged put appends its payload and is given the next number. -/
theorem Answers.put {path : String} {x : SecretPayload} {cas : Option UInt32} {out : Out}
    (h : Answers given a (.putVersion path x cas) (.ok out) trace a') :
    a' = Function.update a path (a path ++ [⟨x, false, false⟩]) ∧
      Granted a (.putVersion path x cas) (.ok out) (writesOf trace) := by
  rcases h with ⟨ticked, _, hr, rfl, hgranted⟩ | ⟨_, hr, _⟩
  · refine ⟨?_, hgranted⟩
    change _ = (a.put path x cas).1 at hr
    rcases a.put_cases path x cas with ⟨e, he⟩ | heq
    · rw [he] at hr
      cases hr
    · exact congrArg Prod.snd heq
  · cases hr

end Answers

/-! ## Histories -/

section Histories

variable {Tid : Type}

/-- The store after the requests answered so far, from an initial store. -/
def storeAfter (a : Store) : List (Event (system B) EngineError Call Out Tid) → Store
  | [] => a
  | .respond _ c _ :: log => ((storeAfter a log).perform c).2
  | _ :: log => storeAfter a log

/-- Every request was answered as the store answers it. -/
def Conforms (a : Store) : List (Event (system B) EngineError Call Out Tid) → Prop
  | [] => True
  | .respond _ c r :: log =>
    r.map Out.reply = ((storeAfter a log).perform c).1 ∧ Conforms a log
  | _ :: log => Conforms a log

/-- The number of answered puts of a path. -/
def putsAnswered (path : String) : List (Event (system B) EngineError Call Out Tid) → ℕ
  | [] => 0
  | .respond _ c _ :: log => putsAnswered path log + c.puts path
  | _ :: log => putsAnswered path log

theorem destroyed_storeAfter {a : Store} {path : String} {n : ℕ}
    {earlier : List (Event (system B) EngineError Call Out Tid)}
    (h : (storeAfter a earlier).Destroyed path n) :
    ∀ later, (storeAfter a (later ++ earlier)).Destroyed path n
  | [] => h
  | .respond _ c _ :: later => (destroyed_storeAfter h later).performAt true c
  | .invoke _ _ :: later => destroyed_storeAfter h later
  | .act _ _ _ :: later => destroyed_storeAfter h later
  | .env _ :: later => destroyed_storeAfter h later

variable [DecidableEq Tid] {given : Assumed} {a₀ a : Store}
  {log : List (Event (system B) EngineError Call Out Tid)}

/-- Only puts add versions. -/
theorem length_le_putsAnswered (h : History (Answers given) a₀ a log) (path : String) :
    (a path).length ≤ (a₀ path).length + putsAnswered path log := by
  induction h with
  | start => exact Nat.le_refl _
  | respond t c r h hpost ih =>
    refine (hpost.length path).2.trans ?_
    rw [putsAnswered, ← Nat.add_assoc]
    exact Nat.add_le_add_right ih _
  | keep e h he ih =>
    cases e with
    | respond t c r => exact (he t c r rfl).elim
    | _ => exact ih

/-- With room in the queue and a running clock the history is that of the store. -/
theorem conforms_of_history (h : History (Answers ⟨true, true⟩) a₀ a log) :
    a = storeAfter a₀ log ∧ Conforms a₀ log := by
  induction h with
  | start => exact ⟨rfl, trivial⟩
  | respond t c r h hpost ih =>
    obtain ⟨hstore, hconforms⟩ := ih
    subst hstore
    rcases hpost with ⟨ticked, hticked, hr, ha, _⟩ | ⟨hfull, _, _⟩
    · obtain rfl : ticked = true := hticked rfl
      exact ⟨ha, hr, hconforms⟩
    · cases hfull
  | keep e h he ih =>
    cases e with
    | respond t c r => exact (he t c r rfl).elim
    | _ => exact ih

end Histories

/-! ## Runs -/

section Runs

variable {Tid : Type}

/-- Steps of a healthy engine in a fixed mode. -/
def SteadyStep : Step B Tid → Prop
  | .act _ c => c.error = none
  | .env (.worker _ fails) => fails = false
  | .env (.changeSyncMode _) => False
  | _ => True

/-- The clock returns positive times. -/
def Ticking : Step B Tid → Prop
  | .act _ c => 0 < c.now
  | _ => True

/-- The path of a put has fewer than `2 ^ 32 - 2` versions. -/
def RoomFor (a₀ : Store) (log : List (Event (system B) EngineError Call Out Tid)) : Call → Prop
  | .putVersion path _ _ => (a₀ path).length + putsAnswered path log + 1 < 2 ^ 32 - 1
  | _ => True

/-- No path gets more than `2 ^ 32 - 2` versions. -/
def FewPuts (a₀ : Store) (p : Clients B Tid) : Step B Tid → Prop
  | .act t _ =>
    match p.client t with
    | some (c, _) => RoomFor a₀ p.log c
    | none => True
  | _ => True

theorem FewPuts.roomFor {a₀ : Store} {p : Clients B Tid} {t : Tid} {choice : Choice} {c : Call}
    {prog : EngineM B Out} (h : FewPuts a₀ p (.act t choice))
    (hclient : p.client t = some (c, prog)) : RoomFor a₀ p.log c := by
  simpa only [FewPuts, hclient] using h

theorem fitting_of_roomFor [DecidableEq Tid] {given : Assumed} {a₀ a : Store} {c : Call}
    {log : List (Event (system B) EngineError Call Out Tid)}
    (h : History (Answers given) a₀ a log) (hroomFor : RoomFor a₀ log c)
    (hdestroy : ∀ path version, c = .destroyVersion path version → given.room = true) :
    Fitting given a c := by
  cases c with
  | putVersion path x cas =>
    have hlength := length_le_putsAnswered h path
    have hfew : (a₀ path).length + putsAnswered path log + 1 < 2 ^ 32 - 1 := hroomFor
    change (a path).length + 1 < 2 ^ 32
    omega
  | destroyVersion path version => exact hdestroy path version rfl
  | _ => trivial

/-- Every request begins with a call. -/
theorem body_ne_done (rkyv : Rkyv B) (c : Call) (r : Except EngineError Out) :
    body rkyv c ≠ .done r := by
  cases c <;> exact nofun

theorem serialized_opened [DecidableEq Tid] {rkyv : Rkyv B} {db : String → Option B} {a₀ : Store}
    (hdb : Stores rkyv db a₀) (mode : SyncMode) (given : Assumed) (paths : List String) :
    Serialized (regime B mode given) (body rkyv) (Holds rkyv mode) (Answers given) a₀
      (Clients.opened db mode paths : Clients B Tid) :=
  serialized_init ⟨db, hdb, (represents_opened db paths).mono fun _ h => h.elim⟩

end Runs

/-- A client of an engine in immediate mode on an empty database gets every answer from
the store, and gets one for every request. -/
structure Implements (rkyv : Rkyv B) (p : Clients B Unit) : Prop where
  conforms : Conforms (fun _ => []) p.log
  returns : ∀ c prog, p.client () = some (c, prog) → ∀ choices : ℕ → Choice, ∃ n r,
    (p.advance (body rkyv) () ((List.range n).map choices)).client () = some (c, .done r)
  destroyed : ∀ later earlier, p.log = later ++ earlier → ∀ path n,
    (storeAfter (fun _ => []) earlier).Destroyed path n →
      (storeAfter (fun _ => []) p.log).Destroyed path n

theorem run_implements {rkyv : Rkyv B} (hrkyv : rkyv.Faithful) (labels : List (Step B Unit))
    (hsteps : Along (Pool.step (body rkyv))
      (fun p l => (SteadyStep l ∧ Ticking l) ∧ FewPuts (fun _ => []) p l)
      (Clients.opened (fun _ => none) .immediate []) labels) :
    Implements rkyv ((Clients.opened (fun _ => none) .immediate []).run (body rkyv) labels) := by
  have hrun : Serialized (regime B .immediate ⟨true, true⟩) (body rkyv) (Holds rkyv .immediate)
      (Answers ⟨true, true⟩) (fun _ => []) ((Clients.opened (fun _ => none) .immediate []).run
        (body rkyv) labels) := by
    refine Serialized.run (specification hrkyv .immediate ⟨true, true⟩) (body_ne_done rkyv)
      ?_ ?_ ?_ ?_ (serialized_opened (stores_empty rkyv) .immediate ⟨true, true⟩ []) hsteps
    · exact fun p t choice _ hstarted _ => hstarted
    · exact fun a p t choice c prog h hok hclient =>
        fitting_of_roomFor h (hok.2.roomFor hclient) fun _ _ _ => rfl
    · rintro p t choice c op k ⟨⟨herror, hnow⟩, _⟩ _
      refine ⟨herror, fun _ => hnow, ?_⟩
      cases op with
      | enqueue op => exact fun hmode => nomatch hmode
      | _ => trivial
    · rintro p e ⟨⟨he, _⟩, _⟩
      cases e with
      | dropEntry key => exact Or.inl rfl
      | worker timeout fails => exact he
      | changeSyncMode mode => exact he.elim
      | stop => trivial
  obtain ⟨a, hhistory, _⟩ := hrun.running
  refine ⟨(conforms_of_history hhistory).2, ?_, ?_⟩
  · exact fun c prog hclient choices => Pool.advance_done (body rkyv) hclient choices
  · intro later earlier hlog path n hdestroyed
    rw [hlog]
    exact destroyed_storeAfter hdestroyed later

instance {Tid : Type} (l : Step B Tid) : Decidable (SteadyStep l) :=
  match l with
  | .act _ c => inferInstanceAs (Decidable (c.error = none))
  | .invoke _ _ => .isTrue trivial
  | .respond _ => .isTrue trivial
  | .env (.changeSyncMode _) => .isFalse id
  | .env (.dropEntry _) => .isTrue trivial
  | .env (.worker _ fails) => inferInstanceAs (Decidable (fails = false))
  | .env .stop => .isTrue trivial

instance {Tid : Type} (l : Step B Tid) : Decidable (Ticking l) :=
  match l with
  | .act _ c => inferInstanceAs (Decidable (0 < c.now))
  | .invoke _ _ => .isTrue trivial
  | .respond _ => .isTrue trivial
  | .env _ => .isTrue trivial

instance {Tid : Type} (a₀ : Store) (log : List (Event (system B) EngineError Call Out Tid))
    (c : Call) : Decidable (RoomFor a₀ log c) :=
  match c with
  | .putVersion path _ _ => inferInstanceAs (Decidable
      ((a₀ path).length + putsAnswered path log + 1 < 2 ^ 32 - 1))
  | .readMetadata _ => .isTrue trivial
  | .readVersion _ _ => .isTrue trivial
  | .softDelete _ _ => .isTrue trivial
  | .undelete _ _ => .isTrue trivial
  | .destroyVersion _ _ => .isTrue trivial

instance {Tid : Type} (a₀ : Store) (p : Clients B Tid) (l : Step B Tid) :
    Decidable (FewPuts a₀ p l) :=
  match l with
  | .act t _ => decidable_of_iff (∀ x ∈ p.client t, RoomFor a₀ p.log x.1) (by
      cases h : p.client t <;> simp [FewPuts, h])
  | .invoke _ _ => .isTrue trivial
  | .respond _ => .isTrue trivial
  | .env _ => .isTrue trivial

/-- A version is put, dropped from the cache, read, destroyed and read again. -/
def lifecycle : List (Step Record Unit) :=
  List.flatten [
    requesting () (.putVersion "p" ⟨"x", 0⟩ none) 10,
    [.env (.dropEntry (buildVersionKey "p" 1))],
    requesting () (.readVersion "p" 0) 4,
    requesting () (.destroyVersion "p" 1) 7,
    requesting () (.readVersion "p" 1) 1]

theorem run_implements_lifecycle :
    Along (Pool.step (body Record.rkyv))
        (fun p l => (SteadyStep l ∧ Ticking l) ∧ FewPuts (fun _ => []) p l)
        (Clients.opened (fun _ => none) .immediate []) lifecycle ∧
      Implements Record.rkyv
        ((Clients.opened (fun _ => none) .immediate []).run (body Record.rkyv) lifecycle) := by
  have hsteps : Along (Pool.step (body Record.rkyv))
      (fun p l => (SteadyStep l ∧ Ticking l) ∧ FewPuts (fun _ => []) p l)
      (Clients.opened (fun _ => none) .immediate []) lifecycle := by decide
  exact ⟨hsteps, run_implements Record.rkyv_faithful lifecycle hsteps⟩

end Kallisto.Engine
