import Kallisto.Library.Interleaving

/-! # Simulations of systems

A system simulates another one when it answers every call alike, after hidden steps of its
environment. Clients then cannot tell which of the two they run on: every run on the
concrete system is a run on the abstract one with the same calls, answers and results. -/

namespace Interleaving

open Program

variable {Op : Type} {Ret : Op → Type} {ε Call Out Tid : Type}

/-! ## What clients see -/

/-- The events of the clients, whatever the system is. -/
inductive Seen (Ret : Op → Type) (ε Call Out Tid : Type) where
  | invoke (t : Tid) (c : Call)
  | act (t : Tid) (op : Op) (r : Ret op)
  | respond (t : Tid) (c : Call) (r : Except ε Out)

def Event.seen {sys : System Ret} : Event sys ε Call Out Tid → Option (Seen Ret ε Call Out Tid)
  | .invoke t c => some (.invoke t c)
  | .act t op r => some (.act t op r)
  | .respond t c r => some (.respond t c r)
  | .env _ => none

/-- The events of the clients so far, the latest first. -/
def Pool.history {sys : System Ret} (p : Pool sys ε Call Out Tid) :
    List (Seen Ret ε Call Out Tid) :=
  p.log.filterMap Event.seen

/-- The event of a system. -/
def Seen.event {sys : System Ret} : Seen Ret ε Call Out Tid → Event sys ε Call Out Tid
  | .invoke t c => .invoke t c
  | .act t op r => .act t op r
  | .respond t c r => .respond t c r

theorem Event.seen_eq_some {sys : System Ret} {e : Event sys ε Call Out Tid}
    {x : Seen Ret ε Call Out Tid} : e.seen = some x ↔ e = x.event := by
  constructor
  · intro h
    cases e with
    | env e => cases h
    | invoke t c => rw [← Option.some.inj h, Seen.event]
    | act t op r => rw [← Option.some.inj h, Seen.event]
    | respond t c r => rw [← Option.some.inj h, Seen.event]
  · rintro rfl
    cases x <;> rfl

theorem Pool.mem_history {sys : System Ret} {p : Pool sys ε Call Out Tid}
    {x : Seen Ret ε Call Out Tid} : x ∈ p.history ↔ x.event ∈ p.log := by
  simp [history, Event.seen_eq_some]

/-! ## Simulations -/

variable {C A : System Ret}

/-- Every step of the concrete system is matched by the abstract one, after steps of its
environment that nobody sees. -/
structure Simulation (C A : System Ret) where
  related : C.State → A.State → Prop
  choice : C.Choice → A.Choice
  env : C.Env → A.Env
  hidden : A.Env → Bool
  env_shown : ∀ e, hidden (env e) = false
  exec_matched : ∀ c a op x, related c a → ∃ es : List A.Env, (∀ e ∈ es, hidden e = true) ∧
    (A.exec (es.foldl A.env a) op (choice x)).1 = (C.exec c op x).1 ∧
    related (C.exec c op x).2 (A.exec (es.foldl A.env a) op (choice x)).2
  env_matched : ∀ c a e, related c a → related (C.env c e) (A.env a (env e))

namespace Simulation

variable (sim : Simulation C A)

/-- The label of the step that matches one of the concrete system. -/
def label : Label C Call Tid → Label A Call Tid
  | .invoke t c => .invoke t c
  | .act t x => .act t (sim.choice x)
  | .respond t => .respond t
  | .env e => .env (sim.env e)

def shown : Label A Call Tid → Bool
  | .env e => !sim.hidden e
  | _ => true

/-- The pools agree on all that clients can see. -/
structure Agree (p : Pool C ε Call Out Tid) (q : Pool A ε Call Out Tid) : Prop where
  related : sim.related p.shared q.shared
  client : p.client = q.client
  history : p.history = q.history

variable {sim}

variable {p : Pool C ε Call Out Tid} {q : Pool A ε Call Out Tid}

/-- Events of clients are the same on both sides. -/
theorem Agree.mem_log (h : sim.Agree p q) (x : Seen Ret ε Call Out Tid) :
    x.event ∈ p.log ↔ x.event ∈ q.log := by
  rw [← Pool.mem_history, ← Pool.mem_history, h.history]

theorem shown_label (l : Label C Call Tid) : sim.shown (sim.label l) = true := by
  cases l with
  | env e => simp [label, shown, sim.env_shown]
  | invoke t c => rfl
  | act t x => rfl
  | respond t => rfl

/-- A step that is seen matches one of the concrete system. -/
theorem mem_of_shown {labels : List (Label C Call Tid)} {labels' : List (Label A Call Tid)}
    (h : labels'.filter sim.shown = labels.map sim.label) {l : Label A Call Tid} (hl : l ∈ labels')
    (hshown : sim.shown l = true) : ∃ l₀ ∈ labels, sim.label l₀ = l := by
  rw [← List.mem_map, ← h]
  exact List.mem_filter.mpr ⟨hl, hshown⟩

theorem filter_hidden {es : List A.Env} (hes : ∀ e ∈ es, sim.hidden e = true) :
    (es.map (Label.env : A.Env → Label A Call Tid)).filter sim.shown = [] := by
  simp only [List.filter_eq_nil_iff, List.mem_map, forall_exists_index, and_imp]
  rintro _ e he rfl
  simp [shown, hes e he]

variable [DecidableEq Tid] {body : Call → Prog Ret ε Out}

/-- Steps of the environment are not part of the history. -/
theorem run_env (body : Call → Prog Ret ε Out) (es : List A.Env) (q : Pool A ε Call Out Tid) :
    (q.run body (es.map .env)).shared = es.foldl A.env q.shared ∧
      (q.run body (es.map .env)).client = q.client ∧
      (q.run body (es.map .env)).history = q.history := by
  induction es generalizing q with
  | nil => exact ⟨rfl, rfl, rfl⟩
  | cons e es ih => exact ih (q.step body (.env e))

/-- A call that both systems answer alike keeps the pools in agreement. -/
theorem Agree.act (t : Tid) {c : Call} {op : Op} {k : Ret op → Prog Ret ε Out}
    (hclient : p.client t = some (c, .call op k)) {x : C.Choice} (hsame : p.client = q.client)
    (hhistory : p.history = q.history)
    (hret : (A.exec q.shared op (sim.choice x)).1 = (C.exec p.shared op x).1)
    (hrelated : sim.related (C.exec p.shared op x).2 (A.exec q.shared op (sim.choice x)).2) :
    sim.Agree (p.step body (.act t x)) (q.step body (.act t (sim.choice x))) := by
  have hclient' : q.client t = some (c, .call op k) := hsame ▸ hclient
  constructor
  · simpa [Pool.step, hclient, hclient'] using hrelated
  · simp [Pool.step, hclient, hclient', Pool.setClient, hsame, hret]
  · simpa [Pool.step, hclient, hclient', Pool.history, Event.seen, hret] using hhistory

/-- A label that a client cannot follow leaves both pools as they are. -/
theorem Agree.step_of_eq (h : sim.Agree p q) {l : Label C Call Tid} (hp : p.step body l = p)
    (hq : q.step body (sim.label l) = q) :
    sim.Agree (p.step body l) (q.step body (sim.label l)) := by
  rwa [hp, hq]

/-- One step, after hidden ones. -/
theorem Agree.step (body : Call → Prog Ret ε Out) (h : sim.Agree p q) (l : Label C Call Tid) :
    ∃ es : List A.Env, (∀ e ∈ es, sim.hidden e = true) ∧
      sim.Agree (p.step body l) ((q.run body (es.map .env)).step body (sim.label l)) := by
  cases l with
  | invoke t c =>
    refine ⟨[], by simp, ?_⟩
    cases hclient : p.client t with
    | none =>
      have hclient' : q.client t = none := h.client ▸ hclient
      constructor
      · simpa [Pool.step, Pool.run, label, hclient, hclient'] using h.related
      · simp [Pool.step, Pool.run, label, hclient, hclient', Pool.setClient, h.client]
      · simpa [Pool.step, Pool.run, label, hclient, hclient', Pool.history, Event.seen]
          using h.history
    | some running =>
      have hclient' : q.client t = some running := h.client ▸ hclient
      exact h.step_of_eq (by simp [Pool.step, hclient]) (by simp [Pool.step, label, hclient'])
  | act t x =>
    rcases hclient : p.client t with _ | ⟨c, r | ⟨op, k⟩⟩
    · have hclient' : q.client t = none := h.client ▸ hclient
      exact ⟨[], by simp, h.step_of_eq (by simp [Pool.step, hclient])
        (by simp [Pool.step, label, hclient'])⟩
    · have hclient' : q.client t = some (c, .done r) := h.client ▸ hclient
      exact ⟨[], by simp, h.step_of_eq (by simp [Pool.step, hclient])
        (by simp [Pool.step, label, hclient'])⟩
    · obtain ⟨es, hes, hret, hrelated⟩ := sim.exec_matched p.shared q.shared op x h.related
      obtain ⟨hshared, hsame, hhistory⟩ := run_env body es q
      rw [← hshared] at hret hrelated
      exact ⟨es, hes, Agree.act t hclient (h.client.trans hsame.symm)
        (h.history.trans hhistory.symm) hret hrelated⟩
  | respond t =>
    refine ⟨[], by simp, ?_⟩
    rcases hclient : p.client t with _ | ⟨c, r | ⟨op, k⟩⟩
    · have hclient' : q.client t = none := h.client ▸ hclient
      exact h.step_of_eq (by simp [Pool.step, hclient]) (by simp [Pool.step, label, hclient'])
    · have hclient' : q.client t = some (c, .done r) := h.client ▸ hclient
      constructor
      · simpa [Pool.step, Pool.run, label, hclient, hclient'] using h.related
      · simp [Pool.step, Pool.run, label, hclient, hclient', Pool.setClient, h.client]
      · simpa [Pool.step, Pool.run, label, hclient, hclient', Pool.history, Event.seen]
          using h.history
    · have hclient' : q.client t = some (c, .call op k) := h.client ▸ hclient
      exact h.step_of_eq (by simp [Pool.step, hclient]) (by simp [Pool.step, label, hclient'])
  | env e =>
    refine ⟨[], by simp, ?_⟩
    constructor
    · exact sim.env_matched p.shared q.shared e h.related
    · exact h.client
    · exact h.history

/-- Every run on the concrete system is one on the abstract system, with hidden steps in
between, in which clients see the same. -/
theorem Agree.run (body : Call → Prog Ret ε Out) (labels : List (Label C Call Tid))
    (h : sim.Agree p q) :
    ∃ labels' : List (Label A Call Tid), labels'.filter sim.shown = labels.map sim.label ∧
      sim.Agree (p.run body labels) (q.run body labels') := by
  induction labels generalizing p q with
  | nil => exact ⟨[], rfl, h⟩
  | cons l labels ih =>
    obtain ⟨es, hes, hstep⟩ := h.step body l
    obtain ⟨labels', hlabels, hrun⟩ := ih hstep
    refine ⟨es.map .env ++ sim.label l :: labels', ?_, ?_⟩
    · rw [List.filter_append, filter_hidden hes, List.nil_append,
        List.filter_cons_of_pos (shown_label l), hlabels, List.map_cons]
    · rw [Pool.run_append]
      exact hrun

end Simulation

end Interleaving
