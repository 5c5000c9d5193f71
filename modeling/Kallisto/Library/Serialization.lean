import Kallisto.Library.Interleaving

/-! # Requests one at a time

When a request takes its first step only while no other one has started and not yet
returned, a pool behaves as the triples of the requests say, one after the other. -/

namespace Interleaving

open Program

variable {Op : Type} {Ret : Op → Type} {sys : System Ret} {ε Call Out Tid A : Type} {t : Tid}
  {c : Call} {prog : Prog Ret ε Out} {r : Except ε Out} {choice : sys.Choice}

/-! ## Every request returns -/

section Finishing

variable [DecidableEq Tid]

/-- The client takes its next steps with the given choices. -/
def Pool.advance (body : Call → Prog Ret ε Out) (p : Pool sys ε Call Out Tid) (t : Tid)
    (choices : List sys.Choice) : Pool sys ε Call Out Tid :=
  p.run body (choices.map fun c => .act t c)

/-- A client that keeps stepping comes to the end of its request, whatever the choices. -/
theorem Pool.advance_done (body : Call → Prog Ret ε Out) :
    ∀ {p : Pool sys ε Call Out Tid}, p.client t = some (c, prog) →
      ∀ choices : ℕ → sys.Choice, ∃ n r,
        (p.advance body t ((List.range n).map choices)).client t = some (c, .done r) := by
  induction prog with
  | done r => exact fun h _ => ⟨0, r, h⟩
  | call op k ih =>
    intro p h choices
    have hstep : (p.step body (.act t (choices 0))).client t =
        some (c, k (sys.exec p.shared op (choices 0)).1) := by
      simp [Pool.step, h, Pool.setClient]
    obtain ⟨n, r, hn⟩ := ih _ hstep fun i => choices (i + 1)
    refine ⟨n + 1, r, ?_⟩
    rw [List.range_succ_eq_map, List.map_cons, List.map_map]
    exact hn

end Finishing

/-! ## Specified requests -/

/-- The part of a request that a client has still to run: from every state of an assertion
it ends as its postcondition says. -/
def Remaining (rules : Rules sys) (Q : Except ε Out → sys.State × List ((op : Op) × Ret op) → Prop)
    (prog : Prog Ret ε Out) (s : sys.State × List ((op : Op) × Ret op)) : Prop :=
  ∃ P : sys.traced.State → Prop, Stable rules.traced P ∧ P s ∧ Triple rules.traced P prog Q

/-- Triples of all requests over abstract states: `I` says when a state of the system
represents an abstract state, `Allowed` when a request may be made, and `Post` how the
result and the calls of a request relate the abstract states before and after it. -/
structure Specification (rules : Rules sys) (body : Call → Prog Ret ε Out)
    (I : A → sys.State → Prop) (Allowed : A → Call → Prop)
    (Post : A → Call → Except ε Out → List ((op : Op) × Ret op) → A → Prop) : Prop where
  stable : ∀ a, Stable rules (I a)
  triple : ∀ a c, Allowed a c → Triple rules.traced (fun s => I a s.1 ∧ s.2 = []) (body c)
    (fun r s => ∃ a', Post a c r s.2 a' ∧ I a' s.1)

section Remaining

variable {rules : Rules sys} {Q : Except ε Out → sys.State × List ((op : Op) × Ret op) → Prop}
  {s : sys.State × List ((op : Op) × Ret op)}

theorem Remaining.of_triple {P : sys.traced.State → Prop} (h : Triple rules.traced P prog Q)
    (hs : P s) : Remaining rules Q prog s := by
  obtain ⟨P', hstable, hpre, htriple⟩ := h.stabilize
  exact ⟨P', hstable, hpre s hs, htriple⟩

theorem Remaining.done (h : Remaining rules Q (.done r) s) : Q r s := by
  obtain ⟨P, _, hs, P', _, hpre, hpost⟩ := h
  exact hpost s (hpre s hs)

theorem Remaining.call {op : Op} {k : Ret op → Prog Ret ε Out}
    (h : Remaining rules Q (.call op k) s) (hop : rules.op s.1 op choice) :
    Remaining rules Q (k (sys.exec s.1 op choice).1)
      ((sys.exec s.1 op choice).2, ⟨op, (sys.exec s.1 op choice).1⟩ :: s.2) := by
  obtain ⟨P, _, hs, P', _, hpre, hstep⟩ := h
  obtain ⟨P'', hP'', htriple⟩ := hstep s choice (hpre s hs) hop
  exact Remaining.of_triple htriple hP''

theorem Remaining.env (h : Remaining rules Q prog s) {e : sys.Env} (he : rules.env s.1 e) :
    Remaining rules Q prog (sys.env s.1 e, s.2) := by
  obtain ⟨P, hstable, hs, htriple⟩ := h
  exact ⟨P, hstable, hstable s e hs he, htriple⟩

end Remaining

/-! ## Histories -/

section Histories

variable [DecidableEq Tid] {a₀ : A}
  {Post : A → Call → Except ε Out → List ((op : Op) × Ret op) → A → Prop}

/-- The abstract states that answered requests lead to, one after the other. -/
inductive History (Post : A → Call → Except ε Out → List ((op : Op) × Ret op) → A → Prop)
    (a₀ : A) : A → List (Event sys ε Call Out Tid) → Prop where
  | start : History Post a₀ a₀ []
  | respond {a a' : A} {log : List (Event sys ε Call Out Tid)} (t : Tid) (c : Call)
      (r : Except ε Out) (h : History Post a₀ a log) (hpost : Post a c r (callTrace t log) a') :
      History Post a₀ a' (.respond t c r :: log)
  | keep {a : A} {log : List (Event sys ε Call Out Tid)} (e : Event sys ε Call Out Tid)
      (h : History Post a₀ a log) (he : ∀ t c r, e ≠ .respond t c r) :
      History Post a₀ a (e :: log)

theorem History.answered {a' : A} {log : List (Event sys ε Call Out Tid)}
    (h : History Post a₀ a' (.respond t c r :: log)) :
    ∃ a, History Post a₀ a log ∧ Post a c r (callTrace t log) a' := by
  cases h with
  | respond _ _ _ h hpost => exact ⟨_, h, hpost⟩
  | keep _ h he => exact (he t c r rfl).elim

/-- Earlier events have a history of their own, and later answers lead on from it. -/
theorem History.split {earlier : List (Event sys ε Call Out Tid)} {R : A → A → Prop}
    (hrefl : ∀ a, R a a) :
    ∀ (later : List (Event sys ε Call Out Tid)) {a' : A}, History Post a₀ a' (later ++ earlier) →
      (∀ t c r trace a₁ a₂ a₃, .respond t c r ∈ later → Post a₂ c r trace a₃ → R a₁ a₂ →
        R a₁ a₃) →
      ∃ a, History Post a₀ a earlier ∧ R a a' := by
  intro later
  induction later with
  | nil => exact fun {a'} h _ => ⟨a', h, hrefl a'⟩
  | cons e later ih =>
    intro a' h hstep
    have hrest := fun t c r trace a₁ a₂ a₃ hmem =>
      hstep t c r trace a₁ a₂ a₃ (List.mem_cons_of_mem e hmem)
    cases h with
    | respond t c r h hpost =>
      obtain ⟨a, hearlier, hR⟩ := ih h hrest
      exact ⟨a, hearlier, hstep t c r _ a _ a' List.mem_cons_self hpost hR⟩
    | keep _ h he => exact ih h hrest

end Histories

/-! ## Runs -/

section Runs

variable [DecidableEq Tid] {rules : Rules sys} {body : Call → Prog Ret ε Out}
  {I : A → sys.State → Prop} {Allowed : A → Call → Prop}
  {Post : A → Call → Except ε Out → List ((op : Op) × Ret op) → A → Prop} {a₀ : A} {s : sys.State}

/-- The client is in a request and has taken its first step. -/
def Pool.started (p : Pool sys ε Call Out Tid) (t : Tid) : Bool :=
  (p.client t).isSome && !(callTrace t p.log).isEmpty

/-- At most one request has started, and it goes on as specified. -/
structure Serialized (rules : Rules sys) (body : Call → Prog Ret ε Out)
    (I : A → sys.State → Prop)
    (Post : A → Call → Except ε Out → List ((op : Op) × Ret op) → A → Prop) (a₀ : A)
    (p : Pool sys ε Call Out Tid) : Prop where
  waiting : ∀ t c prog, p.client t = some (c, prog) → p.started t = false → prog = body c
  running : ∃ a, History Post a₀ a p.log ∧ ((∀ t, p.started t = false) ∧ I a p.shared ∨
    ∃ t c prog, p.client t = some (c, prog) ∧ p.started t = true ∧
      (∀ t', t' ≠ t → p.started t' = false) ∧
      Remaining rules (fun r s => ∃ a', Post a c r s.2 a' ∧ I a' s.1) prog
        (p.shared, callTrace t p.log))

theorem serialized_init (h : I a₀ s) :
    Serialized rules body I Post a₀ (Pool.init s : Pool sys ε Call Out Tid) where
  waiting t c prog hclient _ := by cases hclient
  running := ⟨a₀, .start, Or.inl ⟨fun _ => rfl, h⟩⟩

variable {p : Pool sys ε Call Out Tid}

/-- When no request is running the system holds the abstract state of the history. -/
theorem Serialized.idle (h : Serialized rules body I Post a₀ p) (hidle : ∀ t, p.client t = none) :
    ∃ a, History Post a₀ a p.log ∧ I a p.shared := by
  obtain ⟨a, hhistory, ⟨_, hI⟩ | ⟨t, c, prog, hclient, _⟩⟩ := h.running
  · exact ⟨a, hhistory, hI⟩
  · rw [hidle t] at hclient
    cases hclient

section Started

variable {p : Pool sys ε Call Out Tid} {t t' : Tid} {x : Option (Call × Prog Ret ε Out)}

/-- The steps of one client leave the others as far as they were. -/
theorem started_of_ne {e : Event sys ε Call Out Tid} (ht : t' ≠ t)
    (htrace : callTrace t' (e :: p.log) = callTrace t' p.log) :
    Pool.started ⟨s, p.setClient t x, e :: p.log⟩ t' = p.started t' := by
  change ((Function.update p.client t x t').isSome && !(callTrace t' (e :: p.log)).isEmpty) = _
  rw [Function.update_of_ne ht, htrace]
  rfl

theorem started_invoke : Pool.started ⟨s, p.setClient t x, .invoke t c :: p.log⟩ t = false := by
  simp [Pool.started, callTrace]

theorem started_respond :
    Pool.started ⟨s, p.setClient t none, .respond t c r :: p.log⟩ t = false := by
  simp [Pool.started, Pool.setClient]

theorem started_act {op : Op} {r : Ret op} :
    Pool.started ⟨s, p.setClient t (some (c, prog)), .act t op r :: p.log⟩ t = true := by
  simp [Pool.started, Pool.setClient, callTrace]

theorem callTrace_of_not_started (hclient : p.client t = some (c, prog))
    (h : p.started t = false) : callTrace t p.log = [] := by
  simpa [Pool.started, hclient] using h

end Started

theorem Serialized.invoke (h : Serialized rules body I Post a₀ p) (c : Call)
    (hclient : p.client t = none) :
    Serialized rules body I Post a₀
      ⟨p.shared, p.setClient t (some (c, body c)), .invoke t c :: p.log⟩ := by
  have hothers : ∀ t', t' ≠ t → Pool.started
      ⟨p.shared, p.setClient t (some (c, body c)), .invoke t c :: p.log⟩ t' = p.started t' :=
    fun t' ht => started_of_ne ht (by simp [callTrace, ht.symm])
  constructor
  · intro t' c' prog hclient' hstarted
    by_cases ht : t' = t
    · subst ht
      change Function.update p.client t' _ t' = _ at hclient'
      rw [Function.update_self] at hclient'
      cases hclient'
      rfl
    · change Function.update p.client t _ t' = _ at hclient'
      rw [Function.update_of_ne ht] at hclient'
      rw [hothers t' ht] at hstarted
      exact h.waiting t' c' prog hclient' hstarted
  · obtain ⟨a, hhistory, hstate⟩ := h.running
    refine ⟨a, .keep _ hhistory (fun _ _ _ he => by cases he), ?_⟩
    rcases hstate with ⟨hnone, hI⟩ | ⟨t', c', prog, hbusy, hstarted, hrest, hremaining⟩
    · refine Or.inl ⟨fun t' => ?_, hI⟩
      by_cases ht : t' = t
      · subst ht
        exact started_invoke
      · rw [hothers t' ht]
        exact hnone t'
    · have hne : t' ≠ t := by
        rintro rfl
        rw [hclient] at hbusy
        cases hbusy
      refine Or.inr ⟨t', c', prog, (Function.update_of_ne hne _ _).trans hbusy,
        (hothers t' hne).trans hstarted, ?_, ?_⟩
      · intro t'' ht''
        by_cases ht : t'' = t
        · subst ht
          exact started_invoke
        · rw [hothers t'' ht]
          exact hrest t'' ht''
      · simpa [callTrace, hne.symm] using hremaining

theorem Serialized.act (hspec : Specification rules body I Allowed Post)
    (h : Serialized rules body I Post a₀ p) {op : Op} {k : Ret op → Prog Ret ε Out}
    (hclient : p.client t = some (c, .call op k))
    (halone : p.started t = false → ∀ t', p.started t' = false)
    (hallowed : ∀ a, History Post a₀ a p.log → Allowed a c) (hop : rules.op p.shared op choice) :
    Serialized rules body I Post a₀ ⟨(sys.exec p.shared op choice).2,
      p.setClient t (some (c, k (sys.exec p.shared op choice).1)),
      .act t op (sys.exec p.shared op choice).1 :: p.log⟩ := by
  have hothers : ∀ t', t' ≠ t → Pool.started ⟨(sys.exec p.shared op choice).2,
      p.setClient t (some (c, k (sys.exec p.shared op choice).1)),
      .act t op (sys.exec p.shared op choice).1 :: p.log⟩ t' = p.started t' :=
    fun t' ht => started_of_ne ht (by simp [callTrace, ht.symm])
  obtain ⟨a, hhistory, hstate⟩ := h.running
  -- Before its first step the client has all of its request ahead of it.
  have hnow : (∀ t', t' ≠ t → p.started t' = false) ∧
      Remaining rules (fun r s => ∃ a', Post a c r s.2 a' ∧ I a' s.1) (.call op k)
        (p.shared, callTrace t p.log) := by
    rcases hstate with ⟨hnone, hI⟩ | ⟨t', c', prog, hbusy, hstarted, hrest, hremaining⟩
    · refine ⟨fun t' _ => hnone t', ?_⟩
      rw [h.waiting t c _ hclient (hnone t), callTrace_of_not_started hclient (hnone t)]
      exact Remaining.of_triple (hspec.triple a c (hallowed a hhistory)) ⟨hI, rfl⟩
    · by_cases ht : t = t'
      · subst ht
        rw [hclient] at hbusy
        cases hbusy
        exact ⟨hrest, hremaining⟩
      · rw [halone (hrest t ht) t'] at hstarted
        cases hstarted
  constructor
  · intro t' c' prog hclient' hstarted
    by_cases ht : t' = t
    · subst ht
      rw [started_act] at hstarted
      cases hstarted
    · change Function.update p.client t _ t' = _ at hclient'
      rw [Function.update_of_ne ht] at hclient'
      rw [hothers t' ht] at hstarted
      exact h.waiting t' c' prog hclient' hstarted
  · refine ⟨a, .keep _ hhistory (fun _ _ _ he => by cases he),
      Or.inr ⟨t, c, _, Function.update_self _ _ _, started_act, ?_, ?_⟩⟩
    · intro t' ht
      rw [hothers t' ht]
      exact hnow.1 t' ht
    · simpa [callTrace] using hnow.2.call hop

theorem Serialized.respond (h : Serialized rules body I Post a₀ p)
    (hcalls : ∀ c r, body c ≠ .done r) (hclient : p.client t = some (c, .done r)) :
    Serialized rules body I Post a₀ ⟨p.shared, p.setClient t none, .respond t c r :: p.log⟩ := by
  have hothers : ∀ t', t' ≠ t → Pool.started
      ⟨p.shared, p.setClient t none, .respond t c r :: p.log⟩ t' = p.started t' :=
    fun t' ht => started_of_ne ht rfl
  have hstarted : p.started t = true := by
    by_contra hnot
    exact hcalls c r (h.waiting t c _ hclient (Bool.not_eq_true _ ▸ hnot)).symm
  constructor
  · intro t' c' prog hclient' hstarted'
    by_cases ht : t' = t
    · subst ht
      change Function.update p.client t' _ t' = _ at hclient'
      rw [Function.update_self] at hclient'
      cases hclient'
    · change Function.update p.client t _ t' = _ at hclient'
      rw [Function.update_of_ne ht] at hclient'
      rw [hothers t' ht] at hstarted'
      exact h.waiting t' c' prog hclient' hstarted'
  · obtain ⟨a, hhistory, ⟨hnone, _⟩ | ⟨t', c', prog, hbusy, _, hrest, hremaining⟩⟩ := h.running
    · rw [hnone t] at hstarted
      cases hstarted
    · obtain rfl : t = t' := by
        by_contra ht
        rw [hrest t ht] at hstarted
        cases hstarted
      rw [hclient] at hbusy
      cases hbusy
      obtain ⟨a', hpost, hI⟩ := hremaining.done
      refine ⟨a', .respond t c r hhistory hpost, Or.inl ⟨fun t' => ?_, hI⟩⟩
      by_cases ht : t' = t
      · subst ht
        exact started_respond
      · rw [hothers t' ht]
        exact hrest t' ht

theorem Serialized.env (hspec : Specification rules body I Allowed Post)
    (h : Serialized rules body I Post a₀ p) {e : sys.Env} (he : rules.env p.shared e) :
    Serialized rules body I Post a₀ ⟨sys.env p.shared e, p.client, .env e :: p.log⟩ where
  waiting := h.waiting
  running := by
    obtain ⟨a, hhistory, hstate⟩ := h.running
    refine ⟨a, .keep _ hhistory (fun _ _ _ h => by cases h), ?_⟩
    rcases hstate with ⟨hnone, hI⟩ | ⟨t, c, prog, hbusy, hstarted, hrest, hremaining⟩
    · exact Or.inl ⟨hnone, hspec.stable a _ e hI he⟩
    · exact Or.inr ⟨t, c, prog, hbusy, hstarted, hrest, hremaining.env he⟩

theorem Serialized.run (hspec : Specification rules body I Allowed Post)
    (hcalls : ∀ c r, body c ≠ .done r) {ok : Pool sys ε Call Out Tid → Label sys Call Tid → Prop}
    (halone : ∀ p t choice, ok p (.act t choice) → p.started t = false →
      ∀ t', p.started t' = false)
    (hallowed : ∀ a p t choice c prog, History Post a₀ a p.log → ok p (.act t choice) →
      p.client t = some (c, prog) → Allowed a c)
    (hop : ∀ p t choice c op k, ok p (.act t choice) → p.client t = some (c, .call op k) →
      rules.op p.shared op choice) (henv : ∀ p e, ok p (.env e) → rules.env p.shared e)
    (hp : Serialized rules body I Post a₀ p) {labels : List (Label sys Call Tid)}
    (hok : Along (Pool.step body) ok p labels) :
    Serialized rules body I Post a₀ (p.run body labels) := by
  refine Pool.run_invariant ?_ ?_ ?_ ?_ hp hok
  · exact fun p t c h _ hclient => h.invoke c hclient
  · intro p t choice c op k h hok hclient
    exact h.act hspec hclient (halone p t choice hok)
      (fun a hhistory => hallowed a p t choice c _ hhistory hok hclient)
      (hop p t choice c op k hok hclient)
  · exact fun p t c r h _ hclient => h.respond hcalls hclient
  · exact fun p e h hok => h.env hspec (henv p e hok)

end Runs

end Interleaving
