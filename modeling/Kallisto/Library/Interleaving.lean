import Kallisto.Library.Program

/-! # Interleaved clients

Clients run programs on one shared system. A step of the pool starts a call, performs
the next atomic call of a client, returns a finished call, or lets the environment
move. -/

namespace Interleaving

open Program

/-! ## Runs and conditions on their steps -/

section Runs

variable {σ ℓ : Type} (step : σ → ℓ → σ)

/-- Every step is taken in a state that meets the condition. -/
def Along (ok : σ → ℓ → Prop) : σ → List ℓ → Prop
  | _, [] => True
  | s, l :: ls => ok s l ∧ Along ok (step s l) ls

variable {step}

instance Along.decidable {ok : σ → ℓ → Prop} [∀ s l, Decidable (ok s l)] :
    ∀ (s : σ) (ls : List ℓ), Decidable (Along step ok s ls)
  | _, [] => .isTrue trivial
  | s, l :: ls =>
    have : Decidable (Along step ok (step s l) ls) := Along.decidable (step s l) ls
    inferInstanceAs (Decidable (ok s l ∧ Along step ok (step s l) ls))

theorem Along.of_forall {ok : ℓ → Prop} :
    ∀ {ls : List ℓ} (s : σ), (∀ l ∈ ls, ok l) → Along step (fun _ => ok) s ls := by
  intro ls
  induction ls with
  | nil => exact fun _ _ => trivial
  | cons l ls ih =>
    exact fun s h =>
      ⟨h l List.mem_cons_self, ih _ fun l' hl' => h l' (List.mem_cons_of_mem l hl')⟩

theorem Along.append {ok : σ → ℓ → Prop} :
    ∀ {ls ls' : List ℓ} {s : σ}, Along step ok s ls → Along step ok (ls.foldl step s) ls' →
      Along step ok s (ls ++ ls') := by
  intro ls
  induction ls with
  | nil => exact fun _ h' => h'
  | cons l ls ih => exact fun h h' => ⟨h.1, ih h.2 h'⟩

theorem Along.mono {ok ok' : σ → ℓ → Prop} (h : ∀ s l, ok s l → ok' s l) :
    ∀ {ls : List ℓ} {s : σ}, Along step ok s ls → Along step ok' s ls := by
  intro ls
  induction ls with
  | nil => exact fun _ => trivial
  | cons l ls ih => exact fun hok => ⟨h _ l hok.1, ih hok.2⟩

theorem Along.invariant {ok : σ → ℓ → Prop} {I : σ → Prop}
    (hstep : ∀ s l, I s → ok s l → I (step s l)) :
    ∀ (ls : List ℓ) (s : σ), I s → Along step ok s ls → I (ls.foldl step s) := by
  intro ls
  induction ls with
  | nil => exact fun s hs _ => hs
  | cons l ls ih => exact fun s hs hok => ih (step s l) (hstep s l hs hok.1) hok.2

/-- An invariant holds at every step of a run. -/
theorem Along.strengthen {ok : σ → ℓ → Prop} {I : σ → Prop}
    (hstep : ∀ s l, I s → ok s l → I (step s l)) :
    ∀ (ls : List ℓ) (s : σ), I s → Along step ok s ls →
      Along step (fun s l => ok s l ∧ I s) s ls := by
  intro ls
  induction ls with
  | nil => exact fun s hs _ => trivial
  | cons l ls ih => exact fun s hs hok => ⟨⟨hok.1, hs⟩, ih _ (hstep s l hs hok.1) hok.2⟩

end Runs

/-! ## The pool -/

variable {Op : Type} {Ret : Op → Type}

inductive Event (sys : System Ret) (ε Call Out Tid : Type) where
  | invoke (t : Tid) (c : Call)
  | act (t : Tid) (op : Op) (r : Ret op)
  | respond (t : Tid) (c : Call) (r : Except ε Out)
  | env (e : sys.Env)

/-- The shared state, the call each client is in with the rest of its program, and the
events so far, the latest first. -/
structure Pool (sys : System Ret) (ε Call Out Tid : Type) where
  shared : sys.State
  client : Tid → Option (Call × Prog Ret ε Out)
  log : List (Event sys ε Call Out Tid)

namespace Event

variable {sys : System Ret} {ε Call Out Tid : Type}

theorem invoke_ne_act (t : Tid) (c : Call) :
    ∀ t' op r, (.invoke t c : Event sys ε Call Out Tid) ≠ .act t' op r := by
  intro t' op r h
  cases h

theorem respond_ne_act (t : Tid) (c : Call) (r : Except ε Out) :
    ∀ t' op r', (.respond t c r : Event sys ε Call Out Tid) ≠ .act t' op r' := by
  intro t' op r' h
  cases h

theorem env_ne_act (e : sys.Env) :
    ∀ t op r, (.env e : Event sys ε Call Out Tid) ≠ .act t op r := by
  intro t op r h
  cases h

theorem act_ne_respond (t : Tid) (op : Op) (r : Ret op) :
    ∀ t' c r', (.act t op r : Event sys ε Call Out Tid) ≠ .respond t' c r' := by
  intro t' c r' h
  cases h

end Event

inductive Label (sys : System Ret) (Call Tid : Type) where
  | invoke (t : Tid) (c : Call)
  | act (t : Tid) (choice : sys.Choice)
  | respond (t : Tid)
  | env (e : sys.Env)

variable {sys : System Ret} {ε Call Out Tid : Type}

variable {p : Pool sys ε Call Out Tid}

namespace Pool

/-- The call a client is about to perform. -/
def nextCall (p : Pool sys ε Call Out Tid) (t : Tid) : Option Op :=
  match p.client t with
  | some (_, .call op _) => some op
  | _ => none

def init (s : sys.State) : Pool sys ε Call Out Tid where
  shared := s
  client := fun _ => none
  log := []

variable [DecidableEq Tid]

def setClient (p : Pool sys ε Call Out Tid) (t : Tid) (x : Option (Call × Prog Ret ε Out)) :
    Tid → Option (Call × Prog Ret ε Out) :=
  Function.update p.client t x

/-- One step. A label that is not enabled changes nothing. -/
def step (body : Call → Prog Ret ε Out) (p : Pool sys ε Call Out Tid) :
    Label sys Call Tid → Pool sys ε Call Out Tid
  | .invoke t c =>
    match p.client t with
    | none => { p with
        client := p.setClient t (some (c, body c))
        log := .invoke t c :: p.log }
    | some _ => p
  | .act t choice =>
    match p.client t with
    | some (c, .call op k) =>
      let result := sys.exec p.shared op choice
      { shared := result.2
        client := p.setClient t (some (c, k result.1))
        log := .act t op result.1 :: p.log }
    | _ => p
  | .respond t =>
    match p.client t with
    | some (c, .done r) => { p with
        client := p.setClient t none
        log := .respond t c r :: p.log }
    | _ => p
  | .env e => { p with
      shared := sys.env p.shared e
      log := .env e :: p.log }

def run (body : Call → Prog Ret ε Out) (p : Pool sys ε Call Out Tid)
    (labels : List (Label sys Call Tid)) : Pool sys ε Call Out Tid :=
  labels.foldl (step body) p

theorem run_append (body : Call → Prog Ret ε Out) (p : Pool sys ε Call Out Tid)
    (labels labels' : List (Label sys Call Tid)) :
    p.run body (labels ++ labels') = (p.run body labels).run body labels' :=
  List.foldl_append

/-- What a step can do. -/
inductive Moves (body : Call → Prog Ret ε Out) (p : Pool sys ε Call Out Tid) :
    Label sys Call Tid → Pool sys ε Call Out Tid → Prop where
  | stays (l : Label sys Call Tid) : Moves body p l p
  | invoke (t : Tid) (c : Call) (h : p.client t = none) :
      Moves body p (.invoke t c)
        ⟨p.shared, p.setClient t (some (c, body c)), .invoke t c :: p.log⟩
  | act (t : Tid) (choice : sys.Choice) (c : Call) (op : Op) (k : Ret op → Prog Ret ε Out)
      (h : p.client t = some (c, .call op k)) :
      Moves body p (.act t choice)
        ⟨(sys.exec p.shared op choice).2,
          p.setClient t (some (c, k (sys.exec p.shared op choice).1)),
          .act t op (sys.exec p.shared op choice).1 :: p.log⟩
  | respond (t : Tid) (c : Call) (r : Except ε Out) (h : p.client t = some (c, .done r)) :
      Moves body p (.respond t) ⟨p.shared, p.setClient t none, .respond t c r :: p.log⟩
  | env (e : sys.Env) :
      Moves body p (.env e) ⟨sys.env p.shared e, p.client, .env e :: p.log⟩

theorem step_moves (body : Call → Prog Ret ε Out) (p : Pool sys ε Call Out Tid)
    (l : Label sys Call Tid) : Moves body p l (p.step body l) := by
  cases l with
  | invoke t c =>
    cases h : p.client t with
    | none => simpa [step, h] using Moves.invoke t c h
    | some running => simpa [step, h] using Moves.stays (.invoke t c)
  | act t choice =>
    rcases h : p.client t with _ | ⟨c, r | ⟨op, k⟩⟩
    · simpa [step, h] using Moves.stays (.act t choice)
    · simpa [step, h] using Moves.stays (.act t choice)
    · simpa [step, h] using Moves.act t choice c op k h
  | respond t =>
    rcases h : p.client t with _ | ⟨c, r | ⟨op, k⟩⟩
    · simpa [step, h] using Moves.stays (.respond t)
    · simpa [step, h] using Moves.respond t c r h
    · simpa [step, h] using Moves.stays (.respond t)
  | env e => exact Moves.env e

section Invariants

variable {body : Call → Prog Ret ε Out} {ok : Pool sys ε Call Out Tid → Label sys Call Tid → Prop}
  {I : Pool sys ε Call Out Tid → Prop}
  (hinvoke : ∀ p t c, I p → ok p (.invoke t c) → p.client t = none →
    I ⟨p.shared, p.setClient t (some (c, body c)), .invoke t c :: p.log⟩)
  (hact : ∀ p t choice c op k, I p → ok p (.act t choice) → p.client t = some (c, .call op k) →
    I ⟨(sys.exec p.shared op choice).2,
      p.setClient t (some (c, k (sys.exec p.shared op choice).1)),
      .act t op (sys.exec p.shared op choice).1 :: p.log⟩)
  (hrespond : ∀ p t c r, I p → ok p (.respond t) → p.client t = some (c, .done r) →
    I ⟨p.shared, p.setClient t none, .respond t c r :: p.log⟩)
  (henv : ∀ p e, I p → ok p (.env e) → I ⟨sys.env p.shared e, p.client, .env e :: p.log⟩)

include hinvoke hact hrespond henv

variable (ok) in
/-- A property that every kind of step keeps. -/
theorem step_invariant {l : Label sys Call Tid} (hp : I p) (hok : ok p l) : I (p.step body l) := by
  have hmoves := step_moves body p l
  generalize p.step body l = p' at hmoves
  cases hmoves with
  | stays => exact hp
  | invoke t c h => exact hinvoke p t c hp hok h
  | act t choice c op k h => exact hact p t choice c op k hp hok h
  | respond t c r h => exact hrespond p t c r hp hok h
  | env e => exact henv p e hp hok

/-- A property that every kind of step keeps holds throughout a run. -/
theorem run_invariant (hp : I p) {labels : List (Label sys Call Tid)}
    (hok : Along (step body) ok p labels) : I (p.run body labels) :=
  Along.invariant (fun _ _ hp hok => step_invariant ok hinvoke hact hrespond henv hp hok)
    labels p hp hok

end Invariants

end Pool

/-! ## Clients that follow a protocol -/

/-- The calls of a client since its last request began, the latest first. -/
def callTrace [DecidableEq Tid] (t : Tid) :
    List (Event sys ε Call Out Tid) → List ((op : Op) × Ret op)
  | [] => []
  | .invoke t' _ :: log => if t' = t then [] else callTrace t log
  | .act t' op r :: log => if t' = t then ⟨op, r⟩ :: callTrace t log else callTrace t log
  | .respond _ _ _ :: log => callTrace t log
  | .env _ :: log => callTrace t log

theorem act_mem_of_mem_callTrace [DecidableEq Tid] {t : Tid} {x : (op : Op) × Ret op} :
    ∀ {log : List (Event sys ε Call Out Tid)}, x ∈ callTrace t log → .act t x.1 x.2 ∈ log := by
  intro log
  induction log with
  | nil => exact nofun
  | cons e log ih =>
    intro h
    cases e with
    | invoke t' c =>
      rw [callTrace] at h
      split at h
      · cases h
      · exact List.mem_cons_of_mem _ (ih h)
    | act t' op r =>
      rw [callTrace] at h
      split at h
      · rename_i ht
        rcases List.mem_cons.mp h with rfl | h
        · rw [← ht]
          exact List.mem_cons_self
        · exact List.mem_cons_of_mem _ (ih h)
      · exact List.mem_cons_of_mem _ (ih h)
    | respond t' c r => exact List.mem_cons_of_mem _ (ih h)
    | env e => exact List.mem_cons_of_mem _ (ih h)

section Tracked

variable [DecidableEq Tid] {D : Type} {π : Protocol Ret D} {body : Call → Prog Ret ε Out}
  {F : Call → D → Except ε Out → Prop} {start : D} {c : Call}

/-- Every client that is in a call goes on as the protocol says after its calls so far. -/
def Tracked (π : Protocol Ret D) (F : Call → D → Except ε Out → Prop) (start : D)
    (p : Pool sys ε Call Out Tid) : Prop :=
  ∀ t c prog, p.client t = some (c, prog) →
    Follows π (F c) (π.after start (callTrace t p.log)) prog

theorem tracked_init (s : sys.State) :
    Tracked π F start (Pool.init s : Pool sys ε Call Out Tid) := by
  intro t c prog h
  cases h

theorem Tracked.invoke (h : Tracked π F start p) (hbody : Follows π (F c) start (body c))
    (t : Tid) :
    Tracked π F start ⟨p.shared, p.setClient t (some (c, body c)), .invoke t c :: p.log⟩ := by
  intro t' c' prog hclient
  change Function.update p.client t _ t' = _ at hclient
  by_cases ht : t' = t
  · subst ht
    rw [Function.update_self] at hclient
    cases hclient
    simpa [callTrace, Protocol.after] using hbody
  · rw [Function.update_of_ne ht] at hclient
    simpa [callTrace, Ne.symm ht] using h t' c' prog hclient

theorem Tracked.act (h : Tracked π F start p) {s : sys.State} {t : Tid} {op : Op}
    {k : Ret op → Prog Ret ε Out} (hclient : p.client t = some (c, .call op k)) {r : Ret op}
    (hpossible : π.possible (π.after start (callTrace t p.log)) op r) :
    Tracked π F start ⟨s, p.setClient t (some (c, k r)), .act t op r :: p.log⟩ := by
  intro t' c' prog hclient'
  change Function.update p.client t _ t' = _ at hclient'
  by_cases ht : t' = t
  · subst ht
    rw [Function.update_self] at hclient'
    cases hclient'
    simpa [callTrace, Protocol.after] using (h t' c _ hclient).2 r hpossible
  · rw [Function.update_of_ne ht] at hclient'
    simpa [callTrace, Ne.symm ht] using h t' c' prog hclient'

theorem Tracked.respond (h : Tracked π F start p) (t : Tid) (c : Call) (r : Except ε Out) :
    Tracked π F start ⟨p.shared, p.setClient t none, .respond t c r :: p.log⟩ := by
  intro t' c' prog hclient
  change Function.update p.client t none t' = _ at hclient
  by_cases ht : t' = t
  · subst ht
    rw [Function.update_self] at hclient
    cases hclient
  · rw [Function.update_of_ne ht] at hclient
    exact h t' c' prog hclient

theorem Tracked.env (h : Tracked π F start p) (s : sys.State) (e : sys.Env) :
    Tracked π F start ⟨s, p.client, .env e :: p.log⟩ :=
  h

/-- What a client returns is what the protocol says after its calls. -/
theorem Tracked.returns (h : Tracked π F start p) {t : Tid} {r : Except ε Out}
    (hclient : p.client t = some (c, .done r)) : F c (π.after start (callTrace t p.log)) r :=
  h t c _ hclient

end Tracked

end Interleaving
