import Mathlib.Algebra.Order.Ring.Nat
import Mathlib.Logic.Function.Basic
import Mathlib.Tactic.Common

/-! # Programs over atomic calls

A program is a tree of calls to an environment, each continued by what the call
returned, that ends with a value or an error. A system gives the calls their effect on
a shared state and may change that state on its own between them. Triples bound a
program's states by assertions that the system keeps. -/

namespace Program

/-! ## Programs -/

inductive Prog {Op : Type} (Ret : Op → Type) (ε α : Type) where
  | done (r : Except ε α)
  | call (op : Op) (k : Ret op → Prog Ret ε α)

variable {Op : Type} {Ret : Op → Type} {ε α β : Type}

namespace Prog

def bind : Prog Ret ε α → (α → Prog Ret ε β) → Prog Ret ε β
  | done (.ok a), f => f a
  | done (.error e), _ => done (.error e)
  | call op k, f => call op fun r => (k r).bind f

instance : Monad (Prog Ret ε) where
  pure a := done (.ok a)
  bind := bind

/-- One call. -/
def perform (op : Op) : Prog Ret ε (Ret op) :=
  call op fun r => done (.ok r)

/-- End with an error. -/
def fail (e : ε) : Prog Ret ε α :=
  done (.error e)

/-- Hand the outcome of a program to the rest as a value. -/
def attempt : Prog Ret ε α → Prog Ret ε (Except ε α)
  | done r => done (.ok r)
  | call op k => call op fun r => (k r).attempt

@[simp] theorem pure_eq (a : α) : (pure a : Prog Ret ε α) = done (.ok a) :=
  rfl

@[simp] theorem ok_bind (a : α) (f : α → Prog Ret ε β) : (done (.ok a) >>= f) = f a :=
  rfl

@[simp] theorem error_bind (e : ε) (f : α → Prog Ret ε β) :
    (done (.error e) >>= f) = done (.error e) :=
  rfl

@[simp] theorem call_bind (op : Op) (k : Ret op → Prog Ret ε α) (f : α → Prog Ret ε β) :
    (call op k >>= f) = call op fun r => k r >>= f :=
  rfl

@[simp] theorem perform_bind (op : Op) (f : Ret op → Prog Ret ε β) :
    (perform op >>= f) = call op f :=
  rfl

@[simp] theorem fail_eq (e : ε) : (fail e : Prog Ret ε α) = done (.error e) :=
  rfl

@[simp] theorem attempt_done (r : Except ε α) : (done r : Prog Ret ε α).attempt = done (.ok r) :=
  rfl

@[simp] theorem attempt_call (op : Op) (k : Ret op → Prog Ret ε α) :
    (call op k).attempt = call op fun r => (k r).attempt :=
  rfl

theorem call_congr {op : Op} {k k' : Ret op → Prog Ret ε α} (h : ∀ r, k r = k' r) :
    call op k = call op k' :=
  congrArg (call op) (funext h)

theorem bind_congr (prog : Prog Ret ε α) {f g : α → Prog Ret ε β} (h : ∀ a, f a = g a) :
    prog >>= f = prog >>= g :=
  congrArg (prog >>= ·) (funext h)

theorem bind_assoc {γ : Type} (prog : Prog Ret ε α) (f : α → Prog Ret ε β)
    (g : β → Prog Ret ε γ) : prog >>= f >>= g = prog >>= fun a => f a >>= g := by
  induction prog with
  | done r => cases r <;> rfl
  | call op k ih =>
    simp only [call_bind]
    congr 1
    funext r
    exact ih r

end Prog

/-! ## Protocols -/

/-- A discipline for the calls of a program: which call a state of the protocol allows,
which results of it are possible, and the state it leads to. -/
structure Protocol (Ret : Op → Type) (D : Type) where
  allowed : D → Op → Prop
  possible : D → (op : Op) → Ret op → Prop
  next : D → (op : Op) → Ret op → D

/-- The state of a protocol after calls, the latest of which comes first. -/
def Protocol.after {D : Type} (π : Protocol Ret D) (start : D)
    (trace : List ((op : Op) × Ret op)) : D :=
  trace.foldr (fun x d => π.next d x.1 x.2) start

section Protocols

variable {D : Type} {π : Protocol Ret D} {F : D → Except ε α → Prop} {prog : Prog Ret ε α}

/-- The program follows the protocol from a state on and ends as `F` says. -/
def Follows (π : Protocol Ret D) (F : D → Except ε α → Prop) : D → Prog Ret ε α → Prop
  | d, .done r => F d r
  | d, .call op k => π.allowed d op ∧ ∀ r, π.possible d op r → Follows π F (π.next d op r) (k r)

theorem Follows.bind {G : D → Except ε β → Prop} {f : α → Prog Ret ε β}
    (hok : ∀ d a, F d (.ok a) → Follows π G d (f a))
    (herror : ∀ d e, F d (.error e) → G d (.error e)) :
    ∀ {d : D}, Follows π F d prog → Follows π G d (prog >>= f) := by
  induction prog with
  | done r =>
    intro d h
    cases r with
    | ok a => exact hok d a h
    | error e => exact herror d e h
  | call op k ih => exact fun h => ⟨h.1, fun r hr => ih r (h.2 r hr)⟩

theorem Follows.attempt {G : D → Except ε (Except ε α) → Prop} (h : ∀ d r, F d r → G d (.ok r)) :
    ∀ {d : D}, Follows π F d prog → Follows π G d prog.attempt := by
  induction prog with
  | done r => exact fun hr => h _ r hr
  | call op k ih => exact fun hk => ⟨hk.1, fun r hr => ih r (hk.2 r hr)⟩

end Protocols

/-! ## Systems -/

/-- The effect of calls on a state. A choice settles what the state leaves open, and
environment steps happen between calls. -/
structure System (Ret : Op → Type) where
  State : Type
  Choice : Type
  Env : Type
  exec : State → (op : Op) → Choice → Ret op × State
  env : State → Env → State

/-- The system that also records the calls, the latest first. -/
def System.traced (sys : System Ret) : System Ret where
  State := sys.State × List ((op : Op) × Ret op)
  Choice := sys.Choice
  Env := sys.Env
  exec s op c := ((sys.exec s.1 op c).1,
    ((sys.exec s.1 op c).2, ⟨op, (sys.exec s.1 op c).1⟩ :: s.2))
  env s e := (sys.env s.1 e, s.2)

/-- What is assumed of the steps of a system. -/
structure Rules (sys : System Ret) where
  op : sys.State → Op → sys.Choice → Prop
  env : sys.State → sys.Env → Prop

def Rules.traced {sys : System Ret} (rules : Rules sys) : Rules sys.traced where
  op s := rules.op s.1
  env s := rules.env s.1

section Triples

variable {sys : System Ret}

/-- Environment steps keep the assertion. -/
def Stable (rules : Rules sys) (P : sys.State → Prop) : Prop :=
  ∀ s e, P s → rules.env s e → P (sys.env s e)

/-- From every state of the assertion `P` the program ends as `Q` says, whatever the
choices and the environment steps in between. -/
def Triple (rules : Rules sys) :
    (sys.State → Prop) → Prog Ret ε α → (Except ε α → sys.State → Prop) → Prop
  | P, .done r, Q => ∃ P', Stable rules P' ∧ (∀ s, P s → P' s) ∧ ∀ s, P' s → Q r s
  | P, .call op k, Q => ∃ P', Stable rules P' ∧ (∀ s, P s → P' s) ∧
      ∀ s c, P' s → rules.op s op c →
        ∃ P'', P'' (sys.exec s op c).2 ∧ Triple rules P'' (k (sys.exec s op c).1) Q

variable {rules : Rules sys} {prog : Prog Ret ε α} {P : sys.State → Prop}
  {Q : Except ε α → sys.State → Prop}

theorem Triple.pre {P' : sys.State → Prop} (h : Triple rules P' prog Q) (hP : ∀ s, P s → P' s) :
    Triple rules P prog Q := by
  cases prog with
  | done r =>
    obtain ⟨R, hstable, hpre, hpost⟩ := h
    exact ⟨R, hstable, fun s hs => hpre s (hP s hs), hpost⟩
  | call op k =>
    obtain ⟨R, hstable, hpre, hstep⟩ := h
    exact ⟨R, hstable, fun s hs => hpre s (hP s hs), hstep⟩

theorem Triple.post {Q' : Except ε α → sys.State → Prop} (hQ : ∀ r s, Q r s → Q' r s) :
    ∀ {P : sys.State → Prop}, Triple rules P prog Q → Triple rules P prog Q' := by
  induction prog with
  | done r =>
    rintro P ⟨R, hstable, hpre, hpost⟩
    exact ⟨R, hstable, hpre, fun s hs => hQ r s (hpost s hs)⟩
  | call op k ih =>
    rintro P ⟨R, hstable, hpre, hstep⟩
    refine ⟨R, hstable, hpre, ?_⟩
    intro s c hs hop
    obtain ⟨R', hR', hrest⟩ := hstep s c hs hop
    exact ⟨R', hR', ih _ hrest⟩

/-- The environment may step before the program goes on. -/
theorem Triple.stabilize (h : Triple rules P prog Q) :
    ∃ P', Stable rules P' ∧ (∀ s, P s → P' s) ∧ Triple rules P' prog Q := by
  cases prog with
  | done r =>
    obtain ⟨P', hstable, hpre, hpost⟩ := h
    exact ⟨P', hstable, hpre, P', hstable, fun _ hs => hs, hpost⟩
  | call op k =>
    obtain ⟨P', hstable, hpre, hstep⟩ := h
    exact ⟨P', hstable, hpre, P', hstable, fun _ hs => hs, hstep⟩

theorem Triple.done (hstable : Stable rules P) {r : Except ε α} (h : ∀ s, P s → Q r s) :
    Triple rules P (.done r) Q :=
  ⟨P, hstable, fun _ hs => hs, h⟩

theorem Triple.call (hstable : Stable rules P) {op : Op} {k : Ret op → Prog Ret ε α}
    (h : ∀ s c, P s → rules.op s op c →
      ∃ P', P' (sys.exec s op c).2 ∧ Triple rules P' (k (sys.exec s op c).1) Q) :
    Triple rules P (.call op k) Q :=
  ⟨P, hstable, fun _ hs => hs, h⟩

/-- One call of a traced system, with its result and the state it leaves. -/
theorem Triple.traced_call {P : sys.traced.State → Prop}
    (hstable : Stable rules.traced P) {op : Op} {k : Ret op → Prog Ret ε α}
    {Q : Except ε α → sys.traced.State → Prop}
    (h : ∀ s trace c, P (s, trace) → rules.op s op c → ∃ r s', sys.exec s op c = (r, s') ∧
      ∃ P' : sys.traced.State → Prop, P' (s', ⟨op, r⟩ :: trace) ∧
        Triple rules.traced P' (k r) Q) :
    Triple rules.traced P (.call op k) Q := by
  refine Triple.call hstable ?_
  rintro ⟨s, trace⟩ c hs hop
  obtain ⟨r, s', hexec, P', hP', hrest⟩ := h s trace c hs hop
  refine ⟨P', ?_, ?_⟩
  · change P' ((sys.exec s op c).2, ⟨op, (sys.exec s op c).1⟩ :: trace)
    rw [hexec]
    exact hP'
  · change Triple rules.traced P' (k (sys.exec s op c).1) Q
    rw [hexec]
    exact hrest

theorem Triple.bind {f : α → Prog Ret ε β} {R : α → sys.State → Prop} {E : ε → sys.State → Prop}
    {Q : Except ε β → sys.State → Prop} (hf : ∀ a, Triple rules (R a) (f a) Q)
    (herror : ∀ e s, E e s → Q (.error e) s) :
    ∀ {P : sys.State → Prop},
      Triple rules P prog (fun r s => match r with
        | .ok a => R a s
        | .error e => E e s) → Triple rules P (prog >>= f) Q := by
  induction prog with
  | done r =>
    rintro P ⟨P', hstable, hpre, hpost⟩
    cases r with
    | ok a => exact (hf a).pre fun s hs => hpost s (hpre s hs)
    | error e => exact ⟨P', hstable, hpre, fun s hs => herror e s (hpost s hs)⟩
  | call op k ih =>
    rintro P ⟨P', hstable, hpre, hstep⟩
    refine ⟨P', hstable, hpre, ?_⟩
    intro s c hs hop
    obtain ⟨P'', hP'', hrest⟩ := hstep s c hs hop
    exact ⟨P'', hP'', ih _ hrest⟩

theorem Triple.attempt {Q' : Except ε (Except ε α) → sys.State → Prop}
    (hQ : ∀ r s, Q r s → Q' (.ok r) s) :
    ∀ {P : sys.State → Prop}, Triple rules P prog Q → Triple rules P prog.attempt Q' := by
  induction prog with
  | done r =>
    rintro P ⟨R, hstable, hpre, hpost⟩
    exact ⟨R, hstable, hpre, fun s hs => hQ r s (hpost s hs)⟩
  | call op k ih =>
    rintro P ⟨R, hstable, hpre, hstep⟩
    refine ⟨R, hstable, hpre, ?_⟩
    intro s c hs hop
    obtain ⟨R', hR', hrest⟩ := hstep s c hs hop
    exact ⟨R', hR', ih _ hrest⟩

theorem Triple.of_exists {ι : Type} {P : ι → sys.State → Prop}
    (h : ∀ i, Triple rules (P i) prog Q) : Triple rules (fun s => ∃ i, P i s) prog Q := by
  cases prog with
  | done r =>
    choose P' hstable hpre hpost using h
    refine ⟨fun s => ∃ i, P' i s, ?_, ?_, ?_⟩
    · exact fun s e ⟨i, hs⟩ he => ⟨i, hstable i s e hs he⟩
    · exact fun s ⟨i, hs⟩ => ⟨i, hpre i s hs⟩
    · exact fun s ⟨i, hs⟩ => hpost i s hs
  | call op k =>
    choose P' hstable hpre hstep using h
    refine ⟨fun s => ∃ i, P' i s, ?_, ?_, ?_⟩
    · exact fun s e ⟨i, hs⟩ he => ⟨i, hstable i s e hs he⟩
    · exact fun s ⟨i, hs⟩ => ⟨i, hpre i s hs⟩
    · exact fun s c ⟨i, hs⟩ hop => hstep i s c hs hop

/-- A triple may be proved under a fact that its assertion contains. -/
theorem Triple.of_fact {φ : Prop} (h : φ → Triple rules P prog Q) :
    Triple rules (fun s => φ ∧ P s) prog Q := by
  by_cases hφ : φ
  · exact (h hφ).pre fun s hs => hs.2
  · cases prog with
    | done r =>
      exact ⟨fun _ => False, fun _ _ hs _ => hs, fun s hs => hφ hs.1, fun s hs => hs.elim⟩
    | call op k =>
      exact ⟨fun _ => False, fun _ _ hs _ => hs, fun s hs => hφ hs.1,
        fun s c hs => hs.elim⟩

/-- The program ends with the given result and keeps the assertion. -/
def Returns (rules : Rules sys) (P : sys.State → Prop) (prog : Prog Ret ε α)
    (x : Except ε α) : Prop :=
  Triple rules P prog fun r s => r = x ∧ P s

theorem Returns.bind {f : α → Prog Ret ε β} {a : α} {Q : Except ε β → sys.State → Prop}
    (h : Returns rules P prog (.ok a))
    (hf : Triple rules P (f a) Q) : Triple rules P (prog >>= f) Q := by
  refine Triple.bind (R := fun a' s => a' = a ∧ P s) (E := fun _ _ => False) ?_
    (fun _ _ hfalse => hfalse.elim) (h.post ?_)
  · intro a'
    refine Triple.of_fact fun ha => ?_
    rw [ha]
    exact hf
  · rintro (e | a') s ⟨heq, hs⟩
    · cases heq
    · exact ⟨Except.ok.inj heq, hs⟩

theorem Returns.bind_error {f : α → Prog Ret ε β} {e : ε} {Q : Except ε β → sys.State → Prop}
    (h : Returns rules P prog (.error e))
    (hQ : ∀ s, P s → Q (.error e) s) : Triple rules P (prog >>= f) Q := by
  refine Triple.bind (R := fun _ _ => False) (E := fun e' s => e' = e ∧ P s) ?_ ?_ (h.post ?_)
  · intro a
    exact (Triple.of_fact fun hfalse => hfalse.elim).pre fun s hs => ⟨hs, hs⟩
  · rintro e' s ⟨rfl, hs⟩
    exact hQ s hs
  · rintro (e' | a) s ⟨heq, hs⟩
    · exact ⟨Except.error.inj heq, hs⟩
    · cases heq

theorem Returns.attempt {x : Except ε α} (h : Returns rules P prog x) :
    Returns rules P prog.attempt (.ok x) :=
  Triple.attempt (fun _ _ hr => ⟨congrArg Except.ok hr.1, hr.2⟩) h

theorem Returns.done (hstable : Stable rules P) (x : Except ε α) :
    Returns rules P (.done x) x :=
  Triple.done hstable fun _ hs => ⟨rfl, hs⟩

/-! ## Programs run alone -/

/-- The program run from a state, with the same choice at every call and no step of the
environment. -/
def System.alone (sys : System Ret) (c : sys.Choice) :
    Prog Ret ε α → sys.State → Except ε α × sys.State
  | .done r, s => (r, s)
  | .call op k, s => sys.alone c (k (sys.exec s op c).1) (sys.exec s op c).2

theorem System.alone_call {op : Op} {k : Ret op → Prog Ret ε α} {c : sys.Choice}
    {s s' : sys.State} {r : Ret op} (h : sys.exec s op c = (r, s')) :
    sys.alone c (.call op k) s = sys.alone c (k r) s' := by
  rw [System.alone, h]

theorem System.alone_traced (sys : System Ret) (c : sys.Choice) (prog : Prog Ret ε α) :
    ∀ (s : sys.State) (trace : List ((op : Op) × Ret op)),
      (sys.traced.alone c prog (s, trace)).1 = (sys.alone c prog s).1 := by
  induction prog with
  | done r => exact fun _ _ => rfl
  | call op k ih => exact fun s trace => ih _ _ _

/-- The program run from a state, with choices drawn from what is given. -/
def System.fed {G : Type} (sys : System Ret) (draw : Op → List G → sys.Choice × List G) :
    Prog Ret ε α → sys.State → List G → Except ε α × sys.State
  | .done r, s, _ => (r, s)
  | .call op k, s, given => sys.fed draw (k (sys.exec s op (draw op given).1).1)
      (sys.exec s op (draw op given).1).2 (draw op given).2

theorem System.fed_call {G : Type} {sys : System Ret} {draw : Op → List G → sys.Choice × List G}
    {op : Op} {k : Ret op → Prog Ret ε α} {s s' : sys.State} {given given' : List G}
    {c : sys.Choice} {r : Ret op} (hdraw : draw op given = (c, given'))
    (h : sys.exec s op c = (r, s')) :
    sys.fed draw (.call op k) s given = sys.fed draw (k r) s' given' := by
  rw [System.fed, hdraw, h]

/-- Each call takes the next of what is given, or the default when nothing is left. -/
def inTurn {G : Type} (default : G) (_ : Op) : List G → G × List G
  | [] => (default, [])
  | g :: rest => (g, rest)

/-- What holds of the default and of all that is given holds of what is taken and of the
rest. -/
theorem inTurn_forall {G : Type} {p : G → Prop} {default : G} {given : List G} (op : Op)
    (hdefault : p default) (h : ∀ g ∈ given, p g) :
    ∃ g rest, inTurn default op given = (g, rest) ∧ p g ∧ ∀ g' ∈ rest, p g' := by
  cases given with
  | nil => exact ⟨default, [], rfl, hdefault, h⟩
  | cons g rest =>
    exact ⟨g, rest, rfl, h g List.mem_cons_self, fun g' hg' => h g' (List.mem_cons_of_mem g hg')⟩

/-- What a run leaves of what it was given. -/
def System.unspent {G : Type} (sys : System Ret) (draw : Op → List G → sys.Choice × List G) :
    Prog Ret ε α → sys.State → List G → List G
  | .done _, _, given => given
  | .call op k, s, given => sys.unspent draw (k (sys.exec s op (draw op given).1).1)
      (sys.exec s op (draw op given).1).2 (draw op given).2

/-- A program goes on from where its first part ended. -/
theorem System.fed_bind {G : Type} (sys : System Ret) (draw : Op → List G → sys.Choice × List G)
    (prog : Prog Ret ε α) (f : α → Prog Ret ε β) :
    ∀ (s : sys.State) (given : List G), sys.fed draw (prog >>= f) s given =
      match (sys.fed draw prog s given).1 with
      | .ok a => sys.fed draw (f a) (sys.fed draw prog s given).2 (sys.unspent draw prog s given)
      | .error e => (.error e, (sys.fed draw prog s given).2) := by
  induction prog with
  | done r => cases r <;> exact fun _ _ => rfl
  | call op k ih => exact fun s given => ih _ _ _

/-- The record of the calls does not change the run. -/
theorem System.fed_traced {G : Type} (sys : System Ret)
    (draw : Op → List G → sys.Choice × List G) (prog : Prog Ret ε α) :
    ∀ (s : sys.State) (trace : List ((op : Op) × Ret op)) (given : List G),
      (sys.traced.fed draw prog (s, trace) given).1 = (sys.fed draw prog s given).1 ∧
        (sys.traced.fed draw prog (s, trace) given).2.1 = (sys.fed draw prog s given).2 := by
  induction prog with
  | done r => exact fun _ _ _ => ⟨rfl, rfl⟩
  | call op k ih => exact fun s trace given => ih _ _ _ _

theorem Triple.alone {c : sys.Choice} (hop : ∀ s op, rules.op s op c) :
    ∀ {P : sys.State → Prop} {s : sys.State}, Triple rules P prog Q → P s →
      Q (sys.alone c prog s).1 (sys.alone c prog s).2 := by
  induction prog with
  | done r =>
    rintro P s ⟨P', _, hpre, hpost⟩ hs
    exact hpost s (hpre s hs)
  | call op k ih =>
    rintro P s ⟨P', _, hpre, hstep⟩ hs
    obtain ⟨P'', hP'', hrest⟩ := hstep s c (hpre s hs) (hop s op)
    exact ih _ hrest hP''

end Triples

end Program
