import Kallisto.Library.Interleaving

/-! # Values replaced under a lock

Readers load the current value in one step and work on what they loaded. A writer takes
the lock, loads the value and stores a changed copy. Every run is one in which each update
is a single step. -/

namespace CopyOnWrite

open Program Interleaving

/-! ## Requests -/

inductive Request (U Q : Type) where
  | update (u : U)
  | query (q : Q)

/-- What updates do to the value, what a query does to the outside with the value it has
loaded, and the answers. -/
structure Interface (σ U Q X Out : Type) where
  apply : U → σ → σ
  updated : Out
  actions : Q → σ → List X
  answer : Q → σ → Out

/-! ## Requests in steps on the shared words -/

inductive Op (σ X : Type) where
  | lock
  | load
  | store (next : σ)
  | unlock
  | act (x : X)

def Op.Ret {σ X : Type} : Op σ X → Type
  | .load => σ
  | _ => Unit

structure Cell (σ : Type) where
  value : σ
  locked : Bool

def words (σ X : Type) : System (Op.Ret : Op σ X → Type) where
  State := Cell σ
  Choice := Unit
  Env := Empty
  exec s op _ :=
    match op with
    | .lock => ((), { s with locked := true })
    | .load => (s.value, s)
    | .store next => ((), { s with value := next })
    | .unlock => ((), { s with locked := false })
    | .act _ => ((), s)
  env s _ := s

section Body

variable {σ U Q X Out : Type} (I : Interface σ U Q X Out)

def acting : List X → Out → Prog (Op.Ret : Op σ X → Type) Empty Out
  | [], out => .done (.ok out)
  | x :: xs, out => .call (.act x) fun _ => acting xs out

/-- The rest of an update that has stored its copy, loaded the value, taken the lock. -/
def stored : Prog (Op.Ret : Op σ X → Type) Empty Out :=
  .call .unlock fun _ => .done (.ok I.updated)

def loaded (u : U) (value : σ) : Prog (Op.Ret : Op σ X → Type) Empty Out :=
  .call (.store (I.apply u value)) fun _ => stored I

def locked (u : U) : Prog (Op.Ret : Op σ X → Type) Empty Out :=
  .call .load fun value => loaded I u value

def body : Request U Q → Prog (Op.Ret : Op σ X → Type) Empty Out
  | .update u => .call .lock fun _ => locked I u
  | .query q => .call .load fun value => acting (I.actions q value) (I.answer q value)

end Body

/-! ## Requests with single-step updates -/

inductive Op₁ (U X : Type) where
  | update (u : U)
  | load
  | act (x : X)

def Op₁.Ret (σ : Type) {U X : Type} : Op₁ U X → Type
  | .load => σ
  | _ => Unit

section Atomic

variable {σ U Q X Out : Type} (I : Interface σ U Q X Out)

def atomic : System (Op₁.Ret σ : Op₁ U X → Type) where
  State := σ
  Choice := Unit
  Env := Empty
  exec s op _ :=
    match op with
    | .update u => ((), I.apply u s)
    | .load => (s, s)
    | .act _ => ((), s)
  env s _ := s

def acting₁ : List X → Out → Prog (Op₁.Ret σ : Op₁ U X → Type) Empty Out
  | [], out => .done (.ok out)
  | x :: xs, out => .call (.act x) fun _ => acting₁ xs out

def body₁ : Request U Q → Prog (Op₁.Ret σ : Op₁ U X → Type) Empty Out
  | .update u => .call (.update u) fun _ => .done (.ok I.updated)
  | .query q => .call .load fun value => acting₁ (I.actions q value) (I.answer q value)

end Atomic

/-! ## What the outside sees -/

/-- Requests, actions and answers. -/
inductive Shown (U Q X Out Tid : Type) where
  | request (t : Tid) (r : Request U Q)
  | act (t : Tid) (x : X)
  | answer (t : Tid) (r : Request U Q) (out : Except Empty Out)

section Shown

variable {σ U Q X Out Tid : Type} {I : Interface σ U Q X Out}

def shown : Event (words σ X) Empty (Request U Q) Out Tid → Option (Shown U Q X Out Tid)
  | .invoke t r => some (.request t r)
  | .act t (.act x) _ => some (.act t x)
  | .respond t r out => some (.answer t r out)
  | _ => none

def shown₁ : Event (atomic I) Empty (Request U Q) Out Tid → Option (Shown U Q X Out Tid)
  | .invoke t r => some (.request t r)
  | .act t (.act x) _ => some (.act t x)
  | .respond t r out => some (.answer t r out)
  | _ => none

end Shown

/-! ## Refinement -/

section Refinement

variable {σ U Q X Out Tid : Type} (I : Interface σ U Q X Out)

/-- A thread of one run and the same thread of the other, where `holds` says that it has
the lock. -/
inductive Client (value : σ) (holds : Prop) :
    Option (Request U Q × Prog (Op.Ret : Op σ X → Type) Empty Out) →
      Option (Request U Q × Prog (Op₁.Ret σ : Op₁ U X → Type) Empty Out) → Prop
  | idle : ¬ holds → Client value holds none none
  | waiting (u : U) : ¬ holds →
      Client value holds (some (.update u, body I (.update u)))
        (some (.update u, body₁ I (.update u)))
  | locked (u : U) : holds →
      Client value holds (some (.update u, locked I u)) (some (.update u, body₁ I (.update u)))
  | loaded (u : U) : holds →
      Client value holds (some (.update u, loaded I u value))
        (some (.update u, body₁ I (.update u)))
  | stored (u : U) : holds →
      Client value holds (some (.update u, stored I)) (some (.update u, .done (.ok I.updated)))
  | asking (q : Q) : ¬ holds →
      Client value holds (some (.query q, body I (.query q))) (some (.query q, body₁ I (.query q)))
  | acting (r : Request U Q) (xs : List X) (out : Out) : ¬ holds →
      Client value holds (some (r, acting xs out)) (some (r, acting₁ xs out))

/-- The two runs have the same value and the same threads, and at most one has the lock. -/
structure Matches (p : Pool (words σ X) Empty (Request U Q) Out Tid)
    (q : Pool (atomic I) Empty (Request U Q) Out Tid) : Prop where
  value : q.shared = p.shared.value
  lock : ∃ holder : Option Tid, p.shared.locked = holder.isSome ∧
    ∀ t, Client I p.shared.value (holder = some t) (p.client t) (q.client t)
  shown : p.log.filterMap shown = q.log.filterMap shown₁

/-- No thread is in a request, and the lock is free. -/
def initial (value : σ) : Pool (words σ X) Empty (Request U Q) Out Tid :=
  Pool.init (⟨value, false⟩ : Cell σ)

/-- A thread takes the lock only while it is free. -/
def Enabled (p : Pool (words σ X) Empty (Request U Q) Out Tid) :
    Label (words σ X) (Request U Q) Tid → Prop
  | .act t _ => p.nextCall t = some .lock → p.shared.locked = false
  | _ => True

def Schedule [DecidableEq Tid] (body : Request U Q → Prog (Op.Ret : Op σ X → Type) Empty Out)
    (value : σ) (labels : List (Label (words σ X) (Request U Q) Tid)) : Prop :=
  Along (Pool.step body) Enabled (initial value) labels

variable {I} {value : σ} {holds : Prop}
  {c : Option (Request U Q × Prog (Op.Ret : Op σ X → Type) Empty Out)}
  {c' : Option (Request U Q × Prog (Op₁.Ret σ : Op₁ U X → Type) Empty Out)}

/-- Whoever does not have the lock does not depend on it. -/
theorem Client.of_not_holds (h : Client I value holds c c') (hnot : ¬ holds) {value' : σ}
    {holds' : Prop} (hnot' : ¬ holds') : Client I value' holds' c c' := by
  cases h with
  | idle _ => exact .idle hnot'
  | waiting u _ => exact .waiting u hnot'
  | locked u hholds => exact absurd hholds hnot
  | loaded u hholds => exact absurd hholds hnot
  | stored u hholds => exact absurd hholds hnot
  | asking q _ => exact .asking q hnot'
  | acting r xs out _ => exact .acting r xs out hnot'

variable [DecidableEq Tid] {p : Pool (words σ X) Empty (Request U Q) Out Tid}
  {q : Pool (atomic I) Empty (Request U Q) Out Tid} {t : Tid}

/-- A thread moves, and all others stay as they are. -/
theorem threads_update {holder : Option Tid}
    (h : ∀ t', t' ≠ t → Client I value (holder = some t') (p.client t') (q.client t'))
    (hself : Client I value (holder = some t) c c') :
    ∀ t', Client I value (holder = some t') (p.setClient t c t') (q.setClient t c' t') := by
  intro t'
  rw [Pool.setClient, Pool.setClient, Function.update_apply, Function.update_apply]
  split
  · subst t'
    exact hself
  · exact h t' ‹_›

/-- No other thread has the lock before or after. -/
theorem threads_own (value' : σ) (holder' : Option Tid) {holder : Option Tid}
    (h : ∀ t, Client I value (holder = some t) (p.client t) (q.client t))
    (hown : ∀ t', t' ≠ t → holder ≠ some t') (hown' : ∀ t', t' ≠ t → holder' ≠ some t')
    (hself : Client I value' (holder' = some t) c c') :
    ∀ t', Client I value' (holder' = some t') (p.setClient t c t') (q.setClient t c' t') :=
  threads_update (fun t' hne => (h t').of_not_holds (hown t' hne) (hown' t' hne)) hself

theorem setClient_self (q : Pool (atomic I) Empty (Request U Q) Out Tid) (t : Tid) :
    q.setClient t (q.client t) = q.client :=
  Function.update_eq_self t q.client

theorem step_act {Op : Type} {Ret : Op → Type} {sys : System Ret} {Call : Type}
    {p : Pool sys Empty Call Out Tid} (body : Call → Prog Ret Empty Out) {c : Call} {op : Op}
    {k : Ret op → Prog Ret Empty Out} (h : p.client t = some (c, .call op k)) (x : sys.Choice) :
    p.step body (.act t x) = ⟨(sys.exec p.shared op x).2,
      p.setClient t (some (c, k (sys.exec p.shared op x).1)),
      .act t op (sys.exec p.shared op x).1 :: p.log⟩ := by
  simp [Pool.step, h]

theorem Matches.act (h : Matches I p q) {x : (words σ X).Choice} (henabled : Enabled p (.act t x)) :
    ∃ labels, Matches I (p.step (body I) (.act t x)) (q.run (body₁ I) labels) := by
  obtain ⟨y⟩ : Nonempty (atomic I).Choice := ⟨()⟩
  obtain ⟨holder, hlocked, hclients⟩ := h.lock
  have hown : holder = some t → ∀ t', t' ≠ t → holder ≠ some t' := by
    rintro hholds t' hne rfl
    exact hne (Option.some.inj hholds)
  have hself := hclients t
  generalize hp : p.client t = c at hself
  generalize hq : q.client t = c' at hself
  cases hself with
  | idle hnot =>
    refine ⟨[], ?_⟩
    have hstays : p.step (body I) (.act t x) = p := by simp [Pool.step, hp]
    rw [hstays]
    exact h
  | waiting u hnot =>
    have hfree : p.shared.locked = false := henabled (by simp [Pool.nextCall, hp, body])
    have hnone : holder = none := by simpa [hlocked] using hfree
    have hnext := threads_own p.shared.value (some t) hclients
      (by simp [hnone]) (by intro t' hne; simpa using fun heq => hne heq.symm) (.locked u rfl)
    rw [← hq, setClient_self] at hnext
    rw [step_act (body I) hp]
    exact ⟨[], h.value, ⟨some t, rfl, hnext⟩, h.shown⟩
  | locked u hholds =>
    have hnext := threads_update (fun t' _ => hclients t') (.loaded u hholds)
    rw [← hq, setClient_self] at hnext
    rw [step_act (body I) hp]
    exact ⟨[], h.value, ⟨holder, hlocked, hnext⟩, h.shown⟩
  | loaded u hholds =>
    have hnext := threads_own (I.apply u p.shared.value) holder hclients (hown hholds)
      (hown hholds) (.stored u hholds)
    refine ⟨[.act t y], ?_⟩
    rw [step_act (body I) hp]
    change Matches I _ (q.step (body₁ I) (.act t y))
    rw [step_act (body₁ I) hq]
    exact ⟨congrArg (I.apply u) h.value, ⟨holder, hlocked, hnext⟩, h.shown⟩
  | stored u hholds =>
    have hnext := threads_own p.shared.value none hclients (hown hholds) (by simp)
      (.acting (.update u) [] I.updated (by simp))
    rw [acting₁, ← hq, setClient_self] at hnext
    rw [step_act (body I) hp]
    exact ⟨[], h.value, ⟨none, rfl, hnext⟩, h.shown⟩
  | asking r hnot =>
    have hloaded : Client I p.shared.value (holder = some t)
        (some (.query r, acting (I.actions r p.shared.value) (I.answer r p.shared.value)))
        (some (.query r, acting₁ (I.actions r q.shared) (I.answer r q.shared))) := by
      rw [h.value]
      exact .acting _ _ _ hnot
    refine ⟨[.act t y], ?_⟩
    rw [step_act (body I) hp]
    change Matches I _ (q.step (body₁ I) (.act t y))
    rw [step_act (body₁ I) hq]
    exact ⟨h.value, ⟨holder, hlocked, threads_update (fun t' _ => hclients t') hloaded⟩, h.shown⟩
  | acting r xs out hnot =>
    cases xs with
    | nil =>
      refine ⟨[], ?_⟩
      have hstays : p.step (body I) (.act t x) = p := by
        simp [Pool.step, hp, CopyOnWrite.acting]
      rw [hstays]
      exact h
    | cons x' xs =>
      have hnext := threads_update (fun t' _ => hclients t') (.acting r xs out hnot)
      refine ⟨[.act t y], ?_⟩
      rw [step_act (body I) hp]
      change Matches I _ (q.step (body₁ I) (.act t y))
      rw [step_act (body₁ I) hq]
      exact ⟨h.value, ⟨holder, hlocked, hnext⟩, congrArg (List.cons (Shown.act t x')) h.shown⟩

theorem Matches.step (h : Matches I p q) {l : Label (words σ X) (Request U Q) Tid}
    (henabled : Enabled p l) :
    ∃ labels, Matches I (p.step (body I) l) (q.run (body₁ I) labels) := by
  cases l with
  | act t x => exact h.act henabled
  | env e => exact e.elim
  | invoke t r =>
    obtain ⟨holder, hlocked, hclients⟩ := h.lock
    have hself := hclients t
    generalize hp : p.client t = c at hself
    generalize hq : q.client t = c' at hself
    cases hself with
    | idle hnot =>
      have hstart : Client I p.shared.value (holder = some t) (some (r, body I r))
          (some (r, body₁ I r)) := by
        cases r with
        | update u => exact .waiting u hnot
        | query r => exact .asking r hnot
      refine ⟨[.invoke t r], ?_⟩
      change Matches I _ (q.step (body₁ I) (.invoke t r))
      simp only [Pool.step, hp, hq]
      exact ⟨h.value, ⟨holder, hlocked, threads_update (fun t' _ => hclients t') hstart⟩,
        congrArg (List.cons (Shown.request t r)) h.shown⟩
    | _ =>
      refine ⟨[], ?_⟩
      simp only [Pool.step, hp]
      exact h
  | respond t =>
    obtain ⟨holder, hlocked, hclients⟩ := h.lock
    have hself := hclients t
    generalize hp : p.client t = c at hself
    generalize hq : q.client t = c' at hself
    cases hself with
    | acting r xs out hnot =>
      cases xs with
      | nil =>
        refine ⟨[.respond t], ?_⟩
        change Matches I _ (q.step (body₁ I) (.respond t))
        simp only [Pool.step, hp, hq, CopyOnWrite.acting, acting₁]
        exact ⟨h.value, ⟨holder, hlocked, threads_update (fun t' _ => hclients t') (.idle hnot)⟩,
          congrArg (List.cons (Shown.answer t r (.ok out))) h.shown⟩
      | cons x xs =>
        refine ⟨[], ?_⟩
        simp only [Pool.step, hp, CopyOnWrite.acting]
        exact h
    | _ =>
      refine ⟨[], ?_⟩
      simp only [Pool.step, hp, body, CopyOnWrite.locked, CopyOnWrite.loaded,
        CopyOnWrite.stored]
      exact h

theorem Matches.run (h : Matches I p q) {labels : List (Label (words σ X) (Request U Q) Tid)}
    (henabled : Along (Pool.step (body I)) Enabled p labels) :
    ∃ labels', Matches I (p.run (body I) labels) (q.run (body₁ I) labels') := by
  induction labels generalizing p q with
  | nil => exact ⟨[], h⟩
  | cons l labels ih =>
    obtain ⟨first, hfirst⟩ := h.step henabled.1
    obtain ⟨rest, hrest⟩ := ih hfirst henabled.2
    refine ⟨first ++ rest, ?_⟩
    rw [Pool.run_append]
    exact hrest

omit [DecidableEq Tid] in
theorem matches_init (I : Interface σ U Q X Out) (value : σ) :
    Matches I (initial value : Pool (words σ X) Empty (Request U Q) Out Tid) (Pool.init value) where
  value := rfl
  lock := ⟨none, rfl, fun _ => .idle nofun⟩
  shown := rfl

end Refinement

/-! ## Lasting updates -/

section Lasting

variable {σ U Q X Out Tid : Type} [DecidableEq Tid] (I : Interface σ U Q X Out) (S : σ → Prop)

/-- The actions of a thread since its last request, the latest first. -/
def actionsSince (t : Tid) : List (Shown U Q X Out Tid) → List X
  | [] => []
  | .request t' _ :: history => if t' = t then [] else actionsSince t history
  | .act t' x :: history => if t' = t then x :: actionsSince t history else actionsSince t history
  | .answer _ _ _ :: history => actionsSince t history

/-- `P` held of the history when a thread made its last request. -/
def RequestedAfter (P : List (Shown U Q X Out Tid) → Prop) (t : Tid) :
    List (Shown U Q X Out Tid) → Prop
  | [] => False
  | .request t' _ :: history => if t' = t then P history else RequestedAfter P t history
  | _ :: history => RequestedAfter P t history

/-- An update that makes `S` true has returned. -/
def Announced (history : List (Shown U Q X Out Tid)) : Prop :=
  ∃ t u r, .answer t (.update u) r ∈ history ∧ ∀ s, S (I.apply u s)

/-- Every query was answered, with all its actions done, from a value. It is one with `S` if
the query was made after an update that makes `S` true had returned. -/
def Answered : List (Shown U Q X Out Tid) → Prop
  | [] => True
  | .answer t (.query q) out :: history =>
    (∃ value, out = .ok (I.answer q value) ∧
      (actionsSince t history).reverse = I.actions q value ∧
        (RequestedAfter (Announced I S) t history → S value)) ∧ Answered history
  | _ :: history => Answered history

/-- Where a thread stands in its request. -/
def Working (value : σ) (history : List (Shown U Q X Out Tid)) (t : Tid) :
    Request U Q → Prog (Op₁.Ret σ : Op₁ U X → Type) Empty Out → Prop
  | .update u, prog => (∀ s, S s → S (I.apply u s)) ∧
      (prog = body₁ I (.update u) ∨
        prog = .done (.ok I.updated) ∧ ((∀ s, S (I.apply u s)) → S value))
  | .query r, prog =>
    prog = body₁ I (.query r) ∧ actionsSince t history = [] ∨
      ∃ loaded xs, prog = acting₁ xs (I.answer r loaded) ∧
        (actionsSince t history).reverse ++ xs = I.actions r loaded ∧
          (RequestedAfter (Announced I S) t history → S loaded)

structure Lasting (q : Pool (atomic I) Empty (Request U Q) Out Tid) : Prop where
  value : Announced I S (q.log.filterMap shown₁) → S q.shared
  working : ∀ t r prog, q.client t = some (r, prog) →
    Working I S q.shared (q.log.filterMap shown₁) t r prog
  answered : Answered I S (q.log.filterMap shown₁)

variable {I S}

theorem RequestedAfter.mono {P P' : List (Shown U Q X Out Tid) → Prop} (hP : ∀ h, P h → P' h)
    {t : Tid} {history : List (Shown U Q X Out Tid)} (h : RequestedAfter P t history) :
    RequestedAfter P' t history := by
  induction history with
  | nil => exact h.elim
  | cons e history ih =>
    cases e with
    | request t' r =>
      rw [RequestedAfter] at h ⊢
      split
      · exact hP history (by simpa [*] using h)
      · exact ih (by simpa [*] using h)
    | act t' x => exact ih h
    | answer t' r out => exact ih h

theorem Answered.split {t : Tid} {q : Q} {out : Except Empty Out}
    {later earlier : List (Shown U Q X Out Tid)}
    (h : Answered I S (later ++ .answer t (.query q) out :: earlier)) :
    ∃ value, out = .ok (I.answer q value) ∧ (actionsSince t earlier).reverse = I.actions q value ∧
      (RequestedAfter (Announced I S) t earlier → S value) := by
  induction later with
  | nil => exact h.1
  | cons e later ih =>
    cases e with
    | request t' r => exact ih h
    | act t' x => exact ih h
    | answer t' r out =>
      cases r with
      | update u => exact ih h
      | query r => exact ih h.2

theorem RequestedAfter.announced {t : Tid} {history : List (Shown U Q X Out Tid)}
    (h : RequestedAfter (Announced I S) t history) : Announced I S history := by
  induction history with
  | nil => exact h.elim
  | cons e history ih =>
    have hgrow : Announced I S history → Announced I S (e :: history) := by
      rintro ⟨t', u, r, hmem, hu⟩
      exact ⟨t', u, r, List.mem_cons_of_mem e hmem, hu⟩
    cases e with
    | request t' r =>
      rw [RequestedAfter] at h
      split at h
      · exact hgrow h
      · exact hgrow (ih h)
    | act t' x => exact hgrow (ih h)
    | answer t' r out => exact hgrow (ih h)

/-- What another thread does leaves a thread where it stands. -/
theorem Working.frame {value value' : σ} {history history' : List (Shown U Q X Out Tid)} {t : Tid}
    {r : Request U Q} {prog : Prog (Op₁.Ret σ : Op₁ U X → Type) Empty Out}
    (h : Working I S value history t r prog) (hvalue : S value → S value')
    (hactions : actionsSince t history' = actionsSince t history)
    (hinformed : RequestedAfter (Announced I S) t history' →
      RequestedAfter (Announced I S) t history) :
    Working I S value' history' t r prog := by
  cases r with
  | update u =>
    refine ⟨h.1, ?_⟩
    rcases h.2 with hprog | ⟨hprog, hs⟩
    · exact Or.inl hprog
    · exact Or.inr ⟨hprog, fun hu => hvalue (hs hu)⟩
  | query r =>
    rw [Working, hactions]
    rcases h with h | ⟨loaded, xs, hprog, hxs, hs⟩
    · exact Or.inl h
    · exact Or.inr ⟨loaded, xs, hprog, hxs, fun hi => hs (hinformed hi)⟩

/-- The thread an event belongs to. -/
def thread : Event (atomic I) Empty (Request U Q) Out Tid → Option Tid
  | .invoke t _ => some t
  | .act t _ _ => some t
  | .respond t _ _ => some t
  | .env _ => none

theorem Working.of_ne {q : Pool (atomic I) Empty (Request U Q) Out Tid} {value' : σ} {t t' : Tid}
    {e : Event (atomic I) Empty (Request U Q) Out Tid} {r : Request U Q}
    {prog : Prog (Op₁.Ret σ : Op₁ U X → Type) Empty Out}
    (h : Working I S q.shared (q.log.filterMap shown₁) t' r prog) (hvalue : S q.shared → S value')
    (he : thread e = some t) (hne : t' ≠ t) :
    Working I S value' ((e :: q.log).filterMap shown₁) t' r prog := by
  have hne : t ≠ t' := hne.symm
  refine h.frame hvalue ?_ ?_
  · cases e with
    | invoke t'' r' => simp_all [thread, shown₁, actionsSince]
    | act t'' op r' =>
      cases op with
      | update u => rfl
      | load => rfl
      | act x => simp_all [thread, shown₁, actionsSince]
    | respond t'' r' out => rfl
    | env e => cases he
  · cases e with
    | invoke t'' r' => simp_all [thread, shown₁, RequestedAfter]
    | act t'' op r' =>
      cases op with
      | update u => exact id
      | load => exact id
      | act x => exact id
    | respond t'' r' out => exact id
    | env e => cases he

/-- A thread moves. -/
theorem Lasting.move {q : Pool (atomic I) Empty (Request U Q) Out Tid} (h : Lasting I S q)
    {value' : σ} {t : Tid} {x : Option (Request U Q × Prog (Op₁.Ret σ : Op₁ U X → Type) Empty Out)}
    {e : Event (atomic I) Empty (Request U Q) Out Tid} (he : thread e = some t)
    (hkeep : S q.shared → S value')
    (hvalue : Announced I S ((e :: q.log).filterMap shown₁) → S value')
    (hself : ∀ r prog, x = some (r, prog) →
      Working I S value' ((e :: q.log).filterMap shown₁) t r prog)
    (hanswered : Answered I S ((e :: q.log).filterMap shown₁)) :
    Lasting I S ⟨value', q.setClient t x, e :: q.log⟩ where
  value := hvalue
  working t' r prog hclient := by
    change Function.update q.client t x t' = some (r, prog) at hclient
    rw [Function.update_apply] at hclient
    split at hclient
    · subst t'
      exact hself r prog hclient
    · exact (h.working t' r prog hclient).of_ne hkeep he ‹_›
  answered := hanswered

theorem Lasting.invoke {q : Pool (atomic I) Empty (Request U Q) Out Tid} (h : Lasting I S q)
    (t : Tid) {r : Request U Q} (hr : ∀ u, r = .update u → ∀ s, S s → S (I.apply u s)) :
    Lasting I S ⟨q.shared, q.setClient t (some (r, body₁ I r)), .invoke t r :: q.log⟩ := by
  refine h.move rfl id ?_ ?_ h.answered
  · rintro ⟨t', u, out, hmem, hu⟩
    exact h.value ⟨t', u, out, by simpa [shown₁] using hmem, hu⟩
  · rintro _ _ ⟨⟩
    cases r with
    | update u => exact ⟨hr u rfl, Or.inl rfl⟩
    | query r => exact Or.inl ⟨rfl, by simp [shown₁, actionsSince]⟩

theorem Lasting.act {q : Pool (atomic I) Empty (Request U Q) Out Tid} (h : Lasting I S q) {t : Tid}
    (x : (atomic I).Choice) {r : Request U Q} {op : Op₁ U X}
    {k : Op₁.Ret σ op → Prog (Op₁.Ret σ : Op₁ U X → Type) Empty Out}
    (hclient : q.client t = some (r, .call op k)) :
    Lasting I S ⟨((atomic I).exec q.shared op x).2,
      q.setClient t (some (r, k ((atomic I).exec q.shared op x).1)),
      .act t op ((atomic I).exec q.shared op x).1 :: q.log⟩ := by
  have hself := h.working t r _ hclient
  cases r with
  | update u =>
    obtain ⟨hkeep, hprog | ⟨hprog, -⟩⟩ := hself
    · cases hprog
      refine h.move rfl (hkeep q.shared) (fun ha => hkeep _ (h.value ha)) ?_ h.answered
      rintro _ _ ⟨⟩
      exact ⟨hkeep, Or.inr ⟨rfl, fun hu => hu q.shared⟩⟩
    · cases hprog
  | query r =>
    rcases hself with ⟨hprog, hnone⟩ | ⟨loaded, xs, hprog, hxs, hs⟩
    · cases hprog
      refine h.move rfl id h.value ?_ h.answered
      rintro _ _ ⟨⟩
      refine Or.inr ⟨q.shared, I.actions r q.shared, rfl, ?_, fun hi => h.value hi.announced⟩
      change (actionsSince t (q.log.filterMap shown₁)).reverse ++ _ = _
      rw [hnone, List.reverse_nil, List.nil_append]
    · cases xs with
      | nil => cases hprog
      | cons x' xs =>
        cases hprog
        refine h.move rfl id ?_ ?_ h.answered
        · rintro ⟨t', u, out, hmem, hu⟩
          exact h.value ⟨t', u, out, by simpa [shown₁] using hmem, hu⟩
        · rintro _ _ ⟨⟩
          refine Or.inr ⟨loaded, xs, rfl, ?_, hs⟩
          simpa [shown₁, actionsSince] using hxs

theorem Lasting.respond {q : Pool (atomic I) Empty (Request U Q) Out Tid} (h : Lasting I S q)
    {t : Tid} {r : Request U Q} {out : Except Empty Out}
    (hclient : q.client t = some (r, .done out)) :
    Lasting I S ⟨q.shared, q.setClient t none, .respond t r out :: q.log⟩ := by
  have hself := h.working t r _ hclient
  cases r with
  | update u =>
    refine h.move rfl id ?_ nofun h.answered
    rintro ⟨t', u', out', hmem, hu⟩
    rcases List.mem_cons.mp hmem with heq | hmem
    · cases heq
      obtain ⟨-, hprog | ⟨-, hs⟩⟩ := hself
      · cases hprog
      · exact hs hu
    · exact h.value ⟨t', u', out', hmem, hu⟩
  | query r =>
    refine h.move rfl id ?_ nofun ⟨?_, h.answered⟩
    · rintro ⟨t', u', out', hmem, hu⟩
      rcases List.mem_cons.mp hmem with heq | hmem
      · cases heq
      · exact h.value ⟨t', u', out', hmem, hu⟩
    · rcases hself with ⟨hprog, -⟩ | ⟨loaded, xs, hprog, hxs, hs⟩
      · cases hprog
      · cases xs with
        | nil =>
          cases hprog
          exact ⟨loaded, rfl, by simpa using hxs, hs⟩
        | cons x xs => cases hprog

/-- No update that was requested undoes `S`. -/
def Kept (I : Interface σ U Q X Out) (S : σ → Prop) (history : List (Shown U Q X Out Tid)) : Prop :=
  ∀ t u, .request t (.update u) ∈ history → ∀ s, S s → S (I.apply u s)

omit [DecidableEq Tid] in
theorem Kept.of_cons {log : List (Event (atomic I) Empty (Request U Q) Out Tid)}
    {e : Event (atomic I) Empty (Request U Q) Out Tid}
    (h : Kept I S ((e :: log).filterMap shown₁)) : Kept I S (log.filterMap shown₁) := by
  intro t u hmem
  refine h t u ?_
  rw [List.filterMap_cons]
  split
  · exact hmem
  · exact List.mem_cons_of_mem _ hmem

end Lasting

end CopyOnWrite
