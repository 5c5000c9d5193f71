import Kallisto.Library.Layers

/-! # Contracts of interleaved clients

Clients that keep to a protocol whose calls preserve an assertion on the shared state. All
answers that they get are possible ones and all results that they return are as promised,
whatever the interleaving. -/

namespace Interleaving

open Program

variable {Op : Type} {Ret : Op → Type} {sys : System Ret} {ε Call Out Tid : Type}

/-- The assertion holds, clients keep to the protocol, and so did all that happened. -/
structure Honoured (π : Protocol Ret Unit) (J : sys.State → Prop)
    (F : Call → Except ε Out → Prop) (p : Pool sys ε Call Out Tid) : Prop where
  shared : J p.shared
  clients : ∀ t c prog, p.client t = some (c, prog) → Follows π (fun _ => F c) () prog
  answers : ∀ t op r, .act t op r ∈ p.log → π.possible () op r
  results : ∀ t c r, .respond t c r ∈ p.log → F c r

section Honoured

variable {π : Protocol Ret Unit} {J : sys.State → Prop} {F : Call → Except ε Out → Prop}

theorem honoured_init {s : sys.State} (hs : J s) :
    Honoured π J F (Pool.init s : Pool sys ε Call Out Tid) where
  shared := hs
  clients t c prog hclient := by cases hclient
  answers t op r hmem := by cases hmem
  results t c r hmem := by cases hmem

variable [DecidableEq Tid] {body : Call → Prog Ret ε Out}

/-- A client moves on, with an event that is as promised. -/
theorem Honoured.move {p : Pool sys ε Call Out Tid} (h : Honoured π J F p) {t : Tid}
    {s : sys.State} {x : Option (Call × Prog Ret ε Out)} {e : Event sys ε Call Out Tid} (hs : J s)
    (hx : ∀ c prog, x = some (c, prog) → Follows π (fun _ => F c) () prog)
    (hact : ∀ t' op r, e = .act t' op r → π.possible () op r)
    (hrespond : ∀ t' c r, e = .respond t' c r → F c r) :
    Honoured π J F ⟨s, p.setClient t x, e :: p.log⟩ where
  shared := hs
  clients t' c prog hclient := by
    change Function.update p.client t x t' = some (c, prog) at hclient
    rw [Function.update_apply] at hclient
    split at hclient
    · exact hx c prog hclient
    · exact h.clients t' c prog hclient
  answers t' op r hmem := by
    rcases List.mem_cons.mp hmem with heq | hmem
    · exact hact t' op r heq.symm
    · exact h.answers t' op r hmem
  results t' c r hmem := by
    rcases List.mem_cons.mp hmem with heq | hmem
    · exact hrespond t' c r heq.symm
    · exact h.results t' c r hmem

/-- The contract holds throughout a run if the requests made in it keep to the protocol. -/
theorem Honoured.run {ok : sys.Choice → Prop}
    (hexec : ∀ s op choice, J s → π.allowed () op → ok choice →
      π.possible () op (sys.exec s op choice).1 ∧ J (sys.exec s op choice).2)
    (henv : ∀ s e, J s → J (sys.env s e)) {p : Pool sys ε Call Out Tid}
    (hp : Honoured π J F p) {labels : List (Label sys Call Tid)}
    (hchoices : ∀ t choice, .act t choice ∈ labels → ok choice)
    (hbody : ∀ t c, .invoke t c ∈ labels → Follows π (fun _ => F c) () (body c)) :
    Honoured π J F (p.run body labels) := by
  have hall : Along (Pool.step body) (fun _ l => l ∈ labels) p labels :=
    Along.of_forall p fun _ hl => hl
  refine Pool.run_invariant ?_ ?_ ?_ ?_ hp hall
  · intro p t c hp hok _
    refine hp.move hp.shared ?_ nofun nofun
    rintro c' prog ⟨⟩
    exact hbody t c hok
  · intro p t choice c op k hp hok hclient
    obtain ⟨hallowed, hnext⟩ := hp.clients t c _ hclient
    obtain ⟨hpossible, hkept⟩ :=
      hexec p.shared op choice hp.shared hallowed (hchoices t choice hok)
    refine hp.move hkept ?_ ?_ nofun
    · rintro c' prog ⟨⟩
      exact hnext _ hpossible
    · rintro t' op' r ⟨⟩
      exact hpossible
  · intro p t c r hp _ hclient
    refine hp.move hp.shared nofun nofun ?_
    rintro t' c' r' ⟨⟩
    exact hp.clients t c _ hclient
  · intro p e hp _
    refine ⟨henv p.shared e hp.shared, hp.clients, ?_, ?_⟩
    · intro t op r hmem
      exact hp.answers t op r
        ((List.mem_cons.mp hmem).resolve_left (Event.env_ne_act e t op r).symm)
    · intro t c r hmem
      rcases List.mem_cons.mp hmem with heq | hmem
      · cases heq
      · exact hp.results t c r hmem

end Honoured

end Interleaving
