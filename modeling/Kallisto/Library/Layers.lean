import Kallisto.Library.Interleaving

/-! # Programs over programs

The calls of a program may be programs themselves. Expanding them gives a program over the
lower calls, and what the layers promise composes: if every call keeps to a protocol and
ends as the upper layer expects, the expanded program keeps to it too. -/

namespace Program

namespace Prog

variable {Op : Type} {Ret : Op → Type} {ε ε' α β : Type}

/-- Go on with the outcome of a program, be it a value or an error. -/
def handle : Prog Ret ε α → (Except ε α → Prog Ret ε' β) → Prog Ret ε' β
  | done r, f => f r
  | call op k, f => call op fun r => (k r).handle f

/-- Every call of the upper program is run as a program over the lower calls. -/
def expand {Upper : Type} {Res : Upper → Type} (impl : (c : Upper) → Prog Ret ε (Res c)) :
    Prog (fun c => Except ε (Res c)) ε' α → Prog Ret ε' α
  | done r => done r
  | call c k => (impl c).handle fun r => (k r).expand impl

end Prog

section Follows

variable {Op : Type} {Ret : Op → Type} {ε ε' α β D : Type} {π : Protocol Ret D}

theorem Follows.handle {F : D → Except ε α → Prop} {G : D → Except ε' β → Prop}
    {f : Except ε α → Prog Ret ε' β} (hf : ∀ d r, F d r → Follows π G d (f r))
    {prog : Prog Ret ε α} {d : D} (h : Follows π F d prog) : Follows π G d (prog.handle f) := by
  induction prog generalizing d with
  | done r => exact hf d r h
  | call op k ih => exact ⟨h.1, fun r hr => ih r (h.2 r hr)⟩

end Follows

section Expand

variable {Op Upper : Type} {Ret : Op → Type} {Res : Upper → Type} {ε ε' α : Type}
  {π : Protocol Ret Unit}

/-- The calls that an upper program may make, and how they may end. -/
def callsProtocol (may : Upper → Prop) (ends : (c : Upper) → Except ε (Res c) → Prop) :
    Protocol (fun c => Except ε (Res c)) Unit where
  allowed _ := may
  possible _ := ends
  next _ _ _ := ()

theorem Follows.expand {may : Upper → Prop} {ends : (c : Upper) → Except ε (Res c) → Prop}
    {impl : (c : Upper) → Prog Ret ε (Res c)} {G : Except ε' α → Prop}
    (himpl : ∀ c, may c → Follows π (fun _ => ends c) () (impl c))
    {prog : Prog (fun c => Except ε (Res c)) ε' α}
    (h : Follows (callsProtocol may ends) (fun _ => G) () prog) :
    Follows π (fun _ => G) () (prog.expand impl) := by
  induction prog with
  | done r => exact h
  | call c k ih => exact (himpl c h.1).handle fun _ r hr => ih r (h.2 r hr)

end Expand

end Program
