import Kallisto.Verification.Engine.Mirror

/-! # What clients with keys of their own read and write

In immediate mode a client whose keys no other client touches gets the results of its
scripts, evaluated one after the other on books of its own. -/

namespace Kallisto.Engine

open Program Interleaving

variable {B Tid : Type} {t : Tid} {c : Call} {r : Except EngineError Out}

/-! ## Replays -/

/-- A request that was answered, with what it took from outside. -/
structure Request where
  call : Call
  faced : List Given
  result : Except EngineError Out

/-- The requests, the latest of which comes first, evaluated on the books. What a request
took from outside is all that its script asks for. -/
inductive Replays (rkyv : Rkyv B) (books₀ : Books B) : List Request → Books B → Prop where
  | nil : Replays rkyv books₀ [] books₀
  | cons {requests : List Request} {books books' : Books B} (request : Request)
      (before : Replays rkyv books₀ requests books)
      (h : ∀ now, (script rkyv request.call).eval now books request.faced =
        (request.result, books')) : Replays rkyv books₀ (request :: requests) books'

/-- What is known of one of the requests of a replay. -/
theorem Replays.split {rkyv : Rkyv B} {books₀ : Books B} {request : Request}
    {earlier : List Request} : ∀ {later : List Request} {books : Books B},
    Replays rkyv books₀ (later ++ request :: earlier) books → ∃ before after,
      Replays rkyv books₀ earlier before ∧
        ∀ now, (script rkyv request.call).eval now before request.faced =
          (request.result, after) := by
  intro later
  induction later with
  | nil =>
    rintro books (_ | ⟨_, hbefore, heval⟩)
    exact ⟨_, _, hbefore, heval⟩
  | cons last later ih =>
    rintro books (_ | ⟨_, hbefore, heval⟩)
    exact ih hbefore

/-- What calls took from outside, the latest of which comes first. -/
def facedBy : List ((op : Effect B) × op.Ret) → List Given
  | [] => []
  | x :: trace => facedBy trace ++ x.1.faced x.2

/-- The requests of a client that were answered, the latest first. -/
def requestsOf [DecidableEq Tid] (t : Tid) :
    List (Event (system B) EngineError Call Out Tid) → List Request
  | [] => []
  | .respond t' c r :: log =>
    if t' = t then ⟨c, facedBy (callTrace t log), r⟩ :: requestsOf t log else requestsOf t log
  | .invoke _ _ :: log => requestsOf t log
  | .act _ _ _ :: log => requestsOf t log
  | .env _ :: log => requestsOf t log

variable [DecidableEq Tid]

/-! ## The invariant -/

/-- Where a client stands in its request. -/
def Standing (K : String → Prop) (books : Books B) (sc : Script B) (before : Books B)
    (faced : List Given) (left : Script B) : Prop :=
  ∃ own, AgreeOn K own books ∧
    ∀ now rest, sc.eval now before (faced ++ rest) = left.eval now own rest

/-- The account of a client: its requests so far are a replay on books that agree with
the engine's, up to what the request in progress has done. -/
def Account (rkyv : Rkyv B) (books₀ : Books B) (K : String → Prop) (books : Books B)
    (requests : List Request) (faced : List Given) (left : Script B) :
    Option (Call × EngineM B Out) → Prop
  | none => ∃ own, Replays rkyv books₀ requests own ∧ AgreeOn K own books
  | some (c, _) => ∃ before, Replays rkyv books₀ requests before ∧
      Standing K books (script rkyv c) before faced left

structure Accounted (rkyv : Rkyv B) (books₀ : Books B) (K : Tid → String → Prop)
    (p : Clients B Tid) (stance : Tid → Stance B) (records : String → Option B) : Prop where
  mirrors : Mirrors .immediate (fun _ => True) K p stance records
  accounts : ∀ t, Account rkyv books₀ (K t) ⟨records, p.shared.pathIndex⟩ (requestsOf t p.log)
    (facedBy (callTrace t p.log)) (stance t).script (p.client t)

/-- Requests of a client are about its own paths. -/
def OwnStep (K : Tid → String → Prop) : Step B Tid → Prop
  | .invoke t c => ∀ key, PathKey c.path key → K t key
  | _ => True

omit [DecidableEq Tid] in
/-- A client that owns every key is about its own paths. -/
theorem ownStep_all (l : Step B Tid) : OwnStep (fun _ _ => True) l := by
  cases l with
  | invoke t c => exact fun _ _ => trivial
  | _ => trivial

section Accounts

variable {rkyv : Rkyv B} {books₀ books books' : Books B} {requests : List Request}
  {faced faced' : List Given} {left left' : Script B} {K : String → Prop}
  {x : Option (Call × EngineM B Out)}

theorem Standing.advance {before : Books B} {sc : Script B} {wrote : Option (AsyncOp B)}
    (h : Standing K books sc before faced left)
    (hproper : left.Proper .immediate (fun _ => True) K)
    (hadvances : left.Advances (fun _ => True) books faced' wrote left' books') :
    Standing K books' sc before (faced ++ faced') left' := by
  obtain ⟨own, hagree, heval⟩ := h
  rcases hadvances with ⟨rfl, rfl, rfl, -⟩ | hmoves
  · refine ⟨own, hagree, ?_⟩
    rw [List.append_nil]
    exact heval
  · obtain ⟨own', hagree', hnext⟩ := hmoves.eval hproper hagree
    refine ⟨own', hagree', fun now rest => ?_⟩
    rw [List.append_assoc, heval, hnext]

omit [DecidableEq Tid] in
/-- The books of a client are not touched by the moves of another one. -/
theorem AgreeOn.others {K : Tid → String → Prop} (hdisjoint : Disjoint K) {t' : Tid}
    (ht : t' ≠ t) {own : Books B} (h : AgreeOn (K t') own books)
    (hproper : left.Proper .immediate (fun _ => True) (K t)) {wrote : Option (AsyncOp B)}
    (hadvances : left.Advances (fun _ => True) books faced wrote left' books') :
    AgreeOn (K t') own books' := by
  rcases hadvances with ⟨-, rfl, -⟩ | hmoves
  · exact h
  · obtain ⟨hrecords, hpaths⟩ := hproper.frame hmoves
    constructor
    · exact fun key hkey => (h.records key hkey).trans
        (hrecords key fun hkey' => ht (hdisjoint t' t key hkey hkey')).symm
    · exact fun path hpath => (h.paths path hpath).trans
        (hpaths path fun hpath' => ht (hdisjoint t' t _ hpath hpath')).symm

theorem Account.agree (h : Account rkyv books₀ K books requests faced left x)
    (hagree : ∀ own, AgreeOn K own books → AgreeOn K own books') :
    Account rkyv books₀ K books' requests faced left x := by
  cases x with
  | none =>
    obtain ⟨own, hreplays, hown⟩ := h
    exact ⟨own, hreplays, hagree own hown⟩
  | some running =>
    obtain ⟨before, hreplays, own, hown, heval⟩ := h
    exact ⟨before, hreplays, own, hagree own hown, heval⟩

omit [DecidableEq Tid] in
theorem Account.replays (h : Account rkyv books₀ K books requests faced left x) :
    ∃ books', Replays rkyv books₀ requests books' := by
  cases x with
  | none =>
    obtain ⟨own, hreplays, -⟩ := h
    exact ⟨own, hreplays⟩
  | some running =>
    obtain ⟨before, hreplays, -⟩ := h
    exact ⟨before, hreplays⟩

/-- A request that has ended is one more of the replay. -/
theorem Account.respond
    (h : Account rkyv books₀ K books requests faced (.finish r) (some (c, .done r))) :
    Account rkyv books₀ K books (⟨c, faced, r⟩ :: requests) faced' left none := by
  obtain ⟨before, hreplays, own, hagree, heval⟩ := h
  refine ⟨own, .cons ⟨c, faced, r⟩ hreplays fun now => ?_, hagree⟩
  have hend := heval now []
  rwa [List.append_nil] at hend

end Accounts

/-! ## Steps -/

namespace Accounted

variable {rkyv : Rkyv B} {books₀ : Books B} {K : Tid → String → Prop} {p : Clients B Tid}
  {stance : Tid → Stance B} {records : String → Option B}

theorem opened (rkyv : Rkyv B) (db : String → Option B) (paths : List String)
    (K : Tid → String → Prop) :
    Accounted rkyv ⟨db, paths⟩ K (Clients.opened db .immediate paths)
      (fun _ => ⟨.finish (.ok .unit), .clear⟩) db where
  mirrors := mirrors_opened .immediate _ K db paths
  accounts _ := ⟨⟨db, paths⟩, .nil, .refl _ _⟩

theorem invoke (h : Accounted rkyv books₀ K p stance records) (hdisjoint : Disjoint K)
    (hclient : p.client t = none) (hown : ∀ key, PathKey c.path key → K t key) :
    Accounted rkyv books₀ K ⟨p.shared, p.setClient t (some (c, body rkyv c)), .invoke t c :: p.log⟩
      (Function.update stance t ⟨script rkyv c, .clear⟩) records where
  mirrors := h.mirrors.invoke hdisjoint rkyv hclient (script_proper rkyv (Or.inl rfl) c hown)
  accounts t' := by
    have haccount := h.accounts t'
    change Account rkyv books₀ (K t') ⟨records, p.shared.pathIndex⟩ (requestsOf t' p.log) _ _
      (Function.update p.client t (some (c, body rkyv c)) t')
    by_cases ht : t' = t
    · subst ht
      rw [hclient] at haccount
      obtain ⟨own, hreplays, hagree⟩ := haccount
      rw [Function.update_self, Function.update_self, callTrace, if_pos rfl]
      exact ⟨own, hreplays, own, hagree, fun _ _ => rfl⟩
    · rw [Function.update_of_ne ht, Function.update_of_ne ht, callTrace, if_neg (Ne.symm ht)]
      exact haccount

theorem act (h : Accounted rkyv books₀ K p stance records) (hdisjoint : Disjoint K)
    {op : Effect B} {k : op.Ret → EngineM B Out} {choice : Choice}
    (hclient : p.client t = some (c, .call op k))
    (hfair : FairStep .immediate (fun _ => True) p (.act t choice)) :
    ∃ stance' records', Accounted rkyv books₀ K ⟨(p.shared.exec op choice).2,
      p.setClient t (some (c, k (p.shared.exec op choice).1)),
      .act t op (p.shared.exec op choice).1 :: p.log⟩ stance' records' := by
  have hexec : p.shared.exec op choice =
      ((p.shared.exec op choice).1, (p.shared.exec op choice).2) := rfl
  obtain ⟨st, records', hmirrors, hadvances, -⟩ := h.mirrors.act hdisjoint hclient hfair hexec
  refine ⟨_, records', hmirrors, fun t' => ?_⟩
  have haccount := h.accounts t'
  change Account rkyv books₀ (K t') _ (requestsOf t' p.log) _ _
    (Function.update p.client t (some (c, k (p.shared.exec op choice).1)) t')
  by_cases ht : t' = t
  · subst ht
    rw [hclient] at haccount
    obtain ⟨before, hreplays, hstanding⟩ := haccount
    rw [Function.update_self, Function.update_self, callTrace, if_pos rfl]
    exact ⟨before, hreplays, hstanding.advance (h.mirrors.proper t') hadvances⟩
  · rw [Function.update_of_ne ht, Function.update_of_ne ht, callTrace, if_neg (Ne.symm ht)]
    exact haccount.agree fun own hagree =>
      hagree.others hdisjoint ht (h.mirrors.proper t) hadvances

theorem respond (h : Accounted rkyv books₀ K p stance records)
    (hclient : p.client t = some (c, .done r)) :
    Accounted rkyv books₀ K ⟨p.shared, p.setClient t none, .respond t c r :: p.log⟩
      stance records where
  mirrors := h.mirrors.respond hclient
  accounts t' := by
    have haccount := h.accounts t'
    change Account rkyv books₀ (K t') ⟨records, p.shared.pathIndex⟩ _ _ _
      (Function.update p.client t none t')
    by_cases ht : t' = t
    · subst ht
      rw [hclient, h.mirrors.finished hclient] at haccount
      rw [Function.update_self, requestsOf, if_pos rfl]
      exact haccount.respond
    · rw [Function.update_of_ne ht, requestsOf, if_neg (Ne.symm ht), callTrace]
      exact haccount

theorem env (h : Accounted rkyv books₀ K p stance records) {e : EnvStep}
    (he : FairStep .immediate (fun _ => True) p (.env e)) :
    Accounted rkyv books₀ K ⟨p.shared.env e, p.client, .env e :: p.log⟩ stance records where
  mirrors := h.mirrors.env he
  accounts t := by
    change Account rkyv books₀ (K t) ⟨records, (p.shared.env e).pathIndex⟩ _ _ _ _
    rw [env_pathIndex]
    exact h.accounts t

theorem step (h : ∃ stance records, Accounted rkyv books₀ K p stance records)
    (hdisjoint : Disjoint K) {l : Step B Tid} (hfair : FairStep .immediate (fun _ => True) p l)
    (hown : OwnStep K l) :
    ∃ stance records, Accounted rkyv books₀ K (p.step (body rkyv) l) stance records := by
  refine Pool.step_invariant
    (I := fun p => ∃ stance records, Accounted rkyv books₀ K p stance records)
    (fun p l => FairStep .immediate (fun _ => True) p l ∧ OwnStep K l) ?_ ?_ ?_ ?_ h ⟨hfair, hown⟩
  · rintro p t c ⟨stance, records, h⟩ hok hclient
    exact ⟨_, _, h.invoke hdisjoint hclient hok.2⟩
  · rintro p t choice c op k ⟨stance, records, h⟩ hok hclient
    exact h.act hdisjoint hclient hok.1
  · rintro p t c r ⟨stance, records, h⟩ _ hclient
    exact ⟨_, _, h.respond hclient⟩
  · rintro p e ⟨stance, records, h⟩ hok
    exact ⟨_, _, h.env hok.1⟩

/-- Clients with keys of their own, in any run in immediate mode. -/
theorem run (rkyv : Rkyv B) (db : String → Option B) (paths : List String) (hdisjoint : Disjoint K)
    {labels : List (Step B Tid)} {ok : Clients B Tid → Step B Tid → Prop}
    (hok : ∀ p l, ok p l → FairStep .immediate (fun _ => True) p l ∧ OwnStep K l)
    (hsteps : Along (Pool.step (body rkyv)) ok (Clients.opened db .immediate paths) labels) :
    ∃ stance records, Accounted rkyv ⟨db, paths⟩ K
      ((Clients.opened db .immediate paths).run (body rkyv) labels) stance records := by
  refine Along.invariant (I := fun p => ∃ stance records, Accounted rkyv ⟨db, paths⟩ K p stance
    records) ?_ labels _ ⟨_, _, opened rkyv db paths K⟩ hsteps
  exact fun p l h hl => step h hdisjoint (hok p l hl).1 (hok p l hl).2

end Accounted

end Kallisto.Engine
