import Kallisto.Model.Server
import Kallisto.Verification.Engine.Alone

/-! # Handlers run against the engine -/

namespace Kallisto.Http

open Program Engine

variable {B : Type}

/-! ## Calls of the engine -/

/-- The result of a call among those of the engine. -/
def out : (c : Call) → CallResult c → Out
  | .readMetadata _, m => .metadata m
  | .readVersion _ _, x => .version x.1 x.2
  | .putVersion _ _ _, _ => .unit
  | .softDelete _ _, _ => .unit
  | .undelete _ _, _ => .unit
  | .destroyVersion _ _, _ => .unit

theorem body_eq_operation (rkyv : Rkyv B) (c : Call) :
    body rkyv c = operation rkyv c >>= fun x => .done (.ok (out c x)) := by
  cases c <;> rfl

/-- A call of the server is a request of the engine. -/
theorem request_eq_exec (rkyv : Rkyv B) (s : KvEngine B) (c : Call) (choices : List Choice) :
    request rkyv s c choices =
      (((server rkyv).exec s c choices).1.map (out c), ((server rkyv).exec s c choices).2) := by
  change request rkyv s c choices =
    (((system B).fed (inTurn (.at 1)) (operation rkyv c) s choices).1.map (out c),
      ((system B).fed (inTurn (.at 1)) (operation rkyv c) s choices).2)
  rw [request, body_eq_operation, System.fed_bind]
  cases ((system B).fed (inTurn (.at 1)) (operation rkyv c) s choices).1 <;> rfl

theorem exec_eq_error (rkyv : Rkyv B) (s : KvEngine B) {c : Call} {choices : List Choice}
    {e : EngineError} (h : (request rkyv s c choices).1 = .error e) :
    (server rkyv).exec s c choices = (.error e, (request rkyv s c choices).2) := by
  rw [request_eq_exec] at h ⊢
  refine Prod.ext ?_ rfl
  cases hexec : ((server rkyv).exec s c choices).1 with
  | ok x =>
    rw [hexec] at h
    cases h
  | error e' =>
    rw [hexec] at h
    exact congrArg Except.error (Except.error.inj h)

theorem exec_eq_ok (rkyv : Rkyv B) (s : KvEngine B) {c : Call} {choices : List Choice} {o : Out}
    (h : (request rkyv s c choices).1 = .ok o) :
    ∃ x, out c x = o ∧ (server rkyv).exec s c choices = (.ok x, (request rkyv s c choices).2) := by
  rw [request_eq_exec] at h ⊢
  cases hexec : ((server rkyv).exec s c choices).1 with
  | error e =>
    rw [hexec] at h
    cases h
  | ok x =>
    rw [hexec] at h
    exact ⟨x, Except.ok.inj h, Prod.ext hexec rfl⟩

/-- A handler that asks the engine first. -/
theorem handle_ask {α : Type} (rkyv : Rkyv B) (s : KvEngine B) (c : Call)
    (f : CallResult c → HttpM α) (choices : List (List Choice)) :
    handle rkyv s (ask c >>= f) choices =
      match (server rkyv).exec s c (choices.headD []) with
      | (.ok x, s') => handle rkyv s' (f x) choices.tail
      | (.error e, s') => (.error (.error (.engine e)), s') := by
  have hdraw : inTurn [] c choices = (choices.headD [], choices.tail) := by cases choices <;> rfl
  rcases hexec : (server rkyv).exec s c (choices.headD []) with ⟨r, s'⟩
  refine (System.fed_call hdraw hexec).trans ?_
  cases r <;> rfl

/-- The path of a registered mount, or an error at once. -/
theorem resolve_cases (mounted : String → Bool) (uri : Uri) (action : String) :
    resolve mounted uri action = fail .mountNotFound ∨
      ∃ mount path, extractMountAndPath uri.path action = some (mount, path) ∧
        resolve mounted uri action = .done (.ok path) := by
  unfold resolve
  split
  · next mount path hpath =>
      split
      · exact Or.inr ⟨mount, path, hpath, rfl⟩
      · exact Or.inl rfl
  · exact Or.inl rfl

theorem resolve_of_mounted {mounted : String → Bool} {uri : Uri} {action mount path : String}
    (hpath : extractMountAndPath uri.path action = some (mount, path))
    (hmount : mounted mount = true) : resolve mounted uri action = .done (.ok path) := by
  unfold resolve
  rw [hpath]
  exact if_pos hmount

/-- A request for a path of a registered mount, or one that is answered at once. -/
theorem handle_resolve {α : Type} (rkyv : Rkyv B) (s : KvEngine B) (mounted : String → Bool)
    (uri : Uri) (action : String) (f : String → HttpM α) (choices : List (List Choice)) :
    handle rkyv s (resolve mounted uri action >>= f) choices =
        (.error (.error .mountNotFound), s) ∨
      ∃ mount path, extractMountAndPath uri.path action = some (mount, path) ∧
        handle rkyv s (resolve mounted uri action >>= f) choices = handle rkyv s (f path) choices := by
  rcases resolve_cases mounted uri action with hfail | ⟨mount, path, hpath, hok⟩
  · rw [hfail]
    exact Or.inl rfl
  · rw [hok]
    exact Or.inr ⟨mount, path, hpath, rfl⟩

/-- A call without an accepted write ends the request. -/
theorem handle_ask_unwritten {α : Type} (rkyv : Rkyv B) (s : KvEngine B) {c : Call}
    (hc : c.mutates ≠ none) (f : CallResult c → HttpM α) {choices : List (List Choice)}
    (h : acceptedWrites rkyv s c (choices.headD []) = []) :
    ∃ e s', s.Fills s' ∧
      handle rkyv s (ask c >>= f) choices = (.error (.error (.engine e)), s') := by
  obtain ⟨⟨e, herror⟩, hfills⟩ := request_unwritten rkyv s c _ hc h
  refine ⟨e, _, hfills, ?_⟩
  rw [handle_ask, exec_eq_error rkyv s herror]

/-- A handler that reads first goes on from a state where reads find the same, or ends. -/
theorem handle_ask_read {α : Type} (rkyv : Rkyv B) (s : KvEngine B) {c : Call}
    (hc : c.mutates = none) (f : CallResult c → HttpM α) (choices : List (List Choice)) :
    ∃ s', s.Fills s' ∧
      ((∃ e, handle rkyv s (ask c >>= f) choices = (.error (.error (.engine e)), s')) ∨
        ∃ x, handle rkyv s (ask c >>= f) choices = handle rkyv s' (f x) choices.tail) := by
  have hfills := request_fills rkyv s (choices.headD []) hc
  rw [request_eq_exec] at hfills
  refine ⟨_, hfills, ?_⟩
  rw [handle_ask]
  rcases (server rkyv).exec s c (choices.headD []) with ⟨e | x, s'⟩
  · exact Or.inl ⟨e, rfl⟩
  · exact Or.inr ⟨x, rfl⟩

end Kallisto.Http
