import Kallisto.Model.EngineRegistry

/-! # Mounting engines

Mounts that overlap each other, and requests that run without the lock, are as if each
mount were one step. -/

namespace Kallisto.Registry

open Program Interleaving CopyOnWrite

variable {E Tid : Type}

/-! ## The map of engines -/

namespace Engines

end Engines

/-! ## The registry as a value replaced under a lock -/

def interface (E : Type) : Interface (Engines E) (String × E) Query E (Answer E) where
  apply entry engines := engines.insert entry.1 entry.2
  updated := .unit
  actions
    | .flushAll, engines => engines.values
    | _, _ => []
  answer
    | .resolve pfx, engines => .engine (engines.get pfx)
    | .mountedPrefixes, engines => .prefixes engines.keys
    | .flushAll, _ => .unit

theorem forM_forceFlush (engines : List E) (out : Answer E) :
    (do engines.forM forceFlush; return out : RegistryM E (Answer E)) = acting engines out := by
  induction engines with
  | nil => rfl
  | cons engine engines ih =>
    rw [acting, ← ih]
    rfl

theorem serve_eq : serve = body (interface E) := by
  funext r
  rcases r with ⟨pfx, engine⟩ | ⟨pfx | _ | _⟩
  · rfl
  · rfl
  · rfl
  · exact Prog.call_congr fun engines => forM_forceFlush engines.values .unit

/-! ## Main results -/

/-- Every run of the registry is one in which each mount is a single step: the same requests,
answers and flushes in the same order, and the same engines in the end. -/
theorem run_linearizable [DecidableEq Tid] (engines : Engines E)
    (labels : List (Label (words (Engines E) E) (Request (String × E) Query) Tid))
    (hschedule : Schedule serve engines labels) :
    ∃ labels' : List (Label (atomic (interface E)) (Request (String × E) Query) Tid),
      let fine := (initial engines).run serve labels
      let coarse := (Pool.init engines).run (body₁ (interface E)) labels'
      coarse.log.filterMap shown₁ = fine.log.filterMap shown ∧
        coarse.shared = fine.shared.value := by
  rw [serve_eq] at hschedule ⊢
  obtain ⟨labels', hmatches⟩ := (matches_init (interface E) engines).run hschedule
  exact ⟨labels', hmatches.shown.symm, hmatches.value⟩

/-- A mount, with a request under way that does not see it and a flush afterwards. -/
def overlapping : List (Label (words (Engines ℕ) ℕ) (Request (String × ℕ) Query) Bool) :=
  [.invoke true (.update ("secret", 7)), .act true (), .invoke false (.query (.resolve "secret")),
    .act true (), .act false (), .act true (), .respond false, .act true (), .respond true,
    .invoke false (.query .flushAll), .act false (), .act false (), .respond false]

theorem overlapping_schedule : Schedule serve Engines.empty overlapping :=
  ⟨trivial, fun _ => rfl, trivial, nofun, nofun, nofun, trivial, nofun, trivial, trivial, nofun,
    nofun, trivial, trivial⟩

theorem run_linearizable_overlapping :
    ∃ labels' : List (Label (atomic (interface ℕ)) (Request (String × ℕ) Query) Bool),
      let fine := (initial Engines.empty).run serve overlapping
      let coarse := (Pool.init Engines.empty).run (body₁ (interface ℕ)) labels'
      coarse.log.filterMap shown₁ = fine.log.filterMap shown ∧ coarse.shared = fine.shared.value :=
  run_linearizable Engines.empty overlapping overlapping_schedule

end Kallisto.Registry
