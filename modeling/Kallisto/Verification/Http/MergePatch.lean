import Kallisto.Library.Json.MergePatch
import Kallisto.Model.HttpHandler

/-! # `json_merge_patch` is the merge patch of RFC 7396 -/

namespace Kallisto.Http

open Json

variable {N : Type}

/-! ## One member -/

section Member

variable {members : List (String × Value N)} {key : String} {f : Value N → Option (Value N)}

theorem containsKey_iff : containsKey key members = true ↔ members.lookup key ≠ none := by
  rw [Ne, lookup_eq_none, not_not, containsKey, List.any_eq_true, List.mem_map]
  simp only [decide_eq_true_eq]

/-- A member that is there is changed in place. -/
theorem updateMember_of_lookup {v w : Value N} (hv : members.lookup key = some v)
    (hw : f v = some w) : updateMember key f members = some (assignMember key w members) := by
  induction members with
  | nil => cases hv
  | cons m members ih =>
    obtain ⟨key', v'⟩ := m
    rw [updateMember, assignMember]
    split
    · next heq =>
        subst heq
        rw [lookup_cons_self] at hv
        cases hv
        rw [hw]
        rfl
    · next hne =>
        rw [lookup_cons_of_ne hne] at hv
        rw [ih hv]
        rfl

/-- A member that is not there is put at the end before it is changed. -/
theorem updateMember_of_absent {v w : Value N} (habsent : members.lookup key = none)
    (hw : f v = some w) :
    updateMember key f (members ++ [(key, v)]) = some (assignMember key w members) := by
  induction members with
  | nil => simp [updateMember, assignMember, hw]
  | cons m members ih =>
    obtain ⟨key', v'⟩ := m
    have hne : key' ≠ key := by
      rintro rfl
      rw [lookup_cons_self] at habsent
      cases habsent
    rw [lookup_cons_of_ne hne] at habsent
    rw [List.cons_append, updateMember, if_neg hne, ih habsent, assignMember, if_neg hne]
    rfl

/-- One round of the loop for a value other than null. -/
theorem updateMember_merge {value : Value N}
    (h : ∀ target, jsonMergePatch target value = some (mergePatch (some target) value)) :
    updateMember key (fun target => jsonMergePatch target value)
        (if containsKey key members then members else members ++ [(key, .object [])]) =
      some (assignMember key (mergePatch (members.lookup key) value) members) := by
  cases hlookup : members.lookup key with
  | none =>
    have hcontains : ¬ containsKey key members = true := by
      rw [containsKey_iff]
      exact fun hne => hne hlookup
    rw [if_neg hcontains, mergePatch_none]
    exact updateMember_of_absent hlookup (h _)
  | some v =>
    have hcontains : containsKey key members = true := by
      rw [containsKey_iff, hlookup]
      exact Option.some_ne_none v
    rw [if_pos hcontains]
    exact updateMember_of_lookup hlookup (h v)

end Member

/-! ## Values -/

mutual

theorem jsonMergePatch_eq : ∀ patch target : Value N,
    jsonMergePatch target patch = some (mergePatch (some target) patch)
  | .object patch, target => by
      have hmembers : objectMembers target = targetMembers (some target) := by
        cases target <;> rfl
      rw [jsonMergePatch, hmembers, mergeLoop_eq patch, mergePatch]
      rfl
  | .null, _ => rfl
  | .bool _, _ => rfl
  | .number _, _ => rfl
  | .string _, _ => rfl
  | .array _, _ => rfl

theorem mergeLoop_eq : ∀ patch target : List (String × Value N),
    mergeLoop target patch = some (mergeMembers target patch)
  | [], _ => rfl
  | (key, value) :: rest, target => by
      rw [mergeLoop, mergeMembers]
      split
      · exact mergeLoop_eq rest _
      · dsimp only
        rw [updateMember_merge fun target => jsonMergePatch_eq value target, Option.bind_some]
        exact mergeLoop_eq rest _

end

/-- It returns, and what it leaves in the target is the merge of the patch. -/
theorem jsonMergePatch_merges {target patch : Value N} (htarget : target.Unique)
    (hpatch : patch.Unique) :
    jsonMergePatch target patch = some (mergePatch (some target) patch) ∧
      IsMerge target patch (mergePatch (some target) patch) :=
  ⟨jsonMergePatch_eq patch target, mergePatch_isMerge htarget hpatch⟩

/-- A nested object, and a patch that removes, replaces and adds members. -/
def nestedTarget : Value ℕ :=
  .object [("a", .object [("b", .number 1), ("c", .number 2)]), ("d", .string "x")]

def nestedPatch : Value ℕ :=
  .object [("a", .object [("b", .null), ("e", .object [("f", .null)])]), ("d", .number 3)]

theorem nested_unique : nestedTarget.Unique ∧ nestedPatch.Unique := by
  constructor
  · simp [nestedTarget, Value.Unique, MembersUnique]
  · simp [nestedPatch, Value.Unique, MembersUnique]

theorem jsonMergePatch_merges_nested :
    nestedTarget.Unique ∧ nestedPatch.Unique ∧
      jsonMergePatch nestedTarget nestedPatch = some (.object [
        ("a", .object [("c", .number 2), ("e", .object [])]), ("d", .number 3)]) ∧
      IsMerge nestedTarget nestedPatch (mergePatch (some nestedTarget) nestedPatch) := by
  obtain ⟨htarget, hpatch⟩ := nested_unique
  exact ⟨htarget, hpatch, rfl, (jsonMergePatch_merges htarget hpatch).2⟩

/-- A patch that is applied again changes nothing. -/
theorem jsonMergePatch_twice {target patch : Value N} (htarget : target.Unique)
    (hpatch : patch.Unique) :
    ∃ merged, jsonMergePatch target patch = some merged ∧
      jsonMergePatch merged patch = some merged := by
  refine ⟨mergePatch (some target) patch, jsonMergePatch_eq patch target, ?_⟩
  rw [jsonMergePatch_eq, mergePatch_idempotent patch _ hpatch fun _ hv => Option.some.inj hv ▸ htarget]

theorem jsonMergePatch_twice_nested :
    nestedTarget.Unique ∧ nestedPatch.Unique ∧ ∃ merged,
      jsonMergePatch nestedTarget nestedPatch = some merged ∧
        jsonMergePatch merged nestedPatch = some merged := by
  obtain ⟨htarget, hpatch⟩ := nested_unique
  exact ⟨htarget, hpatch, jsonMergePatch_twice htarget hpatch⟩

end Kallisto.Http
