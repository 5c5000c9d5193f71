import Mathlib.Logic.Basic

/-! # JSON values and merge patches

The numbers are of an arbitrary type. An object is the list of its members; a name
stands for the first member that has it. -/

namespace Json

inductive Value (N : Type) where
  | null
  | bool (b : Bool)
  | number (n : N)
  | string (s : String)
  | array (items : List (Value N))
  | object (members : List (String × Value N))

variable {N : Type}

/-! ## Decidable equality -/

mutual

def Value.decEq [DecidableEq N] : (v w : Value N) → Decidable (v = w)
  | .null, w => match w with
    | .null => .isTrue rfl
    | .bool _ | .number _ | .string _ | .array _ | .object _ => .isFalse nofun
  | .bool b, w => match w with
    | .bool b' => decidable_of_iff (b = b') (by simp)
    | .null | .number _ | .string _ | .array _ | .object _ => .isFalse nofun
  | .number n, w => match w with
    | .number n' => decidable_of_iff (n = n') (by simp)
    | .null | .bool _ | .string _ | .array _ | .object _ => .isFalse nofun
  | .string s, w => match w with
    | .string s' => decidable_of_iff (s = s') (by simp)
    | .null | .bool _ | .number _ | .array _ | .object _ => .isFalse nofun
  | .array vs, w => match w with
    | .array ws =>
      have := Value.decEqItems vs ws
      decidable_of_iff (vs = ws) (by simp)
    | .null | .bool _ | .number _ | .string _ | .object _ => .isFalse nofun
  | .object vs, w => match w with
    | .object ws =>
      have := Value.decEqMembers vs ws
      decidable_of_iff (vs = ws) (by simp)
    | .null | .bool _ | .number _ | .string _ | .array _ => .isFalse nofun

def Value.decEqItems [DecidableEq N] : (vs ws : List (Value N)) → Decidable (vs = ws)
  | [], [] => .isTrue rfl
  | [], _ :: _ => .isFalse nofun
  | _ :: _, [] => .isFalse nofun
  | v :: vs, w :: ws =>
    have := Value.decEq v w
    have := Value.decEqItems vs ws
    decidable_of_iff (v = w ∧ vs = ws) (by simp)

def Value.decEqMembers [DecidableEq N] :
    (vs ws : List (String × Value N)) → Decidable (vs = ws)
  | [], [] => .isTrue rfl
  | [], _ :: _ => .isFalse nofun
  | _ :: _, [] => .isFalse nofun
  | (k, v) :: vs, (k', w) :: ws =>
    have := Value.decEq v w
    have := Value.decEqMembers vs ws
    decidable_of_iff (k = k' ∧ v = w ∧ vs = ws) (by simp [and_assoc])

end

instance [DecidableEq N] : DecidableEq (Value N) :=
  Value.decEq

/-! ## Members -/

def Value.isNull : Value N → Bool
  | .null => true
  | _ => false

def Value.isObject : Value N → Bool
  | .object _ => true
  | _ => false

def Value.asArray : Value N → Option (List (Value N))
  | .array items => some items
  | _ => none

/-- The value a path of names leads to. -/
def Value.pointer : Value N → List String → Option (Value N)
  | v, [] => some v
  | .object members, name :: names => (members.lookup name).bind fun v => v.pointer names
  | _, _ :: _ => none

/-- The object without the first member of a name. -/
def eraseMember (name : String) : List (String × Value N) → List (String × Value N)
  | [] => []
  | (name', v) :: members =>
    if name' = name then members else (name', v) :: eraseMember name members

/-- The first member of a name gets a value; a new name is put at the end. -/
def assignMember (name : String) (v : Value N) : List (String × Value N) → List (String × Value N)
  | [] => [(name, v)]
  | (name', v') :: members =>
    if name' = name then (name', v) :: members else (name', v') :: assignMember name v members

/-! ## Merge patches

`MergePatch` of RFC 7396. The target is missing where a name has no value yet. -/

/-- The members of the target, none when it is not an object. -/
def targetMembers : Option (Value N) → List (String × Value N)
  | some (.object members) => members
  | _ => []

mutual

def mergePatch (target : Option (Value N)) : Value N → Value N
  | .object patch => .object (mergeMembers (targetMembers target) patch)
  | .null => .null
  | .bool b => .bool b
  | .number n => .number n
  | .string s => .string s
  | .array items => .array items
termination_by structural patch => patch

def mergeMembers (target : List (String × Value N)) :
    List (String × Value N) → List (String × Value N)
  | [] => target
  | (name, value) :: rest =>
    if value.isNull then mergeMembers (eraseMember name target) rest
    else
      mergeMembers (assignMember name (mergePatch (target.lookup name) value) target) rest
termination_by structural patch => patch

end

/-- A missing target counts as an empty object. -/
theorem mergePatch_none (patch : Value N) :
    mergePatch none patch = mergePatch (some (.object [])) patch := by
  cases patch <;> simp [mergePatch, targetMembers]

end Json
