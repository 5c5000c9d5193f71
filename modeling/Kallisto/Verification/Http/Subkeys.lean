import Kallisto.Model.HttpHandler

/-! # Subkeys show keys only -/

namespace Kallisto.Http

open Json

variable {N : Type}

/-! ## The keys of a value -/

mutual

/-- The value is made of objects and nulls. -/
def OnlyKeys : Value N → Prop
  | .object members => MembersOnlyKeys members
  | .null => True
  | .bool _ => False
  | .number _ => False
  | .string _ => False
  | .array _ => False
termination_by structural v => v

def MembersOnlyKeys : List (String × Value N) → Prop
  | [] => True
  | (_, v) :: members => OnlyKeys v ∧ MembersOnlyKeys members
termination_by structural members => members

end

mutual

/-- The nested objects of a value, with null in the place of everything else. -/
def skeleton : Value N → Value N
  | .object members => .object (skeletonMembers members)
  | .null => .null
  | .bool _ => .null
  | .number _ => .null
  | .string _ => .null
  | .array _ => .null
termination_by structural v => v

def skeletonMembers : List (String × Value N) → List (String × Value N)
  | [] => []
  | (key, v) :: members => (key, skeleton v) :: skeletonMembers members
termination_by structural members => members

end

mutual

/-- The objects above a level, with null in the place of everything else. -/
def cutBelow (level : ℕ) : Value N → Value N
  | .object members => if level = 0 then .null else .object (cutMembers (level - 1) members)
  | .null => .null
  | .bool _ => .null
  | .number _ => .null
  | .string _ => .null
  | .array _ => .null
termination_by structural v => v

def cutMembers (level : ℕ) : List (String × Value N) → List (String × Value N)
  | [] => []
  | (key, v) :: members => (key, cutBelow level v) :: cutMembers level members
termination_by structural members => members

end

/-- What is shown at a depth limit; zero stands for no limit. -/
def shownKeys (depth : UInt32) (v : Value N) : Value N :=
  if depth = 0 then skeleton v else cutBelow depth.toNat v

/-! ## They depend on the nested objects alone -/

mutual

theorem onlyKeys_skeleton : ∀ v : Value N, OnlyKeys (skeleton v)
  | .object members => membersOnlyKeys_skeletonMembers members
  | .null => trivial
  | .bool _ => trivial
  | .number _ => trivial
  | .string _ => trivial
  | .array _ => trivial

theorem membersOnlyKeys_skeletonMembers : ∀ members : List (String × Value N),
    MembersOnlyKeys (skeletonMembers members)
  | [] => trivial
  | (_, v) :: members => ⟨onlyKeys_skeleton v, membersOnlyKeys_skeletonMembers members⟩

end

mutual

theorem onlyKeys_cutBelow : ∀ (v : Value N) (level : ℕ), OnlyKeys (cutBelow level v)
  | .object members, level => by
      rw [cutBelow]
      split
      · exact trivial
      · exact membersOnlyKeys_cutMembers members _
  | .null, _ => trivial
  | .bool _, _ => trivial
  | .number _, _ => trivial
  | .string _, _ => trivial
  | .array _, _ => trivial

theorem membersOnlyKeys_cutMembers : ∀ (members : List (String × Value N)) (level : ℕ),
    MembersOnlyKeys (cutMembers level members)
  | [], _ => trivial
  | (_, v) :: members, level =>
    ⟨onlyKeys_cutBelow v level, membersOnlyKeys_cutMembers members level⟩

end

mutual

theorem cutBelow_skeleton : ∀ (v : Value N) (level : ℕ),
    cutBelow level (skeleton v) = cutBelow level v
  | .object members, level => by
      rw [skeleton, cutBelow, cutBelow, cutMembers_skeletonMembers members]
  | .null, _ => rfl
  | .bool _, _ => rfl
  | .number _, _ => rfl
  | .string _, _ => rfl
  | .array _, _ => rfl

theorem cutMembers_skeletonMembers : ∀ (members : List (String × Value N)) (level : ℕ),
    cutMembers level (skeletonMembers members) = cutMembers level members
  | [], _ => rfl
  | (key, v) :: members, level => by
      rw [skeletonMembers, cutMembers, cutBelow_skeleton v, cutMembers_skeletonMembers members,
        cutMembers]

end

/-! ## `strip_to_subkeys` -/

mutual

/-- Without a limit every nested object is shown, however the depth is counted. -/
theorem stripToSubkeys_zero : ∀ (v : Value N) (depth : UInt32),
    stripToSubkeys depth 0 v = skeleton v
  | .object members, depth => by
      rw [stripToSubkeys, if_neg (by simp)]
      exact congrArg Value.object (stripMembers_zero members (depth + 1))
  | .null, _ => by simp [stripToSubkeys, skeleton]
  | .bool _, _ => by simp [stripToSubkeys, skeleton]
  | .number _, _ => by simp [stripToSubkeys, skeleton]
  | .string _, _ => by simp [stripToSubkeys, skeleton]
  | .array _, _ => by simp [stripToSubkeys, skeleton]

theorem stripMembers_zero : ∀ (members : List (String × Value N)) (depth : UInt32),
    stripMembers depth 0 members = skeletonMembers members
  | [], _ => rfl
  | (key, v) :: members, depth => by
      rw [stripMembers, skeletonMembers, stripMembers_zero members, stripToSubkeys_zero v]
      cases v <;> rfl

end

mutual

/-- The depth stays below the limit, so that counting it does not overflow. -/
theorem stripToSubkeys_limit : ∀ (v : Value N) (depth limit : UInt32), 0 < limit →
    depth ≤ limit → stripToSubkeys depth limit v = cutBelow (limit.toNat - depth.toNat) v
  | .object members, depth, limit, hlimit, hdepth => by
      rw [stripToSubkeys]
      by_cases hcut : limit ≤ depth
      · have hlevel : limit.toNat - depth.toNat = 0 :=
          Nat.sub_eq_zero_of_le (UInt32.le_iff_toNat_le.mp hcut)
        rw [if_pos ⟨hlimit, hcut⟩, hlevel, cutBelow, if_pos rfl]
      · have hlt : depth < limit := UInt32.not_le.mp hcut
        have hnext : (depth + 1).toNat = depth.toNat + 1 := by
          have := UInt32.lt_iff_toNat_lt.mp hlt
          have := limit.toNat_lt
          rw [UInt32.toNat_add]
          exact Nat.mod_eq_of_lt (by simp; omega)
        have hlevel : limit.toNat - depth.toNat = (limit.toNat - (depth + 1).toNat) + 1 := by
          have := UInt32.lt_iff_toNat_lt.mp hlt
          omega
        have hle : depth + 1 ≤ limit := by
          rw [UInt32.le_iff_toNat_le, hnext]
          exact UInt32.lt_iff_toNat_lt.mp hlt
        rw [if_neg fun h => hcut h.2, hlevel, cutBelow, if_neg (Nat.succ_ne_zero _),
          Nat.add_sub_cancel]
        exact congrArg Value.object (stripMembers_limit members (depth + 1) limit hlimit hle)
  | .null, _, _, _, _ => by simp [stripToSubkeys, cutBelow]
  | .bool _, _, _, _, _ => by simp [stripToSubkeys, cutBelow]
  | .number _, _, _, _, _ => by simp [stripToSubkeys, cutBelow]
  | .string _, _, _, _, _ => by simp [stripToSubkeys, cutBelow]
  | .array _, _, _, _, _ => by simp [stripToSubkeys, cutBelow]

theorem stripMembers_limit : ∀ (members : List (String × Value N)) (depth limit : UInt32),
    0 < limit → depth ≤ limit →
      stripMembers depth limit members = cutMembers (limit.toNat - depth.toNat) members
  | [], _, _, _, _ => rfl
  | (key, v) :: members, depth, limit, hlimit, hdepth => by
      rw [stripMembers, cutMembers, stripMembers_limit members depth limit hlimit hdepth,
        stripToSubkeys_limit v depth limit hlimit hdepth]
      cases v <;> simp [Value.isObject, cutBelow]

end

theorem stripToSubkeys_eq (depth : UInt32) (v : Value N) :
    stripToSubkeys 0 depth v = shownKeys depth v := by
  unfold shownKeys
  split
  · next hzero =>
      subst hzero
      exact stripToSubkeys_zero v 0
  · next hne =>
      have hpos : 0 < depth := UInt32.pos_iff_ne_zero.mpr hne
      exact stripToSubkeys_limit v 0 depth hpos (UInt32.zero_le)

/-- The subkeys are objects and nulls, are the same for values with the same nested
objects, and are the nested objects above the limit. -/
theorem stripToSubkeys_shows (depth : UInt32) (v : Value N) :
    OnlyKeys (stripToSubkeys 0 depth v) ∧
      (∀ w : Value N, skeleton w = skeleton v →
        stripToSubkeys 0 depth w = stripToSubkeys 0 depth v) ∧
      stripToSubkeys 0 depth v = shownKeys depth v := by
  refine ⟨?_, ?_, stripToSubkeys_eq depth v⟩
  · rw [stripToSubkeys_eq, shownKeys]
    split
    · exact onlyKeys_skeleton v
    · exact onlyKeys_cutBelow v _
  · intro w hskeleton
    rw [stripToSubkeys_eq, stripToSubkeys_eq, shownKeys, shownKeys, hskeleton,
      ← cutBelow_skeleton w, hskeleton, cutBelow_skeleton]

example : stripToSubkeys 0 1 (.object [("a", .object [("b", .number 7)]), ("c", .string "x")]) =
    (.object [("a", .null), ("c", .null)] : Value ℕ) := by
  decide

end Kallisto.Http
