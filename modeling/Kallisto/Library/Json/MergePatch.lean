import Kallisto.Library.Json.Value
import Mathlib.Data.List.Nodup

/-! # Merge patches of objects with unique names -/

namespace Json

variable {N : Type}

/-! ## Unique names -/

mutual

/-- No object of the value has two members of one name. -/
def Value.Unique : Value N → Prop
  | .array items => ItemsUnique items
  | .object members => (members.map Prod.fst).Nodup ∧ MembersUnique members
  | .null => True
  | .bool _ => True
  | .number _ => True
  | .string _ => True
termination_by structural v => v

def ItemsUnique : List (Value N) → Prop
  | [] => True
  | v :: vs => v.Unique ∧ ItemsUnique vs
termination_by structural vs => vs

def MembersUnique : List (String × Value N) → Prop
  | [] => True
  | (_, v) :: members => v.Unique ∧ MembersUnique members
termination_by structural members => members

end

section Members

variable {members : List (String × Value N)} {name name' : String} {v : Value N}

theorem lookup_cons_self (name : String) (v : Value N) (members : List (String × Value N)) :
    ((name, v) :: members).lookup name = some v := by
  simp

theorem lookup_cons_of_ne (h : name' ≠ name) (v : Value N) (members : List (String × Value N)) :
    ((name', v) :: members).lookup name = members.lookup name := by
  rw [List.lookup_cons, beq_eq_false_iff_ne.mpr h.symm]

theorem lookup_eq_none : members.lookup name = none ↔ name ∉ members.map Prod.fst := by
  induction members with
  | nil => simp
  | cons m members ih =>
    obtain ⟨name', v⟩ := m
    by_cases h : name' = name
    · subst h
      simp
    · rw [lookup_cons_of_ne h, ih]
      simp [Ne.symm h]

theorem lookup_eq_some_of_mem (hunique : (members.map Prod.fst).Nodup) (h : (name, v) ∈ members) :
    members.lookup name = some v := by
  induction members with
  | nil => cases h
  | cons m members ih =>
    obtain ⟨name', v'⟩ := m
    rw [List.map_cons, List.nodup_cons] at hunique
    rcases List.mem_cons.mp h with heq | h
    · cases heq
      exact lookup_cons_self ..
    · have hne : name' ≠ name := by
        rintro rfl
        exact hunique.1 (List.mem_map.mpr ⟨_, h, rfl⟩)
      rw [lookup_cons_of_ne hne]
      exact ih hunique.2 h

theorem mem_of_lookup_eq_some (h : members.lookup name = some v) : (name, v) ∈ members := by
  induction members with
  | nil => cases h
  | cons m members ih =>
    obtain ⟨name', v'⟩ := m
    by_cases heq : name' = name
    · subst heq
      rw [lookup_cons_self] at h
      cases h
      exact List.mem_cons_self
    · rw [lookup_cons_of_ne heq] at h
      exact List.mem_cons_of_mem _ (ih h)

theorem MembersUnique.of_mem (h : MembersUnique members) (hm : (name, v) ∈ members) :
    v.Unique := by
  induction members with
  | nil => cases hm
  | cons m members ih =>
    obtain ⟨name', v'⟩ := m
    rcases List.mem_cons.mp hm with heq | hm
    · cases heq
      exact h.1
    · exact ih h.2 hm

end Members

/-! ## Erasing a member -/

section Erase

variable {members : List (String × Value N)} {name : String}

theorem eraseMember_of_lookup_eq_none (h : members.lookup name = none) :
    eraseMember name members = members := by
  induction members with
  | nil => rfl
  | cons m members ih =>
    obtain ⟨name', v⟩ := m
    have hne : name' ≠ name := by
      rintro rfl
      rw [lookup_cons_self] at h
      cases h
    rw [lookup_cons_of_ne hne] at h
    rw [eraseMember, if_neg hne, ih h]

theorem eraseMember_sublist (name : String) (members : List (String × Value N)) :
    (eraseMember name members).Sublist members := by
  induction members with
  | nil => exact .slnil
  | cons m members ih =>
    obtain ⟨name', v⟩ := m
    rw [eraseMember]
    split
    · exact List.sublist_cons_self ..
    · exact ih.cons_cons _

theorem lookup_eraseMember_self (hunique : (members.map Prod.fst).Nodup) :
    (eraseMember name members).lookup name = none := by
  induction members with
  | nil => rfl
  | cons m members ih =>
    obtain ⟨name', v⟩ := m
    rw [List.map_cons, List.nodup_cons] at hunique
    rw [eraseMember]
    split
    · next heq =>
        subst heq
        exact lookup_eq_none.mpr hunique.1
    · next hne => rw [lookup_cons_of_ne hne, ih hunique.2]

theorem lookup_eraseMember_of_ne {name' : String} (h : name' ≠ name) :
    (eraseMember name members).lookup name' = members.lookup name' := by
  induction members with
  | nil => rfl
  | cons m members ih =>
    obtain ⟨name'', v⟩ := m
    rw [eraseMember]
    split
    · next heq =>
        subst heq
        rw [lookup_cons_of_ne h.symm]
    · by_cases heq : name'' = name'
      · subst heq
        rw [lookup_cons_self, lookup_cons_self]
      · rw [lookup_cons_of_ne heq, lookup_cons_of_ne heq, ih]

end Erase

/-! ## Assigning a member -/

section Assign

variable {members : List (String × Value N)} {name : String} {v : Value N}

theorem assignMember_of_lookup_eq_some (h : members.lookup name = some v) :
    assignMember name v members = members := by
  induction members with
  | nil => cases h
  | cons m members ih =>
    obtain ⟨name', v'⟩ := m
    rw [assignMember]
    split
    · next heq =>
        subst heq
        rw [lookup_cons_self] at h
        cases h
        rfl
    · next hne =>
        rw [lookup_cons_of_ne hne] at h
        rw [ih h]

theorem lookup_assignMember_self (name : String) (v : Value N) (members : List (String × Value N)) :
    (assignMember name v members).lookup name = some v := by
  induction members with
  | nil => exact lookup_cons_self ..
  | cons m members ih =>
    obtain ⟨name', v'⟩ := m
    rw [assignMember]
    split
    · next heq =>
        subst heq
        exact lookup_cons_self ..
    · next hne => rw [lookup_cons_of_ne hne, ih]

theorem lookup_assignMember_of_ne {name' : String} (h : name' ≠ name) :
    (assignMember name v members).lookup name' = members.lookup name' := by
  induction members with
  | nil => exact lookup_cons_of_ne h.symm ..
  | cons m members ih =>
    obtain ⟨name'', v'⟩ := m
    rw [assignMember]
    split
    · next heq =>
        subst heq
        rw [lookup_cons_of_ne h.symm, lookup_cons_of_ne h.symm]
    · by_cases heq : name'' = name'
      · subst heq
        rw [lookup_cons_self, lookup_cons_self]
      · rw [lookup_cons_of_ne heq, lookup_cons_of_ne heq, ih]

end Assign

/-! ## Names stay unique -/

section Unique

variable {members : List (String × Value N)} {name : String} {v : Value N}

theorem MembersUnique.eraseMember (h : MembersUnique members) (name : String) :
    MembersUnique (eraseMember name members) := by
  induction members with
  | nil => exact h
  | cons m members ih =>
    obtain ⟨name', v⟩ := m
    rw [Json.eraseMember]
    split
    · exact h.2
    · exact ⟨h.1, ih h.2⟩

theorem MembersUnique.assignMember (h : MembersUnique members) (hv : v.Unique) (name : String) :
    MembersUnique (assignMember name v members) := by
  induction members with
  | nil => exact ⟨hv, trivial⟩
  | cons m members ih =>
    obtain ⟨name', v'⟩ := m
    rw [Json.assignMember]
    split
    · exact ⟨hv, h.2⟩
    · exact ⟨h.1, ih h.2⟩

theorem mem_names_assignMember {name' : String}
    (h : name' ∈ (assignMember name v members).map Prod.fst) :
    name' = name ∨ name' ∈ members.map Prod.fst := by
  by_contra hne
  rw [not_or] at hne
  have hnone := lookup_eq_none.mpr hne.2
  rw [← lookup_assignMember_of_ne (v := v) hne.1] at hnone
  exact lookup_eq_none.mp hnone h

theorem nodup_names_assignMember (h : (members.map Prod.fst).Nodup) :
    ((assignMember name v members).map Prod.fst).Nodup := by
  induction members with
  | nil => exact List.nodup_singleton name
  | cons m members ih =>
    obtain ⟨name', v'⟩ := m
    rw [List.map_cons, List.nodup_cons] at h
    rw [assignMember]
    split
    · exact List.nodup_cons.mpr h
    · next hne =>
        refine List.nodup_cons.mpr ⟨fun hmem => ?_, ih h.2⟩
        rcases mem_names_assignMember hmem with heq | hmem
        · exact hne heq
        · exact h.1 hmem

/-- The members of an object with unique names at every depth. -/
def WellNamed (members : List (String × Value N)) : Prop :=
  (members.map Prod.fst).Nodup ∧ MembersUnique members

theorem WellNamed.eraseMember (h : WellNamed members) (name : String) :
    WellNamed (eraseMember name members) :=
  ⟨h.1.sublist ((eraseMember_sublist name members).map _), h.2.eraseMember name⟩

theorem WellNamed.assignMember (h : WellNamed members) (hv : v.Unique) (name : String) :
    WellNamed (assignMember name v members) :=
  ⟨nodup_names_assignMember h.1, h.2.assignMember hv name⟩

theorem WellNamed.lookup (h : WellNamed members) {name : String} :
    ∀ v ∈ members.lookup name, v.Unique :=
  fun _ hv => h.2.of_mem (mem_of_lookup_eq_some hv)

theorem WellNamed.tail {m : String × Value N} (h : WellNamed (m :: members)) :
    WellNamed members :=
  ⟨(List.nodup_cons.mp h.1).2, h.2.2⟩

theorem wellNamed_targetMembers {target : Option (Value N)} (h : ∀ v ∈ target, v.Unique) :
    WellNamed (targetMembers target) := by
  unfold targetMembers
  split
  · exact h _ rfl
  · exact ⟨List.nodup_nil, trivial⟩

mutual

theorem unique_mergePatch : ∀ (patch : Value N) (target : Option (Value N)),
    patch.Unique → (∀ v ∈ target, v.Unique) → (mergePatch target patch).Unique
  | .object patch, target, hpatch, htarget => by
      rw [mergePatch]
      exact wellNamed_mergeMembers patch _ hpatch (wellNamed_targetMembers htarget)
  | .array items, _, hpatch, _ => hpatch
  | .null, _, _, _ => trivial
  | .bool _, _, _, _ => trivial
  | .number _, _, _, _ => trivial
  | .string _, _, _, _ => trivial

theorem wellNamed_mergeMembers : ∀ (patch target : List (String × Value N)),
    WellNamed patch → WellNamed target → WellNamed (mergeMembers target patch)
  | [], _, _, htarget => htarget
  | (name, value) :: rest, target, hpatch, htarget => by
      rw [mergeMembers]
      split
      · exact wellNamed_mergeMembers rest _ hpatch.tail (htarget.eraseMember name)
      · exact wellNamed_mergeMembers rest _ hpatch.tail (htarget.assignMember
          (unique_mergePatch value _ hpatch.2.1 htarget.lookup) name)

end

end Unique

/-! ## Merging member by member -/

/-- What a merge leaves under a name. -/
def mergedMember (target : Option (Value N)) : Option (Value N) → Option (Value N)
  | none => target
  | some value => if value.isNull then none else some (mergePatch target value)

theorem lookup_mergeMembers {name : String} : ∀ (patch target : List (String × Value N)),
    (patch.map Prod.fst).Nodup → (target.map Prod.fst).Nodup →
      (mergeMembers target patch).lookup name =
        mergedMember (target.lookup name) (patch.lookup name) := by
  intro patch
  induction patch with
  | nil => exact fun _ _ _ => rfl
  | cons m patch ih =>
    intro target hpatch htarget
    obtain ⟨name', value⟩ := m
    rw [List.map_cons, List.nodup_cons] at hpatch
    have hrest : name = name' → patch.lookup name = none := by
      rintro rfl
      exact lookup_eq_none.mpr hpatch.1
    rw [mergeMembers]
    by_cases hname : name = name'
    · rw [hname, lookup_cons_self, ← hname, mergedMember]
      split
      · rw [ih _ hpatch.2 (htarget.sublist ((eraseMember_sublist _ _).map _)), hrest hname, hname,
          lookup_eraseMember_self htarget]
        rfl
      · rw [ih _ hpatch.2 (nodup_names_assignMember htarget), hrest hname, hname,
          lookup_assignMember_self]
        rfl
    · rw [lookup_cons_of_ne (Ne.symm hname)]
      split
      · rw [ih _ hpatch.2 (htarget.sublist ((eraseMember_sublist _ _).map _)),
          lookup_eraseMember_of_ne hname]
      · rw [ih _ hpatch.2 (nodup_names_assignMember htarget), lookup_assignMember_of_ne hname]

/-- The merge of a patch into a target, described member by member. -/
structure IsMerge (target patch merged : Value N) : Prop where
  unique : merged.Unique
  other : patch.isObject = false → merged = patch
  object : ∀ members, patch = .object members → ∃ merged', merged = .object merged' ∧
    ∀ name, merged'.lookup name =
      mergedMember ((targetMembers (some target)).lookup name) (members.lookup name)

theorem mergePatch_isMerge {target patch : Value N} (htarget : target.Unique)
    (hpatch : patch.Unique) : IsMerge target patch (mergePatch (some target) patch) where
  unique := unique_mergePatch patch _ hpatch fun _ hv => Option.some.inj hv ▸ htarget
  other h := by
    cases patch with
    | object members => cases h
    | _ => rfl
  object members h := by
    subst h
    have hnamed : WellNamed (targetMembers (some target)) :=
      wellNamed_targetMembers fun _ hv => Option.some.inj hv ▸ htarget
    exact ⟨_, rfl, fun name => lookup_mergeMembers members _ hpatch.1 hnamed.1⟩

/-! ## Merging twice -/

/-- A patch whose members are merged already changes nothing. -/
theorem mergeMembers_of_fixed {target : List (String × Value N)} :
    ∀ patch : List (String × Value N),
      (∀ m ∈ patch, mergedMember (target.lookup m.1) (some m.2) = target.lookup m.1) →
        mergeMembers target patch = target := by
  intro patch
  induction patch with
  | nil => exact fun _ => rfl
  | cons m patch ih =>
    intro h
    obtain ⟨name, value⟩ := m
    obtain ⟨hm, hrest⟩ := List.forall_mem_cons.mp h
    rw [mergedMember] at hm
    rw [mergeMembers]
    split
    · next hnull =>
        rw [if_pos hnull] at hm
        rw [eraseMember_of_lookup_eq_none hm.symm, ih hrest]
    · next hnull =>
        rw [if_neg hnull] at hm
        rw [assignMember_of_lookup_eq_some hm.symm, ih hrest]

mutual

theorem mergePatch_idempotent : ∀ (patch : Value N) (target : Option (Value N)),
    patch.Unique → (∀ v ∈ target, v.Unique) →
      mergePatch (some (mergePatch target patch)) patch = mergePatch target patch
  | .object patch, target, hpatch, htarget => by
      rw [mergePatch, mergePatch, targetMembers]
      refine congrArg Value.object (mergeMembers_of_fixed patch fun m hm => ?_)
      have hnamed := wellNamed_targetMembers htarget
      rw [lookup_mergeMembers patch _ hpatch.1 hnamed.1,
        lookup_eq_some_of_mem hpatch.1 hm]
      exact mergedMember_idempotent patch hpatch.2 m hm _ hnamed.lookup
  | .null, _, _, _ => rfl
  | .bool _, _, _, _ => rfl
  | .number _, _, _, _ => rfl
  | .string _, _, _, _ => rfl
  | .array _, _, _, _ => rfl

theorem mergedMember_idempotent : ∀ patch : List (String × Value N), MembersUnique patch →
    ∀ m ∈ patch, ∀ target : Option (Value N), (∀ v ∈ target, v.Unique) →
      mergedMember (mergedMember target (some m.2)) (some m.2) = mergedMember target (some m.2)
  | (name, value) :: rest, hpatch, m, hm, target, htarget => by
      rcases List.mem_cons.mp hm with rfl | hm
      · simp only [mergedMember]
        split
        · rfl
        · rw [mergePatch_idempotent value target hpatch.1 htarget]
      · exact mergedMember_idempotent rest hpatch.2 m hm target htarget

end

end Json
