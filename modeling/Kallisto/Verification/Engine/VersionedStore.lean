import Kallisto.Verification.Engine.Effects

/-! # The versioned store

What the engine is for: every path has a list of versions, numbered from one, and a
request answers from that list alone. -/

namespace Kallisto.Engine

variable {n : ℕ} {m : KeyMetadata}

/-! ## Abstract store -/

structure Version where
  payload : SecretPayload
  deleted : Bool
  destroyed : Bool
  deriving DecidableEq, Repr

/-- A path without versions is unknown. -/
abbrev Store : Type :=
  String → List Version

/-- What a request shows of a version beside its payload, the times left out. -/
structure VersionInfo where
  number : ℕ
  deleted : Bool
  destroyed : Bool
  deriving DecidableEq, Repr

inductive Reply where
  | unit
  | metadata (current : ℕ) (versions : List VersionInfo)
  | version (payload : SecretPayload) (info : VersionInfo)
  deriving DecidableEq, Repr

def Version.info (number : ℕ) (v : Version) : VersionInfo :=
  ⟨number, v.deleted, v.destroyed⟩

/-- The versions with their numbers, counted from `n`. -/
def infos (n : ℕ) : List Version → List VersionInfo
  | [] => []
  | v :: vs => v.info n :: infos (n + 1) vs

/-- The version with a number. -/
def nth (vs : List Version) (n : ℕ) : Option Version :=
  if n = 0 then none else vs[n - 1]?

namespace Store

def put (a : Store) (path : String) (x : SecretPayload) (cas : Option UInt32) :
    Except EngineError Reply × Store :=
  let appended := (.ok .unit, Function.update a path (a path ++ [⟨x, false, false⟩]))
  match cas with
  | none => appended
  | some c =>
    if c.toNat ≠ (a path).length then (.error (.casMismatch c (.ofNat (a path).length)), a)
    else appended

def readVersion (a : Store) (path : String) (version : UInt32) : Except EngineError Reply :=
  let target := if version = 0 then (a path).length else version.toNat
  if a path = [] then .error .notFound
  else
    match nth (a path) target with
    | none => .error (.invalidVersion version)
    | some v =>
      if v.destroyed then .error .destroyed
      else if v.deleted then .error .softDeleted
      else .ok (.version v.payload (v.info target))

def readMetadata (a : Store) (path : String) : Except EngineError Reply :=
  if a path = [] then .error .notFound
  else .ok (.metadata (a path).length (infos 1 (a path)))

/-- Change one version of a path. -/
def mutate (a : Store) (path : String) (version : UInt32)
    (g : Version → Except EngineError Version) : Except EngineError Reply × Store :=
  if a path = [] then (.error .notFound, a)
  else
    match nth (a path) version.toNat with
    | none => (.error (.invalidVersion version), a)
    | some v =>
      match g v with
      | .error e => (.error e, a)
      | .ok v' => (.ok .unit, Function.update a path ((a path).set (version.toNat - 1) v'))

/-- A deletion marks the version with a time, which counts when it is positive. -/
def delete (ticked : Bool) (v : Version) : Except EngineError Version :=
  .ok { v with deleted := ticked }

def restore (v : Version) : Except EngineError Version :=
  if v.destroyed then .error .destroyed else .ok { v with deleted := false }

def destroy (v : Version) : Except EngineError Version :=
  .ok { v with destroyed := true }

/-- The answer to a request and the store after it, the clock being positive or not. -/
def performAt (a : Store) (ticked : Bool) : Call → Except EngineError Reply × Store
  | .readMetadata path => (a.readMetadata path, a)
  | .readVersion path version => (a.readVersion path version, a)
  | .putVersion path x cas => a.put path x cas
  | .softDelete path version => a.mutate path version (delete ticked)
  | .undelete path version => a.mutate path version restore
  | .destroyVersion path version => a.mutate path version destroy

/-- The same under a positive clock. -/
def perform (a : Store) (c : Call) : Except EngineError Reply × Store :=
  a.performAt true c

end Store

/-! ## What a request does to the store -/

/-- How many versions of a path a request can add. -/
def Call.puts (path : String) : Call → ℕ
  | .putVersion path' _ _ => if path' = path then 1 else 0
  | _ => 0

namespace Store

variable (a : Store)

theorem put_cases (path : String) (x : SecretPayload) (cas : Option UInt32) :
    (∃ e, a.put path x cas = (.error e, a)) ∨
      a.put path x cas = (.ok .unit, Function.update a path (a path ++ [⟨x, false, false⟩])) := by
  cases cas with
  | none => exact Or.inr rfl
  | some c =>
    by_cases h : c.toNat = (a path).length
    · exact Or.inr (by simp [put, h])
    · exact Or.inl ⟨_, by simp only [put, ne_eq, h, not_false_eq_true, if_true]; rfl⟩

theorem mutate_cases (path : String) (version : UInt32)
    (g : Version → Except EngineError Version) :
    (∃ e, a.mutate path version g = (.error e, a)) ∨
      ∃ v v', nth (a path) version.toNat = some v ∧ g v = .ok v' ∧
        a.mutate path version g =
          (.ok .unit, Function.update a path ((a path).set (version.toNat - 1) v')) := by
  by_cases hpath : a path = []
  · exact Or.inl ⟨.notFound, by simp [mutate, hpath]⟩
  · cases hv : nth (a path) version.toNat with
    | none => exact Or.inl ⟨.invalidVersion version, by simp [mutate, hpath, hv]⟩
    | some v =>
      cases hg : g v with
      | error e => exact Or.inl ⟨e, by simp [mutate, hpath, hv, hg]⟩
      | ok v' => exact Or.inr ⟨v, v', rfl, hg, by simp [mutate, hpath, hv, hg]⟩

/-- A request changes nothing, or it appends or changes one version of the path it
mutates and is acknowledged. -/
inductive Performs (c : Call) : Except EngineError Reply × Store → Prop where
  | keeps (r : Except EngineError Reply) : Performs c (r, a)
  | appends (path : String) (x : SecretPayload) (cas : Option UInt32)
      (hc : c = .putVersion path x cas) :
      Performs c (.ok .unit, Function.update a path (a path ++ [⟨x, false, false⟩]))
  | changes (path : String) (n : ℕ) (v v' : Version) (hpath : c.mutates = some path)
      (hv : nth (a path) n = some v) (hv' : v.destroyed = true → v'.destroyed = true) :
      Performs c (.ok .unit, Function.update a path ((a path).set (n - 1) v'))

variable {c : Call}

theorem performs_mutate {path : String} (hpath : c.mutates = some path) (version : UInt32)
    {g : Version → Except EngineError Version}
    (hg : ∀ v v', g v = .ok v' → v.destroyed = true → v'.destroyed = true) :
    Performs a c (a.mutate path version g) := by
  rcases a.mutate_cases path version g with ⟨e, he⟩ | ⟨v, v', hv, hv', heq⟩
  · rw [he]
    exact .keeps _
  · rw [heq]
    exact .changes path _ v v' hpath hv (hg v v' hv')

theorem performs (ticked : Bool) (c : Call) : Performs a c (a.performAt ticked c) := by
  cases c with
  | readMetadata path => exact .keeps _
  | readVersion path version => exact .keeps _
  | putVersion path x cas =>
    rcases a.put_cases path x cas with ⟨e, he⟩ | heq
    · rw [performAt, he]
      exact .keeps _
    · rw [performAt, heq]
      exact .appends path x cas rfl
  | softDelete path version =>
    refine a.performs_mutate (c := .softDelete path version) (g := delete ticked) rfl version ?_
    rintro v v' ⟨⟩ hdestroyed
    exact hdestroyed
  | undelete path version =>
    refine a.performs_mutate (c := .undelete path version) (g := restore) rfl version ?_
    intro v v' hg hdestroyed
    simp [restore, hdestroyed] at hg
  | destroyVersion path version =>
    refine a.performs_mutate (c := .destroyVersion path version) (g := destroy) rfl version ?_
    rintro v v' ⟨⟩ _
    rfl

variable {a}

variable {y : Except EngineError Reply × Store}

/-- A failing request changes nothing. -/
theorem Performs.error {e : EngineError} (h : Performs a c y) (he : y.1 = .error e) : y.2 = a := by
  cases h with
  | keeps r => rfl
  | appends path x cas hc => cases he
  | changes path n v v' hpath hv hv' => cases he

/-- A request leaves other paths alone. -/
theorem Performs.other {path : String} (h : Performs a c y) (hother : c.mutates ≠ some path) :
    y.2 path = a path := by
  cases h with
  | keeps r => rfl
  | appends path' x cas hc =>
    subst hc
    exact Function.update_of_ne (fun heq => hother (congrArg some heq.symm)) _ _
  | changes path' n v v' hpath' hv hv' =>
    refine Function.update_of_ne (fun heq => hother ?_) _ _
    rw [hpath', heq]

/-- The versions of a path grow by at most one, and only through a put of the path. -/
theorem Performs.length (h : Performs a c y) (path : String) :
    (a path).length ≤ (y.2 path).length ∧ (y.2 path).length ≤ (a path).length + c.puts path := by
  cases h with
  | keeps r => exact ⟨Nat.le_refl _, Nat.le_add_right _ _⟩
  | appends path' x cas hc =>
    subst hc
    dsimp only
    rw [Function.update_apply]
    split
    · next hpath =>
        subst hpath
        simp [Call.puts]
    · exact ⟨Nat.le_refl _, Nat.le_add_right _ _⟩
  | changes path' n v v' hpath' hv hv' =>
    have hlength : (Function.update a path' ((a path').set (n - 1) v') path).length =
        (a path).length := by
      rw [Function.update_apply]
      split
      · next hpath => rw [List.length_set, hpath]
      · rfl
    dsimp only
    rw [hlength]
    exact ⟨Nat.le_refl _, Nat.le_add_right _ _⟩

end Store

/-! ## Destruction is final -/

/-- The version with the number is destroyed. -/
def Store.Destroyed (a : Store) (path : String) (n : ℕ) : Prop :=
  ∃ v, nth (a path) n = some v ∧ v.destroyed = true

variable {vs : List Version}

theorem nth_ne_zero {v : Version} (h : nth vs n = some v) : n ≠ 0 := by
  rintro rfl
  simp [nth] at h

theorem nth_append {ws : List Version} {v : Version} (h : nth vs n = some v) :
    nth (vs ++ ws) n = some v := by
  unfold nth at h ⊢
  split at h
  · cases h
  · next hn =>
      obtain ⟨hlt, _⟩ := List.getElem?_eq_some_iff.mp h
      rw [if_neg hn, List.getElem?_append_left hlt, h]

theorem nth_set {m : ℕ} {v w : Version} (hm : nth vs m = some w) (hn : n ≠ 0) :
    nth (vs.set (m - 1) v) n = if n = m then some v else nth vs n := by
  unfold nth at hm ⊢
  split at hm
  · cases hm
  · next hm0 =>
      obtain ⟨hlt, _⟩ := List.getElem?_eq_some_iff.mp hm
      rw [if_neg hn, if_neg hn, List.getElem?_set]
      by_cases h : n = m
      · rw [if_pos (by omega), if_pos (by omega), if_pos h]
      · rw [if_neg (by omega), if_neg h]

theorem Store.Destroyed.performAt {a : Store} {path : String} (ticked : Bool) (c : Call)
    (h : a.Destroyed path n) : (a.performAt ticked c).2.Destroyed path n := by
  obtain ⟨v, hv, hdestroyed⟩ := h
  have hperforms := a.performs ticked c
  generalize a.performAt ticked c = y at hperforms
  unfold Store.Destroyed
  cases hperforms with
  | keeps r => exact ⟨v, hv, hdestroyed⟩
  | appends path' x cas hc =>
    dsimp only
    rw [Function.update_apply]
    split
    · next hpath =>
        subst hpath
        exact ⟨v, nth_append hv, hdestroyed⟩
    · exact ⟨v, hv, hdestroyed⟩
  | changes path' m w w' hpath' hw hkeep =>
    dsimp only
    rw [Function.update_apply]
    split
    · next hpath =>
        subst hpath
        rw [nth_set hw (nth_ne_zero hv)]
        split
        · next hnum =>
            subst hnum
            rw [hv] at hw
            cases hw
            exact ⟨w', rfl, hkeep hdestroyed⟩
        · exact ⟨v, hv, hdestroyed⟩
    · exact ⟨v, hv, hdestroyed⟩

/-! ## Metadata records -/

def VersionState.info (v : VersionState) : VersionInfo :=
  ⟨v.versionId.toNat, decide (0 < v.deletionTimeMs), v.destroyed⟩

def Out.reply : Out → Reply
  | .unit => .unit
  | .metadata m => .metadata m.currentVersion.toNat (m.versions.map VersionState.info)
  | .version x v => .version x v.info

/-- The record lists the versions. -/
structure Describes (m : KeyMetadata) (vs : List Version) : Prop where
  current : m.currentVersion.toNat = vs.length
  versions : m.versions.map VersionState.info = infos 1 vs

theorem infos_append (vs ws : List Version) (n : ℕ) :
    infos n (vs ++ ws) = infos n vs ++ infos (n + vs.length) ws := by
  induction vs generalizing n with
  | nil => rfl
  | cons v vs ih =>
    rw [List.cons_append, infos, ih, infos, List.cons_append, List.length_cons,
      Nat.add_assoc, Nat.add_comm 1]

/-- The search for a number finds the version with that number. -/
theorem find?_versionId (vs : List Version) :
    ∀ (n : ℕ) {versions : List VersionState}, versions.map VersionState.info = infos n vs →
      ∀ target : UInt32,
        (versions.find? fun v => v.versionId = target).map VersionState.info =
          if n ≤ target.toNat then (vs[target.toNat - n]?).map (Version.info target.toNat)
          else none := by
  induction vs with
  | nil =>
    intro n versions h target
    obtain rfl : versions = [] := List.map_eq_nil_iff.mp h
    simp
  | cons v vs ih =>
    intro n versions h target
    cases versions with
    | nil => cases h
    | cons w versions =>
      obtain ⟨hw, hrest⟩ := List.cons.inj h
      have hnumber : w.versionId.toNat = n := congrArg VersionInfo.number hw
      by_cases htarget : w.versionId = target
      · subst htarget
        simp [hnumber, hw]
      · have hne : target.toNat ≠ n := by
          intro heq
          exact htarget (UInt32.toNat_inj.mp (hnumber.trans heq.symm))
        rw [List.find?_cons_of_neg (by simpa using htarget), ih (n + 1) hrest target]
        by_cases hle : n ≤ target.toNat
        · rw [if_pos (by omega), if_pos hle]
          obtain ⟨k, hk⟩ : ∃ k, target.toNat - n = k + 1 := ⟨target.toNat - n - 1, by omega⟩
          rw [hk, List.getElem?_cons_succ, show target.toNat - (n + 1) = k by omega]
        · rw [if_neg (by omega), if_neg hle]

theorem Describes.find? (h : Describes m vs) (target : UInt32) :
    (m.versions.find? fun v => v.versionId = target).map VersionState.info =
      (nth vs target.toNat).map (Version.info target.toNat) := by
  rw [find?_versionId vs 1 h.versions target, nth]
  by_cases h0 : target.toNat = 0
  · rw [if_neg (by omega), if_pos h0]
    rfl
  · rw [if_pos (by omega), if_neg h0]

/-- The loop changes the version with the number. -/
theorem updateVersion_info {f : VersionState → VersionState} {target : UInt32} {w : Version}
    (vs : List Version) :
    ∀ (n : ℕ) {versions : List VersionState}, versions.map VersionState.info = infos n vs →
      ∀ {v : VersionState}, (versions.find? fun v => v.versionId = target) = some v →
        (f v).info = w.info target.toNat →
        (updateVersion target f versions).map VersionState.info =
          infos n (vs.set (target.toNat - n) w) := by
  induction vs with
  | nil =>
    intro n versions h v hfind _
    obtain rfl : versions = [] := List.map_eq_nil_iff.mp h
    cases hfind
  | cons u vs ih =>
    intro n versions h v hfind hv
    cases versions with
    | nil => cases h
    | cons u' versions =>
      obtain ⟨hu, hrest⟩ := List.cons.inj h
      have hnumber : u'.versionId.toNat = n := congrArg VersionInfo.number hu
      by_cases htarget : u'.versionId = target
      · rw [List.find?_cons_of_pos (by simpa using htarget)] at hfind
        cases hfind
        subst htarget
        rw [updateVersion, if_pos rfl, List.map_cons, hv, hnumber, Nat.sub_self,
          List.set_cons_zero, infos, hrest]
      · rw [List.find?_cons_of_neg (by simpa using htarget)] at hfind
        have hmap := find?_versionId vs (n + 1) hrest target
        have hle : n + 1 ≤ target.toNat := by
          by_contra hlt
          rw [hfind, if_neg hlt] at hmap
          cases hmap
        obtain ⟨k, hk⟩ : ∃ k, target.toNat - n = k + 1 := ⟨target.toNat - n - 1, by omega⟩
        rw [updateVersion, if_neg htarget, List.map_cons, hu, hk, List.set_cons_succ, infos,
          ih (n + 1) hrest hfind hv, show target.toNat - (n + 1) = k by omega]

theorem Describes.updateVersion (h : Describes m vs) {f : VersionState → VersionState}
    {target : UInt32} {v : VersionState} {w : Version}
    (hfind : (m.versions.find? fun v => v.versionId = target) = some v)
    (hv : (f v).info = w.info target.toNat) :
    Describes { m with versions := updateVersion target f m.versions }
      (vs.set (target.toNat - 1) w) where
  current := h.current.trans List.length_set.symm
  versions := updateVersion_info vs 1 h.versions hfind hv

/-- A put appends a version. -/
theorem Describes.append (h : Describes m vs) (hroom : vs.length + 1 < 2 ^ 32)
    (x : SecretPayload) (created : UInt64) :
    Describes { m with
      currentVersion := m.currentVersion + 1
      versions := m.versions ++ [⟨created, 0, m.currentVersion + 1, false⟩] }
      (vs ++ [⟨x, false, false⟩]) := by
  have hnext : (m.currentVersion + 1).toNat = vs.length + 1 := by
    rw [UInt32.toNat_add, h.current]
    exact Nat.mod_eq_of_lt hroom
  refine ⟨?_, ?_⟩
  · rw [hnext, List.length_append]
    rfl
  · rw [List.map_append, h.versions, infos_append, Nat.add_comm 1]
    simp [VersionState.info, infos, Version.info, hnext]

theorem describes_default : Describes .default [] :=
  ⟨rfl, rfl⟩

end Kallisto.Engine
