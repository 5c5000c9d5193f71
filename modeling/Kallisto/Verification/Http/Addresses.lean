import Mathlib.Data.List.TakeWhile
import Kallisto.Model.HttpHandler
import Kallisto.Verification.Engine.Directories

/-! # Addresses and queries -/

namespace Kallisto.Http

open Engine

variable {word : List Char} {sep : Char} {part : List Char} {name : String} {uri : Uri}
  {parameter : List Char}

/-! ## Splitting -/

theorem stripLeading_eq_some {cs rest : List Char} :
    stripLeading word cs = some rest ↔ cs = word ++ rest := by
  induction word generalizing cs with
  | nil => simp [stripLeading]
  | cons c word ih =>
    cases cs with
    | nil => simp [stripLeading]
    | cons c' cs =>
      rw [stripLeading]
      split
      · next heq => simp [ih, heq]
      · next hne => simp [Ne.symm hne]

theorem takeWhile_append_separator (h : sep ∉ part) (rest : List Char) :
    (part ++ sep :: rest).takeWhile (· ≠ sep) = part := by
  have hpart : ∀ c ∈ part, decide (c ≠ sep) = true := fun c hc =>
    decide_eq_true fun heq => h (heq ▸ hc)
  rw [List.takeWhile_append_of_pos hpart]
  simp

theorem dropWhile_append_separator (h : sep ∉ part) (rest : List Char) :
    (part ++ sep :: rest).dropWhile (· ≠ sep) = sep :: rest := by
  have hpart : ∀ c ∈ part, decide (c ≠ sep) = true := fun c hc =>
    decide_eq_true fun heq => h (heq ▸ hc)
  rw [List.dropWhile_append_of_pos hpart]
  simp

theorem takeWhile_of_not_mem (h : sep ∉ part) : part.takeWhile (· ≠ sep) = part :=
  List.takeWhile_eq_self_iff.mpr fun _ hc => decide_eq_true fun heq => h (heq ▸ hc)

theorem dropWhile_of_not_mem (h : sep ∉ part) : part.dropWhile (· ≠ sep) = [] :=
  List.dropWhile_eq_nil_iff.mpr fun _ hc => decide_eq_true fun heq => h (heq ▸ hc)

theorem splitn_append_separator (h : sep ∉ part) (n : ℕ) (rest : List Char) :
    splitn sep (n + 2) (part ++ sep :: rest) = part :: splitn sep (n + 1) rest := by
  rw [splitn, takeWhile_append_separator h, dropWhile_append_separator h]

theorem splitn_of_not_mem (h : sep ∉ part) (n : ℕ) : splitn sep (n + 2) part = [part] := by
  rw [splitn, takeWhile_of_not_mem h, dropWhile_of_not_mem h]

/-! ## Mounts and paths -/

/-- The address of a secret. -/
def address (mount action path : String) : String :=
  "/v1/" ++ mount ++ "/" ++ action ++ "/" ++ path

theorem toList_address (mount action path : String) :
    (address mount action path).toList = "/v1/".toList ++
      (mount.toList ++ '/' :: (action.toList ++ '/' :: path.toList)) := by
  simp [address]

theorem extractMountAndPath_address {mount action : String} (hmount : '/' ∉ mount.toList)
    (haction : '/' ∉ action.toList) (path : String) :
    extractMountAndPath (address mount action path) action = some (mount, path) := by
  have hstrip := stripLeading_eq_some.mpr (toList_address mount action path)
  have hsplit : splitn '/' 3 (mount.toList ++ '/' :: (action.toList ++ '/' :: path.toList)) =
      [mount.toList, action.toList, path.toList] := by
    rw [splitn_append_separator hmount, splitn_append_separator haction]
    rfl
  unfold extractMountAndPath
  rw [hstrip]
  dsimp only [bind, Option.bind]
  rw [hsplit]
  dsimp only
  rw [String.ofList_toList, if_neg fun hne => hne rfl, String.ofList_toList, String.ofList_toList]

theorem address_of_extractMountAndPath {uri mount action path : String}
    (h : extractMountAndPath uri action = some (mount, path)) :
    uri = address mount action path ∧ '/' ∉ mount.toList := by
  unfold extractMountAndPath at h
  cases hstrip : stripLeading "/v1/".toList uri.toList with
  | none =>
    rw [hstrip] at h
    cases h
  | some rest =>
    rw [hstrip] at h
    dsimp only [bind, Option.bind] at h
    rcases separator_cases '/' rest with hnot | ⟨mount', rest', hmount, rfl⟩
    · rw [splitn_of_not_mem hnot] at h
      cases h
    · rw [splitn_append_separator hmount] at h
      rcases separator_cases '/' rest' with hnot | ⟨action', path', haction, rfl⟩
      · rw [splitn_of_not_mem hnot] at h
        dsimp only at h
        split at h <;> cases h
      · rw [splitn_append_separator haction] at h
        dsimp only [splitn] at h
        split at h
        · cases h
        · next heq =>
            obtain rfl := not_not.mp heq
            obtain ⟨rfl, rfl⟩ := Prod.mk.inj (Option.some.inj h)
            have huri := stripLeading_eq_some.mp hstrip
            rw [← String.toList_inj, toList_address]
            simp only [String.toList_ofList]
            exact ⟨huri, hmount⟩

/-- An address is split into its mount and its path, and into nothing else. -/
theorem extractMountAndPath_iff (uri action : String) (haction : '/' ∉ action.toList) :
    (∀ mount path, extractMountAndPath uri action = some (mount, path) ↔
      uri = "/v1/" ++ mount ++ "/" ++ action ++ "/" ++ path ∧ '/' ∉ mount.toList) ∧
      ∀ mount path mount' path', '/' ∉ mount.toList → '/' ∉ mount'.toList →
        "/v1/" ++ mount ++ "/" ++ action ++ "/" ++ path =
          "/v1/" ++ mount' ++ "/" ++ action ++ "/" ++ path' →
        mount = mount' ∧ path = path' := by
  constructor
  · intro mount path
    constructor
    · exact address_of_extractMountAndPath
    · rintro ⟨rfl, hmount⟩
      exact extractMountAndPath_address hmount haction path
  · intro mount path mount' path' hmount hmount' heq
    have hleft := extractMountAndPath_address hmount haction path
    have hright := extractMountAndPath_address hmount' haction path'
    unfold address at hleft hright
    rw [heq, hright] at hleft
    obtain ⟨rfl, rfl⟩ := Prod.mk.inj (Option.some.inj hleft)
    exact ⟨rfl, rfl⟩

theorem extractMountAndPath_iff_data :
    extractMountAndPath "/v1/secret/data/data//x" "data" = some ("secret", "data//x") :=
  ((extractMountAndPath_iff "/v1/secret/data/data//x" "data" (by decide)).1 "secret" "data//x").mpr
    ⟨by decide, by decide⟩

/-! ## Words in a query -/

/-- A word is not found across a separator. -/
theorem stripLeading_append_separator (h : sep ∉ word) (part rest : List Char) :
    stripLeading word (part ++ sep :: rest) = (stripLeading word part).map (· ++ sep :: rest) := by
  induction word generalizing part with
  | nil => rfl
  | cons c word ih =>
    rw [List.mem_cons, not_or] at h
    cases part with
    | nil => exact if_neg (Ne.symm h.1)
    | cons c' part =>
      rw [List.cons_append, stripLeading, stripLeading, ih h.2]
      split <;> rfl

theorem afterFirst_append_separator (hne : word ≠ []) (h : sep ∉ word) (part rest : List Char) :
    afterFirst word (part ++ sep :: rest) =
      ((afterFirst word part).map (· ++ sep :: rest)).or (afterFirst word rest) := by
  induction part with
  | nil =>
    have hnil : stripLeading word [] = none := by
      cases word with
      | nil => exact absurd rfl hne
      | cons c word => rfl
    have hstrip := stripLeading_append_separator h [] rest
    rw [hnil] at hstrip
    rw [List.nil_append, afterFirst, afterFirst, if_neg hne]
    rw [List.nil_append] at hstrip
    rw [hstrip]
    rfl
  | cons c part ih =>
    have hstrip := stripLeading_append_separator h (c :: part) rest
    rw [List.cons_append] at hstrip ⊢
    rw [afterFirst, afterFirst, hstrip]
    cases stripLeading word (c :: part) with
    | some after => rfl
    | none => exact ih

theorem afterFirst_mem {cs rest : List Char} (h : sep ∉ cs)
    (hafter : afterFirst word cs = some rest) : sep ∉ rest := by
  induction cs with
  | nil =>
    rw [afterFirst] at hafter
    split at hafter
    · cases hafter
      exact h
    · cases hafter
  | cons c cs ih =>
    rw [afterFirst] at hafter
    split at hafter
    · next heq =>
        cases hafter
        rw [stripLeading_eq_some.mp heq] at h
        exact fun hmem => h (List.mem_append_right word hmem)
    · exact ih (fun hmem => h (List.mem_cons_of_mem c hmem)) hafter

theorem afterFirst_of_append (hne : word ≠ []) (rest : List Char) :
    afterFirst word (word ++ rest) = some rest := by
  have hstrip : stripLeading word (word ++ rest) = some rest := stripLeading_eq_some.mpr rfl
  cases word with
  | nil => exact absurd rfl hne
  | cons c word =>
    rw [List.cons_append] at hstrip ⊢
    rw [afterFirst, hstrip]

theorem mem_of_afterFirst {cs rest : List Char} (h : afterFirst word cs = some rest) :
    ∀ c ∈ word, c ∈ cs := by
  induction cs with
  | nil =>
    rw [afterFirst] at h
    split at h
    · next hnil => exact fun c hc => hnil ▸ hc
    · cases h
  | cons c' cs ih =>
    intro c hc
    rw [afterFirst] at h
    split at h
    · next heq =>
        rw [stripLeading_eq_some.mp heq]
        exact List.mem_append_left _ hc
    · exact List.mem_cons_of_mem c' (ih h c hc)

/-- The first occurrence of a word is in the first part that has one. -/
theorem afterFirst_eq_findSome? (hne : word ≠ []) (h : sep ∉ word) (cs : List Char) :
    (afterFirst word cs).map (·.takeWhile (· ≠ sep)) = (cs.splitOn sep).findSome? (afterFirst word) := by
  induction hsize : cs.length using Nat.strong_induction_on generalizing cs with
  | _ n ih =>
    rcases separator_cases sep cs with hnot | ⟨part, rest, hnot, rfl⟩
    · rw [List.splitOn_eq_singleton hnot, List.findSome?_singleton]
      cases hafter : afterFirst word cs with
      | none => rfl
      | some after => exact congrArg some (takeWhile_of_not_mem (afterFirst_mem hnot hafter))
    · have hrest := ih rest.length (by simp [← hsize]; omega) rest rfl
      rw [List.splitOn_append_cons_self_of_not_mem hnot, List.findSome?_cons,
        afterFirst_append_separator hne h]
      cases hafter : afterFirst word part with
      | none => exact hrest
      | some after =>
        exact congrArg some (takeWhile_append_separator (afterFirst_mem hnot hafter) rest)

/-! ## Parameters -/

def parameters (uri : Uri) : List (List Char) :=
  (uri.query.map fun q => q.toList.splitOn '&').getD []

def parameterName (parameter : List Char) : List Char :=
  parameter.takeWhile (· ≠ '=')

def parameterValue (parameter : List Char) : List Char :=
  (parameter.dropWhile (· ≠ '=')).tail

/-- A decimal number of 32 bits, with nothing but its digits. -/
def decimalU32 (cs : List Char) : Option UInt32 :=
  if cs ≠ [] ∧ cs.all Char.isDigit = true ∧ Nat.ofDigitChars 10 cs 0 < 2 ^ 32 then
    some (.ofNat (Nat.ofDigitChars 10 cs 0))
  else none

/-- The first parameter of a name. -/
def namedParameter (name : String) (uri : Uri) : Option (List Char) :=
  (parameters uri).find? fun parameter => parameterName parameter = name.toList

/-- The number that a parsed query gives a name. -/
def queryNumber (name : String) (uri : Uri) : UInt32 :=
  ((namedParameter name uri).bind fun parameter => decimalU32 (parameterValue parameter)).getD 0

/-- The first parameter in which the name with its equals sign occurs, anywhere. -/
def holdingParameter (name : String) (uri : Uri) : Option (List Char) :=
  (parameters uri).find? fun parameter => (afterFirst (name ++ "=").toList parameter).isSome

/-- The number behind the first occurrence. -/
def numberBehind (name : String) (parameter : List Char) : UInt32 :=
  ((afterFirst (name ++ "=").toList parameter).bind parseU32).getD 0

theorem extractParam_eq (hname : '&' ∉ name.toList) (uri : Uri) :
    extractParam (name ++ "=") uri =
      ((holdingParameter name uri).map (numberBehind name)).getD 0 := by
  have hne : (name ++ "=").toList ≠ [] := by simp
  have hnot : '&' ∉ (name ++ "=").toList := by simp [hname]
  unfold extractParam holdingParameter parameters
  cases uri.query with
  | none => rfl
  | some q =>
    have hfirst := afterFirst_eq_findSome? hne hnot q.toList
    rw [Option.bind_some, Option.map_some, Option.getD_some]
    have hbind : ((afterFirst (name ++ "=").toList q.toList).bind fun s =>
        parseU32 (s.takeWhile (· ≠ '&'))) =
        ((q.toList.splitOn '&').findSome? (afterFirst (name ++ "=").toList)).bind parseU32 := by
      rw [← hfirst, Option.bind_map]
      rfl
    rw [hbind]
    induction q.toList.splitOn '&' with
    | nil => rfl
    | cons parameter others ih =>
      rw [List.findSome?_cons, List.find?_cons]
      cases hafter : afterFirst (name ++ "=").toList parameter with
      | none => exact ih
      | some after =>
        change ((some after).bind parseU32).getD 0 =
          ((some parameter).map (numberBehind name)).getD 0
        rw [Option.map_some, Option.getD_some, numberBehind, hafter]

/-- A plus sign before a number other than 0. -/
def IsSigned (cs : List Char) : Prop :=
  ∃ digits n, cs = '+' :: digits ∧ decimalU32 digits = some n ∧ n ≠ 0

/-- A signed number is parsed, and it is not a decimal number. -/
theorem parseU32_eq_decimalU32 (cs : List Char) :
    (parseU32 cs).getD 0 = (decimalU32 cs).getD 0 ↔ ¬ IsSigned cs := by
  by_cases hplus : cs.head? = some '+'
  · obtain ⟨digits, rfl⟩ : ∃ digits, cs = '+' :: digits := by
      cases cs with
      | nil => cases hplus
      | cons c digits => exact ⟨digits, congrArg (· :: digits) (Option.some.inj hplus)⟩
    have hparse : parseU32 ('+' :: digits) = decimalU32 digits := rfl
    have hnone : decimalU32 ('+' :: digits) = none := if_neg fun h => nomatch h.2.1
    rw [hparse, hnone, Option.getD_none]
    constructor
    · rintro hzero ⟨digits', n, heq, hn, hne⟩
      obtain rfl := (List.cons.inj heq).2
      rw [hn] at hzero
      exact hne hzero
    · intro hunsigned
      cases hn : decimalU32 digits with
      | none => rfl
      | some n => exact not_not.mp fun hne => hunsigned ⟨digits, n, rfl, hn, hne⟩
  · have hparse : parseU32 cs = decimalU32 cs := by
      unfold parseU32 decimalU32
      rw [if_neg hplus]
    refine iff_of_true (congrArg (·.getD 0) hparse) ?_
    rintro ⟨digits, n, rfl, -⟩
    exact hplus rfl

theorem parameterName_of_named (h : namedParameter name uri = some parameter) :
    parameterName parameter = name.toList := by
  simpa using List.find?_some h

/-- A parameter of a name that holds the name with its equals sign begins with it. -/
theorem eq_append_of_named {rest : List Char} (hnamed : parameterName parameter = name.toList)
    (hholds : afterFirst (name ++ "=").toList parameter = some rest) :
    parameter = (name ++ "=").toList ++ parameterValue parameter := by
  have hmem : '=' ∈ parameter := mem_of_afterFirst hholds '=' (by simp)
  rcases separator_cases '=' parameter with hnot | ⟨part, value, hnot, rfl⟩
  · exact absurd hmem hnot
  · rw [parameterName, takeWhile_append_separator hnot] at hnamed
    rw [parameterValue, dropWhile_append_separator hnot, hnamed]
    simp

theorem numberBehind_of_named (hnamed : parameterName parameter = name.toList)
    (hholds : (afterFirst (name ++ "=").toList parameter).isSome = true) :
    numberBehind name parameter = (parseU32 (parameterValue parameter)).getD 0 := by
  obtain ⟨rest, hrest⟩ := Option.isSome_iff_exists.mp hholds
  have hparameter := eq_append_of_named hnamed hrest
  have hafter : afterFirst (name ++ "=").toList parameter = some (parameterValue parameter) := by
    rw [hparameter, afterFirst_of_append (by simp), ← hparameter]
  rw [numberBehind, hafter, Option.bind_some]

/-- When no parameter holds the name with its equals sign, the query has no number for it. -/
theorem queryNumber_of_none (h : holdingParameter name uri = none) : queryNumber name uri = 0 := by
  unfold queryNumber
  cases hnamed : namedParameter name uri with
  | none => rfl
  | some parameter =>
    have hname := parameterName_of_named hnamed
    have hholds := List.find?_eq_none.mp h parameter (List.mem_of_find?_eq_some hnamed)
    have hnot : '=' ∉ parameter := by
      intro hmem
      obtain ⟨part, value, rfl, hpart⟩ := List.eq_append_cons_of_mem hmem
      rw [parameterName, takeWhile_append_separator hpart] at hname
      have hparameter : part ++ '=' :: value = (name ++ "=").toList ++ value := by simp [hname]
      rw [hparameter, afterFirst_of_append (by simp)] at hholds
      exact hholds rfl
    rw [Option.bind_some, parameterValue, dropWhile_of_not_mem hnot]
    rfl

/-- If the name with its equals sign occurs at all, then it does so first in the first parameter of
the name, and the value there has no plus sign before its number. -/
def ReadsNumber (name : String) (uri : Uri) : Prop :=
  ∀ parameter, holdingParameter name uri = some parameter →
    namedParameter name uri = some parameter ∧ ¬ IsSigned (parameterValue parameter)

/-- Where the number is read from the first parameter of the name, it is the right one exactly when
it has no sign. -/
theorem extractParam_iff (hname : '&' ∉ name.toList)
    (hholding : holdingParameter name uri = some parameter)
    (hnamed : namedParameter name uri = some parameter) :
    extractParam (name ++ "=") uri = queryNumber name uri ↔
      ¬ IsSigned (parameterValue parameter) := by
  have hholds := List.find?_some hholding
  rw [extractParam_eq hname, hholding, Option.map_some, Option.getD_some,
    numberBehind_of_named (parameterName_of_named hnamed) hholds, queryNumber, hnamed,
    Option.bind_some]
  exact parseU32_eq_decimalU32 (parameterValue parameter)

theorem extractParam_agrees (name : String) (hname : '&' ∉ name.toList) (uri : Uri) :
    (ReadsNumber name uri → extractParam (name ++ "=") uri = queryNumber name uri) ∧
      (holdingParameter name uri = namedParameter name uri →
        (extractParam (name ++ "=") uri = queryNumber name uri ↔ ReadsNumber name uri)) := by
  cases hholding : holdingParameter name uri with
  | none =>
    have hagrees : extractParam (name ++ "=") uri = queryNumber name uri := by
      rw [extractParam_eq hname, hholding, queryNumber_of_none hholding]
      rfl
    refine ⟨fun _ => hagrees, fun _ => iff_of_true hagrees fun parameter h => ?_⟩
    exact (Option.some_ne_none parameter (h.symm.trans hholding)).elim
  | some parameter =>
    refine ⟨fun hreads => ?_, fun hnamed => ?_⟩
    · obtain ⟨hnamed, hunsigned⟩ := hreads parameter hholding
      exact (extractParam_iff hname hholding hnamed).mpr hunsigned
    · rw [extractParam_iff hname hholding hnamed.symm]
      constructor
      · intro hunsigned parameter' h
        obtain rfl := Option.some.inj (hholding.symm.trans h)
        exact ⟨hnamed.symm, hunsigned⟩
      · exact fun hreads => (hreads parameter hholding).2

/-- A query that holds `list=true` has it as a parameter. -/
def ReadsList (uri : Uri) : Prop :=
  (∃ parameter ∈ parameters uri, (afterFirst "list=true".toList parameter).isSome = true) →
    "list=true".toList ∈ parameters uri

theorem extractListParam_eq (uri : Uri) : extractListParam uri = true ↔
    ∃ parameter ∈ parameters uri, (afterFirst "list=true".toList parameter).isSome = true := by
  unfold extractListParam parameters
  cases uri.query with
  | none => simp
  | some q =>
    have hfirst : (afterFirst "list=true".toList q.toList).map (·.takeWhile (· ≠ '&')) = _ :=
      afterFirst_eq_findSome? (by decide) (by decide) q.toList
    rw [Option.map_some, Option.getD_some, Option.map_some, Option.getD_some,
      ← Option.isSome_map, hfirst, List.findSome?_isSome_iff]

theorem extractListParam_agrees (uri : Uri) :
    (extractListParam uri = true ↔ "list=true".toList ∈ parameters uri) ↔ ReadsList uri := by
  have hexact : "list=true".toList ∈ parameters uri → extractListParam uri = true :=
    fun hmem => (extractListParam_eq uri).mpr ⟨_, hmem, by decide⟩
  rw [ReadsList, ← extractListParam_eq]
  exact ⟨Iff.mp, fun h => ⟨h, hexact⟩⟩

/-- The extractors of numbers agree with the parameters of the query where they read from the right
place a number without a sign; where the place is right, only there. The third one agrees exactly
when a parameter is what it looks for, or no parameter contains it. -/
theorem extractors_agree (uri : Uri) :
    ((ReadsNumber "version" uri → extractVersionParam uri = queryNumber "version" uri) ∧
      (holdingParameter "version" uri = namedParameter "version" uri →
        (extractVersionParam uri = queryNumber "version" uri ↔ ReadsNumber "version" uri))) ∧
    ((ReadsNumber "depth" uri → extractDepthParam uri = queryNumber "depth" uri) ∧
      (holdingParameter "depth" uri = namedParameter "depth" uri →
        (extractDepthParam uri = queryNumber "depth" uri ↔ ReadsNumber "depth" uri))) ∧
    ((extractListParam uri = true ↔ "list=true".toList ∈ parameters uri) ↔ ReadsList uri) :=
  ⟨extractParam_agrees "version" (by decide) uri, extractParam_agrees "depth" (by decide) uri,
    extractListParam_agrees uri⟩

/-- A query with parameters of other names. -/
def plainQuery : Uri :=
  ⟨"/v1/secret/data/p", some "q=versions&version=7&list=true"⟩

theorem extractors_agree_plainQuery :
    extractVersionParam plainQuery = queryNumber "version" plainQuery ∧
      queryNumber "version" plainQuery = 7 ∧ extractListParam plainQuery = true := by
  obtain ⟨⟨hversion, -⟩, -, hlist⟩ := extractors_agree plainQuery
  have hholding : holdingParameter "version" plainQuery = some "version=7".toList := by
    decide +kernel
  refine ⟨hversion fun parameter h => ?_, by decide +kernel, ?_⟩
  · obtain rfl := Option.some.inj (hholding.symm.trans h)
    refine ⟨by decide +kernel, ?_⟩
    rintro ⟨digits, n, heq, -⟩
    exact nomatch heq
  · have hmem : "list=true".toList ∈ parameters plainQuery := by decide +kernel
    exact (hlist.mpr fun _ => hmem).mpr hmem

/-- Parameters of other names are taken for the ones asked for. -/
theorem extractors_misled :
    extractVersionParam ⟨"/v1/secret/data/p", some "subversion=3&version=1"⟩ = 3 ∧
      queryNumber "version" ⟨"/v1/secret/data/p", some "subversion=3&version=1"⟩ = 1 ∧
      extractDepthParam ⟨"/v1/secret/subkeys/p", some "q=depth=2"⟩ = 2 ∧
      queryNumber "depth" ⟨"/v1/secret/subkeys/p", some "q=depth=2"⟩ = 0 ∧
      extractListParam ⟨"/v1/secret/metadata/p", some "playlist=true"⟩ = true ∧
      "list=true".toList ∉ parameters ⟨"/v1/secret/metadata/p", some "playlist=true"⟩ := by
  decide +kernel

end Kallisto.Http
