import Kallisto.Model.TimeFormat
import Mathlib.Data.List.Basic

/-! # Durations -/

namespace Kallisto.Http

variable {b : UInt8} {digits bs : List UInt8}

/-! ## The grammar -/

/-- The byte of an ASCII character. -/
def asciiByte (c : Char) : UInt8 :=
  c.val.toUInt8

/-- Hours, minutes and seconds by their letters, in milliseconds. -/
def timeUnits : List (Char × ℕ) :=
  [('h', 60 * 60 * 1000), ('m', 60 * 1000), ('s', 1000)]

def unitLength (b : UInt8) : Option ℕ :=
  (timeUnits.find? fun unit => asciiByte unit.1 = b).map Prod.snd

def IsTimeUnit (b : UInt8) : Prop :=
  (unitLength b).isSome = true

instance (b : UInt8) : Decidable (IsTimeUnit b) :=
  inferInstanceAs (Decidable ((unitLength b).isSome = true))

/-- The scanner knows these units, with these lengths. -/
theorem unitMs_toNat (b : UInt8) : (unitMs b).map UInt64.toNat = unitLength b := by
  unfold unitMs
  by_cases hh : b = 104
  · subst hh
    rfl
  · by_cases hm : b = 109
    · subst hm
      rfl
    · by_cases hs : b = 115
      · subst hs
        rfl
      · have hletters : ∀ unit ∈ timeUnits, asciiByte unit.1 ∈ [104, 109, 115] := by decide
        rw [if_neg hh, if_neg hm, if_neg hs, unitLength, List.find?_eq_none.mpr]
        · rfl
        · intro unit hunit heq
          have hmem := hletters unit hunit
          rw [of_decide_eq_true heq] at hmem
          simp [hh, hm, hs] at hmem

theorem isTimeUnit_iff : IsTimeUnit b ↔ ∃ unit, unitMs b = some unit := by
  rw [IsTimeUnit, ← unitMs_toNat, Option.isSome_map, Option.isSome_iff_exists]

/-- Components of digits and a unit, one after the other. -/
inductive IsDuration : List UInt8 → Prop where
  | nil : IsDuration []
  | component {digits rest : List UInt8} {unit : UInt8} :
      digits ≠ [] → (∀ b ∈ digits, isDigit b = true) → IsTimeUnit unit → IsDuration rest →
      IsDuration (digits ++ unit :: rest)

/-- What the scanner accepts: only digits and units, and no digit at the end. -/
structure Scannable (bs : List UInt8) : Prop where
  known : ∀ b ∈ bs, isDigit b = true ∨ IsTimeUnit b
  closed : ∀ b ∈ bs.getLast?, isDigit b = false

/-- Every unit stands right behind a digit. -/
def UnitsNumbered (behindDigit : Bool) : List UInt8 → Prop
  | [] => True
  | b :: bs => (IsTimeUnit b → behindDigit = true) ∧ UnitsNumbered (isDigit b) bs

instance : (behindDigit : Bool) → (bs : List UInt8) → Decidable (UnitsNumbered behindDigit bs)
  | _, [] => isTrue trivial
  | behindDigit, b :: bs =>
    have := instDecidableUnitsNumbered (isDigit b) bs
    inferInstanceAs (Decidable ((IsTimeUnit b → behindDigit = true) ∧ UnitsNumbered (isDigit b) bs))

theorem not_isDigit_of_isTimeUnit (h : IsTimeUnit b) : isDigit b = false := by
  obtain ⟨unit, hunit⟩ := Option.isSome_iff_exists.mp h
  obtain ⟨⟨letter, length⟩, hfind, -⟩ := Option.map_eq_some_iff.mp hunit
  have hletters : ∀ unit ∈ timeUnits, isDigit (asciiByte unit.1) = false := by decide
  have hbyte : asciiByte letter = b := by simpa using List.find?_some hfind
  exact hbyte ▸ hletters _ (List.mem_of_find?_eq_some hfind)

theorem unitsNumbered_digits_append {rest : List UInt8} (hne : digits ≠ [])
    (hdigits : ∀ b ∈ digits, isDigit b = true) (hrest : UnitsNumbered true rest)
    (behindDigit : Bool) : UnitsNumbered behindDigit (digits ++ rest) := by
  induction digits generalizing behindDigit with
  | nil => exact absurd rfl hne
  | cons b digits ih =>
    have hb := hdigits b List.mem_cons_self
    refine ⟨fun hunit => absurd hb (by rw [not_isDigit_of_isTimeUnit hunit]; decide), ?_⟩
    rw [hb]
    cases digits with
    | nil => exact hrest
    | cons b' digits =>
      exact ih (List.cons_ne_nil b' digits)
        (fun c hc => hdigits c (List.mem_cons_of_mem b hc)) true

theorem IsDuration.unitsNumbered (h : IsDuration bs) : UnitsNumbered false bs := by
  induction h with
  | nil => trivial
  | @component digits rest unit hne hdigits hunit _ ih =>
    have hunits : UnitsNumbered true (unit :: rest) := by
      refine ⟨fun _ => rfl, ?_⟩
      rw [not_isDigit_of_isTimeUnit hunit]
      exact ih
    exact unitsNumbered_digits_append hne hdigits hunits false

theorem IsDuration.scannable (h : IsDuration bs) : Scannable bs := by
  induction h with
  | nil => exact ⟨by simp, by simp⟩
  | @component digits rest unit hne hdigits hunit hrest ih =>
    constructor
    · intro b hb
      rcases List.mem_append.mp hb with hdigit | hmem
      · exact Or.inl (hdigits b hdigit)
      · rcases List.mem_cons.mp hmem with rfl | hmem
        · exact Or.inr hunit
        · exact ih.known b hmem
    · intro b hb
      rw [List.getLast?_append, List.getLast?_cons] at hb
      cases hlast : rest.getLast? with
      | none =>
        rw [hlast] at hb
        obtain rfl : unit = b := Option.some.inj hb
        exact not_isDigit_of_isTimeUnit hunit
      | some b' =>
        rw [hlast] at hb
        exact ih.closed b (hlast ▸ hb)

/-- The components of an accepted text, of which some digits have been read. -/
theorem isDuration_append : ∀ digits : List UInt8,
    (∀ b ∈ digits, isDigit b = true) → Scannable (digits ++ bs) →
    UnitsNumbered (decide (digits ≠ [])) bs → IsDuration (digits ++ bs) := by
  induction bs with
  | nil =>
    intro digits hdigits hscannable _
    rw [List.append_nil] at hscannable ⊢
    by_cases hne : digits = []
    · rw [hne]
      exact .nil
    · have hlast := hscannable.closed _ (List.getLast?_eq_some_getLast hne)
      rw [hdigits _ (List.getLast_mem hne)] at hlast
      cases hlast
  | cons b bs ih =>
    intro digits hdigits hscannable hnumbered
    cases hb : isDigit b with
    | true =>
      have happend : digits ++ b :: bs = digits ++ [b] ++ bs := by simp
      rw [happend] at hscannable ⊢
      refine ih (digits ++ [b]) ?_ hscannable ?_
      · intro c hc
        rcases List.mem_append.mp hc with hmem | hmem
        · exact hdigits c hmem
        · rw [List.mem_singleton.mp hmem, hb]
      · have hnext := hnumbered.2
        rw [hb] at hnext
        simpa using hnext
    | false =>
      have hmem : b ∈ digits ++ b :: bs := List.mem_append_right digits List.mem_cons_self
      have hunit : IsTimeUnit b := by
        rcases hscannable.known b hmem with hdigit | hunit
        · rw [hb] at hdigit
          cases hdigit
        · exact hunit
      refine .component (of_decide_eq_true (hnumbered.1 hunit)) hdigits hunit ?_
      have hnext := hnumbered.2
      rw [hb] at hnext
      refine ih [] (by simp) ⟨?_, ?_⟩ (by simpa using hnext)
      · exact fun c hc => hscannable.known c
          (List.mem_append_right digits (List.mem_cons_of_mem b hc))
      · intro c hc
        refine hscannable.closed c ?_
        rw [List.nil_append] at hc
        rw [List.getLast?_append, List.getLast?_cons, Option.mem_def.mp hc]
        rfl

theorem isDuration_iff : IsDuration bs ↔ Scannable bs ∧ UnitsNumbered false bs := by
  constructor
  · exact fun h => ⟨h.scannable, h.unitsNumbered⟩
  · exact fun h => isDuration_append [] (by simp) h.1 (by simpa using h.2)

/-! ## What the scanner accepts -/

variable {r : Except String Scan}

section Scanner

variable {arithmetic : Arithmetic}

theorem scanByte_digit {scan : Scan} (hb : isDigit b = true)
    (h : scanByte arithmetic scan b = some r) : ∃ scan', r = .ok scan' ∧ scan'.hasNum = true := by
  rw [scanByte, if_pos hb] at h
  simp only [Option.bind_eq_bind, Option.bind_eq_some_iff] at h
  obtain ⟨tens, -, currentNum, -, h⟩ := h
  cases h
  exact ⟨_, rfl, rfl⟩

theorem scanByte_unit {scan : Scan} (hb : IsTimeUnit b) (h : scanByte arithmetic scan b = some r) :
    ∃ scan', r = .ok scan' ∧ scan'.hasNum = false := by
  obtain ⟨unit, hunit⟩ := isTimeUnit_iff.mp hb
  rw [scanByte, if_neg (by rw [not_isDigit_of_isTimeUnit hb]; decide), hunit] at h
  simp only [Option.bind_eq_bind, Option.bind_eq_some_iff] at h
  obtain ⟨part, -, ms, -, h⟩ := h
  cases h
  exact ⟨_, rfl, rfl⟩

theorem scanByte_other {scan : Scan} (hdigit : ¬ isDigit b = true) (hunit : ¬ IsTimeUnit b)
    (h : scanByte arithmetic scan b = some r) : r = .error "invalid duration character" := by
  have hnone : unitMs b = none :=
    Option.eq_none_iff_forall_ne_some.mpr fun unit h => hunit (isTimeUnit_iff.mpr ⟨unit, h⟩)
  rw [scanByte, if_neg hdigit, hnone] at h
  exact (Option.some.inj h).symm

theorem scanBytes_cases (bs : List UInt8) : ∀ (scan : Scan) (r : Except String Scan),
    scanBytes arithmetic scan bs = some r →
      (∃ scan', r = .ok scan' ∧ (∀ b ∈ bs, isDigit b = true ∨ IsTimeUnit b) ∧
        scan'.hasNum = (bs.getLast?.map isDigit).getD scan.hasNum) ∨
      ∃ e, r = .error e ∧ ∃ b ∈ bs, ¬ isDigit b = true ∧ ¬ IsTimeUnit b := by
  induction bs with
  | nil =>
    intro scan r h
    cases h
    exact Or.inl ⟨scan, rfl, by simp, rfl⟩
  | cons b bs ih =>
    intro scan r h
    rw [scanBytes] at h
    obtain ⟨r', hr', h⟩ := Option.bind_eq_some_iff.mp h
    -- A byte is a digit, a unit or an error; the first two leave the flag as they are.
    have hnext : ∀ scan', r' = .ok scan' → scan'.hasNum = isDigit b →
        isDigit b = true ∨ IsTimeUnit b →
        (∃ scan', r = .ok scan' ∧ (∀ b' ∈ b :: bs, isDigit b' = true ∨ IsTimeUnit b') ∧
          scan'.hasNum = ((b :: bs).getLast?.map isDigit).getD scan.hasNum) ∨
        ∃ e, r = .error e ∧ ∃ b' ∈ b :: bs, ¬ isDigit b' = true ∧ ¬ IsTimeUnit b' := by
      rintro scan' rfl hflag hb
      rcases ih scan' r h with ⟨scan'', rfl, hknown, hlast⟩ | ⟨e, rfl, b', hmem, hb'⟩
      · refine Or.inl ⟨scan'', rfl, List.forall_mem_cons.mpr ⟨hb, hknown⟩, ?_⟩
        rw [hlast, hflag, List.getLast?_cons]
        cases bs.getLast? <;> rfl
      · exact Or.inr ⟨e, rfl, b', List.mem_cons_of_mem b hmem, hb'⟩
    by_cases hdigit : isDigit b = true
    · obtain ⟨scan', hok, hflag⟩ := scanByte_digit hdigit hr'
      exact hnext scan' hok (hflag.trans hdigit.symm) (Or.inl hdigit)
    · by_cases hunit : IsTimeUnit b
      · obtain ⟨scan', hok, hflag⟩ := scanByte_unit hunit hr'
        exact hnext scan' hok (hflag.trans (not_isDigit_of_isTimeUnit hunit).symm) (Or.inr hunit)
      · obtain rfl := scanByte_other hdigit hunit hr'
        cases h
        exact Or.inr ⟨_, rfl, b, List.mem_cons_self, hdigit, hunit⟩

theorem scannable_nil : Scannable [] where
  known := fun _ hb => absurd hb List.not_mem_nil
  closed := fun _ hb => absurd hb (Option.not_mem_none _)

/-- A parse that does not panic succeeds on the accepted texts. -/
theorem parseVaultDuration_ok_iff {s : String} {r : Except String UInt64}
    (h : parseVaultDuration arithmetic s = some r) : (∃ ms, r = .ok ms) ↔ Scannable (bytes s) := by
  unfold parseVaultDuration at h
  split at h
  · next hempty =>
      obtain rfl := String.isEmpty_iff.mp hempty
      cases h
      exact ⟨fun _ => scannable_nil, fun _ => ⟨0, rfl⟩⟩
  · obtain ⟨r', hr', h⟩ := Option.bind_eq_some_iff.mp h
    rcases scanBytes_cases _ _ _ hr' with ⟨scan', rfl, hknown, hlast⟩ | ⟨e, rfl, b, hmem, hb⟩
    · obtain rfl := Option.some.inj h
      cases hflag : scan'.hasNum with
      | true =>
        rw [if_pos rfl]
        constructor
        · rintro ⟨ms, hms⟩
          cases hms
        · intro hscannable
          rw [hflag] at hlast
          cases hend : (bytes s).getLast? with
          | none =>
            rw [hend] at hlast
            cases hlast
          | some b =>
            have hclosed := hscannable.closed b hend
            rw [hend, Option.map_some, Option.getD_some, hclosed] at hlast
            cases hlast
      | false =>
        rw [if_neg Bool.false_ne_true]
        refine ⟨fun _ => ⟨hknown, fun b hb => ?_⟩, fun _ => ⟨scan'.ms, rfl⟩⟩
        rw [hflag, Option.mem_def.mp hb, Option.map_some, Option.getD_some] at hlast
        exact hlast.symm
    · obtain rfl := Option.some.inj h
      constructor
      · rintro ⟨ms, hms⟩
        cases hms
      · intro hscannable
        exact absurd (hscannable.known b hmem) (not_or.mpr hb)

end Scanner

/-- A text has a fault of its own: a byte that is no digit and no unit, or a digit at the end. -/
def HasFault (bs : List UInt8) : Prop :=
  (∃ b ∈ bs, ¬ isDigit b = true ∧ ¬ IsTimeUnit b) ∨ ∃ b ∈ bs.getLast?, isDigit b = true

theorem scannable_iff_not_hasFault : Scannable bs ↔ ¬ HasFault bs := by
  constructor
  · rintro h (⟨b, hmem, hb⟩ | ⟨b, hmem, hb⟩)
    · exact absurd (h.known b hmem) (not_or.mpr hb)
    · rw [h.closed b hmem] at hb
      cases hb
  · intro h
    constructor
    · intro b hmem
      by_contra hb
      exact h (Or.inl ⟨b, hmem, not_or.mp hb⟩)
    · intro b hmem
      by_contra hb
      exact h (Or.inr ⟨b, hmem, Bool.of_not_eq_false hb⟩)

/-- A parse that does not panic accepts exactly the durations if and only if the units of the text
have numbers, or the text has another fault. -/
theorem parseVaultDuration_grammar (arithmetic : Arithmetic) (s : String)
    (r : Except String UInt64) (h : parseVaultDuration arithmetic s = some r) :
    ((∃ ms, r = .ok ms) ↔ IsDuration (bytes s)) ↔
      UnitsNumbered false (bytes s) ∨ HasFault (bytes s) := by
  rw [parseVaultDuration_ok_iff h, isDuration_iff, scannable_iff_not_hasFault]
  by_cases hfault : HasFault (bytes s) <;> simp [hfault]

theorem parseVaultDuration_grammar_checked :
    (∃ ms, parseVaultDuration .checked "3h25m19s" = some (.ok ms)) ∧
      ((∃ ms, (.ok 12319000 : Except String UInt64) = .ok ms) ↔ IsDuration (bytes "3h25m19s")) := by
  have hparse : parseVaultDuration .checked "3h25m19s" = some (.ok 12319000) := rfl
  refine ⟨⟨12319000, hparse⟩, ?_⟩
  refine (parseVaultDuration_grammar .checked "3h25m19s" (.ok 12319000) hparse).mpr (Or.inl ?_)
  decide +kernel

/-- A unit without a number is accepted. -/
theorem parseVaultDuration_accepts_unit :
    parseVaultDuration .checked "h" = some (.ok 0) ∧ ¬ IsDuration (bytes "h") := by
  refine ⟨rfl, fun h => ?_⟩
  exact absurd h.unitsNumbered (by decide +kernel)

/-! ## Reading a formatted duration back -/

theorem bytes_append (s t : String) : bytes (s ++ t) = bytes s ++ bytes t := by
  simp [bytes, String.toUTF8_eq_toByteArray, String.toByteArray_append]

theorem bytes_ofList_cons (c : Char) (cs : List Char) :
    bytes (.ofList (c :: cs)) = String.utf8EncodeChar c ++ bytes (.ofList cs) := by
  simp [bytes, List.utf8Encode]

theorem bytes_digits {digits : List Char} (h : ∀ c ∈ digits, c.isDigit = true) :
    bytes (.ofList digits) = digits.map asciiByte := by
  induction digits with
  | nil => rfl
  | cons c digits ih =>
    have hsize : c.utf8Size = 1 := by
      have hdigit := Char.isDigit_iff_toNat.mp (h c List.mem_cons_self)
      refine Char.utf8Size_eq_one_iff.mpr (UInt32.le_iff_toNat_le.mpr ?_)
      exact Nat.le_trans hdigit.2 (by decide)
    rw [bytes_ofList_cons, String.utf8EncodeChar_eq_singleton hsize,
      ih fun c' hc' => h c' (List.mem_cons_of_mem c hc')]
    rfl

/-- The byte of a digit and its value. -/
theorem isDigit_asciiByte {c : Char} (h : c.isDigit = true) :
    isDigit (asciiByte c) = true ∧
      (asciiByte c - 48).toUInt64.toNat = c.toNat - '0'.toNat := by
  obtain ⟨hlow, hhigh⟩ := Char.isDigit_iff_toNat.mp h
  change 48 ≤ c.toNat at hlow
  change c.toNat ≤ 57 at hhigh
  have hbyte : (asciiByte c).toNat = c.toNat := by
    rw [asciiByte, UInt32.toNat_toUInt8]
    exact Nat.mod_eq_of_lt (Nat.lt_of_le_of_lt hhigh (by decide))
  have hle : (48 : UInt8) ≤ asciiByte c := by
    rw [UInt8.le_iff_toNat_le, hbyte]
    exact hlow
  have hge : asciiByte c ≤ (57 : UInt8) := by
    rw [UInt8.le_iff_toNat_le, hbyte]
    exact hhigh
  refine ⟨decide_eq_true ⟨hle, hge⟩, ?_⟩
  rw [UInt8.toNat_toUInt64, UInt8.toNat_sub_of_le _ _ hle, hbyte]
  rfl

theorem le_ofDigitChars (digits : List Char) (init : ℕ) : init ≤ Nat.ofDigitChars 10 digits init := by
  rw [Nat.ofDigitChars_eq_ofDigitChars_zero]
  have hpow : 0 < 10 ^ digits.length := Nat.pow_pos (by decide)
  exact Nat.le_trans (Nat.le_mul_of_pos_left init hpow) (Nat.le_add_right _ _)

theorem scanByte_asciiByte (scan : Scan) {c : Char} (h : c.isDigit = true)
    (hfits : 10 * scan.currentNum.toNat + (c.toNat - '0'.toNat) < 2 ^ 64) :
    scanByte .checked scan (asciiByte c) = some (.ok { scan with
      currentNum := .ofNat (10 * scan.currentNum.toNat + (c.toNat - '0'.toNat)),
      hasNum := true }) := by
  obtain ⟨hdigit, hvalue⟩ := isDigit_asciiByte h
  have hmul : (scan.currentNum * 10).toNat = 10 * scan.currentNum.toNat := by
    rw [UInt64.toNat_mul]
    change scan.currentNum.toNat * 10 % 2 ^ 64 = _
    omega
  have htens : Arithmetic.checked.mul scan.currentNum 10 = some (scan.currentNum * 10) := by
    refine if_pos ?_
    change scan.currentNum.toNat * 10 < 2 ^ 64
    omega
  have hsum : Arithmetic.checked.add (scan.currentNum * 10) (asciiByte c - 48).toUInt64 =
      some (.ofNat (10 * scan.currentNum.toNat + (c.toNat - '0'.toNat))) := by
    refine (if_pos (by rw [hmul, hvalue]; exact hfits)).trans (congrArg some ?_)
    rw [← UInt64.toNat_inj, UInt64.toNat_add, hmul, hvalue, UInt64.toNat_ofNat']
  rw [scanByte, if_pos hdigit, htens]
  change (Arithmetic.checked.add (scan.currentNum * 10) (asciiByte c - 48).toUInt64 >>= _) = _
  rw [hsum]
  rfl

/-- Digits are read as their number. -/
theorem scanBytes_digits {digits : List Char} (hdigits : ∀ c ∈ digits, c.isDigit = true)
    (hne : digits ≠ []) (scan : Scan) (rest : List UInt8)
    (hfits : Nat.ofDigitChars 10 digits scan.currentNum.toNat < 2 ^ 64) :
    scanBytes .checked scan (digits.map asciiByte ++ rest) =
      scanBytes .checked { scan with
        currentNum := .ofNat (Nat.ofDigitChars 10 digits scan.currentNum.toNat),
        hasNum := true } rest := by
  induction digits generalizing scan with
  | nil => exact absurd rfl hne
  | cons c digits ih =>
    rw [Nat.ofDigitChars_cons] at hfits ⊢
    have hstep := scanByte_asciiByte scan (hdigits c List.mem_cons_self)
      (Nat.lt_of_le_of_lt (le_ofDigitChars digits _) hfits)
    have hvalue : (UInt64.ofNat (10 * scan.currentNum.toNat + (c.toNat - '0'.toNat))).toNat =
        10 * scan.currentNum.toNat + (c.toNat - '0'.toNat) :=
      UInt64.toNat_ofNat_of_lt' (Nat.lt_of_le_of_lt (le_ofDigitChars digits _) hfits)
    rw [List.map_cons, List.cons_append, scanBytes, hstep]
    change scanBytes .checked _ (digits.map asciiByte ++ rest) = _
    cases digits with
    | nil => rfl
    | cons c' digits =>
      rw [ih (fun c hc => hdigits c (List.mem_cons_of_mem _ hc)) (List.cons_ne_nil _ _) _
        (by rw [hvalue]; exact hfits), hvalue]

theorem scanByte_timeUnit {unit : UInt64} (hunit : unitMs b = some unit) (ms n : UInt64)
    (hfits : ms.toNat + n.toNat * unit.toNat < 2 ^ 64) :
    scanByte .checked ⟨ms, n, true⟩ b = some (.ok ⟨ms + n * unit, 0, false⟩) := by
  have hdigit : isDigit b = false := not_isDigit_of_isTimeUnit (isTimeUnit_iff.mpr ⟨unit, hunit⟩)
  have hmul : Arithmetic.checked.mul n unit = some (n * unit) := if_pos (by omega)
  have hproduct : (n * unit).toNat = n.toNat * unit.toNat := by
    rw [UInt64.toNat_mul, Nat.mod_eq_of_lt (by omega)]
  have hadd : Arithmetic.checked.add ms (n * unit) = some (ms + n * unit) :=
    if_pos (by rw [hproduct]; exact hfits)
  rw [scanByte, if_neg (by rw [hdigit]; decide), hunit]
  change (Arithmetic.checked.mul n unit >>= _) = _
  rw [hmul]
  change (Arithmetic.checked.add ms (n * unit) >>= _) = _
  rw [hadd]
  rfl

/-- A component that was written is read back; one that was left out counts nothing. -/
theorem scanBytes_component {unit : UInt64} {letter : String} (hletter : bytes letter = [b])
    (hunit : unitMs b = some unit) {written : Prop} [Decidable written] {n : UInt64}
    (hwritten : ¬ written → n = 0) (ms : UInt64) (rest : List UInt8)
    (hfits : ms.toNat + n.toNat * unit.toNat < 2 ^ 64) :
    scanBytes .checked ⟨ms, 0, false⟩
        (bytes (if written then toString n.toNat ++ letter else "") ++ rest) =
      scanBytes .checked ⟨ms + n * unit, 0, false⟩ rest := by
  by_cases h : written
  · have hdigits : ∀ c ∈ Nat.toDigits 10 n.toNat, c.isDigit = true := fun c hc =>
      Nat.isDigit_of_mem_toDigits (by decide) (by decide) hc
    have hvalue : Nat.ofDigitChars 10 (Nat.toDigits 10 n.toNat) 0 = n.toNat :=
      Nat.ofDigitChars_ten_toDigits
    have hread := scanBytes_digits hdigits Nat.toDigits_ne_nil ⟨ms, 0, false⟩ (b :: rest)
      (by change Nat.ofDigitChars 10 (Nat.toDigits 10 n.toNat) 0 < _; rw [hvalue]; exact n.toNat_lt)
    change _ = scanBytes .checked ⟨ms, .ofNat (Nat.ofDigitChars 10 (Nat.toDigits 10 n.toNat) 0),
      true⟩ (b :: rest) at hread
    rw [hvalue, UInt64.ofNat_toNat, scanBytes, scanByte_timeUnit hunit ms n hfits] at hread
    rw [if_pos h, bytes_append, hletter, Nat.toString_eq_ofList_toDigits, bytes_digits hdigits,
      List.append_assoc]
    exact hread
  · rw [if_neg h, hwritten h, UInt64.zero_mul, UInt64.add_zero]
    rfl

theorem parseVaultDuration_of_scanBytes {arithmetic : Arithmetic} {s : String} {ms : UInt64}
    (h : scanBytes arithmetic ⟨0, 0, false⟩ (bytes s) = some (.ok ⟨ms, 0, false⟩)) :
    parseVaultDuration arithmetic s = some (.ok ms) := by
  unfold parseVaultDuration
  split
  · next hempty =>
      obtain rfl := String.isEmpty_iff.mp hempty
      cases h
      rfl
  · rw [h]
    rfl

/-- What does not overflow is the same when sums and products wrap around. -/
theorem scanByte_wrapping {scan : Scan} (h : scanByte .checked scan b = some r) :
    scanByte .wrapping scan b = some r := by
  have hadd : ∀ {x y z}, Arithmetic.checked.add x y = some z → z = x + y := by
    intro x y z hz
    obtain ⟨-, hz⟩ := Option.ite_none_right_eq_some.mp hz
    exact (Option.some.inj hz).symm
  have hmul : ∀ {x y z}, Arithmetic.checked.mul x y = some z → z = x * y := by
    intro x y z hz
    obtain ⟨-, hz⟩ := Option.ite_none_right_eq_some.mp hz
    exact (Option.some.inj hz).symm
  by_cases hdigit : isDigit b = true
  · rw [scanByte, if_pos hdigit] at h ⊢
    obtain ⟨tens, htens, h⟩ := Option.bind_eq_some_iff.mp h
    obtain ⟨currentNum, hcurrentNum, h⟩ := Option.bind_eq_some_iff.mp h
    rw [hmul htens] at hcurrentNum
    rw [hadd hcurrentNum] at h
    exact h
  · rw [scanByte, if_neg hdigit] at h ⊢
    cases hunit : unitMs b with
    | none =>
      rw [hunit] at h
      exact h
    | some unit =>
      rw [hunit] at h
      obtain ⟨part, hpart, h⟩ := Option.bind_eq_some_iff.mp h
      obtain ⟨ms, hms, h⟩ := Option.bind_eq_some_iff.mp h
      rw [hmul hpart] at hms
      rw [hadd hms] at h
      exact h

theorem scanBytes_wrapping : ∀ {scan : Scan} {r : Except String Scan},
    scanBytes .checked scan bs = some r → scanBytes .wrapping scan bs = some r := by
  induction bs with
  | nil => exact fun h => h
  | cons b bs ih =>
    intro scan r h
    obtain ⟨r', hr', h⟩ := Option.bind_eq_some_iff.mp h
    rw [scanBytes, scanByte_wrapping hr']
    cases r' with
    | ok scan' => exact ih h
    | error e => exact h

theorem toNat_add_mul {ms n unit : UInt64} (hfits : ms.toNat + n.toNat * unit.toNat < 2 ^ 64) :
    (ms + n * unit).toNat = ms.toNat + n.toNat * unit.toNat := by
  have hproduct : n.toNat * unit.toNat < 2 ^ 64 := by omega
  rw [UInt64.toNat_add, UInt64.toNat_mul, Nat.mod_eq_of_lt hproduct, Nat.mod_eq_of_lt hfits]

/-- A formatted duration is scanned without overflow to its whole seconds. -/
theorem scanBytes_msToVaultDuration (ms : UInt64) :
    scanBytes .checked ⟨0, 0, false⟩ (bytes (msToVaultDuration ms)) =
      some (.ok ⟨ms - ms % 1000, 0, false⟩) := by
  unfold msToVaultDuration
  split
  · next hzero =>
      subst hzero
      rfl
  · dsimp only
    -- The three parts never add up to more than the milliseconds they come from.
    have hms := ms.toNat_lt
    have hh : (ms / 1000 / 3600).toNat = ms.toNat / 1000 / 3600 := rfl
    have hm : (ms / 1000 % 3600 / 60).toNat = ms.toNat / 1000 % 3600 / 60 := rfl
    have hs : (ms / 1000 % 60).toNat = ms.toNat / 1000 % 60 := rfl
    generalize ms / 1000 / 3600 = h at hh ⊢
    generalize ms / 1000 % 3600 / 60 = m at hm ⊢
    generalize ms / 1000 % 60 = s at hs ⊢
    have hhours : (0 : UInt64).toNat + h.toNat * (3600000 : UInt64).toNat < 2 ^ 64 := by
      change 0 + h.toNat * 3600000 < 2 ^ 64
      omega
    have hminutes : (0 + h * 3600000).toNat + m.toNat * (60000 : UInt64).toNat < 2 ^ 64 := by
      rw [toNat_add_mul hhours]
      change 0 + h.toNat * 3600000 + m.toNat * 60000 < 2 ^ 64
      omega
    have hseconds : (0 + h * 3600000 + m * 60000).toNat + s.toNat * (1000 : UInt64).toNat <
        2 ^ 64 := by
      rw [toNat_add_mul hminutes, toNat_add_mul hhours]
      change 0 + h.toNat * 3600000 + m.toNat * 60000 + s.toNat * 1000 < 2 ^ 64
      omega
    have hsum : 0 + h * 3600000 + m * 60000 + s * 1000 = ms - ms % 1000 := by
      have hle : ms % 1000 ≤ ms := UInt64.le_iff_toNat_le.mpr (Nat.mod_le ms.toNat 1000)
      rw [← UInt64.toNat_inj, toNat_add_mul hseconds, toNat_add_mul hminutes, toNat_add_mul hhours,
        UInt64.toNat_sub_of_le _ _ hle]
      change 0 + h.toNat * 3600000 + m.toNat * 60000 + s.toNat * 1000 = ms.toNat - ms.toNat % 1000
      omega
    have hzero : ∀ {n : UInt64}, ¬ n > 0 → n = 0 := fun hn =>
      UInt64.le_zero_iff.mp (UInt64.not_lt.mp hn)
    rw [bytes_append, bytes_append, List.append_assoc,
      scanBytes_component (b := 104) rfl rfl hzero 0 _ hhours,
      scanBytes_component (b := 109) rfl rfl hzero _ _ hminutes, ← List.append_nil (bytes _),
      scanBytes_component (b := 115) rfl rfl (fun hnot => hzero (not_or.mp hnot).1) _ _ hseconds, hsum]
    rfl

/-- Parsing a formatted duration gives its whole seconds back, and no sum or product overflows. -/
theorem parseVaultDuration_msToVaultDuration (ms : UInt64) :
    parseVaultDuration .checked (msToVaultDuration ms) = some (.ok (ms - ms % 1000)) ∧
      parseVaultDuration .wrapping (msToVaultDuration ms) = some (.ok (ms - ms % 1000)) := by
  have hscan := scanBytes_msToVaultDuration ms
  exact ⟨parseVaultDuration_of_scanBytes hscan,
    parseVaultDuration_of_scanBytes (scanBytes_wrapping hscan)⟩

/-! ## The exact sum -/

/-- The components of a text behind digits that have been read: each byte that is no digit closes
one. -/
def components (digits : List UInt8) : List UInt8 → List (List UInt8 × UInt8)
  | [] => []
  | b :: bs => if isDigit b then components (digits ++ [b]) bs else (digits, b) :: components [] bs

/-- The number that digits write. -/
def number (digits : List UInt8) : ℕ :=
  digits.foldl (fun n b => 10 * n + (b - 48).toNat) 0

def componentMs (component : List UInt8 × UInt8) : ℕ :=
  number component.1 * (unitLength component.2).getD 0

/-- The milliseconds of all components, without a bound on any number. -/
def totalMs : List (List UInt8 × UInt8) → ℕ
  | [] => 0
  | component :: rest => componentMs component + totalMs rest

def exactMs (bs : List UInt8) : ℕ :=
  totalMs (components [] bs)

/-- The state of the wrapping scanner is the exact one modulo `2 ^ 64`. -/
structure Scan.Congruent (scan : Scan) (digits : List UInt8) (total : ℕ) : Prop where
  currentNum : scan.currentNum.toNat = number digits % 2 ^ 64
  ms : scan.ms.toNat = total % 2 ^ 64

theorem number_append (digits : List UInt8) (b : UInt8) :
    number (digits ++ [b]) = 10 * number digits + (b - 48).toNat := by
  rw [number, List.foldl_append]
  rfl

theorem Scan.Congruent.digit {scan : Scan} {total : ℕ} (h : scan.Congruent digits total)
    (b : UInt8) :
    Scan.Congruent { scan with
      currentNum := scan.currentNum * 10 + (b - 48).toUInt64, hasNum := true }
      (digits ++ [b]) total := by
  refine ⟨?_, h.ms⟩
  change (scan.currentNum * 10 + (b - 48).toUInt64).toNat = _
  rw [UInt64.toNat_add, UInt64.toNat_mul, h.currentNum, UInt8.toNat_toUInt64, number_append]
  change (number digits % 2 ^ 64 * 10 % 2 ^ 64 + (b - 48).toNat) % 2 ^ 64 = _
  omega

theorem Scan.Congruent.unit {scan : Scan} {total : ℕ} (h : scan.Congruent digits total)
    {unit : UInt64} (hunit : unitMs b = some unit) :
    Scan.Congruent ⟨scan.ms + scan.currentNum * unit, 0, false⟩ []
      (total + componentMs (digits, b)) := by
  refine ⟨rfl, ?_⟩
  have hcomponent : componentMs (digits, b) = number digits * unit.toNat := by
    rw [componentMs, ← unitMs_toNat, hunit]
    rfl
  change (scan.ms + scan.currentNum * unit).toNat = _
  rw [UInt64.toNat_add, UInt64.toNat_mul, h.ms, h.currentNum, hcomponent, Nat.mod_mul_mod,
    ← Nat.add_mod]

theorem scanBytes_congruent : ∀ {scan scan' : Scan} {digits : List UInt8}
    {total : ℕ}, scan.Congruent digits total →
    scanBytes .wrapping scan bs = some (.ok scan') →
    scan'.ms.toNat = (total + totalMs (components digits bs)) % 2 ^ 64 := by
  induction bs with
  | nil =>
    intro scan scan' digits total h hscan
    cases hscan
    exact h.ms
  | cons b bs ih =>
    intro scan scan' digits total h hscan
    rw [scanBytes, scanByte] at hscan
    by_cases hb : isDigit b = true
    · rw [if_pos hb] at hscan
      rw [components, if_pos hb]
      exact ih (h.digit b) hscan
    · rw [if_neg hb] at hscan
      rw [components, if_neg hb, totalMs, ← Nat.add_assoc]
      cases hunit : unitMs b with
      | none =>
        rw [hunit] at hscan
        cases hscan
      | some unit =>
        rw [hunit] at hscan
        exact ih (h.unit hunit) hscan

theorem scanByte_wrapping_returns (scan : Scan) (b : UInt8) :
    ∃ r, scanByte .wrapping scan b = some r := by
  unfold scanByte
  split
  · exact ⟨_, rfl⟩
  · split <;> exact ⟨_, rfl⟩

theorem scanBytes_wrapping_returns (bs : List UInt8) (scan : Scan) :
    ∃ r, scanBytes .wrapping scan bs = some r := by
  induction bs generalizing scan with
  | nil => exact ⟨_, rfl⟩
  | cons b bs ih =>
    obtain ⟨r, hr⟩ := scanByte_wrapping_returns scan b
    rw [scanBytes, hr]
    cases r with
    | ok scan' => exact ih scan'
    | error e => exact ⟨_, rfl⟩

/-- Arithmetic that wraps around never panics, and an accepted text gives its exact milliseconds
modulo `2 ^ 64`. -/
theorem parseVaultDuration_wrapping (s : String) :
    ∃ r, parseVaultDuration .wrapping s = some r ∧
      ∀ v, r = .ok v → v.toNat = exactMs (bytes s) % 2 ^ 64 := by
  unfold parseVaultDuration
  split
  · next hempty =>
      obtain rfl := String.isEmpty_iff.mp hempty
      refine ⟨_, rfl, fun v hv => ?_⟩
      cases hv
      rfl
  · obtain ⟨r, hr⟩ := scanBytes_wrapping_returns (bytes s) ⟨0, 0, false⟩
    rw [hr]
    cases r with
    | error e =>
      refine ⟨_, rfl, fun v hv => ?_⟩
      cases hv
    | ok scan =>
      refine ⟨_, rfl, fun v hv => ?_⟩
      have hstart : Scan.Congruent ⟨0, 0, false⟩ [] 0 := ⟨rfl, rfl⟩
      have hms := scanBytes_congruent hstart hr
      rw [Nat.zero_add] at hms
      split at hv
      · cases hv
      · cases hv
        exact hms

/-- An accepted text gives its exact milliseconds if and only if it has a fault, so that it is not
accepted, or they fit in 64 bits. -/
theorem parseVaultDuration_exact (s : String) :
    (∀ v, parseVaultDuration .wrapping s = some (.ok v) → v.toNat = exactMs (bytes s)) ↔
      HasFault (bytes s) ∨ exactMs (bytes s) < 2 ^ 64 := by
  obtain ⟨r, hr, hvalue⟩ := parseVaultDuration_wrapping s
  have haccepts : (∃ v, r = .ok v) ↔ ¬ HasFault (bytes s) :=
    (parseVaultDuration_ok_iff hr).trans scannable_iff_not_hasFault
  rw [hr]
  constructor
  · intro h
    by_contra hnot
    obtain ⟨hfault, hbig⟩ := not_or.mp hnot
    obtain ⟨v, rfl⟩ := haccepts.mpr hfault
    have hv := h v rfl
    exact hbig (hv ▸ v.toNat_lt)
  · intro h v hv
    have hok : r = .ok v := Option.some.inj hv
    rcases h with hfault | hfits
    · exact absurd hfault (haccepts.mp ⟨v, hok⟩)
    · rw [hvalue v hok, Nat.mod_eq_of_lt hfits]

theorem parseVaultDuration_exact_seconds :
    parseVaultDuration .wrapping "3h25m19s" = some (.ok 12319000) ∧
      (12319000 : UInt64).toNat = exactMs (bytes "3h25m19s") :=
  ⟨rfl, (parseVaultDuration_exact "3h25m19s").mpr (Or.inr (by decide +kernel)) 12319000 rfl⟩

/-- The digits, a component and the sum of two components can each be too large. -/
theorem parseVaultDuration_wraps :
    (parseVaultDuration .wrapping "18446744073709551616s" = some (.ok 0) ∧
      exactMs (bytes "18446744073709551616s") = 18446744073709551616000) ∧
    (parseVaultDuration .wrapping "5124095576031h" = some (.ok 2048384) ∧
      exactMs (bytes "5124095576031h") = 18446744073711600000) ∧
    (parseVaultDuration .wrapping "5124095576030h3600s" = some (.ok 2048384) ∧
      exactMs (bytes "5124095576030h3600s") = 18446744073711600000) := by
  decide +kernel

end Kallisto.Http
