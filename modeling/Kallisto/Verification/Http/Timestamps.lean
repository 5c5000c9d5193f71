import Kallisto.Library.Rfc3339
import Kallisto.Model.TimeFormat
import Mathlib.Data.Nat.Find
import Mathlib.Order.Monotone.Basic

/-! # Timestamps -/

namespace Kallisto.Http

open Calendar

/-! ## The year of an era -/

/-- The days of an era without its leap days, before the division by 365. -/
def wholeYears (doe : ℕ) : ℕ :=
  doe - doe / 1460 + doe / 36524 - doe / 146096

theorem wholeYears_mono : Monotone wholeYears := by
  refine monotone_nat_of_le_succ fun doe => ?_
  unfold wholeYears
  omega

theorem wholeYears_first : ∀ yoe < 400, wholeYears (marchDays yoe) / 365 = yoe := by
  decide +kernel

theorem wholeYears_last : ∀ yoe < 400, wholeYears (marchDays (yoe + 1) - 1) / 365 = yoe := by
  decide +kernel

/-- The quotient is right on the first and the last day of each year, hence between them. -/
theorem wholeYears_div {doe yoe : ℕ} (h : yoe < 400) (hfirst : marchDays yoe ≤ doe)
    (hlast : doe < marchDays (yoe + 1)) : wholeYears doe / 365 = yoe := by
  refine Nat.le_antisymm ?_ ?_
  · have hmono := wholeYears_mono (Nat.le_sub_one_of_lt hlast)
    exact (Nat.div_le_div_right hmono).trans_eq (wholeYears_last yoe h)
  · have hmono := wholeYears_mono hfirst
    exact (wholeYears_first yoe h).symm.trans_le (Nat.div_le_div_right hmono)

theorem exists_year {doe : ℕ} (h : doe < 146097) :
    ∃ yoe < 400, marchDays yoe ≤ doe ∧ doe < marchDays (yoe + 1) := by
  let yoe := Nat.findGreatest (fun y => marchDays y ≤ doe) 399
  have hle : yoe ≤ 399 := Nat.findGreatest_le 399
  refine ⟨yoe, Nat.lt_succ_of_le hle, ?_, ?_⟩
  · exact Nat.findGreatest_spec (P := fun y => marchDays y ≤ doe) (Nat.zero_le 399)
      (Nat.zero_le doe)
  · rcases Nat.lt_or_ge yoe 399 with hlt | hge
    · exact Nat.lt_of_not_ge (Nat.findGreatest_is_greatest (P := fun y => marchDays y ≤ doe)
        (Nat.lt_succ_self yoe) hlt)
    · rw [Nat.le_antisymm hle hge]
      exact h

/-! ## Machine arithmetic -/

theorem toU32_sub {a b : ℕ} (h : b ≤ a) (ha : a < 2 ^ 32) :
    toU32 ((a : ℤ) - b) = some (a - b) := by
  rw [toU32, if_pos (by omega)]
  exact congrArg some (by omega)

theorem toU32_ofNat {a : ℕ} (ha : a < 2 ^ 32) : toU32 a = some a := by
  rw [toU32, if_pos (by omega)]
  rfl

theorem toI64_eq {n : ℤ} (hlow : -2 ^ 63 ≤ n) (hhigh : n < 2 ^ 63) : toI64 n = some n :=
  if_pos ⟨hlow, hhigh⟩

/-- The era of a day counted from 0000-03-01. -/
theorem tdiv_era (z : ℕ) : (z : ℤ).tdiv 146097 = (z / 146097 : ℕ) := by
  rw [Int.tdiv_eq_ediv_of_nonneg (Int.natCast_nonneg z)]
  rfl

theorem sub_era (z : ℕ) : (z : ℤ) - (z / 146097 : ℕ) * 146097 = (z % 146097 : ℕ) := by
  omega

theorem checkedEra_eq {days z : ℕ} (hz : z = days + 719468) (h : z < 2 ^ 62) :
    checkedEra days = some (((z / 146097 : ℕ) : ℤ), z % 146097) := by
  have hcast : (days : ℤ) + 719468 = z := by omega
  have hdays : toI64 (days : ℤ) = some (days : ℤ) := toI64_eq (by omega) (by omega)
  have hsum : toI64 ((days : ℤ) + 719468) = some (z : ℤ) := by
    rw [hcast]
    exact toI64_eq (by omega) (by omega)
  have hdividend : (if (z : ℤ) ≥ 0 then some (z : ℤ) else toI64 (z - 146096)) = some (z : ℤ) :=
    if_pos (Int.natCast_nonneg z)
  have hstart := toI64_eq (n := (z / 146097 : ℕ) * 146097) (by omega) (by omega)
  have hoffset := toI64_eq (n := (z % 146097 : ℕ)) (by omega) (by omega)
  have hu32 := toU32_ofNat (a := z % 146097) (by omega)
  unfold checkedEra
  refine Option.bind_eq_some_iff.mpr ⟨_, hdays, ?_⟩
  refine Option.bind_eq_some_iff.mpr ⟨_, hsum, ?_⟩
  refine Option.bind_eq_some_iff.mpr ⟨_, hdividend, ?_⟩
  simp only [tdiv_era]
  refine Option.bind_eq_some_iff.mpr ⟨_, hstart, ?_⟩
  rw [sub_era]
  refine Option.bind_eq_some_iff.mpr ⟨_, hoffset, ?_⟩
  exact Option.bind_eq_some_iff.mpr ⟨_, hu32, rfl⟩

theorem checkedYear_eq {doe yoe : ℕ} (h : yoe < 400) (hfirst : marchDays yoe ≤ doe)
    (hlast : doe < marchDays (yoe + 1)) :
    checkedYear doe = some (yoe, doe - marchDays yoe) := by
  have hyear := wholeYears_div h hfirst hlast
  have hstart : 365 * yoe + yoe / 4 - yoe / 100 = marchDays yoe := by
    unfold marchDays
    omega
  have hbound : marchDays (yoe + 1) ≤ 146097 := by
    unfold marchDays
    omega
  have hfourths := toU32_sub (Nat.div_le_self doe 1460) (by omega)
  have hcenturies := toU32_ofNat (a := doe - doe / 1460 + doe / 36524) (by omega)
  have hwhole := toU32_sub (a := doe - doe / 1460 + doe / 36524) (b := doe / 146096) (by omega)
    (by omega)
  have hcommon := toU32_ofNat (a := 365 * yoe) (by omega)
  have hleaps := toU32_ofNat (a := 365 * yoe + yoe / 4) (by omega)
  have hbegin := toU32_sub (a := 365 * yoe + yoe / 4) (b := yoe / 100) (by omega) (by omega)
  have hdoy := toU32_sub hfirst (by omega)
  rw [wholeYears] at hyear
  unfold checkedYear
  refine Option.bind_eq_some_iff.mpr ⟨_, hfourths, ?_⟩
  refine Option.bind_eq_some_iff.mpr ⟨_, hcenturies, ?_⟩
  refine Option.bind_eq_some_iff.mpr ⟨_, hwhole, ?_⟩
  simp only [hyear]
  refine Option.bind_eq_some_iff.mpr ⟨_, hcommon, ?_⟩
  refine Option.bind_eq_some_iff.mpr ⟨_, hleaps, ?_⟩
  refine Option.bind_eq_some_iff.mpr ⟨_, hbegin, ?_⟩
  rw [hstart]
  exact Option.bind_eq_some_iff.mpr ⟨_, hdoy, rfl⟩

theorem checkedMonth_eq {doy mp : ℕ} (hmp : mp = (5 * doy + 2) / 153) (h : doy < 366) :
    checkedMonth doy = some (mp, doy - (153 * mp + 2) / 5 + 1) := by
  have hfifths := toU32_ofNat (a := 5 * doy) (by omega)
  have hdividend := toU32_ofNat (a := 5 * doy + 2) (by omega)
  have hmonths := toU32_ofNat (a := 153 * mp) (by omega)
  have hstart := toU32_ofNat (a := 153 * mp + 2) (by omega)
  have hoffset := toU32_sub (a := doy) (b := (153 * mp + 2) / 5) (by omega) (by omega)
  have hday := toU32_ofNat (a := doy - (153 * mp + 2) / 5 + 1) (by omega)
  unfold checkedMonth
  refine Option.bind_eq_some_iff.mpr ⟨_, hfifths, ?_⟩
  refine Option.bind_eq_some_iff.mpr ⟨_, hdividend, ?_⟩
  simp only [← hmp]
  refine Option.bind_eq_some_iff.mpr ⟨_, hmonths, ?_⟩
  refine Option.bind_eq_some_iff.mpr ⟨_, hstart, ?_⟩
  refine Option.bind_eq_some_iff.mpr ⟨_, hoffset, ?_⟩
  exact Option.bind_eq_some_iff.mpr ⟨_, hday, rfl⟩

/-! ## The civil date -/

/-- A day counted from 0000-03-01 in its year. -/
theorem exists_yearDay (z : ℕ) : ∃ yoe doy : ℕ, yoe < 400 ∧ doy < 366 ∧
    checkedYear (z % 146097) = some (yoe, doy) ∧
    (z % 146097 - z % 146097 / 1460 + z % 146097 / 36524 - z % 146097 / 146096) / 365 = yoe ∧
    z % 146097 - (365 * yoe + yoe / 4 - yoe / 100) = doy ∧
    marchDays (yoe + 400 * (z / 146097)) + doy = z ∧
    z < marchDays (yoe + 400 * (z / 146097) + 1) := by
  have hdoe : z % 146097 < 146097 := Nat.mod_lt z (by decide)
  obtain ⟨yoe, hyoe, hfirst, hlast⟩ := exists_year hdoe
  have hcycles := marchDays_add_cycles yoe (z / 146097)
  have hcycles' := marchDays_add_cycles (yoe + 1) (z / 146097)
  have hstart : 365 * yoe + yoe / 4 - yoe / 100 = marchDays yoe := by
    unfold marchDays
    omega
  have hlength : marchDays (yoe + 1) ≤ marchDays yoe + 366 := by
    rw [marchDays_succ]
    split <;> omega
  have hz : 146097 * (z / 146097) + z % 146097 = z := Nat.div_add_mod z 146097
  refine ⟨yoe, z % 146097 - marchDays yoe, hyoe, by omega, checkedYear_eq hyoe hfirst hlast,
    wholeYears_div hyoe hfirst hlast, by rw [hstart], by omega, ?_⟩
  rw [Nat.add_right_comm yoe, hcycles']
  omega

/-- The date of a day of a year that begins in March, with the month and the year as they are
computed. -/
theorem exists_date {y doy mp : ℕ} (hmp : mp = (5 * doy + 2) / 153) (hdoy : doy < 366)
    (hyear : marchDays y + doy < marchDays (y + 1)) : ∃ date : Date,
    (date.month : ℤ) = mp + (if mp < 10 then 3 else -9) ∧
      (date.year : ℤ) = y + (if (date.month : ℤ) ≤ 2 then 1 else 0) ∧
      date.day = doy - (153 * mp + 2) / 5 + 1 ∧ date.number = marchDays y + doy + 60 := by
  have hday : (153 * mp + 2) / 5 ≤ doy ∧ doy < (153 * (mp + 1) + 2) / 5 := by
    rw [hmp]
    exact march_month doy
  rcases Nat.lt_or_ge mp 10 with hlt | hge
  · refine ⟨spring y mp doy hlt hday, ?_, ?_, rfl, spring_number y mp doy hlt hday⟩
    · rw [if_pos hlt]
      rfl
    · rw [if_neg (by simp only [spring]; omega)]
      simp only [spring]
      omega
  · have hwinter : mp = 10 ∨ mp = 11 := by omega
    refine ⟨winter y mp doy hwinter hday hyear, ?_, ?_, rfl,
      winter_number y mp doy hwinter hday hyear⟩
    · rw [if_neg (by omega)]
      simp only [winter]
      omega
    · rw [if_pos (by simp only [winter]; omega)]
      simp only [winter]
      omega

/-- The year of the date as it is put together from the era. -/
theorem year_cast (yoe era : ℕ) : (yoe : ℤ) + era * 400 = (yoe + 400 * era : ℕ) := by
  omega

theorem checkedCivilDate_eq {days era doe yoe doy mp : ℕ} {date : Date}
    (hera : checkedEra days = some ((era : ℤ), doe)) (hyear : checkedYear doe = some (yoe, doy))
    (hday : checkedMonth doy = some (mp, date.day)) (hsmall : era < 2 ^ 50) (hyoe : yoe < 400)
    (hmonth : (date.month : ℤ) = mp + (if mp < 10 then 3 else -9))
    (hdate : (date.year : ℤ) = (yoe + 400 * era : ℕ) + (if (date.month : ℤ) ≤ 2 then 1 else 0)) :
    checkedCivilDate days = some (↑date.year, ↑date.month, date.day) := by
  have hle := date.month_le
  have heraYears := toI64_eq (n := (era : ℤ) * 400) (by omega) (by omega)
  have hy := toI64_eq (n := (yoe + 400 * era : ℕ)) (by omega) (by omega)
  have hmonth64 := toI64_eq (n := (date.month : ℤ)) (by omega) (by omega)
  have hyear64 : toI64 (date.year : ℤ) = some (date.year : ℤ) := by
    refine toI64_eq (by omega) ?_
    rw [hdate]
    split <;> omega
  unfold checkedCivilDate
  refine Option.bind_eq_some_iff.mpr ⟨_, hera, ?_⟩
  refine Option.bind_eq_some_iff.mpr ⟨_, hyear, ?_⟩
  refine Option.bind_eq_some_iff.mpr ⟨_, heraYears, ?_⟩
  rw [year_cast]
  refine Option.bind_eq_some_iff.mpr ⟨_, hy, ?_⟩
  refine Option.bind_eq_some_iff.mpr ⟨_, hday, ?_⟩
  simp only [← hmonth]
  refine Option.bind_eq_some_iff.mpr ⟨_, hmonth64, ?_⟩
  rw [← hdate]
  exact Option.bind_eq_some_iff.mpr ⟨_, hyear64, rfl⟩

theorem civilDate_eq (days : ℕ) (h : days + 719468 < 2 ^ 61) : ∃ date : Date,
    checkedCivilDate days = some (↑date.year, ↑date.month, date.day) ∧
      civilDate days = (↑date.year, ↑date.month, date.day) ∧
      date.number = days + 719528 := by
  obtain ⟨z, hz⟩ : ∃ z, z = days + 719468 := ⟨_, rfl⟩
  have hcast : (days : ℤ) + 719468 = z := by omega
  have hsmall : z / 146097 < 2 ^ 50 := by omega
  obtain ⟨yoe, doy, hyoe, hdoy, hchecked, hyears, hdays, hsum, hlast⟩ := exists_yearDay z
  obtain ⟨mp, hmp⟩ : ∃ mp, mp = (5 * doy + 2) / 153 := ⟨_, rfl⟩
  obtain ⟨date, hmonth, hyear, hday, hnumber⟩ :=
    exists_date (y := yoe + 400 * (z / 146097)) hmp hdoy (hsum.trans_lt hlast)
  refine ⟨date, ?_, ?_, ?_⟩
  · refine checkedCivilDate_eq (checkedEra_eq hz (hz.trans_lt (h.trans (by decide)))) hchecked ?_
      hsmall hyoe hmonth hyear
    rw [hday]
    exact checkedMonth_eq hmp hdoy
  · simp only [civilDate, hcast, if_pos (Int.natCast_nonneg z), tdiv_era, sub_era, Int.toNat_natCast,
      hyears, hdays, ← hmp, ← hmonth, year_cast, ← hyear, ← hday]
  · rw [hnumber, hsum, hz]

/-! ## The text -/

theorem pad_toList (width n : ℕ) : (pad width n).toList =
    List.replicate (width - (Nat.toDigits 10 n).length) '0' ++ Nat.toDigits 10 n := by
  have hdigits : toString n = .ofList (Nat.toDigits 10 n) := rfl
  have hsign : ¬ (n : ℤ) < 0 := by omega
  simp [pad, hdigits, hsign]

theorem isDigit_pad {width n : ℕ} {c : Char} (h : c ∈ (pad width n).toList) : c.isDigit = true := by
  rw [pad_toList] at h
  rcases List.mem_append.mp h with hzero | hdigit
  · rw [List.eq_of_mem_replicate hzero]
    decide
  · exact Nat.isDigit_of_mem_toDigits (by decide) (by decide) hdigit

theorem numeral_pad (width n : ℕ) (hwidth : 0 < width) (h : n < 10 ^ width) :
    Rfc3339.Numeral width (pad width n).toList n := by
  have hlength := (Nat.length_toDigits_le_iff (by decide) hwidth).mpr h
  refine ⟨?_, fun c hc => isDigit_pad hc, ?_⟩
  · rw [pad_toList, List.length_append, List.length_replicate]
    omega
  · rw [pad_toList, Nat.ofDigitChars_append, Nat.ofDigitChars_replicate_zero, Nat.mul_zero,
      Nat.ofDigitChars_toDigits (by decide) (by decide)]

/-- A civil time as it is written. -/
def timestamp (time : DateTime) : String :=
  let seconds := pad 4 time.year ++ "-" ++ pad 2 time.month ++ "-" ++ pad 2 time.day ++ "T" ++
    pad 2 time.hour ++ ":" ++ pad 2 time.minute ++ ":" ++ pad 2 time.second
  if time.millisecond > 0 then seconds ++ "." ++ pad 3 time.millisecond ++ "Z" else seconds ++ "Z"

theorem parse_timestamp (time : DateTime) (h : time.year < 10000) :
    Rfc3339.parse (timestamp time) = some time.millis := by
  have hday_le : time.day ≤ 31 := by
    have hle := time.day_le
    unfold daysInMonth at hle
    split_ifs at hle <;> omega
  have hmonth_le := time.month_le
  have hhour_lt := time.hour_lt
  have hminute_lt := time.minute_lt
  have hsecond_lt := time.second_lt
  have hdate := Rfc3339.fullDate_append (numeral_pad 4 time.year (by decide) h)
    (numeral_pad 2 time.month (by decide) (by omega))
    (numeral_pad 2 time.day (by decide) (by omega))
  have htime := Rfc3339.wholeTime_append (numeral_pad 2 time.hour (by decide) (by omega))
    (numeral_pad 2 time.minute (by decide) (by omega))
    (numeral_pad 2 time.second (by decide) (by omega))
  unfold timestamp
  by_cases hmilli : time.millisecond > 0
  · have hfraction := (numeral_pad 3 time.millisecond (by decide) time.millisecond_lt).secfrac
    rw [if_pos hmilli]
    rw [← Rfc3339.parse_eq time (hdate _) (htime _) hfraction]
    refine congrArg Rfc3339.parse (String.toList_inj.mp ?_)
    simp
  · have hzero : time.millisecond = 0 := by omega
    have hfraction : Rfc3339.secfrac ['Z'] = some (time.millisecond, ['Z']) := by
      rw [hzero]
      rfl
    rw [if_neg hmilli]
    rw [← Rfc3339.parse_eq time (hdate _) (htime _) hfraction]
    refine congrArg Rfc3339.parse (String.toList_inj.mp ?_)
    simp

/-! ## The civil time of every instant -/

/-- The time of day of a number of milliseconds, on the date of their day. -/
def onDate (date : Date) (ms : ℕ) : DateTime where
  toDate := date
  hour := ms / 1000 % 86400 / 3600
  minute := ms / 1000 % 86400 % 3600 / 60
  second := ms / 1000 % 86400 % 60
  millisecond := ms % 1000
  hour_lt := by omega
  minute_lt := by omega
  second_lt := by omega
  millisecond_lt := by omega

theorem onDate_millis {date : Date} {ms : ℕ} (h : date.number = ms / 1000 / 86400 + 719528) :
    (onDate date ms).millis = ms := by
  simp only [DateTime.millis, onDate, h, epoch_number]
  omega

theorem epochMsToRfc3339_eq {ms : UInt64} {date : Date}
    (h : civilDate (ms.toNat / 1000 / 86400) = (↑date.year, ↑date.month, date.day)) :
    epochMsToRfc3339 ms = timestamp (onDate date ms.toNat) := by
  by_cases hzero : ms = 0
  · subst hzero
    have hepoch : civilDate ((0 : UInt64).toNat / 1000 / 86400) = (1970, 1, 1) := by decide
    rw [hepoch] at h
    obtain ⟨hyear, hmonth, hday⟩ : (1970 : ℤ) = date.year ∧ (1 : ℤ) = date.month ∧ 1 = date.day := by
      simpa using h
    simp only [timestamp, onDate, ← hyear, ← hmonth, ← hday]
    decide +kernel
  · simp only [epochMsToRfc3339, if_neg hzero, h]
    rfl

theorem timestamp_toList (time : DateTime) :
    ∃ rest, (timestamp time).toList = (pad 4 time.year).toList ++ '-' :: rest := by
  have hdash : "-".toList = ['-'] := rfl
  unfold timestamp
  dsimp only
  split
  · simp only [String.toList_append, List.append_assoc, hdash, List.singleton_append]
    exact ⟨_, rfl⟩
  · simp only [String.toList_append, List.append_assoc, hdash, List.singleton_append]
    exact ⟨_, rfl⟩

/-- A timestamp begins with digits and a dash. -/
theorem epochMsToRfc3339_toList (ms : UInt64) : ∃ digits rest, digits ≠ [] ∧
    (∀ c ∈ digits, c.isDigit = true) ∧ (epochMsToRfc3339 ms).toList = digits ++ '-' :: rest := by
  have hms := ms.toNat_lt
  obtain ⟨date, -, hcivil, -⟩ := civilDate_eq (ms.toNat / 1000 / 86400) (by omega)
  obtain ⟨rest, hrest⟩ := timestamp_toList (onDate date ms.toNat)
  refine ⟨(pad 4 date.year).toList, rest, ?_, fun c hc => isDigit_pad hc, ?_⟩
  · rw [pad_toList]
    exact List.append_ne_nil_of_right_ne_nil _ Nat.toDigits_ne_nil
  · rw [epochMsToRfc3339_eq hcivil, hrest]
    rfl

/-- The fields of a timestamp are a civil time at the given distance from 1970, computed without
underflow or truncation, and up to the year 9999 the text is read back. -/
theorem epochMsToRfc3339_civil (ms : UInt64) : ∃ time : DateTime,
    checkedCivilDate (ms.toNat / 1000 / 86400) = some (↑time.year, ↑time.month, time.day) ∧
      civilDate (ms.toNat / 1000 / 86400) = (↑time.year, ↑time.month, time.day) ∧
      time.hour = ms.toNat / 1000 % 86400 / 3600 ∧
      time.minute = ms.toNat / 1000 % 86400 % 3600 / 60 ∧
      time.second = ms.toNat / 1000 % 86400 % 60 ∧
      time.millisecond = ms.toNat % 1000 ∧
      time.millis = ms.toNat ∧
      epochMsToRfc3339 ms = timestamp time ∧
      (time.year < 10000 → Rfc3339.parse (epochMsToRfc3339 ms) = some (ms.toNat : ℤ)) := by
  have hms := ms.toNat_lt
  obtain ⟨date, hchecked, hcivil, hnumber⟩ :=
    civilDate_eq (ms.toNat / 1000 / 86400) (by omega)
  have hmillis := onDate_millis hnumber
  have htext := epochMsToRfc3339_eq hcivil
  refine ⟨onDate date ms.toNat, hchecked, hcivil, rfl, rfl, rfl, rfl, hmillis, htext, ?_⟩
  intro hyear
  rw [htext, parse_timestamp _ hyear, hmillis]

theorem epochMsToRfc3339_civil_leapDay :
    epochMsToRfc3339 1709164800123 = "2024-02-29T00:00:00.123Z" ∧
      Rfc3339.parse (epochMsToRfc3339 1709164800123) = some 1709164800123 := by
  refine ⟨by decide +kernel, ?_⟩
  obtain ⟨time, -, hcivil, -, -, -, -, -, -, hparse⟩ := epochMsToRfc3339_civil 1709164800123
  have hdate : civilDate ((1709164800123 : UInt64).toNat / 1000 / 86400) = (2024, 2, 29) := by
    decide +kernel
  have hyear : (2024 : ℤ) = time.year := congrArg Prod.fst (hdate.symm.trans hcivil)
  exact hparse (by omega)

end Kallisto.Http
