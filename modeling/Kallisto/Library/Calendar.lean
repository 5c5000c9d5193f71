import Mathlib.Data.Nat.Init
import Mathlib.Tactic.IntervalCases

/-! # The proleptic Gregorian calendar

Dates are counted from the first of January of the year zero. -/

namespace Calendar

def IsLeap (year : ℕ) : Prop :=
  year % 4 = 0 ∧ (year % 100 ≠ 0 ∨ year % 400 = 0)

instance (year : ℕ) : Decidable (IsLeap year) :=
  inferInstanceAs (Decidable (year % 4 = 0 ∧ (year % 100 ≠ 0 ∨ year % 400 = 0)))

def daysInMonth (year month : ℕ) : ℕ :=
  if month = 2 then if IsLeap year then 29 else 28
  else if month = 4 ∨ month = 6 ∨ month = 9 ∨ month = 11 then 30
  else 31

/-- The days of a year before the month, counted from one. -/
def daysBeforeMonth (year : ℕ) : ℕ → ℕ
  | 0 => 0
  | 1 => 0
  | month + 2 => daysBeforeMonth year (month + 1) + daysInMonth year (month + 1)

def daysBeforeYear : ℕ → ℕ
  | 0 => 0
  | year + 1 => daysBeforeYear year + daysBeforeMonth year 13

structure Date where
  year : ℕ
  month : ℕ
  day : ℕ
  month_pos : 1 ≤ month
  month_le : month ≤ 12
  day_pos : 1 ≤ day
  day_le : day ≤ daysInMonth year month

def Date.number (date : Date) : ℕ :=
  daysBeforeYear date.year + daysBeforeMonth date.year date.month + (date.day - 1)

structure DateTime extends Date where
  hour : ℕ
  minute : ℕ
  second : ℕ
  millisecond : ℕ
  hour_lt : hour < 24
  minute_lt : minute < 60
  second_lt : second < 60
  millisecond_lt : millisecond < 1000

/-- 1970-01-01. -/
def epoch : Date where
  year := 1970
  month := 1
  day := 1
  month_pos := by decide
  month_le := by decide
  day_pos := by decide
  day_le := by decide

/-- The milliseconds from the beginning of 1970. -/
def DateTime.millis (time : DateTime) : ℤ :=
  ((time.number : ℤ) - epoch.number) * 86400000 +
    (((time.hour * 60 + time.minute) * 60 + time.second) * 1000 + time.millisecond : ℕ)

/-! ## Years from March to February -/

/-- The days from 0000-03-01 to the first of March of a year. -/
def marchDays (year : ℕ) : ℕ :=
  365 * year + year / 4 - year / 100 + year / 400

theorem marchDays_add_cycles (year cycles : ℕ) :
    marchDays (year + 400 * cycles) = marchDays year + 146097 * cycles := by
  unfold marchDays
  omega

/-- Such a year has the leap day of the next one. -/
theorem marchDays_succ (year : ℕ) :
    marchDays (year + 1) = marchDays year + if IsLeap (year + 1) then 366 else 365 := by
  have hle : year / 100 ≤ 365 * year + year / 4 := by omega
  have hmod : (year + 1) % 400 = 0 → (year + 1) % 100 = 0 := by omega
  have hmod' : (year + 1) % 100 = 0 → (year + 1) % 4 = 0 := by omega
  unfold marchDays
  simp only [Nat.succ_div, Nat.dvd_iff_mod_eq_zero]
  -- from here on the quotients are numbers like any other
  generalize year / 4 = fourths at *
  generalize year / 100 = centuries at *
  generalize year / 400 = cycles at *
  by_cases h : IsLeap (year + 1)
  · rw [if_pos h]
    obtain ⟨h4, h100 | h400⟩ := h
    · rw [if_pos h4, if_neg h100, if_neg fun h400 => h100 (hmod h400)]
      omega
    · rw [if_pos h4, if_pos (hmod h400), if_pos h400]
      omega
  · rw [if_neg h]
    unfold IsLeap at h
    by_cases h4 : (year + 1) % 4 = 0
    · have h100 : (year + 1) % 100 = 0 := by tauto
      have h400 : ¬ (year + 1) % 400 = 0 := by tauto
      rw [if_pos h4, if_pos h100, if_neg h400]
      omega
    · have h100 : ¬ (year + 1) % 100 = 0 := fun h100 => h4 (hmod' h100)
      rw [if_neg h4, if_neg h100, if_neg fun h400 => h100 (hmod h400)]
      omega

theorem daysBeforeMonth_thirteen (year : ℕ) :
    daysBeforeMonth year 13 = if IsLeap year then 366 else 365 := by
  by_cases h : IsLeap year <;> simp [daysBeforeMonth, daysInMonth, h]

theorem daysBeforeYear_succ (year : ℕ) : daysBeforeYear (year + 1) = marchDays year + 366 := by
  induction year with
  | zero => rfl
  | succ year ih =>
    rw [daysBeforeYear, ih, daysBeforeMonth_thirteen, marchDays_succ]
    omega

/-- The first of March. -/
theorem daysBeforeMonth_three (year : ℕ) :
    daysBeforeYear year + daysBeforeMonth year 3 = marchDays year + 60 := by
  cases year with
  | zero => rfl
  | succ year =>
    rw [daysBeforeYear_succ, marchDays_succ]
    by_cases h : IsLeap (year + 1) <;> simp [daysBeforeMonth, daysInMonth, h]

/-- The first ten months count from March as in every year. -/
theorem daysBeforeMonth_march (year : ℕ) {mp : ℕ} (h : mp < 10) :
    daysBeforeMonth year (mp + 3) = daysBeforeMonth year 3 + (153 * mp + 2) / 5 := by
  interval_cases mp <;> simp [daysBeforeMonth, daysInMonth]

theorem daysInMonth_march (year : ℕ) {mp : ℕ} (h : mp < 10) :
    daysInMonth year (mp + 3) = (153 * (mp + 1) + 2) / 5 - (153 * mp + 2) / 5 := by
  interval_cases mp <;> rfl

/-- The month of a day counted from the first of March. -/
theorem march_month (day : ℕ) :
    (153 * ((5 * day + 2) / 153) + 2) / 5 ≤ day ∧
      day < (153 * ((5 * day + 2) / 153 + 1) + 2) / 5 := by
  omega

/-- A day of a year that begins in March, between March and December. -/
def spring (year mp day : ℕ) (hmp : mp < 10)
    (hday : (153 * mp + 2) / 5 ≤ day ∧ day < (153 * (mp + 1) + 2) / 5) : Date where
  year := year
  month := mp + 3
  day := day - (153 * mp + 2) / 5 + 1
  month_pos := by omega
  month_le := by omega
  day_pos := by omega
  day_le := by
    rw [daysInMonth_march year hmp]
    omega

theorem spring_number (year mp day : ℕ) (hmp : mp < 10)
    (hday : (153 * mp + 2) / 5 ≤ day ∧ day < (153 * (mp + 1) + 2) / 5) :
    (spring year mp day hmp hday).number = marchDays year + day + 60 := by
  have hmarch := daysBeforeMonth_three year
  simp only [Date.number, spring, daysBeforeMonth_march year hmp]
  omega

/-- A day of January or February, the last months of a year that begins in March. -/
def winter (year mp day : ℕ) (hmp : mp = 10 ∨ mp = 11)
    (hday : (153 * mp + 2) / 5 ≤ day ∧ day < (153 * (mp + 1) + 2) / 5)
    (hyear : marchDays year + day < marchDays (year + 1)) : Date where
  year := year + 1
  month := mp - 9
  day := day - (153 * mp + 2) / 5 + 1
  month_pos := by omega
  month_le := by omega
  day_pos := by omega
  day_le := by
    rw [marchDays_succ] at hyear
    -- only February is shorter than the rule for the months says
    obtain rfl | rfl := hmp
    · change _ ≤ 31
      omega
    · change _ ≤ if IsLeap (year + 1) then 29 else 28
      split at hyear <;> simp only [*, if_true, if_false] <;> omega

theorem winter_number (year mp day : ℕ) (hmp : mp = 10 ∨ mp = 11)
    (hday : (153 * mp + 2) / 5 ≤ day ∧ day < (153 * (mp + 1) + 2) / 5)
    (hyear : marchDays year + day < marchDays (year + 1)) :
    (winter year mp day hmp hday hyear).number = marchDays year + day + 60 := by
  simp only [Date.number, winter, daysBeforeYear_succ]
  obtain rfl | rfl := hmp
  · change _ + 0 + _ = _
    omega
  · change _ + 31 + _ = _
    omega

theorem epoch_number : epoch.number = 719528 := by
  have hyear : epoch.year = 1969 + 1 := rfl
  rw [Date.number, hyear, daysBeforeYear_succ]
  rfl

end Calendar
