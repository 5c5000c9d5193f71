import Kallisto.Library.Calendar

/-! # Timestamps of RFC 3339

`date-time = full-date "T" partial-time time-offset`, read into milliseconds from the beginning of
1970. Digits of the fraction after the third one are dropped, and leap seconds are rejected. -/

namespace Rfc3339

open Calendar

/-- A number of exactly the given count of digits. -/
def number : ℕ → ℕ → List Char → Option (ℕ × List Char)
  | 0, n, cs => some (n, cs)
  | _ + 1, _, [] => none
  | count + 1, n, c :: cs =>
    if c.isDigit then number count (10 * n + (c.toNat - '0'.toNat)) cs else none

def literal (c : Char) : List Char → Option (List Char)
  | [] => none
  | c' :: cs => if c' = c then some cs else none

/-- The milliseconds of the digits of a fraction. -/
def fraction (digits : List Char) : ℕ :=
  Nat.ofDigitChars 10 ((digits ++ ['0', '0', '0']).take 3) 0

/-- `[time-secfrac]`. -/
def secfrac : List Char → Option (ℕ × List Char)
  | '.' :: cs =>
    let digits := cs.takeWhile Char.isDigit
    if digits = [] then none else some (fraction digits, cs.dropWhile Char.isDigit)
  | cs => some (0, cs)

/-- `time-offset` at the end of the text, in minutes. -/
def offset : List Char → Option ℤ
  | ['Z'] => some 0
  | ['z'] => some 0
  | sign :: cs => do
    let (hour, cs) ← number 2 0 cs
    let cs ← literal ':' cs
    let (minute, cs) ← number 2 0 cs
    if cs ≠ [] ∨ 24 ≤ hour ∨ 60 ≤ minute then none
    else if sign = '+' then some ((hour * 60 + minute : ℕ) : ℤ)
    else if sign = '-' then some (-((hour * 60 + minute : ℕ) : ℤ))
    else none
  | [] => none

/-- Only the fields of a civil time give one. -/
def civil (year month day hour minute second millisecond : ℕ) : Option DateTime :=
  if hdate : (1 ≤ month ∧ month ≤ 12) ∧ 1 ≤ day ∧ day ≤ daysInMonth year month then
    if htime : (hour < 24 ∧ minute < 60) ∧ second < 60 ∧ millisecond < 1000 then
      some ⟨⟨year, month, day, hdate.1.1, hdate.1.2, hdate.2.1, hdate.2.2⟩, hour, minute, second,
        millisecond, htime.1.1, htime.1.2, htime.2.1, htime.2.2⟩
    else none
  else none

/-- `full-date`: year, month and day. -/
def fullDate (cs : List Char) : Option ((ℕ × ℕ × ℕ) × List Char) := do
  let (year, cs) ← number 4 0 cs
  let cs ← literal '-' cs
  let (month, cs) ← number 2 0 cs
  let cs ← literal '-' cs
  let (day, cs) ← number 2 0 cs
  return ((year, month, day), cs)

/-- `time-hour ":" time-minute ":" time-second`. -/
def wholeTime (cs : List Char) : Option ((ℕ × ℕ × ℕ) × List Char) := do
  let (hour, cs) ← number 2 0 cs
  let cs ← literal ':' cs
  let (minute, cs) ← number 2 0 cs
  let cs ← literal ':' cs
  let (second, cs) ← number 2 0 cs
  return ((hour, minute, second), cs)

def parse (s : String) : Option ℤ := do
  let ((year, month, day), cs) ← fullDate s.toList
  let cs ← (literal 'T' cs).or (literal 't' cs)
  let ((hour, minute, second), cs) ← wholeTime cs
  let (millisecond, cs) ← secfrac cs
  let minutes ← offset cs
  let time ← civil year month day hour minute second millisecond
  return time.millis - minutes * 60000

/-! ## Reading a written time -/

/-- Digits of a fixed width and their number. -/
structure Numeral (width : ℕ) (digits : List Char) (n : ℕ) : Prop where
  length_eq : digits.length = width
  isDigit : ∀ c ∈ digits, c.isDigit = true
  value : Nat.ofDigitChars 10 digits 0 = n

theorem number_append {digits : List Char} (h : ∀ c ∈ digits, c.isDigit = true) (n : ℕ)
    (rest : List Char) :
    number digits.length n (digits ++ rest) = some (Nat.ofDigitChars 10 digits n, rest) := by
  induction digits generalizing n with
  | nil => rfl
  | cons c digits ih =>
    rw [List.length_cons, List.cons_append, number, if_pos (h c List.mem_cons_self),
      ih fun c' hc' => h c' (List.mem_cons_of_mem c hc'), Nat.ofDigitChars_cons]

theorem Numeral.number {width n : ℕ} {digits : List Char} (h : Numeral width digits n)
    (rest : List Char) : number width 0 (digits ++ rest) = some (n, rest) := by
  rw [← h.length_eq, number_append h.isDigit, h.value]

@[simp]
theorem literal_cons (c : Char) (cs : List Char) : literal c (c :: cs) = some cs :=
  if_pos rfl

theorem Numeral.secfrac {n : ℕ} {digits : List Char} (h : Numeral 3 digits n) :
    secfrac ('.' :: (digits ++ ['Z'])) = some (n, ['Z']) := by
  have hne : digits ≠ [] := List.ne_nil_of_length_pos (by rw [h.length_eq]; decide)
  have htake : (digits ++ ['0', '0', '0']).take 3 = digits := by
    rw [← h.length_eq, List.take_left]
  have hdigits : (digits ++ ['Z']).takeWhile Char.isDigit = digits := by
    rw [List.takeWhile_append_of_pos h.isDigit]
    exact List.append_nil digits
  have hrest : (digits ++ ['Z']).dropWhile Char.isDigit = ['Z'] := by
    rw [List.dropWhile_append_of_pos h.isDigit]
    rfl
  simp only [Rfc3339.secfrac, hdigits, hrest, if_neg hne, fraction, htake, h.value]

theorem civil_eq (time : DateTime) :
    civil time.year time.month time.day time.hour time.minute time.second time.millisecond =
      some time := by
  rw [civil, dif_pos ⟨⟨time.month_pos, time.month_le⟩, time.day_pos, time.day_le⟩,
    dif_pos ⟨⟨time.hour_lt, time.minute_lt⟩, time.second_lt, time.millisecond_lt⟩]

theorem fullDate_append {y m d : ℕ} {year month day : List Char} (hyear : Numeral 4 year y)
    (hmonth : Numeral 2 month m) (hday : Numeral 2 day d) (rest : List Char) :
    fullDate (year ++ '-' :: (month ++ '-' :: (day ++ rest))) = some ((y, m, d), rest) := by
  simp [fullDate, hyear.number, hmonth.number, hday.number]

theorem wholeTime_append {h m s : ℕ} {hour minute second : List Char} (hhour : Numeral 2 hour h)
    (hminute : Numeral 2 minute m) (hsecond : Numeral 2 second s) (rest : List Char) :
    wholeTime (hour ++ ':' :: (minute ++ ':' :: (second ++ rest))) = some ((h, m, s), rest) := by
  simp [wholeTime, hhour.number, hminute.number, hsecond.number]

theorem parse_eq (time : DateTime) {text rest rest' : List Char}
    (hdate : fullDate text = some ((time.year, time.month, time.day), 'T' :: rest))
    (htime : wholeTime rest = some ((time.hour, time.minute, time.second), rest'))
    (hfraction : secfrac rest' = some (time.millisecond, ['Z'])) :
    parse (.ofList text) = some time.millis := by
  have hoffset : offset ['Z'] = some 0 := rfl
  simp [parse, hdate, htime, hfraction, hoffset, civil_eq]

end Rfc3339
