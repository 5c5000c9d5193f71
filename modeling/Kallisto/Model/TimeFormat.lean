import Mathlib.Algebra.Group.Int.Defs
import Mathlib.Algebra.Group.Nat.Defs
import Mathlib.Data.Int.Init

/-! # Times and durations -/

namespace Kallisto.Http

/-- `{:0width}` of the formatter: zeros between the sign and the digits. -/
def pad (width : ℕ) (n : ℤ) : String :=
  let sign := if n < 0 then "-" else ""
  let digits := toString n.natAbs
  sign ++ .ofList (List.replicate (width - sign.length - digits.length) '0') ++ digits

/-- The civil date of a day counted from 1970-01-01: year, month and day. -/
def civilDate (days : ℕ) : ℤ × ℤ × ℕ :=
  let z : ℤ := days + 719468
  let era := (if z ≥ 0 then z else z - 146096).tdiv 146097
  let doe := (z - era * 146097).toNat
  let yoe := (doe - doe / 1460 + doe / 36524 - doe / 146096) / 365
  let y : ℤ := yoe + era * 400
  let doy := doe - (365 * yoe + yoe / 4 - yoe / 100)
  let mp := (5 * doy + 2) / 153
  let d := doy - (153 * mp + 2) / 5 + 1
  let month : ℤ := mp + (if mp < 10 then 3 else -9)
  let year := y + (if month ≤ 2 then 1 else 0)
  (year, month, d)

def epochMsToRfc3339 (ms : UInt64) : String :=
  if ms = 0 then "1970-01-01T00:00:00Z"
  else
    let totalSecs := ms.toNat / 1000
    let days := totalSecs / 86400
    let remSecs := totalSecs % 86400
    let h := remSecs / 3600
    let m := remSecs % 3600 / 60
    let s := remSecs % 60
    let fractionMs := ms.toNat % 1000
    let (year, month, d) := civilDate days
    let seconds := pad 4 year ++ "-" ++ pad 2 month ++ "-" ++ pad 2 d ++ "T" ++ pad 2 h ++ ":" ++
      pad 2 m ++ ":" ++ pad 2 s
    if fractionMs > 0 then seconds ++ "." ++ pad 3 fractionMs ++ "Z" else seconds ++ "Z"

example : epochMsToRfc3339 1672531200123 = "2023-01-01T00:00:00.123Z" := by decide +kernel

/-! ### Machine arithmetic

The same computation with every result checked against its type; no value stands for a
subtraction that underflows, for any other overflow and for a conversion that truncates. -/

/-- A result or conversion to 32 bits without a sign. -/
def toU32 (n : ℤ) : Option ℕ :=
  if 0 ≤ n ∧ n < 2 ^ 32 then some n.toNat else none

/-- A result or conversion to 64 bits with a sign. -/
def toI64 (n : ℤ) : Option ℤ :=
  if -2 ^ 63 ≤ n ∧ n < 2 ^ 63 then some n else none

/-- The era of a day and the day of the era. -/
def checkedEra (days : ℕ) : Option (ℤ × ℕ) := do
  let signedDays ← toI64 days
  let z ← toI64 (signedDays + 719468)
  let dividend ← (if z ≥ 0 then some z else toI64 (z - 146096) : Option ℤ)
  let era := dividend.tdiv 146097
  let eraStart ← toI64 (era * 146097)
  let offset ← toI64 (z - eraStart)
  let doe ← toU32 offset
  return (era, doe)

/-- The year of the era and the day of the year. -/
def checkedYear (doe : ℕ) : Option (ℕ × ℕ) := do
  let fourths ← toU32 (doe - (doe / 1460 : ℕ))
  let centuries ← toU32 (fourths + doe / 36524 : ℕ)
  let whole ← toU32 (centuries - (doe / 146096 : ℕ))
  let yoe := whole / 365
  let commonDays ← toU32 (365 * yoe : ℕ)
  let leapDays ← toU32 (commonDays + yoe / 4 : ℕ)
  let yearStart ← toU32 (leapDays - (yoe / 100 : ℕ))
  let doy ← toU32 (doe - yearStart)
  return (yoe, doy)

/-- The month counted from March and the day of the month. -/
def checkedMonth (doy : ℕ) : Option (ℕ × ℕ) := do
  let fifths ← toU32 (5 * doy : ℕ)
  let dividend ← toU32 (fifths + 2 : ℕ)
  let mp := dividend / 153
  let months ← toU32 (153 * mp : ℕ)
  let monthStart ← toU32 (months + 2 : ℕ)
  let offset ← toU32 (doy - (monthStart / 5 : ℕ))
  let d ← toU32 (offset + 1 : ℕ)
  return (mp, d)

def checkedCivilDate (days : ℕ) : Option (ℤ × ℤ × ℕ) := do
  let (era, doe) ← checkedEra days
  let (yoe, doy) ← checkedYear doe
  let eraYears ← toI64 (era * 400)
  let y ← toI64 (yoe + eraYears)
  let (mp, d) ← checkedMonth doy
  let month ← toI64 (mp + (if mp < 10 then 3 else -9))
  let year ← toI64 (y + (if month ≤ 2 then 1 else 0))
  return (year, month, d)

/-! ## Durations -/

/-- How sums and products of 64 bits are computed; no value stands for a panic. -/
structure Arithmetic where
  add : UInt64 → UInt64 → Option UInt64
  mul : UInt64 → UInt64 → Option UInt64

/-- Release builds wrap around. -/
def Arithmetic.wrapping : Arithmetic where
  add a b := some (a + b)
  mul a b := some (a * b)

/-- Builds with overflow checks panic. -/
def Arithmetic.checked : Arithmetic where
  add a b := if a.toNat + b.toNat < 2 ^ 64 then some (a + b) else none
  mul a b := if a.toNat * b.toNat < 2 ^ 64 then some (a * b) else none

def bytes (s : String) : List UInt8 :=
  s.toUTF8.data.toList

/-- The state of the scanner. -/
structure Scan where
  ms : UInt64
  currentNum : UInt64
  hasNum : Bool
  deriving DecidableEq

def isDigit (b : UInt8) : Bool :=
  48 ≤ b ∧ b ≤ 57

/-- The milliseconds of the units `h`, `m` and `s`. -/
def unitMs (b : UInt8) : Option UInt64 :=
  if b = 104 then some 3600000
  else if b = 109 then some 60000
  else if b = 115 then some 1000
  else none

/-- One turn of the loop. -/
def scanByte (arithmetic : Arithmetic) (scan : Scan) (b : UInt8) : Option (Except String Scan) :=
  if isDigit b then do
    let tens ← arithmetic.mul scan.currentNum 10
    let currentNum ← arithmetic.add tens (b - 48).toUInt64
    return .ok { scan with currentNum := currentNum, hasNum := true }
  else
    match unitMs b with
    | some unit => do
      let part ← arithmetic.mul scan.currentNum unit
      let ms ← arithmetic.add scan.ms part
      return .ok ⟨ms, 0, false⟩
    | none => some (.error "invalid duration character")

def scanBytes (arithmetic : Arithmetic) (scan : Scan) : List UInt8 → Option (Except String Scan)
  | [] => some (.ok scan)
  | b :: bs => do
    match ← scanByte arithmetic scan b with
    | .ok scan => scanBytes arithmetic scan bs
    | .error e => some (.error e)

def parseVaultDuration (arithmetic : Arithmetic) (s : String) : Option (Except String UInt64) :=
  if s.isEmpty then some (.ok 0)
  else do
    match ← scanBytes arithmetic ⟨0, 0, false⟩ (bytes s) with
    | .ok scan => return if scan.hasNum then .error "missing unit in duration" else .ok scan.ms
    | .error e => return .error e

def msToVaultDuration (ms : UInt64) : String :=
  if ms = 0 then "0s"
  else
    let secs := ms / 1000
    let h := secs / 3600
    let m := secs % 3600 / 60
    let s := secs % 60
    (if h > 0 then toString h.toNat ++ "h" else "") ++
      (if m > 0 then toString m.toNat ++ "m" else "") ++
      if s > 0 ∨ h = 0 ∧ m = 0 then toString s.toNat ++ "s" else ""

example : msToVaultDuration 12319000 = "3h25m19s" := by decide +kernel

end Kallisto.Http
