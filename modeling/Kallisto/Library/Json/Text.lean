import Kallisto.Library.Json.Value
import Mathlib.Data.Nat.Digits.Defs

/-! # JSON texts

The grammar of RFC 8259 in two layers: a text is a sequence of tokens with whitespace
between them, and every value has one sequence of tokens. -/

namespace Json

/-! ## Numerals -/

def isNumberChar (c : Char) : Bool :=
  c.isDigit || c = '-' || c = '+' || c = '.' || c = 'e' || c = 'E'

def isDigits : List Char → Bool
  | [] => false
  | c :: cs => c.isDigit && cs.all Char.isDigit

def isExponent : List Char → Bool
  | [] => true
  | c :: cs =>
    (c = 'e' || c = 'E') &&
      match cs with
      | '+' :: rest => isDigits rest
      | '-' :: rest => isDigits rest
      | _ => isDigits cs

def isFraction : List Char → Bool
  | '.' :: c :: cs => c.isDigit && isExponent (cs.dropWhile Char.isDigit)
  | cs => isExponent cs

/-- A number without its sign; it has no leading zero. -/
def isMagnitude : List Char → Bool
  | [] => false
  | '0' :: cs => isFraction cs
  | c :: cs => c.isDigit && isFraction (cs.dropWhile Char.isDigit)

def isNumeral : List Char → Bool
  | '-' :: cs => isMagnitude cs
  | cs => isMagnitude cs

/-- A number as it is written. -/
structure Numeral where
  text : List Char
  valid : isNumeral text = true
  deriving DecidableEq

/-! ## Strings -/

/-- The parts of a string: a character that stands for itself or has a short escape, and
a four-digit escape. -/
inductive StringPart where
  | char (c : Char)
  | code (n : ℕ)

def unescape : Char → Option Char
  | '"' => some '"'
  | '\\' => some '\\'
  | '/' => some '/'
  | 'b' => some '\x08'
  | 'f' => some '\x0c'
  | 'n' => some '\n'
  | 'r' => some '\r'
  | 't' => some '\t'
  | _ => none

def hexDigit (c : Char) : Option ℕ :=
  if c.isDigit then some (c.toNat - '0'.toNat)
  else if 'a' ≤ c ∧ c ≤ 'f' then some (c.toNat - 'a'.toNat + 10)
  else if 'A' ≤ c ∧ c ≤ 'F' then some (c.toNat - 'A'.toNat + 10)
  else none

def hexCode (a b c d : Char) : Option ℕ := do
  return (((← hexDigit a) * 16 + (← hexDigit b)) * 16 + (← hexDigit c)) * 16 + (← hexDigit d)

/-- The parts of a string after its opening quote, and what follows the closing one. -/
def readParts : List Char → Option (List StringPart × List Char)
  | [] => none
  | c :: cs =>
    if c = '"' then some ([], cs)
    else if c = '\\' then
      match cs with
      | 'u' :: h₁ :: h₂ :: h₃ :: h₄ :: rest =>
        (hexCode h₁ h₂ h₃ h₄).bind fun n => (readParts rest).map fun r => (.code n :: r.1, r.2)
      | e :: rest =>
        (unescape e).bind fun c => (readParts rest).map fun r => (.char c :: r.1, r.2)
      | [] => none
    else if c.toNat < 32 then none
    else (readParts cs).map fun r => (.char c :: r.1, r.2)

def isHighSurrogate (n : ℕ) : Bool :=
  0xD800 ≤ n ∧ n ≤ 0xDBFF

def isLowSurrogate (n : ℕ) : Bool :=
  0xDC00 ≤ n ∧ n ≤ 0xDFFF

/-- The characters of a string. A surrogate without its partner stands for none, so a string
with one is not read. -/
def combine : List StringPart → Option (List Char)
  | [] => some []
  | .char c :: parts => (combine parts).map (c :: ·)
  | .code n :: parts =>
    if isHighSurrogate n then
      match parts with
      | .code m :: rest =>
        if isLowSurrogate m then
          (combine rest).map (.ofNat (0x10000 + (n - 0xD800) * 0x400 + (m - 0xDC00)) :: ·)
        else none
      | _ => none
    else if isLowSurrogate n then none
    else (combine parts).map (.ofNat n :: ·)

/-! ## Tokens -/

inductive Token where
  | openObject
  | closeObject
  | openArray
  | closeArray
  | colon
  | comma
  | null
  | bool (b : Bool)
  | number (n : Numeral)
  | string (s : String)
  deriving DecidableEq

def stripWord : List Char → List Char → Option (List Char)
  | [], cs => some cs
  | _ :: _, [] => none
  | w :: word, c :: cs => if w = c then stripWord word cs else none

def readWord (word : List Char) (t : Token) (cs : List Char) : Option (Token × List Char) :=
  (stripWord word cs).map fun rest => (t, rest)

def readString (cs : List Char) : Option (Token × List Char) :=
  (readParts cs).bind fun r => (combine r.1).map fun s => (.string (.ofList s), r.2)

def readNumber (cs : List Char) : Option (Token × List Char) :=
  if h : isNumeral (cs.takeWhile isNumberChar) = true then
    some (.number ⟨cs.takeWhile isNumberChar, h⟩, cs.dropWhile isNumberChar)
  else none

/-- The token that begins with a character, and what follows it. -/
def readToken (c : Char) (cs : List Char) : Option (Token × List Char) :=
  match c with
  | '{' => some (.openObject, cs)
  | '}' => some (.closeObject, cs)
  | '[' => some (.openArray, cs)
  | ']' => some (.closeArray, cs)
  | ':' => some (.colon, cs)
  | ',' => some (.comma, cs)
  | 'n' => readWord ['u', 'l', 'l'] .null cs
  | 't' => readWord ['r', 'u', 'e'] (.bool true) cs
  | 'f' => readWord ['a', 'l', 's', 'e'] (.bool false) cs
  | '"' => readString cs
  | _ => readNumber (c :: cs)

def isSpace (c : Char) : Bool :=
  c = ' ' || c = '\t' || c = '\n' || c = '\r'

/-- The tokens of a text, read in at most the given number of steps. -/
def lex : ℕ → List Char → Option (List Token)
  | _, [] => some []
  | 0, _ :: _ => none
  | n + 1, c :: cs =>
    if isSpace c then lex n cs
    else (readToken c cs).bind fun r => (lex n r.2).map (r.1 :: ·)

/-- The text is a sequence of tokens. -/
def Lexes (cs : List Char) (ts : List Token) : Prop :=
  lex cs.length cs = some ts

/-! ## The tokens of a value -/

mutual

def Value.tokens : Value Numeral → List Token
  | .null => [.null]
  | .bool b => [.bool b]
  | .number n => [.number n]
  | .string s => [.string s]
  | .array [] => [.openArray, .closeArray]
  | .array (v :: vs) => .openArray :: (v.tokens ++ itemTokens vs)
  | .object [] => [.openObject, .closeObject]
  | .object ((k, v) :: ms) =>
    .openObject :: .string k :: .colon :: (v.tokens ++ memberTokens ms)
termination_by structural v => v

/-- The further items of an array and its end. -/
def itemTokens : List (Value Numeral) → List Token
  | [] => [.closeArray]
  | v :: vs => .comma :: (v.tokens ++ itemTokens vs)
termination_by structural vs => vs

/-- The further members of an object and its end. -/
def memberTokens : List (String × Value Numeral) → List Token
  | [] => [.closeObject]
  | (k, v) :: ms => .comma :: .string k :: .colon :: (v.tokens ++ memberTokens ms)
termination_by structural ms => ms

end

mutual

/-- The value at the head of a token sequence, and what follows it. -/
def parse : ℕ → List Token → Option (Value Numeral × List Token)
  | 0, _ => none
  | _ + 1, .null :: ts => some (.null, ts)
  | _ + 1, .bool b :: ts => some (.bool b, ts)
  | _ + 1, .number n :: ts => some (.number n, ts)
  | _ + 1, .string s :: ts => some (.string s, ts)
  | _ + 1, .openArray :: .closeArray :: ts => some (.array [], ts)
  | n + 1, .openArray :: ts =>
    (parse n ts).bind fun r => (parseItems n r.2).map fun r' => (.array (r.1 :: r'.1), r'.2)
  | _ + 1, .openObject :: .closeObject :: ts => some (.object [], ts)
  | n + 1, .openObject :: .string k :: .colon :: ts =>
    (parse n ts).bind fun r =>
      (parseMembers n r.2).map fun r' => (.object ((k, r.1) :: r'.1), r'.2)
  | _ + 1, _ => none
termination_by structural n => n

def parseItems : ℕ → List Token → Option (List (Value Numeral) × List Token)
  | _ + 1, .closeArray :: ts => some ([], ts)
  | n + 1, .comma :: ts =>
    (parse n ts).bind fun r => (parseItems n r.2).map fun r' => (r.1 :: r'.1, r'.2)
  | _, _ => none
termination_by structural n => n

def parseMembers : ℕ → List Token → Option (List (String × Value Numeral) × List Token)
  | _ + 1, .closeObject :: ts => some ([], ts)
  | n + 1, .comma :: .string k :: .colon :: ts =>
    (parse n ts).bind fun r => (parseMembers n r.2).map fun r' => ((k, r.1) :: r'.1, r'.2)
  | _, _ => none
termination_by structural n => n

end

def parseTokens (ts : List Token) : Option (Value Numeral) :=
  match parse ts.length ts with
  | some (v, []) => some v
  | _ => none

/-- The value of a text, if the text is well-formed. -/
def decode (text : String) : Option (Value Numeral) :=
  (lex text.toList.length text.toList).bind parseTokens

end Json
