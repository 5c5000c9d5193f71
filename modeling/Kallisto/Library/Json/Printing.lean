import Kallisto.Library.Json.Decoding

/-! # Printing JSON values

Every token has a text, and the texts of the tokens of a value decode to the value. -/

namespace Json

variable {cs : List Char} {c : Char}

/-! ## Numerals -/

section Numerals

theorem forall_isNumberChar_of_dropWhile
    (h : ∀ c ∈ cs.dropWhile Char.isDigit, isNumberChar c = true) :
    ∀ c ∈ cs, isNumberChar c = true := by
  intro c hc
  rw [← List.takeWhile_append_dropWhile (p := Char.isDigit) (l := cs)] at hc
  rcases List.mem_append.mp hc with htake | hdrop
  · simp [isNumberChar, List.mem_takeWhile_imp htake]
  · exact h c hdrop

theorem isNumberChar_of_isDigits (h : isDigits cs = true) : ∀ c ∈ cs, isNumberChar c = true := by
  intro c hc
  have hdigit : c.isDigit = true := by
    cases cs with
    | nil => cases hc
    | cons d ds =>
      simp only [isDigits, Bool.and_eq_true, List.all_eq_true] at h
      rcases List.mem_cons.mp hc with rfl | hc
      · exact h.1
      · exact h.2 c hc
  simp [isNumberChar, hdigit]

theorem isNumberChar_of_isExponent (h : isExponent cs = true) :
    ∀ c ∈ cs, isNumberChar c = true := by
  cases cs with
  | nil => exact fun c hc => by cases hc
  | cons e cs =>
    simp only [isExponent, Bool.and_eq_true, Bool.or_eq_true, decide_eq_true_eq] at h
    obtain ⟨he, hdigits⟩ := h
    rw [List.forall_mem_cons]
    refine ⟨by rcases he with rfl | rfl <;> decide, ?_⟩
    split at hdigits
    · exact List.forall_mem_cons.mpr ⟨by decide, isNumberChar_of_isDigits hdigits⟩
    · exact List.forall_mem_cons.mpr ⟨by decide, isNumberChar_of_isDigits hdigits⟩
    · exact isNumberChar_of_isDigits hdigits

theorem isNumberChar_of_isFraction (h : isFraction cs = true) :
    ∀ c ∈ cs, isNumberChar c = true := by
  unfold isFraction at h
  split at h
  · next d cs =>
      rw [Bool.and_eq_true] at h
      have hrest := forall_isNumberChar_of_dropWhile (isNumberChar_of_isExponent h.2)
      exact List.forall_mem_cons.mpr
        ⟨by decide, List.forall_mem_cons.mpr ⟨by simp [isNumberChar, h.1], hrest⟩⟩
  · exact isNumberChar_of_isExponent h

theorem isNumberChar_of_isMagnitude (h : isMagnitude cs = true) :
    ∀ c ∈ cs, isNumberChar c = true := by
  unfold isMagnitude at h
  split at h
  · cases h
  · exact List.forall_mem_cons.mpr ⟨by decide, isNumberChar_of_isFraction h⟩
  · rw [Bool.and_eq_true] at h
    have hrest := forall_isNumberChar_of_dropWhile (isNumberChar_of_isFraction h.2)
    exact List.forall_mem_cons.mpr ⟨by simp [isNumberChar, h.1], hrest⟩

theorem Numeral.isNumberChar (n : Numeral) : ∀ c ∈ n.text, isNumberChar c = true := by
  obtain ⟨text, valid⟩ := n
  unfold isNumeral at valid
  split at valid
  · exact List.forall_mem_cons.mpr ⟨by decide, isNumberChar_of_isMagnitude valid⟩
  · exact isNumberChar_of_isMagnitude valid

/-- A numeral begins with its sign or a digit. -/
theorem Numeral.head (n : Numeral) :
    ∃ c cs, n.text = c :: cs ∧ (c = '-' ∨ c.isDigit = true) := by
  obtain ⟨text, valid⟩ := n
  unfold isNumeral at valid
  split at valid
  · exact ⟨_, _, rfl, Or.inl rfl⟩
  · unfold isMagnitude at valid
    split at valid
    · cases valid
    · exact ⟨_, _, rfl, Or.inr (by decide)⟩
    · simp only [Bool.and_eq_true] at valid
      exact ⟨_, _, rfl, Or.inr valid.1⟩

theorem digitChar_ne_zero : ∀ d < 10, 0 < d → Nat.digitChar d ≠ '0' := by
  decide

theorem head_toDigits {n : ℕ} (hn : 0 < n) : (Nat.toDigits 10 n).head? ≠ some '0' := by
  induction n using Nat.strongRecOn with
  | ind n ih =>
    by_cases h : n < 10
    · rw [Nat.toDigits_of_lt_base h]
      exact fun heq => digitChar_ne_zero n h hn (Option.some.inj heq)
    · have hquotient := ih (n / 10) (by omega) (by omega)
      rw [Nat.toDigits_of_base_le (by decide) (by omega)]
      cases htext : Nat.toDigits 10 (n / 10) with
      | nil => exact (Nat.toDigits_ne_nil htext).elim
      | cons d ds => rwa [htext] at hquotient

theorem isNumeral_toDigits (n : ℕ) : isNumeral (Nat.toDigits 10 n) = true := by
  have hdigit : ∀ c ∈ Nat.toDigits 10 n, c.isDigit = true :=
    fun c hc => Nat.isDigit_of_mem_toDigits (by decide) (by decide) hc
  rcases Nat.eq_zero_or_pos n with rfl | hn
  · rw [Nat.toDigits_zero]
    decide
  · have hhead := head_toDigits hn
    cases htext : Nat.toDigits 10 n with
    | nil => exact (Nat.toDigits_ne_nil htext).elim
    | cons d ds =>
      rw [htext] at hdigit hhead
      obtain ⟨hd, hds⟩ := List.forall_mem_cons.mp hdigit
      have hrest : ds.dropWhile Char.isDigit = [] := List.dropWhile_eq_nil_iff.mpr hds
      unfold isNumeral
      split
      · next heq =>
          cases heq
          cases hd
      · unfold isMagnitude
        split
        · next heq => cases heq
        · next heq =>
            cases heq
            exact (hhead rfl).elim
        · next heq =>
            cases heq
            rw [hd, hrest]
            rfl

def Numeral.ofNat (n : ℕ) : Numeral :=
  ⟨Nat.toDigits 10 n, isNumeral_toDigits n⟩

end Numerals

/-! ## Tokens -/

def hexChar (d : ℕ) : Char :=
  if d < 10 then .ofNat ('0'.toNat + d) else .ofNat ('a'.toNat + (d - 10))

/-- The text of a character in a string. -/
def escape (c : Char) : List Char :=
  if c = '"' then ['\\', '"']
  else if c = '\\' then ['\\', '\\']
  else if c.toNat < 32 then
    ['\\', 'u', '0', '0', hexChar (c.toNat / 16), hexChar (c.toNat % 16)]
  else [c]

def quoted (cs : List Char) : List Char :=
  '"' :: (cs ++ ['"'])

def Token.text : Token → List Char
  | .openObject => ['\x7b']
  | .closeObject => ['\x7d']
  | .openArray => ['[']
  | .closeArray => [']']
  | .colon => [':']
  | .comma => [',']
  | .null => ['n', 'u', 'l', 'l']
  | .bool true => ['t', 'r', 'u', 'e']
  | .bool false => ['f', 'a', 'l', 's', 'e']
  | .number n => n.text
  | .string s => quoted (s.toList.flatMap escape)

/-- The part that the text of a character is read as. -/
def escapedPart (c : Char) : StringPart :=
  if c.toNat < 32 then .code c.toNat else .char c

theorem hexCode_hexChar : ∀ n < 32, hexCode '0' '0' (hexChar (n / 16)) (hexChar (n % 16)) = some n := by
  decide

theorem readParts_escape_append (c : Char) (cs : List Char) :
    readParts (escape c ++ cs) =
      (readParts cs).map fun r => (escapedPart c :: r.1, r.2) := by
  unfold escape escapedPart
  split
  · next hc =>
      subst hc
      exact readParts_escape rfl cs
  · next hquote =>
      split
      · next hc =>
          subst hc
          exact readParts_escape rfl cs
      · next hslash =>
          split
          · next hlow =>
              simp only [List.cons_append, List.nil_append, readParts_code,
                hexCode_hexChar _ hlow, Option.bind_some]
          · next hlow => exact readParts_plain ⟨hquote, hslash, hlow⟩ cs

theorem readParts_flatMap_escape (cs rest : List Char) :
    readParts (cs.flatMap escape ++ '"' :: rest) = some (cs.map escapedPart, rest) := by
  induction cs with
  | nil => exact readParts_quote rest
  | cons c cs ih =>
    rw [List.flatMap_cons, List.append_assoc, readParts_escape_append, ih]
    rfl

theorem combine_code {n : ℕ} (hn : n < 32) (parts : List StringPart) :
    combine (.code n :: parts) = (combine parts).map (.ofNat n :: ·) := by
  have hhigh : ¬ isHighSurrogate n = true := by simp [isHighSurrogate]; omega
  have hlow : ¬ isLowSurrogate n = true := by simp [isLowSurrogate]; omega
  rw [combine.eq_def]
  dsimp only
  rw [if_neg hhigh, if_neg hlow]

theorem combine_escapedPart (cs : List Char) : combine (cs.map escapedPart) = some cs := by
  induction cs with
  | nil => rfl
  | cons c cs ih =>
    rw [List.map_cons, escapedPart]
    split
    · next hlow => rw [combine_code hlow, ih, Char.ofNat_toNat, Option.map_some]
    · rw [combine, ih, Option.map_some]

/-- The characters of the text stand for themselves in a string. -/
def IsPlainText (s : String) : Prop :=
  ∀ c ∈ s.toList, IsPlain c

instance (s : String) : Decidable (IsPlainText s) :=
  List.decidableBAll IsPlain s.toList

theorem IsPlainText.append {s t : String} (hs : IsPlainText s) (ht : IsPlainText t) :
    IsPlainText (s ++ t) := by
  unfold IsPlainText
  rw [String.toList_append]
  exact List.forall_mem_append.mpr ⟨hs, ht⟩

theorem flatMap_escape_of_plain (h : ∀ c ∈ cs, IsPlain c) : cs.flatMap escape = cs := by
  induction cs with
  | nil => rfl
  | cons c cs ih =>
    obtain ⟨⟨hquote, hslash, hlow⟩, hcs⟩ := List.forall_mem_cons.mp h
    rw [List.flatMap_cons, ih hcs, escape, if_neg hquote, if_neg hslash, if_neg hlow]
    rfl

theorem IsPlainText.text {s : String} (h : IsPlainText s) :
    (Token.string s).text = '"' :: (s.toList ++ ['"']) := by
  rw [Token.text, quoted, flatMap_escape_of_plain h]

theorem readString_quoted (cs rest : List Char) :
    readString (cs.flatMap escape ++ '"' :: rest) = some (.string (.ofList cs), rest) := by
  rw [readString, readParts_flatMap_escape, Option.bind_some, combine_escapedPart, Option.map_some]

variable {t : Token}

theorem lexes_of_readToken (hspace : isSpace c = false) (h : readToken c cs = some (t, [])) :
    Lexes (c :: cs) [t] := by
  rw [Lexes, List.length_cons, lex, if_neg (by simp [hspace]), h, Option.bind_some, lex]
  rfl

theorem isSpace_numeral (h : c = '-' ∨ c.isDigit = true) : isSpace c = false := by
  cases hspace : isSpace c with
  | false => rfl
  | true =>
    simp only [isSpace, Bool.or_eq_true, decide_eq_true_eq] at hspace
    rcases hspace with ((rfl | rfl) | rfl) | rfl <;> exact absurd h (by decide)

theorem readToken_numeral (h : c = '-' ∨ c.isDigit = true) (cs : List Char) :
    readToken c cs = readNumber (c :: cs) := by
  unfold readToken
  split
  case h_11 => rfl
  all_goals exact absurd h (by decide)

theorem Numeral.lexes (n : Numeral) : Lexes n.text [.number n] := by
  obtain ⟨c, cs, htext, hc⟩ := n.head
  have hall : ∀ c' ∈ c :: cs, Json.isNumberChar c' = true := by
    rw [← htext]
    exact n.isNumberChar
  have htake : (c :: cs).takeWhile Json.isNumberChar = c :: cs := List.takeWhile_eq_self_iff.mpr hall
  have hdrop : (c :: cs).dropWhile Json.isNumberChar = [] := List.dropWhile_eq_nil_iff.mpr hall
  have hvalid : isNumeral (c :: cs) = true := by
    rw [← htext]
    exact n.valid
  have hnumber : readNumber (c :: cs) = some (.number n, []) := by
    simp only [readNumber, htake, hdrop, hvalid, dif_pos]
    obtain ⟨text, valid⟩ := n
    cases htext
    rfl
  rw [htext]
  exact lexes_of_readToken (isSpace_numeral hc) ((readToken_numeral hc cs).trans hnumber)

theorem Token.lexes (t : Token) : Lexes t.text [t] := by
  cases t with
  | number n => exact n.lexes
  | string s =>
    refine lexes_of_readToken (by decide) ?_
    change readString _ = _
    rw [readString_quoted, String.ofList_toList]
  | bool b => cases b <;> rfl
  | _ => rfl

theorem Token.lexes_append (t : Token) {b : List Char} {us : List Token} (hb : Lexes b us)
    (hapart : Apart [t] b) : Lexes (t.text ++ b) (t :: us) :=
  t.lexes.append hb hapart

/-! ## Values -/

def printTokens (ts : List Token) : List Char :=
  ts.flatMap Token.text

/-- The text of a value, without whitespace. -/
def print (v : Value Numeral) : String :=
  .ofList (printTokens v.tokens)

theorem printTokens_cons (t : Token) (ts : List Token) :
    printTokens (t :: ts) = t.text ++ printTokens ts :=
  List.flatMap_cons

def Token.isNumber : Token → Bool
  | .number _ => true
  | _ => false

/-- No number stands right behind another one. -/
def separated : List Token → Bool
  | [] => true
  | [_] => true
  | t :: u :: ts => !(t.isNumber && u.isNumber) && separated (u :: ts)

/-- Only numbers begin with a character of a number. -/
theorem Token.head_text (h : t.isNumber = false) (rest : List Char) :
    ∀ c ∈ (t.text ++ rest).head?, isNumberChar c = false := by
  cases t with
  | number n => cases h
  | bool b => cases b <;> exact fun c hc => by cases hc; decide
  | _ => exact fun c hc => by cases hc; decide

theorem apart_printTokens {ts : List Token} (h : separated (t :: ts) = true) :
    Apart [t] (printTokens ts) := by
  cases ht : t.isNumber with
  | false =>
    refine Or.inl fun n hn => ?_
    have heq : t = .number n := Option.some.inj hn
    rw [heq] at ht
    cases ht
  | true =>
    refine Or.inr ?_
    cases ts with
    | nil => exact fun c hc => by cases hc
    | cons u ts =>
      simp only [separated, ht, Bool.true_and, Bool.and_eq_true, Bool.not_eq_true'] at h
      rw [printTokens_cons]
      exact Token.head_text h.1 _

/-- Tokens are read from their texts. -/
theorem lexes_printTokens {ts : List Token} (h : separated ts = true) :
    Lexes (printTokens ts) ts := by
  induction ts with
  | nil => rfl
  | cons t ts ih =>
    have htail : separated ts = true := by
      cases ts with
      | nil => rfl
      | cons u ts =>
        simp only [separated, Bool.and_eq_true] at h
        exact h.2
    rw [printTokens_cons]
    exact t.lexes_append (ih htail) (apart_printTokens h)

theorem apart_itemTokens (ts : List Token) (vs : List (Value Numeral)) :
    Apart ts (printTokens (itemTokens vs)) := by
  refine Or.inr ?_
  cases vs with
  | nil => exact fun c hc => by cases hc; decide
  | cons v vs => exact fun c hc => by cases hc; decide

theorem apart_memberTokens (ts : List Token) (ms : List (String × Value Numeral)) :
    Apart ts (printTokens (memberTokens ms)) := by
  refine Or.inr ?_
  rcases ms with _ | ⟨⟨k, v⟩, ms⟩
  · exact fun c hc => by cases hc; decide
  · exact fun c hc => by cases hc; decide

theorem printTokens_append (ts us : List Token) :
    printTokens (ts ++ us) = printTokens ts ++ printTokens us :=
  List.flatMap_append

mutual

theorem lexes_tokens : ∀ v : Value Numeral, Lexes (printTokens v.tokens) v.tokens
  | .null => rfl
  | .bool true => rfl
  | .bool false => rfl
  | .number n => by simpa [printTokens, Value.tokens, Token.text] using n.lexes
  | .string s => by simpa [printTokens, Value.tokens] using (Token.string s).lexes
  | .array [] => rfl
  | .array (v :: vs) => by
      have hitems := (lexes_tokens v).append (lexes_itemTokens vs) (apart_itemTokens _ vs)
      rw [← printTokens_append] at hitems
      exact Token.openArray.lexes_append hitems (Or.inl (by simp))
  | .object [] => rfl
  | .object ((k, v) :: ms) => by
      have hmembers := (lexes_tokens v).append (lexes_memberTokens ms) (apart_memberTokens _ ms)
      rw [← printTokens_append] at hmembers
      refine Token.openObject.lexes_append ?_ (Or.inl (by simp))
      refine (Token.string k).lexes_append ?_ (Or.inl (by simp))
      exact Token.colon.lexes_append hmembers (Or.inl (by simp))

theorem lexes_itemTokens : ∀ vs : List (Value Numeral),
    Lexes (printTokens (itemTokens vs)) (itemTokens vs)
  | [] => rfl
  | v :: vs => by
      have hitems := (lexes_tokens v).append (lexes_itemTokens vs) (apart_itemTokens _ vs)
      rw [← printTokens_append] at hitems
      exact Token.comma.lexes_append hitems (Or.inl (by simp))

theorem lexes_memberTokens : ∀ ms : List (String × Value Numeral),
    Lexes (printTokens (memberTokens ms)) (memberTokens ms)
  | [] => rfl
  | (k, v) :: ms => by
      have hmembers := (lexes_tokens v).append (lexes_memberTokens ms) (apart_memberTokens _ ms)
      rw [← printTokens_append] at hmembers
      refine Token.comma.lexes_append ?_ (Or.inl (by simp))
      refine (Token.string k).lexes_append ?_ (Or.inl (by simp))
      exact Token.colon.lexes_append hmembers (Or.inl (by simp))

end

theorem decode_print (v : Value Numeral) : decode (print v) = some v := by
  rw [decode_eq_some, print, String.toList_ofList]
  exact lexes_tokens v

end Json
