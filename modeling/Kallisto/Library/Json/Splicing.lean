import Kallisto.Library.Json.Printing

/-! # Texts put between quotes

What is read from a text that was put into a JSON text as it is. -/

namespace Json

variable {n : ℕ} {ts : List Token} {c : Char} {cs rest rest' : List Char} {parts : List StringPart}
  {s : String} {digits : List Char}

/-! ## The text before -/

/-- The tokens of a known beginning are read first. -/
theorem lex_append_cancel {m : ℕ} {a b : List Char} {us : List Token} (ha : lex n a = some us)
    (hapart : Apart us b) (h : lex m (a ++ b) = some ts) :
    ∃ ts' m', ts = us ++ ts' ∧ lex m' b = some ts' := by
  induction n generalizing a us m ts with
  | zero =>
    cases a with
    | nil =>
      cases ha
      exact ⟨ts, m, rfl, h⟩
    | cons c cs => cases ha
  | succ n ih =>
    cases a with
    | nil =>
      cases ha
      exact ⟨ts, m, rfl, h⟩
    | cons c cs =>
      cases m with
      | zero => cases h
      | succ m =>
        rw [lex] at ha
        rw [List.cons_append, lex] at h
        split at ha
        · next hspace =>
            rw [if_pos hspace] at h
            exact ih ha hapart h
        · next hspace =>
            rw [if_neg hspace] at h
            obtain ⟨⟨t, rest⟩, hr, hrest⟩ := Option.bind_eq_some_iff.mp ha
            obtain ⟨us', hus, rfl⟩ := Option.map_eq_some_iff.mp hrest
            rw [readToken_append (hapart.ends hus) hr, Option.bind_some] at h
            obtain ⟨ts', hts, rfl⟩ := Option.map_eq_some_iff.mp h
            obtain ⟨ts'', m', rfl, hb⟩ := ih hus hapart.tail hts
            exact ⟨ts'', m', rfl, hb⟩

/-! ## Strings -/

/-- A character before the first quote. -/
theorem cons_eq_append_quote {a : List Char} (h : c :: cs = a ++ '"' :: rest) (hc : c ≠ '"') :
    ∃ a', a = c :: a' ∧ cs = a' ++ '"' :: rest := by
  cases a with
  | nil => exact absurd (List.cons.inj h).1 hc
  | cons c' a =>
    obtain ⟨rfl, rfl⟩ := List.cons.inj h
    exact ⟨a, rfl, rfl⟩

theorem hexCode_ne_quote {h₁ h₂ h₃ h₄ : Char} (h : hexCode h₁ h₂ h₃ h₄ = some n) :
    (h₁ ≠ '"' ∧ h₂ ≠ '"') ∧ h₃ ≠ '"' ∧ h₄ ≠ '"' := by
  have hquote : hexDigit '"' = none := by decide
  refine ⟨⟨?_, ?_⟩, ?_, ?_⟩
  · rintro rfl
    simp [hexCode, hquote] at h
  · rintro rfl
    simp [hexCode, hquote] at h
  · rintro rfl
    simp [hexCode, hquote] at h
  · rintro rfl
    simp [hexCode, hquote] at h

/-- A string is read from a text before a quote: it ends there with no more parts than the text
has characters, or a quote is among its first parts. -/
inductive Reads (a rest : List Char) (parts : List StringPart) (rest' : List Char) : Prop where
  | closes : rest' = rest → parts.length ≤ a.length →
      (parts.length = a.length → ∀ c ∈ a, IsPlain c) → Reads a rest parts rest'
  | passes (i : ℕ) : i < a.length → parts[i]? = some (.char '"') → Reads a rest parts rest'

/-- An escape takes at least two characters for one part. -/
theorem Reads.escape {a a' : List Char} (part : StringPart) (h : Reads a' rest parts rest')
    (hlength : a'.length + 2 ≤ a.length) : Reads a rest (part :: parts) rest' := by
  cases h with
  | closes hrest hle _ =>
    refine .closes hrest ?_ fun heq => ?_
    · rw [List.length_cons]
      omega
    · rw [List.length_cons] at heq
      omega
  | passes i hi hpart => exact .passes (i + 1) (by omega) hpart

theorem Reads.plain {a : List Char} (h : Reads a rest parts rest') (hc : IsPlain c) :
    Reads (c :: a) rest (.char c :: parts) rest' := by
  cases h with
  | closes hrest hle hplain =>
    refine .closes hrest (Nat.succ_le_succ hle) fun heq => ?_
    exact List.forall_mem_cons.mpr ⟨hc, hplain (Nat.succ.inj heq)⟩
  | passes i hi hpart => exact .passes (i + 1) (Nat.succ_lt_succ hi) hpart

theorem readParts_reads {text a : List Char} (h : readParts text = some (parts, rest'))
    (htext : text = a ++ '"' :: rest) (ha : '"' ∉ a) : Reads a rest parts rest' := by
  fun_induction readParts text generalizing a parts rest' with
  | case1 => cases h
  | case2 cs =>
    cases h
    cases a with
    | nil =>
      obtain ⟨-, rfl⟩ := List.cons.inj htext
      exact .closes rfl (Nat.le_refl 0) fun _ c hc => absurd hc List.not_mem_nil
    | cons c a =>
      obtain ⟨rfl, -⟩ := List.cons.inj htext
      exact absurd List.mem_cons_self ha
  | case3 h₁ h₂ h₃ h₄ cs hne ih =>
    obtain ⟨n, hn, hparts⟩ := Option.bind_eq_some_iff.mp h
    obtain ⟨⟨parts', rest''⟩, hr, heq⟩ := Option.map_eq_some_iff.mp hparts
    cases heq
    obtain ⟨⟨hh₁, hh₂⟩, hh₃, hh₄⟩ := hexCode_ne_quote hn
    obtain ⟨a₁, rfl, htext₁⟩ := cons_eq_append_quote htext (by decide)
    obtain ⟨a₂, rfl, htext₂⟩ := cons_eq_append_quote htext₁ (by decide)
    obtain ⟨a₃, rfl, htext₃⟩ := cons_eq_append_quote htext₂ hh₁
    obtain ⟨a₄, rfl, htext₄⟩ := cons_eq_append_quote htext₃ hh₂
    obtain ⟨a₅, rfl, htext₅⟩ := cons_eq_append_quote htext₄ hh₃
    obtain ⟨a₆, rfl, htext₆⟩ := cons_eq_append_quote htext₅ hh₄
    simp only [List.mem_cons, not_or] at ha
    refine (ih hr htext₆ ha.2.2.2.2.2.2).escape (.code n) ?_
    simp only [List.length_cons]
    omega
  | case4 e cs hne hne' ih =>
    obtain ⟨c, hc, hparts⟩ := Option.bind_eq_some_iff.mp h
    obtain ⟨⟨parts', rest''⟩, hr, heq⟩ := Option.map_eq_some_iff.mp hparts
    cases heq
    obtain ⟨a₁, rfl, htext₁⟩ := cons_eq_append_quote htext (by decide)
    by_cases he : e = '"'
    · subst he
      obtain rfl := Option.some.inj hc
      exact .passes 0 (Nat.zero_lt_succ _) rfl
    · obtain ⟨a₂, rfl, htext₂⟩ := cons_eq_append_quote htext₁ he
      simp only [List.mem_cons, not_or] at ha
      exact (ih hr htext₂ ha.2.2).escape (.char c) (Nat.le_refl _)
  | case5 => cases h
  | case6 => cases h
  | case7 c cs hquote hslash hlow ih =>
    obtain ⟨⟨parts', rest''⟩, hr, heq⟩ := Option.map_eq_some_iff.mp h
    cases heq
    obtain ⟨a₁, rfl, htext₁⟩ := cons_eq_append_quote htext hquote
    exact (ih hr htext₁ fun hmem => ha (List.mem_cons_of_mem c hmem)).plain
      ⟨hquote, hslash, hlow⟩

/-! ## The characters of a string -/

theorem length_le_of_combine (h : combine parts = some cs) : cs.length ≤ parts.length := by
  fun_induction combine parts generalizing cs with
  | case1 =>
    cases h
    exact Nat.le_refl 0
  | case2 c parts ih =>
    obtain ⟨cs', hcs, rfl⟩ := Option.map_eq_some_iff.mp h
    exact Nat.succ_le_succ (ih hcs)
  | case3 n hhigh m rest hlow ih =>
    obtain ⟨cs', hcs, rfl⟩ := Option.map_eq_some_iff.mp h
    have hle := ih hcs
    simp only [List.length_cons]
    omega
  | case4 => cases h
  | case5 => cases h
  | case6 => cases h
  | case7 n parts hhigh hlow ih =>
    obtain ⟨cs', hcs, rfl⟩ := Option.map_eq_some_iff.mp h
    exact Nat.succ_le_succ (ih hcs)

/-- A character of its own comes out at its place or, after pairs, before it. -/
theorem combine_char {i : ℕ} (hcs : combine parts = some cs) (h : parts[i]? = some (.char c)) :
    ∃ j ≤ i, cs[j]? = some c := by
  fun_induction combine parts generalizing cs i with
  | case1 => simp at h
  | case2 c' parts ih =>
    obtain ⟨cs', hcs', rfl⟩ := Option.map_eq_some_iff.mp hcs
    cases i with
    | zero =>
      simp at h
      exact ⟨0, Nat.le_refl 0, by simp [h]⟩
    | succ i =>
      obtain ⟨j, hj, hc⟩ := ih hcs' (by simpa using h)
      exact ⟨j + 1, Nat.succ_le_succ hj, by simpa using hc⟩
  | case3 n hhigh m rest hlow ih =>
    obtain ⟨cs', hcs', rfl⟩ := Option.map_eq_some_iff.mp hcs
    rcases i with _ | _ | i
    · simp at h
    · simp at h
    · obtain ⟨j, hj, hc⟩ := ih hcs' (by simpa using h)
      exact ⟨j + 1, by omega, by simpa using hc⟩
  | case4 => cases hcs
  | case5 => cases hcs
  | case6 => cases hcs
  | case7 n parts hhigh hlow ih =>
    obtain ⟨cs', hcs', rfl⟩ := Option.map_eq_some_iff.mp hcs
    cases i with
    | zero => simp at h
    | succ i =>
      obtain ⟨j, hj, hc⟩ := ih hcs' (by simpa using h)
      exact ⟨j + 1, Nat.succ_le_succ hj, by simpa using hc⟩

/-- A text with a quote in it is never read as itself. -/
theorem Reads.combine_ne {a b : List Char} (h : Reads a rest parts rest') (ha : '"' ∉ a) :
    combine parts ≠ some (a ++ '"' :: b) := by
  intro heq
  cases h with
  | closes _ hle _ =>
    have hlength := length_le_of_combine heq
    rw [List.length_append, List.length_cons] at hlength
    omega
  | passes i hi hpart =>
    obtain ⟨j, hj, hc⟩ := combine_char heq hpart
    rw [List.getElem?_append_left (by omega)] at hc
    exact ha (List.mem_of_getElem? hc)

/-- A text between quotes is read as itself only if its characters stand for themselves. -/
theorem readParts_self (h : readParts (cs ++ '"' :: rest) = some (parts, rest'))
    (hself : combine parts = some cs) : (∀ c ∈ cs, IsPlain c) ∧ rest' = rest := by
  by_cases hquote : '"' ∈ cs
  · obtain ⟨a, b, rfl, ha⟩ := List.eq_append_cons_of_mem hquote
    rw [List.append_assoc] at h
    exact absurd hself ((readParts_reads h rfl ha).combine_ne ha)
  · have hlength := length_le_of_combine hself
    cases readParts_reads h rfl hquote with
    | closes hrest hle hplain => exact ⟨hplain (Nat.le_antisymm hle hlength), hrest⟩
    | passes i hi hpart =>
      obtain ⟨j, -, hc⟩ := combine_char hself hpart
      exact absurd (List.mem_of_getElem? hc) hquote

theorem quote_mem_of_readParts {text : List Char} (h : readParts text = some (parts, rest)) :
    '"' ∈ text := by
  fun_induction readParts text generalizing parts rest with
  | case1 => cases h
  | case2 cs => exact List.mem_cons_self
  | case3 h₁ h₂ h₃ h₄ cs hne ih =>
    obtain ⟨n, -, hparts⟩ := Option.bind_eq_some_iff.mp h
    obtain ⟨r, hr, -⟩ := Option.map_eq_some_iff.mp hparts
    simp [ih hr]
  | case4 e cs hne hne' ih =>
    obtain ⟨c, -, hparts⟩ := Option.bind_eq_some_iff.mp h
    obtain ⟨r, hr, -⟩ := Option.map_eq_some_iff.mp hparts
    simp [ih hr]
  | case5 => cases h
  | case6 => cases h
  | case7 c cs hquote hslash hlow ih =>
    obtain ⟨r, hr, -⟩ := Option.map_eq_some_iff.mp h
    exact List.mem_cons_of_mem c (ih hr)

/-- A text that is not closed by a quote is never read as itself. -/
theorem readParts_unclosed (hrest : '"' ∉ rest)
    (h : readParts (cs ++ rest) = some (parts, rest')) : combine parts ≠ some cs := by
  rcases List.mem_append.mp (quote_mem_of_readParts h) with hquote | hquote
  · obtain ⟨a, b, rfl, ha⟩ := List.eq_append_cons_of_mem hquote
    rw [List.append_assoc, List.cons_append] at h
    exact (readParts_reads h rfl ha).combine_ne ha
  · exact absurd hquote hrest

/-! ## Tokens -/

theorem lex_string (h : lex n ('"' :: cs) = some (.string s :: ts)) : ∃ parts rest m,
    readParts cs = some (parts, rest) ∧ combine parts = some s.toList ∧ lex m rest = some ts := by
  cases n with
  | zero => cases h
  | succ n =>
    rw [lex, if_neg (by decide)] at h
    obtain ⟨⟨t, rest⟩, hr, hrest⟩ := Option.bind_eq_some_iff.mp h
    obtain ⟨ts', hts, heq⟩ := Option.map_eq_some_iff.mp hrest
    obtain ⟨rfl, rfl⟩ := List.cons.inj heq
    obtain ⟨⟨parts, rest'⟩, hparts, hcombine⟩ := Option.bind_eq_some_iff.mp hr
    obtain ⟨cs', hcs, heq'⟩ := Option.map_eq_some_iff.mp hcombine
    obtain ⟨hstring, rfl⟩ := Prod.mk.inj heq'
    obtain rfl := Token.string.inj hstring
    exact ⟨parts, rest', n, hparts, by rw [hcs, String.toList_ofList], hts⟩

/-- A string between quotes as it is. -/
theorem lex_quoted (h : lex n ('"' :: (s.toList ++ '"' :: rest)) = some (.string s :: ts)) :
    IsPlainText s ∧ ∃ m, lex m rest = some ts := by
  obtain ⟨parts, rest', m, hparts, hself, hrest⟩ := lex_string h
  obtain ⟨hplain, rfl⟩ := readParts_self hparts hself
  exact ⟨hplain, m, hrest⟩

/-- A string without its closing quote. -/
theorem lex_unclosed (hrest : '"' ∉ rest) :
    lex n ('"' :: (s.toList ++ rest)) ≠ some (.string s :: ts) := by
  intro h
  obtain ⟨parts, rest', -, hparts, hself, -⟩ := lex_string h
  exact readParts_unclosed hrest hparts hself

/-! ## What is no token -/

theorem lex_ne_some (hspace : isSpace c = false) (h : readToken c cs = none) (n : ℕ)
    (ts : List Token) : lex n (c :: cs) ≠ some ts := by
  cases n with
  | zero => exact fun h => by cases h
  | succ n =>
    rw [lex, if_neg (by simp [hspace]), h, Option.bind_none]
    exact fun h => by cases h

theorem isFraction_dash (h : ∀ c ∈ digits, c.isDigit = true) (rest : List Char) :
    isFraction (digits ++ '-' :: rest) = false := by
  cases digits with
  | nil => simp [isFraction, isExponent]
  | cons d digits =>
    have hd : d.isDigit = true := h d List.mem_cons_self
    have hdot : d ≠ '.' := by
      rintro rfl
      exact absurd hd (by decide)
    have he : d ≠ 'e' := by
      rintro rfl
      exact absurd hd (by decide)
    have hE : d ≠ 'E' := by
      rintro rfl
      exact absurd hd (by decide)
    rw [List.cons_append]
    unfold isFraction
    split
    · next heq => exact absurd (List.cons.inj heq).1 hdot
    · simp [isExponent, he, hE]

/-- Digits with a dash behind them are no number. -/
theorem isNumeral_dash (hne : digits ≠ []) (h : ∀ c ∈ digits, c.isDigit = true)
    (rest : List Char) : isNumeral (digits ++ '-' :: rest) = false := by
  cases digits with
  | nil => exact absurd rfl hne
  | cons d digits =>
    obtain ⟨hd, hdigits⟩ := List.forall_mem_cons.mp h
    have hdrop : (digits ++ '-' :: rest).dropWhile Char.isDigit = '-' :: rest := by
      rw [List.dropWhile_append_of_pos hdigits]
      rfl
    have hdash : isFraction ('-' :: rest) = false :=
      isFraction_dash (fun c hc => absurd hc List.not_mem_nil) rest
    rw [List.cons_append]
    unfold isNumeral
    split
    · next heq =>
        obtain ⟨rfl, -⟩ := List.cons.inj heq
        exact absurd hd (by decide)
    · unfold isMagnitude
      split
      · rfl
      · next heq =>
          obtain ⟨-, rfl⟩ := List.cons.inj heq
          exact isFraction_dash hdigits rest
      · next heq =>
          obtain ⟨-, rfl⟩ := List.cons.inj heq
          rw [hdrop, hdash,
            Bool.and_false]

theorem lex_dash (hne : digits ≠ []) (h : ∀ c ∈ digits, c.isDigit = true) (rest : List Char)
    (n : ℕ) (ts : List Token) : lex n (digits ++ '-' :: rest) ≠ some ts := by
  have htake : (digits ++ '-' :: rest).takeWhile isNumberChar =
      digits ++ '-' :: rest.takeWhile isNumberChar := by
    rw [List.takeWhile_append_of_pos fun c hc => by simp [isNumberChar, h c hc],
      List.takeWhile_cons_of_pos (by decide)]
  have hread : readNumber (digits ++ '-' :: rest) = none := by
    rw [readNumber, dif_neg]
    rw [htake, isNumeral_dash hne h]
    exact Bool.false_ne_true
  cases digits with
  | nil => exact absurd rfl hne
  | cons d digits =>
    have hd : d = '-' ∨ d.isDigit = true := Or.inr (h d List.mem_cons_self)
    exact lex_ne_some (isSpace_numeral hd) ((readToken_numeral hd _).trans hread) n ts

/-! ## Values -/

theorem lex_comma {t : Token} (h : lex n (',' :: cs) = some (t :: ts)) :
    ∃ m, lex m cs = some ts := by
  have hcomma : lex 1 [','] = some [.comma] := rfl
  obtain ⟨ts', m, heq, hrest⟩ := lex_append_cancel hcomma (Or.inl fun n hn => by cases hn) h
  obtain ⟨-, rfl⟩ := List.cons.inj heq
  exact ⟨m, hrest⟩

/-- Only an object begins with a brace and a name. -/
theorem tokens_eq_openObject {v : Value Numeral} {r : List Token} {name : String}
    (h : v.tokens ++ r = .openObject :: .string name :: .colon :: ts) :
    ∃ w ms, v = .object ((name, w) :: ms) ∧ w.tokens ++ (memberTokens ms ++ r) = ts := by
  match v with
  | .null | .bool _ | .number _ | .string _ => simp [Value.tokens] at h
  | .array [] | .array (_ :: _) | .object [] => simp [Value.tokens] at h
  | .object ((k, w) :: ms) =>
    simp only [Value.tokens, List.cons_append, List.cons.injEq, Token.string.injEq, true_and,
      List.append_assoc] at h
    obtain ⟨rfl, hrest⟩ := h
    exact ⟨w, ms, rfl, hrest⟩

end Json
