import Kallisto.Library.Json.Text
import Mathlib.Data.List.TakeWhile

/-! # Decoding JSON texts

Texts of tokens can be put together, and a text has a value exactly when its tokens are
those of the value. -/

namespace Json

variable {t : Token} {ts : List Token}

/-! ## Strings -/

/-- A character that stands for itself in a string. -/
def IsPlain (c : Char) : Prop :=
  c ≠ '"' ∧ c ≠ '\\' ∧ ¬ c.toNat < 32

instance (c : Char) : Decidable (IsPlain c) :=
  inferInstanceAs (Decidable (c ≠ '"' ∧ c ≠ '\\' ∧ ¬ c.toNat < 32))

theorem readParts_quote (cs : List Char) : readParts ('"' :: cs) = some ([], cs) := by
  rw [readParts.eq_def]
  rfl

theorem readParts_code (h₁ h₂ h₃ h₄ : Char) (rest : List Char) :
    readParts ('\\' :: 'u' :: h₁ :: h₂ :: h₃ :: h₄ :: rest) =
      (hexCode h₁ h₂ h₃ h₄).bind fun n =>
        (readParts rest).map fun r => (.code n :: r.1, r.2) := by
  rw [readParts.eq_def]
  rfl

theorem readParts_escape {e c : Char} (h : unescape e = some c) (rest : List Char) :
    readParts ('\\' :: e :: rest) = (readParts rest).map fun r => (.char c :: r.1, r.2) := by
  rw [readParts.eq_def]
  dsimp only
  rw [if_neg (by decide), if_pos rfl]
  split
  · next heq =>
      obtain ⟨rfl, _⟩ := List.cons.inj heq
      cases h
  · next heq =>
      obtain ⟨rfl, rfl⟩ := List.cons.inj heq
      rw [h]
      rfl
  · next heq => cases heq

theorem readParts_plain {c : Char} (hc : IsPlain c) (cs : List Char) :
    readParts (c :: cs) = (readParts cs).map fun r => (.char c :: r.1, r.2) := by
  rw [readParts.eq_def]
  simp only [hc.1, hc.2.1, hc.2.2, if_false]

theorem readParts_append {cs rest : List Char} {parts : List StringPart} (ds : List Char)
    (h : readParts cs = some (parts, rest)) :
    readParts (cs ++ ds) = some (parts, rest ++ ds) := by
  fun_induction readParts cs generalizing parts rest with
  | case1 => cases h
  | case2 cs =>
    cases h
    exact readParts_quote _
  | case3 h₁ h₂ h₃ h₄ cs hne ih =>
    obtain ⟨n, hn, hparts⟩ := Option.bind_eq_some_iff.mp h
    obtain ⟨r, hr, heq⟩ := Option.map_eq_some_iff.mp hparts
    cases heq
    simp only [List.cons_append, readParts_code, hn, Option.bind_some, ih hr, Option.map_some]
  | case4 e cs hne hne' ih =>
    obtain ⟨c, hc, hparts⟩ := Option.bind_eq_some_iff.mp h
    obtain ⟨r, hr, heq⟩ := Option.map_eq_some_iff.mp hparts
    cases heq
    simp only [List.cons_append, readParts_escape hc, ih hr, Option.map_some]
  | case5 => cases h
  | case6 => cases h
  | case7 c cs hquote hslash hlow ih =>
    obtain ⟨r, hr, heq⟩ := Option.map_eq_some_iff.mp h
    cases heq
    rw [List.cons_append, readParts_plain ⟨hquote, hslash, hlow⟩, ih hr]
    rfl

/-! ## Tokens -/

theorem stripWord_append {word cs rest : List Char} (ds : List Char)
    (h : stripWord word cs = some rest) : stripWord word (cs ++ ds) = some (rest ++ ds) := by
  induction word generalizing cs with
  | nil =>
    obtain rfl := Option.some.inj h
    rfl
  | cons w word ih =>
    cases cs with
    | nil => cases h
    | cons c cs =>
      rw [stripWord] at h
      split at h
      · next hw =>
          rw [List.cons_append, stripWord, if_pos hw]
          exact ih h
      · cases h

theorem readWord_append {word cs rest : List Char} {t' : Token} (ds : List Char)
    (h : readWord word t cs = some (t', rest)) :
    readWord word t (cs ++ ds) = some (t', rest ++ ds) := by
  obtain ⟨rest', hrest, heq⟩ := Option.map_eq_some_iff.mp h
  cases heq
  rw [readWord, stripWord_append ds hrest]
  rfl

theorem takeWhile_dropWhile_append {p : Char → Bool} {cs ds : List Char}
    (h : cs.dropWhile p = [] → ∀ c ∈ ds.head?, p c = false) :
    (cs ++ ds).takeWhile p = cs.takeWhile p ∧ (cs ++ ds).dropWhile p = cs.dropWhile p ++ ds := by
  induction cs with
  | nil =>
    have hds := h rfl
    cases ds with
    | nil => exact ⟨rfl, rfl⟩
    | cons d ds =>
      have hd : p d = false := hds d rfl
      simp [hd]
  | cons c cs ih =>
    cases hc : p c with
    | false => simp [hc]
    | true =>
      have hih := ih (by simpa [hc] using h)
      simpa [hc] using hih

theorem readNumber_append {cs ds rest : List Char}
    (hds : rest = [] → ∀ c ∈ ds.head?, isNumberChar c = false)
    (h : readNumber cs = some (t, rest)) : readNumber (cs ++ ds) = some (t, rest ++ ds) := by
  unfold readNumber at h ⊢
  split at h
  · next hvalid =>
      cases h
      obtain ⟨htake, hdrop⟩ := takeWhile_dropWhile_append hds
      simp only [htake, hdrop, hvalid, dif_pos]
  · cases h

theorem readToken_append {c : Char} {cs ds rest : List Char}
    (hds : rest = [] → (∃ n, t = .number n) → ∀ c ∈ ds.head?, isNumberChar c = false)
    (h : readToken c cs = some (t, rest)) : readToken c (cs ++ ds) = some (t, rest ++ ds) := by
  unfold readToken at h ⊢
  split at h
  · cases h; rfl
  · cases h; rfl
  · cases h; rfl
  · cases h; rfl
  · cases h; rfl
  · cases h; rfl
  · exact readWord_append ds h
  · exact readWord_append ds h
  · exact readWord_append ds h
  · obtain ⟨r, hr, hstring⟩ := Option.bind_eq_some_iff.mp h
    obtain ⟨s, hs, heq⟩ := Option.map_eq_some_iff.mp hstring
    cases heq
    rw [readString, readParts_append ds hr, Option.bind_some, hs]
    rfl
  · refine readNumber_append (fun hrest => hds hrest ?_) h
    unfold readNumber at h
    split at h
    · cases h
      exact ⟨_, rfl⟩
    · cases h

/-! ## Texts -/

theorem lex_mono {n m : ℕ} {cs : List Char} (h : lex n cs = some ts) (hnm : n ≤ m) :
    lex m cs = some ts := by
  induction n generalizing m cs ts with
  | zero =>
    cases cs with
    | nil => rwa [lex] at h ⊢
    | cons c cs => cases h
  | succ n ih =>
    obtain ⟨m, rfl⟩ : ∃ m', m = m' + 1 := ⟨m - 1, by omega⟩
    cases cs with
    | nil => rwa [lex] at h ⊢
    | cons c cs =>
      rw [lex] at h ⊢
      split
      · next hspace =>
          rw [if_pos hspace] at h
          exact ih h (by omega)
      · next hspace =>
          rw [if_neg hspace] at h
          obtain ⟨r, hr, hrest⟩ := Option.bind_eq_some_iff.mp h
          obtain ⟨ts', hts, rfl⟩ := Option.map_eq_some_iff.mp hrest
          rw [hr, Option.bind_some, ih hts (by omega)]
          rfl

/-- A number at the end of the first text is not continued by the second. -/
def Apart (ts : List Token) (b : List Char) : Prop :=
  (∀ n, ts.getLast? ≠ some (.number n)) ∨ ∀ c ∈ b.head?, isNumberChar c = false

theorem Apart.tail {b : List Char} (h : Apart (t :: ts) b) : Apart ts b := by
  cases ts with
  | nil => exact Or.inl fun n hn => by cases hn
  | cons t' ts => exact h

/-- A number that ends the first text is its last token. -/
theorem Apart.ends {n : ℕ} {rest b : List Char} (h : Apart (t :: ts) b)
    (hts : lex n rest = some ts) :
    rest = [] → (∃ n, t = .number n) → ∀ c ∈ b.head?, isNumberChar c = false := by
  rintro rfl ⟨number, rfl⟩
  rw [lex] at hts
  cases hts
  exact h.resolve_left fun hlast => hlast number rfl

theorem lex_append {n m : ℕ} {a b : List Char} {us : List Token} (ha : lex n a = some ts)
    (hb : lex m b = some us) (hapart : Apart ts b) : lex (n + m) (a ++ b) = some (ts ++ us) := by
  induction n generalizing a ts with
  | zero =>
    cases a with
    | nil =>
      cases ha
      exact lex_mono hb (Nat.le_add_left _ _)
    | cons c cs => cases ha
  | succ n ih =>
    cases a with
    | nil =>
      cases ha
      exact lex_mono hb (Nat.le_add_left _ _)
    | cons c cs =>
      rw [lex] at ha
      rw [Nat.succ_add, List.cons_append, lex]
      split at ha
      · next hspace =>
          rw [if_pos hspace]
          exact ih ha hapart
      · next hspace =>
          rw [if_neg hspace]
          obtain ⟨⟨t, rest⟩, hr, hrest⟩ := Option.bind_eq_some_iff.mp ha
          obtain ⟨ts', hts, rfl⟩ := Option.map_eq_some_iff.mp hrest
          rw [readToken_append (hapart.ends hts) hr, Option.bind_some, ih hts hapart.tail]
          rfl

theorem Lexes.append {a b : List Char} {us : List Token} (ha : Lexes a ts) (hb : Lexes b us)
    (hapart : Apart ts b) : Lexes (a ++ b) (ts ++ us) := by
  have h := lex_append ha hb hapart
  rwa [← List.length_append] at h

/-! ## Values -/

theorem parse_openArray {n : ℕ} (h : ∀ ts', ts ≠ .closeArray :: ts') :
    parse (n + 1) (.openArray :: ts) =
      (parse n ts).bind fun r =>
        (parseItems n r.2).map fun r' => (.array (r.1 :: r'.1), r'.2) := by
  rw [parse]
  exact h

theorem Value.tokens_ne_close (v : Value Numeral) (r ts : List Token) :
    v.tokens ++ r ≠ .closeArray :: ts := by
  intro h
  match v with
  | .null | .bool _ | .number _ | .string _ => simp [Value.tokens] at h
  | .array [] | .array (_ :: _) | .object [] | .object ((_, _) :: _) => simp [Value.tokens] at h

/-- A value is read, then what goes with it. -/
theorem sequence_eq_some {α β γ : Type} {x : Option (α × List Token)}
    {f : List Token → Option (β × List Token)} {g : α → β → γ} {c : γ} {r : List Token}
    (h : (x.bind fun y => (f y.2).map fun z => (g y.1 z.1, z.2)) = some (c, r)) :
    ∃ a ts b, x = some (a, ts) ∧ f ts = some (b, r) ∧ c = g a b := by
  obtain ⟨⟨a, ts⟩, hx, hrest⟩ := Option.bind_eq_some_iff.mp h
  obtain ⟨⟨b, r'⟩, hf, heq⟩ := Option.map_eq_some_iff.mp hrest
  cases heq
  exact ⟨a, ts, b, hx, hf, rfl⟩

/-- What is read is a value, items or members with their tokens. -/
theorem parse_sound (n : ℕ) :
    (∀ ts v r, parse n ts = some (v, r) → ts = v.tokens ++ r) ∧
    (∀ ts vs r, parseItems n ts = some (vs, r) → ts = itemTokens vs ++ r) ∧
    (∀ ts ms r, parseMembers n ts = some (ms, r) → ts = memberTokens ms ++ r) := by
  induction n with
  | zero =>
    refine ⟨?_, ?_, ?_⟩
    · exact fun _ _ _ h => by cases h
    · exact fun _ _ _ h => by cases h
    · exact fun _ _ _ h => by cases h
  | succ n ih =>
    obtain ⟨ihValue, ihItems, ihMembers⟩ := ih
    refine ⟨?_, ?_, ?_⟩
    · intro ts v r h
      rw [parse.eq_def] at h
      split at h
      · next heq => cases heq
      · cases h
        rfl
      · cases h
        rfl
      · cases h
        rfl
      · cases h
        rfl
      · cases h
        rfl
      · next n' ts' hne heq =>
          cases heq
          obtain ⟨w, ts₁, ws, hw, hws, rfl⟩ :=
            sequence_eq_some (g := fun w ws => Value.array (w :: ws)) h
          simp [Value.tokens, ihValue _ _ _ hw, ihItems _ _ _ hws]
      · cases h
        rfl
      · next n' k ts' heq =>
          cases heq
          obtain ⟨w, ts₁, ws, hw, hws, rfl⟩ :=
            sequence_eq_some (g := fun w ws => Value.object ((k, w) :: ws)) h
          simp [Value.tokens, ihValue _ _ _ hw, ihMembers _ _ _ hws]
      · cases h
    · intro ts vs r h
      rw [parseItems.eq_def] at h
      split at h
      · cases h
        rfl
      · next n' ts' heq =>
          cases heq
          obtain ⟨w, ts₁, ws, hw, hws, rfl⟩ := sequence_eq_some h
          simp [itemTokens, ihValue _ _ _ hw, ihItems _ _ _ hws]
      · cases h
    · intro ts ms r h
      rw [parseMembers.eq_def] at h
      split at h
      · cases h
        rfl
      · next n' k ts' heq =>
          cases heq
          obtain ⟨w, ts₁, ws, hw, hws, rfl⟩ :=
            sequence_eq_some (g := fun w ws => (k, w) :: ws) h
          simp [memberTokens, ihValue _ _ _ hw, ihMembers _ _ _ hws]
      · cases h

mutual

theorem parse_tokens : ∀ (v : Value Numeral) (n : ℕ) (r : List Token), v.tokens.length ≤ n →
    parse n (v.tokens ++ r) = some (v, r)
  | v, 0, r, h => by
      match v with
      | .null | .bool _ | .number _ | .string _ => simp [Value.tokens] at h
      | .array [] | .array (_ :: _) | .object [] | .object ((_, _) :: _) =>
        simp [Value.tokens] at h
  | .null, n + 1, r, _ => rfl
  | .bool b, n + 1, r, _ => rfl
  | .number m, n + 1, r, _ => rfl
  | .string s, n + 1, r, _ => rfl
  | .array [], n + 1, r, _ => rfl
  | .array (v :: vs), n + 1, r, h => by
      rw [Value.tokens, List.length_cons, List.length_append] at h
      rw [Value.tokens, List.cons_append, List.append_assoc,
        parse_openArray (v.tokens_ne_close _), parse_tokens v n _ (by omega), Option.bind_some,
        parseItems_tokens vs n r (by omega)]
      rfl
  | .object [], n + 1, r, _ => rfl
  | .object ((k, v) :: ms), n + 1, r, h => by
      simp only [Value.tokens, List.length_cons, List.length_append] at h
      simp only [Value.tokens, List.cons_append, List.append_assoc, parse]
      rw [parse_tokens v n _ (by omega), Option.bind_some, parseMembers_tokens ms n r (by omega)]
      rfl

theorem parseItems_tokens : ∀ (vs : List (Value Numeral)) (n : ℕ) (r : List Token),
    (itemTokens vs).length ≤ n → parseItems n (itemTokens vs ++ r) = some (vs, r)
  | vs, 0, r, h => by cases vs <;> simp [itemTokens] at h
  | [], n + 1, r, _ => rfl
  | v :: vs, n + 1, r, h => by
      simp only [itemTokens, List.length_cons, List.length_append] at h
      simp only [itemTokens, List.cons_append, List.append_assoc, parseItems]
      rw [parse_tokens v n _ (by omega), Option.bind_some, parseItems_tokens vs n r (by omega)]
      rfl

theorem parseMembers_tokens : ∀ (ms : List (String × Value Numeral)) (n : ℕ) (r : List Token),
    (memberTokens ms).length ≤ n → parseMembers n (memberTokens ms ++ r) = some (ms, r)
  | ms, 0, r, h => by rcases ms with _ | ⟨⟨k, v⟩, ms⟩ <;> simp [memberTokens] at h
  | [], n + 1, r, _ => rfl
  | (k, v) :: ms, n + 1, r, h => by
      simp only [memberTokens, List.length_cons, List.length_append] at h
      simp only [memberTokens, List.cons_append, List.append_assoc, parseMembers]
      rw [parse_tokens v n _ (by omega), Option.bind_some, parseMembers_tokens ms n r (by omega)]
      rfl

end

theorem parseTokens_eq_some {v : Value Numeral} : parseTokens ts = some v ↔ ts = v.tokens := by
  constructor
  · intro h
    unfold parseTokens at h
    split at h
    · next w hparse =>
        cases h
        simpa using (parse_sound _).1 _ _ _ hparse
    · cases h
  · rintro rfl
    have hparse := parse_tokens v _ [] (Nat.le_refl _)
    rw [List.append_nil] at hparse
    rw [parseTokens, hparse]

/-- A text has a value exactly when it consists of the tokens of the value. -/
theorem decode_eq_some {text : String} {v : Value Numeral} :
    decode text = some v ↔ Lexes text.toList v.tokens := by
  unfold decode Lexes
  rw [Option.bind_eq_some_iff]
  constructor
  · rintro ⟨ts, hts, hparse⟩
    rw [hts, parseTokens_eq_some.mp hparse]
  · exact fun h => ⟨_, h, parseTokens_eq_some.mpr rfl⟩

end Json
