import Kallisto.Library.Json.Splicing
import Kallisto.Verification.Engine.Directories
import Kallisto.Verification.Http.ReadBack
import Kallisto.Verification.Http.Timestamps

/-! # Bodies of responses -/

namespace Kallisto.Http

open Engine Json

variable {B N : Type}

/-! ## Errors -/

/-- The object that tells a message. -/
def errorJson (message : String) : Value Numeral :=
  .object [("errors", .array [.string message])]

/-- What stands before the message. -/
def errorTokens : List Token :=
  [.openObject, .string "errors", .colon, .openArray]

theorem errorJson_tokens (message : String) :
    (errorJson message).tokens =
      errorTokens ++ [.string message, .closeArray, .closeObject] := by
  simp [errorJson, errorTokens, Value.tokens, itemTokens, memberTokens]

theorem intoResponse_body (e : AppError) : e.intoResponse.body.toList =
    printTokens errorTokens ++ '"' :: (e.statusAndMessage.2.toList ++ [']', '\x7d']) := by
  change ("\x7b\"errors\":[\"" ++ e.statusAndMessage.2 ++ "]\x7d").toList = _
  rw [String.toList_append, String.toList_append, List.append_assoc]
  rfl

/-- No error response holds its message: the string is not closed. -/
theorem intoResponse_not_errorJson (e : AppError) :
    decode e.intoResponse.body ≠ some (errorJson e.statusAndMessage.2) := by
  intro h
  have hlexes := decode_eq_some.mp h
  rw [Lexes, intoResponse_body, errorJson_tokens] at hlexes
  have hopening : Lexes (printTokens errorTokens) errorTokens := lexes_printTokens rfl
  have hapart : ∀ b, Apart errorTokens b := fun b => Or.inl fun n hn => by cases hn
  obtain ⟨ts, m, htokens, hrest⟩ := lex_append_cancel hopening (hapart _) hlexes
  rw [← List.append_cancel_left htokens] at hrest
  exact lex_unclosed (by decide) hrest

theorem intoResponse_malformed :
    AppError.mountNotFound.intoResponse.body = "\x7b\"errors\":[\"Mount path not found]\x7d" ∧
      decode AppError.mountNotFound.intoResponse.body = none := by
  decide +kernel

/-! ## Loops -/

theorem pushItems_succ {α : Type} (item : α → String) (response : String) (i : ℕ) (xs : List α) :
    (pushItems item response (i + 1) xs).toList =
      response.toList ++ xs.flatMap fun x => ',' :: (item x).toList := by
  induction xs generalizing response i with
  | nil => simp [pushItems]
  | cons x xs ih =>
    rw [pushItems, if_pos (Nat.zero_lt_succ i), ih]
    simp

theorem pushItems_cons {α : Type} (item : α → String) (response : String) (x : α) (xs : List α) :
    (pushItems item response 0 (x :: xs)).toList =
      response.toList ++ ((item x).toList ++ xs.flatMap fun x => ',' :: (item x).toList) := by
  rw [pushItems, if_neg (Nat.lt_irrefl 0), pushItems_succ, String.toList_append, List.append_assoc]

/-! ## Listings -/

/-- The object that tells the keys of a listing. -/
def listJson (keys : List String) : Value Numeral :=
  .object [("data", .object [("keys", .array (keys.map .string))])]

/-- What stands before the keys. -/
def listTokens : List Token :=
  [.openObject, .string "data", .colon, .openObject, .string "keys", .colon, .openArray]

/-- The keys after the first one and the end. -/
def keysText (keys : List String) : List Char :=
  (keys.flatMap fun key => ',' :: '"' :: (key.toList ++ ['"'])) ++ [']', '\x7d', '\x7d']

theorem keysText_cons (key : String) (keys : List String) :
    keysText (key :: keys) = ',' :: '"' :: (key.toList ++ '"' :: keysText keys) := by
  simp [keysText]

theorem listBody_cons (key : String) (keys : List String) :
    (listBody (key :: keys)).toList =
      printTokens listTokens ++ '"' :: (key.toList ++ '"' :: keysText keys) := by
  rw [listBody, String.toList_append, pushItems_cons]
  simp only [String.toList_append, List.append_assoc, keysText]
  rfl

theorem printTokens_itemTokens {keys : List String} (h : ∀ key ∈ keys, IsPlainText key) :
    printTokens (itemTokens (keys.map .string)) ++ ['\x7d', '\x7d'] = keysText keys := by
  induction keys with
  | nil => rfl
  | cons key keys ih =>
    obtain ⟨hkey, hkeys⟩ := List.forall_mem_cons.mp h
    rw [keysText_cons, ← ih hkeys, List.map_cons, itemTokens, Value.tokens, printTokens_cons,
      List.singleton_append, printTokens_cons, hkey.text]
    simp [Token.text]

/-- Keys whose characters stand for themselves are told as they are. -/
theorem decode_listBody {keys : List String} (h : ∀ key ∈ keys, IsPlainText key) :
    decode (listBody keys) = some (listJson keys) := by
  rw [← decode_print (listJson keys)]
  refine congrArg decode (String.toList_inj.mp ?_)
  rw [print, String.toList_ofList]
  cases keys with
  | nil => decide +kernel
  | cons key keys =>
    obtain ⟨hkey, hkeys⟩ := List.forall_mem_cons.mp h
    have htokens : (listJson (key :: keys)).tokens = listTokens ++ .string key ::
        (itemTokens (keys.map .string) ++ [.closeObject, .closeObject]) := by
      simp [listJson, listTokens, Value.tokens, memberTokens]
    rw [listBody_cons, htokens, printTokens_append, printTokens_cons, printTokens_append,
      hkey.text, ← printTokens_itemTokens hkeys]
    simp [printTokens, Token.text]

/-- Keys that are read as themselves, one after the other. -/
theorem isPlainText_of_lex {n : ℕ} {keys : List String} {ts : List Token}
    (h : lex n (keysText keys) = some (itemTokens (keys.map .string) ++ ts)) :
    ∀ key ∈ keys, IsPlainText key := by
  induction keys generalizing n with
  | nil => exact fun key hkey => absurd hkey List.not_mem_nil
  | cons key keys ih =>
    rw [keysText_cons, List.map_cons, itemTokens, Value.tokens, List.singleton_append,
      List.cons_append, List.cons_append] at h
    obtain ⟨m, hquoted⟩ := lex_comma h
    obtain ⟨hkey, m', hrest⟩ := lex_quoted hquoted
    exact List.forall_mem_cons.mpr ⟨hkey, ih hrest⟩

/-- The array of keys in a decoded body. -/
theorem tokens_of_keys {j : Value Numeral} {items : List (Value Numeral)} {ts : List Token}
    (h : j.tokens = listTokens ++ ts) (hkeys : j.pointer ["data", "keys"] = some (.array items)) :
    ∃ r, .openArray :: ts = (Value.array items).tokens ++ r := by
  obtain ⟨v, ms, rfl, hv⟩ := tokens_eq_openObject (r := []) ((List.append_nil _).trans h)
  obtain ⟨w, ms', rfl, hw⟩ := tokens_eq_openObject hv
  have hw' : w = .array items := Option.some.inj hkeys
  rw [hw'] at hw
  exact ⟨_, hw.symm⟩

theorem isPlainText_of_decode {keys : List String} {j : Value Numeral}
    (h : decode (listBody keys) = some j)
    (hkeys : j.pointer ["data", "keys"] = some (.array (keys.map .string))) :
    ∀ key ∈ keys, IsPlainText key := by
  cases keys with
  | nil => exact fun key hkey => absurd hkey List.not_mem_nil
  | cons key keys =>
    have hlexes := decode_eq_some.mp h
    have hopening : Lexes (printTokens listTokens) listTokens := lexes_printTokens rfl
    rw [Lexes, listBody_cons] at hlexes
    obtain ⟨ts, m, htokens, hrest⟩ :=
      lex_append_cancel hopening (Or.inl fun n hn => by cases hn) hlexes
    obtain ⟨r, harray⟩ := tokens_of_keys htokens hkeys
    have hts : ts = .string key :: (itemTokens (keys.map .string) ++ r) := by
      simpa [Value.tokens] using harray
    rw [hts] at hrest
    obtain ⟨hkey, m', hrest'⟩ := lex_quoted hrest
    exact List.forall_mem_cons.mpr ⟨hkey, isPlainText_of_lex hrest'⟩

/-! ### The names that are listed -/

/-- The part that follows the directory in a stored path has only characters that stand for
themselves. A slash between them is not part of it. -/
def PlainNames (paths : List String) (dir : String) : Prop :=
  ∀ sep part rest : String, (sep = "" ∨ sep = "/" ∧ dir ≠ "") → '/' ∉ part.toList →
    (rest = "" ∨ rest.toList.head? = some '/') → dir ++ sep ++ part ++ rest ∈ paths →
    IsPlainText part

theorem isPlainText_append_slash {part : String} : IsPlainText (part ++ "/") ↔ IsPlainText part := by
  constructor
  · intro h c hc
    exact h c (by rw [String.toList_append]; exact List.mem_append_left _ hc)
  · exact fun h => h.append (by decide)

/-- The first part of a path with what follows it. -/
theorem firstPart_append {part rest : String} (hpart : '/' ∉ part.toList)
    (hrest : rest = "" ∨ rest.toList.head? = some '/') :
    ∃ key, firstPart (part ++ rest) = some key ∧ (IsPlainText key ↔ IsPlainText part) := by
  rcases hrest with rfl | hslash
  · refine ⟨part, ?_, Iff.rfl⟩
    simpa using firstPart_of_not_mem hpart
  · refine ⟨part ++ "/", ?_, isPlainText_append_slash⟩
    obtain ⟨cs, hcs⟩ := List.head?_eq_some_iff.mp hslash
    have h := firstPart_append_slash hpart cs
    rwa [String.ofList_toList, ← hcs, ← String.toList_append, String.ofList_toList] at h

theorem exists_firstPart (path : String) : ∃ part rest : String, path = part ++ rest ∧
    '/' ∉ part.toList ∧ (rest = "" ∨ rest.toList.head? = some '/') := by
  rcases separator_cases '/' path.toList with hnot | ⟨part, rest, hnot, heq⟩
  · exact ⟨path, "", by simp, hnot, Or.inl rfl⟩
  · refine ⟨.ofList part, .ofList ('/' :: rest), ?_, by simpa using hnot, Or.inr (by simp)⟩
    rw [← String.toList_inj, heq]
    simp

theorem append_stripSlash (cs : List Char) :
    ∃ sep : String, (sep = "" ∨ sep = "/") ∧ .ofList cs = sep ++ .ofList (stripSlash cs) := by
  unfold stripSlash
  split
  · next hslash =>
      obtain ⟨rest, rfl⟩ := List.head?_eq_some_iff.mp hslash
      exact ⟨"/", Or.inr rfl, String.toList_inj.mp (by simp)⟩
  · exact ⟨"", Or.inl rfl, by simp⟩

theorem stripSlash_append {sep part : String} (hsep : sep = "" ∨ sep = "/")
    (hpart : '/' ∉ part.toList) (hne : part ≠ "") (rest : String) :
    stripSlash (sep ++ part ++ rest).toList = (part ++ rest).toList := by
  obtain ⟨c, cs, hcs⟩ : ∃ c cs, part.toList = c :: cs :=
    List.exists_cons_of_ne_nil fun h => hne (String.toList_eq_nil_iff.mp h)
  have hc : c ≠ '/' := by
    rintro rfl
    exact hpart (hcs ▸ List.mem_cons_self)
  rcases hsep with rfl | rfl
  · simp [stripSlash, hcs, hc]
  · simp [stripSlash]

/-- The part is what a path adds to the listing. -/
theorem listedKey_part {dir sep part rest : String} (hsep : sep = "" ∨ sep = "/" ∧ dir ≠ "")
    (hpart : '/' ∉ part.toList) (hne : part ≠ "") :
    listedKey dir (dir ++ sep ++ part ++ rest) = firstPart (part ++ rest) := by
  by_cases hdir : dir = ""
  · subst hdir
    obtain rfl : sep = "" := hsep.resolve_right fun h => h.2 rfl
    rw [listedKey, if_pos rfl]
    simp
  · have happend := listedKey_append hdir (sep ++ part ++ rest).toList
    have hsep' : sep = "" ∨ sep = "/" := hsep.imp_right And.left
    have hnonempty : (part ++ rest).toList ≠ [] := by simp [hne]
    rwa [stripSlash_append hsep' hpart hne, if_neg hnonempty, String.ofList_toList,
      String.ofList_toList, ← String.append_assoc, ← String.append_assoc] at happend

/-- What a path adds to the listing is its part after the directory. -/
theorem exists_part {dir path key : String} (h : listedKey dir path = some key) :
    ∃ sep part rest : String, (sep = "" ∨ sep = "/" ∧ dir ≠ "") ∧ '/' ∉ part.toList ∧
      (rest = "" ∨ rest.toList.head? = some '/') ∧ path = dir ++ sep ++ part ++ rest ∧
      firstPart (part ++ rest) = some key := by
  by_cases hdir : dir = ""
  · subst hdir
    obtain ⟨part, rest, rfl, hpart, hrest⟩ := exists_firstPart path
    rw [listedKey, if_pos rfl] at h
    exact ⟨"", part, rest, Or.inl rfl, hpart, hrest, by simp, h⟩
  · obtain ⟨cs, rfl⟩ := eq_append_of_listedKey hdir h
    rw [listedKey_append hdir] at h
    split at h
    · cases h
    · obtain ⟨sep, hsep, hcs⟩ := append_stripSlash cs
      obtain ⟨part, rest, heq, hpart, hrest⟩ := exists_firstPart (.ofList (stripSlash cs))
      rw [heq] at h hcs
      refine ⟨sep, part, rest, hsep.imp_right fun hsep => ⟨hsep, hdir⟩, hpart, hrest, ?_, h⟩
      rw [hcs, String.append_assoc, String.append_assoc]

theorem plainNames_iff (paths : List String) (dir : String) :
    (∀ path ∈ paths, ∀ key, listedKey dir path = some key → IsPlainText key) ↔
      PlainNames paths dir := by
  constructor
  · intro h sep part rest hsep hpart hrest hmem
    by_cases hne : part = ""
    · subst hne
      decide
    · obtain ⟨key, hkey, hiff⟩ := firstPart_append hpart hrest
      exact hiff.mp (h _ hmem key ((listedKey_part hsep hpart hne).trans hkey))
  · intro h path hmem key hkey
    obtain ⟨sep, part, rest, hsep, hpart, hrest, rfl, hfirst⟩ := exists_part hkey
    obtain ⟨key', hkey', hiff⟩ := firstPart_append hpart hrest
    obtain rfl := Option.some.inj (hfirst.symm.trans hkey')
    exact hiff.mpr (h sep part rest hsep hpart hrest hmem)

/-- The body of a listing tells its keys if and only if the listed names need no escapes. -/
theorem listBody_tells_keys (s : KvEngine B) (dir : String) :
    (∃ keys j, s.listKeys dir = some keys ∧ decode (listBody keys) = some j ∧
      j.pointer ["data", "keys"] = some (.array (keys.map .string))) ↔
      PlainNames s.pathIndex dir := by
  rw [← plainNames_iff]
  constructor
  · rintro ⟨keys, j, hkeys, hdecode, hpointer⟩ path hmem key hkey
    exact isPlainText_of_decode hdecode hpointer key ((mem_listKeys hkeys key).mpr ⟨path, hmem, hkey⟩)
  · intro h
    have hkeys := listKeys_eq s dir
    refine ⟨_, _, hkeys, decode_listBody fun key hkey => ?_, rfl⟩
    obtain ⟨path, hmem, hlisted⟩ := (mem_listKeys hkeys key).mp hkey
    exact h path hmem key hlisted

/-- A quote in a name ends its string. -/
theorem listBody_malformed :
    (withPaths ["a\"b"]).listKeys "" = some ["a\"b"] ∧ decode (listBody ["a\"b"]) = none := by
  decide +kernel

/-! ## Metadata -/

/-- `sonic_rs::to_string` of a map of strings. -/
structure Sonic.WritesStrings (sonic : Sonic N) : Prop where
  written : ∀ members : List (String × String),
    decode (sonic.toString (customJson members)) = some (customJson members)

theorem texts_writesStrings : texts.WritesStrings where
  written members := decode_print (customJson members)

/-- A decoded body tells the metadata of a key. -/
structure TellsMetadata (j : Value Numeral) (metadata : KeyMetadata) : Prop where
  casRequired : j.pointer ["data", "cas_required"] = some (.bool metadata.casRequired)
  currentVersion : j.pointer ["data", "current_version"] =
    some (.number (.ofNat metadata.currentVersion.toNat))
  maxVersions : j.pointer ["data", "max_versions"] =
    some (.number (.ofNat metadata.maxVersions.toNat))
  customMetadata : j.pointer ["data", "custom_metadata"] =
    some (customJson metadata.customMetadata)
  createdTime : ∀ v ∈ metadata.versions,
    j.pointer ["data", "versions", toString v.versionId.toNat, "created_time"] =
      some (.string (epochMsToRfc3339 v.createdTimeMs))
  deletionTime : ∀ v ∈ metadata.versions,
    j.pointer ["data", "versions", toString v.versionId.toNat, "deletion_time"] =
      some (.string (deletionTime v))
  destroyed : ∀ v ∈ metadata.versions,
    j.pointer ["data", "versions", toString v.versionId.toNat, "destroyed"] =
      some (.bool v.destroyed)

/-- What stands before the custom metadata. -/
def metadataTokens (metadata : KeyMetadata) : List Token :=
  [.openObject, .string "data", .colon, .openObject, .string "cas_required", .colon,
    .bool metadata.casRequired, .comma, .string "current_version", .colon,
    .number (.ofNat metadata.currentVersion.toNat), .comma, .string "max_versions", .colon,
    .number (.ofNat metadata.maxVersions.toNat), .comma, .string "delete_version_after", .colon,
    .string (msToVaultDuration metadata.deleteVersionAfterMs), .comma, .string "custom_metadata",
    .colon]

/-- What stands between the custom metadata and the versions. -/
def versionsTokens : List Token :=
  [.comma, .string "versions", .colon, .openObject]

theorem isPlainText_msToVaultDuration (ms : UInt64) : IsPlainText (msToVaultDuration ms) := by
  have hpart : ∀ (p : Prop) [Decidable p] (n : ℕ) (unit : String), IsPlainText unit →
      IsPlainText (if p then toString n ++ unit else "") := by
    intro p _ n unit hunit
    split
    · exact (isPlainText_toString n).append hunit
    · decide
  unfold msToVaultDuration
  split
  · decide
  · exact ((hpart _ _ "h" (by decide)).append (hpart _ _ "m" (by decide))).append
      (hpart _ _ "s" (by decide))

/-- The text before the versions. -/
theorem metadataBody_start (sonic : Sonic N) (metadata : KeyMetadata) :
    ("\x7b\"data\":\x7b\"cas_required\":" ++
      (if metadata.casRequired then "true" else "false") ++ ",\"current_version\":" ++
      toString metadata.currentVersion.toNat ++ ",\"max_versions\":" ++
      toString metadata.maxVersions.toNat ++ ",\"delete_version_after\":\"" ++
      msToVaultDuration metadata.deleteVersionAfterMs ++ "\",\"custom_metadata\":" ++
      sonic.toString (customJson metadata.customMetadata) ++ ",\"versions\":\x7b").toList =
      printTokens (metadataTokens metadata) ++
        ((sonic.toString (customJson metadata.customMetadata)).toList ++
          printTokens versionsTokens) := by
  simp only [metadataTokens, printTokens_cons, text_ofNat, text_bool,
    (isPlainText_msToVaultDuration metadata.deleteVersionAfterMs).text, String.toList_append,
    List.append_assoc, List.cons_append, List.nil_append]
  -- The texts around the values are literals on both sides.
  rfl

/-- What stands behind the custom metadata when there are no versions. -/
def noVersionsTokens : List Token :=
  [.comma, .string "versions", .colon, .openObject, .closeObject, .closeObject, .closeObject]

theorem metadataBody_nil (sonic : Sonic N) {metadata : KeyMetadata}
    (h : metadata.versions = []) : (metadataBody sonic metadata).toList =
      printTokens (metadataTokens metadata) ++
        ((sonic.toString (customJson metadata.customMetadata)).toList ++
          printTokens noVersionsTokens) := by
  rw [metadataBody, h, String.toList_append, pushItems, metadataBody_start, List.append_assoc,
    List.append_assoc]
  rfl

/-- The object that tells metadata without versions. -/
def emptyMetadataJson (metadata : KeyMetadata) : Value Numeral :=
  .object [("data", .object [("cas_required", .bool metadata.casRequired),
    ("current_version", .number (.ofNat metadata.currentVersion.toNat)),
    ("max_versions", .number (.ofNat metadata.maxVersions.toNat)),
    ("delete_version_after", .string (msToVaultDuration metadata.deleteVersionAfterMs)),
    ("custom_metadata", customJson metadata.customMetadata), ("versions", .object [])])]

theorem emptyMetadataJson_tokens (metadata : KeyMetadata) :
    (emptyMetadataJson metadata).tokens =
      metadataTokens metadata ++ ((customJson metadata.customMetadata).tokens ++
        noVersionsTokens) := by
  simp [emptyMetadataJson, metadataTokens, noVersionsTokens, Value.tokens, memberTokens]

/-- Without versions the body is well-formed. -/
theorem decode_metadataBody {sonic : Sonic N} (hsonic : sonic.WritesStrings)
    {metadata : KeyMetadata} (h : metadata.versions = []) :
    decode (metadataBody sonic metadata) = some (emptyMetadataJson metadata) := by
  rw [decode_eq_some, metadataBody_nil sonic h, emptyMetadataJson_tokens]
  have hopening : Lexes (printTokens (metadataTokens metadata)) (metadataTokens metadata) :=
    lexes_printTokens rfl
  have hcustom := decode_eq_some.mp (hsonic.written metadata.customMetadata)
  have hclosing : Lexes (printTokens noVersionsTokens) noVersionsTokens := lexes_printTokens rfl
  refine hopening.append (hcustom.append hclosing ?_) (Or.inl fun n hn => by cases hn)
  exact Or.inr fun c hc => by cases hc; decide

theorem emptyMetadataJson_tells {metadata : KeyMetadata} (h : metadata.versions = []) :
    TellsMetadata (emptyMetadataJson metadata) metadata where
  casRequired := rfl
  currentVersion := rfl
  maxVersions := rfl
  customMetadata := rfl
  createdTime _ hv := absurd (h ▸ hv) List.not_mem_nil
  deletionTime _ hv := absurd (h ▸ hv) List.not_mem_nil
  destroyed _ hv := absurd (h ▸ hv) List.not_mem_nil

/-- The beginning of a version, up to its deletion time. -/
def versionTokens (v : VersionState) : List Token :=
  [.string (toString v.versionId.toNat), .colon, .openObject, .string "created_time", .colon,
    .string (epochMsToRfc3339 v.createdTimeMs), .comma, .string "deletion_time", .colon]

/-- The deletion time has no opening quote. -/
theorem versionBody_toList (v : VersionState) : ∃ rest, (versionBody v).toList =
    printTokens (versionTokens v) ++
      ((deletionTime v).toList ++ '"' :: ',' :: '"' :: 'd' :: rest) := by
  simp only [versionTokens, printTokens_cons, (isPlainText_toString v.versionId.toNat).text,
    (isPlainText_epochMsToRfc3339 v.createdTimeMs).text, versionBody, deletionTime,
    String.toList_append, List.append_assoc, List.cons_append, List.nil_append]
  exact ⟨_, rfl⟩

/-- A deletion time without its opening quote is not read. -/
theorem lex_deletionTime (v : VersionState) (rest : List Char) (n : ℕ) (ts : List Token) :
    lex n ((deletionTime v).toList ++ '"' :: ',' :: '"' :: 'd' :: rest) ≠ some ts := by
  unfold deletionTime
  split
  · obtain ⟨digits, rest', hne, hdigits, htext⟩ := epochMsToRfc3339_toList v.deletionTimeMs
    rw [htext, List.append_assoc]
    exact lex_dash hne hdigits _ n ts
  · -- The closing quote opens a string, which the next quote closes.
    intro h
    have hcomma : Lexes ['"', ',', '"'] [.string ","] := by
      rw [Lexes]
      decide +kernel
    obtain ⟨ts', m, -, hrest⟩ := lex_append_cancel hcomma (Or.inl fun n hn => by cases hn) h
    exact lex_ne_some (by decide) rfl m ts' hrest

theorem decode_metadataBody_ne_some {sonic : Sonic N} (hsonic : sonic.WritesStrings)
    {metadata : KeyMetadata} (h : metadata.versions ≠ []) (j : Value Numeral) :
    decode (metadataBody sonic metadata) ≠ some j := by
  intro hdecode
  obtain ⟨v, vs, hversions⟩ := List.exists_cons_of_ne_nil h
  obtain ⟨rest, hversion⟩ := versionBody_toList v
  have hlexes := decode_eq_some.mp hdecode
  rw [Lexes, metadataBody, hversions, String.toList_append, pushItems_cons, metadataBody_start,
    hversion] at hlexes
  simp only [List.append_assoc, List.cons_append] at hlexes
  have hopening : Lexes (printTokens (metadataTokens metadata)) (metadataTokens metadata) :=
    lexes_printTokens rfl
  have hcustom := decode_eq_some.mp (hsonic.written metadata.customMetadata)
  have hmiddle : Lexes (printTokens versionsTokens) versionsTokens := lexes_printTokens rfl
  have hstart : Lexes (printTokens (versionTokens v)) (versionTokens v) := lexes_printTokens rfl
  obtain ⟨ts, n, -, hlexes⟩ := lex_append_cancel hopening (Or.inl fun n hn => by cases hn) hlexes
  obtain ⟨ts, n, -, hlexes⟩ :=
    lex_append_cancel hcustom (Or.inr fun c hc => by cases hc; decide) hlexes
  obtain ⟨ts, n, -, hlexes⟩ := lex_append_cancel hmiddle (Or.inl fun n hn => by cases hn) hlexes
  obtain ⟨ts, n, -, hlexes⟩ := lex_append_cancel hstart (Or.inl fun n hn => by cases hn) hlexes
  exact lex_deletionTime v _ n ts hlexes

/-- The metadata body tells the metadata if and only if there are no versions. -/
theorem metadataBody_tells (sonic : Sonic N) (hsonic : sonic.WritesStrings)
    (metadata : KeyMetadata) :
    (∃ j, decode (metadataBody sonic metadata) = some j ∧ TellsMetadata j metadata) ↔
      metadata.versions = [] := by
  constructor
  · rintro ⟨j, hdecode, -⟩
    by_contra hne
    exact decode_metadataBody_ne_some hsonic hne j hdecode
  · intro h
    exact ⟨_, decode_metadataBody hsonic h, emptyMetadataJson_tells h⟩

theorem metadataBody_tells_owner :
    ∃ j, decode (metadataBody texts ⟨0, 5, true, 1000, [("owner", "a\"b")], []⟩) = some j ∧
      TellsMetadata j ⟨0, 5, true, 1000, [("owner", "a\"b")], []⟩ :=
  (metadataBody_tells texts texts_writesStrings _).mpr rfl

/-- One version makes the body malformed. -/
theorem metadataBody_malformed :
    decode (metadataBody texts ⟨1, 0, false, 0, [], [⟨0, 0, 1, false⟩]⟩) = none :=
  Option.eq_none_iff_forall_ne_some.mpr
    (decode_metadataBody_ne_some texts_writesStrings (List.cons_ne_nil _ _))

end Kallisto.Http
