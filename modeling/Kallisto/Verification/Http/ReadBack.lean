import Kallisto.Verification.Http.CheckAndSet

/-! # What is written is read back

The response of `read_secret` is put together by hand around the stored text. -/

namespace Kallisto.Http

open Program Engine Json

variable {B N : Type} {fromUtf8Lossy : ByteArray → String} {mounted : String → Bool}
  {choices : List (List Choice)}

/-! ## Times -/

theorem isPlain_of_isDigit {c : Char} (h : c.isDigit = true) : IsPlain c := by
  have hbound : 48 ≤ c.toNat := (Char.isDigit_iff_toNat.mp h).1
  refine ⟨?_, ?_, by omega⟩
  · rintro rfl
    exact absurd h (by decide)
  · rintro rfl
    exact absurd h (by decide)

theorem isPlainText_toString (n : ℕ) : IsPlainText (toString n) := by
  intro c h
  rw [show toString n = .ofList (Nat.toDigits 10 n) from rfl, String.toList_ofList] at h
  exact isPlain_of_isDigit (Nat.isDigit_of_mem_toDigits (by decide) (by decide) h)

theorem isPlainText_pad (width : ℕ) (n : ℤ) : IsPlainText (pad width n) := by
  unfold pad
  refine (IsPlainText.append ?_ ?_).append (isPlainText_toString n.natAbs)
  · split
    · decide
    · decide
  · intro c h
    rw [String.toList_ofList] at h
    rw [List.eq_of_mem_replicate h]
    decide

theorem isPlainText_epochMsToRfc3339 (ms : UInt64) : IsPlainText (epochMsToRfc3339 ms) := by
  have hdash : IsPlainText "-" := by decide
  have hcolon : IsPlainText ":" := by decide
  have hseconds : ∀ year month d h m s, IsPlainText (pad 4 year ++ "-" ++ pad 2 month ++ "-" ++
      pad 2 d ++ "T" ++ pad 2 h ++ ":" ++ pad 2 m ++ ":" ++ pad 2 s) := by
    intro year month d h m s
    have hdate := ((((isPlainText_pad 4 year).append hdash).append (isPlainText_pad 2 month)).append
      hdash).append (isPlainText_pad 2 d)
    have hhour := (hdate.append (t := "T") (by decide)).append (isPlainText_pad 2 h)
    exact (((hhour.append hcolon).append (isPlainText_pad 2 m)).append hcolon).append
      (isPlainText_pad 2 s)
  unfold epochMsToRfc3339
  split
  · decide +kernel
  · dsimp only
    rcases civilDate (ms.toNat / 1000 / 86400) with ⟨year, month, d⟩
    split
    · exact (((hseconds year month d _ _ _).append (by decide)).append (isPlainText_pad 3 _)).append
        (by decide)
    · exact (hseconds year month d _ _ _).append (by decide)

/-! ## The envelope -/

/-- The deletion time in a response. -/
def deletionTime (state : VersionState) : String :=
  if state.deletionTimeMs > 0 then epochMsToRfc3339 state.deletionTimeMs else ""

theorem isPlainText_deletionTime (state : VersionState) : IsPlainText (deletionTime state) := by
  unfold deletionTime
  split
  · exact isPlainText_epochMsToRfc3339 state.deletionTimeMs
  · decide

/-- The object built from a version's state. -/
def metadataJson (state : VersionState) : Value Numeral :=
  .object [("version", .number (.ofNat state.versionId.toNat)),
    ("created_time", .string (epochMsToRfc3339 state.createdTimeMs)),
    ("deletion_time", .string (deletionTime state)), ("destroyed", .bool state.destroyed)]

/-- The response for a secret value. -/
def secretJson (d : Value Numeral) (state : VersionState) : Value Numeral :=
  .object [("data", .object [("data", d), ("metadata", metadataJson state)])]

/-- What stands before the stored text. -/
def openingTokens : List Token :=
  [.openObject, .string "data", .colon, .openObject, .string "data", .colon]

/-- What stands behind it. -/
def closingTokens (state : VersionState) : List Token :=
  memberTokens [("metadata", metadataJson state)] ++ memberTokens []

theorem secretJson_tokens (d : Value Numeral) (state : VersionState) :
    (secretJson d state).tokens = openingTokens ++ (d.tokens ++ closingTokens state) := by
  simp [secretJson, openingTokens, closingTokens, Value.tokens, memberTokens]

theorem closingTokens_eq (state : VersionState) : closingTokens state =
    [.comma, .string "metadata", .colon, .openObject, .string "version", .colon,
      .number (.ofNat state.versionId.toNat), .comma, .string "created_time", .colon,
      .string (epochMsToRfc3339 state.createdTimeMs), .comma, .string "deletion_time", .colon,
      .string (deletionTime state), .comma, .string "destroyed", .colon, .bool state.destroyed,
      .closeObject, .closeObject, .closeObject] := by
  simp [closingTokens, metadataJson, Value.tokens, memberTokens]

theorem text_ofNat (n : ℕ) : (Token.number (.ofNat n)).text = (toString n).toList :=
  String.toList_ofList.symm

theorem text_bool (b : Bool) : (Token.bool b).text = (if b then "true" else "false").toList := by
  cases b <;> decide

/-- The envelope is written with the deletion time in its quotes. -/
theorem secretBody_eq (payload : SecretPayload) (state : VersionState) :
    secretBody payload state =
      "\x7b\"data\":\x7b\"data\":" ++ payload.value ++ ",\"metadata\":\x7b\"version\":" ++
        toString state.versionId.toNat ++ ",\"created_time\":\"" ++
        epochMsToRfc3339 state.createdTimeMs ++ "\",\"deletion_time\":" ++
        ("\"" ++ deletionTime state ++ "\"") ++ ",\"destroyed\":" ++
        (if state.destroyed then "true" else "false") ++ "\x7d\x7d\x7d" := by
  unfold secretBody deletionTime
  split
  · rfl
  · rfl

theorem secretBody_toList (payload : SecretPayload) (state : VersionState) :
    (secretBody payload state).toList = printTokens openingTokens ++
      (payload.value.toList ++ printTokens (closingTokens state)) := by
  rw [secretBody_eq, closingTokens_eq]
  simp only [printTokens_cons, text_ofNat, text_bool, (isPlainText_deletionTime state).text,
    (isPlainText_epochMsToRfc3339 state.createdTimeMs).text, String.toList_append,
    List.append_assoc, List.cons_append, List.nil_append]
  -- The texts around the values are literals on both sides.
  rfl

/-- The response is well-formed when the stored text is. -/
theorem decode_secretBody (payload : SecretPayload) (state : VersionState) {d : Value Numeral}
    (h : decode payload.value = some d) :
    decode (secretBody payload state) = some (secretJson d state) := by
  rw [decode_eq_some, secretBody_toList, secretJson_tokens]
  have hclosing : Lexes (printTokens (closingTokens state)) (closingTokens state) := by
    rw [closingTokens_eq]
    exact lexes_printTokens rfl
  have hopening : Lexes (printTokens openingTokens) openingTokens := lexes_printTokens rfl
  refine hopening.append ((decode_eq_some.mp h).append hclosing ?_) (Or.inl ?_)
  · exact Or.inr fun c hc => by cases hc; decide
  · exact fun n hn => by cases hn

/-! ## Bodies -/

/-- On JSON texts, `sonic_rs::get` finds the raw text of the member `data`, and fails without
one. -/
structure Sonic.GetsData (sonic : Sonic N) : Prop where
  found : ∀ text v w, decode text = some v → v.pointer ["data"] = some w →
    ∃ raw, sonic.get text.toUTF8 "data" = some raw ∧ decode raw = some w
  absent : ∀ text v, decode text = some v → v.pointer ["data"] = none →
    sonic.get text.toUTF8 "data" = none

/-- The text that is stored for a well-formed body. -/
theorem decode_secretValue {sonic : Sonic N} (hsonic : sonic.GetsData)
    (hlossy : ∀ text, fromUtf8Lossy text.toUTF8 = text) {text : String} {v : Value Numeral}
    (h : decode text = some v) :
    decode (secretValue sonic fromUtf8Lossy text.toUTF8) = some ((v.pointer ["data"]).getD v) := by
  unfold secretValue
  cases hdata : v.pointer ["data"] with
  | some w =>
    obtain ⟨raw, hget, hraw⟩ := hsonic.found text v w h hdata
    have hempty : decode "" = none := by decide +kernel
    have hne : raw ≠ "" := by
      rintro rfl
      exact Option.some_ne_none w (hraw.symm.trans hempty)
    rw [hget, Option.getD_some, Option.getD_some]
    dsimp only
    rw [if_neg hne, hraw]
  | none =>
    rw [hsonic.absent text v h hdata, Option.getD_none, Option.getD_none]
    dsimp only
    rw [if_pos rfl, hlossy, h]

theorem texts_getsData : texts.GetsData where
  found text v w h hdata := by
    refine ⟨print w, ?_, decode_print w⟩
    change (((String.fromUTF8? text.toUTF8).bind decode).bind
      fun v => (v.pointer ["data"]).map print) = some (print w)
    rw [fromUTF8?_eq_some.mpr rfl, Option.bind_some, h, Option.bind_some, hdata, Option.map_some]
  absent text v h hdata := by
    change (((String.fromUTF8? text.toUTF8).bind decode).bind
      fun v => (v.pointer ["data"]).map print) = none
    rw [fromUTF8?_eq_some.mpr rfl, Option.bind_some, h, Option.bind_some, hdata, Option.map_none]

theorem utf8_toUTF8 (text : String) : utf8 text.toUTF8 = text := by
  rw [utf8, fromUTF8?_eq_some.mpr rfl, Option.getD_some]

/-! ## A write and the read of its version -/

/-- A version that reads return. -/
def IsLive (v : VersionState) : Prop :=
  v.destroyed = false ∧ v.deletionTimeMs = 0

/-- The number of the next version is not 0, and no version that is deleted or destroyed has it. -/
def NumberUsable (rkyv : Rkyv B) (s : KvEngine B) (path : String) : Prop :=
  s.current rkyv path + 1 ≠ 0 ∧
    ∀ old, findVersion (s.current rkyv path + 1) (s.metadata rkyv path) = some old → IsLive old

section Versions

variable {rkyv : Rkyv B} {s s' : KvEngine B} {path : String} {x : SecretPayload}

/-- A version with the number of the new one comes before it in the metadata. -/
theorem findVersion_grown (m : KeyMetadata) (created : UInt64) :
    findVersion (m.currentVersion + 1) (m.grown created) =
      some ((findVersion (m.currentVersion + 1) m).getD
        ⟨created, 0, m.currentVersion + 1, false⟩) := by
  rw [findVersion, KeyMetadata.grown, List.find?_append, findVersion]
  cases m.versions.find? fun v => v.versionId = m.currentVersion + 1 with
  | some old => rfl
  | none => simp

theorem readLocated_of_found {records : String → Option B} {target : UInt32} {b : B}
    {state : VersionState} (hpayload : records (buildVersionKey path target) = some b)
    (hstate : state.versionId = target) (version : UInt32) :
    target ≠ 0 ∧ IsLive state ∧ readLocated rkyv records path version (target, some state) =
        .ok (.version (rkyv.archivedPayload b) state) ∨
      ¬ (target ≠ 0 ∧ IsLive state) ∧
        ∃ e, readLocated rkyv records path version (target, some state) = .error e := by
  rw [readLocated, hpayload]
  by_cases hzero : target = 0
  · exact Or.inr ⟨fun h => h.1 hzero, _, if_pos hzero⟩
  · rw [if_neg hzero]
    by_cases hdestroyed : state.destroyed = true
    · refine Or.inr ⟨fun h => ?_, _, if_pos hdestroyed⟩
      exact Bool.false_ne_true (h.2.1.symm.trans hdestroyed)
    · rw [if_neg hdestroyed]
      by_cases hdeleted : state.deletionTimeMs > 0
      · refine Or.inr ⟨fun h => ?_, _, if_pos hdeleted⟩
        exact UInt64.lt_irrefl 0 (h.2.2 ▸ hdeleted)
      · refine Or.inl ⟨hzero, ⟨Bool.not_eq_true _ ▸ hdestroyed, ?_⟩, ?_⟩
        · exact UInt64.le_antisymm (UInt64.not_lt.mp hdeleted) UInt64.zero_le
        · rw [if_neg hdeleted, ← hstate]

/-- A version just created is read by its number exactly when the number is usable. -/
theorem readResult_created (h : Created rkyv s s' path x) : ∃ state,
    findVersion (s.current rkyv path + 1) (s'.metadata rkyv path) = some state ∧
      (NumberUsable rkyv s path ∧
        readResult rkyv s'.view (.readVersion path (s.current rkyv path + 1)) =
          .ok (.version x state) ∨
      ¬ NumberUsable rkyv s path ∧
        ∃ e, readResult rkyv s'.view (.readVersion path (s.current rkyv path + 1)) = .error e) := by
  obtain ⟨b, b', created, rfl, hmetadata, hview⟩ := h
  have hcurrent := s.metadata_currentVersion rkyv path
  have hmeta : s'.view (buildMetaKey path) = some b' := by rw [hview, Function.update_self]
  have hpayload : s'.view (buildVersionKey path (s.current rkyv path + 1)) = some b := by
    rw [hview, Function.update_of_ne (buildMetaKey_ne_buildVersionKey _ _ _).symm,
      Function.update_self]
  have hfound := findVersion_grown (s.metadata rkyv path) created
  rw [← hmetadata, hcurrent] at hfound
  have hlocate : locate (s.current rkyv path + 1) (rkyv.archivedMetadata b') =
      (s.current rkyv path + 1, findVersion (s.current rkyv path + 1) (rkyv.archivedMetadata b')) := by
    have htarget : (if s.current rkyv path + 1 = 0 then (rkyv.archivedMetadata b').currentVersion
        else s.current rkyv path + 1) = s.current rkyv path + 1 := by
      rw [hmetadata, KeyMetadata.grown, hcurrent, ite_self]
    rw [locate, htarget]
    rfl
  have hlive : (∀ old, findVersion (s.current rkyv path + 1) (s.metadata rkyv path) = some old →
      IsLive old) ↔ IsLive ((findVersion (s.current rkyv path + 1) (s.metadata rkyv path)).getD
        ⟨created, 0, s.current rkyv path + 1, false⟩) := by
    cases findVersion (s.current rkyv path + 1) (s.metadata rkyv path) with
    | none => exact iff_of_true (fun _ heq => by cases heq) ⟨rfl, rfl⟩
    | some old => exact ⟨fun h => h old rfl, fun h _ heq => Option.some.inj heq ▸ h⟩
  have hstored : findVersion (s.current rkyv path + 1) (s'.metadata rkyv path) =
      findVersion (s.current rkyv path + 1) (rkyv.archivedMetadata b') := by
    rw [KvEngine.metadata, hmeta]
    rfl
  refine ⟨_, hstored.trans hfound, ?_⟩
  rw [readResult_readVersion, hmeta, NumberUsable, hlive]
  dsimp only
  rw [hlocate, hfound]
  exact (readLocated_of_found hpayload (by simpa using List.find?_some hfound) _).imp_left
    fun h => ⟨⟨h.1, h.2.1⟩, h.2.2⟩

end Versions

/-- An answer to a write tells that the version was created. -/
theorem writeSecret_ok {rkyv : Rkyv B} (hrkyv : rkyv.Faithful) {sonic : Sonic N} {uri : Uri}
    {body : ByteArray} {s : KvEngine B} {mount path : String} {r : Response}
    (hpath : extractMountAndPath uri.path "data" = some (mount, path))
    (h : (handle rkyv s (writeSecret sonic mounted fromUtf8Lossy uri body) choices).1 = .ok r) :
    resolve mounted uri "data" = .done (.ok path) ∧
      Created rkyv s (handle rkyv s (writeSecret sonic mounted fromUtf8Lossy uri body) choices).2
        path ⟨secretValue sonic fromUtf8Lossy body, 0⟩ := by
  rcases resolve_cases mounted uri "data" with hfail | ⟨mount', path', hpath', hresolve⟩
  · rw [writeSecret, hfail] at h
    cases h
  · obtain ⟨-, rfl⟩ := Prod.mk.inj (Option.some.inj (hpath'.symm.trans hpath))
    refine ⟨hresolve, ?_⟩
    rw [writeSecret, hresolve, Prog.ok_bind, handle_ask] at h ⊢
    rcases hexec : (server rkyv).exec s (.putVersion path'
      ⟨secretValue sonic fromUtf8Lossy body, 0⟩ none) (choices.headD []) with ⟨e | u, s'⟩
    · rw [hexec] at h
      cases h
    · have hrequest := request_eq_exec rkyv s (.putVersion path'
        ⟨secretValue sonic fromUtf8Lossy body, 0⟩ none) (choices.headD [])
      rw [hexec] at hrequest
      have hcreated := request_putVersion_ok hrkyv (congrArg Prod.fst hrequest)
      rw [hrequest] at hcreated
      exact hcreated

/-- The response to a read of a version. -/
theorem handle_readSecret (rkyv : Rkyv B) {uri : Uri} (s : KvEngine B) {path : String}
    {version : UInt32} (hresolve : resolve mounted uri "data" = .done (.ok path))
    (hversion : extractVersionParam uri = version) (hhealthy : Healthy (choices.headD [])) :
    (∀ payload state,
      readResult rkyv s.view (.readVersion path version) = .ok (.version payload state) →
      (handle rkyv s (readSecret mounted uri) choices).1 =
        .ok (.json (secretBody payload state))) ∧
    ∀ e, readResult rkyv s.view (.readVersion path version) = .error e →
      (handle rkyv s (readSecret mounted uri) choices).1 = .error (.error (.engine e)) := by
  have hrequest := request_read rkyv s (c := .readVersion path version) rfl hhealthy
  rw [readSecret, hresolve, Prog.ok_bind, hversion, handle_ask]
  constructor
  · intro payload state hread
    obtain ⟨⟨payload', state'⟩, hout, hexec⟩ := exec_eq_ok rkyv s (hrequest.trans hread)
    obtain ⟨rfl, rfl⟩ := Out.version.inj hout
    rw [hexec]
    rfl
  · intro e hread
    rw [exec_eq_error rkyv s (hrequest.trans hread)]

/-- The value that a body stands for: that of its member `data`, or else of the whole. -/
def BodyValue (body : ByteArray) (d : Value Numeral) : Prop :=
  ∃ text v, body = text.toUTF8 ∧ decode text = some v ∧ d = (v.pointer ["data"]).getD v

/-- The answer to a read is a JSON text with the value of a body and with the state that is
stored for the version. -/
def ReadsBack (rkyv : Rkyv B) (s : KvEngine B) (path : String) (version : UInt32)
    (body : ByteArray) (answer : Except Failure Response) : Prop :=
  ∃ response d state, answer = .ok (.json response) ∧ BodyValue body d ∧
    findVersion version (s.metadata rkyv path) = some state ∧
    decode response = some (secretJson d state)

/-- The version of an accepted write reads back exactly when the body is JSON and the number of
the version is usable. -/
theorem writeSecret_reads_back {rkyv : Rkyv B} (hrkyv : rkyv.Faithful) (sonic : Sonic N)
    (hsonic : sonic.GetsData) (mounted : String → Bool) (fromUtf8Lossy : ByteArray → String)
    (hlossy : ∀ text, fromUtf8Lossy text.toUTF8 = text) (uri : Uri) (query : Option String)
    (body : ByteArray) (s : KvEngine B) (choices choices' : List (List Choice))
    (mount path : String) (hpath : extractMountAndPath uri.path "data" = some (mount, path))
    (hwrite : (handle rkyv s (writeSecret sonic mounted fromUtf8Lossy uri body) choices).1 =
      .ok .noContent)
    (hversion : extractVersionParam ⟨uri.path, query⟩ = s.current rkyv path + 1)
    (hhealthy : Healthy (choices'.headD [])) :
    let s' := (handle rkyv s (writeSecret sonic mounted fromUtf8Lossy uri body) choices).2
    ReadsBack rkyv s' path (s.current rkyv path + 1) body
        (handle rkyv s' (readSecret mounted ⟨uri.path, query⟩) choices').1 ↔
      (∃ d, BodyValue body d) ∧ NumberUsable rkyv s path := by
  obtain ⟨hresolve, hcreated⟩ := writeSecret_ok hrkyv hpath hwrite
  have hagain : resolve mounted ⟨uri.path, query⟩ "data" = .done (.ok path) := hresolve
  generalize (handle rkyv s (writeSecret sonic mounted fromUtf8Lossy uri body) choices).2 = s'
    at hcreated ⊢
  obtain ⟨state, hfound, hread⟩ := readResult_created hcreated
  obtain ⟨hok, herror⟩ := handle_readSecret rkyv s' hagain hversion hhealthy
  constructor
  · rintro ⟨response, d, -, hanswer, hvalue, -, -⟩
    refine ⟨⟨d, hvalue⟩, ?_⟩
    rcases hread with ⟨husable, -⟩ | ⟨-, e, hread⟩
    · exact husable
    · rw [herror e hread] at hanswer
      cases hanswer
  · rintro ⟨⟨d, text, v, rfl, hjson, rfl⟩, husable⟩
    rcases hread with ⟨-, hread⟩ | ⟨hunusable, -⟩
    · exact ⟨_, _, state, hok _ state hread, ⟨text, v, rfl, hjson, rfl⟩, hfound,
        decode_secretBody _ state (decode_secretValue hsonic hlossy hjson)⟩
    · exact (hunusable husable).elim

theorem writeSecret_reads_back_number :
    let body := "\x7b\"data\": 12\x7d".toUTF8
    let s' := (handle Record.rkyv single (writeSecret texts isSecret utf8
      ⟨"/v1/secret/data/p", none⟩ body) []).2
    ReadsBack Record.rkyv s' "p" 2 body (handle Record.rkyv s' (readSecret isSecret
      ⟨"/v1/secret/data/p", some "version=2"⟩) []).1 := by
  refine (writeSecret_reads_back Record.rkyv_faithful texts texts_getsData isSecret utf8 utf8_toUTF8
    ⟨"/v1/secret/data/p", none⟩ (some "version=2") _ single [] [] "secret" "p" (by decide +kernel)
    (by decide +kernel) (by decide +kernel) .nil).mpr ⟨⟨.number (.ofNat 12), ?_⟩, ?_, ?_⟩
  · exact ⟨_, .object [("data", .number (.ofNat 12))], rfl, by decide +kernel, by decide +kernel⟩
  · decide +kernel
  · have hnew : findVersion 2 (single.metadata Record.rkyv "p") = none := by decide +kernel
    exact fun old hold => (Option.some_ne_none old (hold.symm.trans hnew)).elim

/-- A body that is no JSON is stored and read as it is. -/
theorem writeSecret_reads_other :
    let written := handle Record.rkyv single (writeSecret texts isSecret utf8
      ⟨"/v1/secret/data/p", none⟩ "not json".toUTF8) []
    let read := handle Record.rkyv written.2 (readSecret isSecret
      ⟨"/v1/secret/data/p", some "version=2"⟩) []
    texts.GetsData ∧ (∀ text, utf8 text.toUTF8 = text) ∧ written.1 = .ok .noContent ∧
      read.1.toOption.map (fun r => decode r.body) = some none :=
  ⟨texts_getsData, utf8_toUTF8, by decide +kernel, by decide +kernel⟩

end Kallisto.Http
