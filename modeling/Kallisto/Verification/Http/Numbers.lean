import Kallisto.Verification.Http.MergePatch
import Kallisto.Verification.Http.Versions

/-! # Numbers in request bodies -/

namespace Kallisto.Http

open Program Engine Json

variable {B N : Type}

/-! ## Lists of versions -/

/-- The unsigned integers of the member `versions`. -/
def listedIntegers (sonic : Sonic N) (body : ByteArray) : List ℕ :=
  match ((sonic.fromSlice body).bind fun root => root.pointer ["versions"]).bind Value.asArray with
  | some items => items.filterMap fun item => (sonic.valueAsU64 item).map UInt64.toNat
  | none => []

theorem parseVersionsList_toNat (sonic : Sonic N) (body : ByteArray) :
    (parseVersionsList sonic body).map UInt32.toNat =
      (listedIntegers sonic body).map (· % 2 ^ 32) := by
  unfold parseVersionsList listedIntegers
  cases ((sonic.fromSlice body).bind fun root => root.pointer ["versions"]).bind Value.asArray with
  | some items =>
    dsimp only
    rw [List.map_filterMap, List.map_filterMap]
    refine congrArg (List.filterMap · items) (funext fun item => ?_)
    rw [Option.map_map, Option.map_map]
    exact congrArg (Option.map · _) (funext fun n => UInt64.toNat_toUInt32 n)
  | none => rfl

/-- The numbers that fit 32 bits are passed on exactly when all do. -/
theorem parseVersionsList_eq_filter (sonic : Sonic N) (body : ByteArray) :
    (parseVersionsList sonic body).map UInt32.toNat =
        (listedIntegers sonic body).filter (· < 2 ^ 32) ↔
      ∀ n ∈ listedIntegers sonic body, n < 2 ^ 32 := by
  rw [parseVersionsList_toNat]
  constructor
  · intro h n hn
    have hlength := congrArg List.length h
    rw [List.length_map] at hlength
    exact of_decide_eq_true (List.length_filter_eq_length_iff.mp hlength.symm n hn)
  · intro h
    rw [List.filter_eq_self.mpr fun n hn => decide_eq_true (h n hn)]
    exact (List.map_congr_left fun n hn => Nat.mod_eq_of_lt (h n hn)).trans (List.map_id _)

/-! ## Check-and-set -/

/-- `options.cas` as the body has it. -/
def casInteger (sonic : Sonic N) (body : Value N) : Option ℕ :=
  (((body.pointer ["options"]).bind fun opts => opts.pointer ["cas"]).bind
    sonic.valueAsU64).map UInt64.toNat

theorem optionsCas_toNat (sonic : Sonic N) (body : Value N) :
    (optionsCas sonic body).map UInt32.toNat = (casInteger sonic body).map (· % 2 ^ 32) := by
  unfold optionsCas casInteger
  rw [Option.map_map, Option.map_map]
  exact congrArg (Option.map · _) (funext fun n => UInt64.toNat_toUInt32 n)

theorem optionsCas_of_casInteger {sonic : Sonic N} {body : Value N} {c : ℕ}
    (hc : casInteger sonic body = some c) :
    ∃ cas : UInt32, optionsCas sonic body = some cas ∧ cas.toNat = c % 2 ^ 32 := by
  have h := optionsCas_toNat sonic body
  rw [hc, Option.map_some] at h
  exact Option.map_eq_some_iff.mp h

/-! ## Patches -/

/-- There is no latest version. -/
theorem readResult_of_current_zero {rkyv : Rkyv B} {s : KvEngine B} {path : String}
    (h : s.current rkyv path = 0) :
    ∃ e, readResult rkyv s.view (.readVersion path 0) = .error e := by
  rw [readResult_readVersion]
  cases hb : s.view (buildMetaKey path) with
  | none => exact ⟨_, rfl⟩
  | some b =>
    rw [KvEngine.current, hb] at h
    dsimp only
    rw [locate, if_pos rfl, show (rkyv.archivedMetadata b).currentVersion = 0 from h]
    cases (rkyv.archivedMetadata b).versions.find? fun v => v.versionId = 0 with
    | none => exact ⟨_, rfl⟩
    | some v => exact ⟨.invalidVersion 0, by rw [readLocated, if_pos rfl]⟩

section Patches

variable {rkyv : Rkyv B} {sonic : Sonic N} {mounted : String → Bool} {uri : Uri} {body : ByteArray}
  {s : KvEngine B} {mount path : String} {patch : Value N} {choices : List (List Choice)}
  (hpath : extractMountAndPath uri.path "data" = some (mount, path))

include hpath

/-- A patch whose check-and-set does not match writes nothing. -/
theorem patchSecret_mismatch {cas : UInt32} (hbody : sonic.fromSlice body = some patch)
    (hcas : optionsCas sonic patch = some cas)
    (hne : cas ≠ s.current rkyv path) :
    s.Fills (handle rkyv s (patchSecret sonic mounted uri body) choices).2 := by
  unfold patchSecret
  rcases handle_resolve rkyv s mounted uri "data" _ choices with
    hnone | ⟨mount', path', hpath', hrun⟩
  · rw [hnone]
    exact .refl s
  · obtain ⟨-, rfl⟩ := Prod.mk.inj (Option.some.inj (hpath'.symm.trans hpath))
    rw [hrun]
    obtain ⟨s₁, hfills, ⟨e, hrun⟩ | ⟨⟨current, state⟩, hrun⟩⟩ :=
      handle_ask_read (c := .readVersion path' 0) rkyv s rfl _ choices
    · rw [hrun]
      exact hfills
    · rw [hrun]
      dsimp only
      rw [hbody]
      dsimp only
      cases jsonMergePatch (currentValue sonic current.value) (patchData patch) with
      | none => exact hfills
      | some merged =>
        have hne₁ : cas ≠ s₁.current rkyv path' := by
          rwa [KvEngine.current, hfills.view]
        rw [hcas]
        change s.Fills (handle rkyv s₁ (ask (.putVersion path'
          ⟨sonic.toString merged, current.ttl⟩ (some cas)) >>= _) choices.tail).2
        obtain ⟨e, s₂, hfills₂, hrun₂⟩ := handle_ask_unwritten rkyv s₁
          (by exact Option.some_ne_none _) _ (acceptedWrites_putVersion_mismatch rkyv s₁ path'
            ⟨sonic.toString merged, current.ttl⟩ (choices.tail.headD []) hne₁)
        rw [hrun₂]
        exact hfills.trans hfills₂

/-- Without a latest version to read, a patch writes nothing. -/
theorem patchSecret_unread (hzero : s.current rkyv path = 0) :
    s.Fills (handle rkyv s (patchSecret sonic mounted uri body) choices).2 := by
  unfold patchSecret
  rcases handle_resolve rkyv s mounted uri "data" _ choices with
    hnone | ⟨mount', path', hpath', hrun⟩
  · rw [hnone]
    exact .refl s
  · obtain ⟨-, rfl⟩ := Prod.mk.inj (Option.some.inj (hpath'.symm.trans hpath))
    have hrequest := request_eq_exec rkyv s (.readVersion path' 0) (choices.headD [])
    have hfills := request_fills rkyv s (c := .readVersion path' 0) (choices.headD []) rfl
    rw [hrun, handle_ask]
    rcases hexec : (server rkyv).exec s (.readVersion path' 0) (choices.headD []) with ⟨e | x, s₁⟩
    · rw [hrequest, hexec] at hfills
      exact hfills
    · rw [hexec] at hrequest
      have hread := request_read_ok rkyv s rfl (congrArg Prod.fst hrequest)
      obtain ⟨e, herror⟩ := readResult_of_current_zero hzero
      exact nomatch herror.symm.trans hread

/-- A patch of a version that can be read, with a check-and-set that matches, creates a version. -/
theorem patchSecret_creates (hrkyv : rkyv.Faithful) (hbody : sonic.fromSlice body = some patch)
    (hmount : mounted mount = true)
    (hcas : ∀ cas, optionsCas sonic patch = some cas → cas = s.current rkyv path)
    {payload : SecretPayload} {state : VersionState}
    (hread : readResult rkyv s.view (.readVersion path 0) = .ok (.version payload state))
    (hhealthy : ∀ given ∈ choices, Healthy given) (hroom : s.Room 2) :
    ∃ x, Created rkyv s (handle rkyv s (patchSecret sonic mounted uri body) choices).2 path x := by
  have hok := (request_read rkyv s (c := .readVersion path 0) rfl (healthy_head hhealthy)).trans hread
  have hfills := request_fills rkyv s (c := .readVersion path 0) (choices.headD []) rfl
  obtain ⟨⟨current, state'⟩, -, hexec⟩ := exec_eq_ok rkyv s hok
  generalize (request rkyv s (.readVersion path 0) (choices.headD [])).2 = s₁ at hfills hexec
  rw [patchSecret, resolve_of_mounted hpath hmount, Prog.ok_bind, handle_ask, hexec]
  dsimp only
  rw [hbody]
  dsimp only
  rw [jsonMergePatch_eq]
  have hcas₁ : ∀ cas, optionsCas sonic patch = some cas → cas = s₁.current rkyv path := by
    rw [KvEngine.current, hfills.view]
    exact hcas
  obtain ⟨hput, hcreated⟩ := request_putVersion hrkyv ⟨sonic.toString
    (mergePatch (some (currentValue sonic current.value)) (patchData patch)), current.ttl⟩ hcas₁
    (healthy_head fun given hmem => hhealthy given (List.mem_of_mem_tail hmem)) (hroom.fills hfills)
  obtain ⟨u, -, hexec₁⟩ := exec_eq_ok rkyv s₁ hput
  generalize (request rkyv s₁ _ _).2 = s₂ at hcreated hexec₁
  refine ⟨_, hcreated.congr hfills.view.symm ?_⟩
  change (handle rkyv s₁ (ask (.putVersion path _ _) >>= _) choices.tail).2.view = s₂.view
  rw [handle_ask, hexec₁]
  dsimp only
  obtain ⟨s₃, hfills₂, ⟨e, hrun⟩ | ⟨metadata, hrun⟩⟩ :=
    handle_ask_read (c := .readMetadata path) rkyv s₂ rfl _ choices.tail.tail
  · rw [hrun, ← hfills₂.view]
  · rw [hrun, ← hfills₂.view]
    cases metadata.versions.getLast? <;> rfl

end Patches

/-! ## No reduction -/

/-- A version whose number is not 0 can be patched with its number in the check-and-set. -/
theorem exists_patchable {rkyv : Rkyv B} (hrkyv : rkyv.Faithful) (path : String) {n : UInt32}
    (hn : n ≠ 0) : ∃ (s : KvEngine B) (payload : SecretPayload) (state : VersionState),
      s.current rkyv path = n ∧ s.Room 2 ∧
        readResult rkyv s.view (.readVersion path 0) = .ok (.version payload state) := by
  obtain ⟨b, -, hb⟩ := hrkyv.metadata { KeyMetadata.default with
    currentVersion := n, versions := [⟨0, 0, n, false⟩] }
  obtain ⟨b', -, hb'⟩ := hrkyv.payload ⟨"", 0⟩
  let db (key : String) : Option B := if key = buildMetaKey path then some b else some b'
  have hmeta : db (buildMetaKey path) = some b := if_pos rfl
  have hpayload : db (buildVersionKey path n) = some b' :=
    if_neg (buildMetaKey_ne_buildVersionKey path path n).symm
  refine ⟨.opened db .immediate [], ⟨"", 0⟩, ⟨0, 0, n, false⟩, ?_, ?_, ?_⟩
  · change ((db (buildMetaKey path)).map _).getD 0 = n
    rw [hmeta, Option.map_some, Option.getD_some, hb]
  · exact fun hmode => nomatch hmode
  · change readResult rkyv db (.readVersion path 0) = _
    rw [readResult_readVersion, hmeta]
    simp [hb, hb', locate, readLocated, hn, hpayload]

/-- The listed versions that fit 32 bits are those passed to the engine exactly when all fit. A patch
creates versions only of the current version that its check-and-set gives exactly when the number
fits 32 bits, or is cut to 0, which is no version. -/
theorem body_numbers_not_reduced {rkyv : Rkyv B} (hrkyv : rkyv.Faithful) (sonic : Sonic N)
    (mounted : String → Bool) (uri : Uri) (body : ByteArray) :
    (∀ kind : VersionsRequest, kind.handler sonic mounted uri body = do
      let path ← resolve mounted uri kind.action
      forVersions (kind.askFor path) (parseVersionsList sonic body)
      return .noContent) ∧
    ((parseVersionsList sonic body).map UInt32.toNat =
        (listedIntegers sonic body).filter (· < 2 ^ 32) ↔
      ∀ n ∈ listedIntegers sonic body, n < 2 ^ 32) ∧
    ∀ mount path patch c, extractMountAndPath uri.path "data" = some (mount, path) →
      mounted mount = true → sonic.fromSlice body = some patch → casInteger sonic patch = some c →
      ((∀ (s : KvEngine B) choices x,
          Created rkyv s (handle rkyv s (patchSecret sonic mounted uri body) choices).2 path x →
          c = (s.current rkyv path).toNat) ↔
        c < 2 ^ 32 ∨ 2 ^ 32 ∣ c) ∧
      (c < 2 ^ 32 ∨ 2 ^ 32 ∣ c → ∀ (s : KvEngine B) choices, c ≠ (s.current rkyv path).toNat →
        s.Fills (handle rkyv s (patchSecret sonic mounted uri body) choices).2) := by
  refine ⟨fun kind => kind.handler_eq sonic mounted uri body, parseVersionsList_eq_filter sonic body,
    ?_⟩
  intro mount path patch c hpath hmount hbody hc
  obtain ⟨cas, hcas, hnumber⟩ := optionsCas_of_casInteger hc
  have hsafe : c < 2 ^ 32 ∨ 2 ^ 32 ∣ c → ∀ (s : KvEngine B) choices,
      c ≠ (s.current rkyv path).toNat →
      s.Fills (handle rkyv s (patchSecret sonic mounted uri body) choices).2 := by
    intro hfits s choices hne
    by_cases hmatches : cas = s.current rkyv path
    · refine patchSecret_unread hpath ?_
      rcases hfits with hlt | hzero
      · rw [Nat.mod_eq_of_lt hlt, hmatches] at hnumber
        exact (hne hnumber.symm).elim
      · rw [Nat.mod_eq_zero_of_dvd hzero, hmatches] at hnumber
        exact UInt32.toNat_inj.mp hnumber
    · exact patchSecret_mismatch hpath hbody hcas hmatches
  refine ⟨⟨fun hall => ?_, fun hfits s choices x hcreated => ?_⟩, hsafe⟩
  · by_contra hcut
    rw [not_or, Nat.not_lt] at hcut
    have hne : cas ≠ 0 := by
      rintro rfl
      exact hcut.2 (Nat.dvd_of_mod_eq_zero hnumber.symm)
    obtain ⟨s, payload, state, hcurrent, hroom, hread⟩ := exists_patchable hrkyv path hne
    have hcas' : ∀ cas', optionsCas sonic patch = some cas' → cas' = s.current rkyv path :=
      fun cas' hcas' => by rw [hcurrent, Option.some.inj (hcas'.symm.trans hcas)]
    obtain ⟨x, hcreated⟩ := patchSecret_creates hpath hrkyv hbody hmount hcas' hread
      (List.forall_mem_nil _) hroom
    have hcut' := hall s [] x hcreated
    rw [hcurrent] at hcut'
    exact absurd (UInt32.toNat_lt cas) (by omega)
  · by_contra hne
    exact hcreated.not_fills (hsafe hfits s choices hne)

/-- A body whose numbers fit 32 bits. -/
def smallBody : ByteArray :=
  "\x7b\"versions\":[1, 2], \"options\":\x7b\"cas\":3\x7d\x7d".toUTF8

theorem body_numbers_not_reduced_small :
    (parseVersionsList texts smallBody).map UInt32.toNat = [1, 2] ∧
      ∀ (s : KvEngine Record) choices, s.current Record.rkyv "p" ≠ 3 →
        s.Fills (handle Record.rkyv s
          (patchSecret texts isSecret ⟨"/v1/secret/data/p", none⟩ smallBody) choices).2 := by
  have hlisted : listedIntegers texts smallBody = [1, 2] := by decide +kernel
  have hcas : (texts.fromSlice smallBody).bind (casInteger texts) = some 3 := by decide +kernel
  obtain ⟨patch, hpatch, hc⟩ := Option.bind_eq_some_iff.mp hcas
  obtain ⟨-, hpassed, hpatches⟩ := body_numbers_not_reduced Record.rkyv_faithful texts isSecret
    ⟨"/v1/secret/data/p", none⟩ smallBody
  constructor
  · rw [hpassed.mpr (by rw [hlisted]; decide), hlisted]
    rfl
  · intro s choices hne
    refine (hpatches "secret" "p" patch 3 (by decide +kernel) (by decide +kernel) hpatch hc).2
      (Or.inl (by decide)) s choices fun heq => hne ?_
    exact UInt32.toNat_inj.mp heq.symm

/-- A number of 33 bits destroys the version of its low bits, and passes for it in a
check-and-set. -/
theorem body_numbers_reduced :
    let destroyed := handle Record.rkyv single (destroyVersions texts isSecret
      ⟨"/v1/secret/destroy/p", none⟩ "\x7b\"versions\":[4294967297]\x7d".toUTF8) []
    let patched := handle Record.rkyv single (patchSecret texts isSecret
      ⟨"/v1/secret/data/p", none⟩
      "\x7b\"data\":1, \"options\":\x7b\"cas\":4294967297\x7d\x7d".toUTF8) []
    (destroyed.1 = .ok .noContent ∧
      (request Record.rkyv single (.readVersion "p" 1) []).1 =
        .ok (.version ⟨"x", 0⟩ ⟨1, 0, 1, false⟩) ∧
      (request Record.rkyv destroyed.2 (.readVersion "p" 1) []).1 = .error .destroyed) ∧
      single.current Record.rkyv "p" = 1 ∧ patched.2.current Record.rkyv "p" = 2 := by
  decide +kernel

end Kallisto.Http
