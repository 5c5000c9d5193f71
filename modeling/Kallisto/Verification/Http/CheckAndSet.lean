import Kallisto.Verification.Http.Numbers

/-! # Check-and-set on writes -/

namespace Kallisto.Http

open Program Engine Json

variable {B N : Type}

/-- A write creates a version on a healthy storage with room, whatever its options are. -/
theorem writeSecret_creates {rkyv : Rkyv B} (hrkyv : rkyv.Faithful) (sonic : Sonic N)
    {mounted : String → Bool} (fromUtf8Lossy : ByteArray → String) {uri : Uri} (body : ByteArray)
    {s : KvEngine B} {choices : List (List Choice)} {mount path : String}
    (hpath : extractMountAndPath uri.path "data" = some (mount, path))
    (hmount : mounted mount = true) (hhealthy : Healthy (choices.headD [])) (hroom : s.Room 2) :
    (handle rkyv s (writeSecret sonic mounted fromUtf8Lossy uri body) choices).1 =
        .ok .noContent ∧
      Created rkyv s (handle rkyv s (writeSecret sonic mounted fromUtf8Lossy uri body) choices).2
        path ⟨secretValue sonic fromUtf8Lossy body, 0⟩ := by
  have hcas : ∀ expected, none = some expected → expected = s.current rkyv path := nofun
  obtain ⟨hok, hcreated⟩ := request_putVersion hrkyv
    ⟨secretValue sonic fromUtf8Lossy body, 0⟩ hcas hhealthy hroom
  obtain ⟨x, -, hexec⟩ := exec_eq_ok rkyv s hok
  rw [writeSecret, resolve_of_mounted hpath hmount, Prog.ok_bind, handle_ask, hexec]
  exact ⟨rfl, hcreated⟩

/-- A write honours the check-and-set number of its body: it creates a version if the number is that
of the current version, and else it is refused and stores nothing. -/
structure CasHonoured (rkyv : Rkyv B) (s : KvEngine B) (path : String) (c : ℕ) (x : SecretPayload)
    (ended : Except Failure Response × KvEngine B) : Prop where
  creates : c = (s.current rkyv path).toNat →
    ended.1 = .ok .noContent ∧ Created rkyv s ended.2 path x
  refuses : c ≠ (s.current rkyv path).toNat →
    (∃ expected actual, ended.1 = .error (.error (.engine (.casMismatch expected actual)))) ∧
      s.Fills ended.2

/-- A write honours `options.cas` only where the number is that of the current version. A patch with
the same body creates a version exactly there. -/
theorem writeSecret_honours_cas {rkyv : Rkyv B} (hrkyv : rkyv.Faithful) (sonic : Sonic N)
    (mounted : String → Bool) (fromUtf8Lossy : ByteArray → String) (uri : Uri) (body : ByteArray)
    (s : KvEngine B) (choices : List (List Choice)) (mount path : String) (patch : Value N) (c : ℕ)
    (hpath : extractMountAndPath uri.path "data" = some (mount, path))
    (hmount : mounted mount = true) (hbody : sonic.fromSlice body = some patch)
    (hc : casInteger sonic patch = some c) (hhealthy : Healthy (choices.headD []))
    (hroom : s.Room 2) :
    (CasHonoured rkyv s path c ⟨secretValue sonic fromUtf8Lossy body, 0⟩
        (handle rkyv s (writeSecret sonic mounted fromUtf8Lossy uri body) choices) ↔
      c = (s.current rkyv path).toNat) ∧
    ∀ payload state, readResult rkyv s.view (.readVersion path 0) = .ok (.version payload state) →
      (∀ given ∈ choices, Healthy given) → c < 2 ^ 32 →
      ((∃ x, Created rkyv s (handle rkyv s (patchSecret sonic mounted uri body) choices).2 path x) ↔
        c = (s.current rkyv path).toNat) := by
  have hwritten := writeSecret_creates hrkyv sonic fromUtf8Lossy body hpath hmount hhealthy hroom
  refine ⟨⟨fun honoured => ?_, fun hmatches => ?_⟩, fun payload state hread hall hlt => ?_⟩
  · by_contra hne
    obtain ⟨⟨expected, actual, herror⟩, -⟩ := honoured.refuses hne
    exact nomatch herror.symm.trans hwritten.1
  · exact ⟨fun _ => hwritten, fun hne => (hne hmatches).elim⟩
  · obtain ⟨cas, hcas, hnumber⟩ := optionsCas_of_casInteger hc
    rw [Nat.mod_eq_of_lt hlt] at hnumber
    rw [← hnumber, UInt32.toNat_inj]
    constructor
    · rintro ⟨x, hcreated⟩
      by_contra hne
      exact hcreated.not_fills (patchSecret_mismatch hpath hbody hcas hne)
    · intro hmatches
      refine patchSecret_creates hpath hrkyv hbody hmount (fun cas' hcas' => ?_) hread hall hroom
      rw [Option.some.inj (hcas'.symm.trans hcas), hmatches]

/-- A body with data and a check-and-set. -/
def casBody (cas : String) : ByteArray :=
  ("\x7b\"data\":\x7b\"a\":1\x7d, \"options\":\x7b\"cas\":" ++ cas ++ "\x7d\x7d").toUTF8

/-- The texts that bodies stand for, when they stand for one. -/
def utf8 (body : ByteArray) : String :=
  (String.fromUTF8? body).getD ""

theorem writeSecret_honours_cas_current :
    CasHonoured Record.rkyv single "p" 1 ⟨secretValue texts utf8 (casBody "1"), 0⟩
        (handle Record.rkyv single (writeSecret texts isSecret utf8 ⟨"/v1/secret/data/p", none⟩
          (casBody "1")) []) ∧
      ∃ x, Created Record.rkyv single (handle Record.rkyv single
        (patchSecret texts isSecret ⟨"/v1/secret/data/p", none⟩ (casBody "1")) []).2 "p" x := by
  have hcas : (texts.fromSlice (casBody "1")).bind (casInteger texts) = some 1 := by decide +kernel
  obtain ⟨patch, hbody, hc⟩ := Option.bind_eq_some_iff.mp hcas
  obtain ⟨hwrites, hpatches⟩ := writeSecret_honours_cas Record.rkyv_faithful texts isSecret utf8
    ⟨"/v1/secret/data/p", none⟩ (casBody "1") single [] "secret" "p" patch 1
    (by decide +kernel) (by decide +kernel) hbody hc nofun nofun
  exact ⟨hwrites.mpr (by decide +kernel), (hpatches ⟨"x", 0⟩ ⟨1, 0, 1, false⟩ (by decide +kernel)
    (List.forall_mem_nil _) (by decide)).mpr (by decide +kernel)⟩

/-- A write with the wrong check-and-set creates a version all the same. -/
theorem writeSecret_ignores_cas :
    let ended := handle Record.rkyv single
      (writeSecret texts isSecret utf8 ⟨"/v1/secret/data/p", none⟩ (casBody "5")) []
    (texts.fromSlice (casBody "5")).bind (casInteger texts) = some 5 ∧
      single.current Record.rkyv "p" = 1 ∧ ended.1 = .ok .noContent ∧
      ended.2.current Record.rkyv "p" = 2 ∧
      (request Record.rkyv single (.putVersion "p" ⟨"y", 0⟩ (some 5)) []).1 =
        .error (.casMismatch 5 1) := by
  decide +kernel

end Kallisto.Http
