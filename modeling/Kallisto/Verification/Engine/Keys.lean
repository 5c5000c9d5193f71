import Kallisto.Model.KvEngine

/-! # Keys and records -/

namespace Kallisto.Engine

/-! ## Keys determine what they name -/

theorem toList_toString (n : ℕ) : (toString n).toList = Nat.toDigits 10 n := by
  change (String.ofList (Nat.toDigits 10 n)).toList = _
  exact String.toList_ofList

theorem toDigits_inj {m n : ℕ} (h : Nat.toDigits 10 m = Nat.toDigits 10 n) : m = n := by
  rw [← Nat.ofDigitChars_toDigits (b := 10) (n := m) (by decide) (by decide), h,
    Nat.ofDigitChars_toDigits (by decide) (by decide)]

/-- The last separator splits a list in one way. -/
theorem append_cons_inj {α : Type*} {c : α} {x y a b : List α} (ha : c ∉ a) (hb : c ∉ b)
    (h : x ++ c :: a = y ++ c :: b) : x = y ∧ a = b := by
  rcases List.append_eq_append_iff.mp h with ⟨z, rfl, hz⟩ | ⟨z, rfl, hz⟩
  · cases z with
    | nil => simpa using hz
    | cons d z =>
      obtain ⟨rfl, rfl⟩ : c = d ∧ a = z ++ c :: b := by simpa using hz
      simp at ha
  · cases z with
    | nil => simpa using hz.symm
    | cons d z =>
      obtain ⟨rfl, rfl⟩ : c = d ∧ b = z ++ c :: a := by simpa using hz
      simp at hb

theorem buildMetaKey_inj {p q : String} : buildMetaKey p = buildMetaKey q ↔ p = q := by
  rw [← String.toList_inj, buildMetaKey, buildMetaKey, String.toList_append,
    String.toList_append, List.append_cancel_left_eq, String.toList_inj]

theorem colon_not_mem_toString (n : ℕ) : ':' ∉ (toString n).toList := by
  rw [toList_toString]
  intro hmem
  have hdigit := Nat.isDigit_of_mem_toDigits (by decide) (by decide) hmem
  revert hdigit
  decide

theorem toList_buildVersionKey (p : String) (n : UInt32) :
    (buildVersionKey p n).toList = ('v' :: ':' :: p.toList) ++ ':' :: (toString n.toNat).toList := by
  simp [buildVersionKey, String.toList_append]

theorem buildVersionKey_inj {p q : String} {m n : UInt32} :
    buildVersionKey p m = buildVersionKey q n ↔ p = q ∧ m = n := by
  constructor
  · intro h
    rw [← String.toList_inj, toList_buildVersionKey, toList_buildVersionKey] at h
    obtain ⟨hpath, hversion⟩ :=
      append_cons_inj (colon_not_mem_toString _) (colon_not_mem_toString _) h
    rw [toList_toString, toList_toString] at hversion
    exact ⟨String.toList_inj.mp (by simpa using hpath), UInt32.toNat_inj.mp (toDigits_inj hversion)⟩
  · rintro ⟨rfl, rfl⟩
    rfl

theorem buildMetaKey_ne_buildVersionKey (p q : String) (n : UInt32) :
    buildMetaKey p ≠ buildVersionKey q n := by
  intro h
  rw [← String.toList_inj, toList_buildVersionKey, buildMetaKey, String.toList_append] at h
  have hhead := congrArg List.head? h
  simp at hhead

/-! ## Bytes of texts -/

theorem fromUTF8?_eq_some {body : ByteArray} {text : String} :
    String.fromUTF8? body = some text ↔ body = text.toUTF8 := by
  unfold String.fromUTF8?
  constructor
  · intro h
    split at h
    · cases h
      rfl
    · cases h
  · rintro rfl
    exact dif_pos text.isValidUTF8

/-! ## Faithful encodings -/

/-- Every record is encoded, and its archived form has the same contents. -/
structure Rkyv.Faithful {B : Type} (rkyv : Rkyv B) : Prop where
  metadata : ∀ m, ∃ b, rkyv.metadataToBytes m = .ok b ∧ rkyv.archivedMetadata b = m
  payload : ∀ x, ∃ b, rkyv.payloadToBytes x = .ok b ∧ rkyv.archivedPayload b = x

/-- Records kept as they are. -/
inductive Record where
  | metadata (m : KeyMetadata)
  | payload (x : SecretPayload)
  deriving DecidableEq, Repr

def Record.rkyv : Rkyv Record where
  metadataToBytes m := .ok (.metadata m)
  payloadToBytes x := .ok (.payload x)
  archivedMetadata
    | .metadata m => m
    | .payload _ => .default
  archivedPayload
    | .payload x => x
    | .metadata _ => ⟨"", 0⟩

theorem Record.rkyv_faithful : Record.rkyv.Faithful :=
  ⟨fun m => ⟨.metadata m, rfl, rfl⟩, fun x => ⟨.payload x, rfl, rfl⟩⟩

/-- A database with one version of one path. -/
def Record.single (key : String) : Option Record :=
  if key = buildMetaKey "p" then
    some (.metadata ⟨1, 0, false, 0, [], [⟨1, 0, 1, false⟩]⟩)
  else if key = buildVersionKey "p" 1 then some (.payload ⟨"x", 0⟩)
  else none

end Kallisto.Engine
