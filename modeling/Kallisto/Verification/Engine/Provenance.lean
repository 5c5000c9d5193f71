import Kallisto.Library.Codec
import Kallisto.Library.Contracts
import Kallisto.Verification.Engine.Assembly
import Kallisto.Verification.Engine.Records

/-! # Where records come from

Records are read in place, as metadata or as a payload, without validation. Every record
under a key was made by the serialiser that its readers rely on, and every payload under
the keys of a path was put there by a request for that path. -/

namespace Kallisto.Engine

open Program Interleaving Cuckoo

variable {B : Type}

/-! ## Authentic records -/

/-- The bytes under a metadata key are serialised metadata, and those under a version key a
serialised payload that belongs to its path. -/
structure Authentic (rkyv : Rkyv B) (S : String → SecretPayload → Prop) (key : String) (b : B) :
    Prop where
  metadata : ∀ path, key = buildMetaKey path → ∃ m, rkyv.metadataToBytes m = .ok b
  payload : ∀ path n, key = buildVersionKey path n →
    ∃ x, S path x ∧ rkyv.payloadToBytes x = .ok b

section Authentic

variable {rkyv : Rkyv B} {S : String → SecretPayload → Prop} {path : String}

theorem authentic_metadata {m : KeyMetadata} {b : B} (h : rkyv.metadataToBytes m = .ok b) :
    Authentic rkyv S (buildMetaKey path) b :=
  ⟨fun _ _ => ⟨m, h⟩, fun _ _ heq => (buildMetaKey_ne_buildVersionKey _ _ _ heq).elim⟩

theorem authentic_payload {x : SecretPayload} {b : B} (n : UInt32) (hx : S path x)
    (h : rkyv.payloadToBytes x = .ok b) : Authentic rkyv S (buildVersionKey path n) b := by
  constructor
  · exact fun path' heq => (buildMetaKey_ne_buildVersionKey _ _ _ heq.symm).elim
  · intro path' n' heq
    obtain ⟨rfl, rfl⟩ := buildVersionKey_inj.mp heq
    exact ⟨x, hx, h⟩

/-- Records stay authentic, and metadata is read without the custom entries. -/
theorem upkeep_authentic (hread : ∀ path x b, S path x → rkyv.payloadToBytes x = .ok b →
    S path (rkyv.archivedPayload b)) :
    Upkeep rkyv (Authentic rkyv S) (fun _ m => m.customMetadata = []) S where
  default _ := rfl
  grown _ _ _ hm := hm
  updated _ _ _ _ _ hm := hm
  metadata _ _ _ := rfl
  storeMetadata _ _ _ _ hb := authentic_metadata hb
  payload path n b hb := by
    obtain ⟨x, hx, hbytes⟩ := hb.payload path n rfl
    exact hread path x b hx hbytes
  storePayload _ n _ _ hx hb := authentic_payload n hx hb

end Authentic

/-! ## Reading in place -/

/-- The answer to a call that reads bytes under a key. -/
def Effect.Finds (key : String) (b : Bytes) : (op : Effect Bytes) → op.Ret → Prop
  | .cacheLookup key', (found : Option Bytes) => key' = key ∧ found = some b
  | .getRaw key', (found : Except String (Option Bytes)) => key' = key ∧ found = .ok (some b)
  | _, _ => False

theorem authentic_of_finds {P : String → Bytes → Prop} {key : String} {b : Bytes}
    {M : String → Prop} {op : Effect Bytes} {r : op.Ret}
    (hpossible : (recordProtocol P M).possible () op r)
    (hfinds : op.Finds key b r) : P key b := by
  cases op with
  | cacheLookup key' =>
    obtain ⟨rfl, rfl⟩ := hfinds
    exact hpossible b rfl
  | getRaw key' =>
    obtain ⟨rfl, rfl⟩ := hfinds
    exact hpossible.1 b rfl
  | cacheInsert key' b' => exact hfinds.elim
  | cacheRemove key' => exact hfinds.elim
  | putRaw key' b' => exact hfinds.elim
  | delRaw key' => exact hfinds.elim
  | enqueue op' => exact hfinds.elim
  | getSyncMode => exact hfinds.elim
  | nowMs => exact hfinds.elim
  | insertPathIfAbsent path => exact hfinds.elim

/-- All that happened on the parts of the engine kept to the protocol of records, and RocksDB holds
only records that meet the fact. -/
structure KeptRecords {h : ShardedHashing} {Tid ε C O : Type} (P : String → Bytes → Prop)
    (M : String → Prop) (F : C → Except ε O → Prop) (p : Pool (assembled h) ε C O Tid) : Prop where
  stored : ∀ key b, p.shared.rocksdb key = some b → P key b
  answers : ∀ t op r, .act t op r ∈ p.log → (recordProtocol P M).possible () op r
  results : ∀ t c r, .respond t c r ∈ p.log → F c r

theorem assembled_honoured (Tid : Type) [DecidableEq Tid] {ε C O : Type} (h : ShardedHashing)
    (db : String → Option Bytes) (keys : List String) (mode : SyncMode)
    (body : C → Prog (Effect.Ret (B := Bytes)) ε O) :
    ∃ s, Assembly.opened db keys mode = some s ∧
      ∀ (labels : List (Label (assembled h) C Tid)) (P : String → Bytes → Prop) (M : String → Prop)
        (F : C → Except ε O → Prop), (∀ key b, db key = some b → P key b) →
        (∀ t (x : Assembly.Choice), .act t x ∈ labels → ∀ e, x.error = some e → M e) →
        (∀ t c, .invoke t c ∈ labels →
          Follows (recordProtocol P M) (fun _ => F c) () (body c)) →
        KeptRecords P M F ((Pool.init s).run body labels) := by
  obtain ⟨s, hopened, hstart⟩ := opened_agrees h db keys mode
  refine ⟨s, hopened, fun labels P M F hdb hchoices hbody => ?_⟩
  obtain ⟨labels', hlabels, hagree⟩ := hstart.run body labels
  have hinit : (KvEngine.opened db mode (scannedIndex keys)).Meets P :=
    ⟨nofun, hdb, nofun⟩
  have hchoices' : ∀ t (x : Choice), .act t x ∈ labels' → ∀ e, x.error = some e → M e := by
    intro t x hmem
    obtain ⟨l, hl, heq⟩ := Simulation.mem_of_shown hlabels hmem rfl
    cases l <;> cases heq
    exact hchoices t _ hl
  have hbody' : ∀ t c, .invoke t c ∈ labels' →
      Follows (recordProtocol P M) (fun _ => F c) () (body c) := by
    intro t c hmem
    obtain ⟨l, hl, heq⟩ := Simulation.mem_of_shown hlabels hmem rfl
    cases l <;> cases heq
    exact hbody t c hl
  have hhonoured := Honoured.run (fun s op choice hs hallowed hok => hs.exec op hallowed hok)
    (fun s e hs => hs.env e) (honoured_init hinit) hchoices' hbody'
  constructor
  · exact fun key b hb => hhonoured.shared.rocksdb key b (hagree.related.rocksdb ▸ hb)
  · exact fun t op r hmem => hhonoured.answers t op r ((hagree.mem_log (.act t op r)).mp hmem)
  · exact fun t c r hmem => hhonoured.results t c r ((hagree.mem_log (.respond t c r)).mp hmem)

/-- Metadata is read in place only from bytes that are serialised metadata, and a payload only
from bytes that are a serialised payload: all bytes that any client finds under a key, in the
cache or in RocksDB, come from the serialiser of its kind, if those of the database did. -/
theorem run_readsInPlace {Tid : Type} [DecidableEq Tid] (h : ShardedHashing) (rkyv : Rkyv Bytes)
    (db : String → Option Bytes) (keys : List String) (mode : SyncMode)
    (hdb : ∀ key b, db key = some b → Authentic rkyv (fun _ _ => True) key b) :
    ∃ s, Assembly.opened db keys mode = some s ∧
      ∀ (labels : List (Label (assembled h) Call Tid)) t op r key b,
        .act t op r ∈ ((Pool.init s).run (body rkyv) labels).log → op.Finds key b r →
          (∀ path, key = buildMetaKey path → ∃ m, rkyv.metadataToBytes m = .ok b) ∧
          ∀ path n, key = buildVersionKey path n → ∃ x, rkyv.payloadToBytes x = .ok b := by
  obtain ⟨s, hopened, hrun⟩ := assembled_honoured Tid h db keys mode (body rkyv)
  refine ⟨s, hopened, fun labels t op r key b hmem hfinds => ?_⟩
  have hbody := body_keeps (S := fun _ _ => True) (T := fun _ => True)
    (upkeep_authentic fun _ _ _ _ _ => trivial) (Texts.any rkyv fun _ => True)
  have hkept := hrun labels _ _ _ hdb (fun _ _ _ _ _ => trivial)
    fun _ c _ => hbody c fun _ _ _ _ => trivial
  have hauthentic := authentic_of_finds (hkept.answers t op r hmem) hfinds
  refine ⟨hauthentic.metadata, fun path n hkey => ?_⟩
  obtain ⟨x, -, hx⟩ := hauthentic.payload path n hkey
  exact ⟨x, hx⟩

/-! ## An encoding in bytes -/

namespace Plain

def uint32 : Codec UInt32 :=
  Codec.nat.map UInt32.ofNat UInt32.toNat fun _ => UInt32.ofNat_toNat

def uint64 : Codec UInt64 :=
  Codec.nat.map UInt64.ofNat UInt64.toNat fun _ => UInt64.ofNat_toNat

def bool : Codec Bool :=
  Codec.nat.map (· ≠ 0) Bool.toNat fun b => by cases b <;> rfl

def string : Codec String :=
  (Codec.nat.map Char.ofNat Char.toNat Char.ofNat_toNat).list.map String.ofList String.toList
    fun _ => String.ofList_toList

def version : Codec VersionState :=
  (uint64.prod (uint64.prod (uint32.prod bool))).map
    (fun (created, deleted, number, destroyed) => ⟨created, deleted, number, destroyed⟩)
    (fun v => (v.createdTimeMs, v.deletionTimeMs, v.versionId, v.destroyed)) fun _ => rfl

@[irreducible] def metadata : Codec KeyMetadata :=
  (uint32.prod (uint32.prod (bool.prod (uint64.prod ((string.prod string).list.prod
    version.list))))).map
      (fun (current, most, cas, age, custom, versions) => ⟨current, most, cas, age, custom, versions⟩)
      (fun m => (m.currentVersion, m.maxVersions, m.casRequired, m.deleteVersionAfterMs,
        m.customMetadata, m.versions)) fun _ => rfl

@[irreducible] def payload : Codec SecretPayload :=
  (string.prod uint64).map (fun (value, ttl) => ⟨value, ttl⟩) (fun x => (x.value, x.ttl))
    fun _ => rfl

def rkyv : Rkyv Bytes where
  metadataToBytes m := .ok (metadata.put m)
  payloadToBytes x := .ok (payload.put x)
  archivedMetadata bytes := (metadata.take bytes).1
  archivedPayload bytes := (payload.take bytes).1

theorem rkyv_faithful : rkyv.Faithful :=
  ⟨fun m => ⟨metadata.put m, rfl, metadata.take_self m⟩,
    fun x => ⟨payload.put x, rfl, payload.take_self x⟩⟩

/-- A database with one version of one path. -/
def single (key : String) : Option Bytes :=
  if key = buildMetaKey "p" then
    some (metadata.put ⟨1, 0, false, 0, [], [⟨1, 0, 1, false⟩]⟩)
  else if key = buildVersionKey "p" 1 then some (payload.put ⟨"7", 0⟩)
  else none

theorem single_authentic (key : String) (b : Bytes) (hb : single key = some b) :
    Authentic rkyv (fun _ _ => True) key b := by
  unfold single at hb
  split at hb
  · next hkey =>
      rw [hkey, ← Option.some.inj hb]
      exact authentic_metadata rfl
  · split at hb
    · next hkey =>
        rw [hkey, ← Option.some.inj hb]
        exact authentic_payload 1 trivial rfl
    · cases hb

end Plain

/-- Hash functions under which all keys collide. -/
def colliding : ShardedHashing :=
  ⟨⟨fun _ => 0, fun _ => 0⟩, fun _ => 0⟩

theorem run_readsInPlace_single :
    Plain.rkyv.Faithful ∧
      ∃ s, Assembly.opened Plain.single [buildMetaKey "p", buildVersionKey "p" 1] .batch = some s ∧
        ∀ (labels : List (Label (assembled colliding) Call ℕ)) t op r key b,
          .act t op r ∈ ((Pool.init s).run (body Plain.rkyv) labels).log → op.Finds key b r →
            (∀ path, key = buildMetaKey path → ∃ m, Plain.rkyv.metadataToBytes m = .ok b) ∧
            ∀ path n, key = buildVersionKey path n → ∃ x, Plain.rkyv.payloadToBytes x = .ok b :=
  ⟨Plain.rkyv_faithful,
    run_readsInPlace colliding Plain.rkyv Plain.single _ .batch Plain.single_authentic⟩

end Kallisto.Engine
