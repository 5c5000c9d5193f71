import Kallisto.Verification.Engine.Keys
import Kallisto.Verification.Engine.Sequential
import Kallisto.Verification.Engine.VersionedStore

/-! # The engine implements the versioned store -/

namespace Kallisto.Engine

open Program Interleaving

variable {B : Type} {n : UInt32} {L' : String → Option B} {vs : List Version}

/-! ## The store kept by a map -/

/-- The payload records of destroyed versions, which nothing reads again. -/
def Erased (a : Store) (key : String) : Prop :=
  ∃ path, ∃ n : UInt32, a.Destroyed path n.toNat ∧ key = buildVersionKey path n

/-- The records of the map are those of the store. -/
structure Stores (rkyv : Rkyv B) (L : String → Option B) (a : Store) : Prop where
  unknown : ∀ path, a path = [] → L (buildMetaKey path) = none
  known : ∀ path, a path ≠ [] →
    ∃ b, L (buildMetaKey path) = some b ∧ Describes (rkyv.archivedMetadata b) (a path)
  payload : ∀ path (n : UInt32) v, nth (a path) n.toNat = some v → v.destroyed = false →
    ∃ b, L (buildVersionKey path n) = some b ∧ rkyv.archivedPayload b = v.payload

/-- The engine holds the store. -/
def Holds (rkyv : Rkyv B) (mode : SyncMode) (a : Store) (s : KvEngine B) : Prop :=
  ∃ L, Stores rkyv L a ∧ Represents mode (Erased a) L s

theorem not_erased_metaKey (a : Store) (path : String) : ¬ Erased a (buildMetaKey path) := by
  rintro ⟨path', n, _, heq⟩
  exact buildMetaKey_ne_buildVersionKey _ _ _ heq

theorem not_erased_versionKey {a : Store} {path : String} {v : Version}
    (hv : nth (a path) n.toNat = some v) (hdestroyed : v.destroyed = false) :
    ¬ Erased a (buildVersionKey path n) := by
  rintro ⟨path', n', ⟨v', hv', hdestroyed'⟩, heq⟩
  obtain ⟨rfl, rfl⟩ := buildVersionKey_inj.mp heq
  rw [hv] at hv'
  cases hv'
  rw [hdestroyed] at hdestroyed'
  cases hdestroyed'

theorem Erased.performAt {a : Store} (ticked : Bool) (c : Call) {key : String}
    (h : Erased a key) : Erased (a.performAt ticked c).2 key := by
  obtain ⟨path, n, hdestroyed, heq⟩ := h
  exact ⟨path, n, hdestroyed.performAt ticked c, heq⟩

theorem stores_empty (rkyv : Rkyv B) : Stores rkyv (fun _ => none) (fun _ => []) where
  unknown _ _ := rfl
  known _ h := (h rfl).elim
  payload path n v h := by simp [nth] at h

section Stores

variable {rkyv : Rkyv B} {L : String → Option B} {a : Store} {path : String} {op : AsyncOp B}

/-- New metadata for one path, the payload records of its versions being in place. -/
theorem Stores.update (h : Stores rkyv L a) {b : B} (hne : vs ≠ [])
    (hb : Describes (rkyv.archivedMetadata b) vs) (hmeta : L' (buildMetaKey path) = some b)
    (hother : ∀ path', path' ≠ path → L' (buildMetaKey path') = L (buildMetaKey path'))
    (hforeign : ∀ path' n, path' ≠ path →
      L' (buildVersionKey path' n) = L (buildVersionKey path' n))
    (hown : ∀ (n : UInt32) v, nth vs n.toNat = some v → v.destroyed = false →
      ∃ b, L' (buildVersionKey path n) = some b ∧ rkyv.archivedPayload b = v.payload) :
    Stores rkyv L' (Function.update a path vs) where
  unknown path' h' := by
    rw [Function.update_apply] at h'
    split at h'
    · exact (hne h').elim
    · next hpath => rw [hother path' hpath, h.unknown path' h']
  known path' h' := by
    by_cases hpath : path' = path
    · subst hpath
      rw [Function.update_self]
      exact ⟨b, hmeta, hb⟩
    · rw [Function.update_of_ne hpath] at h' ⊢
      rw [hother path' hpath]
      exact h.known path' h'
  payload path' n v hv hdestroyed := by
    by_cases hpath : path' = path
    · subst hpath
      rw [Function.update_self] at hv
      exact hown n v hv hdestroyed
    · rw [Function.update_of_ne hpath] at hv
      rw [hforeign path' n hpath]
      exact h.payload path' n v hv hdestroyed

theorem put_metaKey_self (L : String → Option B) (path : String) (b : B) :
    (AsyncOp.put (buildMetaKey path) b).apply L (buildMetaKey path) = some b :=
  AsyncOp.apply_key L (.put (buildMetaKey path) b)

theorem put_metaKey_of_ne (L : String → Option B) {path path' : String} (b : B)
    (h : path' ≠ path) :
    (AsyncOp.put (buildMetaKey path) b).apply L (buildMetaKey path') = L (buildMetaKey path') :=
  AsyncOp.apply_of_ne L fun heq => h (buildMetaKey_inj.mp heq)

theorem put_metaKey_versionKey (L : String → Option B) (path path' : String) (n : UInt32) (b : B) :
    (AsyncOp.put (buildMetaKey path) b).apply L (buildVersionKey path' n) =
      L (buildVersionKey path' n) :=
  AsyncOp.apply_of_ne L (buildMetaKey_ne_buildVersionKey _ _ _).symm

/-- A raw write of a payload record. -/
theorem apply_versionKey_metaKey (L : String → Option B) {path' : String}
    (hop : op.key = buildVersionKey path' n) (path : String) :
    op.apply L (buildMetaKey path) = L (buildMetaKey path) := by
  refine AsyncOp.apply_of_ne L ?_
  rw [hop]
  exact buildMetaKey_ne_buildVersionKey _ _ _

theorem apply_versionKey_of_ne (L : String → Option B) {path path' : String} {n' : UInt32}
    (hop : op.key = buildVersionKey path n) (h : ¬ (path' = path ∧ n' = n)) :
    op.apply L (buildVersionKey path' n') = L (buildVersionKey path' n') := by
  refine AsyncOp.apply_of_ne L ?_
  rw [hop]
  exact fun heq => h (buildVersionKey_inj.mp heq)

/-- A payload record under a number that no version has does not count. -/
theorem Stores.write_unused (h : Stores rkyv L a) (hop : op.key = buildVersionKey path n)
    (hn : nth (a path) n.toNat = none) : Stores rkyv (op.apply L) a where
  unknown path' h' := by rw [apply_versionKey_metaKey L hop, h.unknown path' h']
  known path' h' := by
    rw [apply_versionKey_metaKey L hop]
    exact h.known path' h'
  payload path' n' v hv hdestroyed := by
    rw [apply_versionKey_of_ne L hop]
    · exact h.payload path' n' v hv hdestroyed
    · rintro ⟨rfl, rfl⟩
      rw [hn] at hv
      cases hv

/-- A put writes the payload record of the next version, then the metadata. -/
theorem Stores.append (h : Stores rkyv L a) (hn : n.toNat = (a path).length + 1)
    {x : SecretPayload} {b b' : B} (hb' : rkyv.archivedPayload b' = x)
    (hb : Describes (rkyv.archivedMetadata b) (a path ++ [⟨x, false, false⟩])) :
    Stores rkyv
      ((AsyncOp.put (buildMetaKey path) b).apply
        ((AsyncOp.put (buildVersionKey path n) b').apply L))
      (Function.update a path (a path ++ [⟨x, false, false⟩])) := by
  refine h.update (by simp) hb (put_metaKey_self _ _ _) ?_ ?_ ?_
  · intro path' hpath
    rw [put_metaKey_of_ne _ _ hpath, apply_versionKey_metaKey L rfl]
  · intro path' n' hpath
    rw [put_metaKey_versionKey, apply_versionKey_of_ne L rfl fun heq => hpath heq.1]
  · intro n' v hv hdestroyed
    rw [put_metaKey_versionKey]
    by_cases hnum : n' = n
    · subst hnum
      rw [nth, hn, if_neg (Nat.succ_ne_zero _), Nat.add_sub_cancel,
        List.getElem?_append_right (Nat.le_refl _), Nat.sub_self] at hv
      cases hv
      exact ⟨b', AsyncOp.apply_key L (.put (buildVersionKey path n') b'), hb'⟩
    · rw [apply_versionKey_of_ne L rfl fun heq => hnum heq.2]
      refine h.payload path n' v ?_ hdestroyed
      have hne : n'.toNat ≠ (a path).length + 1 :=
        fun heq => hnum (UInt32.toNat_inj.mp (heq.trans hn.symm))
      unfold nth at hv ⊢
      split at hv
      · cases hv
      · next h0 =>
          rw [if_neg h0]
          rw [List.getElem?_append] at hv
          split at hv
          · exact hv
          · rw [List.getElem?_eq_none (by simp; omega)] at hv
            cases hv

/-- The other mutations rewrite one version; a destruction removes its payload record
before. -/
theorem Stores.set (h : Stores rkyv L a) {version : UInt32} {v w : Version}
    (hv : nth (a path) version.toNat = some v) (hw : w.payload = v.payload)
    (hmeta : ∀ path', L' (buildMetaKey path') = L (buildMetaKey path'))
    (hversion : ∀ path' n, ¬ (path' = path ∧ n = version) →
      L' (buildVersionKey path' n) = L (buildVersionKey path' n))
    (hself : w.destroyed = false → v.destroyed = false ∧
      L' (buildVersionKey path version) = L (buildVersionKey path version)) {b : B}
    (hb : Describes (rkyv.archivedMetadata b) ((a path).set (version.toNat - 1) w)) :
    Stores rkyv ((AsyncOp.put (buildMetaKey path) b).apply L')
      (Function.update a path ((a path).set (version.toNat - 1) w)) := by
  have hne : (a path).set (version.toNat - 1) w ≠ [] := by
    rw [Ne, List.set_eq_nil_iff]
    intro hnil
    simp [nth, hnil] at hv
  refine h.update hne hb (put_metaKey_self _ _ _) ?_ ?_ ?_
  · intro path' hpath
    rw [put_metaKey_of_ne _ _ hpath, hmeta]
  · intro path' n hpath
    rw [put_metaKey_versionKey, hversion path' n fun heq => hpath heq.1]
  · intro n v' hv' hdestroyed
    rw [put_metaKey_versionKey]
    rw [nth_set hv (nth_ne_zero hv')] at hv'
    split at hv'
    · next hnum =>
        obtain rfl : n = version := UInt32.toNat_inj.mp hnum
        cases hv'
        obtain ⟨hdestroyed', hsame⟩ := hself hdestroyed
        rw [hsame, hw]
        exact h.payload path n v hv hdestroyed'
    · next hnum =>
        rw [hversion path n fun heq => hnum (congrArg UInt32.toNat heq.2)]
        exact h.payload path n v' hv' hdestroyed

end Stores

/-! ## Reads -/

section Reads

variable {mode : SyncMode} {given : Assumed} {rkyv : Rkyv B} {L : String → Option B} {a : Store}
  {writes : List (AsyncOp B)}

/-- The metadata of a path as the map has it. -/
theorem returns_readMetadata (path : String) :
    Returns (regime B mode given).traced (At mode (Erased a) L writes) (readMetadata rkyv path)
      (match L (buildMetaKey path) with
        | some b => .ok (deserializeMetadata rkyv b)
        | none => .error .notFound) := by
  have hread : Returns (regime B mode given).traced (At mode (Erased a) L writes)
      (readRawOptimistic (buildMetaKey path) (deserializeMetadata rkyv))
      (.ok ((L (buildMetaKey path)).map (deserializeMetadata rkyv))) :=
    returns_readRawOptimistic _ (not_erased_metaKey a path)
  refine Returns.bind hread ?_
  cases L (buildMetaKey path) <;> exact Returns.done (At.stable given) _

theorem returns_readMetadataOrDefault (path : String) :
    Returns (regime B mode given).traced (At mode (Erased a) L writes)
      (readMetadataOrDefault rkyv path)
      (.ok (match L (buildMetaKey path) with
        | some b => deserializeMetadata rkyv b
        | none => .default)) := by
  have hread : Returns (regime B mode given).traced (At mode (Erased a) L writes)
      (readMetadata rkyv path) _ := returns_readMetadata path
  refine Returns.bind hread.attempt ?_
  cases L (buildMetaKey path) <;> exact Returns.done (At.stable given) _

end Reads

theorem Describes.deserialize {rkyv : Rkyv B} {b : B}
    (h : Describes (rkyv.archivedMetadata b) vs) : Describes (deserializeMetadata rkyv b) vs :=
  ⟨h.current, h.versions⟩

/-! ## Answers -/

/-- An acknowledged put has written the record of the next version and the metadata. -/
def Granted (a : Store) : Call → Except EngineError Out → List (AsyncOp B) → Prop
  | .putVersion path _ _, .ok _, writes => ∃ (n : UInt32) (b b' : B),
      n.toNat = (a path).length + 1 ∧
        writes = [.put (buildMetaKey path) b, .put (buildVersionKey path n) b']
  | _, _, _ => True

/-- A request answers as the store does, or finds the queue full and changes nothing. -/
def Answers (given : Assumed) (a : Store) (c : Call) (r : Except EngineError Out)
    (trace : List ((op : Effect B) × op.Ret)) (a' : Store) : Prop :=
  (∃ ticked, (given.ticking = true → ticked = true) ∧ r.map Out.reply = (a.performAt ticked c).1 ∧
      a' = (a.performAt ticked c).2 ∧ Granted a c r (writesOf trace)) ∨
    (given.room = false ∧ r = .error .queueFull ∧ a' = a)

/-- The version numbers do not overflow; a destruction finds room for its two writes. -/
def Fitting (given : Assumed) (a : Store) : Call → Prop
  | .putVersion path _ _ => (a path).length + 1 < 2 ^ 32
  | .destroyVersion _ _ => given.room = true
  | _ => True

section Answers

variable {mode : SyncMode} {given : Assumed} {rkyv : Rkyv B} {L : String → Option B} {a : Store}
  {writes : List (AsyncOp B)} {X : String → Prop} {c : Call} {s : (system B).traced.State}

/-- The assertion with which a request ends. -/
def Answered (rkyv : Rkyv B) (mode : SyncMode) (given : Assumed) (a : Store) (c : Call)
    (r : Except EngineError Out) (s : (system B).traced.State) : Prop :=
  ∃ a', Answers given a c r s.2 a' ∧ Holds rkyv mode a' s.1

theorem answered_done {r : Except EngineError Out} {ticked : Bool} (hs : At mode X L writes s)
    (hticked : given.ticking = true → ticked = true)
    (hstores : Stores rkyv L (a.performAt ticked c).2)
    (hX : ∀ key, X key → Erased (a.performAt ticked c).2 key)
    (hr : r.map Out.reply = (a.performAt ticked c).1) (hgranted : Granted a c r writes) :
    Answered rkyv mode given a c r s := by
  refine ⟨(a.performAt ticked c).2, Or.inl ⟨ticked, hticked, hr, rfl, ?_⟩, L, hstores,
    hs.1.mono hX⟩
  rw [hs.2]
  exact hgranted

theorem answered_full (hs : At mode (Erased a) L writes s) (hstores : Stores rkyv L a)
    (hfits : given.room = false) : Answered rkyv mode given a c (.error .queueFull) s :=
  ⟨a, Or.inr ⟨hfits, rfl, rfl⟩, L, hstores, hs.1⟩

/-- A request that leaves the store unchanged. -/
theorem answered_same {r : Except EngineError Out} (hs : At mode (Erased a) L writes s)
    (hstores : Stores rkyv L a) (hsame : (a.performAt true c).2 = a)
    (hr : r.map Out.reply = (a.performAt true c).1)
    (hput : ∀ out path x cas, r = .ok out → c ≠ .putVersion path x cas) :
    Answered rkyv mode given a c r s := by
  refine answered_done hs (fun _ => rfl) ?_ ?_ hr ?_
  · rwa [hsame]
  · rw [hsame]
    exact fun _ h => h
  · cases r with
    | error e => cases c <;> trivial
    | ok out =>
      cases c with
      | putVersion path x cas => exact (hput out path x cas rfl rfl).elim
      | _ => trivial

/-- A request that ends with the error of the store. -/
theorem answered_error {e : EngineError} (hs : At mode (Erased a) L writes s)
    (hstores : Stores rkyv L a) (hperform : a.performAt true c = (.error e, a)) :
    Answered rkyv mode given a c (.error e) s :=
  answered_same hs hstores (congrArg Prod.snd hperform) (congrArg Prod.fst hperform).symm
    fun _ _ _ _ h => by cases h

end Answers

/-! ## Requests -/

section Requests

variable {mode : SyncMode} {given : Assumed} {rkyv : Rkyv B} {L : String → Option B} {a : Store}
  {writes : List (AsyncOp B)} {X : String → Prop} {m : KeyMetadata}

theorem triple_storeMetadata {α : Type}
    {Q : Except EngineError α → (system B).traced.State → Prop} (hrkyv : rkyv.Faithful)
    {path : String} {f : Unit → EngineM B α}
    (hok : ∀ b, rkyv.archivedMetadata b = m → Triple (regime B mode given).traced
      (At mode X ((AsyncOp.put (buildMetaKey path) b).apply L)
        (.put (buildMetaKey path) b :: writes)) (f ()) Q)
    (hfull : given.room = false → ∀ s, At mode X L writes s → Q (.error .queueFull) s) :
    Triple (regime B mode given).traced (At mode X L writes) (storeMetadata rkyv path m >>= f) Q := by
  obtain ⟨b, hbytes, hb⟩ := hrkyv.metadata m
  have hserialize : serializeMetadata rkyv m = .done (.ok b) := by
    unfold serializeMetadata
    rw [hbytes]
    rfl
  rw [storeMetadata, hserialize, Prog.ok_bind, Prog.bind_assoc]
  exact triple_enqueueOrExecute (triple_cacheInsert (put_metaKey_self L path b) (hok b hb)) hfull

theorem triple_readMetadata (hstores : Stores rkyv L a) (path : String) :
    Triple (regime B mode given).traced (At mode (Erased a) L writes)
      (body rkyv (.readMetadata path)) (Answered rkyv mode given a (.readMetadata path)) := by
  have hread : Returns (regime B mode given).traced (At mode (Erased a) L writes)
    (readMetadata rkyv path) _ := returns_readMetadata path
  by_cases hpath : a path = []
  · rw [hstores.unknown path hpath] at hread
    refine Returns.bind_error hread fun s hs => answered_error hs hstores ?_
    simp [Store.performAt, Store.readMetadata, hpath]
  · obtain ⟨b, hb, hdescribes⟩ := hstores.known path hpath
    rw [hb] at hread
    refine Returns.bind hread (Triple.done (At.stable given) fun s hs => ?_)
    refine answered_same hs hstores rfl ?_ fun _ _ _ _ _ h => by cases h
    have hversions := hdescribes.versions
    have hcurrent := hdescribes.current
    simp [Store.performAt, Store.readMetadata, hpath, Except.map, Out.reply, deserializeMetadata,
      hversions, hcurrent]

/-- A read finds the version that the store has under the number. -/
theorem locate_eq (h : Describes m vs) (version : UInt32) :
    (locate version m).1.toNat = (if version = 0 then vs.length else version.toNat) ∧
      (locate version m).2.map VersionState.info =
        (nth vs (locate version m).1.toNat).map (Version.info (locate version m).1.toNat) := by
  refine ⟨?_, h.find? _⟩
  unfold locate
  by_cases h0 : version = 0
  · simp [h0, h.current]
  · simp [h0]

theorem returns_readPayload (hstores : Stores rkyv L a) {path : String} {target : UInt32}
    {w : Version} (hw : nth (a path) target.toNat = some w) (hdestroyed : w.destroyed = false) :
    Returns (regime B mode given).traced (At mode (Erased a) L writes)
      (readRawOptimistic (buildVersionKey path target) rkyv.archivedPayload)
      (.ok (some w.payload)) := by
  obtain ⟨x, hx, hpayload⟩ := hstores.payload path target w hw hdestroyed
  have hread : Returns (regime B mode given).traced (At mode (Erased a) L writes)
      (readRawOptimistic (buildVersionKey path target) rkyv.archivedPayload) _ :=
    returns_readRawOptimistic _ (not_erased_versionKey hw hdestroyed)
  rwa [hx, Option.map_some, hpayload] at hread

theorem returns_readVersion (hstores : Stores rkyv L a) (path : String) (version : UInt32) :
    ∃ x, Returns (regime B mode given).traced (At mode (Erased a) L writes)
        (readVersion rkyv path version) x ∧
      (x.map fun y => Reply.version y.1 y.2.info) = a.readVersion path version := by
  have hread : Returns (regime B mode given).traced (At mode (Erased a) L writes)
      (readRawOptimistic (buildMetaKey path)
        fun bytes => locate version (rkyv.archivedMetadata bytes)) _ :=
    returns_readRawOptimistic _ (not_erased_metaKey a path)
  by_cases hpath : a path = []
  · rw [hstores.unknown path hpath] at hread
    refine ⟨_, Returns.bind hread (Returns.done (At.stable given) _), ?_⟩
    simp [Store.readVersion, hpath, Except.map]
  · obtain ⟨b, hb, hdescribes⟩ := hstores.known path hpath
    rw [hb, Option.map_some] at hread
    obtain ⟨htarget, hfound⟩ := locate_eq hdescribes version
    generalize locate version (rkyv.archivedMetadata b) = located at hread htarget hfound
    obtain ⟨target, found⟩ := located
    dsimp only at htarget hfound
    unfold Store.readVersion
    rw [← htarget]
    cases found with
    | none =>
      have hnth : nth (a path) target.toNat = none := by
        rw [Option.map_none] at hfound
        exact Option.map_eq_none_iff.mp hfound.symm
      refine ⟨_, Returns.bind hread (Returns.done (At.stable given) _), ?_⟩
      simp [hpath, hnth, Except.map]
    | some v =>
      obtain ⟨w, hw, hinfo⟩ : ∃ w, nth (a path) target.toNat = some w ∧
          w.info target.toNat = v.info := by
        rw [Option.map_some] at hfound
        exact Option.map_eq_some_iff.mp hfound.symm
      have h0 : target ≠ 0 := by
        rintro rfl
        exact nth_ne_zero hw rfl
      have hdestroyed : w.destroyed = v.destroyed := congrArg VersionInfo.destroyed hinfo
      have hdeleted : w.deleted = decide (0 < v.deletionTimeMs) :=
        congrArg VersionInfo.deleted hinfo
      cases hv : v.destroyed with
      | true =>
        refine ⟨.error .destroyed, Returns.bind hread ?_, ?_⟩
        · simp only [h0, hv, if_false, if_true]
          exact Returns.done (At.stable given) _
        · simp [hpath, hw, hdestroyed, hv, Except.map]
      | false =>
        by_cases hdel : v.deletionTimeMs > 0
        · refine ⟨.error .softDeleted, Returns.bind hread ?_, ?_⟩
          · simp only [h0, hv, hdel, if_false, if_true, Bool.false_eq_true]
            exact Returns.done (At.stable given) _
          · simp [hpath, hw, hdestroyed, hv, hdeleted, hdel, Except.map]
        · refine ⟨.ok (w.payload, { v with versionId := target }), Returns.bind hread ?_, ?_⟩
          · simp only [h0, hv, hdel, if_false, Bool.false_eq_true]
            refine Returns.bind (returns_readPayload hstores hw (hdestroyed.trans hv)) ?_
            exact Returns.done (At.stable given) _
          · have hreply : ({ v with versionId := target } : VersionState).info =
                w.info target.toNat := by
              rw [hinfo]
              exact congrArg (fun n => (⟨n, _, _⟩ : VersionInfo))
                (congrArg VersionInfo.number hinfo)
            simpa [hpath, hw, hdestroyed, hv, hdeleted, hdel, Except.map] using hreply

theorem triple_readVersion (hstores : Stores rkyv L a) (path : String) (version : UInt32) :
    Triple (regime B mode given).traced (At mode (Erased a) L writes)
      (body rkyv (.readVersion path version))
      (Answered rkyv mode given a (.readVersion path version)) := by
  obtain ⟨x, hread, hx⟩ : ∃ x, Returns (regime B mode given).traced
      (At mode (Erased a) L writes) (readVersion rkyv path version) x ∧ _ :=
    returns_readVersion hstores path version
  cases x with
  | error e =>
    refine Returns.bind_error hread fun s hs => answered_error hs hstores ?_
    exact congrArg (fun r => (r, a)) hx.symm
  | ok y =>
    refine Returns.bind hread (Triple.done (At.stable given) fun s hs => ?_)
    exact answered_same hs hstores rfl hx fun _ _ _ _ _ h => by cases h

/-- The writing half of a put. -/
theorem triple_appendVersion (hrkyv : rkyv.Faithful) (hstores : Stores rkyv L a) {path : String}
    {x : SecretPayload} {cas : Option UInt32} (hm : Describes m (a path))
    (hroom : (a path).length + 1 < 2 ^ 32) (hperform : a.performAt true (.putVersion path x cas) =
      (.ok .unit, Function.update a path (a path ++ [⟨x, false, false⟩]))) :
    Triple (regime B mode given).traced (At mode (Erased a) L [])
      (appendVersion rkyv path x m >>= fun _ => .done (.ok .unit))
      (Answered rkyv mode given a (.putVersion path x cas)) := by
  have hnext : (m.currentVersion + 1).toNat = (a path).length + 1 := by
    rw [UInt32.toNat_add, hm.current]
    exact Nat.mod_eq_of_lt hroom
  obtain ⟨b', hbytes, hb'⟩ := hrkyv.payload x
  have hserialize : serializePayload rkyv x = .done (.ok b') := by
    unfold serializePayload
    rw [hbytes]
    rfl
  have herased : ∀ key, Erased a key →
      Erased (a.performAt true (.putVersion path x cas)).2 key :=
    fun key h => h.performAt true _
  simp only [appendVersion, hserialize, Prog.ok_bind, Prog.bind_assoc]
  refine triple_nowMs fun created _ => ?_
  refine triple_enqueueOrExecute ?_ fun hfits s hs => answered_full hs hstores hfits
  refine triple_cacheInsert (AsyncOp.apply_key L (.put _ b')) ?_
  refine triple_storeMetadata hrkyv ?_ ?_
  · intro b hb
    refine Returns.bind (returns_insertPathIfAbsent path)
      (Triple.done (At.stable given) fun s hs => ?_)
    refine answered_done hs (fun _ => rfl) ?_ herased (by rw [hperform]; rfl)
      ⟨_, b, b', hnext, rfl⟩
    rw [hperform]
    refine hstores.append hnext hb' ?_
    rw [hb]
    exact hm.append hroom x created
  · -- The payload record is left behind under a number that no version has.
    intro hfits s hs
    refine answered_full hs (hstores.write_unused rfl ?_) hfits
    rw [hnext, nth, if_neg (Nat.succ_ne_zero _), Nat.add_sub_cancel]
    exact List.getElem?_eq_none (Nat.le_refl _)

theorem triple_putVersion (hrkyv : rkyv.Faithful) (hstores : Stores rkyv L a) (path : String)
    (x : SecretPayload) (cas : Option UInt32) (hroom : (a path).length + 1 < 2 ^ 32) :
    Triple (regime B mode given).traced (At mode (Erased a) L [])
      (body rkyv (.putVersion path x cas))
      (Answered rkyv mode given a (.putVersion path x cas)) := by
  have hread : Returns (regime B mode given).traced (At mode (Erased a) L [])
      (readMetadataOrDefault rkyv path) _ := returns_readMetadataOrDefault path
  obtain ⟨m, hm, hdescribes⟩ : ∃ m, (match L (buildMetaKey path) with
      | some b => deserializeMetadata rkyv b
      | none => .default) = m ∧ Describes m (a path) := by
    by_cases hpath : a path = []
    · rw [hstores.unknown path hpath, hpath]
      exact ⟨_, rfl, describes_default⟩
    · obtain ⟨b, hb, hdescribes⟩ := hstores.known path hpath
      rw [hb]
      exact ⟨_, rfl, hdescribes.deserialize⟩
  rw [hm] at hread
  have happend (hperform : a.performAt true (.putVersion path x cas) = _) :
      Triple (regime B mode given).traced (At mode (Erased a) L [])
        (appendVersion rkyv path x m >>= fun _ => .done (.ok .unit))
        (Answered rkyv mode given a (.putVersion path x cas)) :=
    triple_appendVersion hrkyv hstores hdescribes hroom hperform
  simp only [body, putVersion, Prog.bind_assoc]
  refine Returns.bind hread ?_
  cases cas with
  | none => exact happend rfl
  | some expected =>
    have hactual : m.currentVersion = .ofNat (a path).length := by
      rw [← hdescribes.current, UInt32.ofNat_toNat]
    by_cases hcas : m.currentVersion = expected
    · have hsame : expected.toNat = (a path).length := by rw [← hcas, hdescribes.current]
      simp only [checkCas, hcas, ne_eq, not_true_eq_false, if_false]
      exact happend (by simp [Store.performAt, Store.put, hsame])
    · have hother : expected.toNat ≠ (a path).length := by
        rw [← hdescribes.current]
        exact fun heq => hcas (UInt32.toNat_inj.mp heq.symm)
      simp only [checkCas, ne_eq, hcas, not_false_eq_true, if_true]
      refine Triple.done (At.stable given) fun s hs => answered_error hs hstores ?_
      simp [Store.performAt, Store.put, hother, hactual]

/-- The common end of the other mutations. -/
theorem triple_rewrite (hrkyv : rkyv.Faithful) (hstores : Stores rkyv L a) {c : Call}
    {path : String} {version : UInt32} {v w : Version} {u : VersionState}
    {f : VersionState → VersionState} {ticked : Bool}
    (hticked : given.ticking = true → ticked = true) (hm : Describes m (a path))
    (hput : ∀ path x cas, c ≠ .putVersion path x cas) (hv : nth (a path) version.toNat = some v)
    (hw : w.payload = v.payload) (hperform : a.performAt ticked c =
      (.ok .unit, Function.update a path ((a path).set (version.toNat - 1) w)))
    (hfind : findVersion version m = some u) (hf : (f u).info = w.info version.toNat)
    (hmeta : ∀ path', L' (buildMetaKey path') = L (buildMetaKey path'))
    (hversion : ∀ path' n, ¬ (path' = path ∧ n = version) →
      L' (buildVersionKey path' n) = L (buildVersionKey path' n))
    (hself : w.destroyed = false → v.destroyed = false ∧
      L' (buildVersionKey path version) = L (buildVersionKey path version))
    (hX : ∀ key, X key → Erased (a.performAt ticked c).2 key)
    (hfull : given.room = false → ∀ s, At mode X L' writes s →
      Answered rkyv mode given a c (.error .queueFull) s) :
    Triple (regime B mode given).traced (At mode X L' writes)
      (storeMetadata rkyv path { m with versions := updateVersion version f m.versions } >>=
        fun _ => .done (.ok .unit))
      (Answered rkyv mode given a c) := by
  refine triple_storeMetadata hrkyv ?_ hfull
  intro b hb
  refine Triple.done (At.stable given) fun s hs => ?_
  refine answered_done hs hticked ?_ hX (by rw [hperform]; rfl) ?_
  · rw [hperform]
    refine hstores.set hv hw hmeta hversion hself ?_
    rw [hb]
    exact hm.updateVersion hfind hf
  · cases c with
    | putVersion path' x cas => exact (hput path' x cas rfl).elim
    | _ => trivial

/-- The common beginning: the metadata is read and the version looked up in it. -/
theorem triple_mutate (hstores : Stores rkyv L a) {c : Call} {path : String} {version : UInt32}
    {g : Version → Except EngineError Version}
    (hperform : a.performAt true c = a.mutate path version g)
    {k : KeyMetadata → EngineM B Out}
    (hnone : ∀ m, findVersion version m = none → k m = .done (.error (.invalidVersion version)))
    (hsome : ∀ m u v, Describes m (a path) → nth (a path) version.toNat = some v →
      findVersion version m = some u → u.info = v.info version.toNat → a path ≠ [] →
      Triple (regime B mode given).traced (At mode (Erased a) L writes) (k m)
        (Answered rkyv mode given a c)) :
    Triple (regime B mode given).traced (At mode (Erased a) L writes)
      (readMetadata rkyv path >>= k) (Answered rkyv mode given a c) := by
  have hread : Returns (regime B mode given).traced (At mode (Erased a) L writes)
      (readMetadata rkyv path) _ := returns_readMetadata path
  by_cases hpath : a path = []
  · rw [hstores.unknown path hpath] at hread
    refine Returns.bind_error hread fun s hs => answered_error hs hstores ?_
    simp [hperform, Store.mutate, hpath]
  · obtain ⟨b, hb, hdescribes⟩ := hstores.known path hpath
    rw [hb] at hread
    refine Returns.bind hread ?_
    have hmap := hdescribes.deserialize.find? version
    cases hfind : findVersion version (deserializeMetadata rkyv b) with
    | none =>
      have hnth : nth (a path) version.toNat = none := by
        unfold findVersion at hfind
        rw [hfind, Option.map_none] at hmap
        exact Option.map_eq_none_iff.mp hmap.symm
      rw [hnone _ hfind]
      refine Triple.done (At.stable given) fun s hs => answered_error hs hstores ?_
      simp [hperform, Store.mutate, hpath, hnth]
    | some u =>
      obtain ⟨v, hv, hinfo⟩ : ∃ v, nth (a path) version.toNat = some v ∧
          v.info version.toNat = u.info := by
        unfold findVersion at hfind
        rw [hfind, Option.map_some] at hmap
        exact Option.map_eq_some_iff.mp hmap.symm
      exact hsome _ u v hdescribes.deserialize hv hfind hinfo.symm hpath

theorem triple_softDelete (hrkyv : rkyv.Faithful) (hstores : Stores rkyv L a) (path : String)
    (version : UInt32) :
    Triple (regime B mode given).traced (At mode (Erased a) L [])
      (body rkyv (.softDelete path version))
      (Answered rkyv mode given a (.softDelete path version)) := by
  simp only [body, softDelete, Prog.bind_assoc]
  have hmutate : a.performAt true (.softDelete path version) =
      a.mutate path version (Store.delete true) := rfl
  refine triple_mutate hstores hmutate ?_ ?_
  · intro m hfind
    rw [hfind]
    rfl
  · intro m u v hm hv hfind hinfo hpath
    rw [hfind]
    refine triple_nowMs fun now hnow => ?_
    refine triple_rewrite (w := { v with deleted := decide (0 < now) }) hrkyv hstores
      (fun hgiven => decide_eq_true (hnow hgiven)) hm
      (fun _ _ _ h => by cases h) hv rfl ?_ hfind ?_ (fun _ => rfl) (fun _ _ _ => rfl)
      (fun h => ⟨h, rfl⟩) (fun _ h => h.performAt _ _)
      fun hfits s hs => answered_full hs hstores hfits
    · simp [Store.performAt, Store.mutate, Store.delete, hpath, hv]
    · have hnumber : u.versionId.toNat = version.toNat := congrArg VersionInfo.number hinfo
      have hdestroyed : u.destroyed = v.destroyed := congrArg VersionInfo.destroyed hinfo
      simp [VersionState.info, Version.info, hnumber, hdestroyed]

theorem triple_undelete (hrkyv : rkyv.Faithful) (hstores : Stores rkyv L a) (path : String)
    (version : UInt32) :
    Triple (regime B mode given).traced (At mode (Erased a) L [])
      (body rkyv (.undelete path version))
      (Answered rkyv mode given a (.undelete path version)) := by
  simp only [body, undelete, Prog.bind_assoc]
  have hmutate : a.performAt true (.undelete path version) =
      a.mutate path version Store.restore := rfl
  refine triple_mutate hstores hmutate ?_ ?_
  · intro m hfind
    rw [hfind]
    rfl
  · intro m u v hm hv hfind hinfo hpath
    have hnumber : u.versionId.toNat = version.toNat := congrArg VersionInfo.number hinfo
    have hdestroyed : u.destroyed = v.destroyed := congrArg VersionInfo.destroyed hinfo
    rw [hfind]
    dsimp only
    cases hd : u.destroyed with
    | true =>
      refine Triple.done (At.stable given) fun s hs => answered_error hs hstores ?_
      simp [Store.performAt, Store.mutate, Store.restore, hpath, hv, ← hdestroyed, hd]
    | false =>
      refine triple_rewrite (w := { v with deleted := false }) hrkyv hstores (fun _ => rfl) hm
        (fun _ _ _ h => by cases h) hv rfl ?_ hfind ?_ (fun _ => rfl) (fun _ _ _ => rfl)
        (fun h => ⟨h, rfl⟩) (fun _ h => h.performAt true _)
        fun hfits s hs => answered_full hs hstores hfits
      · simp [Store.performAt, Store.mutate, Store.restore, hpath, hv, ← hdestroyed, hd]
      · simp [VersionState.info, Version.info, hnumber, hdestroyed]

theorem triple_destroyVersion (hrkyv : rkyv.Faithful) (hstores : Stores rkyv L a)
    (path : String) (version : UInt32) (hfits : given.room = true) :
    Triple (regime B mode given).traced (At mode (Erased a) L [])
      (body rkyv (.destroyVersion path version))
      (Answered rkyv mode given a (.destroyVersion path version)) := by
  simp only [body, destroyVersion, Prog.bind_assoc]
  have hmutate : a.performAt true (.destroyVersion path version) =
      a.mutate path version Store.destroy := rfl
  refine triple_mutate hstores hmutate ?_ ?_
  · intro m hfind
    rw [hfind]
    rfl
  · intro m u v hm hv hfind hinfo hpath
    have hnumber : u.versionId.toNat = version.toNat := congrArg VersionInfo.number hinfo
    have hdeleted : decide (0 < u.deletionTimeMs) = v.deleted := congrArg VersionInfo.deleted hinfo
    have hperform : a.performAt true (.destroyVersion path version) =
        (.ok .unit, Function.update a path
          ((a path).set (version.toNat - 1) { v with destroyed := true })) := by
      simp [Store.performAt, Store.mutate, Store.destroy, hpath, hv]
    have hfull {Q : Prop} (h : given.room = false) : Q := by
      rw [hfits] at h
      cases h
    rw [hfind]
    simp only [Prog.bind_assoc]
    refine triple_enqueueOrExecute ?_ fun h => hfull h
    refine triple_cacheRemove (Or.inl rfl) ?_
    refine triple_rewrite (w := { v with destroyed := true }) hrkyv hstores (fun _ => rfl) hm
      (fun _ _ _ h => by cases h) hv rfl hperform hfind ?_
      (fun path' => apply_versionKey_metaKey L rfl path')
      (fun path' n h => apply_versionKey_of_ne L rfl h) (fun h => by cases h) ?_
      fun h => hfull h
    · simp [VersionState.info, Version.info, hnumber, hdeleted]
    · rintro key (rfl | hkey)
      · refine ⟨path, version, ⟨{ v with destroyed := true }, ?_, rfl⟩, rfl⟩
        rw [hperform]
        change nth (Function.update a path _ path) _ = _
        rw [Function.update_self, nth_set hv (nth_ne_zero hv), if_pos rfl]
      · exact hkey.performAt true _

/-- Every request is specified by the store. -/
theorem specification (hrkyv : rkyv.Faithful) (mode : SyncMode) (given : Assumed) :
    Specification (regime B mode given) (body rkyv) (Holds rkyv mode) (Fitting given)
      (Answers given) where
  stable a := by
    rintro s e ⟨L, hstores, hs⟩ he
    exact ⟨L, hstores, Represents.stable given s e hs he⟩
  triple a c hc := by
    -- The map behind the engine is fixed before the request is run.
    have hfix : ∀ L, Stores rkyv L a → Triple (regime B mode given).traced
        (At mode (Erased a) L []) (body rkyv c) (Answered rkyv mode given a c) := by
      intro L hstores
      cases c with
      | readMetadata path => exact triple_readMetadata hstores path
      | readVersion path version => exact triple_readVersion hstores path version
      | putVersion path x cas => exact triple_putVersion hrkyv hstores path x cas hc
      | softDelete path version => exact triple_softDelete hrkyv hstores path version
      | undelete path version => exact triple_undelete hrkyv hstores path version
      | destroyVersion path version => exact triple_destroyVersion hrkyv hstores path version hc
    refine (Triple.of_exists fun L => Triple.of_fact (hfix L)).pre ?_
    rintro s ⟨⟨L, hstores, hs⟩, htrace⟩
    exact ⟨L, hstores, hs, by rw [htrace]; rfl⟩

end Requests

end Kallisto.Engine
