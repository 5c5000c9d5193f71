import Kallisto.Verification.Engine.LossyCache
import Kallisto.Verification.Engine.SameVersions

/-! # Failed requests leave no trace

`put_version` writes the payload before the metadata. When the metadata is refused, the
payload stays under the number of the next version, where no read looks for it. -/

namespace Kallisto.Engine

variable {B : Type}

/-! ## Runs -/

/-- A call of a run: a request, with its readings of the clock, the outcomes of its writes and
the cache entries lost on the way, or a listing. -/
inductive Item where
  | request (c : Call) (given : List Given) (losses : List (List String))
  | list (pre : String)

inductive Answer where
  | result (r : Except EngineError Out)
  | keys (listed : Option (List String))
  deriving DecidableEq

/-- What is asked for, the losses aside. -/
def Item.asked : Item → (Call × List Given) ⊕ String
  | .request c given _ => .inl (c, given)
  | .list pre => .inr pre

def Item.run (rkyv : Rkyv B) (s : KvEngine B) : Item → Answer × KvEngine B
  | .request c given losses =>
    (.result (askLossy rkyv s c given losses).1, (askLossy rkyv s c given losses).2)
  | .list pre => (.keys (s.listKeys pre), s)

/-- The calls of a run with their answers. -/
def transcript (rkyv : Rkyv B) : KvEngine B → List Item → List (Item × Answer)
  | _, [] => []
  | s, item :: items =>
    (item, (item.run rkyv s).1) :: transcript rkyv (item.run rkyv s).2 items

/-- A `put_version`, `soft_delete` or `undelete` that failed. -/
def hasFailed : Item × Answer → Bool
  | (.request c _ _, .result (.error _)) => c.revocable
  | _ => false

/-- The calls that remain when the failed ones are deleted. -/
def remaining (rkyv : Rkyv B) (s : KvEngine B) (items : List Item) : List (Item × Answer) :=
  (transcript rkyv s items).filter fun entry => !hasFailed entry

def answersPut (path : String) : Item × Answer → Bool
  | (.request c _ _, .result r) => putAnswered path c r
  | _ => false

/-- The acknowledged puts of a path in a run. -/
def putsAnsweredIn (rkyv : Rkyv B) (s : KvEngine B) (items : List Item) (path : String) : ℕ :=
  (transcript rkyv s items).countP (answersPut path)

/-- Two engines whose books have the same versions. -/
structure Twins (rkyv : Rkyv B) (s s' : KvEngine B) : Prop where
  left : Settled s
  right : Settled s'
  books : Same rkyv s.books s'.books

/-- The numbers of the versions stay below `2 ^ 32` in the run. -/
def Roomy (rkyv : Rkyv B) (s : KvEngine B) (items : List Item) : Prop :=
  ∀ path, ∃ k, Numbered rkyv path k s.books ∧ k + putsAnsweredIn rkyv s items path < 2 ^ 32

theorem remaining_of_failed {rkyv : Rkyv B} {s : KvEngine B} {item : Item}
    (h : hasFailed (item, (item.run rkyv s).1) = true) (items : List Item) :
    remaining rkyv s (item :: items) = remaining rkyv (item.run rkyv s).2 items := by
  rw [remaining, transcript, List.filter_cons_of_neg (by rw [h]; exact nofun)]
  rfl

theorem remaining_of_not_failed {rkyv : Rkyv B} {s : KvEngine B} {item : Item}
    (h : hasFailed (item, (item.run rkyv s).1) = false) (items : List Item) :
    remaining rkyv s (item :: items) =
      (item, (item.run rkyv s).1) :: remaining rkyv (item.run rkyv s).2 items := by
  rw [remaining, transcript, List.filter_cons_of_pos (by rw [h]; rfl)]
  rfl

theorem Roomy.list {rkyv : Rkyv B} {s : KvEngine B} {pre : String} {items : List Item}
    (h : Roomy rkyv s (.list pre :: items)) : Roomy rkyv s items := by
  intro path
  obtain ⟨k, hk, hbound⟩ := h path
  have hcount : putsAnsweredIn rkyv s (.list pre :: items) path =
      putsAnsweredIn rkyv s items path := List.countP_cons_of_neg nofun
  rw [hcount] at hbound
  exact ⟨k, hk, hbound⟩

section Runs

variable {rkyv : Rkyv B} (hrkyv : rkyv.Faithful) {s s' : KvEngine B} {c : Call}
  {given : List Given} {losses losses' : List (List String)} {items : List Item}

include hrkyv

/-- The same request of both engines. -/
theorem Twins.request (h : Twins rkyv s s') (c : Call) (given : List Given)
    (losses losses' : List (List String)) :
    (askLossy rkyv s' c given losses').1 = (askLossy rkyv s c given losses).1 ∧
      Twins rkyv (askLossy rkyv s c given losses).2 (askLossy rkyv s' c given losses').2 := by
  obtain ⟨r, act, hdoes, heval⟩ := script_acts hrkyv s.books c given
  obtain ⟨hresult, hbooks, hsettled⟩ := askLossy_eq rkyv h.left c given losses
  obtain ⟨hresult', hbooks', hsettled'⟩ := askLossy_eq rkyv h.right c given losses'
  rw [heval s.books (.refl _)] at hresult hbooks
  rw [heval s'.books h.books] at hresult' hbooks'
  refine ⟨hresult'.trans hresult.symm, hsettled, hsettled', ?_⟩
  rw [hbooks, hbooks']
  exact hdoes.same h.books

/-- A revocable request of the first engine alone, which fails. -/
theorem Twins.failed (h : Twins rkyv s s') (hc : c.revocable = true) {e : EngineError}
    (he : (askLossy rkyv s c given losses).1 = .error e)
    (hfresh : ∀ path, s.books.current rkyv path + 1 ∉ s.books.numbers rkyv path) :
    Twins rkyv (askLossy rkyv s c given losses).2 s' := by
  obtain ⟨r, act, hdoes, heval⟩ := script_acts hrkyv s.books c given
  obtain ⟨hresult, hbooks, hsettled⟩ := askLossy_eq rkyv h.left c given losses
  rw [heval s.books (.refl _)] at hresult hbooks
  obtain rfl : r = .error e := hresult.symm.trans he
  refine ⟨hsettled, h.right, ?_⟩
  rw [hbooks]
  exact (hdoes.failed hc hfresh).symm.trans h.books

theorem Roomy.request (hs : Settled s) (h : Roomy rkyv s (.request c given losses :: items)) :
    Roomy rkyv (askLossy rkyv s c given losses).2 items := by
  intro path
  obtain ⟨k, hk, hbound⟩ := h path
  obtain ⟨r, act, hdoes, heval⟩ := script_acts hrkyv s.books c given
  obtain ⟨hresult, hbooks, -⟩ := askLossy_eq rkyv hs c given losses
  rw [heval s.books (.refl _)] at hresult hbooks
  obtain rfl : r = (askLossy rkyv s c given losses).1 := hresult.symm
  refine ⟨_, by rw [hbooks]; exact hdoes.numbered hk, ?_⟩
  have hcount : putsAnsweredIn rkyv s (.request c given losses :: items) path =
      putsAnsweredIn rkyv (askLossy rkyv s c given losses).2 items path +
        if putAnswered path c (askLossy rkyv s c given losses).1 then 1 else 0 :=
    List.countP_cons
  rw [hcount] at hbound
  omega

/-- The answers of a run, and those of a run of the remaining calls from a twin. -/
theorem answers_remaining (items : List Item) : ∀ {s s' : KvEngine B} {items' : List Item},
    Twins rkyv s s' → Roomy rkyv s items →
    items'.map Item.asked = (remaining rkyv s items).map (fun entry => entry.1.asked) →
    (transcript rkyv s' items').map Prod.snd = (remaining rkyv s items).map Prod.snd := by
  induction items with
  | nil =>
    intro s s' items' _ _ hasked
    rw [List.map_eq_nil_iff.mp hasked]
    rfl
  | cons item items ih =>
    intro s s' items' htwins hroomy hasked
    cases hfailed : hasFailed (item, (item.run rkyv s).1) with
    | true =>
      rw [remaining_of_failed hfailed] at hasked ⊢
      cases item with
      | list pre => cases hfailed
      | request c given losses =>
        cases hresult : (askLossy rkyv s c given losses).1 with
        | ok out =>
          rw [Item.run, hresult] at hfailed
          cases hfailed
        | error e =>
          rw [Item.run, hresult] at hfailed
          refine ih (htwins.failed hrkyv hfailed hresult fun path => ?_)
            (hroomy.request hrkyv htwins.left) hasked
          obtain ⟨k, hk, hbound⟩ := hroomy path
          exact hk.fresh (Nat.lt_of_le_of_lt (Nat.le_add_right k _) hbound)
    | false =>
      rw [remaining_of_not_failed hfailed] at hasked ⊢
      obtain ⟨item', rest, rfl, hitem, hrest⟩ := List.map_eq_cons_iff.mp hasked
      rw [transcript, List.map_cons, List.map_cons]
      cases item with
      | list pre =>
        cases item' with
        | request c given losses => cases hitem
        | list pre' =>
          obtain rfl : pre' = pre := Sum.inr.inj hitem
          have hlisted : s'.listKeys pre' = s.listKeys pre' :=
            listKeys_congr (fun path => by rw [show s'.pathIndex = s.pathIndex from
              htwins.books.paths]) pre'
          exact congrArg₂ List.cons (congrArg Answer.keys hlisted)
            (ih htwins hroomy.list hrest)
      | request c given losses =>
        cases item' with
        | list pre => cases hitem
        | request c' given' losses' =>
          obtain ⟨rfl, rfl⟩ := Prod.mk.inj (Sum.inl.inj hitem)
          obtain ⟨hresult, htwins'⟩ := htwins.request hrkyv c' given' losses losses'
          exact congrArg₂ List.cons (congrArg Answer.result hresult)
            (ih htwins' (hroomy.request hrkyv htwins.left) hrest)

end Runs

theorem settled_opened (db : String → Option B) (paths : List String) :
    Settled (KvEngine.opened db .immediate paths) :=
  ⟨rfl, nofun⟩

theorem numbered_opened (rkyv : Rkyv B) (path : String) :
    Numbered rkyv path 0 (KvEngine.opened (fun _ => none) .immediate [] : KvEngine B).books :=
  ⟨rfl, nofun⟩

/-- While each path has fewer than `2 ^ 32` acknowledged puts, a run without the failed puts,
deletions and restorations gives the same answers. -/
theorem failed_requests_noop (rkyv : Rkyv B) (hrkyv : rkyv.Faithful) (items items' : List Item)
    (hputs : ∀ path,
      putsAnsweredIn rkyv (.opened (fun _ => none) .immediate []) items path < 2 ^ 32)
    (hasked : items'.map Item.asked =
      (remaining rkyv (.opened (fun _ => none) .immediate []) items).map
        fun entry => entry.1.asked) :
    (transcript rkyv (.opened (fun _ => none) .immediate []) items').map Prod.snd =
      (remaining rkyv (.opened (fun _ => none) .immediate []) items).map Prod.snd := by
  refine answers_remaining hrkyv items ⟨settled_opened _ _, settled_opened _ _, .refl _⟩ ?_ hasked
  intro path
  refine ⟨0, numbered_opened rkyv path, ?_⟩
  rw [Nat.zero_add]
  exact hputs path

/-- The second put is refused after its payload is written, and the third takes its number. -/
def orphanedPut : List Item :=
  [.request (.putVersion "p" ⟨"x", 0⟩ none) [] [],
    .request (.putVersion "p" ⟨"y", 0⟩ none)
      [.time 2, .outcome none, .outcome (some "no space")] [],
    .list "", .request (.readVersion "p" 2) [] [],
    .request (.putVersion "p" ⟨"z", 0⟩ none) [] [],
    .request (.readVersion "p" 2) [] [[buildVersionKey "p" 2]]]

/-- The run without the second put; the cache loses other entries. -/
def withoutOrphan : List Item :=
  [.request (.putVersion "p" ⟨"x", 0⟩ none) [] [[], [buildMetaKey "p"]],
    .list "", .request (.readVersion "p" 2) [] [],
    .request (.putVersion "p" ⟨"z", 0⟩ none) [] [[buildMetaKey "p"]],
    .request (.readVersion "p" 2) [] []]

theorem failed_requests_noop_orphanedPut :
    (remaining Record.rkyv (.opened (fun _ => none) .immediate []) orphanedPut).length = 5 ∧
      (transcript Record.rkyv (.opened (fun _ => none) .immediate []) withoutOrphan).map Prod.snd =
        (remaining Record.rkyv (.opened (fun _ => none) .immediate []) orphanedPut).map Prod.snd := by
  refine ⟨by decide +kernel, failed_requests_noop Record.rkyv Record.rkyv_faithful orphanedPut
    withoutOrphan (fun path => ?_) (by decide +kernel)⟩
  exact Nat.lt_of_le_of_lt List.countP_le_length (by decide +kernel)

/-! ## More versions than numbers -/

/-- The engine after a run. -/
def after (rkyv : Rkyv B) (s : KvEngine B) (items : List Item) : KvEngine B :=
  items.foldl (fun s item => (item.run rkyv s).2) s

theorem transcript_append (rkyv : Rkyv B) (items items' : List Item) : ∀ s : KvEngine B,
    transcript rkyv s (items ++ items') =
      transcript rkyv s items ++ transcript rkyv (after rkyv s items) items' := by
  induction items with
  | nil => exact fun _ => rfl
  | cons item items ih => exact fun s => congrArg (_ :: ·) (ih (item.run rkyv s).2)

theorem transcript_items (rkyv : Rkyv B) (items : List Item) : ∀ s : KvEngine B,
    (transcript rkyv s items).map Prod.fst = items := by
  induction items with
  | nil => exact fun _ => rfl
  | cons item items ih => exact fun s => congrArg (item :: ·) (ih (item.run rkyv s).2)

theorem remaining_append (rkyv : Rkyv B) (s : KvEngine B) (items items' : List Item) :
    remaining rkyv s (items ++ items') =
      remaining rkyv s items ++ remaining rkyv (after rkyv s items) items' := by
  rw [remaining, transcript_append, List.filter_append]
  rfl

/-- One more version with the same payload. -/
def putAgain : Item :=
  .request (.putVersion "p" ⟨"x", 0⟩ none) [] []

/-- The engine has the versions of `n` puts, and the first of them is read. -/
structure Aged (n : ℕ) (s : KvEngine Record) : Prop where
  settled : Settled s
  current : s.books.current Record.rkyv "p" = UInt32.ofNat n
  found : ∃ b v, s.books.metadata "p" = some b ∧
    findVersion 1 (Record.rkyv.archivedMetadata b) = some v ∧ v.destroyed = false ∧
      v.deletionTimeMs = 0
  payload : s.books.records (buildVersionKey "p" 1) = some (.payload ⟨"x", 0⟩)

theorem eval_putAgain (books : Books Record) {b : Record} (hb : books.metadata "p" = some b) :
    (script Record.rkyv (.putVersion "p" ⟨"x", 0⟩ none)).eval 0 books [] =
      (.ok .unit, ((books.write (.put (buildVersionKey "p" (books.current Record.rkyv "p" + 1))
        (.payload ⟨"x", 0⟩))).write (.put (buildMetaKey "p")
          (.metadata ((deserializeMetadata Record.rkyv b).grown 0)))).register "p") := by
  have hfound : books.records (buildMetaKey "p") = some b := hb
  rw [Books.current, hb]
  change (putVersionScript Record.rkyv "p" ⟨"x", 0⟩ none).eval 0 books [] = _
  rw [putVersionScript, Script.eval, hfound]
  rfl

theorem Aged.grows {n : ℕ} {s : KvEngine Record} (h : Aged n s) :
    (putAgain.run Record.rkyv s).1 = .result (.ok .unit) ∧
      Aged (n + 1) (putAgain.run Record.rkyv s).2 := by
  obtain ⟨b, v, hb, hv, hshown⟩ := h.found
  obtain ⟨hresult, hbooks, hsettled⟩ :=
    askLossy_eq Record.rkyv h.settled (.putVersion "p" ⟨"x", 0⟩ none) [] []
  rw [eval_putAgain s.books hb] at hresult hbooks
  have hwritten : ((s.books.write (.put (buildVersionKey "p"
      (s.books.current Record.rkyv "p" + 1)) (.payload ⟨"x", 0⟩))).write (.put (buildMetaKey "p")
        (.metadata ((deserializeMetadata Record.rkyv b).grown 0)))).metadata =
      Function.update s.books.metadata "p"
        (some (.metadata ((deserializeMetadata Record.rkyv b).grown 0))) :=
    metadata_write_write s.books rfl _
  have hmetadata : (putAgain.run Record.rkyv s).2.books.metadata "p" =
      some (.metadata ((deserializeMetadata Record.rkyv b).grown 0)) :=
    (congrArg (Books.metadata · "p") hbooks).trans
      ((congrFun hwritten "p").trans (Function.update_self _ _ _))
  refine ⟨congrArg Answer.result hresult, hsettled, ?_, ⟨_, v, hmetadata, ?_, hshown⟩, ?_⟩
  · have hcurrent : (Record.rkyv.archivedMetadata b).currentVersion = UInt32.ofNat n := by
      rw [← h.current, Books.current, hb]
      rfl
    rw [Books.current, hmetadata, UInt32.ofNat_add, ← hcurrent]
    rfl
  · change List.find? _ ((Record.rkyv.archivedMetadata b).versions ++ _) = some v
    rw [List.find?_append]
    exact congrArg (Option.or · _) hv
  · have hlater : (((s.books.write (.put (buildVersionKey "p" (s.books.current Record.rkyv "p" + 1))
        (.payload ⟨"x", 0⟩))).write (.put (buildMetaKey "p")
          (.metadata ((deserializeMetadata Record.rkyv b).grown 0)))).register "p").records
            (buildVersionKey "p" 1) = (s.books.write (.put (buildVersionKey "p"
              (s.books.current Record.rkyv "p" + 1)) (.payload ⟨"x", 0⟩))).records
                (buildVersionKey "p" 1) :=
      put_metaKey_versionKey _ "p" "p" 1 (.metadata ((deserializeMetadata Record.rkyv b).grown 0))
    refine ((congrArg (Books.records · (buildVersionKey "p" 1)) hbooks).trans hlater).trans ?_
    by_cases hone : (1 : UInt32) = s.books.current Record.rkyv "p" + 1
    · rw [← hone]
      exact AsyncOp.apply_key s.books.records (.put (buildVersionKey "p" 1) (.payload ⟨"x", 0⟩))
    · refine (apply_versionKey_of_ne s.books.records rfl fun heq => hone heq.2).trans h.payload

theorem aged_replicate (n : ℕ) : ∀ {k : ℕ} {s : KvEngine Record}, Aged k s →
    Aged (k + n) (after Record.rkyv s (List.replicate n putAgain)) ∧
      remaining Record.rkyv s (List.replicate n putAgain) =
        transcript Record.rkyv s (List.replicate n putAgain) := by
  induction n with
  | zero => exact fun h => ⟨h, rfl⟩
  | succ n ih =>
    intro k s h
    obtain ⟨hresult, haged⟩ := h.grows
    obtain ⟨hafter, hremaining⟩ := ih haged
    rw [List.replicate_succ]
    refine ⟨?_, ?_⟩
    · rw [Nat.add_assoc, Nat.add_comm 1 n] at hafter
      exact hafter
    · rw [remaining_of_not_failed (by rw [hresult]; rfl), hremaining, transcript]

/-- A put that is refused after its payload is written. -/
def refusedAgain : Item :=
  .request (.putVersion "p" ⟨"y", 0⟩ none) [.time 1, .outcome none, .outcome (some "no space")] []

def readFirst : Item :=
  .request (.readVersion "p" 1) [] []

/-- The first version is read with the payload under its key. -/
theorem eval_readFirst {books : Books Record} {b : Record} {v : VersionState} {x : SecretPayload}
    (hb : books.metadata "p" = some b)
    (hv : findVersion 1 (Record.rkyv.archivedMetadata b) = some v)
    (hdestroyed : v.destroyed = false) (hdeleted : v.deletionTimeMs = 0)
    (hx : books.records (buildVersionKey "p" 1) = some (.payload x)) :
    ((script Record.rkyv (.readVersion "p" 1)).eval 0 books []).1 =
      .ok (.version x { v with versionId := 1 }) := by
  have hfound : books.records (buildMetaKey "p") = some b := hb
  have hlocate : locate 1 (Record.rkyv.archivedMetadata b) = (1, some v) := Prod.ext rfl hv
  change ((readVersionScript Record.rkyv "p" 1).eval 0 books []).1 = _
  rw [readVersionScript, Script.eval, hfound]
  dsimp only
  rw [hlocate]
  dsimp only
  rw [if_neg (by decide), hdestroyed, if_neg Bool.false_ne_true, hdeleted, if_neg (by decide),
    Script.eval, hx]
  rfl

theorem Aged.reads {n : ℕ} {s : KvEngine Record} (h : Aged n s) :
    ∃ v, (readFirst.run Record.rkyv s).1 = .result (.ok (.version ⟨"x", 0⟩ v)) := by
  obtain ⟨b, v, hb, hv, hdestroyed, hdeleted⟩ := h.found
  obtain ⟨hresult, -, -⟩ := askLossy_eq Record.rkyv h.settled (.readVersion "p" 1) [] []
  rw [eval_readFirst hb hv hdestroyed hdeleted h.payload] at hresult
  exact ⟨_, congrArg Answer.result hresult⟩

/-- After `2 ^ 32` puts the refused one overwrites the payload of the first version. -/
theorem Aged.overwritten {s : KvEngine Record} (h : Aged (2 ^ 32) s) :
    hasFailed (refusedAgain, (refusedAgain.run Record.rkyv s).1) = true ∧
      ∃ v, (readFirst.run Record.rkyv (refusedAgain.run Record.rkyv s).2).1 =
        .result (.ok (.version ⟨"y", 0⟩ v)) := by
  obtain ⟨b, v, hb, hv, hdestroyed, hdeleted⟩ := h.found
  obtain ⟨hresult, hbooks, hsettled⟩ := askLossy_eq Record.rkyv h.settled
    (.putVersion "p" ⟨"y", 0⟩ none) [.time 1, .outcome none, .outcome (some "no space")] []
  have hfound : s.books.records (buildMetaKey "p") = some b := hb
  have hcurrent : (deserializeMetadata Record.rkyv b).currentVersion + 1 = 1 := by
    have hzero := h.current
    rw [Books.current, hb] at hzero
    exact (congrArg (· + 1) hzero).trans (by decide)
  have heval : (script Record.rkyv (.putVersion "p" ⟨"y", 0⟩ none)).eval 0 s.books
      [.time 1, .outcome none, .outcome (some "no space")] =
        (.error (.storageError "Immediate write failed: no space"),
          s.books.write (.put (buildVersionKey "p" 1) (.payload ⟨"y", 0⟩))) := by
    change (putVersionScript Record.rkyv "p" ⟨"y", 0⟩ none).eval 0 s.books _ = _
    rw [putVersionScript, Script.eval, hfound, ← hcurrent]
    rfl
  rw [heval] at hresult hbooks
  have hread := (askLossy_eq Record.rkyv hsettled (.readVersion "p" 1) [] []).1
  have hmetadata : (s.books.write (.put (buildVersionKey "p" 1) (.payload ⟨"y", 0⟩))).metadata "p" =
      some b := (congrFun (metadata_write_versionKey s.books rfl) "p").trans hb
  have hpayload : (s.books.write (.put (buildVersionKey "p" 1) (.payload ⟨"y", 0⟩))).records
      (buildVersionKey "p" 1) = some (.payload ⟨"y", 0⟩) :=
    AsyncOp.apply_key s.books.records (.put (buildVersionKey "p" 1) (.payload ⟨"y", 0⟩))
  rw [hbooks, eval_readFirst hmetadata hv hdestroyed hdeleted hpayload] at hread
  refine ⟨?_, _, congrArg Answer.result hread⟩
  rw [show (refusedAgain.run Record.rkyv s).1 = .result (.error _) from
    congrArg Answer.result hresult]
  rfl

theorem aged_one : Aged 1 (putAgain.run Record.rkyv (.opened (fun _ => none) .immediate [])).2 where
  settled := (askLossy_eq Record.rkyv (settled_opened _ _) _ _ _).2.2
  current := by decide +kernel
  found := ⟨.metadata (KeyMetadata.default.grown 0), ⟨0, 0, 1, false⟩, by decide +kernel,
    by decide +kernel, rfl, rfl⟩
  payload := by decide +kernel

theorem aged_many (n : ℕ) :
    Aged (n + 1) (after Record.rkyv (.opened (fun _ => none) .immediate [])
        (List.replicate (n + 1) putAgain)) ∧
      remaining Record.rkyv (.opened (fun _ => none) .immediate [])
          (List.replicate (n + 1) putAgain) =
        transcript Record.rkyv (.opened (fun _ => none) .immediate [])
          (List.replicate (n + 1) putAgain) := by
  obtain ⟨haged, hremaining⟩ := aged_replicate n aged_one
  have hfirst : hasFailed (putAgain,
      (putAgain.run Record.rkyv (.opened (fun _ => none) .immediate [])).1) = false := by
    decide +kernel
  rw [List.replicate_succ, remaining_of_not_failed hfirst, hremaining, transcript]
  exact ⟨Nat.add_comm 1 n ▸ haged, rfl⟩

/-- A put that fails after `2 ^ 32` acknowledged ones is seen by a later read. -/
theorem failed_put_seen :
    let s : KvEngine Record := .opened (fun _ => none) .immediate []
    let items := List.replicate (2 ^ 32) putAgain ++ [refusedAgain, readFirst]
    let items' := List.replicate (2 ^ 32) putAgain ++ [readFirst]
    items'.map Item.asked = (remaining Record.rkyv s items).map (fun entry => entry.1.asked) ∧
      (transcript Record.rkyv s items').map Prod.snd ≠
        (remaining Record.rkyv s items).map Prod.snd := by
  intro s items items'
  obtain ⟨haged, hremaining⟩ := aged_many (2 ^ 32 - 1)
  rw [show 2 ^ 32 - 1 + 1 = 2 ^ 32 from rfl] at haged hremaining
  obtain ⟨hrefused, v, hseen⟩ := haged.overwritten
  obtain ⟨v', hread⟩ := haged.reads
  have hkept : remaining Record.rkyv s items =
      transcript Record.rkyv s (List.replicate (2 ^ 32) putAgain) ++
        [(readFirst, .result (.ok (.version ⟨"y", 0⟩ v)))] := by
    rw [remaining_append, hremaining, remaining_of_failed hrefused,
      remaining_of_not_failed (by rw [hseen]; rfl), hseen]
    rfl
  have hreduced : transcript Record.rkyv s items' =
      transcript Record.rkyv s (List.replicate (2 ^ 32) putAgain) ++
        [(readFirst, .result (.ok (.version ⟨"x", 0⟩ v')))] := by
    rw [transcript_append, transcript, hread]
    rfl
  have hasked : (List.replicate (2 ^ 32) putAgain).map Item.asked =
      (transcript Record.rkyv s (List.replicate (2 ^ 32) putAgain)).map
        fun entry => entry.1.asked :=
    (congrArg (List.map Item.asked) (transcript_items Record.rkyv _ s).symm).trans List.map_map
  rw [hkept, hreduced]
  constructor
  · rw [List.map_append, List.map_append, hasked]
    rfl
  · rw [List.map_append, List.map_append]
    intro heq
    have hlast := List.append_cancel_left heq
    simp at hlast

end Kallisto.Engine
