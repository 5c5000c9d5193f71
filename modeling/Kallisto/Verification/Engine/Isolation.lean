import Kallisto.Verification.Engine.Outcomes
import Kallisto.Verification.Engine.TimesAside

/-! # Clients on different paths

In immediate mode on a healthy storage a client whose paths no other client uses gets the
results that it gets alone. -/

namespace Kallisto.Engine

open Program Interleaving

variable {B Tid : Type}

/-! ## Acknowledged puts -/

/-- The request is a put of the path that was acknowledged. -/
def Request.acknowledges (path : String) (request : Request) : Bool :=
  match request.call, request.result with
  | .putVersion path' _ _, .ok _ => path' = path
  | _, _ => false

theorem acknowledges_put (path : String) (x : SecretPayload) (cas : Option UInt32)
    (faced : List Given) (out : Out) :
    Request.acknowledges path ⟨.putVersion path x cas, faced, .ok out⟩ = true :=
  decide_eq_true rfl

def putsOf (path : String) (requests : List Request) : ℕ :=
  requests.countP (Request.acknowledges path)

/-- The path has metadata once it has versions, and its current version is their number
as far as 32 bits go. -/
structure Counted (rkyv : Rkyv B) (path : String) (n : ℕ) (books : Books B) : Prop where
  known : books.metadata path = none ↔ n = 0
  current : books.current rkyv path = UInt32.ofNat n

section Counted

variable {rkyv : Rkyv B} {books books' : Books B} {path : String} {n : ℕ} {b : B}

theorem current_of_some (hb : books.metadata path = some b) :
    books.current rkyv path = (rkyv.archivedMetadata b).currentVersion := by
  rw [Books.current, hb]
  rfl

theorem Counted.of_some (hb : books.metadata path = some b) (hn : n ≠ 0)
    (hnumber : (rkyv.archivedMetadata b).currentVersion = UInt32.ofNat n) :
    Counted rkyv path n books where
  known := by
    rw [hb]
    exact iff_of_false nofun hn
  current := (current_of_some hb).trans hnumber

theorem Counted.congr (h : Counted rkyv path n books)
    (hsame : books'.metadata path = books.metadata path) : Counted rkyv path n books' where
  known := by
    rw [hsame]
    exact h.known
  current := by
    rw [Books.current, hsame]
    exact h.current

/-- The count grows with the acknowledged puts of the path. -/
theorem Leaves.counted {request : Request}
    (h : Leaves rkyv books request.call request.result books')
    (hcounted : Counted rkyv path n books) :
    Counted rkyv path (n + if request.acknowledges path then 1 else 0) books' := by
  obtain ⟨c, faced, r⟩ := request
  cases h with
  | keeps hmetadata hpaths hput =>
    have hnot : Request.acknowledges path ⟨c, faced, r⟩ = false := by
      cases c with
      | putVersion path' x cas =>
        obtain ⟨e, rfl⟩ := hput rfl
        rfl
      | _ => rfl
    rw [hnot]
    exact hcounted.congr (congrFun hmetadata path)
  | @put path' x cas b _ hnumber hmetadata hpaths =>
    by_cases hpath : path' = path
    · subst hpath
      rw [acknowledges_put]
      refine .of_some (by rw [hmetadata, Function.update_self]) (Nat.succ_ne_zero n) ?_
      rw [hnumber, hcounted.current]
      exact (UInt32.ofNat_add n 1).symm
    · have hnot : Request.acknowledges path ⟨.putVersion path' x cas, faced, .ok .unit⟩ = false :=
        decide_eq_false hpath
      rw [hnot]
      exact hcounted.congr (by rw [hmetadata, Function.update_of_ne (Ne.symm hpath)])
  | @edit _ path' before b _ hput hbefore hnumber hmetadata hpaths =>
    have hnot : Request.acknowledges path ⟨c, faced, .ok .unit⟩ = false := by
      cases c with
      | putVersion path' x cas => cases hput
      | _ => rfl
    rw [hnot]
    by_cases hpath : path' = path
    · subst hpath
      have hn : n ≠ 0 := by
        intro hzero
        rw [hcounted.known.mpr hzero] at hbefore
        cases hbefore
      refine .of_some (by rw [hmetadata, Function.update_self]) hn ?_
      rw [hnumber, ← current_of_some hbefore]
      exact hcounted.current
    · exact hcounted.congr (by rw [hmetadata, Function.update_of_ne (Ne.symm hpath)])

/-- After puts on an empty database the current version is their number. -/
theorem Replays.counted (hrkyv : rkyv.Faithful) {paths : List String} (path : String)
    {requests : List Request} (h : Replays rkyv ⟨fun _ => none, paths⟩ requests books) :
    Counted rkyv path (putsOf path requests) books := by
  induction h with
  | nil => exact ⟨iff_of_true rfl rfl, rfl⟩
  | @cons requests books books' request before heval ih =>
    have hleaves := eval_leaves hrkyv request.call 0 books request.faced
    rw [heval 0] at hleaves
    rw [putsOf, List.countP_cons]
    exact hleaves.counted ih

/-- A path with acknowledged puts has metadata to read. -/
theorem eval_readMetadata (h : Counted rkyv path n books) (hn : n ≠ 0) {now : UInt64}
    {faced : List Given} {r : Except EngineError Out}
    (heval : (script rkyv (.readMetadata path)).eval now books faced = (r, books')) :
    ∃ b, books.metadata path = some b ∧ r = .ok (.metadata (deserializeMetadata rkyv b)) := by
  obtain ⟨b, hb⟩ := Option.ne_none_iff_exists'.mp fun hnone => hn (h.known.mp hnone)
  simp only [script, readMetadataScript, Script.eval] at heval
  rw [show books.records (buildMetaKey path) = some b from hb] at heval
  exact ⟨b, hb, (congrArg Prod.fst heval).symm⟩

end Counted

/-! ## Runs -/

/-- Requests of a client are about its own paths. -/
def OwnPaths (paths : Tid → String → Prop) : Step B Tid → Prop
  | .invoke t c => paths t c.path
  | _ => True

/-- The keys of the records of a client's paths. -/
def keysOf (paths : Tid → String → Prop) (t : Tid) (key : String) : Prop :=
  ∃ path, paths t path ∧ PathKey path key

theorem disjoint_keysOf {paths : Tid → String → Prop}
    (h : ∀ t t' path, paths t path → paths t' path → t = t') : Disjoint (keysOf paths) := by
  rintro t t' key ⟨path, hpath, hkey⟩ ⟨path', hpath', hkey'⟩
  obtain rfl := hkey.inj hkey'
  exact h t t' path hpath hpath'

theorem OwnPaths.ownStep {paths : Tid → String → Prop} {l : Step B Tid} (h : OwnPaths paths l) :
    OwnStep (keysOf paths) l := by
  cases l with
  | invoke t c => exact fun key hkey => ⟨c.path, h, hkey⟩
  | _ => trivial

theorem SteadyStep.fair {p : Clients B Tid} {l : Step B Tid} (h : SteadyStep l) :
    FairStep .immediate (fun _ => True) p l := by
  cases l with
  | act t choice => exact ⟨fun _ _ => h, nofun⟩
  | env e =>
    cases e with
    | dropEntry key => exact Or.inl rfl
    | worker timeout fails => exact Or.inl rfl
    | changeSyncMode mode => exact h
    | stop => trivial
  | _ => trivial

variable [DecidableEq Tid]

/-- In a run of clients with paths of their own each of them has a replay. -/
theorem replays_run (rkyv : Rkyv B) {paths : Tid → String → Prop}
    (hpaths : ∀ t t' path, paths t path → paths t' path → t = t') {labels : List (Step B Tid)}
    (hsteps : Along (Pool.step (body rkyv)) (fun _ l => SteadyStep l ∧ OwnPaths paths l)
      (Clients.opened (fun _ => none) .immediate []) labels) (t : Tid) :
    let p := (Clients.opened (fun _ => none) .immediate []).run (body rkyv) labels
    (∃ books, Replays rkyv ⟨fun _ => none, []⟩ (requestsOf t p.log) books) ∧
      ∀ request ∈ requestsOf t p.log, request.Healthy := by
  obtain ⟨stance, records, h⟩ := Accounted.run rkyv (fun _ => none) [] (disjoint_keysOf hpaths)
    (fun p l hl => ⟨hl.1.fair, hl.2.ownStep⟩) hsteps
  refine ⟨(h.accounts t).replays, HealthyLog.request ?_⟩
  exact Along.invariant (I := fun p : Clients B Tid => HealthyLog p.log)
    (fun p l hp hl => hp.step hl.1) labels _ nofun hsteps

/-- A client gets the results of any run in which it makes the same requests alone, sees
the number of its acknowledged puts as the current version, and gets an answer to every
request. -/
structure Isolated (rkyv : Rkyv B) (p : Clients B Tid) : Prop where
  alone : ∀ t (labels : List (Step B Unit)),
    Along (Pool.step (body rkyv)) (fun _ l => SteadyStep l)
      (Clients.opened (fun _ => none) .immediate []) labels →
    let single := (Clients.opened (fun _ => none) .immediate []).run (body rkyv) labels
    List.Forall₂ Request.Matches (requestsOf t p.log) (requestsOf () single.log) →
      List.Forall₂ (fun request request' => TimesAside request.result request'.result)
        (requestsOf t p.log) (requestsOf () single.log)
  counts : ∀ t later path faced r earlier,
    requestsOf t p.log = later ++ ⟨.readMetadata path, faced, r⟩ :: earlier →
    0 < putsOf path earlier → putsOf path earlier < 2 ^ 32 →
      ∃ m, r = .ok (.metadata m) ∧ m.currentVersion.toNat = putsOf path earlier
  returns : ∀ t c prog, p.client t = some (c, prog) → ∀ choices : ℕ → Choice, ∃ n r,
    (p.advance (body rkyv) t ((List.range n).map choices)).client t = some (c, .done r)

theorem run_isolated {rkyv : Rkyv B} (hrkyv : rkyv.Faithful) {paths : Tid → String → Prop}
    (hpaths : ∀ t t' path, paths t path → paths t' path → t = t') (labels : List (Step B Tid))
    (hsteps : Along (Pool.step (body rkyv)) (fun _ l => SteadyStep l ∧ OwnPaths paths l)
      (Clients.opened (fun _ => none) .immediate []) labels) :
    Isolated rkyv ((Clients.opened (fun _ => none) .immediate []).run (body rkyv) labels) := by
  refine ⟨?_, ?_, ?_⟩
  · intro t single hsingle _ hmatches
    obtain ⟨⟨books, hreplays⟩, hhealthy⟩ := replays_run rkyv hpaths hsteps t
    have hown : Along (Pool.step (body rkyv))
        (fun _ l => SteadyStep l ∧ OwnPaths (fun _ _ => True) l)
        (Clients.opened (fun _ => none) .immediate []) single :=
      hsingle.mono fun p l hl => ⟨hl, by cases l <;> trivial⟩
    obtain ⟨⟨books', hreplays'⟩, hhealthy'⟩ :=
      replays_run rkyv (fun _ _ _ _ _ => rfl) hown ()
    exact (hreplays.alike hrkyv (.refl _) hmatches hreplays' hhealthy hhealthy').1
  · intro t later path faced r earlier hrequests hpos hless
    obtain ⟨⟨books, hreplays⟩, -⟩ := replays_run rkyv hpaths hsteps t
    rw [hrequests] at hreplays
    obtain ⟨before, after, hbefore, heval⟩ := hreplays.split
    have hcounted := hbefore.counted hrkyv path
    obtain ⟨b, hb, hread⟩ := eval_readMetadata hcounted hpos.ne' (heval 0)
    refine ⟨deserializeMetadata rkyv b, hread, ?_⟩
    have hcurrent := (current_of_some hb).symm.trans hcounted.current
    change (rkyv.archivedMetadata b).currentVersion.toNat = _
    rw [hcurrent, UInt32.toNat_ofNat_of_lt' hless]
  · exact fun t c prog hclient choices => Pool.advance_done (body rkyv) hclient choices

instance {paths : Tid → String → Prop} [∀ t path, Decidable (paths t path)] (l : Step B Tid) :
    Decidable (OwnPaths paths l) :=
  match l with
  | .invoke t c => inferInstanceAs (Decidable (paths t c.path))
  | .act _ _ => .isTrue trivial
  | .respond _ => .isTrue trivial
  | .env _ => .isTrue trivial

/-- Two clients put versions of two paths at the same time, and the first one reads while
its metadata is dropped from the cache. -/
def crossingPuts : List (Step Record Bool) :=
  List.flatten [
    calling false (.putVersion "p" ⟨"x", 0⟩ none) 5,
    calling true (.putVersion "q" ⟨"y", 0⟩ none) 7,
    List.replicate 5 (.act false (.at 3)),
    [.respond false, .env (.dropEntry (buildMetaKey "p"))],
    List.replicate 3 (.act true (.at 4)),
    [.respond true],
    requesting false (.readMetadata "p") 3]

/-- The first of the two clients alone. -/
def singlePut : List (Step Record Unit) :=
  List.flatten [
    requesting () (.putVersion "p" ⟨"x", 0⟩ none) 10,
    requesting () (.readMetadata "p") 1]

theorem run_isolated_crossingPuts :
    Along (Pool.step (body Record.rkyv))
        (fun _ l => SteadyStep l ∧ OwnPaths (fun t path => path = if t then "q" else "p") l)
        (Clients.opened (fun _ => none) .immediate []) crossingPuts ∧
      Along (Pool.step (body Record.rkyv)) (fun _ l => SteadyStep l)
        (Clients.opened (fun _ => none) .immediate []) singlePut ∧
      List.Forall₂ Request.Matches
        (requestsOf false ((Clients.opened (fun _ => none) .immediate []).run (body Record.rkyv)
          crossingPuts).log)
        (requestsOf () ((Clients.opened (fun _ => none) .immediate []).run (body Record.rkyv)
          singlePut).log) ∧
      Isolated Record.rkyv
        ((Clients.opened (fun _ => none) .immediate []).run (body Record.rkyv) crossingPuts) := by
  have hsteps : Along (Pool.step (body Record.rkyv))
      (fun _ l => SteadyStep l ∧ OwnPaths (fun t path => path = if t then "q" else "p") l)
      (Clients.opened (fun _ => none) .immediate []) crossingPuts := by decide
  refine ⟨hsteps, by decide, by decide, run_isolated Record.rkyv_faithful ?_ crossingPuts hsteps⟩
  rintro (_ | _) (_ | _) path hpath hpath' <;> simp_all

/-! ## More puts than 32 bits count -/

theorem requestsOf_advance (rkyv : Rkyv B) (t t' : Tid) (choices : List Choice) :
    ∀ p : Clients B Tid, requestsOf t' (p.advance (body rkyv) t choices).log =
      requestsOf t' p.log := by
  induction choices with
  | nil => exact fun _ => rfl
  | cons choice choices ih =>
    intro p
    refine (ih (p.step (body rkyv) (.act t choice))).trans ?_
    have hmoves := Pool.step_moves (body rkyv) p (.act t choice)
    generalize p.step (body rkyv) (.act t choice) = p' at hmoves
    cases hmoves <;> rfl

/-- Every request can be made and is answered. -/
theorem exists_request (rkyv : Rkyv B) {p : Clients B Tid} {t : Tid} (hidle : p.client t = none)
    (c : Call) : ∃ labels : List (Step B Tid),
      (∀ l ∈ labels, SteadyStep l ∧ OwnPaths (fun _ path => path = c.path) l) ∧
      (p.run (body rkyv) labels).client t = none ∧ ∃ faced r,
        requestsOf t (p.run (body rkyv) labels).log = ⟨c, faced, r⟩ :: requestsOf t p.log := by
  have hinvoke : p.step (body rkyv) (.invoke t c) =
      ⟨p.shared, p.setClient t (some (c, body rkyv c)), .invoke t c :: p.log⟩ := by
    simp only [Pool.step, hidle]
  have hclient : (p.step (body rkyv) (.invoke t c)).client t = some (c, body rkyv c) := by
    rw [hinvoke]
    exact Function.update_self ..
  obtain ⟨n, r, hdone⟩ := Pool.advance_done (body rkyv) hclient fun _ => Choice.at 1
  generalize hacts : (List.range n).map (fun _ => Choice.at 1) = choices at hdone
  have hrequests := requestsOf_advance rkyv t t choices (p.step (body rkyv) (.invoke t c))
  refine ⟨.invoke t c :: (choices.map (fun choice => .act t choice) ++ [.respond t]), ?_, ?_⟩
  · intro l hl
    rcases List.mem_cons.mp hl with rfl | hl
    · exact ⟨trivial, rfl⟩
    · rcases List.mem_append.mp hl with hl | hl
      · obtain ⟨choice, hchoice, rfl⟩ := List.mem_map.mp hl
        rw [← hacts] at hchoice
        obtain ⟨-, -, rfl⟩ := List.mem_map.mp hchoice
        exact ⟨rfl, trivial⟩
      · rw [List.mem_singleton.mp hl]
        exact ⟨trivial, trivial⟩
  · have hrun : p.run (body rkyv)
        (.invoke t c :: (choices.map (fun choice => .act t choice) ++ [.respond t])) =
        ((p.step (body rkyv) (.invoke t c)).advance (body rkyv) t choices).step (body rkyv)
          (.respond t) := by
      rw [Pool.run, List.foldl_cons, List.foldl_append]
      rfl
    rw [hrun]
    generalize (p.step (body rkyv) (.invoke t c)).advance (body rkyv) t choices = q
      at hdone hrequests
    rw [hinvoke] at hrequests
    simp only [Pool.step, hdone]
    refine ⟨Function.update_self .., facedBy (callTrace t q.log), r, ?_⟩
    rw [requestsOf, if_pos rfl, hrequests]
    rfl

theorem eval_putVersion_ok {rkyv : Rkyv B} (hrkyv : rkyv.Faithful) (path : String)
    (x : SecretPayload) (now : UInt64) (books : Books B) {faced : List Given}
    (h : ∀ e, .outcome (some e) ∉ faced) :
    ((script rkyv (.putVersion path x none)).eval now books faced).1 = .ok .unit := by
  have htail : ∀ {faced : List Given}, (∀ e, .outcome (some e) ∉ faced) →
      ∀ e, .outcome (some e) ∉ faced.tail := fun h e he => h e (List.mem_of_mem_tail he)
  obtain ⟨payload, hpayload, -⟩ := hrkyv.payload x
  simp only [script, putVersionScript, checkCasScript, appendVersionScript, Script.eval, hpayload,
    nextOutcome_eq_none (htail h)]
  generalize books.write _ = books'
  generalize KeyMetadata.grown _ _ = m
  obtain ⟨b, hb, -⟩ := hrkyv.metadata m
  simp only [storeMetadataScript, hb, Script.eval, nextOutcome_eq_none (htail (htail h))]

/-- A client can have any number of puts of a path acknowledged. -/
theorem exists_puts {rkyv : Rkyv B} (hrkyv : rkyv.Faithful) (path : String) (n : ℕ) :
    ∃ labels : List (Step B Unit),
      (∀ l ∈ labels, SteadyStep l ∧ OwnPaths (fun _ path' => path' = path) l) ∧
      ((Clients.opened (fun _ => none) .immediate []).run (body rkyv) labels).client () = none ∧
      putsOf path (requestsOf () ((Clients.opened (fun _ => none) .immediate []).run (body rkyv)
        labels).log) = n := by
  induction n with
  | zero => exact ⟨[], nofun, rfl, rfl⟩
  | succ n ih =>
    obtain ⟨labels, hlabels, hidle, hputs⟩ := ih
    obtain ⟨more, hmore, hidle', faced, r, hrequests⟩ :=
      exists_request rkyv hidle (.putVersion path ⟨"", 0⟩ none)
    have hall : ∀ l ∈ labels ++ more,
        SteadyStep l ∧ OwnPaths (fun _ path' => path' = path) l := by
      intro l hl
      rcases List.mem_append.mp hl with hl | hl
      · exact hlabels l hl
      · exact hmore l hl
    rw [← Pool.run_append] at hidle' hrequests
    refine ⟨labels ++ more, hall, hidle', ?_⟩
    obtain ⟨⟨books, hreplays⟩, hhealthy⟩ :=
      replays_run rkyv (fun _ _ _ _ _ => rfl) (Along.of_forall _ hall) ()
    rw [hrequests] at hreplays hhealthy ⊢
    have hok : r = .ok .unit := by
      rcases hreplays with _ | ⟨_, hbefore, heval⟩
      rw [← eval_putVersion_ok hrkyv path ⟨"", 0⟩ 0 _ (hhealthy _ List.mem_cons_self), heval 0]
    rw [hok, putsOf, List.countP_cons_of_pos (acknowledges_put ..)]
    exact congrArg (· + 1) hputs

/-- After `2 ^ 32` acknowledged puts of its path a client sees the version zero. -/
theorem manyPuts_wrap : ∃ labels : List (Step Record Unit),
    Along (Pool.step (body Record.rkyv))
      (fun _ l => SteadyStep l ∧ OwnPaths (fun _ path => path = "p") l)
      (Clients.opened (fun _ => none) .immediate []) labels ∧
    ∃ faced m earlier, requestsOf () ((Clients.opened (fun _ => none) .immediate []).run
        (body Record.rkyv) labels).log =
          ⟨.readMetadata "p", faced, .ok (.metadata m)⟩ :: earlier ∧
      putsOf "p" earlier = 2 ^ 32 ∧ m.currentVersion = 0 := by
  obtain ⟨labels, hlabels, hidle, hputs⟩ := exists_puts Record.rkyv_faithful "p" (2 ^ 32)
  obtain ⟨more, hmore, -, faced, r, hrequests⟩ :=
    exists_request Record.rkyv hidle (.readMetadata "p")
  have hall : ∀ l ∈ labels ++ more, SteadyStep l ∧ OwnPaths (fun _ path => path = "p") l := by
    intro l hl
    rcases List.mem_append.mp hl with hl | hl
    · exact hlabels l hl
    · exact hmore l hl
  rw [← Pool.run_append] at hrequests
  refine ⟨labels ++ more, Along.of_forall _ hall, ?_⟩
  obtain ⟨⟨books, hreplays⟩, -⟩ := replays_run Record.rkyv (fun _ _ _ _ _ => rfl)
    (Along.of_forall _ hall) ()
  rw [hrequests] at hreplays ⊢
  rcases hreplays with _ | ⟨_, hbefore, heval⟩
  have hcounted := hbefore.counted Record.rkyv_faithful "p"
  rw [hputs] at hcounted
  obtain ⟨b, hb, hread⟩ := eval_readMetadata hcounted (by decide) (heval 0)
  refine ⟨faced, deserializeMetadata Record.rkyv b, _, by rw [← hread], hputs, ?_⟩
  exact (current_of_some hb).symm.trans hcounted.current

end Kallisto.Engine
