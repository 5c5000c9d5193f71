import Kallisto.Verification.Engine.BatchMode

/-! # Puts of several clients -/

namespace Kallisto.Engine

open Program Interleaving

variable {B Tid : Type} {x : SecretPayload}

/-! ## What the clients may rely on -/

/-- A read of the version, run alone on a healthy storage, returns the payload. -/
def Readable (rkyv : Rkyv B) (s : KvEngine B) (path : String) (n : UInt32) (x : SecretPayload) :
    Prop :=
  ∀ c : Choice, c.error = none →
    ∃ state, ((system B).alone c (readVersion rkyv path n) s).1 = .ok (x, state)

/-- The metadata that a put would start from, run alone on a healthy storage, has the
current version. -/
def HasCurrent (rkyv : Rkyv B) (s : KvEngine B) (path : String) (n : ℕ) : Prop :=
  ∀ c : Choice, c.error = none →
    ∃ m, ((system B).alone c (readMetadataOrDefault rkyv path) s).1 = .ok m ∧
      m.currentVersion.toNat = n

/-- The number of acknowledged puts of a path. -/
def putsAcknowledged (path : String) : List (Event (system B) EngineError Call Out Tid) → ℕ
  | [] => 0
  | .respond _ c (.ok _) :: log => putsAcknowledged path log + c.puts path
  | _ :: log => putsAcknowledged path log

/-- Acknowledged puts of a path have one number each, no two of them the same; between
requests the current version counts them, each payload is read under its number, and a
given expected version was accepted at most once. -/
structure NoLostVersion [DecidableEq Tid] (rkyv : Rkyv B) (path : String) (n₀ : ℕ)
    (p : Clients B Tid) : Prop where
  numbered : ∀ after before t x cas out,
    p.log = after ++ .respond t (.putVersion path x cas) (.ok out) :: before →
    ∃ n, WroteVersion path n (callTrace t before) ∧
      ∀ n', WroteVersion path n' (callTrace t before) → n' = n
  distinct : ∀ after between before t t' x x' cas cas' out out' n n',
    p.log = after ++ .respond t' (.putVersion path x' cas') (.ok out') ::
      (between ++ .respond t (.putVersion path x cas) (.ok out) :: before) →
    WroteVersion path n (callTrace t before) →
    WroteVersion path n' (callTrace t'
      (between ++ .respond t (.putVersion path x cas) (.ok out) :: before)) →
    n ≠ n'
  current : (∀ t, p.client t = none) →
    HasCurrent rkyv p.shared path (n₀ + putsAcknowledged path p.log)
  readable : (∀ t, p.client t = none) → ∀ after before t x cas out n,
    p.log = after ++ .respond t (.putVersion path x cas) (.ok out) :: before →
    WroteVersion path n (callTrace t before) → Readable rkyv p.shared path n x
  exclusive : ∀ after between before t t' x x' expected out out',
    p.log ≠ after ++ .respond t' (.putVersion path x' (some expected)) (.ok out') ::
      (between ++ .respond t (.putVersion path x (some expected)) (.ok out) :: before)

/-! ## Histories of puts -/

section Histories

variable [DecidableEq Tid] {given : Assumed} {a₀ a a' : Store} {path : String}
  {log : List (Event (system B) EngineError Call Out Tid)} {trace : List ((op : Effect B) × op.Ret)}

theorem Answers.length_ok {c : Call} {out : Out} (h : Answers given a c (.ok out) trace a')
    (path : String) : (a' path).length = (a path).length + c.puts path := by
  cases c with
  | putVersion path' x cas =>
    rw [h.put.1, Function.update_apply]
    by_cases hpath : path' = path
    · subst hpath
      simp [Call.puts]
    · simp [Call.puts, hpath, Ne.symm hpath]
  | _ => exact Nat.le_antisymm (h.length path).2 (h.length path).1

/-- The version list counts the acknowledged puts. -/
theorem length_eq_putsAcknowledged (h : History (Answers given) a₀ a log) (path : String) :
    (a path).length = (a₀ path).length + putsAcknowledged path log := by
  induction h with
  | start => rfl
  | respond t c r h hpost ih =>
    cases r with
    | error e =>
      rw [hpost.unmutated nofun, ih]
      rfl
    | ok out =>
      rw [putsAcknowledged, ← Nat.add_assoc, ← ih]
      exact hpost.length_ok path
  | keep e h he ih =>
    cases e with
    | respond t c r => exact (he t c r rfl).elim
    | _ => exact ih

/-- A put with an expected version is acknowledged at that version only. -/
theorem Answers.cas {expected : UInt32} {out : Out}
    (h : Answers given a (.putVersion path x (some expected)) (.ok out) trace a') :
    expected.toNat = (a path).length := by
  rcases h with ⟨ticked, _, hr, _, _⟩ | ⟨_, hr, _⟩
  · by_contra hne
    change _ = (a.put path x (some expected)).1 at hr
    simp [Store.put, hne, Except.map] at hr
  · cases hr

/-- A put of the path. -/
def IsPut (path : String) : Call → Prop
  | .putVersion path' _ _ => path' = path
  | _ => False

/-- Puts keep the versions that there are. -/
theorem Answers.keeps_nth {c : Call} {r : Except EngineError Out}
    (h : Answers given a c r trace a') (hc : IsPut path c) {n : ℕ} {v : Version}
    (hv : nth (a path) n = some v) : nth (a' path) n = some v := by
  cases c with
  | putVersion path' x cas =>
    obtain rfl : path' = path := hc
    cases r with
    | error e => rwa [h.unmutated nofun]
    | ok out =>
      rw [h.put.1, Function.update_self]
      exact nth_append hv
  | _ => exact hc.elim

/-- An acknowledged put is still there after later puts. -/
theorem nth_of_history {after before : List (Event (system B) EngineError Call Out Tid)}
    {t : Tid} {cas : Option UInt32} {out : Out} {n : UInt32} (h : History (Answers given) a₀ a
      (after ++ .respond t (.putVersion path x cas) (.ok out) :: before))
    (hputs : ∀ t c r, .respond t c r ∈ after → IsPut path c)
    (hn : WroteVersion path n (callTrace t before)) :
    nth (a path) n.toNat = some ⟨x, false, false⟩ := by
  obtain ⟨a', hput, hkeep⟩ : ∃ a', History (Answers given) a₀ a'
      (.respond t (.putVersion path x cas) (.ok out) :: before) ∧
      ∀ n v, nth (a' path) n = some v → nth (a path) n = some v := by
    refine h.split (R := fun a₁ a₂ => ∀ n v, nth (a₁ path) n = some v → nth (a₂ path) n = some v)
      (fun _ _ _ hv => hv) after ?_
    intro t c r trace a₁ a₂ a₃ hmem hpost hR n v hv
    exact hpost.keeps_nth (hputs t c r hmem) (hR n v hv)
  obtain ⟨vs, hvs, hnumber⟩ := history_put hput
  refine hkeep _ _ ?_
  rw [hvs, hnumber n hn]
  simp [nth]

end Histories

/-! ## Reads of a store that is held -/

section Reads

variable {rkyv : Rkyv B} {mode : SyncMode} {a : Store} {s : KvEngine B} {path : String}

/-- Without a request running nothing is asked of the queue and the clock. -/
theorem regime_op {c : Choice} (hc : c.error = none) (s : KvEngine B × List ((op : Effect B) × op.Ret))
    (op : Effect B) : (regime B mode ⟨false, false⟩).traced.op s op c := by
  refine ⟨hc, nofun, ?_⟩
  cases op with
  | enqueue op => exact fun _ => nofun
  | _ => trivial

theorem Holds.readable (h : Holds rkyv mode a s) {n : UInt32}
    (hn : nth (a path) n.toNat = some ⟨x, false, false⟩) : Readable rkyv s path n x := by
  intro c hc
  obtain ⟨L, hstores, hs⟩ := h
  obtain ⟨y, hread, hy⟩ : ∃ y, Returns (regime B mode ⟨false, false⟩).traced
      (At mode (Erased a) L []) (readVersion rkyv path n) y ∧ _ :=
    returns_readVersion hstores path n
  obtain ⟨hresult, _⟩ := Triple.alone (regime_op hc) hread (s := (s, [])) ⟨hs, rfl⟩
  rw [System.alone_traced] at hresult
  have h0 : n ≠ 0 := by
    rintro rfl
    exact nth_ne_zero hn rfl
  have hpath : a path ≠ [] := by
    intro hnil
    simp [nth, hnil] at hn
  cases y with
  | error e => simp [Store.readVersion, hpath, h0, hn, Except.map] at hy
  | ok y =>
    obtain ⟨hx, _⟩ : y.1 = x ∧ _ := by
      simpa [Store.readVersion, hpath, h0, hn, Except.map] using hy
    exact ⟨y.2, by rw [hresult, ← hx]⟩

theorem Holds.hasCurrent (h : Holds rkyv mode a s) (path : String) :
    HasCurrent rkyv s path (a path).length := by
  intro c hc
  obtain ⟨L, hstores, hs⟩ := h
  have hread : Returns (regime B mode ⟨false, false⟩).traced (At mode (Erased a) L [])
      (readMetadataOrDefault rkyv path) _ := returns_readMetadataOrDefault path
  obtain ⟨hresult, _⟩ := Triple.alone (regime_op hc) hread (s := (s, [])) ⟨hs, rfl⟩
  rw [System.alone_traced] at hresult
  refine ⟨_, hresult, ?_⟩
  by_cases hpath : a path = []
  · rw [hstores.unknown path hpath, hpath]
    rfl
  · obtain ⟨b, hb, hdescribes⟩ := hstores.known path hpath
    rw [hb]
    exact hdescribes.current

end Reads

/-! ## Runs -/

section Runs

variable [DecidableEq Tid]

/-- The clients only put versions of the path. -/
def OnlyPuts (path : String) : Step B Tid → Prop
  | .invoke _ c => IsPut path c
  | .env (.dropEntry _) => False
  | _ => True

/-- A request takes its first step only while no other one has started and not yet
returned. -/
def OneAtATime (p : Clients B Tid) : Step B Tid → Prop
  | .act t _ => p.started t = false → ∀ t', p.started t' = false
  | _ => True

/-- All requests of the run are puts of the path. -/
structure Putting (path : String) (p : Clients B Tid) : Prop where
  running : ∀ t c prog, p.client t = some (c, prog) → IsPut path c
  answered : ∀ t c r, .respond t c r ∈ p.log → IsPut path c

theorem Putting.step {path : String} (rkyv : Rkyv B) {p : Clients B Tid} {l : Step B Tid}
    (h : Putting path p) (hl : OnlyPuts path l) : Putting path (p.step (body rkyv) l) := by
  have hmoves := p.step_moves (body rkyv) l
  generalize p.step (body rkyv) l = p' at hmoves
  cases hmoves with
  | stays => exact h
  | invoke t c hclient =>
    refine ⟨fun t' c' prog hclient' => ?_, fun t' c' r hmem => ?_⟩
    · change Function.update p.client t _ t' = _ at hclient'
      rw [Function.update_apply] at hclient'
      split at hclient'
      · cases hclient'
        exact hl
      · exact h.running t' c' prog hclient'
    · exact h.answered t' c' r (by simpa using hmem)
  | act t choice c op k hclient =>
    refine ⟨fun t' c' prog hclient' => ?_, fun t' c' r hmem => ?_⟩
    · change Function.update p.client t _ t' = _ at hclient'
      rw [Function.update_apply] at hclient'
      split at hclient'
      · cases hclient'
        exact h.running t c _ hclient
      · exact h.running t' c' prog hclient'
    · exact h.answered t' c' r (by simpa using hmem)
  | respond t c r hclient =>
    refine ⟨fun t' c' prog hclient' => ?_, fun t' c' r' hmem => ?_⟩
    · change Function.update p.client t _ t' = _ at hclient'
      rw [Function.update_apply] at hclient'
      split at hclient'
      · cases hclient'
      · exact h.running t' c' prog hclient'
    · rcases List.mem_cons.mp hmem with heq | hmem
      · cases heq
        exact h.running t c _ hclient
      · exact h.answered t' c' r' hmem
  | env e => exact ⟨h.running, fun t c r hmem => h.answered t c r (by simpa using hmem)⟩

theorem noLostVersion {rkyv : Rkyv B} {mode : SyncMode} {path : String} {a₀ : Store}
    {p : Clients B Tid} (hputting : Putting path p)
    (h : Serialized (regime B mode ⟨false, false⟩) (body rkyv) (Holds rkyv mode)
      (Answers ⟨false, false⟩) a₀ p) : NoLostVersion rkyv path (a₀ path).length p where
  numbered after before t x cas out hlog := by
    obtain ⟨a, hhistory, _⟩ := h.running
    rw [hlog] at hhistory
    obtain ⟨a', hput, _⟩ := length_le_of_history hhistory path
    obtain ⟨a'', _, hpost⟩ := hput.answered
    obtain ⟨n, b, b', hn, hwrites⟩ := hpost.put.2
    have hwrote : WroteVersion path n (callTrace t before) := ⟨b', by simp [hwrites]⟩
    refine ⟨n, hwrote, fun n' hn' => UInt32.toNat_inj.mp ?_⟩
    rw [hpost.put.2.number hwrote, hpost.put.2.number hn']
  distinct after between before t t' x x' cas cas' out out' n n' hlog hn hn' := by
    obtain ⟨a, hhistory, _⟩ := h.running
    rw [hlog] at hhistory
    obtain ⟨a₁, hlater, _⟩ := length_le_of_history hhistory path
    obtain ⟨a₂, hrest, hpost⟩ := hlater.answered
    obtain ⟨a₃, hput, hlength⟩ := length_le_of_history hrest path
    obtain ⟨vs, hvs, hnumber⟩ := history_put hput
    rw [hvs, List.length_append] at hlength
    rintro rfl
    have hsame := (hnumber n hn).symm.trans (hpost.put.2.number hn')
    rw [List.length_singleton] at hlength
    omega
  current hidle := by
    obtain ⟨a, hhistory, hholds⟩ := h.idle hidle
    rw [← length_eq_putsAcknowledged hhistory]
    exact hholds.hasCurrent path
  readable hidle after before t x cas out n hlog hn := by
    obtain ⟨a, hhistory, hholds⟩ := h.idle hidle
    rw [hlog] at hhistory
    refine hholds.readable (nth_of_history hhistory ?_ hn)
    intro t' c r hmem
    refine hputting.answered t' c r ?_
    rw [hlog]
    exact List.mem_append_left _ hmem
  exclusive after between before t t' x x' expected out out' hlog := by
    obtain ⟨a, hhistory, _⟩ := h.running
    rw [hlog] at hhistory
    obtain ⟨a₁, hlater, _⟩ := length_le_of_history hhistory path
    obtain ⟨a₂, hrest, hpost⟩ := hlater.answered
    obtain ⟨a₃, hput, hlength⟩ := length_le_of_history hrest path
    obtain ⟨a₄, _, hpost'⟩ := hput.answered
    have hgrown := hpost'.length_ok path
    have hsame := hpost.cas.symm.trans hpost'.cas
    simp only [Call.puts, if_true] at hgrown
    omega

/-- Puts that run one at a time lose no version, in either mode. -/
theorem run_noLostVersion {rkyv : Rkyv B} (hrkyv : rkyv.Faithful) (mode : SyncMode)
    {db : String → Option B} {a₀ : Store} (hdb : Stores rkyv db a₀) (paths : List String)
    (path : String) (labels : List (Step B Tid))
    (hsteps : Along (Pool.step (body rkyv))
      (fun p l => (SteadyStep l ∧ OnlyPuts path l) ∧ FewPuts a₀ p l ∧ OneAtATime p l)
      (Clients.opened db mode paths) labels) :
    NoLostVersion rkyv path (a₀ path).length
      ((Clients.opened db mode paths).run (body rkyv) labels) := by
  have hputting : Putting path (Clients.opened db mode paths : Clients B Tid) :=
    ⟨fun _ _ _ h => (nomatch h), fun _ _ _ h => (nomatch h)⟩
  have hstep : ∀ (p : Clients B Tid) l, Putting path p →
      (SteadyStep l ∧ OnlyPuts path l) ∧ FewPuts a₀ p l ∧ OneAtATime p l →
      Putting path (p.step (body rkyv) l) := fun p l h hl => h.step rkyv hl.1.2
  have hrun : Serialized (regime B mode ⟨false, false⟩) (body rkyv) (Holds rkyv mode)
      (Answers ⟨false, false⟩) a₀ ((Clients.opened db mode paths).run (body rkyv) labels) := by
    refine Serialized.run (specification hrkyv mode ⟨false, false⟩) (body_ne_done rkyv)
      ?_ ?_ ?_ ?_ (serialized_opened hdb mode ⟨false, false⟩ paths)
      (Along.strengthen hstep labels _ hputting hsteps)
    · exact fun p t choice hok => hok.1.2.2
    · intro a p t choice c prog h hok hclient
      refine fitting_of_roomFor h (hok.1.2.1.roomFor hclient) ?_
      rintro path' version rfl
      exact (hok.2.running t _ _ hclient).elim
    · rintro p t choice c op k ⟨⟨⟨herror, _⟩, _⟩, _⟩ _
      refine ⟨herror, nofun, ?_⟩
      cases op with
      | enqueue op => exact fun _ => nofun
      | _ => trivial
    · rintro p e ⟨⟨⟨he, hdrop⟩, _⟩, _⟩
      cases e with
      | dropEntry key => exact hdrop.elim
      | worker timeout fails => exact he
      | changeSyncMode mode => exact he.elim
      | stop => trivial
  exact noLostVersion (Along.invariant hstep labels _ hputting hsteps) hrun

end Runs

/-! ## Two clients -/

instance (path : String) (c : Call) : Decidable (IsPut path c) :=
  match c with
  | .putVersion path' _ _ => inferInstanceAs (Decidable (path' = path))
  | .readMetadata _ => .isFalse id
  | .readVersion _ _ => .isFalse id
  | .softDelete _ _ => .isFalse id
  | .undelete _ _ => .isFalse id
  | .destroyVersion _ _ => .isFalse id

instance {Tid : Type} (path : String) (l : Step B Tid) : Decidable (OnlyPuts path l) :=
  match l with
  | .invoke _ c => inferInstanceAs (Decidable (IsPut path c))
  | .act _ _ => .isTrue trivial
  | .respond _ => .isTrue trivial
  | .env (.dropEntry _) => .isFalse id
  | .env (.worker _ _) => .isTrue trivial
  | .env (.changeSyncMode _) => .isTrue trivial
  | .env .stop => .isTrue trivial

instance (p : Clients B Bool) (l : Step B Bool) : Decidable (OneAtATime p l) :=
  match l with
  | .act t _ => inferInstanceAs (Decidable (p.started t = false → ∀ t', p.started t' = false))
  | .invoke _ _ => .isTrue trivial
  | .respond _ => .isTrue trivial
  | .env _ => .isTrue trivial

/-- Two clients expect version 0. The first has made `early` of the `early + late` steps of
its put when the second makes the `whole` of its own. -/
def racing (early whole late : ℕ) : List (Step Record Bool) :=
  List.flatten [
    calling false (.putVersion "p" ⟨"x", 0⟩ (some 0)) early,
    requesting true (.putVersion "p" ⟨"y", 0⟩ (some 0)) whole,
    List.replicate late (.act false (.at 1)),
    [.respond false]]

theorem run_noLostVersion_waiting :
    Along (Pool.step (body Record.rkyv))
        (fun p l => (SteadyStep l ∧ OnlyPuts "p" l) ∧ FewPuts (fun _ => []) p l ∧ OneAtATime p l)
        (Clients.opened (fun _ => none) .immediate []) (racing 0 10 1) ∧
      NoLostVersion Record.rkyv "p" 0
        ((Clients.opened (fun _ => none) .immediate []).run (body Record.rkyv)
          (racing 0 10 1)) := by
  have hsteps : Along (Pool.step (body Record.rkyv))
      (fun p l => (SteadyStep l ∧ OnlyPuts "p" l) ∧ FewPuts (fun _ => []) p l ∧ OneAtATime p l)
      (Clients.opened (fun _ => none) .immediate []) (racing 0 10 1) := by decide
  exact ⟨hsteps, run_noLostVersion Record.rkyv_faithful .immediate (stores_empty _) [] "p" _ hsteps⟩

/-- Both puts read an unknown path before either writes, and both are acknowledged with
version 1. -/
theorem racing_accepts_twice :
    Along (Pool.step (body Record.rkyv))
        (fun p l => (SteadyStep l ∧ OnlyPuts "p" l) ∧ FewPuts (fun _ => []) p l)
        (Clients.opened (fun _ => none) .immediate []) (racing 2 10 8) ∧
      ¬ NoLostVersion Record.rkyv "p" 0
        ((Clients.opened (fun _ => none) .immediate []).run (body Record.rkyv)
          (racing 2 10 8)) := by
  refine ⟨by decide, fun h => ?_⟩
  have hsplit : ((Clients.opened (fun _ => none) .immediate []).run (body Record.rkyv)
      (racing 2 10 8)).log = [] ++ .respond false (.putVersion "p" ⟨"x", 0⟩ (some 0)) (.ok .unit) ::
        ([.act false (.insertPathIfAbsent "p") (), .act false (.cacheInsert "m:p"
            (.metadata ⟨1, 0, false, 0, [], [⟨1, 0, 1, false⟩]⟩)) (),
          .act false (.putRaw "m:p" (.metadata ⟨1, 0, false, 0, [], [⟨1, 0, 1, false⟩]⟩))
            (.ok () : Except String Unit),
          .act false .getSyncMode SyncMode.immediate,
          .act false (.cacheInsert "v:p:1" (.payload ⟨"x", 0⟩)) (),
          .act false (.putRaw "v:p:1" (.payload ⟨"x", 0⟩)) (.ok () : Except String Unit),
          .act false .getSyncMode SyncMode.immediate, .act false .nowMs (1 : UInt64)] ++
        .respond true (.putVersion "p" ⟨"y", 0⟩ (some 0)) (.ok .unit) ::
          ((Clients.opened (fun _ => none) .immediate []).run (body Record.rkyv)
            (calling false (.putVersion "p" ⟨"x", 0⟩ (some 0)) 2 ++
              calling true (.putVersion "p" ⟨"y", 0⟩ (some 0)) 10)).log) := rfl
  exact h.exclusive _ _ _ _ _ _ _ _ _ _ hsplit

end Kallisto.Engine
