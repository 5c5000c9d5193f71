import Kallisto.Model.BackgroundWorker
import Kallisto.Verification.Engine.Pending

/-! # The order of the applied batches -/

namespace Kallisto.Background

open Engine (AsyncOp WorkerPc applyBatch applyBatch_append applyBatch_apply)
open Interleaving (Along)

variable {B : Type} {db : String → Option B} {l : Label B}

/-! ## What a pass can do -/

/-- No producer is left, or the worker has been told to stop. -/
def Worker.Closed (w : Worker B) : Prop :=
  w.running = false ∨ w.connected = false

/-- What a pass through the loop can do. The worker drains only once it is closed, and
exits only from the drain, with nothing left. -/
inductive Moves (w : Worker B) (fails : Bool) : Worker B → Prop where
  | goto (pc : WorkerPc) (hdrain : pc = .drain → w.Closed)
      (hexited : pc = .exited → w.pc = .drain ∧ w.queue = [] ∧ w.batch = []) :
      Moves w fails { w with pc := pc }
  | take (op : AsyncOp B) (rest : List (AsyncOp B)) (pc : WorkerPc)
      (h : w.queue = op :: rest) (hdrain : pc = .drain → w.pc = .drain) (hexited : pc ≠ .exited) :
      Moves w fails { w with queue := rest, batch := w.batch ++ [op], pc := pc }
  | flush (pc : WorkerPc) (hdrain : pc ≠ .drain)
      (hexited : pc = .exited → w.pc = .drain ∧ w.queue = []) :
      Moves w fails { w.flush fails with pc := pc }
  | rest (h : w.pc = .exited) : Moves w fails w

theorem loop_moves (breaks : Bool) (batchSize : ℕ) (w : Worker B) (received : Received)
    (timeout fails : Bool) : Moves w fails (w.loop breaks batchSize received timeout fails) := by
  unfold Worker.loop
  split
  · refine .goto _ ?_ ?_
    · intro hpc
      left
      by_contra hrunning
      simp [hrunning] at hpc
    · intro hpc
      split at hpc <;> cases hpc
  · split
    · next op rest hqueue => exact .take op rest _ hqueue nofun nofun
    · split
      · next hbreak => exact .goto _ (fun _ => Or.inr hbreak.2) nofun
      · exact .goto _ nofun nofun
    · exact .goto _ nofun nofun
  · split
    · exact .flush _ nofun nofun
    · exact .goto _ nofun nofun
  · next hpc =>
    split
    · next op rest hqueue =>
      exact .take op rest w.pc hqueue id (by simp [hpc])
    · next hqueue =>
      split
      · exact .flush _ nofun fun _ => ⟨hpc, hqueue⟩
      · next hbatch => exact .goto _ nofun fun _ => ⟨hpc, hqueue, not_not.mp hbatch⟩
  · next hpc => exact .rest hpc

theorem pass_moves (loop : Loop) (w : Worker B) (received : Received) (timeout fails : Bool) :
    Moves w fails (loop.pass w received timeout fails) := by
  cases loop with
  | asyncWorkerLoop => exact loop_moves _ _ w received timeout fails
  | workerLoop config => exact loop_moves _ _ w received timeout fails

/-! ## The order of the batches -/

/-- The applied batches are a beginning of what was enqueued, and RocksDB holds just
them. As long as no batch was refused, the rest waits in the batch and in the queue. -/
structure InOrder (db : String → Option B) (w : Worker B) : Prop where
  history : w.failed = false → w.enqueued = w.applied.flatten ++ (w.batch ++ w.queue)
  order : w.applied.flatten <+: w.enqueued
  contents : w.rocksdb = applyBatch db w.applied.flatten

/-- Once a batch was refused, every later one is. -/
def StaysFailed (w : Worker B) : Label B → Prop
  | .work _ _ fails => w.failed = true → fails = true
  | _ => True

variable {w : Worker B}

theorem InOrder.flush (h : InOrder db w) {fails : Bool} (hfails : w.failed = true → fails = true) :
    InOrder db (w.flush fails) := by
  unfold Worker.flush
  split
  · exact ⟨nofun, h.order, h.contents⟩
  · next hflushed =>
    have hbatch : w.failed = true → w.batch = [] := by
      intro hfailed
      by_contra hne
      exact hflushed ⟨hfails hfailed, hne⟩
    have happlied : (w.applied ++ [w.batch]).flatten = w.applied.flatten ++ w.batch := by simp
    refine ⟨fun hfailed => ?_, ?_, ?_⟩
    · change w.enqueued = (w.applied ++ [w.batch]).flatten ++ ([] ++ w.queue)
      rw [happlied, h.history hfailed, List.append_assoc, List.nil_append]
    · change (w.applied ++ [w.batch]).flatten <+: w.enqueued
      rw [happlied]
      cases hfailed : w.failed with
      | true => simpa [hbatch hfailed] using h.order
      | false =>
        rw [h.history hfailed, ← List.append_assoc]
        exact List.prefix_append _ _
    · change applyBatch w.rocksdb w.batch = applyBatch db (w.applied ++ [w.batch]).flatten
      rw [happlied, applyBatch_append, h.contents]

theorem InOrder.step (h : InOrder db w) (loop : Loop) (hl : StaysFailed w l) :
    InOrder db (w.step loop l) := by
  cases l with
  | enqueue op =>
    refine ⟨fun hfailed => ?_, h.order.trans (List.prefix_append _ _), h.contents⟩
    change w.enqueued ++ [op] = w.applied.flatten ++ (w.batch ++ (w.queue ++ [op]))
    rw [h.history hfailed]
    simp
  | stop => exact ⟨h.history, h.order, h.contents⟩
  | disconnect => exact ⟨h.history, h.order, h.contents⟩
  | work received timeout fails =>
    have hmoves := pass_moves loop w received timeout fails
    change InOrder db (loop.pass w received timeout fails)
    generalize loop.pass w received timeout fails = w' at hmoves
    cases hmoves with
    | goto pc => exact ⟨h.history, h.order, h.contents⟩
    | take op rest pc hqueue =>
      refine ⟨fun hfailed => ?_, h.order, h.contents⟩
      change w.enqueued = w.applied.flatten ++ ((w.batch ++ [op]) ++ rest)
      rw [h.history hfailed, hqueue]
      simp
    | flush pc =>
      have hflush := h.flush hl
      exact ⟨hflush.history, hflush.order, hflush.contents⟩
    | rest => exact h

theorem inOrder_started (db : String → Option B) : InOrder db (.started db) :=
  ⟨fun _ => rfl, List.prefix_refl _, rfl⟩

/-! ## Shutdown -/

/-- Nothing is enqueued once the flag is cleared or the producers are gone. -/
def QuietOnceClosed (w : Worker B) : Label B → Prop
  | .enqueue _ => ¬ w.Closed
  | _ => True

/-- The worker drains only when closed, and leaves nothing behind. -/
structure Drained (w : Worker B) : Prop where
  closed : w.pc = .drain ∨ w.pc = .exited → w.Closed
  empty : w.pc = .exited → w.batch = [] ∧ w.queue = []

theorem flush_fields (w : Worker B) (fails : Bool) :
    (w.flush fails).batch = [] ∧ (w.flush fails).queue = w.queue ∧
      (w.flush fails).running = w.running ∧ (w.flush fails).connected = w.connected := by
  unfold Worker.flush
  split <;> exact ⟨rfl, rfl, rfl, rfl⟩

theorem Drained.pass (h : Drained w) (loop : Loop) (received : Received) (timeout fails : Bool) :
    Drained (loop.pass w received timeout fails) := by
  have hmoves := pass_moves loop w received timeout fails
  generalize loop.pass w received timeout fails = w' at hmoves
  cases hmoves with
  | goto pc hdrain hexited =>
    refine ⟨?_, fun hpc => ⟨(hexited hpc).2.2, (hexited hpc).2.1⟩⟩
    rintro (hpc | hpc)
    · exact hdrain hpc
    · exact h.closed (Or.inl (hexited hpc).1)
  | take op rest pc hqueue hdrain hexited =>
    refine ⟨?_, fun hpc => (hexited hpc).elim⟩
    rintro (hpc | hpc)
    · exact h.closed (Or.inl (hdrain hpc))
    · exact (hexited hpc).elim
  | flush pc hdrain hexited =>
    obtain ⟨hbatch, hqueue, hrunning, hconnected⟩ := flush_fields w fails
    refine ⟨?_, fun hpc => ⟨hbatch, hqueue.trans (hexited hpc).2⟩⟩
    rintro (hpc | hpc)
    · exact (hdrain hpc).elim
    · have hclosed := h.closed (Or.inl (hexited hpc).1)
      change (w.flush fails).running = false ∨ (w.flush fails).connected = false
      rwa [hrunning, hconnected]
  | rest => exact h

theorem Drained.step (h : Drained w) (loop : Loop) (hl : QuietOnceClosed w l) :
    Drained (w.step loop l) := by
  cases l with
  | enqueue op => exact ⟨h.closed, fun hpc => (hl (h.closed (Or.inr hpc))).elim⟩
  | stop => exact ⟨fun _ => Or.inl rfl, h.empty⟩
  | disconnect => exact ⟨fun _ => Or.inr rfl, h.empty⟩
  | work received timeout fails => exact h.pass loop received timeout fails

theorem drained_started (db : String → Option B) : Drained (.started db) := by
  refine ⟨?_, nofun⟩
  rintro (h | h) <;> cases h

/-- How many passes a stopped worker still makes at most. -/
def Worker.remaining (w : Worker B) : ℕ :=
  match w.pc with
  | .poll => w.queue.length + 4
  | .settle => w.queue.length + 3
  | .head => w.queue.length + 2
  | .drain => w.queue.length + 1
  | .exited => 0

theorem loop_remaining (breaks : Bool) (batchSize : ℕ) (hw : w.running = false)
    (received : Received) (timeout fails : Bool) :
    (w.loop breaks batchSize received timeout fails).running = false ∧
      (w.loop breaks batchSize received timeout fails).remaining ≤ w.remaining - 1 := by
  obtain ⟨_, hqueue, hrunning, _⟩ := flush_fields w fails
  unfold Worker.loop
  split
  · next hpc => exact ⟨hw, by simp [Worker.remaining, hpc, hw]⟩
  · next hpc =>
    split
    · next op rest hrest => exact ⟨hw, by simp [Worker.remaining, hpc, hrest]⟩
    · split
      · exact ⟨hw, by simp [Worker.remaining, hpc]⟩
      · exact ⟨hw, by simp [Worker.remaining, hpc]⟩
    · exact ⟨hw, by simp [Worker.remaining, hpc]⟩
  · next hpc =>
    split
    · exact ⟨hrunning.trans hw, by simp [Worker.remaining, hpc, hqueue]⟩
    · exact ⟨hw, by simp [Worker.remaining, hpc]⟩
  · next hpc =>
    split
    · next op rest hrest => exact ⟨hw, by simp [Worker.remaining, hpc, hrest]⟩
    · split
      · exact ⟨hrunning.trans hw, by simp [Worker.remaining]⟩
      · exact ⟨hw, by simp [Worker.remaining]⟩
  · next hpc => exact ⟨hw, by simp [Worker.remaining, hpc]⟩

theorem pass_remaining (loop : Loop) (hw : w.running = false) (received : Received)
    (timeout fails : Bool) :
    (loop.pass w received timeout fails).running = false ∧
      (loop.pass w received timeout fails).remaining ≤ w.remaining - 1 := by
  cases loop with
  | asyncWorkerLoop => exact loop_remaining _ _ hw received timeout fails
  | workerLoop config => exact loop_remaining _ _ hw received timeout fails

/-- The worker alone makes the given passes. -/
def Worker.passes (loop : Loop) (w : Worker B) (schedule : List (Received × Bool × Bool)) :
    Worker B :=
  schedule.foldl (fun w x => loop.pass w x.1 x.2.1 x.2.2) w

theorem remaining_passes (loop : Loop) (schedule : List (Received × Bool × Bool)) :
    ∀ {w : Worker B}, w.running = false →
      (w.passes loop schedule).remaining ≤ w.remaining - schedule.length := by
  induction schedule with
  | nil => exact fun _ => Nat.le_refl _
  | cons x schedule ih =>
    intro w hw
    obtain ⟨hrunning, hless⟩ := pass_remaining loop hw x.1 x.2.1 x.2.2
    have hrest := ih hrunning
    change (Worker.passes loop (loop.pass w x.1 x.2.1 x.2.2) schedule).remaining ≤ _
    rw [List.length_cons]
    omega

/-- A stopped worker exits in a bounded number of passes. -/
theorem passes_exited (loop : Loop) (hw : w.running = false)
    {schedule : List (Received × Bool × Bool)} (hlong : w.queue.length + 4 ≤ schedule.length) :
    (w.passes loop schedule).pc = .exited := by
  have hbound : w.remaining ≤ w.queue.length + 4 := by
    unfold Worker.remaining
    split <;> omega
  have hnone := remaining_passes loop schedule hw
  have hzero : (w.passes loop schedule).remaining = 0 := by omega
  unfold Worker.remaining at hzero
  split at hzero
  · omega
  · omega
  · omega
  · omega
  · assumption

/-! ## Whole runs -/

/-- RocksDB accepts every batch. -/
def Succeeds : Label B → Prop
  | .work _ _ fails => fails = false
  | _ => True

/-- At every moment the applied batches are a beginning of what was enqueued, and RocksDB
holds under each key what the last of their operations on it leaves; a stopped worker
exits, and when it does with no producer left it has applied everything. -/
structure AppliesQueued (loop : Loop) (db : String → Option B) (labels : List (Label B))
    (w : Worker B) : Prop where
  order : w.applied.flatten <+: w.enqueued
  contents : w.rocksdb = applyBatch db w.applied.flatten
  newest : ∀ key, w.rocksdb key =
    ((w.applied.flatten.reverse.find? fun op => op.key = key).map AsyncOp.value).getD (db key)
  exits : w.running = false → ∀ schedule, w.queue.length + 4 ≤ schedule.length →
    (w.passes loop schedule).pc = .exited
  complete : Along (Worker.step loop) QuietOnceClosed (.started db) labels → w.pc = .exited →
    w.applied.flatten = w.enqueued ∧ w.rocksdb = applyBatch db w.enqueued

/-- With every batch accepted, no batch is refused and none follows a refused one. -/
structure Healthy (db : String → Option B) (w : Worker B) : Prop where
  inOrder : InOrder db w
  accepted : w.failed = false

theorem Healthy.step (h : Healthy db w) (loop : Loop) (hl : Succeeds l) :
    Healthy db (w.step loop l) := by
  have hstays : StaysFailed w l := by
    cases l with
    | work received timeout fails => exact fun hfailed => by simp [h.accepted] at hfailed
    | _ => trivial
  refine ⟨h.inOrder.step loop hstays, ?_⟩
  cases l with
  | work received timeout fails =>
    obtain rfl : fails = false := hl
    have hmoves := pass_moves loop w received timeout false
    change (loop.pass w received timeout false).failed = false
    generalize loop.pass w received timeout false = w' at hmoves
    cases hmoves with
    | flush pc => exact h.accepted
    | _ => exact h.accepted
  | _ => exact h.accepted

theorem run_appliesQueued (loop : Loop) (db : String → Option B) (labels : List (Label B))
    (hsteps : Along (Worker.step loop) (fun _ l => Succeeds l) (.started db) labels) :
    AppliesQueued loop db labels ((Worker.started db).run loop labels) := by
  have hhealthy : Healthy db ((Worker.started db).run loop labels) :=
    Along.invariant (fun _ _ h hl => h.step loop hl) labels _ ⟨inOrder_started db, rfl⟩ hsteps
  refine ⟨hhealthy.inOrder.order, hhealthy.inOrder.contents, ?_, ?_, ?_⟩
  · intro key
    rw [hhealthy.inOrder.contents, applyBatch_apply]
  · exact fun hstopped schedule hlong => passes_exited loop hstopped hlong
  · intro hquiet hexited
    have hdrained : Drained ((Worker.started db).run loop labels) :=
      Along.invariant (fun _ _ h hl => h.step loop hl) labels _ (drained_started db) hquiet
    obtain ⟨hbatch, hqueue⟩ := hdrained.empty hexited
    have hall := hhealthy.inOrder.history hhealthy.accepted
    rw [hbatch, hqueue, List.append_nil, List.append_nil] at hall
    exact ⟨hall.symm, by rw [hall, hhealthy.inOrder.contents]⟩

instance (l : Label B) : Decidable (Succeeds l) :=
  match l with
  | .work _ _ fails => inferInstanceAs (Decidable (fails = false))
  | .enqueue _ => .isTrue trivial
  | .stop => .isTrue trivial
  | .disconnect => .isTrue trivial

/-- Three writes are queued, the first is flushed by the interval, the others by the
drain. -/
def stopping : List (Label ℕ) :=
  [.enqueue (.put "a" 1), .enqueue (.put "b" 2), .enqueue (.delete "a"),
    .work .nothing false false, .work .operation false false, .work .nothing true false, .stop,
    .work .nothing false false, .work .nothing false false, .work .nothing false false,
    .work .nothing false false]

theorem run_appliesQueued_stopping :
    (((Worker.started fun _ => none).run .asyncWorkerLoop stopping).pc = .exited ∧
      ((Worker.started fun _ => none).run .asyncWorkerLoop stopping).applied =
        [[.put "a" 1], [.put "b" 2, .delete "a"]] ∧
      ((Worker.started fun _ => none).run .asyncWorkerLoop stopping).rocksdb "a" = none ∧
      ((Worker.started fun _ => none).run .asyncWorkerLoop stopping).rocksdb "b" = some 2) ∧
      AppliesQueued .asyncWorkerLoop (fun _ => none) stopping
        ((Worker.started fun _ => none).run .asyncWorkerLoop stopping) := by
  refine ⟨by decide, ?_⟩
  exact run_appliesQueued .asyncWorkerLoop _ stopping (by decide)

/-! ## Refused batches -/

/-- RocksDB holds a beginning of what was enqueued, and no operation was applied before an
earlier one. -/
structure NoHole (db : String → Option B) (w : Worker B) : Prop where
  contents : ∃ done, done <+: w.enqueued ∧ w.rocksdb = applyBatch db done
  order : w.applied.flatten <+: w.enqueued

/-- As long as no batch is accepted after a refused one, RocksDB has no hole. -/
theorem run_noHole (loop : Loop) (db : String → Option B) (labels : List (Label B))
    (hsteps : Along (Worker.step loop) StaysFailed (.started db) labels) :
    NoHole db ((Worker.started db).run loop labels) := by
  have h : InOrder db ((Worker.started db).run loop labels) :=
    Along.invariant (fun _ _ h hl => h.step loop hl) labels _ (inOrder_started db) hsteps
  exact ⟨⟨_, h.order, h.contents⟩, h.order⟩

instance (w : Worker B) (l : Label B) : Decidable (StaysFailed w l) :=
  match l with
  | .work _ _ fails => inferInstanceAs (Decidable (w.failed = true → fails = true))
  | .enqueue _ => .isTrue trivial
  | .stop => .isTrue trivial
  | .disconnect => .isTrue trivial

/-- Two writes go to RocksDB in a batch each. -/
def refusing (first second : Bool) : List (Label ℕ) :=
  [.enqueue (.put "a" 1), .enqueue (.put "b" 2), .work .nothing false false,
    .work .operation false false, .work .nothing true first, .work .nothing false false,
    .work .operation false false, .work .nothing true second]

theorem run_noHole_refusing :
    Along (Worker.step .asyncWorkerLoop) StaysFailed (.started fun _ => none)
        (refusing false true) ∧
      NoHole (fun _ => none)
        ((Worker.started fun _ => none).run .asyncWorkerLoop (refusing false true)) := by
  have hsteps : Along (Worker.step .asyncWorkerLoop) StaysFailed (.started fun _ => none)
      (refusing false true) := by decide
  exact ⟨hsteps, run_noHole .asyncWorkerLoop _ _ hsteps⟩

/-- A refused batch is cleared like an accepted one, and the next one is written without
it. -/
theorem refusing_hole :
    ¬ NoHole (fun _ => none)
      ((Worker.started fun _ => none).run .asyncWorkerLoop (refusing true false)) := by
  rintro ⟨⟨done, hdone, hcontents⟩, _⟩
  have ha : applyBatch (fun _ => none) done "a" = none := by
    rw [← hcontents]
    rfl
  have hb : applyBatch (fun _ => none) done "b" = some 2 := by
    rw [← hcontents]
    rfl
  have hcases : done = [] ∨ ∃ rest, done = .put "a" 1 :: rest ∧
      (rest = [] ∨ rest = [.put "b" 2]) := by
    have hbegins : done <+: [.put "a" 1, .put "b" 2] := hdone
    simpa [List.prefix_cons_iff] using hbegins
  rcases hcases with rfl | ⟨rest, rfl, rfl | rfl⟩
  · cases hb
  · cases ha
  · cases ha

end Kallisto.Background
