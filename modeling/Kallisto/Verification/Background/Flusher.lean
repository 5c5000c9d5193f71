import Kallisto.Model.AsyncFlusher
import Kallisto.Verification.Background.BatchOrder

/-! # The contract of the flusher -/

namespace Kallisto.Background

open Engine (AsyncOp WorkerPc applyBatch)
open Interleaving (Along)

variable {B : Type}

/-! ## What a pass leaves alone -/

/-- A pass takes from the channel and leaves the rest of it to the producers. -/
structure Receives (w w' : Worker B) : Prop where
  running : w'.running = w.running
  connected : w'.connected = w.connected
  enqueued : w'.enqueued = w.enqueued
  queue : w'.queue.length ≤ w.queue.length
  exited : w.pc = .exited → w' = w

theorem pass_receives (config : AsyncFlusherConfig) (w : Worker B) (received : Received)
    (timeout fails : Bool) :
    Receives w (Loop.pass (.workerLoop config) w received timeout fails) := by
  have hexited : w.pc = .exited → Loop.pass (.workerLoop config) w received timeout fails = w := by
    intro hpc
    simp [Loop.pass, workerLoop, Worker.loop, hpc]
  have hmoves := pass_moves (.workerLoop config) w received timeout fails
  generalize Loop.pass (.workerLoop config) w received timeout fails = w' at hmoves hexited
  cases hmoves with
  | goto pc => exact ⟨rfl, rfl, rfl, Nat.le_refl _, hexited⟩
  | take op rest pc hqueue => exact ⟨rfl, rfl, rfl, by simp [hqueue], hexited⟩
  | flush pc =>
    obtain ⟨_, hqueue, hrunning, hconnected⟩ := flush_fields w fails
    have henqueued : (w.flush fails).enqueued = w.enqueued := by
      unfold Worker.flush
      split <;> rfl
    exact ⟨hrunning, hconnected, henqueued, (congrArg List.length hqueue).le, hexited⟩
  | rest => exact ⟨rfl, rfl, rfl, Nat.le_refl _, hexited⟩

/-- A refused batch is not forgotten. -/
theorem failed_step (loop : Loop) (w : Worker B) (l : Label B) (h : w.failed = true) :
    (w.step loop l).failed = true := by
  cases l with
  | enqueue op => exact h
  | stop => exact h
  | disconnect => exact h
  | work received timeout fails =>
    have hmoves := pass_moves loop w received timeout fails
    change (loop.pass w received timeout fails).failed = true
    generalize loop.pass w received timeout fails = w' at hmoves
    cases hmoves with
    | goto pc => exact h
    | take op rest pc hqueue => exact h
    | flush pc =>
      change (w.flush fails).failed = true
      unfold Worker.flush
      split
      · rfl
      · exact h
    | rest => exact h

/-- As long as no batch is refused, operations reach RocksDB in their order. -/
theorem inOrder_step {db : String → Option B} {w : Worker B} (h : w.failed = false → InOrder db w)
    (loop : Loop) (l : Label B) (haccepted : (w.step loop l).failed = false) :
    InOrder db (w.step loop l) := by
  have hfailed : w.failed = false := Bool.eq_false_of_not_eq_true fun hfailed =>
    Bool.false_ne_true (haccepted.symm.trans (failed_step loop w l hfailed))
  refine (h hfailed).step loop ?_
  cases l with
  | work received timeout fails => exact fun h => (Bool.false_ne_true (hfailed.symm.trans h)).elim
  | _ => trivial

namespace AsyncFlusher

/-! ## Phases of a flusher -/

/-- The operations that were answered with success, in their order. -/
def accepted (f : AsyncFlusher B) : List (AsyncOp B) :=
  f.answers.filterMap fun answer => if answer.2 = .ok () then some answer.1 else none

/-- The worker serves until `stop`, which waits for it to return. -/
inductive Phase (f : AsyncFlusher B) : Prop where
  | serving (handle : f.handle = true) (joining : f.joining = false)
      (running : f.worker.running = true) (connected : f.worker.connected = true)
  | stopping (handle : f.handle = false) (joining : f.joining = true)
      (running : f.worker.running = false) (connected : f.worker.connected = true)
  | stopped (handle : f.handle = false) (joining : f.joining = false)
      (running : f.worker.running = false) (exited : f.worker.pc = .exited)

/-- What holds throughout the life of a flusher. -/
structure InService (db : String → Option B) (f : AsyncFlusher B) : Prop where
  ordered : f.worker.failed = false → InOrder db f.worker
  drained : Drained f.worker
  phase : f.Phase
  bounded : f.worker.queue.length ≤ f.channelCapacity.1
  accepted : f.worker.enqueued = f.accepted
  refused : ∀ op, (op, .error .workerStopped) ∈ f.answers → f.worker.pc = .exited
  final : f.answers.Pairwise fun answer later =>
    answer.2 = .error .workerStopped → later.2 = .error .workerStopped

theorem inService_start (db : String → Option B) (config : AsyncFlusherConfig)
    (capacity : Capacity) : InService db (start db config capacity) where
  ordered _ := inOrder_started db
  drained := drained_started db
  phase := .serving rfl rfl rfl rfl
  bounded := Nat.zero_le _
  accepted := rfl
  refused := nofun
  final := List.Pairwise.nil

section Steps

variable {db : String → Option B} {f : AsyncFlusher B}

/-- A worker that serves has not returned. -/
theorem InService.serves (h : InService db f) (hrunning : f.worker.running = true)
    (hconnected : f.worker.connected = true) : ¬ f.worker.Closed ∧ f.worker.pc ≠ .exited := by
  have hopen : ¬ f.worker.Closed := by simp [Worker.Closed, hrunning, hconnected]
  exact ⟨hopen, fun hpc => hopen (h.drained.closed (Or.inr hpc))⟩

theorem InService.work (h : InService db f) (received : Received) (timeout fails : Bool) :
    InService db (f.act (.work received timeout fails)) := by
  have hreceives := pass_receives f.config f.worker received timeout fails
  have hdrained := h.drained.step (.workerLoop f.config) (l := .work received timeout fails) trivial
  refine ⟨inOrder_step h.ordered _ _, hdrained, ?_, hreceives.queue.trans h.bounded,
    hreceives.enqueued.trans h.accepted, ?_, h.final⟩
  · cases h.phase with
    | serving handle joining running connected =>
      exact .serving handle joining (hreceives.running.trans running)
        (hreceives.connected.trans connected)
    | stopping handle joining running connected =>
      exact .stopping handle joining (hreceives.running.trans running)
        (hreceives.connected.trans connected)
    | stopped handle joining running exited =>
      refine .stopped handle joining (hreceives.running.trans running) ?_
      exact (congrArg Worker.pc (hreceives.exited exited)).trans exited
  · intro op hop
    have hexited := h.refused op hop
    exact (congrArg Worker.pc (hreceives.exited hexited)).trans hexited

/-- A further answer: the worker has stopped if and only if it says so. -/
theorem InService.answers (h : InService db f) (op : AsyncOp B) {r : Except EnqueueError Unit}
    (hr : r = .error .workerStopped ↔ f.worker.pc = .exited) :
    (∀ op', (op', .error .workerStopped) ∈ f.answers ++ [(op, r)] → f.worker.pc = .exited) ∧
      (f.answers ++ [(op, r)]).Pairwise fun answer later =>
        answer.2 = .error .workerStopped → later.2 = .error .workerStopped := by
  constructor
  · intro op' hmem
    rcases List.mem_append.mp hmem with hmem | hmem
    · exact h.refused op' hmem
    · cases List.mem_singleton.mp hmem
      exact hr.mp rfl
  · refine List.pairwise_append.mpr ⟨h.final, List.pairwise_singleton _ _, ?_⟩
    rintro ⟨op', r'⟩ hmem later hlater heq
    cases List.mem_singleton.mp hlater
    obtain rfl : r' = .error .workerStopped := heq
    exact hr.mpr (h.refused op' hmem)

theorem accepted_append (f : AsyncFlusher B) (worker : Worker B) (op : AsyncOp B)
    (r : Except EnqueueError Unit) :
    accepted { f with worker := worker, answers := f.answers ++ [(op, r)] } =
      f.accepted ++ if r = .ok () then [op] else [] := by
  simp only [accepted, List.filterMap_append]
  split <;> simp_all

/-- An answer that leaves the worker alone. -/
theorem InService.refuse (h : InService db f) (op : AsyncOp B) {e : EnqueueError}
    (he : e = .workerStopped ↔ f.worker.pc = .exited) :
    InService db { f with answers := f.answers ++ [(op, .error e)] } := by
  obtain ⟨hrefused, hfinal⟩ := h.answers op (r := .error e) (by simpa using he)
  refine ⟨h.ordered, h.drained, ?_, h.bounded, ?_, hrefused, hfinal⟩
  · cases h.phase with
    | serving handle joining running connected => exact .serving handle joining running connected
    | stopping handle joining running connected => exact .stopping handle joining running connected
    | stopped handle joining running exited => exact .stopped handle joining running exited
  · refine h.accepted.trans ?_
    rw [accepted_append f f.worker op]
    simp

theorem InService.enqueue (h : InService db f) (op : AsyncOp B) (hjoining : f.joining = false) :
    InService db (f.enqueue op) := by
  unfold AsyncFlusher.enqueue trySend
  split
  · next hpc => exact h.refuse op (iff_of_true rfl hpc)
  · next hpc =>
    split
    · exact h.refuse op (iff_of_false nofun hpc)
    · next hroom =>
      -- Only while the worker serves is there one to take the operation.
      cases h.phase with
      | stopping handle joining => rw [joining] at hjoining; cases hjoining
      | stopped handle joining running exited => exact (hpc exited).elim
      | serving handle joining running connected =>
        obtain ⟨hopen, _⟩ := h.serves running connected
        obtain ⟨hrefused, hfinal⟩ := h.answers op (r := .ok ()) (iff_of_false nofun hpc)
        refine ⟨inOrder_step h.ordered (.workerLoop f.config) (.enqueue op),
          h.drained.step (.workerLoop f.config) (l := .enqueue op) hopen,
          .serving handle joining running connected, ?_, ?_, hrefused, hfinal⟩
        · change (f.worker.queue ++ [op]).length ≤ _
          rw [List.length_append]
          exact Nat.lt_of_not_le hroom
        · change f.worker.enqueued ++ [op] = _
          rw [h.accepted]
          exact (accepted_append f _ op (.ok ())).symm

theorem InService.stop (h : InService db f) (hjoining : f.joining = false) :
    InService db f.stop := by
  refine ⟨inOrder_step h.ordered (.workerLoop f.config) .stop,
    h.drained.step (.workerLoop f.config) (l := .stop) trivial, ?_, h.bounded, h.accepted,
    h.refused, h.final⟩
  cases h.phase with
  | serving handle joining running connected => exact .stopping rfl handle rfl connected
  | stopping handle joining => rw [joining] at hjoining; cases hjoining
  | stopped handle joining running exited => exact .stopped rfl handle rfl exited

theorem InService.join (h : InService db f) : InService db f.join := by
  unfold AsyncFlusher.join
  split
  · next hpc =>
    refine ⟨h.ordered, h.drained, ?_, h.bounded, h.accepted, h.refused, h.final⟩
    cases h.phase with
    | serving handle joining running connected =>
      exact ((h.serves running connected).2 hpc).elim
    | stopping handle joining running connected => exact .stopped handle rfl running hpc
    | stopped handle joining running exited => exact .stopped handle rfl running exited
  · exact h

theorem InService.release (h : InService db f) (hjoining : f.joining = false)
    (hhandle : f.handle = false) : InService db (f.act .disconnect) := by
  refine ⟨inOrder_step h.ordered (.workerLoop f.config) .disconnect,
    h.drained.step (.workerLoop f.config) (l := .disconnect) trivial, ?_, h.bounded, h.accepted,
    h.refused, h.final⟩
  cases h.phase with
  | serving handle => rw [handle] at hhandle; cases hhandle
  | stopping handle joining => rw [joining] at hjoining; cases hjoining
  | stopped handle joining running exited => exact .stopped handle joining running exited

theorem InService.step (h : InService db f) {l : Step B} (hl : f.Borrows l) :
    InService db (f.step l) := by
  cases l with
  | enqueue op => exact h.enqueue op hl.1
  | stop => exact h.stop hl.1
  | join => exact h.join
  | release => exact h.release hl.1 hl.2
  | work received timeout fails => exact h.work received timeout fails

end Steps

/-! ## Main result -/

/-- The channel keeps to its capacity. As long as RocksDB refuses no batch, what reaches it is a
beginning of the accepted operations, and all of them once `stop` has returned. That it does in any
case. Outside of `stop` the flag says whether the worker is there, the worker never finds the
channel closed, and after `enqueue` has reported a stopped worker it reports nothing else. -/
structure Contract (db : String → Option B) (f : AsyncFlusher B) : Prop where
  bounded : f.worker.queue.length ≤ f.channelCapacity.1
  order : f.worker.failed = false → f.worker.applied.flatten <+: f.accepted ∧
    f.worker.rocksdb = applyBatch db f.worker.applied.flatten
  returns : f.joining = true → ∀ schedule, f.worker.queue.length + 4 ≤ schedule.length →
    (f.worker.passes (.workerLoop f.config) schedule).pc = .exited
  stopped : f.joining = false → f.isRunning = false → f.worker.failed = false →
    f.worker.applied.flatten = f.accepted ∧ f.worker.rocksdb = applyBatch db f.accepted
  running : f.joining = false → (f.isRunning = false ↔ f.worker.pc = .exited)
  attached : f.worker.pc ≠ .exited → f.worker.connected = true
  final : f.answers.Pairwise fun answer later =>
    answer.2 = .error .workerStopped → later.2 = .error .workerStopped

theorem InService.contract {db : String → Option B} {f : AsyncFlusher B} (h : InService db f) :
    Contract db f := by
  have hrunning : f.joining = false → (f.isRunning = false ↔ f.worker.pc = .exited) := by
    intro hjoining
    cases h.phase with
    | serving handle joining running connected =>
      exact iff_of_false (by simp [isRunning, running]) (h.serves running connected).2
    | stopping handle joining => rw [joining] at hjoining; cases hjoining
    | stopped handle joining running exited => exact iff_of_true running exited
  refine ⟨h.bounded, ?_, ?_, ?_, hrunning, ?_, h.final⟩
  · intro haccepted
    rw [← h.accepted]
    exact ⟨(h.ordered haccepted).order, (h.ordered haccepted).contents⟩
  · intro hjoining schedule hlong
    cases h.phase with
    | serving handle joining => rw [joining] at hjoining; cases hjoining
    | stopping handle joining running => exact passes_exited _ running hlong
    | stopped handle joining => rw [joining] at hjoining; cases hjoining
  · intro hjoining hstopped haccepted
    obtain ⟨hbatch, hqueue⟩ := h.drained.empty ((hrunning hjoining).mp hstopped)
    have hall := (h.ordered haccepted).history haccepted
    rw [hbatch, hqueue, List.append_nil, List.append_nil, h.accepted] at hall
    exact ⟨hall.symm, by rw [hall, (h.ordered haccepted).contents]⟩
  · intro hpc
    cases h.phase with
    | serving handle joining running connected => exact connected
    | stopping handle joining running connected => exact connected
    | stopped handle joining running exited => exact (hpc exited).elim

/-- Any number of producers, an owner that stops and drops the flusher, and any schedule of
the worker. -/
theorem run_contract (db : String → Option B) (config : AsyncFlusherConfig) (capacity : Capacity)
    (steps : List (Step B))
    (hsteps : Along AsyncFlusher.step Borrows (start db config capacity) steps) :
    Contract db ((start db config capacity).run steps) :=
  (Along.invariant (fun _ _ h hl => h.step hl) steps _ (inService_start db config capacity)
    hsteps).contract

instance (f : AsyncFlusher B) (l : Step B) : Decidable (f.Borrows l) :=
  match l with
  | .enqueue _ => inferInstanceAs (Decidable (_ ∧ _))
  | .stop => inferInstanceAs (Decidable (_ ∧ _))
  | .release => inferInstanceAs (Decidable (_ ∧ _))
  | .join => .isTrue trivial
  | .work _ _ _ => .isTrue trivial

/-- A channel for one operation fills up, is emptied by the worker and filled again before
the flusher is stopped and dropped. -/
def lifetime : List (Step ℕ) :=
  [.enqueue (.put "a" 1), .enqueue (.put "b" 2), .work .nothing false false,
    .work .operation false false, .enqueue (.delete "a"), .stop, .work .nothing false false,
    .work .nothing false false, .work .nothing false false, .work .nothing false false, .join,
    .enqueue (.put "c" 3), .release]

theorem run_contract_lifetime :
    ((start (fun _ => none) ⟨8⟩ ⟨1, by decide⟩).run lifetime).answers.map Prod.snd =
        [.ok (), .error .queueFull, .ok (), .error .workerStopped] ∧
      ((start (fun _ => none) ⟨8⟩ ⟨1, by decide⟩).run lifetime).worker.failed = false ∧
      Contract (fun _ => none) ((start (fun _ => none) ⟨8⟩ ⟨1, by decide⟩).run lifetime) :=
  ⟨by decide, by decide, run_contract _ _ _ lifetime (by decide)⟩

end AsyncFlusher

end Kallisto.Background
