import Kallisto.Verification.Queue.Steps

/-! # Correctness of the lock-free queue -/

namespace Kallisto.Queue

variable {T Tid : Type}

/-! ## Runs -/

section Runs

variable [DecidableEq Tid]

theorem calls_stepThread (m : Machine T Tid) (t : Tid) (spurious : Bool) :
    calls (m.stepThread t spurious).log = calls m.log := by
  unfold Machine.stepThread
  dsimp only
  split <;> (repeat' split) <;> rfl

theorem calls_step_le (m : Machine T Tid) (label : Label T Tid) :
    calls (m.step label).log ≤ calls m.log + [label].countP Label.isCall := by
  cases label with
  | enqueue t x =>
    unfold Machine.step
    dsimp only
    split
    · simp [Machine.record, Machine.goto, calls, Label.isCall]
    · exact Nat.le_add_right _ _
  | dequeue t =>
    unfold Machine.step
    dsimp only
    split
    · simp [Machine.record, Machine.goto, calls, Label.isCall]
    · exact Nat.le_add_right _ _
  | step t spurious => exact (calls_stepThread m t spurious).le.trans (Nat.le_add_right _ _)

theorem Inv.run {cap : ℕ} (labels : List (Label T Tid)) :
    ∀ (m : Machine T Tid) (γ : Ghost T Tid), Inv cap m γ →
      calls m.log + labels.countP Label.isCall < 2 ^ 62 → ∃ γ', Inv cap (m.run labels) γ' := by
  induction labels with
  | nil => exact fun m γ hinv _ => ⟨γ, hinv⟩
  | cons label labels ih =>
    intro m γ hinv hbound
    rw [← List.singleton_append, List.countP_append] at hbound
    obtain ⟨γ₁, hinv₁⟩ := hinv.step (by omega) label
    have hcalls := calls_step_le m label
    exact ih (m.step label) γ₁ hinv₁ (by omega)

end Runs

/-! ## What a run shows -/

/-- The queue neither loses nor duplicates nor reorders items. Histories have the latest
event first. -/
structure Faithful (m : Machine T Tid) : Prop where
  /-- No cell is written while it holds an item. -/
  write_empty : ∀ t x pos, m.pc t = .enqWrite x pos → (m.queue.cell pos).data = none
  /-- No cell is read before the item of its position is there. -/
  read_written : ∀ t pos, m.pc t = .deqRead pos →
    ∃ t' x, .enqueueReturns t' pos x ∈ m.log ∧ (m.queue.cell pos).data = some x
  /-- The item of a position is returned at most once. -/
  returned_once : (dequeueReturned m.log).Nodup
  /-- The dequeue of a position returns the item enqueued at it. -/
  returned_item : ∀ t pos d, .dequeueReturns t pos d ∈ m.log →
    ∃ t' x, .enqueueClaims t' pos x ∈ m.log ∧ d = some x
  /-- Positions are handed out in order and without gaps. -/
  enqueue_order : ∃ n, (enqueueClaimed m.log).reverse = (List.range n).map UInt64.ofNat
  dequeue_order : ∃ n, (dequeueClaimed m.log).reverse = (List.range n).map UInt64.ofNat
  /-- An enqueue that begins after another one returned receives a larger position. -/
  realTime : ∀ c b a t₁ t₂ pos₁ pos₂ x₁ x₂ y,
    m.log = c ++ .enqueueBegins t₂ y :: (b ++ .enqueueReturns t₁ pos₁ x₁ :: a) →
      .enqueueClaims t₂ pos₂ x₂ ∈ c ∨ .enqueueReturns t₂ pos₂ x₂ ∈ c → pos₁ < pos₂
  /-- An enqueued item stays in its cell until a consumer claims its position. -/
  kept : ∀ t pos x, .enqueueReturns t pos x ∈ m.log →
    (∃ t', .dequeueClaims t' pos ∈ m.log) ∨ (m.queue.cell pos).data = some x

theorem mem_of_toNat_range {l : List UInt64} {n : ℕ} (h : l.reverse.map UInt64.toNat = List.range n)
    {pos : UInt64} (hlt : pos.toNat < n) : pos ∈ l := by
  have hmem : pos.toNat ∈ l.reverse.map UInt64.toNat := by
    rw [h]
    exact List.mem_range.mpr hlt
  obtain ⟨pos', hpos', heq⟩ := List.mem_map.mp hmem
  rw [UInt64.toNat_inj] at heq
  subst heq
  exact List.mem_reverse.mp hpos'

theorem eq_map_range {l : List UInt64} {n : ℕ} (h : l.map UInt64.toNat = List.range n) :
    l = (List.range n).map UInt64.ofNat := by
  rw [← h, List.map_map]
  have hid : UInt64.ofNat ∘ UInt64.toNat = id := by
    funext pos
    exact UInt64.ofNat_toNat
  rw [hid, List.map_id]

section Faithful

variable {cap : ℕ} {m : Machine T Tid} {γ : Ghost T Tid}

theorem Inv.kept (hinv : Inv cap m γ) {t : Tid} {pos : UInt64} {x : T}
    (hmem : .enqueueReturns t pos x ∈ m.log) :
    (∃ t', .dequeueClaims t' pos ∈ m.log) ∨ (m.queue.cell pos).data = some x := by
  have hreleased := (hinv.ledger.released pos x).mp ⟨t, hmem⟩
  by_cases hlt : pos.toNat < γ.deq
  · left
    rw [← hinv.ledger.deq] at hlt
    obtain ⟨e, he, hpos⟩ := List.mem_filterMap.mp
      (mem_of_toNat_range hinv.ledger.chronicle.dequeueClaimed_eq hlt)
    cases e with
    | dequeueClaims t' pos' =>
      obtain rfl : pos' = pos := Option.some.inj hpos
      exact ⟨t', he⟩
    | _ => cases hpos
  · right
    have hfree : γ.phase pos.toNat ≠ .free := by
      intro h
      rw [h] at hreleased
      cases hreleased
    have hwaiting := hinv.ring.waiting pos.toNat (by omega) (hinv.lt_enq hfree)
    have hrecycled : ∀ y, γ.phase pos.toNat ≠ .recycled y := by
      intro y h
      rw [h] at hwaiting
      exact hwaiting
    rw [hinv.ring.cell_eq, hinv.ring.data _ (hinv.ring.current_of_claimed hfree hrecycled)]
    cases hphase : γ.phase pos.toNat <;> rw [hphase] at hreleased hwaiting <;>
      first | exact hwaiting.elim | exact hreleased | cases hreleased

theorem Inv.faithful (hinv : Inv cap m γ) : Faithful m where
  write_empty t x pos hpc := by
    have hok := hinv.threads t
    rw [hpc] at hok
    rw [(hinv.cell (t := t) (by rw [hok.1]; rfl)).2, hok.1]
    rfl
  read_written t pos hpc := by
    have hok := hinv.threads t
    rw [hpc] at hok
    obtain ⟨x, hphase⟩ := hok
    obtain ⟨t', hmem⟩ := (hinv.ledger.released pos x).mpr (by rw [hphase]; rfl)
    refine ⟨t', x, hmem, ?_⟩
    rw [(hinv.cell (t := t) (by rw [hphase]; rfl)).2, hphase]
    rfl
  returned_once := hinv.ledger.chronicle.dequeueReturned_nodup
  returned_item t pos d hmem := by
    obtain ⟨later, earlier, heq, _, t', x, hreturn, hd⟩ := hinv.ledger.chronicle.follows hmem
    have hchronicle := hinv.ledger.chronicle
    rw [heq] at hchronicle
    obtain ⟨after, before, hbefore, hsince⟩ := (hchronicle.suffix.2).follows hreturn
    refine ⟨t', x, ?_, hd⟩
    have hclaim : .enqueueClaims t' pos x ∈ before := ClaimedSinceBegin.mem hsince
    rw [heq, hbefore]
    simp [hclaim]
  enqueue_order := ⟨_, eq_map_range hinv.ledger.chronicle.enqueueClaimed_eq⟩
  dequeue_order := ⟨_, eq_map_range hinv.ledger.chronicle.dequeueClaimed_eq⟩
  realTime c b a t₁ t₂ pos₁ pos₂ x₁ x₂ y hlog hmem := by
    have hchronicle := hinv.ledger.chronicle
    rw [hlog] at hchronicle
    exact hchronicle.position_lt hmem
  kept _ _ _ hmem := hinv.kept hmem

end Faithful

/-! ## Main result -/

/-- Every run of fewer than `2 ^ 62` operations by any number of threads is faithful. -/
theorem run_faithful [DecidableEq Tid] (capacity : UInt64) (htwo : 2 ≤ capacity)
    (q : LockFreeQueue T) (hnew : LockFreeQueue.new capacity = some q)
    (labels : List (Label T Tid)) (hcalls : labels.countP Label.isCall < 2 ^ 62) :
    Faithful ((Machine.init q).run labels) := by
  have hcap : 2 ≤ capacity.toNat := UInt64.le_iff_toNat_le.mp htwo
  obtain ⟨γ, hinv⟩ := Inv.run labels (Machine.init q) _ (inv_init hnew rfl hcap)
    (by simpa [Machine.init, calls] using hcalls)
  exact hinv.faithful

/-- One item through a queue of two cells, with a spurious failure on the way. -/
def passing : List (Label ℕ Bool) :=
  [.enqueue true 7, .step true false, .step true false, .step true true, .dequeue false,
    .step true false, .step true false, .step true false, .step true false, .step false false,
    .step false false, .step false false, .step false false, .step false false]

theorem run_faithful_passing :
    ∃ q : LockFreeQueue ℕ, LockFreeQueue.new 2 = some q ∧
      dequeueReturned ((Machine.init q).run passing).log = [0] ∧
      Faithful ((Machine.init q).run passing) :=
  ⟨_, if_pos ⟨1, by decide, by decide⟩, by rfl,
    run_faithful 2 (by decide) _ (if_pos ⟨1, by decide, by decide⟩) _ (by decide)⟩

end Kallisto.Queue
