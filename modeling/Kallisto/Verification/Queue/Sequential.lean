import Kallisto.Verification.Queue.Correctness

/-! # The queue of a single thread

Without other threads the queue is a bounded FIFO, however long it is used: positions
wrap around together with the sequence numbers they are compared with. -/

namespace Kallisto.Queue

variable {T : Type}

/-! ## The specification -/

/-- A call on a bounded FIFO that holds the given items, the oldest first. -/
def fifo (capacity : ℕ) (items : List T) : Call T → Reply T × List T
  | .enqueue data =>
    if items.length = capacity then (.full, items) else (.ok, items ++ [data])
  | .dequeue =>
    match items with
    | [] => (.empty, [])
    | data :: rest => (.item (some data), rest)

/-- The replies to a sequence of calls and the items left. -/
def fifoRun (capacity : ℕ) : List T → List (Call T) → List (Reply T) × List T
  | items, [] => ([], items)
  | items, call :: calls =>
    let (reply, items) := fifo capacity items call
    let (replies, items) := fifoRun capacity items calls
    (reply :: replies, items)

/-- Enough steps for a call: five, and two more for every spurious failure. -/
def Driven (spurious : List Bool) : Prop :=
  5 + 2 * spurious.count true ≤ spurious.length

instance (spurious : List Bool) : Decidable (Driven spurious) :=
  inferInstanceAs (Decidable (_ ≤ _))

/-- What is left behind the first step of a call. -/
theorem Driven.exists_cons {spurious : List Bool} (h : Driven spurious) :
    ∃ f rest, spurious = f :: rest ∧ 4 + 2 * rest.count true ≤ rest.length := by
  cases spurious with
  | nil => exact absurd h (by decide)
  | cons f rest =>
    have hcount : rest.count true ≤ (f :: rest).count true := List.count_le_count_cons
    rw [Driven, List.length_cons] at h
    exact ⟨f, rest, rfl, by omega⟩

/-! ## A loop that retries -/

section Retry

variable {σ : Type} {step : σ → Bool → σ} {look attempt first second done : σ}

theorem foldl_stay (hstay : ∀ f, step done f = done) (flags : List Bool) :
    flags.foldl step done = done := by
  induction flags with
  | nil => rfl
  | cons f flags ih => rw [List.foldl_cons, hstay, ih]

/-- A loop that looks, tries, and looks again after a spurious failure is over two steps
after the first try that does not fail. -/
theorem foldl_retry (hlook : ∀ f, step look f = attempt) (hfail : step attempt true = look)
    (hdone : step attempt false = first) (hfirst : ∀ f, step first f = second)
    (hsecond : ∀ f, step second f = done) (hstay : ∀ f, step done f = done)
    (flags : List Bool) :
    (4 + 2 * flags.count true ≤ flags.length → flags.foldl step look = done) ∧
      (3 + 2 * flags.count true ≤ flags.length → flags.foldl step attempt = done) := by
  induction flags with
  | nil => exact ⟨fun h => by simp at h, fun h => by simp at h⟩
  | cons f flags ih =>
    rw [List.length_cons, List.foldl_cons, List.foldl_cons, hlook]
    cases f with
    | true =>
      rw [List.count_cons_self, hfail]
      exact ⟨fun h => ih.2 (by omega), fun h => ih.1 (by omega)⟩
    | false =>
      rw [List.count_cons_of_ne (by decide), hdone]
      refine ⟨fun h => ih.2 (by omega), ?_⟩
      intro h
      rcases flags with _ | ⟨f₁, _ | ⟨f₂, rest⟩⟩
      · rw [List.length_nil] at h
        omega
      · rw [List.length_singleton] at h
        omega
      · rw [List.foldl_cons, List.foldl_cons, hfirst, hsecond, foldl_stay hstay]

end Retry

/-! ## The steps of a single thread -/

namespace LockFreeQueue

variable (q : LockFreeQueue T)

theorem cell_setCell (pos : UInt64) (node : Node T) : (q.setCell pos node).cell pos = node :=
  Function.update_self _ _ _

theorem setCell_setCell (pos : UInt64) (node node' : Node T) :
    (q.setCell pos node).setCell pos node' = q.setCell pos node' := by
  rw [setCell, setCell, setCell]
  congr 1
  exact Function.update_idem _ _ _

def reserved : LockFreeQueue T :=
  { q with enqueuePos := q.enqueuePos + 1 }

/-- The queue after an item was appended. -/
def pushed (x : T) : LockFreeQueue T :=
  q.reserved.setCell q.enqueuePos ⟨q.enqueuePos + 1, some x⟩

def taken : LockFreeQueue T :=
  { q with dequeuePos := q.dequeuePos + 1 }

/-- The queue after the oldest item was taken. -/
def popped : LockFreeQueue T :=
  q.taken.setCell q.dequeuePos ⟨q.dequeuePos + q.capacity, none⟩

end LockFreeQueue

/-- A machine whose only thread is at the given point. -/
def Machine.alone (q : LockFreeQueue T) (pc : Pc T) (log : List (Event T Unit)) :
    Machine T Unit :=
  ⟨q, fun _ => pc, log⟩

namespace Machine

variable {q : LockFreeQueue T} {log : List (Event T Unit)} {x : T} {pos : UInt64}
  {flags : List Bool}

theorem goto_alone (pc pc' : Pc T) : (alone q pc log).goto () pc' = alone q pc' log := by
  rw [goto, alone, alone]
  congr 1

theorem run_steps (m : Machine T Unit) (flags : List Bool) :
    m.run (flags.map (.step ())) = flags.foldl (fun m f => m.stepThread () f) m :=
  List.foldl_map

theorem run_idle (flags : List Bool) :
    flags.foldl (fun m f => m.stepThread () f) (alone q .idle log) = alone q .idle log :=
  foldl_stay (fun _ => rfl) flags

/-- The loop of an enqueue that finds its cell free. -/
theorem run_enqSequence (hfree : (q.cell q.enqueuePos).sequence = q.enqueuePos)
    (hdriven : 4 + 2 * flags.count true ≤ flags.length) :
    flags.foldl (fun m f => m.stepThread () f) (alone q (.enqSequence x q.enqueuePos) log) =
      alone (q.pushed x) .idle
        (.enqueueReturns () q.enqueuePos x :: .enqueueClaims () q.enqueuePos x :: log) := by
  have hlook : ∀ f, (alone q (.enqSequence x q.enqueuePos) log).stepThread () f =
      alone q (.enqExchange x q.enqueuePos) log := by
    intro f
    rw [stepThread]
    exact (if_pos ((dif_eq_zero _ _).mpr hfree)).trans (goto_alone _ _)
  have hfail : (alone q (.enqExchange x q.enqueuePos) log).stepThread () true =
      alone q (.enqSequence x q.enqueuePos) log := by
    rw [stepThread]
    exact (if_neg (by simp)).trans (goto_alone _ _)
  have hclaim : (alone q (.enqExchange x q.enqueuePos) log).stepThread () false =
      alone q.reserved (.enqWrite x q.enqueuePos) (.enqueueClaims () q.enqueuePos x :: log) := by
    rw [stepThread]
    exact (if_pos ⟨rfl, rfl⟩).trans (congrArg (record · _) (goto_alone _ _))
  have hstore : ∀ f, (alone (q.reserved.setCell q.enqueuePos
        { q.reserved.cell q.enqueuePos with data := some x }) (.enqStore x q.enqueuePos)
        (.enqueueClaims () q.enqueuePos x :: log)).stepThread () f =
      alone (q.pushed x) .idle
        (.enqueueReturns () q.enqueuePos x :: .enqueueClaims () q.enqueuePos x :: log) := by
    intro f
    rw [stepThread]
    dsimp only [alone]
    rw [LockFreeQueue.cell_setCell, LockFreeQueue.setCell_setCell]
    exact congrArg (record · _) (goto_alone _ _)
  exact (foldl_retry hlook hfail hclaim (fun _ => goto_alone _ _) hstore (fun _ => rfl)
    flags).1 hdriven

/-- The loop of a dequeue that finds the item of its position. -/
theorem run_deqSequence (hready : (q.cell q.dequeuePos).sequence = q.dequeuePos + 1)
    (hdriven : 4 + 2 * flags.count true ≤ flags.length) :
    flags.foldl (fun m f => m.stepThread () f) (alone q (.deqSequence q.dequeuePos) log) =
      alone q.popped .idle (.dequeueReturns () q.dequeuePos (q.cell q.dequeuePos).data ::
        .dequeueClaims () q.dequeuePos :: log) := by
  have hlook : ∀ f, (alone q (.deqSequence q.dequeuePos) log).stepThread () f =
      alone q (.deqExchange q.dequeuePos) log := by
    intro f
    rw [stepThread]
    exact (if_pos ((dif_eq_zero _ _).mpr hready)).trans (goto_alone _ _)
  have hfail : (alone q (.deqExchange q.dequeuePos) log).stepThread () true =
      alone q (.deqSequence q.dequeuePos) log := by
    rw [stepThread]
    exact (if_neg (by simp)).trans (goto_alone _ _)
  have hclaim : (alone q (.deqExchange q.dequeuePos) log).stepThread () false =
      alone q.taken (.deqRead q.dequeuePos) (.dequeueClaims () q.dequeuePos :: log) := by
    rw [stepThread]
    exact (if_pos ⟨rfl, rfl⟩).trans (congrArg (record · _) (goto_alone _ _))
  have hstore : ∀ f, (alone (q.taken.setCell q.dequeuePos
        { q.taken.cell q.dequeuePos with data := none })
        (.deqStore q.dequeuePos (q.taken.cell q.dequeuePos).data)
        (.dequeueClaims () q.dequeuePos :: log)).stepThread () f =
      alone q.popped .idle (.dequeueReturns () q.dequeuePos (q.cell q.dequeuePos).data ::
        .dequeueClaims () q.dequeuePos :: log) := by
    intro f
    rw [stepThread]
    dsimp only [alone]
    rw [LockFreeQueue.cell_setCell, LockFreeQueue.setCell_setCell]
    exact congrArg (record · _) (goto_alone _ _)
  exact (foldl_retry hlook hfail hclaim (fun _ => goto_alone _ _) hstore (fun _ => rfl)
    flags).1 hdriven

theorem stepThread_full (hfull : dif (q.cell pos).sequence pos < 0) (f : Bool) :
    (alone q (.enqSequence x pos) log).stepThread () f =
      alone q .idle (.enqueueFull () :: log) := by
  rw [stepThread]
  exact ((if_neg (Int64.ne_of_lt hfull)).trans (if_pos hfull)).trans
    (congrArg (record · _) (goto_alone _ _))

theorem stepThread_empty (hempty : dif (q.cell pos).sequence (pos + 1) < 0) (f : Bool) :
    (alone q (.deqSequence pos) log).stepThread () f =
      alone q .idle (.dequeueEmpty () :: log) := by
  rw [stepThread]
  exact ((if_neg (Int64.ne_of_lt hempty)).trans (if_pos hempty)).trans
    (congrArg (record · _) (goto_alone _ _))

/-! ## Whole calls -/

theorem perform_ok (hdriven : Driven flags)
    (hfree : (q.cell q.enqueuePos).sequence = q.enqueuePos) :
    (alone q .idle log).perform (.enqueue x) flags = alone (q.pushed x) .idle
      (.enqueueReturns () q.enqueuePos x :: .enqueueClaims () q.enqueuePos x ::
        .enqueueBegins () x :: log) := by
  obtain ⟨f, rest, rfl, hrest⟩ := hdriven.exists_cons
  rw [perform, run_steps, ← run_enqSequence hfree hrest]
  rfl

theorem perform_full (hdriven : Driven flags)
    (hfull : dif (q.cell q.enqueuePos).sequence q.enqueuePos < 0) :
    (alone q .idle log).perform (.enqueue x) flags = alone q .idle
      (.enqueueFull () :: .enqueueBegins () x :: log) := by
  obtain ⟨f, rest, rfl, hrest⟩ := hdriven.exists_cons
  rcases rest with _ | ⟨f', rest⟩
  · exact absurd hrest (by decide)
  · rw [perform, run_steps]
    exact (congrArg (fun m => rest.foldl (fun m f => m.stepThread () f) m)
      (stepThread_full hfull f')).trans (run_idle rest)

theorem perform_item (hdriven : Driven flags)
    (hready : (q.cell q.dequeuePos).sequence = q.dequeuePos + 1) :
    (alone q .idle log).perform .dequeue flags = alone q.popped .idle
      (.dequeueReturns () q.dequeuePos (q.cell q.dequeuePos).data ::
        .dequeueClaims () q.dequeuePos :: .dequeueBegins () :: log) := by
  obtain ⟨f, rest, rfl, hrest⟩ := hdriven.exists_cons
  rw [perform, run_steps, ← run_deqSequence hready hrest]
  rfl

theorem perform_empty (hdriven : Driven flags)
    (hempty : dif (q.cell q.dequeuePos).sequence (q.dequeuePos + 1) < 0) :
    (alone q .idle log).perform .dequeue flags = alone q .idle
      (.dequeueEmpty () :: .dequeueBegins () :: log) := by
  obtain ⟨f, rest, rfl, hrest⟩ := hdriven.exists_cons
  rcases rest with _ | ⟨f', rest⟩
  · exact absurd hrest (by decide)
  · rw [perform, run_steps]
    exact (congrArg (fun m => rest.foldl (fun m f => m.stepThread () f) m)
      (stepThread_empty hempty f')).trans (run_idle rest)

end Machine

/-! ## The cells of a queue at rest -/

/-- The items lie at consecutive positions from `d` on; each cell carries the position of
its item plus one, or the position it will take next. -/
structure Rests (cap d : ℕ) (items : List T) (q : LockFreeQueue T) : Prop where
  pow : ∃ k, 1 ≤ k ∧ k < 64 ∧ cap = 2 ^ k
  capacity : q.capacity.toNat = cap
  enqueuePos : q.enqueuePos = UInt64.ofNat (d + items.length)
  dequeuePos : q.dequeuePos = UInt64.ofNat d
  length_le : items.length ≤ cap
  item : ∀ k x, items[k]? = some x →
    q.buffer ((d + k) % cap) = ⟨UInt64.ofNat (d + k + 1), some x⟩
  free : ∀ k, items.length ≤ k → k < cap →
    (q.buffer ((d + k) % cap)).sequence = UInt64.ofNat (d + k)

theorem ofNat_succ (n : ℕ) : UInt64.ofNat (n + 1) = UInt64.ofNat n + 1 :=
  UInt64.ofNat_add n 1

/-- A sequence number less than half the machine word behind compares as smaller. -/
theorem dif_neg {n : ℕ} (hpos : 1 ≤ n) (hle : n ≤ 2 ^ 63) (a : ℕ) :
    dif (UInt64.ofNat a) (UInt64.ofNat (a + n)) < 0 := by
  have hsize : Int64.size = 2 ^ 64 := rfl
  have hzero : (0 : Int64).toInt = 0 := rfl
  have hdiff : (a : ℤ) - ((a + n : ℕ) : ℤ) = -(n : ℤ) := by omega
  rw [dif, Int64.lt_iff_toInt_lt, Int64.toInt_sub, UInt64.toInt64_ofNat', UInt64.toInt64_ofNat',
    Int64.toInt_ofNat', Int64.toInt_ofNat', hsize, Int.bmod_sub_bmod, Int.sub_bmod_bmod, hdiff,
    Int.bmod_eq_of_le (by omega) (by omega), hzero]
  omega

namespace Rests

variable {cap d : ℕ} {items : List T} {q : LockFreeQueue T}

theorem two_le (hr : Rests cap d items q) : 2 ≤ cap := by
  obtain ⟨k, hk, -, rfl⟩ := hr.pow
  exact Nat.le_self_pow (by omega) 2

theorem cap_le (hr : Rests cap d items q) : cap ≤ 2 ^ 63 := by
  obtain ⟨k, -, hk, rfl⟩ := hr.pow
  exact Nat.pow_le_pow_right (by decide) (by omega)

theorem index_ofNat (hr : Rests cap d items q) (p : ℕ) : q.index (UInt64.ofNat p) = p % cap := by
  have htwo := hr.two_le
  obtain ⟨k, hk, hlt, hpow⟩ := hr.pow
  have hone : (1 : UInt64) ≤ q.capacity := by
    rw [UInt64.le_iff_toNat_le, hr.capacity]
    exact Nat.le_of_succ_le htwo
  have hdvd : 2 ^ k ∣ 2 ^ 64 := Nat.pow_dvd_pow 2 hlt.le
  rw [LockFreeQueue.index, UInt64.toNat_and, UInt64.toNat_sub_of_le _ _ hone, hr.capacity, hpow]
  refine (Nat.and_two_pow_sub_one_eq_mod _ k).trans ?_
  rw [UInt64.toNat_ofNat', Nat.mod_mod_of_dvd _ hdvd]

theorem cell_ofNat (hr : Rests cap d items q) (p : ℕ) :
    q.cell (UInt64.ofNat p) = q.buffer (p % cap) := by
  rw [LockFreeQueue.cell, hr.index_ofNat]

/-- Positions of one lap have different cells. -/
theorem mod_ne {j k : ℕ} (hj : j < cap) (hk : k < cap) (hne : j ≠ k) :
    (d + j) % cap ≠ (d + k) % cap := by
  intro he
  have hmod : j ≡ k [MOD cap] := Nat.ModEq.add_left_cancel' d he
  exact hne (hmod.eq_of_lt_of_lt hj hk)

theorem enqueue_free (hr : Rests cap d items q) (hroom : items.length < cap) :
    (q.cell q.enqueuePos).sequence = q.enqueuePos := by
  rw [hr.enqueuePos, hr.cell_ofNat]
  exact hr.free _ le_rfl hroom

theorem enqueue_full (hr : Rests cap d items q) (hfull : items.length = cap) :
    dif (q.cell q.enqueuePos).sequence q.enqueuePos < 0 := by
  have htwo := hr.two_le
  have hle := hr.cap_le
  obtain ⟨x, hx⟩ : ∃ x, items[0]? = some x := by
    rw [List.getElem?_eq_getElem (by omega)]
    exact ⟨_, rfl⟩
  have hcell := hr.item 0 x hx
  rw [Nat.add_zero] at hcell
  have hpos : d + cap = d + 1 + (cap - 1) := by omega
  rw [hr.enqueuePos, hr.cell_ofNat, hfull, Nat.add_mod_right, hcell, hpos]
  exact dif_neg (by omega) (by omega) (d + 1)

theorem dequeue_ready {x : T} (hr : Rests cap d (x :: items) q) :
    q.cell q.dequeuePos = ⟨q.dequeuePos + 1, some x⟩ := by
  rw [hr.dequeuePos, hr.cell_ofNat, ← ofNat_succ]
  exact hr.item 0 x rfl

theorem dequeue_empty (hr : Rests cap d [] q) :
    dif (q.cell q.dequeuePos).sequence (q.dequeuePos + 1) < 0 := by
  have htwo := hr.two_le
  have hcell : (q.buffer (d % cap)).sequence = UInt64.ofNat d := hr.free 0 le_rfl (by omega)
  rw [hr.dequeuePos, hr.cell_ofNat, hcell, ← ofNat_succ]
  exact dif_neg le_rfl (by decide) d

theorem pushed (hr : Rests cap d items q) (hroom : items.length < cap) (x : T) :
    Rests cap d (items ++ [x]) (q.pushed x) := by
  have hlength : (items ++ [x]).length = items.length + 1 := List.length_append
  have hbuffer : (q.pushed x).buffer = Function.update q.buffer ((d + items.length) % cap)
      ⟨UInt64.ofNat (d + items.length + 1), some x⟩ := by
    rw [ofNat_succ, ← hr.index_ofNat, ← hr.enqueuePos]
    rfl
  have hother : ∀ k, k < cap → k ≠ items.length →
      (q.pushed x).buffer ((d + k) % cap) = q.buffer ((d + k) % cap) := by
    intro k hk hne
    rw [hbuffer, Function.update_of_ne (mod_ne hk hroom hne)]
  refine ⟨hr.pow, hr.capacity, ?_, hr.dequeuePos, by omega, ?_, ?_⟩
  · rw [hlength, ← Nat.add_assoc, ofNat_succ, ← hr.enqueuePos]
    rfl
  · intro k y hy
    by_cases hk : k = items.length
    · subst hk
      obtain rfl : x = y := by simpa using hy
      rw [hbuffer, Function.update_self]
    · have hlt : k < items.length := by
        have hlt := (List.getElem?_eq_some_iff.mp hy).1
        omega
      rw [List.getElem?_append_left hlt] at hy
      rw [hother k (hlt.trans hroom) hk, hr.item k y hy]
  · intro k hk hlt
    rw [hother k hlt (by omega), hr.free k (by omega) hlt]

theorem popped {x : T} (hr : Rests cap d (x :: items) q) : Rests cap (d + 1) items q.popped := by
  have htwo := hr.two_le
  have hle := hr.length_le
  rw [List.length_cons] at hle
  have hbuffer : q.popped.buffer = Function.update q.buffer (d % cap)
      ⟨UInt64.ofNat (d + cap), none⟩ := by
    rw [UInt64.ofNat_add, ← hr.index_ofNat, ← hr.dequeuePos, ← hr.capacity, UInt64.ofNat_toNat]
    rfl
  have hother : ∀ k, k + 1 < cap →
      q.popped.buffer ((d + 1 + k) % cap) = q.buffer ((d + (k + 1)) % cap) := by
    intro k hk
    have hne : (d + (k + 1)) % cap ≠ d % cap :=
      mod_ne (k := 0) hk (by omega) (Nat.succ_ne_zero k)
    rw [show d + 1 + k = d + (k + 1) by omega, hbuffer, Function.update_of_ne hne]
  refine ⟨hr.pow, hr.capacity, ?_, ?_, by omega, ?_, ?_⟩
  · rw [show d + 1 + items.length = d + (x :: items).length by rw [List.length_cons]; omega]
    exact hr.enqueuePos
  · rw [ofNat_succ, ← hr.dequeuePos]
    rfl
  · intro k y hy
    have hlt := (List.getElem?_eq_some_iff.mp hy).1
    rw [hother k (by omega), hr.item (k + 1) y hy]
    congr 2
    omega
  · intro k hk hlt
    by_cases hlast : k + 1 = cap
    · have hpos : d + 1 + k = d + cap := by omega
      rw [hpos, Nat.add_mod_right, hbuffer, Function.update_self]
    · have hfree := hr.free (k + 1) (by rw [List.length_cons]; omega) (by omega)
      rw [hother k (by omega), hfree]
      congr 1
      omega

/-- One call keeps the queue at rest and answers like the bounded FIFO. -/
theorem perform (hr : Rests cap d items q) {flags : List Bool} (hdriven : Driven flags)
    (call : Call T) (log : List (Event T Unit)) : ∃ d' q' log',
    (Machine.alone q .idle log).perform call flags = .alone q' .idle log' ∧
      Rests cap d' (fifo cap items call).2 q' ∧
      log'.filterMap Event.reply = (fifo cap items call).1 :: log.filterMap Event.reply := by
  cases call with
  | enqueue x =>
    by_cases hfull : items.length = cap
    · refine ⟨d, q, _, Machine.perform_full hdriven (hr.enqueue_full hfull), ?_, ?_⟩
      · rwa [fifo, if_pos hfull]
      · rw [fifo, if_pos hfull]
        rfl
    · have hroom : items.length < cap := lt_of_le_of_ne hr.length_le hfull
      refine ⟨d, q.pushed x, _, Machine.perform_ok hdriven (hr.enqueue_free hroom), ?_, ?_⟩
      · rw [fifo, if_neg hfull]
        exact hr.pushed hroom x
      · rw [fifo, if_neg hfull]
        rfl
  | dequeue =>
    cases items with
    | nil => exact ⟨d, q, _, Machine.perform_empty hdriven hr.dequeue_empty, hr, rfl⟩
    | cons x items =>
      have hcell := hr.dequeue_ready
      refine ⟨d + 1, q.popped, _, Machine.perform_item hdriven ?_, hr.popped, ?_⟩
      · rw [hcell]
      · rw [hcell]
        rfl

theorem performAll (calls : List (Call T × List Bool)) (hdriven : ∀ call ∈ calls, Driven call.2) :
    ∀ {d : ℕ} {items : List T} {q : LockFreeQueue T} (log : List (Event T Unit)),
      Rests cap d items q → ∃ d' q' log',
        (Machine.alone q .idle log).performAll calls = .alone q' .idle log' ∧
          Rests cap d' (fifoRun cap items (calls.map Prod.fst)).2 q' ∧
          log'.filterMap Event.reply = (fifoRun cap items (calls.map Prod.fst)).1.reverse ++
            log.filterMap Event.reply := by
  induction calls with
  | nil => exact fun log hr => ⟨_, _, log, rfl, hr, rfl⟩
  | cons call calls ih =>
    intro d items q log hr
    obtain ⟨d₁, q₁, log₁, hcall, hr₁, hreply⟩ :=
      hr.perform (hdriven call List.mem_cons_self) call.1 log
    obtain ⟨d', q', log', hrest, hr', hreplies⟩ :=
      ih (fun c hc => hdriven c (List.mem_cons_of_mem call hc)) log₁ hr₁
    refine ⟨d', q', log', ?_, hr', ?_⟩
    · rw [Machine.performAll, List.foldl_cons, hcall]
      exact hrest
    · rw [hreplies, hreply, List.map_cons, fifoRun]
      simp

/-- The drop takes out all items and then finds the queue empty. -/
theorem drop (flags : List (List Bool)) (hdriven : ∀ f ∈ flags, Driven f) :
    ∀ {d : ℕ} {items : List T} {q : LockFreeQueue T} (log : List (Event T Unit)),
      Rests cap d items q → items.length < flags.length → ∃ d' q' log',
        (Machine.alone q .idle log).drop flags = some (.alone q' .idle log') ∧
          Rests cap d' [] q' ∧ log'.filterMap Event.reply =
            .empty :: (items.map fun x => .item (some x)).reverse ++
              log.filterMap Event.reply := by
  induction flags with
  | nil => exact fun log _ hlt => absurd hlt (Nat.not_lt_zero _)
  | cons f flags ih =>
    intro d items q log hr hlt
    obtain ⟨d₁, q₁, log₁, hcall, hr₁, hreply⟩ :=
      hr.perform (hdriven f List.mem_cons_self) .dequeue log
    have hhead : (Machine.alone q₁ .idle log₁).replies.head? =
        some (fifo cap items .dequeue).1 := by
      rw [Machine.replies]
      change (log₁.filterMap Event.reply).head? = _
      rw [hreply]
      rfl
    rw [Machine.drop, hcall, hhead]
    cases items with
    | nil => exact ⟨d₁, q₁, log₁, rfl, hr₁, hreply⟩
    | cons x items =>
      obtain ⟨d', q', log', hrest, hr', hreplies⟩ :=
        ih (fun c hc => hdriven c (List.mem_cons_of_mem f hc)) log₁ hr₁
          (Nat.lt_of_succ_lt_succ hlt)
      refine ⟨d', q', log', hrest, hr', ?_⟩
      rw [hreplies, hreply]
      simp [fifo]

end Rests

theorem rests_new {capacity : UInt64} (htwo : 2 ≤ capacity) {q : LockFreeQueue T}
    (hnew : LockFreeQueue.new capacity = some q) : Rests capacity.toNat 0 [] q := by
  rw [LockFreeQueue.new] at hnew
  split at hnew
  · next hpow =>
    obtain ⟨k, hk, hcap⟩ := hpow
    obtain rfl := Option.some.inj hnew
    have htwo' : 2 ≤ capacity.toNat := UInt64.le_iff_toNat_le.mp htwo
    have hone : 1 ≤ k := by
      by_contra hzero
      obtain rfl : k = 0 := by omega
      omega
    refine ⟨⟨k, hone, hk, hcap⟩, rfl, rfl, rfl, Nat.zero_le _, fun k x hx => by simp at hx, ?_⟩
    intro k _ hk
    rw [Nat.zero_add, Nat.mod_eq_of_lt hk]
  · cases hnew

/-! ## Main result -/

/-- For every capacity of at least two, the queue of a single thread is a bounded FIFO:
each call returns, also after spurious failures, with the reply of the FIFO, and the drop
returns after it has taken out the items left, the oldest first. -/
theorem performAll_fifo (capacity : UInt64) (htwo : 2 ≤ capacity) (q : LockFreeQueue T)
    (hnew : LockFreeQueue.new capacity = some q) (calls : List (Call T × List Bool))
    (hdriven : ∀ call ∈ calls, Driven call.2) :
    ((Machine.init q).performAll calls).pc () = .idle ∧
      ((Machine.init q).performAll calls).replies =
        (fifoRun capacity.toNat [] (calls.map Prod.fst)).1.reverse ∧
      ∀ flags : List (List Bool), (∀ f ∈ flags, Driven f) →
        (fifoRun capacity.toNat [] (calls.map Prod.fst)).2.length < flags.length →
          ∃ m, ((Machine.init q).performAll calls).drop flags = some m ∧ m.pc () = .idle ∧
            m.replies = .empty ::
              ((fifoRun capacity.toNat [] (calls.map Prod.fst)).2.map
                fun x => .item (some x)).reverse ++
              ((Machine.init q).performAll calls).replies := by
  obtain ⟨d, q', log, hrun, hr, hreplies⟩ :=
    Rests.performAll calls hdriven [] (rests_new htwo hnew)
  have hinit : Machine.init q = .alone q .idle [] := rfl
  rw [List.filterMap_nil, List.append_nil] at hreplies
  rw [hinit, hrun]
  refine ⟨rfl, hreplies, ?_⟩
  intro flags hflags hlt
  obtain ⟨d', q'', log', hdrop, -, hreplies'⟩ := Rests.drop flags hflags log hr hlt
  exact ⟨_, hdrop, rfl, hreplies'⟩

/-- Three enqueues and a dequeue on two cells; the second call fails spuriously once. -/
def wrapping : List (Call ℕ × List Bool) :=
  [(.enqueue 1, List.replicate 5 false), (.enqueue 2, [false, false, true, false, false, false, false]),
    (.enqueue 3, List.replicate 5 false), (.dequeue, List.replicate 5 false)]

theorem performAll_fifo_wrapping :
    ∃ q : LockFreeQueue ℕ, LockFreeQueue.new 2 = some q ∧
      ((Machine.init q).performAll wrapping).replies = [.item (some 1), .full, .ok, .ok] :=
  ⟨_, if_pos ⟨1, by decide, by decide⟩,
    (performAll_fifo 2 (by decide) _ (if_pos ⟨1, by decide, by decide⟩) wrapping
      (by decide)).2.1⟩

/-! ## A single cell -/

/-- A dequeue whose cell is ahead of its position loops for ever. -/
theorem run_deqLoad_busy {q : LockFreeQueue T} {log : List (Event T Unit)}
    (hne : dif (q.cell q.dequeuePos).sequence (q.dequeuePos + 1) ≠ 0)
    (hpos : ¬ dif (q.cell q.dequeuePos).sequence (q.dequeuePos + 1) < 0) (flags : List Bool) :
    (flags.foldl (fun m f => m.stepThread () f) (Machine.alone q .deqLoad log)).pc () ≠ .idle ∧
      (flags.foldl (fun m f => m.stepThread () f)
        (Machine.alone q (.deqSequence q.dequeuePos) log)).pc () ≠ .idle := by
  have hback : ∀ f, (Machine.alone q (.deqSequence q.dequeuePos) log).stepThread () f =
      .alone q .deqLoad log := by
    intro f
    rw [Machine.stepThread]
    exact ((if_neg hne).trans (if_neg hpos)).trans (Machine.goto_alone _ _)
  induction flags with
  | nil =>
    constructor
    · intro h
      cases h
    · intro h
      cases h
  | cons f flags ih =>
    rw [List.foldl_cons, List.foldl_cons, hback]
    exact ⟨ih.2, ih.1⟩

/-- A queue of one cell takes a second item in the place of the first, and the next dequeue
does not return. -/
theorem performAll_one_hangs :
    ∃ q : LockFreeQueue ℕ, LockFreeQueue.new 1 = some q ∧
      ((Machine.init q).performAll [(.enqueue 1, List.replicate 5 false),
        (.enqueue 2, List.replicate 5 false)]).replies = [.ok, .ok] ∧
      ∀ flags, (((Machine.init q).performAll [(.enqueue 1, List.replicate 5 false),
        (.enqueue 2, List.replicate 5 false)]).perform .dequeue flags).pc () ≠ .idle := by
  refine ⟨_, if_pos ⟨0, by decide, by decide⟩, rfl, ?_⟩
  intro flags
  rw [Machine.perform, Machine.run_steps]
  exact (run_deqLoad_busy (by decide) (by decide) flags).1

end Kallisto.Queue
