import Mathlib.Algebra.Order.Ring.Nat
import Mathlib.Logic.Function.Basic
import Mathlib.Tactic.Common

/-! # The lock-free queue

A bounded queue for any number of producers and consumers. Threads run `enqueue` and
`dequeue` as sequences of atomic steps on the shared words: loads of a position or of a
cell's sequence number, a compare-exchange that may fail spuriously, the unchecked move
of the item, and the store of the new sequence number. -/

namespace Kallisto.Queue

variable {T Tid : Type}

/-- A cell. Its data is uninitialised memory while it holds no item. -/
structure Node (T : Type) where
  sequence : UInt64
  data : Option T

structure LockFreeQueue (T : Type) where
  buffer : ℕ → Node T
  capacity : UInt64
  enqueuePos : UInt64
  dequeuePos : UInt64

namespace LockFreeQueue

/-- The assertion on the capacity is checked first. -/
def new (capacity : UInt64) : Option (LockFreeQueue T) :=
  if ∃ k < 64, capacity.toNat = 2 ^ k then
    some {
      buffer := fun i => ⟨UInt64.ofNat i, none⟩
      capacity := capacity
      enqueuePos := 0
      dequeuePos := 0 }
  else none

/-- The buffer index of a position. -/
def index (q : LockFreeQueue T) (pos : UInt64) : ℕ :=
  (pos &&& (q.capacity - 1)).toNat

def cell (q : LockFreeQueue T) (pos : UInt64) : Node T :=
  q.buffer (q.index pos)

def setCell (q : LockFreeQueue T) (pos : UInt64) (node : Node T) : LockFreeQueue T :=
  { q with buffer := Function.update q.buffer (q.index pos) node }

end LockFreeQueue

/-- The signed distance that both loops branch on. -/
def dif (seq pos : UInt64) : Int64 :=
  seq.toInt64 - pos.toInt64

/-- Where a thread stands: before the named step, with the locals it still needs. The
item is kept after its move so that the return can be recorded with it. -/
inductive Pc (T : Type) where
  | idle
  | enqLoad (data : T)
  | enqSequence (data : T) (pos : UInt64)
  | enqExchange (data : T) (pos : UInt64)
  | enqWrite (data : T) (pos : UInt64)
  | enqStore (data : T) (pos : UInt64)
  | deqLoad
  | deqSequence (pos : UInt64)
  | deqExchange (pos : UInt64)
  | deqRead (pos : UInt64)
  | deqStore (pos : UInt64) (data : Option T)

/-- What is recorded of a run. The result of a read is missing if the cell was
uninitialised. -/
inductive Event (T Tid : Type) where
  | enqueueBegins (t : Tid) (data : T)
  | enqueueClaims (t : Tid) (pos : UInt64) (data : T)
  | enqueueReturns (t : Tid) (pos : UInt64) (data : T)
  | enqueueFull (t : Tid)
  | dequeueBegins (t : Tid)
  | dequeueClaims (t : Tid) (pos : UInt64)
  | dequeueReturns (t : Tid) (pos : UInt64) (data : Option T)
  | dequeueEmpty (t : Tid)

/-- The queue, its threads, and the events so far with the latest first. -/
structure Machine (T Tid : Type) where
  queue : LockFreeQueue T
  pc : Tid → Pc T
  log : List (Event T Tid)

inductive Label (T Tid : Type) where
  | enqueue (t : Tid) (data : T)
  | dequeue (t : Tid)
  | step (t : Tid) (spurious : Bool)

namespace Machine

def init (q : LockFreeQueue T) : Machine T Tid where
  queue := q
  pc := fun _ => .idle
  log := []

variable [DecidableEq Tid]

def goto (m : Machine T Tid) (t : Tid) (pc : Pc T) : Machine T Tid :=
  { m with pc := Function.update m.pc t pc }

def record (m : Machine T Tid) (e : Event T Tid) : Machine T Tid :=
  { m with log := e :: m.log }

def withQueue (m : Machine T Tid) (q : LockFreeQueue T) : Machine T Tid :=
  { m with queue := q }

/-- The next atomic step of a thread. -/
def stepThread (m : Machine T Tid) (t : Tid) (spurious : Bool) : Machine T Tid :=
  let q := m.queue
  match m.pc t with
  | .idle => m
  | .enqLoad data => m.goto t (.enqSequence data q.enqueuePos)
  | .enqSequence data pos =>
    let d := dif (q.cell pos).sequence pos
    if d = 0 then m.goto t (.enqExchange data pos)
    else if d < 0 then (m.goto t .idle).record (.enqueueFull t)
    else m.goto t (.enqLoad data)
  | .enqExchange data pos =>
    if q.enqueuePos = pos ∧ spurious = false then
      ((m.withQueue { q with enqueuePos := pos + 1 }).goto t (.enqWrite data pos)).record
        (.enqueueClaims t pos data)
    else m.goto t (.enqSequence data pos)
  | .enqWrite data pos =>
    (m.withQueue (q.setCell pos { q.cell pos with data := some data })).goto t
      (.enqStore data pos)
  | .enqStore data pos =>
    ((m.withQueue (q.setCell pos { q.cell pos with sequence := pos + 1 })).goto t .idle).record
      (.enqueueReturns t pos data)
  | .deqLoad => m.goto t (.deqSequence q.dequeuePos)
  | .deqSequence pos =>
    let d := dif (q.cell pos).sequence (pos + 1)
    if d = 0 then m.goto t (.deqExchange pos)
    else if d < 0 then (m.goto t .idle).record (.dequeueEmpty t)
    else m.goto t .deqLoad
  | .deqExchange pos =>
    if q.dequeuePos = pos ∧ spurious = false then
      ((m.withQueue { q with dequeuePos := pos + 1 }).goto t (.deqRead pos)).record
        (.dequeueClaims t pos)
    else m.goto t (.deqSequence pos)
  | .deqRead pos =>
    (m.withQueue (q.setCell pos { q.cell pos with data := none })).goto t
      (.deqStore pos (q.cell pos).data)
  | .deqStore pos data =>
    ((m.withQueue (q.setCell pos
      { q.cell pos with sequence := pos + q.capacity })).goto t .idle).record
        (.dequeueReturns t pos data)

/-- A call begins only on an idle thread. -/
def step (m : Machine T Tid) : Label T Tid → Machine T Tid
  | .enqueue t data =>
    match m.pc t with
    | .idle => (m.goto t (.enqLoad data)).record (.enqueueBegins t data)
    | _ => m
  | .dequeue t =>
    match m.pc t with
    | .idle => (m.goto t .deqLoad).record (.dequeueBegins t)
    | _ => m
  | .step t spurious => m.stepThread t spurious

def run (m : Machine T Tid) (labels : List (Label T Tid)) : Machine T Tid :=
  labels.foldl step m

end Machine

/-! ## A single thread -/

inductive Call (T : Type) where
  | enqueue (data : T)
  | dequeue

inductive Reply (T : Type) where
  | ok
  | full
  | item (data : Option T)
  | empty

def Call.label : Call T → Label T Unit
  | .enqueue data => .enqueue () data
  | .dequeue => .dequeue ()

def Event.reply : Event T Tid → Option (Reply T)
  | .enqueueReturns _ _ _ => some .ok
  | .enqueueFull _ => some .full
  | .dequeueReturns _ _ data => some (.item data)
  | .dequeueEmpty _ => some .empty
  | _ => none

namespace Machine

/-- A call and the steps after it, with the flags of those that fail spuriously. -/
def perform (m : Machine T Unit) (call : Call T) (spurious : List Bool) : Machine T Unit :=
  (m.step call.label).run (spurious.map (.step ()))

def performAll (m : Machine T Unit) (calls : List (Call T × List Bool)) : Machine T Unit :=
  calls.foldl (fun m call => m.perform call.1 call.2) m

/-- The replies so far, the latest first. -/
def replies (m : Machine T Unit) : List (Reply T) :=
  m.log.filterMap Event.reply

/-- The drop dequeues until a call fails. There are flags for so many calls. -/
def drop : List (List Bool) → Machine T Unit → Option (Machine T Unit)
  | [], _ => none
  | spurious :: rest, m =>
    let m := m.perform .dequeue spurious
    match m.replies.head? with
    | some (.item _) => drop rest m
    | _ => some m

end Machine

/-- Whether a label starts an operation. -/
def Label.isCall : Label T Tid → Bool
  | .enqueue _ _ => true
  | .dequeue _ => true
  | .step _ _ => false

end Kallisto.Queue
