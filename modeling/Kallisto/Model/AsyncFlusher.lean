import Kallisto.Model.BackgroundWorker

/-! # The flusher

The handle through which producers reach the worker of the flusher. Producers share it;
`stop` and `drop` take it for themselves. -/

namespace Kallisto.Background

open Engine (AsyncOp)

variable {B : Type}

inductive EnqueueError where
  | queueFull
  | workerStopped
  deriving DecidableEq, Repr

/-- The capacity of a channel that stores operations. One of capacity zero only hands them
over. -/
abbrev Capacity : Type :=
  { n : ℕ // 0 < n }

/-- The worker behind its channel. `handle` says that the thread has not been joined yet and
`joining` that `stop` waits for it. `answers` records what `enqueue` returned, the latest
last. -/
structure AsyncFlusher (B : Type) where
  config : AsyncFlusherConfig
  channelCapacity : Capacity
  worker : Worker B
  handle : Bool
  joining : Bool
  answers : List (AsyncOp B × Except EnqueueError Unit)

namespace AsyncFlusher

def start (db : String → Option B) (config : AsyncFlusherConfig) (channelCapacity : Capacity) :
    AsyncFlusher B :=
  ⟨config, channelCapacity, .started db, true, false, []⟩

/-- A step of the worker or of its channel. -/
def act (f : AsyncFlusher B) (l : Label B) : AsyncFlusher B :=
  { f with worker := f.worker.step (.workerLoop f.config) l }

/-- `try_send`. The receiver is gone when the worker has returned; a channel with room takes
the operation. -/
def trySend (f : AsyncFlusher B) (op : AsyncOp B) : Except EnqueueError Unit × AsyncFlusher B :=
  if f.worker.pc = .exited then (.error .workerStopped, f)
  else if f.channelCapacity.1 ≤ f.worker.queue.length then (.error .queueFull, f)
  else (.ok (), f.act (.enqueue op))

def enqueue (f : AsyncFlusher B) (op : AsyncOp B) : AsyncFlusher B :=
  { (f.trySend op).2 with answers := f.answers ++ [(op, (f.trySend op).1)] }

/-- `stop` up to the `join`, which it makes only the first time. -/
def stop (f : AsyncFlusher B) : AsyncFlusher B :=
  { f.act .stop with joining := f.handle, handle := false }

/-- The `join` returns when the worker has. -/
def join (f : AsyncFlusher B) : AsyncFlusher B :=
  if f.worker.pc = .exited then { f with joining := false } else f

def isRunning (f : AsyncFlusher B) : Bool :=
  f.worker.running

/-! ## Runs -/

/-- `release` is the end of `drop`, after `stop`: the sender goes away. -/
inductive Step (B : Type) where
  | enqueue (op : AsyncOp B)
  | stop
  | join
  | release
  | work (received : Received) (timeout fails : Bool)

def step (f : AsyncFlusher B) : Step B → AsyncFlusher B
  | .enqueue op => f.enqueue op
  | .stop => f.stop
  | .join => f.join
  | .release => f.act .disconnect
  | .work received timeout fails => f.act (.work received timeout fails)

def run (f : AsyncFlusher B) (steps : List (Step B)) : AsyncFlusher B :=
  steps.foldl step f

/-- Nobody uses the handle while `stop` has it, or after it was dropped. A drop is a stop
before it is anything else. -/
def Borrows (f : AsyncFlusher B) : Step B → Prop
  | .enqueue _ => f.joining = false ∧ f.worker.connected = true
  | .stop => f.joining = false ∧ f.worker.connected = true
  | .release => f.joining = false ∧ f.handle = false
  | _ => True

end AsyncFlusher

end Kallisto.Background
