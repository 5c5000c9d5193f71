import Kallisto.Library.WriteBehind
import Kallisto.Model.KvEngine

/-! # The background workers

The two loops that move queued writes to RocksDB in batches: `async_worker_loop` of the
engine and `worker_loop` of the flusher. A step is one pass through a part of the loop;
what the queue yields, whether the flush interval has elapsed and whether a batch is
accepted is left to the schedule. -/

namespace Kallisto.Engine

variable {B : Type}

def AsyncOp.key : AsyncOp B → String
  | .put key _ => key
  | .delete key => key

/-- What a raw write leaves under its key. -/
def AsyncOp.value : AsyncOp B → Option B
  | .put _ value => some value
  | .delete _ => none

def AsyncOp.apply (db : String → Option B) (op : AsyncOp B) : String → Option B :=
  WriteBehind.write AsyncOp.key AsyncOp.value db op

/-- `apply_batch`: the operations take effect together and in order. -/
def applyBatch (db : String → Option B) (batch : List (AsyncOp B)) : String → Option B :=
  WriteBehind.writeAll AsyncOp.key AsyncOp.value db batch

/-- Where the worker stands in its loop: before the test of the running flag, before the
dequeue, before the flush decision, in the final drain, or finished. -/
inductive WorkerPc where
  | head
  | poll
  | settle
  | drain
  | exited
  deriving DecidableEq, Repr

end Kallisto.Engine

namespace Kallisto.Background

open Engine (AsyncOp WorkerPc)

/-- The interval enters as a part of the schedule. -/
structure AsyncFlusherConfig where
  batchSize : ℕ

/-- The worker with its queue. `enqueued` and `applied` record the accepted operations and
the batches that RocksDB has taken, `failed` that it has refused one. -/
structure Worker (B : Type) where
  queue : List (AsyncOp B)
  connected : Bool
  running : Bool
  pc : WorkerPc
  batch : List (AsyncOp B)
  rocksdb : String → Option B
  enqueued : List (AsyncOp B)
  applied : List (List (AsyncOp B))
  failed : Bool

variable {B : Type}

/-- A worker that has just been started on a database. -/
def Worker.started (db : String → Option B) : Worker B :=
  ⟨[], true, true, .head, [], db, [], [], false⟩

/-- What an attempt to receive finds. -/
inductive Received where
  | operation
  | nothing
  | disconnected
  deriving DecidableEq, Repr

/-! ## The loop -/

/-- `apply_batch` and the `clear` after it. An empty batch is not written, so it cannot
fail. -/
def Worker.flush (w : Worker B) (fails : Bool) : Worker B :=
  if fails = true ∧ w.batch ≠ [] then { w with batch := [], failed := true }
  else { w with
    rocksdb := Engine.applyBatch w.rocksdb w.batch
    applied := w.applied ++ [w.batch]
    batch := [] }

/-- The common loop. `breaks` says whether a disconnected queue ends it. -/
def Worker.loop (breaks : Bool) (batchSize : ℕ) (w : Worker B) (received : Received)
    (timeout fails : Bool) : Worker B :=
  match w.pc with
  | .head => { w with pc := if w.running then .poll else .drain }
  | .poll =>
    match received, w.queue with
    | .operation, op :: rest =>
      { w with queue := rest, batch := w.batch ++ [op], pc := .settle }
    | .disconnected, [] =>
      if breaks = true ∧ w.connected = false then { w with pc := .drain }
      else { w with pc := .settle }
    | _, _ => { w with pc := .settle }
  | .settle =>
    if w.batch.length ≥ batchSize ∨ timeout = true ∧ w.batch ≠ [] then
      { w.flush fails with pc := .head }
    else { w with pc := .head }
  | .drain =>
    match w.queue with
    | op :: rest => { w with queue := rest, batch := w.batch ++ [op] }
    | [] =>
      if w.batch ≠ [] then { w.flush fails with pc := .exited } else { w with pc := .exited }
  | .exited => w

/-- The lock-free queue is never disconnected. -/
def asyncWorkerLoop (w : Worker B) (received : Received) (timeout fails : Bool) : Worker B :=
  w.loop false 1024 received timeout fails

def workerLoop (config : AsyncFlusherConfig) (w : Worker B) (received : Received)
    (timeout fails : Bool) : Worker B :=
  w.loop true config.batchSize received timeout fails

/-- The two loops of the source. -/
inductive Loop where
  | asyncWorkerLoop
  | workerLoop (config : AsyncFlusherConfig)

def Loop.pass : Loop → Worker B → Received → Bool → Bool → Worker B
  | .asyncWorkerLoop => Background.asyncWorkerLoop
  | .workerLoop config => Background.workerLoop config

/-! ## Schedules -/

/-- A producer gets an operation accepted, the running flag is cleared, the last producer
goes away, or the worker moves. -/
inductive Label (B : Type) where
  | enqueue (op : AsyncOp B)
  | stop
  | disconnect
  | work (received : Received) (timeout fails : Bool)

def Worker.step (loop : Loop) (w : Worker B) : Label B → Worker B
  | .enqueue op => { w with queue := w.queue ++ [op], enqueued := w.enqueued ++ [op] }
  | .stop => { w with running := false }
  | .disconnect => { w with connected := false }
  | .work received timeout fails => loop.pass w received timeout fails

def Worker.run (loop : Loop) (w : Worker B) (labels : List (Label B)) : Worker B :=
  labels.foldl (step loop) w

end Kallisto.Background
