import Lightning.Basic
import Mathlib.Logic.Function.Basic

/-!
# The task executor

`TaskExecutor` is generic in the type of its tasks. The queue is a linearizable FIFO of
`std::unique_ptr<T>`, whose null pointer `none` is the sentinel that ends a worker. One thread calls
`add_task` for every task of a script and then `stop_all`; each of these calls is split into its
accesses to the shared state, and so is `thread_worker`. `executed` and `sentinels` record what the
workers have done.
-/

namespace Lightning

/-- Where `thread_worker` is. -/
inductive WorkerState (α : Type) where
  /-- In `wait_dequeue`. -/
  | waiting
  | executing (task : α)
  | exited
  deriving DecidableEq, Repr

/-- Where the thread is that calls `add_task` and `stop_all`. -/
inductive Producer (α : Type) where
  /-- These tasks are still to be added. -/
  | adding (script : List α)
  /-- In `stop_all`, with so many sentinels still to be enqueued. -/
  | enqueuing (left : ℕ)
  /-- In `stop_all`, about to join this thread. -/
  | joining (thread : ℕ)
  | returned
  deriving DecidableEq, Repr

structure TaskExecutor (α : Type) where
  thread_count : ℕ
  tasks : List (Option α) := []
  kill_threads : Bool := false
  worker : ℕ → WorkerState α := fun _ => .waiting
  producer : Producer α
  /-- The tasks whose execution has ended, in that order. -/
  executed : List α := []
  /-- The number of sentinels that each worker has consumed. -/
  sentinels : ℕ → ℕ := fun _ => 0

namespace TaskExecutor

variable {α : Type}

/-- The constructor, with what its owner is going to add. -/
def create (thread_count : ℤ) (script : List α) : Except CppException (TaskExecutor α) :=
  if thread_count < 1 then .error .invalidArgument
  else .ok { thread_count := thread_count.toNat, producer := .adding script }

def enqueue (task : Option α) (e : TaskExecutor α) : TaskExecutor α :=
  { e with tasks := e.tasks ++ [task] }

inductive Action where
  | add_task
  /-- `kill_threads.exchange(true)`; a call that finds it set returns at once. -/
  | stop_all
  /-- One iteration of the loop that enqueues the sentinels, or its end. -/
  | enqueueSentinel
  /-- One iteration of the loop that joins the threads, or its end. -/
  | join
  /-- `wait_dequeue` returns to a worker. -/
  | dequeue (i : ℕ)
  /-- The task that a worker executes returns. -/
  | finish (i : ℕ)
  deriving DecidableEq, Repr

/-- Execute a step when its thread can take it. -/
def next (e : TaskExecutor α) : Action → Option (TaskExecutor α)
  | .add_task =>
      match e.producer with
      | .adding (task :: script) => some { e.enqueue (some task) with producer := .adding script }
      | _ => none
  | .stop_all =>
      if e.producer matches .adding [] | .returned then
        if e.kill_threads then some { e with producer := .returned }
        else some { e with kill_threads := true, producer := .enqueuing e.thread_count }
      else none
  | .enqueueSentinel =>
      match e.producer with
      | .enqueuing (left + 1) => some { e.enqueue none with producer := .enqueuing left }
      | .enqueuing 0 => some { e with producer := .joining 0 }
      | _ => none
  | .join =>
      match e.producer with
      | .joining thread =>
          if thread < e.thread_count then
            if e.worker thread matches .exited then
              some { e with producer := .joining (thread + 1) }
            else none
          else some { e with producer := .returned }
      | _ => none
  | .dequeue i =>
      if i < e.thread_count ∧ e.worker i matches .waiting then
        match e.tasks with
        | [] => none
        | none :: tasks =>
            some { e with
              tasks := tasks
              worker := Function.update e.worker i .exited
              sentinels := Function.update e.sentinels i (e.sentinels i + 1) }
        | some task :: tasks =>
            some { e with tasks := tasks, worker := Function.update e.worker i (.executing task) }
      else none
  | .finish i =>
      match e.worker i with
      | .executing task =>
          if i < e.thread_count then
            some { e with
              worker := Function.update e.worker i .waiting
              executed := e.executed ++ [task] }
          else none
      | _ => none

def Step (e : TaskExecutor α) (a : Action) (e' : TaskExecutor α) : Prop := e.next a = some e'

/-- The constructor has succeeded. -/
def Initial (thread_count : ℤ) (script : List α) (e : TaskExecutor α) : Prop :=
  create thread_count script = .ok e

end TaskExecutor

end Lightning
