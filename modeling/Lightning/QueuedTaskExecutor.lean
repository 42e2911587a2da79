import Lightning.BlockingConcurrentQueue
import Lightning.TaskExecutor

/-!
# The task executor over its queue

`TaskExecutor` with the `BlockingConcurrentQueue` it is built on: `enqueue` and `wait_dequeue` are
calls that go on access by access, while the other threads go on with theirs. The threads are the
workers, `some i`, and the one that calls `add_task` and `stop_all`, `none`. Allocations succeed.
-/

namespace Lightning

structure QueuedTaskExecutor (n : ℕ) (α : Type) where
  /-- The queue, with the calls that the threads are in. -/
  tasks : QueueThreads (Option (Fin n)) (Option α)
  kill_threads : Bool := false
  worker : Fin n → WorkerState α := fun _ => .waiting
  producer : Producer α
  executed : List α := []
  sentinels : Fin n → ℕ := fun _ => 0

namespace QueuedTaskExecutor

variable {n : ℕ} {α : Type}

inductive Action (n : ℕ) where
  /-- A thread calls `enqueue` or `wait_dequeue`. -/
  | call (i : Option (Fin n))
  /-- The next access of the call that a thread is in, and what follows when that returns. -/
  | access (i : Option (Fin n)) (chance : Chance (Option (Fin n)))
  /-- The task that a worker executes returns. -/
  | finish (i : Fin n)
  /-- `kill_threads.exchange(true)`. -/
  | stop_all
  /-- The loop that enqueues the sentinels ends. -/
  | sentinelsEnqueued
  /-- One iteration of the loop that joins the threads, or its end. -/
  | join

/-- What a thread calls next. -/
def nextCall (e : QueuedTaskExecutor n α) : Option (Fin n) → Option (QueueCall (Option α))
  | none =>
      match e.producer with
      | .adding (task :: _) => some (.enqueue (some task))
      | .enqueuing (_ + 1) => some (.enqueue none)
      | _ => none
  | some i =>
      match e.worker i with
      | .waiting => some (.acquire true (.load (some (-1))))
      | _ => none

/-- `enqueue` has returned to `add_task` or to the loop of `stop_all`. -/
def afterEnqueue : Producer α → Producer α
  | .adding (_ :: script) => .adding script
  | .enqueuing (left + 1) => .enqueuing left
  | producer => producer

/-- What a thread does with the result of its call. -/
def returned (e : QueuedTaskExecutor n α) :
    Option (Fin n) → QueueResult (Option α) → QueuedTaskExecutor n α
  | none, .enqueued _ => { e with producer := afterEnqueue e.producer }
  | some i, .dequeued none =>
      { e with
        worker := Function.update e.worker i .exited
        sentinels := Function.update e.sentinels i (e.sentinels i + 1) }
  | some i, .dequeued (some task) =>
      { e with worker := Function.update e.worker i (.executing task) }
  | _, _ => e

/-- The allocation of an element fails. -/
def outOfMemory (chance : Chance (Option (Fin n))) : QueueCall (Option α) → Bool
  | .enqueue _ => BlockingConcurrentQueue.hasFailed chance
  | _ => false

/-- Execute a step when its thread can take it. -/
def next (e : QueuedTaskExecutor n α) : Action n → Option (QueuedTaskExecutor n α)
  | .call i =>
      (e.nextCall i).bind fun call =>
        (e.tasks.start i call).map fun tasks => { e with tasks := tasks }
  | .access i chance =>
      match e.tasks.call i with
      | none => none
      | some call =>
          if outOfMemory chance call then none
          else
            (e.tasks.queue.next i chance call).map fun after =>
              let e := { e with
                tasks := ⟨after.1,
                  Function.update e.tasks.call i (QueueThreads.ongoing after.2)⟩ }
              match after.2 with
              | .inl _ => e
              | .inr result => e.returned i result
  | .finish i =>
      match e.worker i with
      | .executing task =>
          some { e with
            worker := Function.update e.worker i .waiting
            executed := e.executed ++ [task] }
      | _ => none
  | .stop_all =>
      if e.producer matches .adding [] | .returned then
        if e.kill_threads then some { e with producer := .returned }
        else some { e with kill_threads := true, producer := .enqueuing n }
      else none
  | .sentinelsEnqueued =>
      match e.producer with
      | .enqueuing 0 => some { e with producer := .joining 0 }
      | _ => none
  | .join =>
      match e.producer with
      | .joining thread =>
          if h : thread < n then
            if e.worker ⟨thread, h⟩ matches .exited then
              some { e with producer := .joining (thread + 1) }
            else none
          else some { e with producer := .returned }
      | _ => none

def Step (e : QueuedTaskExecutor n α) (a : Action n) (e' : QueuedTaskExecutor n α) : Prop :=
  e.next a = some e'

/-- The constructor has succeeded. -/
def Initial (maxSpins : ℕ) (thread_count : ℤ) (script : List α) (e : QueuedTaskExecutor n α) :
    Prop :=
  1 ≤ thread_count ∧ (n : ℤ) = thread_count ∧
    e = { tasks := { queue := .create maxSpins }, producer := .adding script }

end QueuedTaskExecutor

end Lightning
