import Lightning.Lib.ProducerQueue
import Lightning.LightweightSemaphore

/-!
# The blocking queue

`moodycamel::BlockingConcurrentQueue` pairs a lock-free queue with a semaphore that counts its
elements. `inner` behaves as `concurrentqueue.h` documents: it keeps the order of each producer, and
its `try_dequeue` may find nothing although it is not empty. `next` executes one access of one call
to what the threads share. `enqueued` and `dequeued` record what went through `inner`.
-/

namespace Lightning

open ProducerQueue

/-- Where a call of a member function is. -/
inductive QueueCall (α : Type) where
  /-- `enqueue` is about to call `inner.enqueue`. -/
  | enqueue (item : α)
  /-- In `sema->signal()`. -/
  | signal (call : SignalCall)
  /-- In `sema->wait(..)` or `sema->tryWait()`, which `wait_dequeue` calls again when it fails. -/
  | acquire (again : Bool) (call : WaitCall)
  /-- `sema->wait()` has failed. -/
  | retry
  /-- In the loop that calls `inner.try_dequeue`. -/
  | dequeue
  deriving DecidableEq, Repr

inductive QueueResult (α : Type) where
  | enqueued (success : Bool)
  | dequeued (item : α)
  /-- `try_dequeue` or `wait_dequeue_timed` returns `false`. -/
  | empty
  deriving DecidableEq, Repr

/-- What an access may meet. -/
inductive Chance (ι : Type) where
  | plain
  /-- An allocation, a weak exchange or the kernel's wait fails. -/
  | fails
  /-- `inner.try_dequeue` finds an element of this producer. -/
  | finds (producer : ι)
  deriving DecidableEq, Repr

structure BlockingConcurrentQueue (ι α : Type) where
  inner : List (ι × α) := []
  sema : LightweightSemaphore
  enqueued : List (ι × α) := []
  dequeued : List (ι × α) := []

namespace BlockingConcurrentQueue

variable {ι α : Type} [DecidableEq ι]

/-- The constructor, for traits with this `MAX_SEMA_SPINS`. -/
def create (maxSpins : ℕ) : BlockingConcurrentQueue ι α where
  sema := .create 0 maxSpins

def hasFailed : Chance ι → Bool
  | .fails => true
  | _ => false

/-- The queue after `inner.enqueue(item)`. -/
def enqueueInner (i : ι) (item : α) (q : BlockingConcurrentQueue ι α) :
    BlockingConcurrentQueue ι α :=
  { q with inner := q.inner ++ [(i, item)], enqueued := q.enqueued ++ [(i, item)] }

/-- `inner.try_dequeue(item)`. -/
def tryDequeueInner (q : BlockingConcurrentQueue ι α) :
    Chance ι → Option (α × BlockingConcurrentQueue ι α)
  | .finds producer =>
      (takeFrom producer q.inner).map fun taken =>
        (taken.1, { q with inner := taken.2, dequeued := q.dequeued ++ [(producer, taken.1)] })
  | _ => none

/-- How a call goes on when its call of `wait` or `tryWait` does. -/
def afterWait (again : Bool) : WaitCall ⊕ Bool → QueueCall α ⊕ QueueResult α
  | .inl call => .inl (.acquire again call)
  | .inr true => .inl .dequeue
  | .inr false => if again then .inl .retry else .inr .empty

def afterSignal : Option SignalCall → QueueCall α ⊕ QueueResult α
  | some call => .inl (.signal call)
  | none => .inr (.enqueued true)

/-- The next access of a call of thread `i`, or what the call returns; `none` while it is
blocked. -/
def next (q : BlockingConcurrentQueue ι α) (i : ι) (chance : Chance ι) :
    QueueCall α → Option (BlockingConcurrentQueue ι α × (QueueCall α ⊕ QueueResult α))
  | .enqueue item =>
      if hasFailed chance then some (q, .inr (.enqueued false))
      else some (q.enqueueInner i item, .inl (.signal (.add 1)))
  | .signal call =>
      let after := q.sema.nextSignal call
      some ({ q with sema := after.1 }, afterSignal after.2)
  | .acquire again call =>
      (q.sema.nextWait (hasFailed chance) call).map fun after =>
        ({ q with sema := after.1 }, afterWait again after.2)
  | .retry => some (q, .inl (.acquire true (.load (some (-1)))))
  | .dequeue =>
      match q.tryDequeueInner chance with
      | none => some (q, .inl .dequeue)
      | some (item, q) => some (q, .inr (.dequeued item))

end BlockingConcurrentQueue

/-- A queue and the threads that use it. -/
structure QueueThreads (ι α : Type) where
  queue : BlockingConcurrentQueue ι α
  /-- The call that a thread executes. -/
  call : ι → Option (QueueCall α) := fun _ => none

namespace QueueThreads

variable {ι α : Type} [DecidableEq ι]

inductive Action (ι α : Type) where
  | enqueue (i : ι) (item : α)
  | try_dequeue (i : ι)
  | wait_dequeue (i : ι)
  | wait_dequeue_timed (i : ι) (timeout : ℤ)
  /-- The next access of the call of a thread. -/
  | access (i : ι) (chance : Chance ι)

/-- The call that goes on, unless it returns. -/
def ongoing : QueueCall α ⊕ QueueResult α → Option (QueueCall α)
  | .inl call => some call
  | .inr _ => none

/-- A thread that is in no call starts one. -/
def start (i : ι) (call : QueueCall α) (s : QueueThreads ι α) : Option (QueueThreads ι α) :=
  if s.call i = none then some { s with call := Function.update s.call i (some call) } else none

/-- Execute a step when its thread can take it. -/
def next (s : QueueThreads ι α) : Action ι α → Option (QueueThreads ι α)
  | .enqueue i item => s.start i (.enqueue item)
  | .try_dequeue i => s.start i (.acquire false (.load none))
  | .wait_dequeue i => s.start i (.acquire true (.load (some (-1))))
  | .wait_dequeue_timed i timeout => s.start i (.acquire false (.load (some timeout)))
  | .access i chance =>
      match s.call i with
      | none => none
      | some call =>
          (s.queue.next i chance call).map fun after =>
            ⟨after.1, Function.update s.call i (ongoing after.2)⟩

def Step (s : QueueThreads ι α) (a : Action ι α) (s' : QueueThreads ι α) : Prop :=
  s.next a = some s'

def Initial (maxSpins : ℕ) (s : QueueThreads ι α) : Prop := s = { queue := .create maxSpins }

end QueueThreads

end Lightning
