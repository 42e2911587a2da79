import Lightning.Lib.Settling
import Lightning.Proof.QueuedExecutor
import Mathlib.Data.Prod.Lex

/-!
# The executor over its queue comes to its end

A rank adds up how much the threads have ahead of them (`rank`), and a lag how much of what their
calls have seen of the semaphore is out of date (`lag`). A round of a spin, a failed exchange or a
round of the loop that re-adjusts the count counts as progress only if the rank falls, or else the
lag. In every state some thread can make such progress, without a failure, until `stop_all` has
returned (`advances`): a worker that sleeps for ever would leave its sentinel in `inner`, which the
semaphore does not allow. Hence every state is followed by the return of `stop_all`
(`stop_all_returns`).
-/

namespace Lightning

open Transition Threads ProducerQueue

/-! ## The calls of the semaphore -/

namespace LightweightSemaphore

open QueuedTaskExecutor (Patient)

variable {s : LightweightSemaphore} {call : WaitCall}

/-- The accesses that a call has ahead of it, at most, until it is granted a permit, if nobody
interferes. -/
def ahead (maxSpins : ℕ) : WaitCall → ℕ
  | .load _ => 2 * maxSpins + 5
  | .exchange _ _ => 2 * maxSpins + 4
  | .spin _ spin => 2 * spin + 3
  | .spinExchange _ spin _ => 2 * spin + 4
  | .decrement _ => 2
  | .sleep => 1
  | .adjust => 2 * maxSpins + 7
  | .adjustTake => 2 * maxSpins + 7
  | .adjustExchange _ => 2 * maxSpins + 7

/-- The same for what an access leaves; `wait_dequeue` calls `wait` again when it fails. -/
def aheadAfter (maxSpins : ℕ) : WaitCall ⊕ Bool → ℕ
  | .inl call => ahead maxSpins call
  | .inr true => 0
  | .inr false => 2 * maxSpins + 6

/-- The accesses that a call needs to see the semaphore as it is. -/
def behind (s : LightweightSemaphore) : WaitCall → ℕ
  | .exchange _ oldCount => if 0 < oldCount ∧ s.m_count ≠ oldCount then 1 else 0
  | .adjust => 1
  | .adjustTake => if s.m_sema = 0 then 2 else 0
  | .adjustExchange oldCount => if s.m_count = oldCount then 0 else 2
  | _ => 0

/-- What an access that does not fail makes of its call: it has less ahead of it, or it has not
touched the semaphore and is less behind. -/
structure Lowers (s : LightweightSemaphore) (call : WaitCall) (s' : LightweightSemaphore)
    (result : WaitCall ⊕ Bool) : Prop where
  spins : s'.m_maxSpins = s.m_maxSpins
  lower : aheadAfter s.m_maxSpins result < ahead s.m_maxSpins call ∨
    s' = s ∧ ∃ call', result = .inl call' ∧
      ahead s.m_maxSpins call' = ahead s.m_maxSpins call ∧ s.behind call' < s.behind call

/-- Only the kernel's semaphore blocks a call without a timeout, and only the loop that re-adjusts
the count waits for another thread: while `m_count` says that this one has been counted in and
nothing is posted for it. -/
theorem nextWait_lowers (patient : Patient call) (awake : call = .sleep → s.m_sema ≠ 0)
    (owed : call = .adjust → 0 ≤ s.m_count → s.m_sema ≠ 0) :
    ∃ s' result, s.nextWait false call = some (s', result) ∧ Lowers s call s' result := by
  cases call with
  | load timeout => exact ⟨s, _, rfl, rfl, Or.inl (Nat.lt_succ_self _)⟩
  | exchange timeout oldCount =>
    obtain rfl : timeout = some (-1) := patient
    simp only [nextWait]
    split_ifs with positive seen
    · exact ⟨_, _, rfl, rfl, Or.inl (Nat.succ_pos _)⟩
    · refine ⟨_, _, rfl, rfl, Or.inr ⟨rfl, _, rfl, rfl, ?_⟩⟩
      have other : s.m_count ≠ oldCount := fun same => seen ⟨same, trivial⟩
      simp only [behind, ne_eq, not_true_eq_false, and_false, if_false]
      rw [if_pos ⟨positive, other⟩]
      exact Nat.one_pos
    · exact ⟨_, _, rfl, rfl, Or.inl (Nat.lt_succ_self _)⟩
  | spin timeout spin =>
    cases spin with
    | zero => exact ⟨s, _, rfl, rfl, Or.inl (Nat.lt_succ_self _)⟩
    | succ spin =>
      simp only [nextWait]
      split_ifs
      · refine ⟨_, _, rfl, rfl, Or.inl ?_⟩
        simp only [aheadAfter, ahead]
        omega
      · refine ⟨_, _, rfl, rfl, Or.inl ?_⟩
        simp only [aheadAfter, ahead]
        omega
  | spinExchange timeout spin oldCount =>
    simp only [nextWait]
    split_ifs
    · exact ⟨_, _, rfl, rfl, Or.inl (Nat.succ_pos _)⟩
    · exact ⟨_, _, rfl, rfl, Or.inl (Nat.lt_succ_self _)⟩
  | decrement timeout =>
    obtain rfl : timeout = -1 := patient
    simp only [nextWait]
    split_ifs with positive instant
    · exact ⟨_, _, rfl, rfl, Or.inl (Nat.succ_pos _)⟩
    · exact absurd instant (by decide)
    · exact ⟨_, _, rfl, rfl, Or.inl (Nat.lt_succ_self _)⟩
  | sleep =>
    obtain ⟨count, posted⟩ := Nat.exists_eq_succ_of_ne_zero (awake rfl)
    simp only [nextWait, posted, Bool.false_eq_true, if_false]
    exact ⟨_, _, rfl, rfl, Or.inl (Nat.succ_pos _)⟩
  | adjust =>
    simp only [nextWait]
    split_ifs with nonneg
    · refine ⟨_, _, rfl, rfl, Or.inr ⟨rfl, _, rfl, rfl, ?_⟩⟩
      simp only [behind, if_neg (owed rfl nonneg)]
      exact Nat.one_pos
    · refine ⟨_, _, rfl, rfl, Or.inr ⟨rfl, _, rfl, rfl, ?_⟩⟩
      simp only [behind, if_true]
      exact Nat.one_pos
  | adjustTake =>
    cases posted : s.m_sema with
    | zero =>
      simp only [nextWait, posted]
      refine ⟨_, _, rfl, rfl, Or.inr ⟨rfl, _, rfl, rfl, ?_⟩⟩
      simp only [behind, posted, if_true]
      exact Nat.one_lt_two
    | succ count =>
      simp only [nextWait, posted]
      exact ⟨_, _, rfl, rfl, Or.inl (Nat.succ_pos _)⟩
  | adjustExchange oldCount =>
    simp only [nextWait]
    split_ifs with seen
    · exact ⟨_, _, rfl, rfl, Or.inl (Nat.lt_succ_self _)⟩
    · refine ⟨_, _, rfl, rfl, Or.inr ⟨rfl, _, rfl, rfl, ?_⟩⟩
      simp only [behind, if_neg seen]
      exact Nat.one_lt_two

/-- The accesses that a call of `signal` has ahead of it. -/
def signalAhead : SignalCall → ℕ
  | .add count => count + 2
  | .post left => left + 1

theorem intOfSsize_le {n : ℤ} (nonneg : 0 ≤ n) : intOfSsize n ≤ n := by
  have wraps : n.bmod (2 ^ 32) = if n % 2 ^ 32 < 2 ^ 31 then n % 2 ^ 32
      else n % 2 ^ 32 - 2 ^ 32 := Int.bmod_def n (2 ^ 32)
  unfold intOfSsize
  rw [wraps]
  split_ifs <;> omega

theorem nextSignal_lowers (call : SignalCall) :
    (s.nextSignal call).1.m_maxSpins = s.m_maxSpins ∧
      ∀ call', (s.nextSignal call).2 = some call' → signalAhead call' < signalAhead call := by
  cases call with
  | add count =>
    simp only [nextSignal]
    split_ifs with positive
    · refine ⟨rfl, fun call' goesOn => ?_⟩
      cases goesOn
      have least : toRelease s.m_count count ≤ count := by
        unfold toRelease
        split_ifs <;> omega
      have converted := intOfSsize_le (Int.le_of_lt positive)
      simp only [signalAhead]
      omega
    · refine ⟨rfl, fun call' goesOn => ?_⟩
      cases goesOn
  | post left =>
    cases left with
    | zero =>
      refine ⟨rfl, fun call' goesOn => ?_⟩
      cases goesOn
    | succ left =>
      refine ⟨rfl, fun call' goesOn => ?_⟩
      cases goesOn
      exact Nat.lt_succ_self _

theorem signalAhead_pos (call : SignalCall) : 0 < signalAhead call := by
  cases call with
  | add count => exact Nat.succ_pos _
  | post left => exact Nat.succ_pos _

end LightweightSemaphore

namespace QueuedTaskExecutor

open BlockingConcurrentQueue LightweightSemaphore
open QueueThreads (isSignal claiming ongoing)

variable {n : ℕ} {α : Type} {e e' : QueuedTaskExecutor n α} {a : Action n} {i : Fin n}
  {maxSpins : ℕ} {thread_count : ℤ} {script : List α}

/-! ## The weight of a state -/

/-- What a worker in a call of `wait_dequeue` has ahead of it. -/
def callAhead (spins : ℕ) : QueueCall (Option α) → ℕ
  | .acquire _ call => ahead spins call
  | .retry => 2 * spins + 6
  | _ => 0

def workerAhead (spins : ℕ) : WorkerState α → Option (QueueCall (Option α)) → ℕ
  | .waiting, none => 2 * spins + 8
  | .waiting, some call => callAhead spins call
  | .executing _, _ => 2 * spins + 9
  | .exited, _ => 0

/-- The thread that enqueues has more ahead of it than the element that it hands over gives to a
worker. -/
def enqueueAhead (spins : ℕ) : Option (QueueCall (Option α)) → ℕ
  | none => 2 * spins + 15
  | some (.enqueue _) => 2 * spins + 14
  | some (.signal call) => signalAhead call
  | _ => 0

def producerAhead (n spins : ℕ) : Producer α → ℕ
  | .adding script => (2 * spins + 15) * (n + script.length) + n + 3
  | .enqueuing left => (2 * spins + 15) * left + n + 2
  | .joining thread => n - thread + 1
  | .returned => 0

def threadAhead (spins : ℕ) (e : QueuedTaskExecutor n α) : Option (Fin n) → ℕ
  | none => producerAhead n spins e.producer + enqueueAhead spins (e.tasks.call none)
  | some i => workerAhead spins (e.worker i) (e.tasks.call (some i))

def spins (e : QueuedTaskExecutor n α) : ℕ := e.tasks.queue.sema.m_maxSpins

/-- What the threads have ahead of them, with what the elements of the queue will give them. -/
def rank (e : QueuedTaskExecutor n α) : ℕ :=
  (2 * e.spins + 10) * e.tasks.queue.inner.length + ∑ i, threadAhead e.spins e i

def callBehind (s : LightweightSemaphore) : Option (QueueCall (Option α)) → ℕ
  | some (.acquire _ call) => s.behind call
  | _ => 0

/-- How far the calls are behind the semaphore. -/
def lag (e : QueuedTaskExecutor n α) : ℕ :=
  total (callBehind e.tasks.queue.sema) e.tasks.call

def weight (e : QueuedTaskExecutor n α) : ℕ ×ₗ ℕ := toLex (e.rank, e.lag)

/-- The action is a failure of the kernel's wait, of a weak exchange or of an allocation. -/
def Action.Fails : Action n → Prop
  | .access _ .fails => True
  | _ => False

/-- Some thread can take a step that is not a failure and that lowers the weight. -/
def Advances (e : QueuedTaskExecutor n α) : Prop :=
  ∃ a e', ¬ a.Fails ∧ Step e a e' ∧ e'.weight < e.weight

/-- A step after which one thread has less ahead of it. -/
theorem advances_of_rank (step : Step e a e') (fine : ¬ a.Fails) (thread : Option (Fin n))
    (spins : e'.spins = e.spins) (worker : ∀ i, some i ≠ thread → e'.worker i = e.worker i)
    (calls : ∀ j ≠ thread, e'.tasks.call j = e.tasks.call j)
    (producer : thread ≠ none → e'.producer = e.producer)
    (lower : (2 * e.spins + 10) * e'.tasks.queue.inner.length + threadAhead e.spins e' thread <
      (2 * e.spins + 10) * e.tasks.queue.inner.length + threadAhead e.spins e thread) :
    Advances e := by
  have others : ∀ j ≠ thread, threadAhead e.spins e' j = threadAhead e.spins e j := by
    intro j other
    cases j with
    | none => simp only [threadAhead, calls none other, producer other.symm]
    | some i => simp only [threadAhead, calls (some i) other, worker i other]
  have sums := sum_add_of_others others
  refine ⟨a, e', fine, step, Prod.Lex.toLex_lt_toLex.mpr (Or.inl ?_)⟩
  unfold rank
  rw [spins]
  dsimp only
  omega

/-- A step of the thread that enqueues. -/
theorem advances_of_owner {call : Option (QueueCall (Option α))} (step : Step e a e')
    (fine : ¬ a.Fails) (spins : e'.spins = e.spins) (worker : e'.worker = e.worker)
    (calls : e'.tasks.call = Function.update e.tasks.call none call)
    (lower : (2 * e.spins + 10) * e'.tasks.queue.inner.length +
        (producerAhead n e.spins e'.producer + enqueueAhead e.spins call) <
      (2 * e.spins + 10) * e.tasks.queue.inner.length +
        (producerAhead n e.spins e.producer + enqueueAhead e.spins (e.tasks.call none))) :
    Advances e := by
  refine advances_of_rank step fine none spins (fun i _ => congrFun worker i) ?_
    (fun other => absurd rfl other) ?_
  · intro j other
    rw [calls, Function.update_of_ne other]
  · simp only [threadAhead, calls, Function.update_self]
    exact lower

/-- A step of a worker. -/
theorem advances_of_own {state : WorkerState α} {call : Option (QueueCall (Option α))}
    (step : Step e a e') (fine : ¬ a.Fails) (spins : e'.spins = e.spins)
    (worker : e'.worker = Function.update e.worker i state)
    (calls : e'.tasks.call = Function.update e.tasks.call (some i) call)
    (producer : e'.producer = e.producer)
    (lower : (2 * e.spins + 10) * e'.tasks.queue.inner.length + workerAhead e.spins state call <
      (2 * e.spins + 10) * e.tasks.queue.inner.length +
        workerAhead e.spins (e.worker i) (e.tasks.call (some i))) : Advances e := by
  refine advances_of_rank step fine (some i) spins ?_ ?_ (fun _ => producer) ?_
  · intro j other
    rw [worker, Function.update_of_ne (fun same => other (congrArg some same))]
  · intro j other
    rw [calls, Function.update_of_ne other]
  · simp only [threadAhead, worker, calls, Function.update_self]
    exact lower

/-- A step that leaves the semaphore as it is and brings one call up to date. -/
theorem advances_of_lag {call : Option (QueueCall (Option α))}
    (step : Step e a (e.within (some i) e.tasks.queue.sema call)) (fine : ¬ a.Fails)
    (same : workerAhead e.spins (e.worker i) call =
      workerAhead e.spins (e.worker i) (e.tasks.call (some i)))
    (lower : callBehind e.tasks.queue.sema call <
      callBehind e.tasks.queue.sema (e.tasks.call (some i))) : Advances e := by
  refine ⟨a, _, fine, step, Prod.Lex.toLex_lt_toLex.mpr (Or.inr ⟨?_, ?_⟩)⟩
  · have sums : ∑ j, threadAhead e.spins (e.within (some i) e.tasks.queue.sema call) j =
        ∑ j, threadAhead e.spins e j := by
      apply Finset.sum_congr rfl
      intro j _
      cases j with
      | none =>
        simp only [threadAhead, within, Function.update_of_ne (Option.some_ne_none i).symm]
      | some j =>
        rcases eq_or_ne j i with rfl | other
        · simp only [threadAhead, within, Function.update_self, same]
        · have different : some j ≠ some i := fun eq => other (Option.some.inj eq)
          simp only [threadAhead, within, Function.update_of_ne different]
    exact congrArg ((2 * e.spins + 10) * e.tasks.queue.inner.length + ·) sums
  · have moved := total_update (callBehind e.tasks.queue.sema) e.tasks.call (some i) call
    show total (callBehind e.tasks.queue.sema) (Function.update e.tasks.call (some i) call) <
      total (callBehind e.tasks.queue.sema) e.tasks.call
    omega

/-! ## Accesses -/

theorem returned_tasks (i : Option (Fin n)) (result : QueueResult (Option α)) :
    (e.returned i result).tasks = e.tasks := by
  unfold returned
  split <;> rfl

theorem access_ongoing {i : Option (Fin n)} {chance : Chance (Option (Fin n))}
    {call call' : QueueCall (Option α)} {q : BlockingConcurrentQueue (Option (Fin n)) (Option α)}
    (current : e.tasks.call i = some call) (allocated : outOfMemory chance call = false)
    (accessed : e.tasks.queue.next i chance call = some (q, .inl call')) :
    Step e (.access i chance)
      { e with tasks := ⟨q, Function.update e.tasks.call i (some call')⟩ } := by
  simp only [Step, next, current, allocated, accessed]
  rfl

theorem access_returned {i : Option (Fin n)} {chance : Chance (Option (Fin n))}
    {call : QueueCall (Option α)} {q : BlockingConcurrentQueue (Option (Fin n)) (Option α)}
    {result : QueueResult (Option α)} (current : e.tasks.call i = some call)
    (allocated : outOfMemory chance call = false)
    (accessed : e.tasks.queue.next i chance call = some (q, .inr result)) :
    Step e (.access i chance) (returned
      { e with tasks := ⟨q, Function.update e.tasks.call i none⟩ } i result) := by
  simp only [Step, next, current, allocated, accessed]
  rfl

/-- The calls of the threads are steps of the queue. -/
theorem tasks_step (step : Step e a e') :
    e'.tasks = e.tasks ∨ ∃ b, QueueThreads.Step e.tasks b e'.tasks := by
  cases a with
  | call i =>
    right
    obtain ⟨call, begins, started⟩ := Option.bind_eq_some_iff.mp step
    obtain ⟨tasks, start, rfl⟩ := Option.map_eq_some_iff.mp started
    cases i with
    | none =>
      obtain ⟨item, rfl⟩ := nextCall_owner begins
      exact ⟨.enqueue none item, start⟩
    | some i =>
      simp only [nextCall] at begins
      split at begins
      case h_1 =>
        cases begins
        exact ⟨.wait_dequeue (some i), start⟩
      case h_2 => cases begins
  | access i chance =>
    right
    refine ⟨.access i chance, ?_⟩
    simp only [Step, next] at step
    cases current : e.tasks.call i with
    | none =>
      rw [current] at step
      cases step
    | some call =>
      simp only [current] at step
      split_ifs at step
      obtain ⟨⟨q, after⟩, accessed, rfl⟩ := Option.map_eq_some_iff.mp step
      simp only [QueueThreads.Step, QueueThreads.next, current, accessed, Option.map_some]
      rcases after with c | result
      · rfl
      · rw [returned_tasks]
  | finish i =>
    left
    simp only [Step, next] at step
    split at step
    case h_1 =>
      cases step
      rfl
    case h_2 => cases step
  | stop_all =>
    left
    simp only [Step, next] at step
    split_ifs at step
    all_goals
      cases step
      rfl
  | sentinelsEnqueued =>
    left
    simp only [Step, next] at step
    split at step
    case h_1 =>
      cases step
      rfl
    case h_2 => cases step
  | join =>
    left
    simp only [Step, next] at step
    split at step
    case h_1 =>
      split_ifs at step
      all_goals
        cases step
        rfl
    case h_2 => cases step

theorem tasks_reachable (h : Reachable (Initial maxSpins thread_count script) Step e) :
    Reachable (QueueThreads.Initial maxSpins) QueueThreads.Step e.tasks := by
  apply h.simulates tasks
  · rintro e ⟨-, -, rfl⟩
    rfl
  · intro e a e' _ step
    exact tasks_step step

/-- The threads are the workers and the one that enqueues. -/
theorem card_threads_lt (few : n + 1 < 2 ^ 31) : Fintype.card (Option (Fin n)) < 2 ^ 31 := by
  rw [Fintype.card_option, Fintype.card_fin]
  exact few

/-! ## The thread that enqueues -/

/-- `enqueue` returns, and `add_task` or an iteration of the loop of `stop_all` with it. -/
theorem producerAhead_afterEnqueue {item : Option α} (spins : ℕ)
    (begins : e.nextCall none = some (.enqueue item)) :
    producerAhead n spins (afterEnqueue e.producer) + (2 * spins + 15) =
      producerAhead n spins e.producer := by
  simp only [nextCall] at begins
  split at begins
  case h_1 task script producer =>
    simp only [producer, afterEnqueue, producerAhead, List.length_cons, Nat.mul_add, Nat.mul_one]
    omega
  case h_2 left producer =>
    simp only [producer, afterEnqueue, producerAhead, Nat.mul_succ]
    omega
  case h_3 => cases begins

/-- The thread that enqueues calls `enqueue`. -/
theorem advances_of_begin {item : Option α} (free : e.tasks.call none = none)
    (begins : e.nextCall none = some (.enqueue item)) : Advances e := by
  have step : Step e (.call none) (e.within none e.tasks.queue.sema (some (.enqueue item))) := by
    simp only [Step, next, begins, Option.bind_some, QueueThreads.start, free, if_true,
      Option.map_some]
    rfl
  apply advances_of_owner step id rfl rfl rfl
  simp only [within, free, enqueueAhead]
  omega

theorem advances_of_enqueue {item : Option α}
    (current : e.tasks.call none = some (.enqueue item)) : Advances e := by
  have accessed : e.tasks.queue.next none .plain (.enqueue item) =
      some (e.tasks.queue.enqueueInner none item, .inl (.signal (.add 1))) := rfl
  have step := access_ongoing current rfl accessed
  apply advances_of_owner step id rfl rfl rfl
  simp only [current, enqueueAhead, signalAhead, enqueueInner, List.length_append,
    List.length_singleton, Nat.mul_add, Nat.mul_one]
  omega

theorem advances_of_signal {item : Option α} {c : SignalCall}
    (begins : e.nextCall none = some (.enqueue item))
    (current : e.tasks.call none = some (.signal c)) : Advances e := by
  obtain ⟨spins, lower⟩ := @nextSignal_lowers e.tasks.queue.sema c
  cases after : (e.tasks.queue.sema.nextSignal c).2 with
  | none =>
    have accessed : e.tasks.queue.next none .plain (.signal c) =
        some ({ e.tasks.queue with sema := (e.tasks.queue.sema.nextSignal c).1 },
          .inr (.enqueued true)) := by
      simp only [BlockingConcurrentQueue.next, after]
      rfl
    have step := access_returned current rfl accessed
    have ended := producerAhead_afterEnqueue e.spins begins
    have positive := signalAhead_pos c
    apply advances_of_owner step id spins rfl rfl
    simp only [returned, current, enqueueAhead]
    omega
  | some c' =>
    have accessed : e.tasks.queue.next none .plain (.signal c) =
        some ({ e.tasks.queue with sema := (e.tasks.queue.sema.nextSignal c).1 },
          .inl (.signal c')) := by
      simp only [BlockingConcurrentQueue.next, after]
      rfl
    have step := access_ongoing current rfl accessed
    have less := lower c' after
    apply advances_of_owner step id spins rfl rfl
    simp only [current, enqueueAhead]
    omega

/-- A step of the thread that enqueues, outside its calls. -/
theorem advances_of_producer (step : Step e a e') (fine : ¬ a.Fails) (tasks : e'.tasks = e.tasks)
    (worker : e'.worker = e.worker)
    (lower : producerAhead n e.spins e'.producer < producerAhead n e.spins e.producer) :
    Advances e := by
  refine advances_of_rank step fine none (by rw [spins, tasks, spins]) (fun i _ => by rw [worker])
    (fun j _ => by rw [tasks]) (fun other => absurd rfl other) ?_
  simp only [threadAhead, tasks]
  omega

/-! ## The workers -/

/-- A worker calls `wait_dequeue`. -/
theorem advances_of_call (waiting : e.worker i = .waiting) (free : e.tasks.call (some i) = none) :
    Advances e := by
  have begins : e.nextCall (some i) = some (.acquire true (.load (some (-1)))) := by
    simp only [nextCall, waiting]
  have step : Step e (.call (some i))
      (e.within (some i) e.tasks.queue.sema (some (.acquire true (.load (some (-1)))))) := by
    simp only [Step, next, begins, Option.bind_some, QueueThreads.start, free, if_true,
      Option.map_some]
    rfl
  apply advances_of_own step id rfl (Function.update_eq_self i e.worker).symm rfl rfl
  simp only [within, waiting, free, workerAhead, callAhead, ahead]
  omega

/-- An access to the semaphore, unless the worker sleeps or is owed a post that is not there. -/
theorem advances_of_wait (waiting : e.worker i = .waiting) {c : WaitCall}
    (current : e.tasks.call (some i) = some (.acquire true c)) (patient : Patient c)
    (awake : c = .sleep → e.tasks.queue.sema.m_sema ≠ 0)
    (owed : c = .adjust → 0 ≤ e.tasks.queue.sema.m_count → e.tasks.queue.sema.m_sema ≠ 0) :
    Advances e := by
  obtain ⟨sema, result, accessed, lowers⟩ := nextWait_lowers patient awake owed
  obtain ⟨call', goesOn, same⟩ : ∃ call' : QueueCall (Option α),
      afterWait true result = .inl call' ∧ callAhead e.spins call' = aheadAfter e.spins result := by
    rcases result with c' | granted
    · exact ⟨_, rfl, rfl⟩
    · cases granted
      · exact ⟨_, rfl, rfl⟩
      · exact ⟨_, rfl, rfl⟩
  have access : e.tasks.queue.next (some i) .plain (.acquire true c) =
      some ({ e.tasks.queue with sema := sema }, .inl call') := by
    show (e.tasks.queue.sema.nextWait false c).map _ = _
    rw [accessed, Option.map_some, goesOn]
  have step := access_ongoing current rfl access
  rcases lowers.lower with less | ⟨rfl, c', rfl, level, less⟩
  · apply advances_of_own step id lowers.spins (Function.update_eq_self i e.worker).symm rfl rfl
    simp only [waiting, current, workerAhead, same]
    exact Nat.add_lt_add_left less _
  · cases goesOn
    refine advances_of_lag step id ?_ ?_
    · rw [current, waiting]
      exact level
    · rw [current]
      exact less

theorem advances_of_retry (waiting : e.worker i = .waiting)
    (current : e.tasks.call (some i) = some .retry) : Advances e := by
  have accessed : e.tasks.queue.next (some i) .plain .retry =
      some (e.tasks.queue, .inl (.acquire true (.load (some (-1))))) := rfl
  have step := access_ongoing current rfl accessed
  apply advances_of_own step id rfl (Function.update_eq_self i e.worker).symm rfl rfl
  simp only [waiting, current, workerAhead, callAhead, ahead]
  omega

/-- A worker that got past the semaphore finds its element. -/
theorem advances_of_dequeue (few : n + 1 < 2 ^ 31)
    (h : Reachable (Initial maxSpins thread_count script) Step e)
    (current : e.tasks.call (some i) = some .dequeue) : Advances e := by
  have waiting := ((callsInv_reachable h).worker i _ current).1
  have claims := QueueThreads.claims_le (card_threads_lt few) (tasks_reachable h)
  have one := le_total claiming e.tasks.call (some i)
  rw [current] at one
  cases front : e.tasks.queue.inner with
  | nil =>
    rw [front] at claims
    exact absurd (one.trans claims) (Nat.not_succ_le_zero 0)
  | cons entry rest =>
    obtain ⟨p, item⟩ := entry
    obtain rfl : p = none := (callsInv_reachable h).single _ (front ▸ List.mem_cons_self)
    have accessed : e.tasks.queue.next (some i) (.finds none) .dequeue =
        some ({ e.tasks.queue with
          inner := rest, dequeued := e.tasks.queue.dequeued ++ [(none, item)] },
          .inr (.dequeued item)) := by
      simp only [BlockingConcurrentQueue.next, tryDequeueInner, front, takeFrom, if_true,
        Option.map_some]
    have step := access_returned current rfl accessed
    cases item with
    | none =>
      apply advances_of_own step id rfl rfl rfl rfl
      simp only [returned, waiting, current, workerAhead, callAhead, front, List.length_cons,
        Nat.mul_add, Nat.mul_one]
      omega
    | some task =>
      apply advances_of_own step id rfl rfl rfl rfl
      simp only [returned, waiting, current, workerAhead, callAhead, front, List.length_cons,
        Nat.mul_add, Nat.mul_one]
      omega

theorem advances_of_finish {task : α} (free : e.tasks.call (some i) = none)
    (running : e.worker i = .executing task) : Advances e := by
  have step : Step e (.finish i) { e with
      worker := Function.update e.worker i .waiting, executed := e.executed ++ [task] } := by
    simp only [Step, next, running]
  apply advances_of_own step id rfl rfl (Function.update_eq_self (some i) e.tasks.call).symm rfl
  simp only [running, free, workerAhead]
  omega

/-! ## Waiting workers -/

/-- While the thread that enqueues is in no call, nothing is being posted. -/
theorem silent (h : CallsInv e) (owner : e.tasks.call none = none) (j : Option (Fin n)) :
    isSignal (e.tasks.call j) = false := by
  cases current : e.tasks.call j with
  | none => rfl
  | some call =>
    cases j with
    | none =>
      rw [owner] at current
      cases current
    | some j => exact isSignal_of_consumes (h.worker j call current).2

/-- Once `m_count` has counted a worker in that re-adjusts it, the post for the worker is there. -/
theorem posted_of_adjust (few : n + 1 < 2 ^ 31)
    (h : Reachable (Initial maxSpins thread_count script) Step e)
    (owner : e.tasks.call none = none) {again : Bool}
    (current : e.tasks.call (some i) = some (.acquire again .adjust))
    (counted : 0 ≤ e.tasks.queue.sema.m_count) : e.tasks.queue.sema.m_sema ≠ 0 := by
  have balance := (SemaphoreThreads.inv_reachable (card_threads_lt few)
    (QueueThreads.toSemaphore_reachable (tasks_reachable h))).balance
  have posts : total SemaphoreThreads.posting e.tasks.toSemaphore.call = 0 :=
    total_eq_zero_iff.mpr fun j =>
      (QueueThreads.silent_call (silent (callsInv_reachable h) owner j)).2
  have one := le_total SemaphoreThreads.waiting e.tasks.toSemaphore.call (some i)
  have waits : SemaphoreThreads.waiting (e.tasks.toSemaphore.call (some i)) = 1 := by
    show SemaphoreThreads.waiting ((e.tasks.call (some i)).bind QueueThreads.semaphoreCall) = 1
    rw [current]
    rfl
  have sema : e.tasks.toSemaphore.sema = e.tasks.queue.sema := rfl
  rw [sema] at balance
  omega

/-- While a worker has not taken its sentinel, the queue is not empty. -/
theorem inner_ne_nil (h : Reachable (Initial maxSpins thread_count script) Step e)
    (owner : e.tasks.call none = none) {thread : ℕ} (producer : e.producer = .joining thread)
    (notExited : e.worker i ≠ .exited) : e.tasks.queue.inner ≠ [] := by
  obtain ⟨pending, k, acc⟩ := (TaskExecutor.inv_reachable (refines_taskExecutor h)).queue
  have others : TaskExecutor.exitedCount n e.toTaskExecutor.worker < n := by
    apply TaskExecutor.exitedCount_lt i.isLt
    rwa [toTaskExecutor_worker]
  have outside : e.toTaskExecutor.producer = .joining thread := by
    rw [toTaskExecutor_producer (by rw [owner]; rfl), producer]
  have all : e.toTaskExecutor.enqueued = n := by
    rw [TaskExecutor.enqueued, outside]
    rfl
  have sentinels := acc.everySentinel
  rw [all] at sentinels
  have size := congrArg List.length acc.tasks
  rw [List.length_append, List.length_replicate] at size
  intro empty
  have none : e.toTaskExecutor.tasks = [] := by
    show e.tasks.queue.inner.map Prod.snd = []
    rw [empty]
    rfl
  rw [none, List.length_nil] at size
  have count : k + TaskExecutor.exitedCount n e.toTaskExecutor.worker = n := sentinels
  omega

/-- A worker that sleeps without a wakeup on its way: all elements are claimed, and there is one. -/
theorem advances_of_asleep (few : n + 1 < 2 ^ 31)
    (h : Reachable (Initial maxSpins thread_count script) Step e)
    (owner : e.tasks.call none = none) (nonempty : e.tasks.queue.inner ≠ []) {again : Bool}
    (asleep : e.tasks.call (some i) = some (.acquire again .sleep))
    (unposted : e.tasks.queue.sema.m_sema = 0) : Advances e := by
  have claimed := QueueThreads.asleep_all_claimed (card_threads_lt few) (tasks_reachable h) asleep
    unposted (silent (callsInv_reachable h) owner)
  have some_claim : total claiming e.tasks.call ≠ 0 := by
    rw [← claimed]
    exact fun empty => nonempty (List.length_eq_zero_iff.mp empty)
  obtain ⟨j, claims⟩ := exists_ne_zero_of_total some_claim
  have current := QueueThreads.eq_dequeue_of_claiming claims
  cases j with
  | none =>
    rw [owner] at current
    cases current
  | some j => exact advances_of_dequeue few h current

/-- While a worker is joined that has not exited, it or another one advances. -/
theorem advances_of_worker (few : n + 1 < 2 ^ 31)
    (h : Reachable (Initial maxSpins thread_count script) Step e)
    (owner : e.tasks.call none = none) {thread : ℕ} (producer : e.producer = .joining thread)
    (notExited : e.worker i ≠ .exited) : Advances e := by
  have inv := callsInv_reachable h
  cases state : e.worker i with
  | exited => exact absurd state notExited
  | executing task =>
    cases current : e.tasks.call (some i) with
    | none => exact advances_of_finish current state
    | some call =>
      have waiting := (inv.worker i call current).1
      rw [state] at waiting
      cases waiting
  | waiting =>
    cases current : e.tasks.call (some i) with
    | none => exact advances_of_call state current
    | some call =>
      have consumes := (inv.worker i call current).2
      cases call with
      | enqueue item => cases consumes
      | signal c => cases consumes
      | retry => exact advances_of_retry state current
      | dequeue => exact advances_of_dequeue few h current
      | acquire again c =>
        obtain ⟨rfl, patient⟩ := consumes
        by_cases blocked : c = .sleep ∧ e.tasks.queue.sema.m_sema = 0
        · obtain ⟨rfl, unposted⟩ := blocked
          exact advances_of_asleep few h owner (inner_ne_nil h owner producer notExited) current
            unposted
        · apply advances_of_wait state current patient
          · exact fun asleep unposted => blocked ⟨asleep, unposted⟩
          · rintro rfl counted
            exact posted_of_adjust few h owner current counted

/-! ## Progress -/

/-- The threads do not wait for each other for ever: a worker that is joined and sleeps would leave
its sentinel in the queue, unclaimed. -/
theorem advances (few : n + 1 < 2 ^ 31)
    (h : Reachable (Initial maxSpins thread_count script) Step e)
    (running : e.producer ≠ .returned) : Advances e := by
  have inv := callsInv_reachable h
  cases owner : e.tasks.call none with
  | some call =>
    obtain ⟨item, begins, rfl | ⟨c, rfl⟩⟩ := inv.owner call owner
    · exact advances_of_enqueue owner
    · exact advances_of_signal begins owner
  | none =>
    cases producer : e.producer with
    | returned => exact absurd producer running
    | adding script =>
      cases script with
      | nil =>
        have step : Step e .stop_all (if e.kill_threads then { e with producer := .returned }
            else { e with kill_threads := true, producer := .enqueuing n }) := by
          simp only [Step, next, producer]
          split_ifs <;> rfl
        split_ifs at step
        · refine advances_of_producer step id rfl rfl ?_
          rw [producer]
          exact Nat.succ_pos _
        · refine advances_of_producer step id rfl rfl ?_
          rw [producer]
          simp only [producerAhead, List.length_nil, Nat.add_zero]
          omega
      | cons task script =>
        have begins : e.nextCall none = some (.enqueue (some task)) := by
          simp only [nextCall, producer]
        exact advances_of_begin owner begins
    | enqueuing left =>
      cases left with
      | zero =>
        have step : Step e .sentinelsEnqueued { e with producer := .joining 0 } := by
          simp only [Step, next, producer]
        refine advances_of_producer step id rfl rfl ?_
        rw [producer]
        simp only [producerAhead]
        omega
      | succ left =>
        have begins : e.nextCall none = some (.enqueue none) := by simp only [nextCall, producer]
        exact advances_of_begin owner begins
    | joining thread =>
      by_cases more : thread < n
      · by_cases ended : e.worker ⟨thread, more⟩ = .exited
        · have step : Step e .join { e with producer := .joining (thread + 1) } := by
            simp only [Step, next, producer, more, ended]
            rfl
          refine advances_of_producer step id rfl rfl ?_
          rw [producer]
          simp only [producerAhead]
          omega
        · exact advances_of_worker few h owner producer ended
      · have step : Step e .join { e with producer := .returned } := by
          simp only [Step, next, producer, more]
          rfl
        refine advances_of_producer step id rfl rfl ?_
        rw [producer]
        exact Nat.succ_pos _

/-- No state is a deadlock: from every one the threads can bring `stop_all` to its return without a
failure, with every task executed once and every worker gone. -/
theorem stop_all_returns (few : n + 1 < 2 ^ 31)
    (h : Reachable (Initial maxSpins thread_count script) Step e) :
    ∃ as e', (∀ a ∈ as, ¬ a.Fails) ∧ run next e as = some e' ∧ e'.producer = .returned ∧
      e'.executed.Perm script ∧ ∀ i, e'.worker i = .exited := by
  obtain ⟨as, e', fine, ran, reachable, returned⟩ := @exists_run_to_goal _ _ next
    (fun a => ¬ a.Fails) (Reachable (Initial maxSpins thread_count script) Step) e _ _ _ weight
    (fun e => e.producer = .returned)
    (fun e reachable running => by
      obtain ⟨a, e', fine, step, lower⟩ := advances few reachable running
      exact ⟨a, e', fine, step, reachable.next step, lower⟩) h
  have outside : e'.toTaskExecutor.producer = .returned := by
    have idle : isSignal (e'.tasks.call none) = false :=
      isSignal_of_idle (callsInv_reachable reachable) (by simp [nextCall, returned])
    rw [toTaskExecutor_producer idle, returned]
  obtain ⟨executed, exited, -⟩ :=
    (TaskExecutor.inv_reachable (refines_taskExecutor reachable)).of_returned outside
  refine ⟨as, e', fine, ran, returned, executed, ?_⟩
  intro i
  rw [← toTaskExecutor_worker]
  exact exited i i.isLt

/-- Both workers have gone to sleep, the wait of worker `1` has failed, and `stop_all` is joining. -/
theorem stop_all_returns_asleep :
    ∃ e : QueuedTaskExecutor 2 ℕ, e.producer = .joining 0 ∧
      e.tasks.call (some 0) = some (.acquire true .sleep) ∧
      e.tasks.call (some 1) = some (.acquire true .adjust) ∧
      ∃ as e', (∀ a ∈ as, ¬ a.Fails) ∧ run next e as = some e' ∧ e'.producer = .returned ∧
        e'.executed.Perm [7, 8] ∧ ∀ i, e'.worker i = .exited := by
  have started : Initial 0 2 [7, 8]
      { tasks := { queue := .create 0 }, producer := .adding [7, 8] : QueuedTaskExecutor 2 ℕ } :=
    ⟨by decide, rfl, rfl⟩
  have ran : ((run next { tasks := { queue := .create 0 }, producer := .adding [7, 8] }
      ([callFor (some 0) 4, callFor (some 1) 4, [.access (some 1) .fails], callFor none 4,
        callFor none 4, [.stop_all], callFor none 2, callFor none 2, [.sentinelsEnqueued]] :
          List (List (Action 2))).flatten).any fun e => decide (e.producer = .joining 0 ∧
        e.tasks.call (some 0) = some (.acquire true .sleep) ∧
        e.tasks.call (some 1) = some (.acquire true .adjust))) = true := by
    decide +kernel
  obtain ⟨e, reachable, state⟩ := exists_reachable_of_run started ran
  obtain ⟨joining, asleep, adjusting⟩ := of_decide_eq_true state
  exact ⟨e, joining, asleep, adjusting, stop_all_returns (by decide) reachable⟩

end QueuedTaskExecutor

end Lightning
