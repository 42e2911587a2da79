import Lightning.Proof.BlockingQueue
import Lightning.Proof.Executor
import Lightning.QueuedTaskExecutor

/-!
# The executor over its queue refines the executor

A call of `enqueue` takes effect when its element is in `inner`, a call of `wait_dequeue` when its
element is taken out. Only one thread enqueues, so `inner` is first in, first out, and the queue of
`TaskExecutor` is `inner` (`refines_taskExecutor`).
-/

namespace Lightning

open Transition Threads ProducerQueue

/-! ## Families over an initial segment -/

section Extend

variable {β : Type} {n : ℕ} {default : β} {f : Fin n → β}

/-- A family over `Fin n` as one over `ℕ`. -/
def extend (default : β) (f : Fin n → β) (i : ℕ) : β := if h : i < n then f ⟨i, h⟩ else default

theorem extend_val (i : Fin n) : extend default f i = f i := dif_pos i.isLt

theorem extend_const : extend (n := n) default (fun _ => default) = fun _ => default := by
  funext i
  exact dite_eq_right_iff.mpr fun _ => rfl

theorem extend_update (i : Fin n) (x : β) :
    extend default (Function.update f i x) = Function.update (extend default f) i x := by
  funext j
  unfold extend
  by_cases bound : j < n
  · rcases eq_or_ne j i with rfl | other
    · rw [dif_pos bound, Function.update_self, Function.update_self]
    · have different : (⟨j, bound⟩ : Fin n) ≠ i := fun same => other (congrArg Fin.val same)
      rw [dif_pos bound, Function.update_of_ne other, dif_pos bound,
        Function.update_of_ne different]
  · have other : j ≠ i := fun same => bound (same ▸ i.isLt)
    rw [dif_neg bound, Function.update_of_ne other, dif_neg bound]

end Extend

namespace QueuedTaskExecutor

open BlockingConcurrentQueue
open QueueThreads (isSignal)

variable {n : ℕ} {α : Type} {e e' : QueuedTaskExecutor n α} {a : Action n} {i : Fin n}
  {maxSpins : ℕ} {thread_count : ℤ} {script : List α}

/-! ## Steps -/

/-- The call of `wait` has no timeout. -/
def Patient : WaitCall → Prop
  | .load timeout => timeout = some (-1)
  | .exchange timeout _ => timeout = some (-1)
  | .spin timeout _ => timeout = -1
  | .spinExchange timeout _ _ => timeout = -1
  | .decrement timeout => timeout = -1
  | _ => True

theorem patient_nextWait {s s' : LightweightSemaphore} {fails : Bool} {call call' : WaitCall}
    (patient : Patient call) (step : s.nextWait fails call = some (s', .inl call')) :
    Patient call' := by
  cases call with
  | load timeout =>
    cases step
    exact patient
  | exchange timeout oldCount =>
    obtain rfl : timeout = some (-1) := patient
    simp only [LightweightSemaphore.nextWait] at step
    split_ifs at step
    · cases step
    · cases step
      rfl
    · cases step
      rfl
  | spin timeout spin =>
    cases spin with
    | zero =>
      cases step
      exact patient
    | succ spin =>
      simp only [LightweightSemaphore.nextWait] at step
      split_ifs at step
      all_goals
        cases step
        exact patient
  | spinExchange timeout spin oldCount =>
    simp only [LightweightSemaphore.nextWait] at step
    split_ifs at step
    · cases step
    · cases step
      exact patient
  | decrement timeout =>
    simp only [LightweightSemaphore.nextWait] at step
    split_ifs at step
    · cases step
    · cases step
      trivial
    · cases step
      trivial
  | sleep =>
    simp only [LightweightSemaphore.nextWait] at step
    split_ifs at step
    · cases step
      trivial
    · split at step
      · cases step
      · cases step
  | adjust =>
    simp only [LightweightSemaphore.nextWait] at step
    split_ifs at step
    all_goals
      cases step
      trivial
  | adjustTake =>
    simp only [LightweightSemaphore.nextWait] at step
    split at step
    · cases step
      trivial
    · cases step
  | adjustExchange oldCount =>
    simp only [LightweightSemaphore.nextWait] at step
    split_ifs at step
    · cases step
    · cases step
      trivial

/-- A call of `wait_dequeue`. -/
def Consumes : QueueCall (Option α) → Prop
  | .acquire again call => again = true ∧ Patient call
  | .retry => True
  | .dequeue => True
  | _ => False

theorem isSignal_of_consumes {call : QueueCall (Option α)} (consumes : Consumes call) :
    isSignal (some call) = false := by
  cases call with
  | signal c => cases consumes
  | enqueue item => rfl
  | acquire again c => rfl
  | retry => rfl
  | dequeue => rfl

/-- The calls that the threads are in are those that they make. -/
structure CallsInv (e : QueuedTaskExecutor n α) : Prop where
  owner : ∀ call, e.tasks.call none = some call → ∃ item,
    e.nextCall none = some (.enqueue item) ∧ (call = .enqueue item ∨ ∃ c, call = .signal c)
  worker : ∀ i call, e.tasks.call (some i) = some call → e.worker i = .waiting ∧ Consumes call
  single : ∀ entry ∈ e.tasks.queue.inner, entry.1 = none

/-- The executor with another state of a call and of the semaphore. -/
def within (i : Option (Fin n)) (sema : LightweightSemaphore)
    (call : Option (QueueCall (Option α))) (e : QueuedTaskExecutor n α) :
    QueuedTaskExecutor n α :=
  { e with tasks := ⟨{ e.tasks.queue with sema := sema }, Function.update e.tasks.call i call⟩ }

/-- The effects of the steps, with what holds before them. -/
inductive Takes (e : QueuedTaskExecutor n α) : Action n → QueuedTaskExecutor n α → Prop
  | call (i : Option (Fin n)) (call : QueueCall (Option α)) (begins : e.nextCall i = some call)
      (free : e.tasks.call i = none) :
      Takes e (.call i) (e.within i e.tasks.queue.sema (some call))
  | enqueue (chance : Chance (Option (Fin n))) (item : Option α)
      (begins : e.nextCall none = some (.enqueue item))
      (current : e.tasks.call none = some (.enqueue item)) :
      Takes e (.access none chance) { e with
        tasks := ⟨e.tasks.queue.enqueueInner none item,
          Function.update e.tasks.call none (some (.signal (.add 1)))⟩ }
  | announce (chance : Chance (Option (Fin n))) (c c' : SignalCall) (sema : LightweightSemaphore)
      (current : e.tasks.call none = some (.signal c)) :
      Takes e (.access none chance) (e.within none sema (some (.signal c')))
  | enqueued (chance : Chance (Option (Fin n))) (c : SignalCall) (sema : LightweightSemaphore)
      (current : e.tasks.call none = some (.signal c)) :
      Takes e (.access none chance)
        { e.within none sema none with producer := afterEnqueue e.producer }
  | waits (chance : Chance (Option (Fin n))) (i : Fin n) (call : QueueCall (Option α))
      (sema : LightweightSemaphore) (waiting : e.worker i = .waiting) (consumes : Consumes call) :
      Takes e (.access (some i) chance) (e.within (some i) sema (some call))
  | dequeued (chance : Chance (Option (Fin n))) (i : Fin n) (item : Option α)
      (rest dequeued : List (Option (Fin n) × Option α)) (waiting : e.worker i = .waiting)
      (front : e.tasks.queue.inner = (none, item) :: rest) :
      Takes e (.access (some i) chance) (returned { e with
        tasks := ⟨{ e.tasks.queue with inner := rest, dequeued := dequeued },
          Function.update e.tasks.call (some i) none⟩ } (some i) (.dequeued item))
  | finish (i : Fin n) (task : α) (running : e.worker i = .executing task) :
      Takes e (.finish i)
        { e with worker := Function.update e.worker i .waiting, executed := e.executed ++ [task] }
  | stop_all (ready : e.producer = .adding [] ∨ e.producer = .returned) :
      Takes e .stop_all (if e.kill_threads then { e with producer := .returned }
        else { e with kill_threads := true, producer := .enqueuing n })
  | sentinelsEnqueued (producer : e.producer = .enqueuing 0) :
      Takes e .sentinelsEnqueued { e with producer := .joining 0 }
  | join (thread : Fin n) (producer : e.producer = .joining thread)
      (ended : e.worker thread = .exited) :
      Takes e .join { e with producer := .joining (thread + 1) }
  | joinedAll (thread : ℕ) (producer : e.producer = .joining thread) (all : n ≤ thread) :
      Takes e .join { e with producer := .returned }

theorem takes_call {i : Option (Fin n)} (step : Step e (.call i) e') : Takes e (.call i) e' := by
  obtain ⟨call, begins, started⟩ := Option.bind_eq_some_iff.mp step
  obtain ⟨tasks, start, rfl⟩ := Option.map_eq_some_iff.mp started
  unfold QueueThreads.start at start
  split_ifs at start with free
  cases start
  exact .call i call begins free

/-- An access of the thread that enqueues. -/
theorem takes_owner (h : CallsInv e) {chance : Chance (Option (Fin n))}
    (step : Step e (.access none chance) e') : Takes e (.access none chance) e' := by
  simp only [Step, next] at step
  cases current : e.tasks.call none with
  | none =>
    rw [current] at step
    cases step
  | some call =>
    rw [current] at step
    obtain ⟨item, begins, rfl | ⟨c, rfl⟩⟩ := h.owner call current
    · simp only [outOfMemory, BlockingConcurrentQueue.next] at step
      split_ifs at step
      cases step
      exact .enqueue chance item begins current
    · simp only [outOfMemory, BlockingConcurrentQueue.next, Bool.false_eq_true, if_false,
        Option.map_some] at step
      cases after : (e.tasks.queue.sema.nextSignal c).2 with
      | none =>
        rw [after] at step
        cases step
        exact .enqueued chance c _ current
      | some c' =>
        rw [after] at step
        cases step
        exact .announce chance c c' _ current

/-- An access of a worker. -/
theorem takes_worker (h : CallsInv e) {chance : Chance (Option (Fin n))}
    (step : Step e (.access (some i) chance) e') : Takes e (.access (some i) chance) e' := by
  simp only [Step, next] at step
  cases current : e.tasks.call (some i) with
  | none =>
    rw [current] at step
    cases step
  | some call =>
    rw [current] at step
    obtain ⟨waiting, consumes⟩ := h.worker i call current
    cases call with
    | enqueue item => cases consumes
    | signal c => cases consumes
    | retry =>
      cases step
      exact .waits chance i _ _ waiting ⟨rfl, rfl⟩
    | acquire again c =>
      obtain ⟨rfl, patient⟩ := consumes
      simp only [outOfMemory, BlockingConcurrentQueue.next, Bool.false_eq_true, if_false] at step
      obtain ⟨⟨q, after⟩, accessed, rfl⟩ := Option.map_eq_some_iff.mp step
      obtain ⟨⟨sema, result⟩, waited, same⟩ := Option.map_eq_some_iff.mp accessed
      cases same
      rcases result with c' | granted
      · exact .waits chance i _ _ waiting ⟨rfl, patient_nextWait patient waited⟩
      · cases granted with
        | false => exact .waits chance i _ _ waiting trivial
        | true => exact .waits chance i _ _ waiting trivial
    | dequeue =>
      simp only [outOfMemory, BlockingConcurrentQueue.next, Bool.false_eq_true, if_false] at step
      cases found : e.tasks.queue.tryDequeueInner chance with
      | none =>
        rw [found] at step
        cases step
        exact .waits chance i _ _ waiting trivial
      | some taken =>
        obtain ⟨item, q⟩ := taken
        rw [found] at step
        cases step
        obtain ⟨p, rest, front, rfl⟩ := tryDequeueInner_eq_some found
        exact .dequeued chance i item rest _ waiting (takeFrom_of_single h.single front)

theorem takes_of_step (h : CallsInv e) (step : Step e a e') : Takes e a e' := by
  cases a with
  | call i => exact takes_call step
  | access i chance =>
    cases i with
    | none => exact takes_owner h step
    | some i => exact takes_worker h step
  | finish i =>
    simp only [Step, next] at step
    split at step
    case h_1 task running =>
      cases step
      exact .finish i task running
    case h_2 => cases step
  | stop_all =>
    simp only [Step, next] at step
    have done : e' = if e.kill_threads then { e with producer := .returned }
        else { e with kill_threads := true, producer := .enqueuing n } := by
      split_ifs at step ⊢
      all_goals exact (Option.some.inj step).symm
    rw [done]
    apply Takes.stop_all
    cases producer : e.producer with
    | returned => exact Or.inr rfl
    | adding script =>
      cases script with
      | nil => exact Or.inl rfl
      | cons task script => simp [producer] at step
    | enqueuing left => simp [producer] at step
    | joining thread => simp [producer] at step
  | sentinelsEnqueued =>
    simp only [Step, next] at step
    split at step
    case h_1 producer =>
      cases step
      exact .sentinelsEnqueued producer
    case h_2 => cases step
  | join =>
    simp only [Step, next] at step
    split at step
    case h_1 thread producer =>
      split_ifs at step with more ended
      · cases step
        exact .join ⟨thread, more⟩ producer (TaskExecutor.matches_exited ended)
      · cases step
        exact .joinedAll thread producer (Nat.le_of_not_lt more)
    case h_2 => cases step

/-- A step of the thread that enqueues, within its calls. -/
theorem CallsInv.of_owner (h : CallsInv e) {call : Option (QueueCall (Option α))}
    (calls : e'.tasks.call = Function.update e.tasks.call none call) (worker : e'.worker = e.worker)
    (owner : ∀ c, call = some c → ∃ item,
      e'.nextCall none = some (.enqueue item) ∧ (c = .enqueue item ∨ ∃ signal, c = .signal signal))
    (single : ∀ entry ∈ e'.tasks.queue.inner, entry.1 = none) : CallsInv e' where
  owner := by
    rw [calls, Function.update_self]
    exact owner
  worker := by
    intro i c
    rw [calls, worker, Function.update_of_ne (Option.some_ne_none i)]
    exact h.worker i c
  single := single

/-- A step of a worker. -/
theorem CallsInv.of_worker (h : CallsInv e) {call : Option (QueueCall (Option α))}
    {state : WorkerState α} (calls : e'.tasks.call = Function.update e.tasks.call (some i) call)
    (worker : e'.worker = Function.update e.worker i state)
    (inCall : ∀ c, call = some c → state = .waiting ∧ Consumes c)
    (producer : e'.producer = e.producer)
    (single : ∀ entry ∈ e'.tasks.queue.inner, entry.1 = none) : CallsInv e' where
  owner := by
    have same : e'.nextCall none = e.nextCall none := by simp only [nextCall, producer]
    intro c
    rw [calls, same, Function.update_of_ne (Option.some_ne_none i).symm]
    exact h.owner c
  worker := by
    intro j c current
    rw [calls] at current
    rw [worker]
    rcases eq_or_ne j i with rfl | other
    · rw [Function.update_self] at current ⊢
      exact inCall c current
    · rw [Function.update_of_ne (fun same => other (Option.some.inj same))] at current
      rw [Function.update_of_ne other]
      exact h.worker j c current
  single := single

/-- A thread that has nothing to enqueue is in no call. -/
theorem CallsInv.idle (h : CallsInv e) (nothing : ∀ item, e.nextCall none ≠ some (.enqueue item)) :
    e.tasks.call none = none := by
  cases current : e.tasks.call none with
  | none => rfl
  | some call =>
    obtain ⟨item, begins, -⟩ := h.owner call current
    exact absurd begins (nothing item)

/-- A step that only moves the thread that enqueues on, outside its calls. -/
theorem CallsInv.of_producer (h : CallsInv e)
    (nothing : ∀ item, e.nextCall none ≠ some (.enqueue item)) (tasks : e'.tasks = e.tasks)
    (worker : e'.worker = e.worker) : CallsInv e' where
  owner := by
    intro call current
    rw [tasks, h.idle nothing] at current
    cases current
  worker := by
    rw [tasks, worker]
    exact h.worker
  single := by
    rw [tasks]
    exact h.single

theorem nextCall_owner {call : QueueCall (Option α)} (begins : e.nextCall none = some call) :
    ∃ item, call = .enqueue item := by
  simp only [nextCall] at begins
  split at begins
  case h_1 => exact ⟨_, (Option.some.inj begins).symm⟩
  case h_2 => exact ⟨_, (Option.some.inj begins).symm⟩
  case h_3 => cases begins

theorem nextCall_worker {call : QueueCall (Option α)} (begins : e.nextCall (some i) = some call) :
    e.worker i = .waiting ∧ Consumes call := by
  simp only [nextCall] at begins
  split at begins
  case h_1 waiting =>
    obtain rfl := Option.some.inj begins
    exact ⟨waiting, rfl, rfl⟩
  case h_2 => cases begins

theorem callsInv_initial (h : Initial maxSpins thread_count script e) : CallsInv e := by
  obtain ⟨-, -, rfl⟩ := h
  exact ⟨nofun, nofun, nofun⟩

theorem callsInv_step (h : CallsInv e) (step : Takes e a e') : CallsInv e' := by
  cases step with
  | call i call begins free =>
    cases i with
    | none =>
      refine h.of_owner rfl rfl (fun c same => ?_) h.single
      obtain ⟨item, rfl⟩ := nextCall_owner begins
      exact ⟨item, begins, Or.inl (Option.some.inj same).symm⟩
    | some i =>
      refine h.of_worker rfl (Function.update_eq_self i e.worker).symm (fun c same => ?_) rfl
        h.single
      rw [← Option.some.inj same]
      exact nextCall_worker begins
  | enqueue chance item begins current =>
    refine h.of_owner rfl rfl (fun c same => ?_) ?_
    · exact ⟨item, begins, Or.inr ⟨_, (Option.some.inj same).symm⟩⟩
    · intro entry member
      rcases List.mem_append.mp member with before | last
      · exact h.single entry before
      · rw [List.mem_singleton.mp last]
  | announce chance c c' sema current =>
    obtain ⟨item, begins, -⟩ := h.owner _ current
    refine h.of_owner rfl rfl (fun c same => ?_) h.single
    exact ⟨item, begins, Or.inr ⟨c', (Option.some.inj same).symm⟩⟩
  | enqueued chance c sema current =>
    refine h.of_owner rfl rfl (fun c same => ?_) h.single
    cases same
  | waits chance i call sema waiting consumes =>
    refine h.of_worker rfl (Function.update_eq_self i e.worker).symm (fun c same => ?_) rfl h.single
    rw [← Option.some.inj same]
    exact ⟨waiting, consumes⟩
  | dequeued chance i item rest dequeued waiting front =>
    have single : ∀ entry ∈ rest, entry.1 = none := by
      intro entry member
      apply h.single
      rw [front]
      exact List.mem_cons_of_mem _ member
    cases item with
    | none => exact h.of_worker rfl rfl nofun rfl single
    | some task => exact h.of_worker rfl rfl nofun rfl single
  | finish i task running =>
    refine ⟨h.owner, ?_, h.single⟩
    intro j call current
    obtain ⟨waiting, consumes⟩ := h.worker j call current
    have other : j ≠ i := by
      rintro rfl
      rw [running] at waiting
      cases waiting
    refine ⟨?_, consumes⟩
    show Function.update e.worker i .waiting j = .waiting
    rwa [Function.update_of_ne other]
  | stop_all ready =>
    have nothing : ∀ item, e.nextCall none ≠ some (.enqueue item) := by
      rcases ready with producer | producer
      all_goals
        simp only [nextCall, producer]
        nofun
    split_ifs
    · exact h.of_producer nothing rfl rfl
    · exact h.of_producer nothing rfl rfl
  | sentinelsEnqueued producer => exact h.of_producer (by simp [nextCall, producer]) rfl rfl
  | join thread producer ended => exact h.of_producer (by simp [nextCall, producer]) rfl rfl
  | joinedAll thread producer all => exact h.of_producer (by simp [nextCall, producer]) rfl rfl

theorem callsInv_reachable (h : Reachable (Initial maxSpins thread_count script) Step e) :
    CallsInv e := by
  apply h.invariant
  · intro e initial
    exact callsInv_initial initial
  · intro e a e' inv step
    exact callsInv_step inv (takes_of_step inv step)

/-! ## The refinement -/

/-- The executor with its queue as a list. -/
def toTaskExecutor (e : QueuedTaskExecutor n α) : TaskExecutor α where
  thread_count := n
  tasks := e.tasks.queue.inner.map Prod.snd
  kill_threads := e.kill_threads
  worker := extend .waiting e.worker
  producer := if isSignal (e.tasks.call none) then afterEnqueue e.producer else e.producer
  executed := e.executed
  sentinels := extend 0 e.sentinels

theorem toTaskExecutor_worker (i : Fin n) : e.toTaskExecutor.worker i = e.worker i := extend_val i

/-- Outside its calls, and before its element is in `inner`, the thread that enqueues is where it
says. -/
theorem toTaskExecutor_producer (notSignal : isSignal (e.tasks.call none) = false) :
    e.toTaskExecutor.producer = e.producer := by
  show (if isSignal (e.tasks.call none) then _ else _) = _
  rw [notSignal]
  rfl

theorem isSignal_of_idle (h : CallsInv e)
    (nothing : ∀ item, e.nextCall none ≠ some (.enqueue item)) :
    isSignal (e.tasks.call none) = false := by
  rw [h.idle nothing]
  rfl

/-- The steps that `TaskExecutor` does not notice. -/
theorem toTaskExecutor_same {i : Option (Fin n)} {sema : LightweightSemaphore}
    {call : Option (QueueCall (Option α))}
    (same : i = none → isSignal call = isSignal (e.tasks.call none)) :
    (e.within i sema call).toTaskExecutor = e.toTaskExecutor := by
  have signal : isSignal ((Function.update e.tasks.call i call) none) =
      isSignal (e.tasks.call none) := by
    cases i with
    | none =>
      rw [Function.update_self]
      exact same rfl
    | some i => rw [Function.update_of_ne (Option.some_ne_none i).symm]
  simp only [toTaskExecutor, within, signal]

/-- An element is in `inner`. -/
theorem simulated_enqueue {item : Option α} (begins : e.nextCall none = some (.enqueue item))
    (current : e.tasks.call none = some (.enqueue item)) :
    ∃ b, TaskExecutor.Step e.toTaskExecutor b (toTaskExecutor { e with
        tasks := ⟨e.tasks.queue.enqueueInner none item,
          Function.update e.tasks.call none (some (.signal (.add 1)))⟩ }) := by
  have outside : e.toTaskExecutor.producer = e.producer := by
    apply toTaskExecutor_producer
    rw [current]
    rfl
  have inner : (e.tasks.queue.enqueueInner none item).inner.map Prod.snd =
      e.tasks.queue.inner.map Prod.snd ++ [item] := List.map_append
  simp only [nextCall] at begins
  split at begins
  case h_1 task script producer =>
    cases begins
    refine ⟨.add_task, ?_⟩
    simp only [TaskExecutor.Step, TaskExecutor.next, outside, producer]
    simp only [toTaskExecutor, TaskExecutor.enqueue, Function.update_self, inner, producer]
    rfl
  case h_2 left producer =>
    cases begins
    refine ⟨.enqueueSentinel, ?_⟩
    simp only [TaskExecutor.Step, TaskExecutor.next, outside, producer]
    simp only [toTaskExecutor, TaskExecutor.enqueue, Function.update_self, inner, producer]
    rfl
  case h_3 => cases begins

/-- An element is taken out of `inner`. -/
theorem simulated_dequeue {item : Option α} {rest dequeued : List (Option (Fin n) × Option α)}
    (waiting : e.worker i = .waiting) (front : e.tasks.queue.inner = (none, item) :: rest) :
    TaskExecutor.Step e.toTaskExecutor (.dequeue i) (toTaskExecutor (returned { e with
        tasks := ⟨{ e.tasks.queue with inner := rest, dequeued := dequeued },
          Function.update e.tasks.call (some i) none⟩ } (some i) (.dequeued item))) := by
  have idle : e.toTaskExecutor.worker i = .waiting := by rw [toTaskExecutor_worker, waiting]
  have bound : (i : ℕ) < e.toTaskExecutor.thread_count := i.isLt
  have tasks : e.toTaskExecutor.tasks = item :: rest.map Prod.snd := by
    show e.tasks.queue.inner.map Prod.snd = _
    rw [front]
    rfl
  have owner : Function.update e.tasks.call (some i) none none = e.tasks.call none :=
    Function.update_of_ne (Option.some_ne_none i).symm _ _
  cases item with
  | none =>
    simp only [TaskExecutor.Step, TaskExecutor.next, idle, bound, tasks]
    simp only [returned, toTaskExecutor, extend_update, owner, extend_val]
    rfl
  | some task =>
    simp only [TaskExecutor.Step, TaskExecutor.next, idle, bound, tasks]
    simp only [returned, toTaskExecutor, extend_update, owner]
    rfl

theorem simulated (h : CallsInv e) (step : Takes e a e') :
    e'.toTaskExecutor = e.toTaskExecutor ∨
      ∃ b, TaskExecutor.Step e.toTaskExecutor b e'.toTaskExecutor := by
  cases step with
  | call i call begins free =>
    left
    apply toTaskExecutor_same
    rintro rfl
    obtain ⟨item, rfl⟩ := nextCall_owner begins
    rw [free]
    rfl
  | enqueue chance item begins current => exact Or.inr (simulated_enqueue begins current)
  | announce chance c c' sema current =>
    left
    apply toTaskExecutor_same
    intro _
    rw [current]
    rfl
  | enqueued chance c sema current =>
    left
    simp only [toTaskExecutor, within, Function.update_self, current]
    rfl
  | waits chance i call sema waiting consumes => exact Or.inl (toTaskExecutor_same nofun)
  | dequeued chance i item rest dequeued waiting front =>
    exact Or.inr ⟨_, simulated_dequeue waiting front⟩
  | finish i task running =>
    right
    refine ⟨.finish i, ?_⟩
    have busy : e.toTaskExecutor.worker i = .executing task := by
      rw [toTaskExecutor_worker, running]
    have bound : (i : ℕ) < e.toTaskExecutor.thread_count := i.isLt
    simp only [TaskExecutor.Step, TaskExecutor.next, busy, if_pos bound]
    simp only [toTaskExecutor, extend_update]
  | stop_all ready =>
    right
    refine ⟨.stop_all, ?_⟩
    have notSignal : isSignal (e.tasks.call none) = false := by
      apply isSignal_of_idle h
      rcases ready with producer | producer
      all_goals simp [nextCall, producer]
    have outside := toTaskExecutor_producer notSignal
    have flag : e.toTaskExecutor.kill_threads = e.kill_threads := rfl
    rcases ready with producer | producer
    all_goals
      simp only [TaskExecutor.Step, TaskExecutor.next, outside, producer, flag]
      split_ifs
    all_goals
      simp only [toTaskExecutor, notSignal]
      rfl
  | sentinelsEnqueued producer =>
    right
    refine ⟨.enqueueSentinel, ?_⟩
    have notSignal := isSignal_of_idle h (by simp [nextCall, producer])
    simp only [TaskExecutor.Step, TaskExecutor.next, toTaskExecutor_producer notSignal, producer]
    simp only [toTaskExecutor, notSignal]
    rfl
  | join thread producer ended =>
    right
    refine ⟨.join, ?_⟩
    have notSignal := isSignal_of_idle h (by simp [nextCall, producer])
    have exited : e.toTaskExecutor.worker thread = .exited := by
      rw [toTaskExecutor_worker, ended]
    have more : (thread : ℕ) < e.toTaskExecutor.thread_count := thread.isLt
    simp only [TaskExecutor.Step, TaskExecutor.next, toTaskExecutor_producer notSignal, producer,
      if_pos more, exited]
    simp only [toTaskExecutor, notSignal]
    rfl
  | joinedAll thread producer all =>
    right
    refine ⟨.join, ?_⟩
    have notSignal := isSignal_of_idle h (by simp [nextCall, producer])
    have fewer : ¬ thread < e.toTaskExecutor.thread_count := Nat.not_lt.mpr all
    simp only [TaskExecutor.Step, TaskExecutor.next, toTaskExecutor_producer notSignal, producer,
      if_neg fewer]
    simp only [toTaskExecutor, notSignal]
    rfl

/-- Whatever the calls of the queue do access by access, the executor is the one with a list for
its queue. -/
theorem refines_taskExecutor (h : Reachable (Initial maxSpins thread_count script) Step e) :
    Reachable (TaskExecutor.Initial thread_count script) TaskExecutor.Step e.toTaskExecutor := by
  apply h.simulates toTaskExecutor
  · rintro e ⟨positive, size, rfl⟩
    show TaskExecutor.create thread_count script = _
    rw [TaskExecutor.create, if_neg (by omega)]
    have count : thread_count.toNat = n := by omega
    rw [count]
    simp only [toTaskExecutor, extend_const]
    rfl
  · intro e a e' reachable step
    have inv := callsInv_reachable reachable
    exact simulated inv (takes_of_step inv step)

/-- A thread begins a call and makes so many accesses of it. -/
def callFor (i : Option (Fin n)) (accesses : ℕ) : List (Action n) :=
  .call i :: List.replicate accesses (.access i .plain)

/-- Worker `1` sleeps before the first task is added and is woken for it; worker `0` takes the
second one and is done first. -/
theorem refines_taskExecutor_twoTasks :
    ∃ e : QueuedTaskExecutor 2 ℕ, e.executed = [8, 7] ∧ e.producer = .returned ∧
      Reachable (TaskExecutor.Initial 2 [7, 8]) TaskExecutor.Step e.toTaskExecutor := by
  have started : Initial 0 2 [7, 8]
      { tasks := { queue := .create 0 }, producer := .adding [7, 8] : QueuedTaskExecutor 2 ℕ } :=
    ⟨by decide, rfl, rfl⟩
  have ran : ((run next { tasks := { queue := .create 0 }, producer := .adding [7, 8] }
      ([callFor (some 1) 4, callFor none 4, callFor none 2,
        [.access (some 1) .plain, .access (some 1) (.finds none)], callFor (some 0) 2,
        [.access (some 0) (.finds none), .stop_all, .finish 0, .finish 1],
        callFor none 2, callFor none 2, [.sentinelsEnqueued],
        callFor (some 0) 2, [.access (some 0) (.finds none)],
        callFor (some 1) 2, [.access (some 1) (.finds none), .join, .join, .join]] :
          List (List (Action 2))).flatten).any fun e =>
      decide (e.executed = [8, 7] ∧ e.producer = .returned)) = true := by
    decide +kernel
  obtain ⟨e, reachable, state⟩ := exists_reachable_of_run started ran
  obtain ⟨executed, returned⟩ := of_decide_eq_true state
  exact ⟨e, executed, returned, refines_taskExecutor reachable⟩

end QueuedTaskExecutor

end Lightning
