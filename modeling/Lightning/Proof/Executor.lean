import Lightning.Lib.Transition
import Lightning.TaskExecutor
import Mathlib.Data.List.Range

/-!
# Stopping the task executor

The sentinels are enqueued after the last task, so the queue is always a list of tasks followed by
sentinels (`Inv.queue`): a worker that takes a sentinel leaves no task behind, and it takes no
second one because it has exited. Every sentinel is in the queue or has ended a worker, which is
why the last `join` finds the queue empty (`stop_all_returned`), and why a worker that is not
finished can always go on (`no_deadlock`). Every step brings the executor closer to its end
(`work_lt`). What a step does is derived from `next` once (`Takes`).
-/

namespace Lightning

/-! ## The values of a family at the indices below a bound -/

section Range

variable {α : Type} {n i : ℕ}

theorem filterMap_range_update {f : ℕ → Option α} {x : α} (bound : i < n) (h : f i = none) :
    ((List.range n).filterMap (Function.update f i (some x))).Perm
      (x :: (List.range n).filterMap f) := by
  induction n with
  | zero => omega
  | succ n ih =>
    rw [List.range_succ, List.filterMap_append, List.filterMap_append]
    by_cases last : i = n
    · subst last
      have others : (List.range i).filterMap (Function.update f i (some x)) =
          (List.range i).filterMap f := by
        apply List.filterMap_congr
        intro j member
        exact Function.update_of_ne (Nat.ne_of_lt (List.mem_range.mp member)) _ _
      rw [others]
      simp only [List.filterMap_cons, List.filterMap_nil, Function.update_self, h, List.append_nil]
      exact List.perm_append_singleton _ _
    · have same : Function.update f i (some x) n = f n := Function.update_of_ne (Ne.symm last) _ _
      simp only [List.filterMap_cons, List.filterMap_nil, same]
      exact (ih (by omega)).append_right _

theorem countP_range_update {p : ℕ → Bool} (bound : i < n) (h : p i = false) :
    (List.range n).countP (Function.update p i true) = (List.range n).countP p + 1 := by
  induction n with
  | zero => omega
  | succ n ih =>
    rw [List.range_succ, List.countP_append, List.countP_append, List.countP_singleton,
      List.countP_singleton]
    by_cases last : i = n
    · subst last
      have others : (List.range i).countP (Function.update p i true) = (List.range i).countP p := by
        apply List.countP_congr
        intro j member
        rw [Function.update_of_ne (Nat.ne_of_lt (List.mem_range.mp member))]
      rw [others, Function.update_self, h]
      rfl
    · rw [Function.update_of_ne (Ne.symm last), ih (by omega)]
      omega

end Range

namespace WorkerState

variable {α : Type}

def task? : WorkerState α → Option α
  | executing task => some task
  | _ => none

def hasExited : WorkerState α → Bool
  | exited => true
  | _ => false

end WorkerState

namespace TaskExecutor

open Transition

variable {α : Type} {thread_count : ℤ} {script : List α} {e e' : TaskExecutor α} {a : Action}

/-! ## The invariant -/

/-- The tasks that the workers are executing. -/
def executing (n : ℕ) (worker : ℕ → WorkerState α) : List α :=
  (List.range n).filterMap (WorkerState.task? ∘ worker)

/-- The number of workers that have exited. -/
def exitedCount (n : ℕ) (worker : ℕ → WorkerState α) : ℕ :=
  (List.range n).countP (WorkerState.hasExited ∘ worker)

/-- The tasks that are still to be added. -/
def remaining (e : TaskExecutor α) : List α :=
  match e.producer with
  | .adding script => script
  | _ => []

/-- The number of sentinels that were enqueued so far. -/
def enqueued (e : TaskExecutor α) : ℕ :=
  match e.producer with
  | .adding _ => 0
  | .enqueuing left => e.thread_count - left
  | _ => e.thread_count

/-- The number of threads that were joined so far. -/
def joined (e : TaskExecutor α) : ℕ :=
  match e.producer with
  | .joining thread => thread
  | .returned => e.thread_count
  | _ => 0

/-- The queue holds tasks and, behind them, sentinels. -/
structure Accounted (script : List α) (e : TaskExecutor α) (pending : List α) (k : ℕ) : Prop where
  tasks : e.tasks = pending.map some ++ List.replicate k none
  everyTask :
    (e.executed ++ executing e.thread_count e.worker ++ pending ++ e.remaining).Perm script
  everySentinel : k + exitedCount e.thread_count e.worker = e.enqueued
  noneBehind : exitedCount e.thread_count e.worker ≠ 0 → pending = []

structure Inv (thread_count : ℤ) (script : List α) (e : TaskExecutor α) : Prop where
  size : (e.thread_count : ℤ) = thread_count
  positive : 0 < e.thread_count
  queue : ∃ pending k, Accounted script e pending k
  exited : ∀ i < e.joined, e.worker i = .exited
  consumed : ∀ i < e.thread_count, e.sentinels i = if (e.worker i).hasExited then 1 else 0
  killed : e.kill_threads = !(e.producer matches .adding _)
  left : ∀ left, e.producer = .enqueuing left → left ≤ e.thread_count

theorem WorkerState.hasExited_iff {s : WorkerState α} : s.hasExited = true ↔ s = .exited := by
  cases s <;> simp [WorkerState.hasExited]

theorem inv_initial (h : Initial thread_count script e) : Inv thread_count script e := by
  unfold Initial create at h
  split_ifs at h with small
  cases h
  have nobody : ((List.range thread_count.toNat).countP
      (WorkerState.hasExited ∘ fun _ => (.waiting : WorkerState α))) = 0 := by
    rw [List.countP_eq_zero]
    intro i _
    exact Bool.false_ne_true
  have nothing : ((List.range thread_count.toNat).filterMap
      (WorkerState.task? ∘ fun _ => (.waiting : WorkerState α))) = [] := by
    rw [List.filterMap_eq_nil_iff]
    intro i _
    rfl
  refine ⟨?_, ?_, ⟨[], 0, rfl, ?_, ?_, fun _ => rfl⟩, nofun, fun i _ => rfl, rfl, nofun⟩
  · show (thread_count.toNat : ℤ) = thread_count
    omega
  · show 0 < thread_count.toNat
    omega
  · simp only [executing, nothing, remaining, List.append_nil, List.nil_append, List.Perm.refl]
  · simp only [exitedCount, nobody, enqueued]

/-! ## Steps -/

/-- Steps of the producer change neither the workers nor what they have done. -/
theorem Inv.of_producer (h : Inv thread_count script e) (size : e'.thread_count = e.thread_count)
    (worker : e'.worker = e.worker) (sentinels : e'.sentinels = e.sentinels)
    (queue : ∃ pending k, Accounted script e' pending k)
    (exited : ∀ i < e'.joined, e'.worker i = .exited)
    (killed : e'.kill_threads = !(e'.producer matches .adding _))
    (left : ∀ left, e'.producer = .enqueuing left → left ≤ e'.thread_count) :
    Inv thread_count script e' where
  size := by rw [size, h.size]
  positive := by rw [size]; exact h.positive
  queue := queue
  exited := exited
  consumed := by
    rw [size, worker, sentinels]
    exact h.consumed
  killed := killed
  left := left

theorem inv_add_task (h : Inv thread_count script e) {task : α} {rest : List α}
    (producer : e.producer = .adding (task :: rest)) :
    Inv thread_count script { e.enqueue (some task) with producer := .adding rest } := by
  obtain ⟨pending, k, acc⟩ := h.queue
  have none := acc.everySentinel
  simp only [enqueued, producer] at none
  obtain ⟨rfl, nobody⟩ : k = 0 ∧ exitedCount e.thread_count e.worker = 0 := by omega
  refine h.of_producer rfl rfl rfl ⟨pending ++ [task], 0, ?_, ?_, none, fun some => absurd nobody some⟩
    nofun ?_ nofun
  · simp [enqueue, acc.tasks]
  · have every := acc.everyTask
    simp only [remaining, producer] at every
    show (e.executed ++ executing e.thread_count e.worker ++ (pending ++ [task]) ++ rest).Perm script
    simpa using every
  · have killed := h.killed
    rwa [producer] at killed

theorem inv_stop_all (h : Inv thread_count script e) (producer : e.producer = .adding []) :
    Inv thread_count script
      { e with kill_threads := true, producer := .enqueuing e.thread_count } := by
  obtain ⟨pending, k, acc⟩ := h.queue
  have every := acc.everyTask
  have none := acc.everySentinel
  simp only [remaining, enqueued, producer] at every none
  refine h.of_producer rfl rfl rfl ⟨pending, k, acc.tasks, every, ?_, acc.noneBehind⟩ nofun rfl ?_
  · show k + exitedCount e.thread_count e.worker = e.thread_count - e.thread_count
    omega
  · rintro _ ⟨⟩
    exact Nat.le_refl _

theorem inv_enqueueSentinel (h : Inv thread_count script e) {left : ℕ}
    (producer : e.producer = .enqueuing (left + 1)) :
    Inv thread_count script { e.enqueue none with producer := .enqueuing left } := by
  obtain ⟨pending, k, acc⟩ := h.queue
  have bound := h.left _ producer
  have every := acc.everyTask
  have none := acc.everySentinel
  have killed := h.killed
  simp only [remaining, enqueued, producer] at every none killed
  refine h.of_producer rfl rfl rfl ⟨pending, k + 1, ?_, every, ?_, acc.noneBehind⟩ nofun killed ?_
  · simp [enqueue, acc.tasks, List.replicate_succ']
  · show k + 1 + exitedCount e.thread_count e.worker = e.thread_count - left
    omega
  · rintro _ ⟨⟩
    exact Nat.le_of_succ_le bound

/-- The loop of the sentinels is over. -/
theorem inv_startJoining (h : Inv thread_count script e) (producer : e.producer = .enqueuing 0) :
    Inv thread_count script { e with producer := .joining 0 } := by
  obtain ⟨pending, k, acc⟩ := h.queue
  have every := acc.everyTask
  have none := acc.everySentinel
  have killed := h.killed
  simp only [remaining, enqueued, producer] at every none killed
  exact h.of_producer rfl rfl rfl ⟨pending, k, acc.tasks, every, none, acc.noneBehind⟩ nofun killed
    nofun

theorem inv_join (h : Inv thread_count script e) {thread : ℕ}
    (producer : e.producer = .joining thread) (ended : e.worker thread = .exited) :
    Inv thread_count script { e with producer := .joining (thread + 1) } := by
  obtain ⟨pending, k, acc⟩ := h.queue
  have every := acc.everyTask
  have none := acc.everySentinel
  have killed := h.killed
  have before := h.exited
  simp only [remaining, enqueued, joined, producer] at every none killed before
  refine h.of_producer rfl rfl rfl ⟨pending, k, acc.tasks, every, none, acc.noneBehind⟩ ?_ killed
    nofun
  intro i bound
  obtain lt | rfl := Nat.lt_or_eq_of_le (Nat.le_of_lt_succ bound)
  · exact before i lt
  · exact ended

/-- All threads are joined. -/
theorem inv_return (h : Inv thread_count script e) {thread : ℕ}
    (producer : e.producer = .joining thread) (all : e.thread_count ≤ thread) :
    Inv thread_count script { e with producer := .returned } := by
  obtain ⟨pending, k, acc⟩ := h.queue
  have every := acc.everyTask
  have none := acc.everySentinel
  have killed := h.killed
  have before := h.exited
  simp only [remaining, enqueued, joined, producer] at every none killed before
  refine h.of_producer rfl rfl rfl ⟨pending, k, acc.tasks, every, none, acc.noneBehind⟩ ?_ killed
    nofun
  exact fun i bound => before i (Nat.lt_of_lt_of_le bound all)

/-! ### Steps of a worker -/

section Worker

variable {n i : ℕ} {w : ℕ → WorkerState α} {s : WorkerState α} {task : α}

theorem executing_same (same : (w i).task? = s.task?) :
    executing n (Function.update w i s) = executing n w := by
  unfold executing
  rw [Function.comp_update, Function.update_eq_self_iff.mpr same.symm]

theorem executing_take (bound : i < n) (before : (w i).task? = none) :
    (executing n (Function.update w i (.executing task))).Perm (task :: executing n w) := by
  unfold executing
  rw [Function.comp_update]
  exact filterMap_range_update bound before

theorem executing_finish (bound : i < n) (running : w i = .executing task) :
    (executing n w).Perm (task :: executing n (Function.update w i .waiting)) := by
  have back : Function.update (Function.update w i .waiting) i (.executing task) = w := by
    rw [Function.update_idem]
    exact Function.update_eq_self_iff.mpr running.symm
  have take := @executing_take _ _ _ (Function.update w i .waiting) task bound
  rw [back, Function.update_self] at take
  exact take rfl

theorem exitedCount_same (same : (w i).hasExited = s.hasExited) :
    exitedCount n (Function.update w i s) = exitedCount n w := by
  unfold exitedCount
  rw [Function.comp_update, Function.update_eq_self_iff.mpr same.symm]

theorem exitedCount_lt (bound : i < n) (running : w i ≠ .exited) : exitedCount n w < n := by
  have le : exitedCount n w ≤ (List.range n).length := List.countP_le_length
  have ne : exitedCount n w ≠ (List.range n).length := by
    intro full
    have ended := List.countP_eq_length.mp full i (List.mem_range.mpr bound)
    exact running (WorkerState.hasExited_iff.mp ended)
  rw [List.length_range] at le ne
  omega

theorem exitedCount_exit (bound : i < n) (before : (w i).hasExited = false) :
    exitedCount n (Function.update w i .exited) = exitedCount n w + 1 := by
  unfold exitedCount
  rw [Function.comp_update]
  exact countP_range_update bound before

/-- Only the worker that steps changes. -/
theorem Inv.of_worker (h : Inv thread_count script e) (notExited : e.worker i ≠ .exited)
    (others : e'.worker = Function.update e.worker i s) (size : e'.thread_count = e.thread_count)
    (producer : e'.producer = e.producer) (killed : e'.kill_threads = e.kill_threads)
    (queue : ∃ pending k, Accounted script e' pending k)
    (consumed : e'.sentinels = Function.update e.sentinels i (if s.hasExited then 1 else 0)) :
    Inv thread_count script e' where
  size := by rw [size, h.size]
  positive := by rw [size]; exact h.positive
  queue := queue
  exited := by
    have same : e'.joined = e.joined := by simp only [joined, producer, size]
    intro j bound
    have ended := h.exited j (same ▸ bound)
    have other : j ≠ i := fun eq => notExited (eq ▸ ended)
    rw [others, Function.update_of_ne other, ended]
  consumed := by
    intro j bound
    rw [others, consumed]
    by_cases same : j = i
    · rw [same, Function.update_self, Function.update_self]
    · rw [Function.update_of_ne same, Function.update_of_ne same]
      exact h.consumed j (size ▸ bound)
  killed := by rw [killed, producer, h.killed]
  left := by rw [producer, size]; exact h.left

theorem inv_dequeue_sentinel (h : Inv thread_count script e) {tasks : List (Option α)}
    (bound : i < e.thread_count) (waiting : e.worker i = .waiting)
    (front : e.tasks = none :: tasks) :
    Inv thread_count script { e with
      tasks := tasks
      worker := Function.update e.worker i .exited
      sentinels := Function.update e.sentinels i (e.sentinels i + 1) } := by
  obtain ⟨pending, k, acc⟩ := h.queue
  have fresh := h.consumed i bound
  rw [waiting] at fresh
  have shape := front.symm.trans acc.tasks
  obtain rfl : pending = [] := by
    cases pending with
    | nil => rfl
    | cons task pending => simp at shape
  obtain ⟨k, rfl⟩ : ∃ m, k = m + 1 := by
    cases k with
    | zero => simp at shape
    | succ m => exact ⟨m, rfl⟩
  have rest : tasks = List.replicate k none := (List.cons.inj shape).2
  refine h.of_worker (by rw [waiting]; nofun) rfl rfl rfl rfl ⟨[], k, rest, ?_, ?_, fun _ => rfl⟩ ?_
  · dsimp only
    rw [executing_same (by rw [waiting]; rfl)]
    exact acc.everyTask
  · have count := acc.everySentinel
    dsimp only
    rw [exitedCount_exit bound (by rw [waiting]; rfl)]
    show k + (_ + 1) = e.enqueued
    omega
  · rw [fresh]
    rfl

theorem inv_dequeue_task (h : Inv thread_count script e) {task : α} {tasks : List (Option α)}
    (bound : i < e.thread_count) (waiting : e.worker i = .waiting)
    (front : e.tasks = some task :: tasks) :
    Inv thread_count script { e with
      tasks := tasks, worker := Function.update e.worker i (.executing task) } := by
  obtain ⟨pending, k, acc⟩ := h.queue
  have fresh := h.consumed i bound
  rw [waiting] at fresh
  have shape := front.symm.trans acc.tasks
  obtain ⟨pending, rfl⟩ : ∃ rest, pending = task :: rest := by
    cases pending with
    | nil => cases k <;> simp [List.replicate_succ] at shape
    | cons first rest =>
      obtain rfl : task = first := Option.some.inj (List.cons.inj shape).1
      exact ⟨rest, rfl⟩
  have rest : tasks = pending.map some ++ List.replicate k none := (List.cons.inj shape).2
  have same : exitedCount e.thread_count (Function.update e.worker i (.executing task)) =
      exitedCount e.thread_count e.worker := exitedCount_same (by rw [waiting]; rfl)
  refine h.of_worker (by rw [waiting]; nofun) rfl rfl rfl rfl ⟨pending, k, rest, ?_, ?_, ?_⟩ ?_
  · refine List.Perm.trans ?_ acc.everyTask
    apply List.Perm.append_right
    rw [List.append_assoc, List.append_assoc]
    apply List.Perm.append_left
    have busy := @executing_take _ _ _ e.worker task bound (by rw [waiting]; rfl)
    exact (busy.append_right pending).trans List.perm_middle.symm
  · dsimp only
    rw [same]
    exact acc.everySentinel
  · dsimp only
    rw [same]
    exact fun some => absurd (acc.noneBehind some) (List.cons_ne_nil _ _)
  · exact (Function.update_eq_self_iff.mpr fresh.symm).symm

theorem inv_finish (h : Inv thread_count script e) {task : α} (bound : i < e.thread_count)
    (running : e.worker i = .executing task) :
    Inv thread_count script { e with
      worker := Function.update e.worker i .waiting, executed := e.executed ++ [task] } := by
  obtain ⟨pending, k, acc⟩ := h.queue
  have fresh := h.consumed i bound
  rw [running] at fresh
  have same : exitedCount e.thread_count (Function.update e.worker i .waiting) =
      exitedCount e.thread_count e.worker := exitedCount_same (by rw [running]; rfl)
  refine h.of_worker (by rw [running]; nofun) rfl rfl rfl rfl ⟨pending, k, acc.tasks, ?_, ?_, ?_⟩ ?_
  · refine List.Perm.trans ?_ acc.everyTask
    apply List.Perm.append_right
    apply List.Perm.append_right
    rw [List.append_assoc]
    exact (executing_finish bound running).symm.append_left _
  · dsimp only
    rw [same]
    exact acc.everySentinel
  · dsimp only
    rw [same]
    exact acc.noneBehind
  · exact (Function.update_eq_self_iff.mpr fresh.symm).symm

end Worker

/-! ## Runs -/

theorem matches_exited {s : WorkerState α} (h : (s matches .exited) = true) : s = .exited := by
  cases s with
  | exited => rfl
  | waiting => cases h
  | executing task => cases h

theorem matches_waiting {s : WorkerState α} (h : (s matches .waiting) = true) : s = .waiting := by
  cases s with
  | waiting => rfl
  | exited => cases h
  | executing task => cases h

/-- The flag is found set exactly by a call after the first one. -/
theorem stop_all_cases (h : Inv thread_count script e) (step : e.next .stop_all = some e') :
    (e.producer = .adding [] ∧
      e' = { e with kill_threads := true, producer := .enqueuing e.thread_count }) ∨
    (e.producer = .returned ∧ e' = e) := by
  have killed := h.killed
  simp only [next] at step
  split_ifs at step with ready set
  · cases step
    cases producer : e.producer with
    | returned =>
      rw [← producer]
      exact .inr ⟨rfl, rfl⟩
    | adding script =>
      rw [producer] at killed
      exact absurd (set.symm.trans killed) Bool.noConfusion
    | enqueuing left => simp [producer] at ready
    | joining thread => simp [producer] at ready
  · cases step
    cases producer : e.producer with
    | adding script =>
      cases script with
      | nil => exact .inl ⟨rfl, rfl⟩
      | cons task rest => simp [producer] at ready
    | returned =>
      rw [producer] at killed
      exact absurd killed set
    | enqueuing left => simp [producer] at ready
    | joining thread => simp [producer] at ready

/-- The effects of the steps, with what holds before them. -/
inductive Takes (e : TaskExecutor α) : Action → TaskExecutor α → Prop
  | add_task (task : α) (rest : List α) (producer : e.producer = .adding (task :: rest)) :
      Takes e .add_task { e.enqueue (some task) with producer := .adding rest }
  | stop_all (producer : e.producer = .adding []) :
      Takes e .stop_all { e with kill_threads := true, producer := .enqueuing e.thread_count }
  | stopAgain (producer : e.producer = .returned) : Takes e .stop_all e
  | enqueueSentinel (left : ℕ) (producer : e.producer = .enqueuing (left + 1)) :
      Takes e .enqueueSentinel { e.enqueue none with producer := .enqueuing left }
  | startJoining (producer : e.producer = .enqueuing 0) :
      Takes e .enqueueSentinel { e with producer := .joining 0 }
  | join (thread : ℕ) (producer : e.producer = .joining thread) (more : thread < e.thread_count)
      (ended : e.worker thread = .exited) :
      Takes e .join { e with producer := .joining (thread + 1) }
  | joinedAll (thread : ℕ) (producer : e.producer = .joining thread)
      (all : e.thread_count ≤ thread) : Takes e .join { e with producer := .returned }
  | dequeueSentinel (i : ℕ) (tasks : List (Option α)) (bound : i < e.thread_count)
      (waiting : e.worker i = .waiting) (front : e.tasks = none :: tasks) :
      Takes e (.dequeue i) { e with
        tasks := tasks
        worker := Function.update e.worker i .exited
        sentinels := Function.update e.sentinels i (e.sentinels i + 1) }
  | dequeueTask (i : ℕ) (task : α) (tasks : List (Option α)) (bound : i < e.thread_count)
      (waiting : e.worker i = .waiting) (front : e.tasks = some task :: tasks) :
      Takes e (.dequeue i)
        { e with tasks := tasks, worker := Function.update e.worker i (.executing task) }
  | finish (i : ℕ) (task : α) (bound : i < e.thread_count)
      (running : e.worker i = .executing task) :
      Takes e (.finish i)
        { e with worker := Function.update e.worker i .waiting, executed := e.executed ++ [task] }

theorem takes_of_step (h : Inv thread_count script e) (step : Step e a e') : Takes e a e' := by
  unfold Step at step
  cases a with
  | add_task =>
    simp only [next] at step
    split at step
    case h_1 task rest producer =>
      cases step
      exact .add_task task rest producer
    case h_2 => cases step
  | stop_all =>
    obtain ⟨producer, rfl⟩ | ⟨producer, rfl⟩ := stop_all_cases h step
    · exact .stop_all producer
    · exact .stopAgain producer
  | enqueueSentinel =>
    simp only [next] at step
    split at step
    case h_1 left producer =>
      cases step
      exact .enqueueSentinel left producer
    case h_2 producer =>
      cases step
      exact .startJoining producer
    case h_3 => cases step
  | join =>
    simp only [next] at step
    split at step
    case h_1 thread producer =>
      split_ifs at step with more ended
      · cases step
        exact .join thread producer more (matches_exited ended)
      · cases step
        exact .joinedAll thread producer (Nat.le_of_not_lt more)
    case h_2 => cases step
  | dequeue i =>
    simp only [next] at step
    split_ifs at step with ready
    have waiting := matches_waiting ready.2
    split at step
    case h_1 => cases step
    case h_2 tasks front =>
      cases step
      exact .dequeueSentinel i tasks ready.1 waiting front
    case h_3 task tasks front =>
      cases step
      exact .dequeueTask i task tasks ready.1 waiting front
  | finish i =>
    simp only [next] at step
    split at step
    case h_1 task running =>
      split_ifs at step with bound
      cases step
      exact .finish i task bound running
    case h_2 => cases step

theorem inv_step (h : Inv thread_count script e) (step : Step e a e') :
    Inv thread_count script e' := by
  cases takes_of_step h step with
  | add_task task rest producer => exact inv_add_task h producer
  | stop_all producer => exact inv_stop_all h producer
  | stopAgain producer => exact h
  | enqueueSentinel left producer => exact inv_enqueueSentinel h producer
  | startJoining producer => exact inv_startJoining h producer
  | join thread producer more ended => exact inv_join h producer ended
  | joinedAll thread producer all => exact inv_return h producer all
  | dequeueSentinel i tasks bound waiting front => exact inv_dequeue_sentinel h bound waiting front
  | dequeueTask i task tasks bound waiting front => exact inv_dequeue_task h bound waiting front
  | finish i task bound running => exact inv_finish h bound running

theorem inv_reachable (h : Reachable (Initial thread_count script) Step e) :
    Inv thread_count script e :=
  h.invariant (fun _ => inv_initial) fun _ _ _ => inv_step

/-- All workers were joined, so nothing is being executed and the queue has no sentinel left. -/
theorem Inv.of_returned (h : Inv thread_count script e) (returned : e.producer = .returned) :
    e.executed.Perm script ∧ (∀ i < e.thread_count, e.worker i = .exited) ∧ e.tasks = [] := by
  obtain ⟨pending, k, acc⟩ := h.queue
  have exited : ∀ i < e.thread_count, e.worker i = .exited := by
    have joined := h.exited
    rwa [TaskExecutor.joined, returned] at joined
  have nothing : executing e.thread_count e.worker = [] := by
    unfold executing
    rw [List.filterMap_eq_nil_iff]
    intro i member
    rw [Function.comp_apply, exited i (List.mem_range.mp member)]
    rfl
  have all : exitedCount e.thread_count e.worker = e.thread_count := by
    unfold exitedCount
    rw [List.countP_eq_length.mpr, List.length_range]
    intro i member
    rw [Function.comp_apply, exited i (List.mem_range.mp member)]
    rfl
  have sentinels := acc.everySentinel
  rw [all, enqueued, returned] at sentinels
  obtain rfl : k = 0 := by
    simp only at sentinels
    omega
  obtain rfl : pending = [] := by
    have positive := h.positive
    exact acc.noneBehind (by omega)
  refine ⟨?_, exited, acc.tasks⟩
  have every := acc.everyTask
  rwa [nothing, remaining, returned, List.append_nil, List.append_nil, List.append_nil] at every

/-- What a returned `stop_all` leaves: every task was executed once, every worker took one sentinel,
and another call changes nothing. -/
theorem stop_all_returned (h : Reachable (Initial thread_count script) Step e)
    (returned : e.producer = .returned) :
    e.executed.Perm script ∧ (e.thread_count : ℤ) = thread_count ∧
      (∀ i < e.thread_count, e.worker i = .exited ∧ e.sentinels i = 1) ∧
      e.tasks = [] ∧ e.next .stop_all = some e := by
  have inv := inv_reachable h
  obtain ⟨executed, exited, tasks⟩ := inv.of_returned returned
  refine ⟨executed, inv.size, ?_, tasks, ?_⟩
  · intro i bound
    have one := inv.consumed i bound
    rw [exited i bound, WorkerState.hasExited] at one
    exact ⟨exited i bound, one⟩
  · have killed := inv.killed
    cases e
    cases returned
    cases killed
    rfl

theorem stop_all_returned_twoTasks :
    ∃ e : TaskExecutor ℕ, e.executed = [8, 7] ∧ e.executed.Perm [7, 8] ∧
      (e.thread_count : ℤ) = 2 ∧
      (∀ i < e.thread_count, e.worker i = .exited ∧ e.sentinels i = 1) ∧
      e.tasks = [] ∧ e.next .stop_all = some e := by
  have started : Initial 2 [7, 8] { thread_count := 2, producer := .adding [7, 8] } := rfl
  have run : (Transition.run TaskExecutor.next { thread_count := 2, producer := .adding [7, 8] }
      [.add_task, .dequeue 0, .add_task, .stop_all, .dequeue 1, .enqueueSentinel, .finish 1,
        .enqueueSentinel, .enqueueSentinel, .dequeue 1, .finish 0, .dequeue 0, .join, .join,
        .join]).any (fun e => e.executed == [8, 7] && e.producer == .returned) = true := by decide
  obtain ⟨e, reachable, final⟩ := exists_reachable_of_run started run
  simp only [Bool.and_eq_true, beq_iff_eq] at final
  exact ⟨e, final.1, stop_all_returned reachable final.2⟩

/-! ## Every run ends -/

def producerWork (thread_count : ℕ) : Producer α → ℕ
  | .adding script => 3 * script.length + 4 * thread_count + 3
  | .enqueuing left => 3 * left + thread_count + 2
  | .joining thread => thread_count - thread + 1
  | .returned => 0

/-- An element of the queue counts twice, because a worker that takes it has a step to go. -/
def work (e : TaskExecutor α) : ℕ :=
  2 * e.tasks.length + (executing e.thread_count e.worker).length +
    producerWork e.thread_count e.producer

/-- Only a call of `stop_all` after the first one makes no progress. -/
theorem work_lt (h : Inv thread_count script e) (step : Step e a e') :
    (e.producer = .returned ∧ e' = e) ∨ e'.work < e.work := by
  cases takes_of_step h step with
  | add_task task rest producer =>
    right
    simp only [work, enqueue, producer, producerWork, List.length_append, List.length_cons,
      List.length_nil]
    omega
  | stop_all producer =>
    right
    simp only [work, producer, producerWork]
    omega
  | stopAgain producer => exact .inl ⟨producer, rfl⟩
  | enqueueSentinel left producer =>
    right
    simp only [work, enqueue, producer, producerWork, List.length_append, List.length_cons,
      List.length_nil]
    omega
  | startJoining producer =>
    right
    simp only [work, producer, producerWork]
    omega
  | join thread producer more ended =>
    right
    simp only [work, producer, producerWork]
    omega
  | joinedAll thread producer all =>
    right
    simp only [work, producer, producerWork]
    omega
  | dequeueSentinel i tasks bound waiting front =>
    right
    simp only [work]
    rw [executing_same (by rw [waiting]; rfl), front, List.length_cons]
    omega
  | dequeueTask i task tasks bound waiting front =>
    right
    simp only [work]
    rw [(executing_take bound (by rw [waiting]; rfl)).length_eq, front, List.length_cons,
      List.length_cons]
    omega
  | finish i task bound running =>
    right
    simp only [work]
    rw [(executing_finish bound running).length_eq, List.length_cons]
    omega

/-- A worker that has not exited while all sentinels are enqueued has a step to take. -/
theorem worker_enabled (h : Inv thread_count script e) (all : e.enqueued = e.thread_count) {i : ℕ}
    (bound : i < e.thread_count) (running : e.worker i ≠ .exited) :
    ∃ a e', Step e a e' := by
  cases state : e.worker i with
  | exited => exact absurd state running
  | executing task =>
    exact ⟨.finish i, _, by simp only [Step, next, state, bound]; rfl⟩
  | waiting =>
    obtain ⟨pending, k, acc⟩ := h.queue
    have fewer := exitedCount_lt bound running
    have sentinels := acc.everySentinel
    cases front : e.tasks with
    | nil =>
      have empty := congrArg List.length (front.symm.trans acc.tasks)
      simp only [List.length_nil, List.length_append, List.length_replicate] at empty
      omega
    | cons first tasks =>
      cases first with
      | none => exact ⟨.dequeue i, _, by simp only [Step, next, state, bound, front]; rfl⟩
      | some task => exact ⟨.dequeue i, _, by simp only [Step, next, state, bound, front]; rfl⟩

/-- Until the first call of `stop_all` returns, some thread can go on. -/
theorem no_deadlock (h : Reachable (Initial thread_count script) Step e)
    (running : e.producer ≠ .returned) : ∃ a e', Step e a e' ∧ e'.work < e.work := by
  have inv := inv_reachable h
  have progress : ∀ a e', Step e a e' → e'.work < e.work := fun a e' step =>
    (work_lt inv step).resolve_left fun same => running same.1
  suffices enabled : ∃ a e', Step e a e' by
    obtain ⟨a, e', step⟩ := enabled
    exact ⟨a, e', step, progress a e' step⟩
  have killed := inv.killed
  cases producer : e.producer with
  | returned => exact absurd producer running
  | adding script =>
    rw [producer] at killed
    cases script with
    | nil => exact ⟨.stop_all, _, by simp only [Step, next, producer, killed]; rfl⟩
    | cons task rest => exact ⟨.add_task, _, by simp only [Step, next, producer]; rfl⟩
  | enqueuing left =>
    cases left with
    | zero => exact ⟨.enqueueSentinel, _, by simp only [Step, next, producer]; rfl⟩
    | succ left => exact ⟨.enqueueSentinel, _, by simp only [Step, next, producer]; rfl⟩
  | joining thread =>
    by_cases more : thread < e.thread_count
    · by_cases ended : e.worker thread = .exited
      · exact ⟨.join, _, by simp only [Step, next, producer, more, ended]; rfl⟩
      · apply worker_enabled inv _ more ended
        rw [enqueued, producer]
    · exact ⟨.join, _, by simp only [Step, next, producer, more]; rfl⟩

end TaskExecutor

end Lightning
