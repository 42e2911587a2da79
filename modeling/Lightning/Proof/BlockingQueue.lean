import Lightning.BlockingConcurrentQueue
import Lightning.Proof.Semaphore

/-!
# The blocking queue loses nothing and wakes its consumers

Seen through `toSemaphore`, the threads of a queue are threads of its semaphore: an element in
`inner` stands for a permit, for a consumer that was granted one and is `claiming` its element, or
for a producer that is `announcing` it (`length_inner`). A consumer that got past the semaphore
therefore finds an element (`exactly_once`), and a consumer sleeps only while the elements are all
claimed or about to be announced (`asleep_all_claimed`).
-/

namespace Lightning

open Transition Threads ProducerQueue

/-! ## The elements -/

namespace BlockingConcurrentQueue

variable {ι α : Type} [DecidableEq ι] {q q' : BlockingConcurrentQueue ι α} {i : ι}
  {chance : Chance ι} {call : QueueCall α} {after : QueueCall α ⊕ QueueResult α}

/-- What was enqueued was dequeued or is there, in the order of each producer. -/
structure Conserved (q : BlockingConcurrentQueue ι α) : Prop where
  elements : q.enqueued.Perm (q.dequeued ++ q.inner)
  order : ∀ p, ofProducer p q.enqueued = ofProducer p q.dequeued ++ ofProducer p q.inner

theorem conserved_enqueueInner (h : Conserved q) (i : ι) (item : α) :
    Conserved (q.enqueueInner i item) where
  elements := by
    show (q.enqueued ++ [(i, item)]).Perm (q.dequeued ++ (q.inner ++ [(i, item)]))
    rw [← List.append_assoc]
    exact h.elements.append_right _
  order p := by
    show ofProducer p (q.enqueued ++ [(i, item)]) =
      ofProducer p q.dequeued ++ ofProducer p (q.inner ++ [(i, item)])
    rw [ofProducer_append, ofProducer_append, h.order p, List.append_assoc]

/-- An access to `inner` finds the oldest element of a producer, or nothing. -/
theorem tryDequeueInner_eq_some {item : α} (h : q.tryDequeueInner chance = some (item, q')) :
    ∃ p rest, takeFrom p q.inner = some (item, rest) ∧
      q' = { q with inner := rest, dequeued := q.dequeued ++ [(p, item)] } := by
  cases chance with
  | plain => cases h
  | fails => cases h
  | finds p =>
    obtain ⟨⟨x, rest⟩, taken, same⟩ := Option.map_eq_some_iff.mp h
    cases same
    exact ⟨p, rest, taken, rfl⟩

theorem conserved_tryDequeueInner (h : Conserved q) {item : α}
    (found : q.tryDequeueInner chance = some (item, q')) : Conserved q' := by
  obtain ⟨p, rest, taken, rfl⟩ := tryDequeueInner_eq_some found
  constructor
  · show q.enqueued.Perm (q.dequeued ++ [(p, item)] ++ rest)
    rw [List.append_assoc]
    exact h.elements.trans ((takeFrom_perm taken).append_left _)
  · intro r
    show ofProducer r q.enqueued = ofProducer r (q.dequeued ++ [(p, item)]) ++ ofProducer r rest
    rw [h.order r, ofProducer_append, List.append_assoc]
    congr 1
    rcases eq_or_ne p r with rfl | other
    · rw [ofProducer_of_takeFrom taken, ofProducer_cons_self, ofProducer_nil, List.singleton_append]
    · rw [ofProducer_of_takeFrom_of_ne other taken, ofProducer_cons_of_ne other, ofProducer_nil,
        List.nil_append]

theorem conserved_next (h : Conserved q) (step : q.next i chance call = some (q', after)) :
    Conserved q' := by
  cases call with
  | enqueue item =>
    simp only [next] at step
    split_ifs at step
    · cases step
      exact h
    · cases step
      exact conserved_enqueueInner h i item
  | signal call =>
    cases step
    exact ⟨h.elements, h.order⟩
  | acquire again call =>
    obtain ⟨⟨sema, result⟩, -, same⟩ := Option.map_eq_some_iff.mp step
    cases same
    exact ⟨h.elements, h.order⟩
  | retry =>
    cases step
    exact h
  | dequeue =>
    simp only [next] at step
    cases found : q.tryDequeueInner chance with
    | none =>
      rw [found] at step
      cases step
      exact h
    | some taken =>
      obtain ⟨item, q''⟩ := taken
      rw [found] at step
      cases step
      exact conserved_tryDequeueInner h found

end BlockingConcurrentQueue

/-! ## The semaphore's view -/

namespace QueueThreads

open BlockingConcurrentQueue
open SemaphoreThreads (adds grants waiting posting)

section View

variable {α : Type}

/-- The part of a call that the semaphore sees. -/
def semaphoreCall : QueueCall α → Option SemaphoreCall
  | .signal call => some (.signal call)
  | .acquire _ call => some (.wait call)
  | _ => none

/-- The consumer was granted a permit and has not taken an element yet. -/
def claiming : Option (QueueCall α) → ℕ
  | some .dequeue => 1
  | _ => 0

/-- The producer has enqueued an element that `m_count` does not count yet. -/
def announcing : Option (QueueCall α) → ℕ
  | some (.signal call) => adds call
  | _ => 0

/-- The thread is in `signal`: its element is in `inner`, and `enqueue` has not returned. -/
def isSignal : Option (QueueCall α) → Bool
  | some (.signal _) => true
  | _ => false

theorem eq_dequeue_of_claiming {call : Option (QueueCall α)} (claims : claiming call ≠ 0) :
    call = some .dequeue := by
  cases call with
  | none => exact absurd rfl claims
  | some call =>
    cases call with
    | dequeue => rfl
    | enqueue item => exact absurd rfl claims
    | signal c => exact absurd rfl claims
    | acquire again c => exact absurd rfl claims
    | retry => exact absurd rfl claims

/-- `tryWait` or `wait` returns `true` to a call that is going to claim its element. -/
theorem ongoing_afterWait (again : Bool) (result : WaitCall ⊕ Bool) :
    (ongoing (afterWait again result : QueueCall α ⊕ QueueResult α)).bind semaphoreCall =
        SemaphoreThreads.ongoing result ∧
      claiming (ongoing (afterWait again result : QueueCall α ⊕ QueueResult α)) = grants result ∧
      announcing (ongoing (afterWait again result : QueueCall α ⊕ QueueResult α)) = 0 := by
  rcases result with call | granted
  · exact ⟨rfl, rfl, rfl⟩
  · cases granted <;> cases again <;> exact ⟨rfl, rfl, rfl⟩

theorem silent_call {call : Option (QueueCall α)} (silent : isSignal call = false) :
    announcing call = 0 ∧ posting (call.bind semaphoreCall) = 0 := by
  cases call with
  | none => exact ⟨rfl, rfl⟩
  | some call =>
    cases call with
    | signal c => cases silent
    | enqueue item => exact ⟨rfl, rfl⟩
    | acquire again c => exact ⟨rfl, rfl⟩
    | retry => exact ⟨rfl, rfl⟩
    | dequeue => exact ⟨rfl, rfl⟩

end View

variable {ι α : Type} [Fintype ι] [DecidableEq ι] {s s' : QueueThreads ι α} {i : ι}
  {a : Action ι α} {call : QueueCall α} {q : BlockingConcurrentQueue ι α}
  {before after : Option (QueueCall α)} {chance : Chance ι} {grant release maxSpins : ℕ}

def toSemaphore (s : QueueThreads ι α) : SemaphoreThreads ι where
  sema := s.queue.sema
  call := (·.bind semaphoreCall) ∘ s.call
  granted := s.queue.dequeued.length + total claiming s.call
  released := s.queue.enqueued.length - total announcing s.call

/-- No more elements are being announced than were enqueued. -/
def Counted (s : QueueThreads ι α) : Prop :=
  total announcing s.call ≤ s.queue.enqueued.length

/-- What a step of one thread is for the semaphore, given what it does to the two histories. -/
theorem toSemaphore_update (counted : Counted s) (current : s.call i = before)
    (granted : q.dequeued.length + claiming after =
      s.queue.dequeued.length + claiming before + grant)
    (released : q.enqueued.length + announcing before =
      s.queue.enqueued.length + announcing after + release) :
    Counted ⟨q, Function.update s.call i after⟩ ∧
      toSemaphore ⟨q, Function.update s.call i after⟩ =
        ⟨q.sema, Function.update s.toSemaphore.call i (after.bind semaphoreCall),
          s.toSemaphore.granted + grant, s.toSemaphore.released + release⟩ := by
  have claims := total_update claiming s.call i after
  have announces := total_update announcing s.call i after
  have one := le_total announcing s.call i
  rw [current] at claims announces one
  unfold Counted at counted ⊢
  refine ⟨?_, ?_⟩
  · dsimp only
    omega
  · simp only [toSemaphore, Function.comp_update]
    congr 1
    · omega
    · omega

/-- What a step of the queue is for its semaphore. -/
def Seen (s s' : QueueThreads ι α) : Prop :=
  Counted s' ∧ (s'.toSemaphore = s.toSemaphore ∨
    ∃ b, SemaphoreThreads.Step s.toSemaphore b s'.toSemaphore)

/-- The semaphore does not notice. -/
theorem seen_nothing (counted : Counted s) (current : s.call i = before)
    (same : after.bind semaphoreCall = before.bind semaphoreCall)
    (granted : q.dequeued.length + claiming after = s.queue.dequeued.length + claiming before)
    (released : q.enqueued.length + announcing before = s.queue.enqueued.length + announcing after)
    (sema : q.sema = s.queue.sema) : Seen s ⟨q, Function.update s.call i after⟩ := by
  have moved := @toSemaphore_update ι α _ _ s i q before after 0 0 counted current granted released
  refine ⟨moved.1, Or.inl ?_⟩
  rw [moved.2, sema, same, ← current]
  show SemaphoreThreads.mk _ (Function.update s.toSemaphore.call i (s.toSemaphore.call i)) _ _ = _
  rw [Function.update_eq_self]
  rfl

/-- A call of the semaphore begins. -/
theorem seen_call (counted : Counted s) (current : s.call i = before) {c : SemaphoreCall}
    (b : SemaphoreThreads.Action ι) (starts : ∀ t : SemaphoreThreads ι, t.next b = t.start i c)
    (free : before.bind semaphoreCall = none) (begun : after.bind semaphoreCall = some c)
    (granted : q.dequeued.length + claiming after = s.queue.dequeued.length + claiming before)
    (released : q.enqueued.length + announcing before = s.queue.enqueued.length + announcing after)
    (sema : q.sema = s.queue.sema) : Seen s ⟨q, Function.update s.call i after⟩ := by
  have moved := @toSemaphore_update ι α _ _ s i q before after 0 0 counted current granted released
  refine ⟨moved.1, Or.inr ⟨b, ?_⟩⟩
  rw [moved.2, SemaphoreThreads.Step, starts, SemaphoreThreads.start, sema, begun]
  apply if_pos
  show (s.call i).bind semaphoreCall = none
  rw [current, free]

/-- `try_dequeue` and the functions that wait begin with a call of the semaphore. -/
theorem seen_load (counted : Counted s) (current : s.call i = before) {again : Bool}
    (timeout : Option ℤ) (free : before.bind semaphoreCall = none) (claims : claiming before = 0)
    (announces : announcing before = 0) :
    Seen s ⟨s.queue, Function.update s.call i (some (.acquire again (.load timeout)))⟩ := by
  have granted : s.queue.dequeued.length + 0 = s.queue.dequeued.length + claiming before := by
    rw [claims]
  have released : s.queue.enqueued.length + announcing before = s.queue.enqueued.length + 0 := by
    rw [announces]
  cases timeout with
  | none =>
    exact seen_call counted current (.tryWait i) (fun _ => rfl) free rfl granted released rfl
  | some timeout =>
    exact seen_call counted current (.wait i timeout) (fun _ => rfl) free rfl granted released rfl

theorem seen_signal (counted : Counted s) {call : SignalCall}
    (current : s.call i = some (.signal call)) :
    Seen s ⟨{ s.queue with sema := (s.queue.sema.nextSignal call).1 },
      Function.update s.call i (ongoing (afterSignal (s.queue.sema.nextSignal call).2))⟩ := by
  have goesOn : (ongoing (afterSignal (s.queue.sema.nextSignal call).2 :
      QueueCall α ⊕ QueueResult α)).bind semaphoreCall =
        (s.queue.sema.nextSignal call).2.map .signal := by
    cases (s.queue.sema.nextSignal call).2 <;> rfl
  have claims : claiming (ongoing (afterSignal (s.queue.sema.nextSignal call).2 :
      QueueCall α ⊕ QueueResult α)) = 0 := by
    cases (s.queue.sema.nextSignal call).2 <;> rfl
  have announces : announcing (ongoing (afterSignal (s.queue.sema.nextSignal call).2 :
      QueueCall α ⊕ QueueResult α)) = 0 := by
    rcases LightweightSemaphore.nextSignal_after s.queue.sema call with ended | ⟨left, ended⟩
    all_goals
      rw [ended]
      rfl
  have released : s.queue.enqueued.length + adds call = s.queue.enqueued.length + announcing
      (ongoing (afterSignal (s.queue.sema.nextSignal call).2 : QueueCall α ⊕ QueueResult α)) +
        adds call := by
    rw [announces]
    rfl
  obtain ⟨counts, moved⟩ := toSemaphore_update (q := { s.queue with
      sema := (s.queue.sema.nextSignal call).1 }) counted current
    (congrArg (s.queue.dequeued.length + ·) claims) released
  refine ⟨counts, Or.inr ⟨.access i false, ?_⟩⟩
  rw [moved, goesOn]
  have view : s.toSemaphore.call i = some (.signal call) := by
    show (s.call i).bind semaphoreCall = _
    rw [current]
    rfl
  simp only [SemaphoreThreads.Step, SemaphoreThreads.next, view]
  rfl

theorem seen_wait (counted : Counted s) {again : Bool} {call : WaitCall} {fails : Bool}
    {sema : LightweightSemaphore} {result : WaitCall ⊕ Bool}
    (current : s.call i = some (.acquire again call))
    (accessed : s.queue.sema.nextWait fails call = some (sema, result)) :
    Seen s ⟨{ s.queue with sema := sema },
      Function.update s.call i (ongoing (afterWait again result))⟩ := by
  obtain ⟨goesOn, claims, announces⟩ := ongoing_afterWait (α := α) again result
  have released : s.queue.enqueued.length + 0 = s.queue.enqueued.length +
      announcing (ongoing (afterWait again result : QueueCall α ⊕ QueueResult α)) + 0 := by
    rw [announces]
  obtain ⟨counts, moved⟩ := toSemaphore_update (q := { s.queue with sema := sema }) counted current
    (congrArg (s.queue.dequeued.length + ·) claims) released
  refine ⟨counts, Or.inr ⟨.access i fails, ?_⟩⟩
  rw [moved, goesOn]
  have view : s.toSemaphore.call i = some (.wait call) := by
    show (s.call i).bind semaphoreCall = _
    rw [current]
    rfl
  simp only [SemaphoreThreads.Step, SemaphoreThreads.next, view]
  show (s.queue.sema.nextWait fails call).map _ = _
  rw [accessed]
  rfl

theorem seen_access (counted : Counted s) (step : s.next (.access i chance) = some s') :
    Seen s s' := by
  simp only [next] at step
  cases current : s.call i with
  | none =>
    rw [current] at step
    cases step
  | some call =>
    rw [current] at step
    obtain ⟨⟨q, after⟩, accessed, rfl⟩ := Option.map_eq_some_iff.mp step
    cases call with
    | enqueue item =>
      simp only [BlockingConcurrentQueue.next] at accessed
      split_ifs at accessed
      · cases accessed
        exact seen_nothing counted current rfl rfl rfl rfl
      · cases accessed
        exact seen_call counted current (.signal i 1) (fun _ => rfl) rfl rfl rfl
          List.length_append rfl
    | signal call =>
      cases accessed
      exact seen_signal counted current
    | acquire again call =>
      obtain ⟨⟨sema, result⟩, waited, same⟩ := Option.map_eq_some_iff.mp accessed
      cases same
      exact seen_wait counted current waited
    | retry =>
      cases accessed
      exact seen_load counted current (some (-1)) rfl rfl rfl
    | dequeue =>
      simp only [BlockingConcurrentQueue.next] at accessed
      cases found : s.queue.tryDequeueInner chance with
      | none =>
        rw [found] at accessed
        cases accessed
        exact seen_nothing counted current rfl rfl rfl rfl
      | some taken =>
        obtain ⟨item, q'⟩ := taken
        rw [found] at accessed
        cases accessed
        obtain ⟨p, rest, -, rfl⟩ := tryDequeueInner_eq_some found
        exact seen_nothing counted current rfl List.length_append rfl rfl

theorem seen_start (counted : Counted s) (step : s.start i call = some s')
    (begins : (∃ item, call = .enqueue item) ∨
      ∃ again timeout, call = .acquire again (.load timeout)) : Seen s s' := by
  unfold start at step
  split_ifs at step with free
  cases step
  rcases begins with ⟨item, rfl⟩ | ⟨again, timeout, rfl⟩
  · exact seen_nothing counted free rfl rfl rfl rfl
  · exact seen_load counted free timeout rfl rfl rfl

theorem seen_of_step (counted : Counted s) (step : Step s a s') : Seen s s' := by
  cases a with
  | enqueue i item => exact seen_start counted step (Or.inl ⟨item, rfl⟩)
  | try_dequeue i => exact seen_start counted step (Or.inr ⟨false, none, rfl⟩)
  | wait_dequeue i => exact seen_start counted step (Or.inr ⟨true, some (-1), rfl⟩)
  | wait_dequeue_timed i timeout =>
    exact seen_start counted step (Or.inr ⟨false, some timeout, rfl⟩)
  | access i chance => exact seen_access counted step

/-! ## Runs -/

theorem counted_reachable (h : Reachable (Initial maxSpins) Step s) : Counted s := by
  apply h.invariant
  · rintro s rfl
    exact Nat.le_of_eq (total_eq_zero_iff.mpr fun _ => rfl)
  · intro s a s' counted step
    exact (seen_of_step counted step).1

omit [Fintype ι] in
theorem conserved_of_step (h : Conserved s.queue) (step : Step s a s') : Conserved s'.queue := by
  have started {i : ι} {call : QueueCall α} (step : s.start i call = some s') :
      Conserved s'.queue := by
    unfold start at step
    split_ifs at step
    cases step
    exact h
  cases a with
  | enqueue i item => exact started step
  | try_dequeue i => exact started step
  | wait_dequeue i => exact started step
  | wait_dequeue_timed i timeout => exact started step
  | access i chance =>
    simp only [Step, next] at step
    cases current : s.call i with
    | none =>
      rw [current] at step
      cases step
    | some call =>
      rw [current] at step
      obtain ⟨⟨q, after⟩, accessed, rfl⟩ := Option.map_eq_some_iff.mp step
      exact conserved_next h accessed

omit [Fintype ι] in
theorem conserved_reachable (h : Reachable (Initial maxSpins) Step s) : Conserved s.queue := by
  apply h.invariant
  · rintro s rfl
    exact ⟨List.Perm.refl _, fun _ => rfl⟩
  · intro s a s' conserved step
    exact conserved_of_step conserved step

/-- The threads of a queue are threads of its semaphore. -/
theorem toSemaphore_reachable (h : Reachable (Initial maxSpins) Step s) :
    Reachable (SemaphoreThreads.Initial 0 maxSpins) SemaphoreThreads.Step s.toSemaphore := by
  apply h.simulates toSemaphore
  · rintro s rfl
    show toSemaphore _ = _
    have nobody : total claiming (fun _ : ι => (none : Option (QueueCall α))) = 0 :=
      total_eq_zero_iff.mpr fun _ => rfl
    have silent : total announcing (fun _ : ι => (none : Option (QueueCall α))) = 0 :=
      total_eq_zero_iff.mpr fun _ => rfl
    simp only [toSemaphore, nobody, silent]
    rfl
  · intro s a s' reachable step
    exact (seen_of_step (counted_reachable reachable) step).2

/-- An element is there for each permit, for each claim and for each announcement. -/
theorem length_inner (few : Fintype.card ι < 2 ^ 31) (h : Reachable (Initial maxSpins) Step s) :
    s.queue.inner.length = s.toSemaphore.toCounting.permits + total claiming s.call +
      total announcing s.call := by
  have counting := CountingSemaphore.balanced
    (SemaphoreThreads.toCounting_reachable few (toSemaphore_reachable h))
  have counted := counted_reachable h
  have elements := (conserved_reachable h).elements.length_eq
  rw [List.length_append] at elements
  have granted : s.toSemaphore.toCounting.granted =
    s.queue.dequeued.length + total claiming s.call := rfl
  have released : s.toSemaphore.toCounting.released =
    s.queue.enqueued.length - total announcing s.call := rfl
  unfold Counted at counted
  omega

theorem claims_le (few : Fintype.card ι < 2 ^ 31) (h : Reachable (Initial maxSpins) Step s) :
    total claiming s.call ≤ s.queue.inner.length := by
  have accounted := length_inner few h
  omega

/-- What was enqueued was dequeued or is there, once each and in the order of its producer, and
every consumer that got past the semaphore has an element to find. -/
theorem exactly_once (few : Fintype.card ι < 2 ^ 31) (h : Reachable (Initial maxSpins) Step s) :
    s.queue.enqueued.Perm (s.queue.dequeued ++ s.queue.inner) ∧
      (∀ p, ofProducer p s.queue.enqueued =
        ofProducer p s.queue.dequeued ++ ofProducer p s.queue.inner) ∧
      total claiming s.call ≤ s.queue.inner.length := by
  have conserved := conserved_reachable h
  exact ⟨conserved.elements, conserved.order, claims_le few h⟩

/-- Thread `1` enqueues two elements and thread `0` has taken the first. -/
theorem exactly_once_taken :
    ∃ s : QueueThreads (Fin 2) ℕ, s.queue.dequeued = [(1, 7)] ∧
      s.queue.enqueued.Perm (s.queue.dequeued ++ s.queue.inner) ∧
      (∀ p, ofProducer p s.queue.enqueued =
        ofProducer p s.queue.dequeued ++ ofProducer p s.queue.inner) ∧
      total claiming s.call ≤ s.queue.inner.length := by
  obtain ⟨s, reachable, state⟩ := @exists_reachable_of_run _ _ (Initial 0) next _
    ([.enqueue 1 7, .access 1 .plain, .access 1 .plain, .enqueue 1 8, .access 1 .plain,
      .try_dequeue 0, .access 0 .plain, .access 0 .plain, .access 0 .plain,
      .access 0 (.finds 1)] : List (Action (Fin 2) ℕ))
    (fun s => s.queue.dequeued = [(1, 7)]) rfl (by decide)
  exact ⟨s, of_decide_eq_true state, exactly_once (by decide) reachable⟩

/-- A consumer sleeps, nothing is posted for it and no producer is going to signal: then every
element is claimed by a consumer that is awake. -/
theorem asleep_all_claimed (few : Fintype.card ι < 2 ^ 31)
    (h : Reachable (Initial maxSpins) Step s) {again : Bool}
    (asleep : s.call i = some (.acquire again .sleep)) (unposted : s.queue.sema.m_sema = 0)
    (silent : ∀ j, isSignal (s.call j) = false) :
    s.queue.inner.length = total claiming s.call := by
  have exact := (SemaphoreThreads.inv_reachable few (toSemaphore_reachable h)).wakeups
  have accounted := length_inner few h
  have announces : total announcing s.call = 0 :=
    total_eq_zero_iff.mpr fun j => (silent_call (silent j)).1
  have posts : total posting s.toSemaphore.call = 0 :=
    total_eq_zero_iff.mpr fun j => (silent_call (silent j)).2
  have waits : waiting (s.toSemaphore.call i) = 1 := by
    show waiting ((s.call i).bind semaphoreCall) = 1
    rw [asleep]
    rfl
  have one := le_total waiting s.toSemaphore.call i
  have nothing : s.toSemaphore.sema.m_sema = 0 := unposted
  omega

/-- Thread `0` sleeps, thread `1` is about to take the only element. -/
theorem asleep_all_claimed_one :
    ∃ s : QueueThreads (Fin 3) ℕ, s.call 0 = some (.acquire true .sleep) ∧
      s.queue.inner.length = 1 ∧ s.queue.inner.length = total claiming s.call := by
  obtain ⟨s, reachable, state⟩ := @exists_reachable_of_run _ _ (Initial 0) next _
    (([.enqueue 2 7, .access 2 .plain, .access 2 .plain] : List (Action (Fin 3) ℕ)) ++
      .wait_dequeue 1 :: List.replicate 2 (.access 1 .plain) ++
      .wait_dequeue 0 :: List.replicate 4 (.access 0 .plain))
    (fun s => s.call 0 = some (.acquire true .sleep) ∧ s.queue.inner.length = 1 ∧
      s.queue.sema.m_sema = 0 ∧ ∀ j, isSignal (s.call j) = false) rfl (by decide)
  obtain ⟨asleep, one, unposted, silent⟩ := of_decide_eq_true state
  exact ⟨s, asleep, one, asleep_all_claimed (by decide) reachable asleep unposted silent⟩

end QueueThreads

end Lightning
