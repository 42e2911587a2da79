import Lightning.Lib.CountingSemaphore
import Lightning.Lib.Threads
import Lightning.LightweightSemaphore

/-!
# The lightweight semaphore is a counting semaphore

A thread that has decremented `m_count` to below zero is `waiting` until it is granted a permit or
has taken its decrement back, and `m_count` together with the waiting threads are the permits
(`refines_counting`). The part of `m_count` below zero and what was posted for the waiting threads
make up their number (`Inv.balance`). Hence the wakeups on their way are exactly those that the
permits allow (`wakeups_exact`). `m_count` is an integer here: it stays between the number of
threads below zero and the permits that ever were (`m_count_bounds`), so that the 64 bits of the
atomic suffice.
-/

namespace Lightning

open Transition Threads

namespace SemaphoreThreads

/-- The thread has decremented `m_count` and has neither a permit nor taken that back. -/
def waiting : Option SemaphoreCall → ℕ
  | some (.wait .sleep) => 1
  | some (.wait .adjust) => 1
  | some (.wait .adjustTake) => 1
  | some (.wait (.adjustExchange _)) => 1
  | _ => 0

/-- The calls of `sem_post` that are still to come. -/
def posting : Option SemaphoreCall → ℕ
  | some (.signal (.post left)) => left
  | _ => 0

/-- A value that the call has loaded has passed its test. -/
def Tested : Option SemaphoreCall → Prop
  | some (.wait (.spinExchange _ _ oldCount)) => 0 < oldCount
  | some (.wait (.adjustExchange oldCount)) => oldCount < 0
  | _ => True

end SemaphoreThreads

/-! ## Accesses -/

namespace LightweightSemaphore

open SemaphoreThreads

variable {s s' : LightweightSemaphore} {before after : Option SemaphoreCall} {grant add : ℕ}

/-- The equations that an access keeps: for the permits, and for what the waiting threads are
owed. -/
structure Effect (s : LightweightSemaphore) (before : Option SemaphoreCall)
    (s' : LightweightSemaphore) (after : Option SemaphoreCall) (grant add : ℕ) : Prop where
  permits : s'.m_count + waiting after + grant = s.m_count + waiting before + add
  balance : waiting after + min s'.m_count 0 + s.m_sema + posting before =
    waiting before + min s.m_count 0 + s'.m_sema + posting after
  tested : Tested after

/-- An access that changes nothing and neither begins nor ends to wait. -/
theorem Effect.refl (waits : waiting after = waiting before) (posts : posting after = posting before)
    (tested : Tested after) : Effect s before s after 0 0 where
  permits := by rw [waits]
  balance := by rw [waits, posts]
  tested := tested

/-- An exchange from a positive count is granted at once. -/
theorem effect_take {oldCount : ℤ} (pos : 0 < oldCount) (seen : s.m_count = oldCount)
    (waits : waiting before = 0) (posts : posting before = 0) :
    Effect s before { s with m_count := oldCount - 1 } none 1 0 := by
  constructor
  · show oldCount - 1 + ((0 : ℕ) : ℤ) + ((1 : ℕ) : ℤ) = _
    rw [waits]
    omega
  · show ((0 : ℕ) : ℤ) + min (oldCount - 1) 0 + s.m_sema + _ =
      _ + min s.m_count 0 + (s.m_sema : ℤ) + ((0 : ℕ) : ℤ)
    rw [waits, posts]
    omega
  · trivial

/-- A waiting thread takes what was posted for it. -/
theorem effect_woken {count : ℕ} (posted : s.m_sema = count + 1) (waits : waiting before = 1)
    (posts : posting before = 0) : Effect s before { s with m_sema := count } none 1 0 := by
  constructor
  · show s.m_count + ((0 : ℕ) : ℤ) + ((1 : ℕ) : ℤ) = _
    rw [waits]
    omega
  · show ((0 : ℕ) : ℤ) + min s.m_count 0 + s.m_sema + _ =
      _ + min s.m_count 0 + (count : ℤ) + ((0 : ℕ) : ℤ)
    rw [waits, posts, posted]
    omega
  · trivial

/-- `fetch_sub` finds no permit. -/
theorem effect_decrement (nonpos : s.m_count ≤ 0) (waitsBefore : waiting before = 0)
    (waitsAfter : waiting after = 1) (postsBefore : posting before = 0)
    (postsAfter : posting after = 0) (tested : Tested after) :
    Effect s before { s with m_count := s.m_count - 1 } after 0 0 := by
  constructor
  · rw [waitsBefore, waitsAfter]
    dsimp only
    omega
  · rw [waitsBefore, waitsAfter, postsBefore, postsAfter]
    dsimp only
    omega
  · exact tested

theorem nextWait_effect {call : WaitCall} {fails : Bool} {result : WaitCall ⊕ Bool}
    (step : s.nextWait fails call = some (s', result)) (tested : Tested (some (.wait call))) :
    Effect s (some (.wait call)) s' (ongoing result) (grants result) 0 := by
  cases call with
  | load timeout =>
    cases step
    exact .refl rfl rfl trivial
  | exchange timeout oldCount =>
    simp only [nextWait] at step
    split_ifs at step with positive seen
    · cases step
      exact effect_take positive seen.1 rfl rfl
    · cases step
      exact .refl rfl rfl trivial
    · cases timeout with
      | none =>
        cases step
        exact .refl rfl rfl trivial
      | some timeout =>
        cases step
        exact .refl rfl rfl trivial
  | spin timeout spin =>
    cases spin with
    | zero =>
      cases step
      exact .refl rfl rfl trivial
    | succ spin =>
      simp only [nextWait] at step
      split_ifs at step with positive
      · cases step
        exact .refl rfl rfl positive
      · cases step
        exact .refl rfl rfl trivial
  | spinExchange timeout spin oldCount =>
    simp only [nextWait] at step
    split_ifs at step with seen
    · cases step
      exact effect_take tested seen rfl rfl
    · cases step
      exact .refl rfl rfl trivial
  | decrement timeout =>
    simp only [nextWait] at step
    split_ifs at step with positive instant
    · cases step
      exact effect_take positive rfl rfl rfl
    · cases step
      exact effect_decrement (Int.not_lt.mp positive) rfl rfl rfl rfl trivial
    · cases step
      exact effect_decrement (Int.not_lt.mp positive) rfl rfl rfl rfl trivial
  | sleep =>
    simp only [nextWait] at step
    split_ifs at step
    · cases step
      exact .refl rfl rfl trivial
    · cases posted : s.m_sema with
      | zero =>
        rw [posted] at step
        cases step
      | succ count =>
        rw [posted] at step
        cases step
        exact effect_woken posted rfl rfl
  | adjust =>
    simp only [nextWait] at step
    split_ifs at step with nonneg
    · cases step
      exact .refl rfl rfl trivial
    · cases step
      exact .refl rfl rfl (Int.not_le.mp nonneg)
  | adjustTake =>
    simp only [nextWait] at step
    cases posted : s.m_sema with
    | zero =>
      rw [posted] at step
      cases step
      exact .refl rfl rfl trivial
    | succ count =>
      rw [posted] at step
      cases step
      exact effect_woken posted rfl rfl
  | adjustExchange oldCount =>
    have negative : oldCount < 0 := tested
    simp only [nextWait] at step
    split_ifs at step with seen
    · cases step
      constructor
      · show oldCount + 1 + ((0 : ℕ) : ℤ) + ((0 : ℕ) : ℤ) =
          s.m_count + ((1 : ℕ) : ℤ) + ((0 : ℕ) : ℤ)
        omega
      · show ((0 : ℕ) : ℤ) + min (oldCount + 1) 0 + s.m_sema + ((0 : ℕ) : ℤ) =
          ((1 : ℕ) : ℤ) + min s.m_count 0 + s.m_sema + ((0 : ℕ) : ℤ)
        omega
      · trivial
    · cases step
      exact .refl rfl rfl trivial

theorem intOfSsize_of_lt {n : ℤ} (pos : 0 < n) (lt : n < 2 ^ 31) : intOfSsize n = n :=
  Int.bmod_eq_of_le (by omega) (by omega)

/-- `fetch_add` tells `m_sema` how many waiting threads the count covers now, if that fits an
`int`. -/
theorem nextSignal_effect (call : SignalCall)
    (fits : ∀ count, call = .add count → toRelease s.m_count count < 2 ^ 31) :
    Effect s (some (.signal call)) (s.nextSignal call).1 ((s.nextSignal call).2.map .signal) 0
      (adds call) := by
  cases call with
  | add count =>
    have bound : toRelease s.m_count count = min (-s.m_count) count := by
      unfold toRelease
      omega
    simp only [nextSignal]
    split_ifs with positive
    · rw [intOfSsize_of_lt positive (fits count rfl)]
      constructor
      · show s.m_count + count + ((0 : ℕ) : ℤ) + ((0 : ℕ) : ℤ) =
          s.m_count + ((0 : ℕ) : ℤ) + count
        omega
      · show ((0 : ℕ) : ℤ) + min (s.m_count + count) 0 + s.m_sema + ((0 : ℕ) : ℤ) =
          ((0 : ℕ) : ℤ) + min s.m_count 0 + s.m_sema + ((toRelease s.m_count count).toNat : ℤ)
        omega
      · trivial
    · constructor
      · show s.m_count + count + ((0 : ℕ) : ℤ) + ((0 : ℕ) : ℤ) =
          s.m_count + ((0 : ℕ) : ℤ) + count
        omega
      · show ((0 : ℕ) : ℤ) + min (s.m_count + count) 0 + s.m_sema + ((0 : ℕ) : ℤ) =
          ((0 : ℕ) : ℤ) + min s.m_count 0 + s.m_sema + ((0 : ℕ) : ℤ)
        omega
      · trivial
  | post left =>
    cases left with
    | zero => exact .refl rfl rfl trivial
    | succ left =>
      constructor
      · rfl
      · show ((0 : ℕ) : ℤ) + min s.m_count 0 + s.m_sema + ((left + 1 : ℕ) : ℤ) =
          ((0 : ℕ) : ℤ) + min s.m_count 0 + ((s.m_sema + 1 : ℕ) : ℤ) + (left : ℤ)
        omega
      · trivial

/-- After its first access `signal` only posts. -/
theorem nextSignal_after (s : LightweightSemaphore) (call : SignalCall) :
    (s.nextSignal call).2 = none ∨ ∃ left, (s.nextSignal call).2 = some (.post left) := by
  cases call with
  | add count =>
    simp only [nextSignal]
    split_ifs
    · exact Or.inr ⟨_, rfl⟩
    · exact Or.inl rfl
  | post left =>
    cases left with
    | zero => exact Or.inl rfl
    | succ left => exact Or.inr ⟨left, rfl⟩

end LightweightSemaphore

/-! ## Runs -/

namespace SemaphoreThreads

open LightweightSemaphore

section Accounts

variable {ι : Type} [Fintype ι] {s : SemaphoreThreads ι} {initialCount maxSpins : ℕ}

/-- The permits that nobody has been granted. -/
def permits (s : SemaphoreThreads ι) : ℤ := s.sema.m_count + total waiting s.call

def toCounting (s : SemaphoreThreads ι) : CountingSemaphore :=
  ⟨s.permits.toNat, s.granted, s.released⟩

structure Inv (s : SemaphoreThreads ι) : Prop where
  balance : (total waiting s.call : ℤ) + min s.sema.m_count 0 =
    s.sema.m_sema + total posting s.call
  tested : ∀ i, Tested (s.call i)

theorem waiting_le_one (call : Option SemaphoreCall) : waiting call ≤ 1 := by
  unfold waiting
  split <;> omega

theorem grants_le_one (result : WaitCall ⊕ Bool) : grants result ≤ 1 := by
  unfold grants
  split <;> omega

theorem Inv.permits_nonneg (h : Inv s) : 0 ≤ s.permits := by
  have balance := h.balance
  unfold permits
  omega

theorem Inv.wakeups (h : Inv s) :
    s.sema.m_sema + total posting s.call = min (total waiting s.call) s.toCounting.permits := by
  have balance := h.balance
  show _ = min _ (s.sema.m_count + total waiting s.call).toNat
  omega

/-- `m_sema.signal` is asked for no more posts than there are threads. -/
theorem Inv.toRelease_lt (h : Inv s) (few : Fintype.card ι < 2 ^ 31) (count : ℕ) :
    toRelease s.sema.m_count count < 2 ^ 31 := by
  have balance := h.balance
  have bound : total waiting s.call ≤ Fintype.card ι := total_le_card waiting_le_one
  unfold toRelease
  omega

theorem inv_initial (h : Initial initialCount maxSpins s) : Inv s := by
  obtain rfl := h
  constructor
  · show ((total waiting fun _ : ι => none : ℕ) : ℤ) + min ((initialCount : ℕ) : ℤ) 0 =
      ((0 : ℕ) : ℤ) + ((total posting fun _ : ι => none : ℕ) : ℤ)
    rw [total_const, total_const]
    simp only [waiting, posting]
    omega
  · exact fun _ => trivial

end Accounts

section Steps

variable {ι : Type} [Fintype ι] [DecidableEq ι] {s s' : SemaphoreThreads ι} {a : Action ι} {i : ι}
  {initialCount maxSpins : ℕ}

/-- How a step changes what a counting semaphore has. -/
structure Counted (s s' : SemaphoreThreads ι) (grant release : ℕ) : Prop where
  inv : Inv s'
  permits : s'.permits + grant = s.permits + release
  granted : s'.granted = s.granted + grant
  released : s'.released = s.released + release

/-- A thread's access with a given effect, whatever else it records. -/
theorem Inv.counted (h : Inv s) {sema : LightweightSemaphore} {after : Option SemaphoreCall}
    {grant add : ℕ} (effect : Effect s.sema (s.call i) sema after grant add) :
    Counted s ⟨sema, Function.update s.call i after, s.granted + grant, s.released + add⟩
      grant add := by
  have moved := total_update waiting s.call i after
  have posted := total_update posting s.call i after
  have balance := h.balance
  have balances := effect.balance
  have permits := effect.permits
  refine ⟨⟨?_, ?_⟩, ?_, rfl, rfl⟩
  · dsimp only
    omega
  · apply (Function.forall_update_iff s.call fun _ call => Tested call).mpr
    exact ⟨effect.tested, fun j _ => h.tested j⟩
  · unfold SemaphoreThreads.permits
    dsimp only
    omega

theorem Inv.counted_start (h : Inv s) {call : SemaphoreCall} (waits : waiting (some call) = 0)
    (posts : posting (some call) = 0) (tested : Tested (some call))
    (step : s.start i call = some s') : Counted s s' 0 0 := by
  unfold start at step
  split_ifs at step with free
  cases step
  have effect : Effect s.sema (s.call i) s.sema (some call) 0 0 := by
    rw [free]
    exact .refl waits posts tested
  exact h.counted effect

theorem counted_of_step (h : Inv s) (few : Fintype.card ι < 2 ^ 31) (step : Step s a s') :
    ∃ grant release, (grant = 0 ∨ grant = 1 ∧ release = 0) ∧ Counted s s' grant release := by
  cases a with
  | tryWait i =>
    refine ⟨0, 0, Or.inl rfl, h.counted_start rfl rfl ?_ step⟩
    trivial
  | wait i timeout =>
    refine ⟨0, 0, Or.inl rfl, h.counted_start rfl rfl ?_ step⟩
    trivial
  | signal i count =>
    refine ⟨0, 0, Or.inl rfl, h.counted_start rfl rfl ?_ step⟩
    trivial
  | access i fails =>
    simp only [Step, next] at step
    have tested := h.tested i
    cases current : s.call i with
    | none =>
      rw [current] at step
      cases step
    | some call =>
      rw [current] at step tested
      cases call with
      | wait call =>
        obtain ⟨⟨sema, result⟩, accessed, rfl⟩ := Option.map_eq_some_iff.mp step
        have effect := nextWait_effect accessed tested
        rw [← current] at effect
        have single := grants_le_one result
        refine ⟨grants result, 0, ?_, h.counted effect⟩
        omega
      | signal call =>
        cases step
        have effect := nextSignal_effect call fun count _ => h.toRelease_lt few count
        rw [← current] at effect
        exact ⟨0, adds call, Or.inl rfl, h.counted effect⟩

theorem inv_reachable (few : Fintype.card ι < 2 ^ 31)
    (h : Reachable (Initial initialCount maxSpins) Step s) : Inv s := by
  apply h.invariant
  · intro s initial
    exact inv_initial initial
  · intro s a s' inv step
    obtain ⟨_, _, -, counted⟩ := counted_of_step inv few step
    exact counted.inv

theorem toCounting_reachable (few : Fintype.card ι < 2 ^ 31)
    (h : Reachable (Initial initialCount maxSpins) Step s) :
    Reachable (CountingSemaphore.Initial initialCount) CountingSemaphore.Step s.toCounting := by
  apply h.simulates toCounting
  · rintro s rfl
    show (⟨_, 0, 0⟩ : CountingSemaphore) = ⟨initialCount, 0, 0⟩
    congr 1
    show (((initialCount : ℕ) : ℤ) + ((total waiting fun _ : ι => none : ℕ) : ℤ)).toNat = _
    rw [total_const]
    simp only [waiting]
    omega
  · intro s a s' reachable step
    have inv := inv_reachable few reachable
    obtain ⟨grant, release, kind, counted⟩ := counted_of_step inv few step
    have nonneg := inv.permits_nonneg
    have nonneg' := counted.inv.permits_nonneg
    have permits := counted.permits
    have granted := counted.granted
    have released := counted.released
    right
    rcases kind with none | ⟨one, nothing⟩
    · refine ⟨.release release, CountingSemaphore.step_release ?_ ?_ ?_⟩
      all_goals
        dsimp only [toCounting]
        omega
    · refine ⟨.grant, CountingSemaphore.step_grant ?_ ?_ ?_⟩
      all_goals
        dsimp only [toCounting]
        omega

/-- With fewer than `2 ^ 63` permits `m_count` stays within its type. -/
theorem m_count_bounds (few : Fintype.card ι < 2 ^ 31)
    (h : Reachable (Initial initialCount maxSpins) Step s) :
    -(Fintype.card ι : ℤ) ≤ s.sema.m_count ∧ s.sema.m_count ≤ initialCount + s.released := by
  have inv := inv_reachable few h
  have balance := inv.balance
  have bound : total waiting s.call ≤ Fintype.card ι := total_le_card waiting_le_one
  have counting := CountingSemaphore.balanced (toCounting_reachable few h)
  have nonneg := inv.permits_nonneg
  simp only [toCounting, permits] at counting nonneg
  omega

/-- The semaphore grants permits like a counting semaphore, whatever its threads do, and `m_count`
does not overflow while there are fewer than `2 ^ 63` permits. -/
theorem refines_counting (few : Fintype.card ι < 2 ^ 31)
    (h : Reachable (Initial initialCount maxSpins) Step s) :
    Reachable (CountingSemaphore.Initial initialCount) CountingSemaphore.Step s.toCounting ∧
      -(Fintype.card ι : ℤ) ≤ s.sema.m_count ∧ s.sema.m_count ≤ initialCount + s.released :=
  ⟨toCounting_reachable few h, m_count_bounds few h⟩

/-- Thread `0` goes to sleep, and `signal(2)` of thread `1` posts for it. -/
def wakingUp : List (Action (Fin 2)) :=
  .wait 0 (-1) :: List.replicate 4 (.access 0 false) ++
    .signal 1 2 :: List.replicate 2 (.access 1 false)

theorem refines_counting_woken :
    ∃ s : SemaphoreThreads (Fin 2), s.granted = 1 ∧ s.released = 2 ∧
      Reachable (CountingSemaphore.Initial 0) CountingSemaphore.Step s.toCounting ∧
      -2 ≤ s.sema.m_count ∧ s.sema.m_count ≤ 2 := by
  obtain ⟨s, reachable, state⟩ := @exists_reachable_of_run _ _ (Initial 0 0) next _
    (wakingUp ++ [.access 0 false]) (fun s => s.granted = 1 ∧ s.released = 2) rfl (by decide)
  obtain ⟨granted, released⟩ := of_decide_eq_true state
  obtain ⟨counting, lower, upper⟩ := refines_counting (by decide) reachable
  rw [released] at upper
  exact ⟨s, granted, released, counting, lower, upper⟩

/-- The wakeups that were posted or are under way are for the waiting threads that a permit is
left for, one for each of them. -/
theorem wakeups_exact (few : Fintype.card ι < 2 ^ 31)
    (h : Reachable (Initial initialCount maxSpins) Step s) :
    s.sema.m_sema + total posting s.call = min (total waiting s.call) s.toCounting.permits ∧
      -(Fintype.card ι : ℤ) ≤ s.sema.m_count ∧ s.sema.m_count ≤ initialCount + s.released :=
  ⟨(inv_reachable few h).wakeups, m_count_bounds few h⟩

theorem wakeups_exact_asleep :
    ∃ s : SemaphoreThreads (Fin 2), s.sema.m_sema = 1 ∧
      s.sema.m_sema + total posting s.call = min (total waiting s.call) s.toCounting.permits ∧
      -2 ≤ s.sema.m_count ∧ s.sema.m_count ≤ 2 := by
  obtain ⟨s, reachable, state⟩ := @exists_reachable_of_run _ _ (Initial 0 0) next _ wakingUp
    (fun s => s.sema.m_sema = 1 ∧ s.released = 2) rfl (by decide)
  obtain ⟨posted, released⟩ := of_decide_eq_true state
  obtain ⟨wakeups, lower, upper⟩ := wakeups_exact (by decide) reachable
  rw [released] at upper
  exact ⟨s, posted, wakeups, lower, upper⟩

end Steps

end SemaphoreThreads

end Lightning
