import Lightning.Basic
import Mathlib.Logic.Function.Basic

/-!
# The lightweight semaphore

`moodycamel::LightweightSemaphore`, on which the queues of the server block. `m_count` is an atomic
that goes below zero while threads wait, and `m_sema` is the semaphore of the kernel that wakes
them. `WaitCall` is where a call of `tryWait` or `wait` is, `SignalCall` where a call of `signal`
is; `nextWait` and `nextSignal` execute one access of such a call to the shared state.
-/

namespace Lightning

inductive WaitCall where
  /-- `tryWait` is about to load `m_count`. It was called by `wait` when there is a timeout. -/
  | load (timeout : Option ℤ)
  /-- The loop of `tryWait`, with the value it has seen. -/
  | exchange (timeout : Option ℤ) (oldCount : ℤ)
  /-- `waitWithPartialSpinning` with so many rounds of its first loop left. -/
  | spin (timeout : ℤ) (spin : ℕ)
  /-- It has seen this positive value in a round. -/
  | spinExchange (timeout : ℤ) (spin : ℕ) (oldCount : ℤ)
  /-- The first loop is over. -/
  | decrement (timeout : ℤ)
  /-- In `m_sema.wait()` or `m_sema.timed_wait(..)`. -/
  | sleep
  /-- At the head of the loop that re-adjusts the count. -/
  | adjust
  | adjustTake
  | adjustExchange (oldCount : ℤ)
  deriving DecidableEq, Repr

inductive SignalCall where
  /-- `signal(count)` is about to add to `m_count`. -/
  | add (count : ℕ)
  /-- In `m_sema.signal(..)`, with so many calls of `sem_post` left. -/
  | post (left : ℕ)
  deriving DecidableEq, Repr

structure LightweightSemaphore where
  m_count : ℤ
  /-- The count of the kernel's semaphore. -/
  m_sema : ℕ := 0
  m_maxSpins : ℕ
  deriving DecidableEq, Repr

namespace LightweightSemaphore

/-- `static_cast<int>` of a signed size. -/
def intOfSsize (n : ℤ) : ℤ := n.bmod (2 ^ 32)

def create (initialCount maxSpins : ℕ) : LightweightSemaphore where
  m_count := initialCount
  m_maxSpins := maxSpins

/-- The next access of `tryWait` or `wait`, or what the call returns; `none` while it is blocked.
`fails` lets a weak exchange fail although it has found the expected value, and `m_sema.wait()` or
`timed_wait` return `false`. -/
def nextWait (s : LightweightSemaphore) (fails : Bool) :
    WaitCall → Option (LightweightSemaphore × (WaitCall ⊕ Bool))
  | .load timeout => some (s, .inl (.exchange timeout s.m_count))
  | .exchange timeout oldCount =>
      if oldCount > 0 then
        if s.m_count = oldCount ∧ fails = false then
          some ({ s with m_count := oldCount - 1 }, .inr true)
        else some (s, .inl (.exchange timeout s.m_count))
      else
        match timeout with
        | none => some (s, .inr false)
        | some timeout => some (s, .inl (.spin timeout s.m_maxSpins))
  | .spin timeout 0 => some (s, .inl (.decrement timeout))
  | .spin timeout (spin + 1) =>
      if s.m_count > 0 then some (s, .inl (.spinExchange timeout spin s.m_count))
      else some (s, .inl (.spin timeout spin))
  | .spinExchange timeout spin oldCount =>
      if s.m_count = oldCount then some ({ s with m_count := oldCount - 1 }, .inr true)
      else some (s, .inl (.spin timeout spin))
  | .decrement timeout =>
      let s' := { s with m_count := s.m_count - 1 }
      if s.m_count > 0 then some (s', .inr true)
      else if timeout = 0 then some (s', .inl .adjust)
      else some (s', .inl .sleep)
  | .sleep =>
      if fails then some (s, .inl .adjust)
      else
        match s.m_sema with
        | 0 => none
        | count + 1 => some ({ s with m_sema := count }, .inr true)
  | .adjust =>
      if s.m_count ≥ 0 then some (s, .inl .adjustTake)
      else some (s, .inl (.adjustExchange s.m_count))
  | .adjustTake =>
      match s.m_sema with
      | 0 => some (s, .inl .adjust)
      | count + 1 => some ({ s with m_sema := count }, .inr true)
  | .adjustExchange oldCount =>
      if s.m_count = oldCount then some ({ s with m_count := oldCount + 1 }, .inr false)
      else some (s, .inl .adjust)

def toRelease (oldCount : ℤ) (count : ℕ) : ℤ := if -oldCount < count then -oldCount else count

/-- The next access of `signal`, which is over when no call is left. -/
def nextSignal (s : LightweightSemaphore) : SignalCall → LightweightSemaphore × Option SignalCall
  | .add count =>
      let s' := { s with m_count := s.m_count + count }
      if toRelease s.m_count count > 0 then
        (s', some (.post (intOfSsize (toRelease s.m_count count)).toNat))
      else (s', none)
  | .post 0 => (s, none)
  | .post (left + 1) => ({ s with m_sema := s.m_sema + 1 }, some (.post left))

end LightweightSemaphore

inductive SemaphoreCall where
  | wait (call : WaitCall)
  | signal (call : SignalCall)
  deriving DecidableEq, Repr

/-- A semaphore and the threads that use it. -/
structure SemaphoreThreads (ι : Type) where
  sema : LightweightSemaphore
  /-- The call that a thread executes. -/
  call : ι → Option SemaphoreCall := fun _ => none
  /-- How many calls of `tryWait` and `wait` have returned `true`. -/
  granted : ℕ := 0
  /-- The sum of what `signal` has added. -/
  released : ℕ := 0

namespace SemaphoreThreads

variable {ι : Type} [DecidableEq ι]

inductive Action (ι : Type) where
  | tryWait (i : ι)
  | wait (i : ι) (timeout : ℤ)
  | signal (i : ι) (count : ℕ)
  /-- The next access of the call of a thread. -/
  | access (i : ι) (fails : Bool)
  deriving DecidableEq, Repr

/-- A thread that is in no call starts one. -/
def start (i : ι) (call : SemaphoreCall) (s : SemaphoreThreads ι) :
    Option (SemaphoreThreads ι) :=
  if s.call i = none then some { s with call := Function.update s.call i (some call) } else none

/-- The call that goes on, unless it returns. -/
def ongoing : WaitCall ⊕ Bool → Option SemaphoreCall
  | .inl call => some (.wait call)
  | .inr _ => none

/-- The permits that a call is granted by returning. -/
def grants : WaitCall ⊕ Bool → ℕ
  | .inr true => 1
  | _ => 0

/-- The permits that the next access of a call adds. -/
def adds : SignalCall → ℕ
  | .add count => count
  | .post _ => 0

/-- Execute a step when its thread can take it. -/
def next (s : SemaphoreThreads ι) : Action ι → Option (SemaphoreThreads ι)
  | .tryWait i => s.start i (.wait (.load none))
  | .wait i timeout => s.start i (.wait (.load (some timeout)))
  | .signal i count => s.start i (.signal (.add count))
  | .access i fails =>
      match s.call i with
      | none => none
      | some (.wait call) =>
          (s.sema.nextWait fails call).map fun after =>
            { s with
              sema := after.1
              call := Function.update s.call i (ongoing after.2)
              granted := s.granted + grants after.2 }
      | some (.signal call) =>
          let after := s.sema.nextSignal call
          some { s with
            sema := after.1
            call := Function.update s.call i (after.2.map .signal)
            released := s.released + adds call }

def Step (s : SemaphoreThreads ι) (a : Action ι) (s' : SemaphoreThreads ι) : Prop :=
  s.next a = some s'

def Initial (initialCount maxSpins : ℕ) (s : SemaphoreThreads ι) : Prop :=
  s = { sema := .create initialCount maxSpins }

end SemaphoreThreads

end Lightning
