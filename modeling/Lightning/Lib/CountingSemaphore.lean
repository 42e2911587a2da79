import Lightning.Lib.Transition

/-!
# Counting semaphores

What a semaphore is for: it keeps a number of permits, a release adds some, and an acquisition that
is granted takes one, so it has to find one. `granted` and `released` count what happened, and the
permits are what the second exceeds the first by (`CountingSemaphore.balanced`).
-/

structure CountingSemaphore where
  permits : ℕ
  granted : ℕ := 0
  released : ℕ := 0

namespace CountingSemaphore

open Transition

variable {initialCount : ℕ} {s s' : CountingSemaphore}

inductive Action where
  | grant
  | release (count : ℕ)

inductive Step : CountingSemaphore → Action → CountingSemaphore → Prop
  | grant {permits granted released : ℕ} :
      Step ⟨permits + 1, granted, released⟩ .grant ⟨permits, granted + 1, released⟩
  | release {permits granted released : ℕ} (count : ℕ) :
      Step ⟨permits, granted, released⟩ (.release count)
        ⟨permits + count, granted, released + count⟩

def Initial (initialCount : ℕ) (s : CountingSemaphore) : Prop := s = ⟨initialCount, 0, 0⟩

theorem balanced (h : Reachable (Initial initialCount) Step s) :
    s.permits + s.granted = initialCount + s.released := by
  induction h with
  | start hi =>
    cases hi
    rfl
  | next _ step ih =>
    cases step with
    | grant =>
      dsimp only at ih ⊢
      omega
    | release count =>
      dsimp only at ih ⊢
      omega

/-- A step that grants, for a state given by equations between its parts. -/
theorem step_grant (permits : s.permits = s'.permits + 1) (granted : s'.granted = s.granted + 1)
    (released : s'.released = s.released) : Step s .grant s' := by
  obtain ⟨p, g, r⟩ := s
  obtain ⟨p', g', r'⟩ := s'
  dsimp only at permits granted released
  subst permits granted released
  exact .grant

theorem step_release {count : ℕ} (permits : s'.permits = s.permits + count)
    (granted : s'.granted = s.granted) (released : s'.released = s.released + count) :
    Step s (.release count) s' := by
  obtain ⟨p, g, r⟩ := s
  obtain ⟨p', g', r'⟩ := s'
  dsimp only at permits granted released
  subst permits granted released
  exact .release count

end CountingSemaphore
