import Mathlib.Data.List.Basic

/-!
# Labelled transition systems

A system is an initial predicate and a labelled step relation. `Reachable` is what its runs reach,
and the rules below package the inductions over runs: invariants (`Reachable.invariant`, and
`Reachable.invariant_of` where an earlier invariant may be used), restriction to fewer steps
(`Reachable.mono`) and simulation by another system (`Reachable.simulates`). Where the step
relation comes from a partial function, `run` executes a list of labels.
-/

namespace Transition

variable {σ τ α β : Type*} {init : σ → Prop} {step : σ → α → σ → Prop}

/-- The states of the runs that start in an initial state. -/
inductive Reachable (init : σ → Prop) (step : σ → α → σ → Prop) : σ → Prop
  | start {s : σ} : init s → Reachable init step s
  | next {s t : σ} {a : α} : Reachable init step s → step s a t → Reachable init step t

namespace Reachable

theorem invariant {I : σ → Prop} {s : σ} (h : Reachable init step s) (base : ∀ s, init s → I s)
    (preserved : ∀ s a t, I s → step s a t → I t) : I s := by
  induction h with
  | start hi => exact base _ hi
  | next _ hstep ih => exact preserved _ _ _ ih hstep

/-- An invariant whose step lemma may assume that the state before the step is reachable. -/
theorem invariant_of {I : σ → Prop} {s : σ} (h : Reachable init step s)
    (base : ∀ s, init s → I s)
    (preserved : ∀ s a t, Reachable init step s → I s → step s a t → I t) : I s := by
  induction h with
  | start hi => exact base _ hi
  | next hs hstep ih => exact preserved _ _ _ hs ih hstep

theorem mono {step' : σ → α → σ → Prop} {s : σ} (h : Reachable init step s)
    (weaker : ∀ s a t, step s a t → step' s a t) : Reachable init step' s := by
  induction h with
  | start hi => exact .start hi
  | next _ hstep ih => exact ih.next (weaker _ _ _ hstep)

/-- A map under which every step is a step of the other system or changes nothing carries
reachable states to reachable states. -/
theorem simulates {init' : τ → Prop} {step' : τ → β → τ → Prop} (f : σ → τ) {s : σ}
    (h : Reachable init step s) (start : ∀ s, init s → init' (f s))
    (simulated : ∀ s a t, Reachable init step s → step s a t →
      f t = f s ∨ ∃ b, step' (f s) b (f t)) : Reachable init' step' (f s) := by
  induction h with
  | start hi => exact .start (start _ hi)
  | next hs hstep ih =>
    rcases simulated _ _ _ hs hstep with same | ⟨b, hb⟩
    · rwa [same]
    · exact ih.next hb

end Reachable

/-- Execute a list of labels, when all of them are enabled in turn. -/
def run (next : σ → α → Option σ) : σ → List α → Option σ
  | s, [] => some s
  | s, a :: as => (next s a).bind fun t => run next t as

theorem Reachable.of_run {next : σ → α → Option σ} {s t : σ} {as : List α}
    (h : Reachable init (fun s a t => next s a = some t) s) (hrun : run next s as = some t) :
    Reachable init (fun s a t => next s a = some t) t := by
  induction as generalizing s with
  | nil =>
    obtain rfl : s = t := Option.some.inj hrun
    exact h
  | cons a as ih =>
    obtain ⟨u, hu, hrest⟩ := Option.bind_eq_some_iff.mp hrun
    exact ih (h.next hu) hrest

/-- A run whose last state passes a test reaches a state that passes it. -/
theorem exists_reachable_of_run {next : σ → α → Option σ} {s : σ} {as : List α} {p : σ → Bool}
    (hs : init s) (h : (run next s as).any p = true) :
    ∃ t, Reachable init (fun s a t => next s a = some t) t ∧ p t = true := by
  obtain ⟨t, ht, hp⟩ := (Option.any_eq_true p _).mp h
  exact ⟨t, (Reachable.start hs).of_run ht, hp⟩

end Transition
