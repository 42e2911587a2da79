import Lightning.Lib.Transition

/-!
# Components of a system

A system is seen by one of its components through a `view` of its states, and `project` says what a
step is for the component, if it is anything. When every step follows the component's own transition
function (`Follows`), a run of the system is a run of the component along its `trace` (`run_trace`):
what the component becomes depends on its trace only.
-/

namespace Transition

variable {σ τ α β : Type*} {next : σ → α → Option σ} {next' : τ → β → Option τ}
  {project : σ → α → Option β} {view : σ → τ} {I : σ → Prop} {s t : σ} {as : List α} {x y : τ}

/-- The component takes this step, or stays as it is. -/
def Follows (next' : τ → β → Option τ) (x : τ) (b : Option β) (y : τ) : Prop :=
  b.elim (y = x) fun b => next' x b = some y

@[simp] theorem follows_none : Follows next' x none y ↔ y = x := Iff.rfl

@[simp] theorem follows_some {b : β} : Follows next' x (some b) y ↔ next' x b = some y := Iff.rfl

/-- What a run is for the component. -/
def trace (next : σ → α → Option σ) (project : σ → α → Option β) : σ → List α → List β
  | _, [] => []
  | s, a :: as => (project s a).toList ++ (next s a).elim [] fun t => trace next project t as

theorem run_follows {b : Option β} (follows : Follows next' x b y) (bs : List β) :
    run next' x (b.toList ++ bs) = run next' y bs := by
  cases b with
  | none => rw [follows_none.mp follows, Option.toList_none, List.nil_append]
  | some b =>
    rw [Option.toList_some, List.singleton_append, run, follows_some.mp follows]
    rfl

/-- A run of the system is a run of the component, as long as an invariant of the system makes
every step one of the component. -/
theorem run_trace (keeps : ∀ s a t, I s → next s a = some t → I t)
    (follows : ∀ s a t, I s → next s a = some t → Follows next' (view s) (project s a) (view t))
    (hs : I s) (h : run next s as = some t) :
    run next' (view s) (trace next project s as) = some (view t) := by
  induction as generalizing s with
  | nil =>
    obtain rfl : s = t := Option.some.inj h
    rfl
  | cons a as ih =>
    obtain ⟨u, step, rest⟩ := Option.bind_eq_some_iff.mp h
    rw [trace, run_follows (follows s a u hs step), step]
    exact ih (keeps s a u hs step) rest

/-- The same for reachable states: they are reachable for the component. -/
theorem Reachable.of_follows {init : σ → Prop} {init' : τ → Prop}
    (h : Reachable init (fun s a t => next s a = some t) s) (start : ∀ s, init s → init' (view s))
    (follows : ∀ s a t, Reachable init (fun s a t => next s a = some t) s → next s a = some t →
      Follows next' (view s) (project s a) (view t)) :
    Reachable init' (fun x b y => next' x b = some y) (view s) := by
  apply h.simulates view start
  intro s a t reachable step
  have followed := follows s a t reachable step
  cases hb : project s a with
  | none =>
    rw [hb] at followed
    exact Or.inl (follows_none.mp followed)
  | some b =>
    rw [hb] at followed
    exact Or.inr ⟨b, follows_some.mp followed⟩

end Transition
