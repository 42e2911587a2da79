import Lightning.Lib.Transition
import Mathlib.Order.WellFounded

/-!
# Systems that settle

A weight that every step of a kind lowers bounds the runs of such steps (`Lowers.length_le`), so
that every such run can be continued to a state from which no step of the kind is possible
(`Lowers.exists_settled`). Where only some step lowers the weight, there is still a run to the goal
(`exists_run_to_goal`).
-/

namespace Transition

variable {σ α : Type*} {next : σ → α → Option σ} {kind : α → Prop} {I : σ → Prop}
  {weight : σ → ℕ} {s t : σ} {as : List α}

/-- Under the invariant, steps of the kind lower the weight and keep the invariant. -/
structure Lowers (next : σ → α → Option σ) (kind : α → Prop) (I : σ → Prop) (weight : σ → ℕ) :
    Prop where
  keeps : ∀ s a t, I s → kind a → next s a = some t → I t
  lowers : ∀ s a t, I s → kind a → next s a = some t → weight t < weight s

namespace Lowers

theorem run_keeps (h : Lowers next kind I weight) (hs : I s) (all : ∀ a ∈ as, kind a)
    (hrun : run next s as = some t) : I t := by
  induction as generalizing s with
  | nil =>
    obtain rfl : s = t := Option.some.inj hrun
    exact hs
  | cons a as ih =>
    obtain ⟨u, step, rest⟩ := Option.bind_eq_some_iff.mp hrun
    have kindA := all a List.mem_cons_self
    exact ih (h.keeps s a u hs kindA step) (fun b member => all b (List.mem_cons_of_mem a member))
      rest

theorem length_le (h : Lowers next kind I weight) (hs : I s) (all : ∀ a ∈ as, kind a)
    (hrun : run next s as = some t) : as.length + weight t ≤ weight s := by
  induction as generalizing s with
  | nil =>
    obtain rfl : s = t := Option.some.inj hrun
    exact Nat.le_of_eq (Nat.zero_add _)
  | cons a as ih =>
    obtain ⟨u, step, rest⟩ := Option.bind_eq_some_iff.mp hrun
    have kindA := all a List.mem_cons_self
    have lower := h.lowers s a u hs kindA step
    have later := ih (h.keeps s a u hs kindA step)
      (fun b member => all b (List.mem_cons_of_mem a member)) rest
    rw [List.length_cons]
    omega

/-- A run to where no step of the kind is possible. -/
theorem exists_settled (h : Lowers next kind I weight) (hs : I s) :
    ∃ as t, (∀ a ∈ as, kind a) ∧ run next s as = some t ∧ ∀ a, kind a → next t a = none := by
  induction bound : weight s using Nat.strongRecOn generalizing s with
  | ind n ih =>
    subst bound
    by_cases settled : ∀ a, kind a → next s a = none
    · exact ⟨[], s, fun a member => absurd member List.not_mem_nil, rfl, settled⟩
    · obtain ⟨a, possible⟩ := not_forall.mp settled
      obtain ⟨kindA, enabled⟩ := Classical.not_imp.mp possible
      obtain ⟨u, step⟩ := Option.ne_none_iff_exists'.mp enabled
      obtain ⟨as, t, all, rest, stuck⟩ :=
        ih (weight u) (h.lowers s a u hs kindA step) (h.keeps s a u hs kindA step) rfl
      refine ⟨a :: as, t, ?_, ?_, stuck⟩
      · intro b member
        rcases List.mem_cons.mp member with rfl | later
        · exact kindA
        · exact all b later
      · rw [run, step]
        exact rest

end Lowers

/-- A run to the goal, when outside of it some step of the kind lowers a well-founded weight. -/
theorem exists_run_to_goal {μ : Type*} [Preorder μ] [WellFoundedLT μ] {rank : σ → μ}
    {goal : σ → Prop} (progress : ∀ s, I s → ¬ goal s →
      ∃ a t, kind a ∧ next s a = some t ∧ I t ∧ rank t < rank s) (hs : I s) :
    ∃ as t, (∀ a ∈ as, kind a) ∧ run next s as = some t ∧ I t ∧ goal t := by
  induction bound : rank s using WellFoundedLT.induction generalizing s with
  | ind r ih =>
    subst bound
    by_cases reached : goal s
    · exact ⟨[], s, fun a member => absurd member List.not_mem_nil, rfl, hs, reached⟩
    · obtain ⟨a, u, kindA, step, keeps, lower⟩ := progress s hs reached
      obtain ⟨as, t, all, rest, kept, done⟩ := ih (rank u) lower keeps rfl
      refine ⟨a :: as, t, ?_, ?_, kept, done⟩
      · intro b member
        rcases List.mem_cons.mp member with rfl | later
        · exact kindA
        · exact all b later
      · rw [run, step]
        exact rest

end Transition
