import Mathlib.Algebra.BigOperators.Group.Finset.Piecewise
import Mathlib.Algebra.Order.BigOperators.Group.Finset
import Mathlib.Data.Fintype.BigOperators

/-!
# Finite families of threads

A family `state : ι → σ` gives each thread its local state. `total f state` adds up what the threads
contribute, and a step of one thread changes it by what that thread contributes
(`total_update`). Invariants that count the threads at a place of a program are equations between
such totals and the shared state.
-/

namespace Threads

variable {ι σ : Type*} [Fintype ι] {f : σ → ℕ} {state : ι → σ} {i : ι}

/-- What the threads contribute together. -/
def total (f : σ → ℕ) (state : ι → σ) : ℕ := ∑ i, f (state i)

theorem le_total (f : σ → ℕ) (state : ι → σ) (i : ι) : f (state i) ≤ total f state :=
  Finset.single_le_sum (f := fun j => f (state j)) (fun _ _ => Nat.zero_le _) (Finset.mem_univ i)

theorem total_eq_zero_iff : total f state = 0 ↔ ∀ i, f (state i) = 0 := by
  rw [total, Finset.sum_eq_zero_iff]
  simp

theorem exists_ne_zero_of_total (h : total f state ≠ 0) : ∃ i, f (state i) ≠ 0 := by
  by_contra! nobody
  exact h (total_eq_zero_iff.mpr nobody)

theorem total_le_card (bound : ∀ s, f s ≤ 1) : total f state ≤ Fintype.card ι := by
  refine (Finset.sum_le_sum fun i _ => bound (state i)).trans ?_
  simp

theorem total_const (s : σ) : total f (fun _ : ι => s) = Fintype.card ι * f s := by
  simp [total]

section Update

variable [DecidableEq ι]

/-- Two sums that differ in one term only. -/
theorem sum_add_of_others {g h : ι → ℕ} (others : ∀ j ≠ i, h j = g j) :
    ∑ j, h j + g i = ∑ j, g j + h i := by
  have rest : ∑ j ∈ Finset.univ.erase i, h j = ∑ j ∈ Finset.univ.erase i, g j := by
    apply Finset.sum_congr rfl
    intro j inErased
    exact others j (Finset.ne_of_mem_erase inErased)
  rw [← Finset.add_sum_erase _ _ (Finset.mem_univ i), rest,
    ← Finset.add_sum_erase _ g (Finset.mem_univ i)]
  omega

omit [Fintype ι] in
/-- What some of the threads contribute, when one of them takes a step. -/
theorem sum_update (f : σ → ℕ) (state : ι → σ) {threads : Finset ι} (member : i ∈ threads) (s : σ) :
    ∑ j ∈ threads, f (Function.update state i s j) + f (state i) =
      ∑ j ∈ threads, f (state j) + f s := by
  have others : ∑ j ∈ threads.erase i, f (Function.update state i s j) =
      ∑ j ∈ threads.erase i, f (state j) := by
    apply Finset.sum_congr rfl
    intro j inErased
    rw [Function.update_of_ne (Finset.ne_of_mem_erase inErased)]
  rw [← Finset.add_sum_erase _ _ member, ← Finset.add_sum_erase _ _ member, others,
    Function.update_self]
  omega

theorem total_update (f : σ → ℕ) (state : ι → σ) (i : ι) (s : σ) :
    total f (Function.update state i s) + f (state i) = total f state + f s :=
  sum_update f state (Finset.mem_univ i) s

end Update

end Threads
