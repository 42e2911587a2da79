import Mathlib.Data.Nat.Find

/-!
# Loops that end when their step fails

`next` is the body of a loop together with its condition: it answers `none` when the condition
fails. `run` executes the loop for a bounded number of iterations, and `EndsAfter` is what all
bounds agree on (`run_eq_some_iff`). A loop ends when a variant decreases
(`EndsAfter.of_variant`); along a known sequence of states it ends exactly when its step fails in
one of them (`EndsAfter.iff_trajectory`).
-/

namespace Loop

variable {σ : Type*} {next : σ → Option σ} {s t : σ} {n fuel : ℕ}

/-- The number of iterations, when there are fewer than `fuel`. -/
def run (next : σ → Option σ) : ℕ → σ → Option ℕ
  | 0, _ => none
  | fuel + 1, s =>
      match next s with
      | none => some 0
      | some t => (run next fuel t).map (· + 1)

/-- The loop that starts in a state makes so many iterations. -/
inductive EndsAfter (next : σ → Option σ) : σ → ℕ → Prop
  | stop {s : σ} (fails : next s = none) : EndsAfter next s 0
  | step {s t : σ} {n : ℕ} (goes : next s = some t) (rest : EndsAfter next t n) :
      EndsAfter next s (n + 1)

theorem run_of_none (h : next s = none) : run next (fuel + 1) s = some 0 := by
  rw [run, h]

theorem run_of_some (h : next s = some t) :
    run next (fuel + 1) s = (run next fuel t).map (· + 1) := by
  rw [run, h]

theorem run_eq_some_iff : run next fuel s = some n ↔ EndsAfter next s n ∧ n < fuel := by
  constructor
  · intro h
    induction fuel generalizing s n with
    | zero => cases h
    | succ fuel ih =>
      cases hnext : next s with
      | none =>
        rw [run_of_none hnext] at h
        cases h
        exact ⟨.stop hnext, fuel.succ_pos⟩
      | some t =>
        rw [run_of_some hnext] at h
        obtain ⟨m, hm, rfl⟩ := Option.map_eq_some_iff.mp h
        have rest := ih hm
        exact ⟨.step hnext rest.1, Nat.succ_lt_succ rest.2⟩
  · rintro ⟨h, enough⟩
    induction h generalizing fuel with
    | stop fails =>
      obtain ⟨fuel, rfl⟩ := Nat.exists_eq_succ_of_ne_zero (Nat.ne_of_gt enough)
      exact run_of_none fails
    | step goes _ ih =>
      obtain ⟨fuel, rfl⟩ := Nat.exists_eq_succ_of_ne_zero (Nat.ne_of_gt (Nat.zero_lt_of_lt enough))
      rw [run_of_some goes, ih (Nat.lt_of_succ_lt_succ enough)]
      rfl

/-- Some bound is enough exactly when the loop ends. -/
theorem exists_run_iff : (∃ fuel, run next fuel s = some n) ↔ EndsAfter next s n := by
  constructor
  · rintro ⟨fuel, h⟩
    exact (run_eq_some_iff.mp h).1
  · intro h
    exact ⟨n + 1, run_eq_some_iff.mpr ⟨h, n.lt_succ_self⟩⟩

namespace EndsAfter

theorem of_variant (variant : σ → ℕ) (decreases : ∀ s t, next s = some t → variant t < variant s)
    (s : σ) : ∃ n ≤ variant s, EndsAfter next s n := by
  induction hv : variant s using Nat.strong_induction_on generalizing s with
  | _ v ih =>
    subst hv
    cases hnext : next s with
    | none => exact ⟨0, Nat.zero_le _, .stop hnext⟩
    | some t =>
      have smaller := decreases s t hnext
      obtain ⟨n, hn, rest⟩ := ih _ smaller t rfl
      exact ⟨n + 1, Nat.lt_of_le_of_lt hn smaller, .step hnext rest⟩

/-- `x` lists the states of the loop for as long as it goes on. -/
theorem iff_trajectory {x : ℕ → σ} (trajectory : ∀ i, next (x i) = none ∨
      next (x i) = some (x (i + 1))) :
    EndsAfter next (x 0) n ↔ next (x n) = none ∧ ∀ i < n, next (x i) ≠ none := by
  induction n generalizing x with
  | zero =>
    constructor
    · intro h
      cases h with
      | stop fails => exact ⟨fails, fun i hi => absurd hi (Nat.not_lt_zero i)⟩
    · intro h
      exact .stop h.1
  | succ n ih =>
    have rest := @ih (fun i => x (i + 1)) fun i => trajectory (i + 1)
    constructor
    · intro h
      cases h with
      | @step _ t _ goes later =>
        have moved : t = x 1 := by
          cases trajectory 0 with
          | inl fails => exact absurd (fails.symm.trans goes) (by simp)
          | inr here => exact Option.some.inj (goes.symm.trans here)
        subst moved
        obtain ⟨fails, going⟩ := rest.mp later
        refine ⟨fails, fun i hi => ?_⟩
        cases i with
        | zero => simp [goes]
        | succ i => exact going i (Nat.lt_of_succ_lt_succ hi)
    · rintro ⟨fails, going⟩
      have goes : next (x 0) = some (x 1) :=
        (trajectory 0).resolve_left (going 0 n.succ_pos)
      exact .step goes (rest.mpr ⟨fails, fun i hi => going (i + 1) (Nat.succ_lt_succ hi)⟩)

/-- A loop that ends makes one number of iterations. -/
theorem exists_iff_trajectory {x : ℕ → σ} (trajectory : ∀ i, next (x i) = none ∨
      next (x i) = some (x (i + 1))) :
    (∃ n, EndsAfter next (x 0) n) ↔ ∃ n, next (x n) = none := by
  classical
  constructor
  · rintro ⟨n, h⟩
    exact ⟨n, ((iff_trajectory trajectory).mp h).1⟩
  · intro h
    exact ⟨Nat.find h, (iff_trajectory trajectory).mpr
      ⟨Nat.find_spec h, fun i hi => Nat.find_min h hi⟩⟩

end EndsAfter

end Loop
