import Mathlib.Data.List.Perm.Basic

/-!
# Queues that keep the order of each producer

The elements of a queue with several producers are listed with who enqueued them. A consumer takes
the oldest element of some producer (`takeFrom`), so the elements of one producer leave in their
order and nothing is said about elements of different producers. With a single producer this is the
usual queue (`takeFrom_of_single`).
-/

namespace ProducerQueue

variable {ι α : Type*} [DecidableEq ι] {p r : ι} {x : α} {queue rest : List (ι × α)}

/-- The elements of one producer. -/
def ofProducer (p : ι) (queue : List (ι × α)) : List α :=
  (queue.filter (·.1 = p)).map Prod.snd

/-- The oldest element of a producer, and what is left. -/
def takeFrom (p : ι) : List (ι × α) → Option (α × List (ι × α))
  | [] => none
  | (r, x) :: rest =>
      if r = p then some (x, rest)
      else (takeFrom p rest).map fun taken => (taken.1, (r, x) :: taken.2)

@[simp] theorem ofProducer_nil : ofProducer p ([] : List (ι × α)) = [] := rfl

theorem ofProducer_append (p : ι) (queue rest : List (ι × α)) :
    ofProducer p (queue ++ rest) = ofProducer p queue ++ ofProducer p rest := by
  rw [ofProducer, List.filter_append, List.map_append]
  rfl

theorem ofProducer_cons_self : ofProducer p ((p, x) :: rest) = x :: ofProducer p rest := by
  simp [ofProducer]

theorem ofProducer_cons_of_ne (other : r ≠ p) :
    ofProducer p ((r, x) :: rest) = ofProducer p rest := by
  simp [ofProducer, other]

/-- The two cases of a queue that is not empty. -/
theorem takeFrom_cons {q : List (ι × α)} {y : α} (h : takeFrom p ((r, x) :: rest) = some (y, q)) :
    (r = p ∧ y = x ∧ q = rest) ∨
      r ≠ p ∧ ∃ rest', takeFrom p rest = some (y, rest') ∧ q = (r, x) :: rest' := by
  rw [takeFrom] at h
  split_ifs at h with same
  · cases h
    exact Or.inl ⟨same, rfl, rfl⟩
  · obtain ⟨⟨z, rest'⟩, taken, same'⟩ := Option.map_eq_some_iff.mp h
    cases same'
    exact Or.inr ⟨same, rest', taken, rfl⟩

theorem takeFrom_perm (h : takeFrom p queue = some (x, rest)) : queue.Perm ((p, x) :: rest) := by
  induction queue generalizing rest with
  | nil => cases h
  | cons entry queue ih =>
    obtain ⟨r, y⟩ := entry
    obtain ⟨rfl, rfl, rfl⟩ | ⟨-, rest', taken, rfl⟩ := takeFrom_cons h
    · exact List.Perm.refl _
    · exact ((ih taken).cons (r, y)).trans (List.Perm.swap _ _ _)

theorem ofProducer_of_takeFrom (h : takeFrom p queue = some (x, rest)) :
    ofProducer p queue = x :: ofProducer p rest := by
  induction queue generalizing rest with
  | nil => cases h
  | cons entry queue ih =>
    obtain ⟨r, y⟩ := entry
    obtain ⟨rfl, rfl, rfl⟩ | ⟨other, rest', taken, rfl⟩ := takeFrom_cons h
    · exact ofProducer_cons_self
    · rw [ofProducer_cons_of_ne other, ofProducer_cons_of_ne other, ih taken]

theorem ofProducer_of_takeFrom_of_ne (other : p ≠ r) (h : takeFrom p queue = some (x, rest)) :
    ofProducer r queue = ofProducer r rest := by
  induction queue generalizing rest with
  | nil => cases h
  | cons entry queue ih =>
    obtain ⟨s, y⟩ := entry
    obtain ⟨rfl, rfl, rfl⟩ | ⟨-, rest', taken, rfl⟩ := takeFrom_cons h
    · exact ofProducer_cons_of_ne other
    · rcases eq_or_ne s r with rfl | third
      · rw [ofProducer_cons_self, ofProducer_cons_self, ih taken]
      · rw [ofProducer_cons_of_ne third, ofProducer_cons_of_ne third, ih taken]

/-- The queue of a single producer is first in, first out. -/
theorem takeFrom_of_single (single : ∀ entry ∈ queue, entry.1 = r)
    (h : takeFrom p queue = some (x, rest)) : queue = (r, x) :: rest := by
  cases queue with
  | nil => cases h
  | cons entry queue =>
    obtain ⟨s, y⟩ := entry
    obtain rfl : s = r := single _ List.mem_cons_self
    obtain ⟨rfl, rfl, rfl⟩ | ⟨other, rest', taken, -⟩ := takeFrom_cons h
    · rfl
    · have member : (p, x) ∈ queue := (takeFrom_perm taken).mem_iff.mpr List.mem_cons_self
      exact absurd (single _ (List.mem_cons_of_mem _ member)).symm other

end ProducerQueue
