import Mathlib.Data.List.Infix

/-!
# First occurrence of a pattern in a list

`findFirst pat s` is the position of the first occurrence of `pat` in `s`, and `findFrom` the same
search started at an offset. The characterization `findFirst_eq_some_iff` reduces every fact about
a search to facts about prefixes; `findFirst_take` says how the result depends on how much of the
list is already known, which is what an incremental scan of a growing buffer needs.
-/

namespace Search

variable {α : Type*} [DecidableEq α]

/-- The position of the first occurrence of `pat`. -/
def findFirst (pat : List α) : List α → Option ℕ
  | [] => if pat = [] then some 0 else none
  | a :: s => if pat <+: a :: s then some 0 else (findFirst pat s).map (· + 1)

/-- The position of the first occurrence of `pat` that starts at `offset` or later. -/
def findFrom (pat s : List α) (offset : ℕ) : Option ℕ :=
  if offset ≤ s.length then (findFirst pat (s.drop offset)).map (offset + ·) else none

theorem findFirst_nil (pat : List α) : findFirst pat [] = if pat = [] then some 0 else none := rfl

theorem findFirst_cons (pat : List α) (a : α) (s : List α) :
    findFirst pat (a :: s) =
      if pat <+: a :: s then some 0 else (findFirst pat s).map (· + 1) := rfl

theorem findFrom_zero (pat s : List α) : findFrom pat s 0 = findFirst pat s := by
  rw [findFrom, if_pos (Nat.zero_le _), List.drop_zero]
  cases findFirst pat s <;> simp

/-- The position found is an occurrence, and no earlier position is one. -/
theorem findFirst_eq_some_iff (pat s : List α) (i : ℕ) :
    findFirst pat s = some i ↔
      i ≤ s.length ∧ pat <+: s.drop i ∧ ∀ j < i, ¬ pat <+: s.drop j := by
  induction s generalizing i with
  | nil =>
    rw [findFirst_nil]
    constructor
    · intro h
      split_ifs at h with hp
      obtain rfl : 0 = i := Option.some.inj h
      exact ⟨le_rfl, by simp [hp], fun j hj => absurd hj (Nat.not_lt_zero j)⟩
    · rintro ⟨hi, hp, -⟩
      obtain rfl : i = 0 := Nat.le_zero.mp hi
      rw [if_pos (by simpa using hp)]
  | cons a s ih =>
    rw [findFirst_cons]
    by_cases hp : pat <+: a :: s
    · rw [if_pos hp]
      constructor
      · intro h
        obtain rfl : 0 = i := Option.some.inj h
        exact ⟨Nat.zero_le _, hp, fun j hj => absurd hj (Nat.not_lt_zero j)⟩
      · rintro ⟨-, -, first⟩
        rcases Nat.eq_zero_or_pos i with rfl | hi
        · rfl
        · exact absurd hp (first 0 hi)
    · rw [if_neg hp]
      cases i with
      | zero => simp [hp]
      | succ i =>
        rw [Option.map_eq_some_iff]
        constructor
        · rintro ⟨k, hk, e⟩
          obtain rfl : k = i := Nat.succ.inj e
          obtain ⟨hle, hpre, first⟩ := (ih k).mp hk
          refine ⟨Nat.succ_le_succ hle, hpre, fun j hj => ?_⟩
          cases j with
          | zero => exact hp
          | succ j => exact first j (Nat.lt_of_succ_lt_succ hj)
        · rintro ⟨hle, hpre, first⟩
          exact ⟨i, (ih i).mpr ⟨Nat.le_of_succ_le_succ hle, hpre,
            fun j hj => first (j + 1) (Nat.succ_lt_succ hj)⟩, rfl⟩

theorem length_le_of_findFirst {pat s : List α} {i : ℕ} (h : findFirst pat s = some i) :
    i + pat.length ≤ s.length := by
  obtain ⟨hi, hp, -⟩ := (findFirst_eq_some_iff pat s i).mp h
  have := hp.length_le
  rw [List.length_drop] at this
  omega

theorem findFirst_eq_none_iff (pat s : List α) : findFirst pat s = none ↔ ¬ pat <:+: s := by
  induction s with
  | nil =>
    rw [findFirst_nil, List.infix_nil]
    split_ifs with hp <;> simp [hp]
  | cons a s ih =>
    rw [findFirst_cons, List.infix_cons_iff, not_or]
    split_ifs with hp
    · simp [hp]
    · rw [Option.map_eq_none_iff, ih]
      exact ⟨fun h => ⟨hp, h⟩, And.right⟩

theorem findFirst_isSome_iff (pat s : List α) : (findFirst pat s).isSome ↔ pat <:+: s := by
  rw [← not_iff_not, ← findFirst_eq_none_iff, Option.not_isSome_iff_eq_none]

/-- A prefix of the list that holds the occurrence completely shows the same position. -/
theorem findFirst_take {pat s : List α} {i n : ℕ} (h : findFirst pat s = some i)
    (hn : i + pat.length ≤ n) : findFirst pat (s.take n) = some i := by
  obtain ⟨hi, hp, first⟩ := (findFirst_eq_some_iff pat s i).mp h
  have hlen := length_le_of_findFirst h
  refine (findFirst_eq_some_iff pat _ i).mpr ⟨?_, ?_, fun j hj hj' => first j hj ?_⟩
  · rw [List.length_take]
    omega
  · rw [List.drop_take]
    exact List.prefix_take_iff.mpr ⟨hp, by omega⟩
  · rw [List.drop_take] at hj'
    exact hj'.trans (List.take_prefix _ _)

/-- A prefix that cuts the occurrence shows none. -/
theorem findFirst_take_eq_none {pat s : List α} {i n : ℕ} (h : findFirst pat s = some i)
    (hn : n < i + pat.length) : findFirst pat (s.take n) = none := by
  rcases hfound : findFirst pat (s.take n) with _ | j
  · rfl
  · obtain ⟨-, -, first⟩ := (findFirst_eq_some_iff pat s i).mp h
    obtain ⟨-, hp, -⟩ := (findFirst_eq_some_iff pat _ j).mp hfound
    have hlen := length_le_of_findFirst hfound
    rw [List.length_take] at hlen
    rw [List.drop_take] at hp
    exact absurd (hp.trans (List.take_prefix _ _)) (first j (by omega))

omit [DecidableEq α] in
/-- An element that the pattern does not have separates two parts. -/
theorem infix_append_cons {pat a b : List α} {c : α} (other : c ∉ pat) :
    pat <:+: a ++ c :: b ↔ pat <:+: a ∨ pat <:+: b := by
  have prefix_eq_nil {part : List α} (absent : c ∉ part) (h : part <+: c :: b) : part = [] := by
    cases part with
    | nil => rfl
    | cons d part =>
      rw [(List.cons_prefix_cons.mp h).1] at absent
      exact absurd List.mem_cons_self absent
  constructor
  · intro h
    obtain inA | inB | ⟨front, back, rfl, atEnd, atFront⟩ := List.infix_append_iff.mp h
    · exact Or.inl inA
    · obtain atFront | inside := List.infix_cons_iff.mp inB
      · rw [prefix_eq_nil other atFront]
        exact Or.inl List.nil_infix
      · exact Or.inr inside
    · rw [prefix_eq_nil (fun inBack => other (List.mem_append_right _ inBack)) atFront,
        List.append_nil]
      exact Or.inl atEnd.isInfix
  · rintro (inA | inB)
    · exact inA.trans (List.prefix_append a _).isInfix
    · exact inB.trans ((List.suffix_cons c b).trans (List.suffix_append a _)).isInfix

/-- The part up to the end of an occurrence. -/
theorem take_of_findFirst {pat s : List α} {i : ℕ} (h : findFirst pat s = some i) :
    s.take (i + pat.length) = s.take i ++ pat := by
  obtain ⟨-, occurs, -⟩ := (findFirst_eq_some_iff pat s i).mp h
  rw [List.take_add]
  exact congrArg _ (List.prefix_iff_eq_take.mp occurs).symm

/-- What follows does not change the first occurrence. -/
theorem findFirst_append {pat s : List α} {i : ℕ} (h : findFirst pat s = some i) (t : List α) :
    findFirst pat (s ++ t) = some i := by
  obtain ⟨hi, hp, first⟩ := (findFirst_eq_some_iff pat s i).mp h
  have inside := length_le_of_findFirst h
  refine (findFirst_eq_some_iff pat _ i).mpr ⟨?_, ?_, fun j hj occurs => first j hj ?_⟩
  · rw [List.length_append]
    omega
  · rw [List.drop_append_of_le_length hi]
    exact hp.trans (List.prefix_append _ t)
  · rw [List.drop_append_of_le_length (by omega)] at occurs
    exact List.prefix_of_prefix_length_le occurs (List.prefix_append _ t)
      (by rw [List.length_drop]; omega)

/-- Dropping a part in front of the first occurrence only shifts it. -/
theorem findFirst_drop {pat s : List α} {i k : ℕ} (h : findFirst pat s = some i) (hk : k ≤ i) :
    findFirst pat (s.drop k) = some (i - k) := by
  obtain ⟨hi, hp, first⟩ := (findFirst_eq_some_iff pat s i).mp h
  refine (findFirst_eq_some_iff pat _ _).mpr ⟨?_, ?_, fun j hj => ?_⟩
  · rw [List.length_drop]
    omega
  · rwa [List.drop_drop, Nat.add_sub_cancel' hk]
  · rw [List.drop_drop]
    exact first (k + j) (by omega)

/-- No proper part of the pattern is both at its end and at its beginning. -/
def Unbordered (pat : List α) : Prop :=
  ∀ k, 0 < k → k < pat.length → ¬ pat.drop k <+: pat

omit [DecidableEq α] in
theorem unbordered_singleton (a : α) : Unbordered [a] := by
  intro k pos lt
  rw [List.length_singleton] at lt
  omega

omit [DecidableEq α] in
theorem unbordered_pair {a b : α} (h : a ≠ b) : Unbordered [a, b] := by
  intro k pos lt
  obtain rfl : k = 1 := by
    simp only [List.length_cons, List.length_nil] at lt
    omega
  intro border
  rw [List.drop_succ_cons, List.drop_zero, List.cons_prefix_cons] at border
  exact h border.1.symm

/-- Behind a part that does not hold it, an unbordered pattern is found where it was put. -/
theorem findFirst_append_self {pat a : List α} (unbordered : Unbordered pat) (absent : ¬ pat <:+: a)
    (b : List α) : findFirst pat (a ++ pat ++ b) = some a.length := by
  refine (findFirst_eq_some_iff pat _ _).mpr ⟨?_, ?_, fun j hj occurs => ?_⟩
  · simp only [List.length_append]
    omega
  · rw [List.append_assoc, List.drop_left]
    exact List.prefix_append pat b
  · rw [List.append_assoc, List.drop_append_of_le_length (Nat.le_of_lt hj)] at occurs
    have hlen : (a.drop j).length = a.length - j := List.length_drop
    by_cases inside : j + pat.length ≤ a.length
    · apply absent
      have whole : pat <+: a.drop j :=
        List.prefix_of_prefix_length_le occurs (List.prefix_append _ _) (by omega)
      exact whole.isInfix.trans (List.drop_suffix j a).isInfix
    · -- the occurrence reaches into the pattern, so its end is a border
      apply unbordered (a.length - j) (by omega) (by omega)
      have shifted := occurs.drop (a.length - j)
      rw [← hlen, List.drop_left] at shifted
      rw [← hlen]
      exact List.prefix_of_prefix_length_le shifted (List.prefix_append _ _)
        (by rw [List.length_drop]; omega)

/-- Where a single element is found first, it splits the list. -/
theorem findFirst_singleton_eq_some_iff {c : α} {s : List α} {i : ℕ} :
    findFirst [c] s = some i ↔ ∃ a b, s = a ++ c :: b ∧ c ∉ a ∧ a.length = i := by
  constructor
  · intro h
    have inside := length_le_of_findFirst h
    rw [List.length_singleton] at inside
    refine ⟨s.take i, s.drop (i + 1), ?_, ?_, ?_⟩
    · have upTo := take_of_findFirst h
      rw [List.length_singleton] at upTo
      rw [List.append_cons, ← upTo, List.take_append_drop]
    · have none := findFirst_take_eq_none h (show i < i + 1 by omega)
      rwa [findFirst_eq_none_iff, List.singleton_infix_iff] at none
    · rw [List.length_take]
      omega
  · rintro ⟨a, b, rfl, absent, rfl⟩
    rw [← List.singleton_infix_iff] at absent
    rw [List.append_cons]
    exact findFirst_append_self (unbordered_singleton c) absent b

end Search
