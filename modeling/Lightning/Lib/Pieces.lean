import Lightning.Lib.Search

/-!
# The pieces of a list between the occurrences of a pattern

`pieces` scans a list from the left and cuts it at every occurrence of a pattern that does not
overlap the one before. `weave` puts other separators in place of the first of them. When these
share no element with the pattern, the scan of the result finds the remaining occurrences and no
others (`pieces_weave`), however the separators meet the pieces.
-/

namespace Search

variable {α : Type*} [DecidableEq α] {pat s first : List α} {others : List (List α)}

/-- The part in front of the first occurrence and the parts behind each occurrence. The elements to
be skipped still belong to the last one. -/
def pieces (pat : List α) : List α → ℕ → List α × List (List α)
  | [], _ => ([], [])
  | _ :: s, skip + 1 => pieces pat s skip
  | a :: s, 0 =>
      if pat <+: a :: s then
        ([], (pieces pat s (pat.length - 1)).1 :: (pieces pat s (pat.length - 1)).2)
      else (a :: (pieces pat s 0).1, (pieces pat s 0).2)

theorem pieces_skip (pat s : List α) (skip : ℕ) :
    pieces pat s skip = pieces pat (s.drop skip) 0 := by
  induction s generalizing skip with
  | nil => rw [List.drop_nil, pieces, pieces]
  | cons a s ih =>
    cases skip with
    | zero => rfl
    | succ skip => rw [pieces, List.drop_succ_cons, ih]

theorem pieces_occurrence (nonempty : pat ≠ []) (s : List α) :
    pieces pat (pat ++ s) 0 = ([], (pieces pat s 0).1 :: (pieces pat s 0).2) := by
  obtain ⟨a, rest, rfl⟩ := List.exists_cons_of_ne_nil nonempty
  have here : a :: rest <+: a :: (rest ++ s) := List.prefix_append (a :: rest) s
  rw [List.cons_append, pieces, if_pos here, pieces_skip _ (rest ++ s), List.length_cons,
    Nat.add_sub_cancel, List.drop_left]

theorem pieces_other {a : α} (h : ¬ pat <+: a :: s) :
    pieces pat (a :: s) 0 = (a :: (pieces pat s 0).1, (pieces pat s 0).2) := by
  rw [pieces, if_neg h]

/-- The pieces with the occurrences in between are the list, and no piece holds another one. -/
theorem pieces_spec (nonempty : pat ≠ []) (s : List α) :
    (pieces pat s 0).1 ++ (pieces pat s 0).2.flatMap (pat ++ ·) = s ∧
      ¬ pat <:+: (pieces pat s 0).1 := by
  induction hn : s.length using Nat.strong_induction_on generalizing s with
  | _ n ih =>
    cases s with
    | nil => exact ⟨rfl, fun h => nonempty (List.infix_nil.mp h)⟩
    | cons a s =>
      subst hn
      by_cases here : pat <+: a :: s
      · obtain ⟨rest, hrest⟩ := here
        have shorter : rest.length < (a :: s).length := by
          have := List.length_pos_iff.mpr nonempty
          rw [← hrest, List.length_append]
          omega
        obtain ⟨whole, -⟩ := ih rest.length shorter rest rfl
        rw [← hrest, pieces_occurrence nonempty]
        refine ⟨?_, fun h => nonempty (List.infix_nil.mp h)⟩
        rw [List.nil_append, List.flatMap_cons, List.append_assoc, whole]
      · obtain ⟨whole, absent⟩ := ih s.length (Nat.lt_succ_self _) s rfl
        rw [pieces_other here, List.cons_append, whole, List.infix_cons_iff]
        refine ⟨rfl, fun h => h.elim (fun atFront => here ?_) absent⟩
        have front : a :: (pieces pat s 0).1 <+: a :: s :=
          List.cons_prefix_cons.mpr ⟨rfl, ⟨_, whole⟩⟩
        exact atFront.trans front

/-- Where the scan has cut once, the first occurrence is behind the first piece, and the scan of
what follows gives the other pieces. -/
theorem pieces_eq_cons {part : List α} (nonempty : pat ≠ [])
    (h : pieces pat s 0 = (first, part :: others)) :
    ∃ rest, s = first ++ pat ++ rest ∧ pieces pat rest 0 = (part, others) ∧
      findFirst pat s = some first.length := by
  induction s generalizing first with
  | nil => cases h
  | cons a s ih =>
    by_cases here : pat <+: a :: s
    · obtain ⟨rest, hrest⟩ := here
      rw [← hrest, pieces_occurrence nonempty, Prod.mk.injEq, List.cons.injEq] at h
      obtain ⟨rfl, rfl, rfl⟩ := h
      refine ⟨rest, hrest.symm, rfl, ?_⟩
      rw [findFirst_cons, if_pos ⟨rest, hrest⟩, List.length_nil]
    · rw [pieces_other here, Prod.mk.injEq] at h
      obtain ⟨rfl, later⟩ := h
      obtain ⟨rest, split, hrest, found⟩ := ih (Prod.ext rfl later)
      refine ⟨rest, ?_, hrest, ?_⟩
      · rw [List.cons_append, List.cons_append, ← split]
      · rw [findFirst_cons, if_neg here, found, Option.map_some, List.length_cons]

theorem findFirst_of_pieces_nil (nonempty : pat ≠ []) (h : pieces pat s 0 = (first, [])) :
    findFirst pat s = none := by
  obtain ⟨whole, absent⟩ := pieces_spec nonempty s
  rw [h, List.flatMap_nil, List.append_nil] at whole
  rw [h, whole] at absent
  exact (findFirst_eq_none_iff pat s).mpr absent

/-- The scan passes over an element that the pattern does not have. -/
theorem pieces_append_cons {a b : List α} {c : α} (absent : ¬ pat <:+: a) (other : c ∉ pat)
    (nonempty : pat ≠ []) :
    pieces pat (a ++ c :: b) 0 = (a ++ c :: (pieces pat b 0).1, (pieces pat b 0).2) := by
  induction a with
  | nil =>
    have here : ¬ pat <+: c :: b := by
      intro h
      obtain ⟨d, rest, rfl⟩ := List.exists_cons_of_ne_nil nonempty
      rw [(List.cons_prefix_cons.mp h).1] at other
      exact other List.mem_cons_self
    rw [List.nil_append, pieces_other here, List.nil_append]
  | cons d a ih =>
    rw [List.infix_cons_iff, not_or] at absent
    have here : ¬ pat <+: d :: (a ++ c :: b) := by
      intro h
      by_cases inside : pat.length ≤ (d :: a).length
      · exact absent.1 (List.prefix_of_prefix_length_le h (List.prefix_append (d :: a) _) inside)
      · -- an occurrence that reaches further would hold the element
        have reaches : (d :: a) ++ [c] <+: pat := by
          refine List.prefix_of_prefix_length_le ?_ h ?_
          · exact ⟨b, by simp⟩
          · rw [List.length_append, List.length_singleton]
            omega
        exact other (reaches.subset (by simp))
    rw [List.cons_append, pieces_other here, ih absent.2, List.cons_append]

theorem pieces_append_filler {a b filler : List α} (absent : ¬ pat <:+: a) (nonempty : pat ≠ [])
    (filled : filler ≠ []) (disjoint : ∀ c ∈ filler, c ∉ pat) :
    pieces pat (a ++ filler ++ b) 0 =
      (a ++ filler ++ (pieces pat b 0).1, (pieces pat b 0).2) := by
  induction filler generalizing a with
  | nil => exact absurd rfl filled
  | cons c filler ih =>
    obtain ⟨other, later⟩ := List.forall_mem_cons.mp disjoint
    rw [List.append_assoc, List.cons_append, pieces_append_cons absent other nonempty]
    by_cases last : filler = []
    · simp [last]
    · have empty : ¬ pat <:+: ([] : List α) := fun h => nonempty (List.infix_nil.mp h)
      have := ih empty last later
      rw [List.nil_append] at this
      rw [this]
      simp

theorem pieces_of_absent (nonempty : pat ≠ []) (absent : ¬ pat <:+: s) :
    pieces pat s 0 = (s, []) := by
  cases h : pieces pat s 0 with
  | mk first others =>
    cases others with
    | nil =>
      have whole := (pieces_spec nonempty s).1
      rw [h, List.flatMap_nil, List.append_nil] at whole
      exact congrArg (·, []) whole
    | cons part others =>
      obtain ⟨rest, split, -, -⟩ := pieces_eq_cons nonempty h
      exact absurd ⟨first, rest, split.symm⟩ absent

/-- A part that does not hold the pattern is cut off where the pattern follows. -/
theorem pieces_append_self {a : List α} (unbordered : Unbordered pat) (nonempty : pat ≠ [])
    (absent : ¬ pat <:+: a) (b : List α) :
    pieces pat (a ++ pat ++ b) 0 = (a, (pieces pat b 0).1 :: (pieces pat b 0).2) := by
  induction a with
  | nil => rw [List.nil_append, pieces_occurrence nonempty]
  | cons c a ih =>
    have found := findFirst_append_self unbordered absent b
    rw [List.infix_cons_iff, not_or] at absent
    have here : ¬ pat <+: c :: (a ++ pat ++ b) := by
      intro early
      rw [List.cons_append, List.cons_append, findFirst_cons, if_pos early] at found
      cases found
    rw [List.cons_append, List.cons_append, pieces_other here, ih absent.2]

/-- Cutting undoes joining when no part holds the pattern. -/
theorem pieces_join (unbordered : Unbordered pat) (nonempty : pat ≠ []) (absent : ¬ pat <:+: first)
    (absentLater : ∀ part ∈ others, ¬ pat <:+: part) :
    pieces pat (first ++ others.flatMap (pat ++ ·)) 0 = (first, others) := by
  induction others generalizing first with
  | nil => rw [List.flatMap_nil, List.append_nil, pieces_of_absent nonempty absent]
  | cons part others ih =>
    obtain ⟨here, later⟩ := List.forall_mem_cons.mp absentLater
    rw [List.flatMap_cons, List.append_assoc, ← List.append_assoc,
      pieces_append_self unbordered nonempty absent, ih here later]

/-- Some separators, then the pattern again, in front of the pieces. -/
def weave (pat : List α) : List (List α) → List (List α) → List α
  | [], others => others.flatMap (pat ++ ·)
  | _ :: _, [] => []
  | separator :: separators, part :: others => separator ++ (part ++ weave pat separators others)

/-- Separators that share nothing with the pattern neither make nor hide an occurrence. -/
theorem pieces_weave {separators : List (List α)} (nonempty : pat ≠ [])
    (filled : ∀ separator ∈ separators, separator ≠ [] ∧ ∀ c ∈ separator, c ∉ pat)
    (h : pieces pat s 0 = (first, others)) (enough : separators.length ≤ others.length) :
    pieces pat (first ++ weave pat separators others) 0 =
      (first ++ (List.zipWith (· ++ ·) separators others).flatten,
        others.drop separators.length) := by
  induction separators generalizing s first others with
  | nil =>
    have whole := (pieces_spec nonempty s).1
    rw [h] at whole
    rw [weave, whole, h, List.zipWith_nil_left, List.flatten_nil, List.append_nil, List.length_nil,
      List.drop_zero]
  | cons separator separators ih =>
    cases others with
    | nil => exact absurd enough (by simp)
    | cons part others =>
      obtain ⟨here, later⟩ := List.forall_mem_cons.mp filled
      obtain ⟨rest, -, hrest, -⟩ := pieces_eq_cons nonempty h
      have absent := (pieces_spec nonempty s).2
      rw [h] at absent
      rw [weave, ← List.append_assoc, pieces_append_filler absent nonempty here.1 here.2,
        ih later hrest (Nat.le_of_succ_le_succ enough)]
      simp

end Search
