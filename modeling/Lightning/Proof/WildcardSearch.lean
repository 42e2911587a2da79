import Lightning.Proof.RouteText

/-!
# Which routes are wildcard routes

`containsWildcard` is to search for `/*`. It looks for the first `*` and then at the character in
front of it, so a `*` that stands elsewhere hides every wildcard behind it, and `add` registers the
route as a literal one.
-/

namespace Lightning

open Search

namespace strings

theorem count_escape {special : Bytes} {c : UInt8} (plain : c ∉ special) (other : c ≠ 92)
    (str : Bytes) : (escape special str).count c = str.count c := by
  induction str with
  | nil => rfl
  | cons d str ih =>
    rw [escape_cons, List.count_append, ih, List.count_cons]
    by_cases special : d ∈ special
    · have differs : c ≠ d := by
        rintro rfl
        exact plain special
      simp [special, other.symm, differs.symm]
    · rw [if_neg special, List.count_singleton, Nat.add_comm]

theorem length_le_escape (special str : Bytes) : str.length ≤ (escape special str).length := by
  induction str with
  | nil => exact Nat.zero_le _
  | cons c str ih =>
    rw [escape_cons, List.length_append, List.length_cons]
    split_ifs
    · simp only [List.length_cons, List.length_nil]
      omega
    · simp only [List.length_cons, List.length_nil]
      omega

end strings

namespace UriMapper

open strings

variable {uri : Bytes} {fuel : ℕ}

/-- `add` builds the expression of the route with `createWithWildcard`. -/
def AddsWildcard (uri : Bytes) : Prop :=
  ∀ fuel, createRegex fuel uri = (createWithWildcard fuel uri).map .ok

/-- The parentheses of an expression tell the two kinds of routes apart: escaping adds none. -/
theorem count_exactText (uri : Bytes) : (exactText uri).count 40 = uri.count 40 := by
  rw [exactText, List.cons_append, List.count_cons, List.count_append, sanitizeForRegex,
    count_escape (by decide) (by decide)]
  rfl

theorem le_count_wildcardText (uri : Bytes) : uri.count 40 ≤ (wildcardText uri).count 40 := by
  fun_induction wildcardText uri with
  | case1 => exact Nat.le_refl 0
  | case2 rest ih =>
    rw [List.count_append]
    exact Nat.le_trans ih (Nat.le_add_left _ _)
  | case3 c rest _ ih =>
    rw [List.count_append, sanitizeExceptWildcardForRegex, count_escape (by decide) (by decide),
      List.count_cons, List.count_singleton]
    omega

theorem count_wildcardText (present : [47, 42] <:+: uri) :
    uri.count 40 < (wildcardText uri).count 40 := by
  obtain ⟨a, b, rfl, absent⟩ := exists_first present (by decide)
  have later := le_count_wildcardText b
  have group : (chars "(\\/.*|$)").count 40 = 1 := by decide
  have none : ([47, 42] : Bytes).count 40 = 0 := by decide
  have split : a ++ [47, 42] ++ b = a ++ 47 :: 42 :: b := by simp
  have text : (wildcardText (a ++ [47, 42] ++ b)).count 40 =
      a.count 40 + (1 + (wildcardText b).count 40) := by
    rw [split, wildcardText_append absent, List.count_append, List.count_append, group,
      sanitizeExceptWildcardForRegex, count_escape (by decide) (by decide)]
  rw [text, List.count_append, List.count_append, none]
  omega

/-- Where the search finds nothing, the registered expression is another one. -/
theorem addsWildcard_iff (uri : Bytes) : AddsWildcard uri ↔ containsWildcard uri ≠ none := by
  constructor
  · intro adds exact
    have wild := adds (uri.length + 2)
    rw [createRegex, if_pos exact, createWithWildcard_eq (by omega), Option.map_some] at wild
    by_cases diverges : [123, 125] <:+: uri
    · rw [createExactMatch_diverges diverges] at wild
      cases wild
    · rw [createExactMatch_eq diverges, Option.some.injEq, Except.ok.injEq] at wild
      split_ifs at wild with present
      · have more := count_wildcardText present
        rw [← wild, count_exactText] at more
        exact Nat.lt_irrefl _ more
      · have longer := congrArg List.length wild
        have := length_le_escape (chars "[]*/?") uri
        rw [exactText, sanitizeForRegex, List.length_append, List.length_cons] at longer
        omega
  · intro found fuel
    rw [createRegex, if_neg found]

/-- A route is treated as a wildcard route exactly if it holds `/*`, provided that in this case its
first star is the one of a `/*`. -/
theorem addsWildcard_documented_iff (uri : Bytes) :
    (AddsWildcard uri ↔ chars "/*" <:+: uri) ↔
      (chars "/*" <:+: uri → ∃ front back, uri = front ++ chars "/*" ++ back ∧ 42 ∉ front) := by
  have slashStar : chars "/*" = [47, 42] := by decide
  have first : AddsWildcard uri ↔
      ∃ front back, uri = front ++ chars "/*" ++ back ∧ 42 ∉ front := by
    rw [addsWildcard_iff, containsWildcard_ne_none_iff, slashStar]
    simp
  constructor
  · intro documented present
    exact first.mp (documented.mpr present)
  · intro unhidden
    constructor
    · intro adds
      rw [slashStar]
      exact infix_of_containsWildcard ((addsWildcard_iff uri).mp adds)
    · intro present
      exact first.mpr (unhidden present)

/-- A star in the middle of a segment hides the wildcard. -/
theorem not_addsWildcard_hidden :
    chars "/*" <:+: chars "/a*b/*" ∧ ¬ AddsWildcard (chars "/a*b/*") := by
  refine ⟨by decide, fun adds => ?_⟩
  exact (addsWildcard_iff _).mp adds (by decide)

end UriMapper

end Lightning
