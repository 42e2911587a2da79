import Lightning.UriMapper
import Lightning.Lib.Pieces

/-!
# What `formatEx` returns

One round of `formatEx` replaces as many tokens as there are replacers, and the recursion goes on
with the rest until too few are left. A replacer that shares no character with the token leaves the
other tokens where they are, so the rounds add up to one pass over the pieces of the text.
-/

namespace Lightning.strings

open Search

variable {str sepratorToken first replaced : Bytes} {others replacers : List Bytes} {offset : ℕ}

/-- The parts behind each token with the replacers in turn in front of them, as often as all of them
fit, and with the token in front of the others. -/
def substitute (sepratorToken : Bytes) (replacers others : List Bytes) : Bytes :=
  (others.mapIdx fun j part =>
    (if j < replacers.length * (others.length / replacers.length) then
      replacers.getD (j % replacers.length) []
    else sepratorToken) ++ part).flatten

/-- The text with its tokens replaced. -/
def formatted (str sepratorToken : Bytes) (replacers : List Bytes) : Bytes :=
  (pieces sepratorToken str 0).1 ++
    substitute sepratorToken replacers (pieces sepratorToken str 0).2

theorem flatten_mapIdx_const (separator : Bytes) (others : List Bytes) :
    (others.mapIdx fun _ part => separator ++ part).flatten = others.flatMap (separator ++ ·) := by
  induction others with
  | nil => rfl
  | cons part others ih => rw [List.mapIdx_cons, List.flatten_cons, ih, List.flatMap_cons]

theorem substitute_of_lt (few : others.length < replacers.length) :
    substitute sepratorToken replacers others = others.flatMap (sepratorToken ++ ·) := by
  simp only [substitute, Nat.div_eq_of_lt few, Nat.mul_zero, Nat.not_lt_zero, if_false]
  exact flatten_mapIdx_const sepratorToken others

theorem mapIdx_getD_eq_zipWith (enough : others.length ≤ replacers.length) :
    (others.mapIdx fun j part => replacers.getD j [] ++ part) =
      List.zipWith (· ++ ·) replacers others := by
  induction others generalizing replacers with
  | nil => rw [List.mapIdx_nil, List.zipWith_nil_right]
  | cons part others ih =>
    cases replacers with
    | nil => exact absurd enough (by simp)
    | cons replacer replacers =>
      have later := ih (Nat.le_of_succ_le_succ enough)
      rw [List.mapIdx_cons, List.zipWith_cons_cons, ← later]
      rfl

/-- The first round, and what the rounds after it do. -/
theorem substitute_of_le (nonempty : replacers ≠ []) (enough : replacers.length ≤ others.length) :
    substitute sepratorToken replacers others =
      (List.zipWith (· ++ ·) replacers others).flatten ++
        substitute sepratorToken replacers (others.drop replacers.length) := by
  set k := replacers.length with hk
  have pos : 0 < k := List.length_pos_iff.mpr nonempty
  have rounds : others.length / k = (others.length - k) / k + 1 := Nat.div_eq_sub_div pos enough
  have lenFront : (others.take k).length = k := List.length_take_of_le enough
  have lenBack : (others.drop k).length = others.length - k := List.length_drop
  have front : ((others.take k).mapIdx fun j part =>
      (if j < k * (others.length / k) then replacers.getD (j % k) [] else sepratorToken) ++ part) =
        List.zipWith (· ++ ·) replacers others := by
    rw [List.zipWith_eq_zipWith_take_min, ← hk, Nat.min_eq_left enough,
      List.take_of_length_le (Nat.le_of_eq hk.symm), ← mapIdx_getD_eq_zipWith (by omega)]
    apply List.ext_getElem (by simp)
    intro j hj _
    rw [List.length_mapIdx, lenFront] at hj
    have : j < k * ((others.length - k) / k + 1) := by
      rw [Nat.mul_add]
      omega
    simp only [List.getElem_mapIdx, rounds, if_pos this, Nat.mod_eq_of_lt hj]
  have back : (fun j part =>
      (if j + k < k * (others.length / k) then replacers.getD ((j + k) % k) []
        else sepratorToken) ++ part) = fun j (part : Bytes) =>
      (if j < k * ((others.length - k) / k) then replacers.getD (j % k) []
        else sepratorToken) ++ part := by
    funext j part
    have : j + k < k * ((others.length - k) / k + 1) ↔ j < k * ((others.length - k) / k) := by
      rw [Nat.mul_add]
      omega
    simp only [rounds, this, Nat.add_mod_right]
  rw [substitute, substitute, ← hk, ← List.take_append_drop k others, List.mapIdx_append,
    List.flatten_append, lenFront, List.take_append_drop, front, back, lenBack]

theorem substitute_singleton (replacer : Bytes) (others : List Bytes) :
    substitute sepratorToken [replacer] others = others.flatMap (replacer ++ ·) := by
  induction others with
  | nil => rfl
  | cons part others ih =>
    rw [substitute_of_le (List.cons_ne_nil _ _) (by simp), List.length_singleton, List.drop_one,
      List.tail_cons, ih]
    simp

theorem substitute_of_eq (nonempty : replacers ≠ []) (all : replacers.length = others.length) :
    substitute sepratorToken replacers others =
      (List.zipWith (· ++ ·) replacers others).flatten := by
  rw [substitute_of_le nonempty (Nat.le_of_eq all), all, List.drop_length, substitute,
    List.mapIdx_nil, List.flatten_nil, List.append_nil]

theorem weave_eq (enough : replacers.length ≤ others.length) :
    weave sepratorToken replacers others =
      (List.zipWith (· ++ ·) replacers others).flatten ++
        (others.drop replacers.length).flatMap (sepratorToken ++ ·) := by
  induction replacers generalizing others with
  | nil => rfl
  | cons replacer replacers ih =>
    cases others with
    | nil => exact absurd enough (by simp)
    | cons part others =>
      rw [weave, ih (Nat.le_of_succ_le_succ enough)]
      simp

/-! ## One round -/

theorem replaceTokens_of_lt (nonempty : sepratorToken ≠ [])
    (h : pieces sepratorToken (str.drop offset) 0 = (first, others)) (inside : offset ≤ str.length)
    (few : others.length < replacers.length) :
    replaceTokens str sepratorToken replacers replaced offset = none := by
  induction replacers generalizing offset first others replaced with
  | nil => exact absurd few (Nat.not_lt_zero _)
  | cons replacer replacers ih =>
    rw [replaceTokens, findFrom, if_pos inside]
    cases others with
    | nil => rw [findFirst_of_pieces_nil nonempty h, Option.map_none]
    | cons part others =>
      obtain ⟨rest, split, hrest, found⟩ := pieces_eq_cons nonempty h
      have dropped : str.drop (offset + first.length + sepratorToken.length) = rest := by
        rw [Nat.add_assoc, ← List.drop_drop, split, ← List.length_append, List.drop_left]
      have bound := congrArg List.length split
      simp only [List.length_drop, List.length_append] at bound
      rw [found, Option.map_some]
      exact ih (by rw [dropped, hrest]) (by omega) (Nat.lt_of_succ_lt_succ few)

/-- The loop has put the replacers between the pieces, and the rest is still to be copied. -/
theorem replaceTokens_of_le (nonempty : sepratorToken ≠ [])
    (h : pieces sepratorToken (str.drop offset) 0 = (first, others)) (inside : offset ≤ str.length)
    (enough : replacers.length ≤ others.length) :
    ∃ replaced' offset', replaceTokens str sepratorToken replacers replaced offset =
        some (replaced', offset') ∧
      replaced' ++ str.drop offset' =
        replaced ++ (first ++ weave sepratorToken replacers others) := by
  induction replacers generalizing offset first others replaced with
  | nil =>
    have whole := (pieces_spec nonempty (str.drop offset)).1
    rw [h] at whole
    exact ⟨replaced, offset, rfl, by rw [weave, whole]⟩
  | cons replacer replacers ih =>
    cases others with
    | nil => exact absurd enough (by simp)
    | cons part others =>
      obtain ⟨rest, split, hrest, found⟩ := pieces_eq_cons nonempty h
      have dropped : str.drop (offset + first.length + sepratorToken.length) = rest := by
        rw [Nat.add_assoc, ← List.drop_drop, split, ← List.length_append, List.drop_left]
      have bound := congrArg List.length split
      simp only [List.length_drop, List.length_append] at bound
      have copied : (str.drop offset).take (offset + first.length - offset) = first := by
        rw [Nat.add_sub_cancel_left, split, List.append_assoc, List.take_left]
      obtain ⟨replaced', offset', done, text⟩ :=
        @ih part (replaced ++ first ++ replacer) others
          (offset + first.length + sepratorToken.length) (by rw [dropped, hrest]) (by omega)
          (Nat.le_of_succ_le_succ enough)
      refine ⟨replaced', offset', ?_, ?_⟩
      · rw [replaceTokens, findFrom, if_pos inside, found, Option.map_some]
        dsimp only
        rw [copied]
        exact done
      · rw [text, weave]
        simp only [List.append_assoc]

/-! ## All rounds -/

/-- By induction on the number of tokens, which every round lowers. -/
theorem formatEx_eq (nonempty : sepratorToken ≠ []) (given : replacers ≠ [])
    (filled : ∀ replacer ∈ replacers, replacer ≠ [] ∧ ∀ c ∈ replacer, c ∉ sepratorToken)
    {fuel : ℕ} (bound : (pieces sepratorToken str 0).2.length < fuel) :
    formatEx fuel str sepratorToken replacers =
      if (pieces sepratorToken str 0).2.length < replacers.length then some none
      else some (some (formatted str sepratorToken replacers)) := by
  induction fuel generalizing str with
  | zero => exact absurd bound (Nat.not_lt_zero _)
  | succ fuel ih =>
    obtain ⟨first, others, h⟩ : ∃ first others, pieces sepratorToken str 0 = (first, others) :=
      ⟨_, _, rfl⟩
    have atStart : pieces sepratorToken (str.drop 0) 0 = (first, others) := by
      rw [List.drop_zero, h]
    rw [h] at bound
    rw [formatEx, formatted, h]
    dsimp only at bound ⊢
    split_ifs with few
    · rw [replaceTokens_of_lt nonempty atStart (Nat.zero_le _) few]
    · have enough := Nat.le_of_not_lt few
      have pos := List.length_pos_iff.mpr given
      obtain ⟨replaced, offset, done, text⟩ :=
        @replaceTokens_of_le str sepratorToken first [] others replacers 0 nonempty atStart
          (Nat.zero_le _) enough
      have next := pieces_weave nonempty filled h enough
      rw [List.nil_append] at text
      rw [done]
      dsimp only
      have nonzero : (first ++ weave sepratorToken replacers others).length ≠ 0 := by
        obtain ⟨replacer, replacers, rfl⟩ := List.exists_cons_of_ne_nil given
        have := List.length_pos_iff.mpr (List.forall_mem_cons.mp filled).1.1
        rw [weave_eq enough]
        cases others with
        | nil => exact absurd enough (by simp)
        | cons part others =>
          simp only [List.zipWith_cons_cons, List.flatten_cons, List.length_append]
          omega
      rw [text, if_pos nonzero, ih (by rw [next, List.length_drop]; omega), formatted, next,
        substitute_of_le given enough]
      split_ifs with last
      · rw [Option.map_some, Option.getD_none, substitute_of_lt last, weave_eq enough]
      · rw [Option.map_some, Option.getD_some, List.append_assoc]

/-- `formatEx` terminates. Too many replacers give nothing; otherwise the tokens are replaced by the
replacers in turn as often as all of them fit. One replacer replaces every token, and as many
replacers as there are tokens replace each by its own. -/
theorem formatEx_replaces (nonempty : sepratorToken ≠ []) (given : replacers ≠ [])
    (filled : ∀ replacer ∈ replacers, replacer ≠ [] ∧ ∀ c ∈ replacer, c ∉ sepratorToken)
    (h : pieces sepratorToken str 0 = (first, others)) :
    str = first ++ others.flatMap (sepratorToken ++ ·) ∧
      (∀ fuel, others.length < fuel → formatEx fuel str sepratorToken replacers =
        if others.length < replacers.length then some none
        else some (some (first ++ substitute sepratorToken replacers others))) ∧
      (∀ replacer, replacers = [replacer] →
        substitute sepratorToken replacers others = others.flatMap (replacer ++ ·)) ∧
      (replacers.length = others.length → substitute sepratorToken replacers others =
        (List.zipWith (· ++ ·) replacers others).flatten) := by
  refine ⟨?_, fun fuel bound => ?_, ?_, substitute_of_eq given⟩
  · have whole := (pieces_spec nonempty str).1
    rw [h] at whole
    exact whole.symm
  · have result := @formatEx_eq str sepratorToken replacers nonempty given filled fuel
    rw [formatted, h] at result
    exact result bound
  · rintro replacer rfl
    exact substitute_singleton replacer others

/-- Two of the three tokens are replaced by two replacers. -/
theorem formatEx_replaces_three :
    formatEx 4 (chars "a\x7b\x7db\x7b\x7dc\x7b\x7d") (chars "\x7b\x7d")
      [chars "1", chars "22"] = some (some (chars "a1b22c\x7b\x7d")) := by
  have filled : ∀ replacer ∈ [chars "1", chars "22"],
      replacer ≠ [] ∧ ∀ c ∈ replacer, c ∉ chars "\x7b\x7d" := by
    simp [chars]
  exact (@formatEx_replaces (chars "a\x7b\x7db\x7b\x7dc\x7b\x7d") (chars "\x7b\x7d") (chars "a")
    [chars "b", chars "c", []] [chars "1", chars "22"] (by decide) (by decide) filled
    (by decide)).2.1 4 (by decide)

end Lightning.strings
