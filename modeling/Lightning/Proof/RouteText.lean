import Mathlib.Data.List.TakeWhile
import Lightning.UriMapper
import Lightning.Lib.RegexSyntax

/-!
# The text of a registered expression

`add` escapes a route and substitutes it into a template with `formatEx`, which calls itself on its
result. For an exact route that recursion ends exactly when the route does not hold the token `{}`;
for a wildcard route it always ends, with every `/*` replaced. `routeSymbols` reads the resulting
expression off the route itself: which of its characters are bare and which are escaped.
-/

namespace Lightning

open Search EcmaScript

namespace strings

variable {str sepratorToken replacer a b : Bytes} {fuel : ℕ}

/-! ## The recursion of `formatEx` -/

theorem replaceTokens_singleton (str sepratorToken replacer : Bytes) :
    replaceTokens str sepratorToken [replacer] [] 0 =
      (findFirst sepratorToken str).map fun tokenIndex =>
        (str.take tokenIndex ++ replacer, tokenIndex + sepratorToken.length) := by
  rw [replaceTokens, findFrom_zero]
  cases findFirst sepratorToken str with
  | none => rfl
  | some tokenIndex => simp [replaceTokens]

theorem formatEx_of_absent (absent : ¬ sepratorToken <:+: str) :
    formatEx (fuel + 1) str sepratorToken [replacer] = some none := by
  rw [formatEx, replaceTokens_singleton, (findFirst_eq_none_iff _ _).mpr absent]
  rfl

theorem formatEx_of_first (unbordered : Unbordered sepratorToken) (absent : ¬ sepratorToken <:+: a)
    (filled : a ++ replacer ++ b ≠ []) :
    formatEx (fuel + 1) (a ++ sepratorToken ++ b) sepratorToken [replacer] =
      (formatEx fuel (a ++ replacer ++ b) sepratorToken [replacer]).map fun result =>
        some (result.getD (a ++ replacer ++ b)) := by
  have front : (a ++ sepratorToken ++ b).take a.length = a := by simp
  have back : (a ++ sepratorToken ++ b).drop (a.length + sepratorToken.length) = b := by
    rw [← List.length_append, List.drop_left]
  rw [formatEx, replaceTokens_singleton, findFirst_append_self unbordered absent b,
    Option.map_some]
  simp only [front, back, if_pos (mt List.eq_nil_of_length_eq_zero filled)]

theorem exists_first (h : sepratorToken <:+: str) (nonempty : sepratorToken ≠ []) :
    ∃ a b, str = a ++ sepratorToken ++ b ∧ ¬ sepratorToken <:+: a := by
  obtain ⟨i, hi⟩ := Option.isSome_iff_exists.mp ((findFirst_isSome_iff _ _).mpr h)
  obtain ⟨-, ⟨b, hb⟩, -⟩ := (findFirst_eq_some_iff _ _ _).mp hi
  refine ⟨str.take i, b, ?_, ?_⟩
  · rw [List.append_assoc, hb, List.take_append_drop]
  · rw [← findFirst_eq_none_iff]
    have := List.length_pos_iff.mpr nonempty
    exact findFirst_take_eq_none hi (by omega)

/-- A replacement that holds the token itself leaves one in the text at every depth. -/
theorem formatEx_diverges (unbordered : Unbordered sepratorToken) (nonempty : sepratorToken ≠ [])
    (inside : sepratorToken <:+: replacer) (h : sepratorToken <:+: str) :
    formatEx fuel str sepratorToken [replacer] = none := by
  induction fuel generalizing str with
  | zero => rfl
  | succ fuel ih =>
    obtain ⟨a, b, rfl, absent⟩ := exists_first h nonempty
    have filled : a ++ replacer ++ b ≠ [] := by
      intro empty
      obtain ⟨front, -⟩ := List.append_eq_nil_iff.mp empty
      rw [(List.append_eq_nil_iff.mp front).2] at inside
      exact nonempty (List.infix_nil.mp inside)
    rw [formatEx_of_first unbordered absent filled, ih, Option.map_none]
    exact inside.trans ⟨a, b, rfl⟩

theorem formatEx_mono {replacers : List Bytes} {result : Option Bytes} {more : ℕ} (le : fuel ≤ more)
    (h : formatEx fuel str sepratorToken replacers = some result) :
    formatEx more str sepratorToken replacers = some result := by
  induction fuel generalizing str result more with
  | zero => contradiction
  | succ fuel ih =>
    obtain ⟨more, rfl⟩ := Nat.exists_eq_add_of_le' (Nat.le_trans (Nat.le_add_left 1 fuel) le)
    rw [formatEx] at h ⊢
    cases found : replaceTokens str sepratorToken replacers [] 0 with
    | none => rwa [found] at h
    | some replaced =>
      simp only [found] at h ⊢
      split_ifs at h ⊢ with filled
      · obtain ⟨deeper, hdeeper, e⟩ := Option.map_eq_some_iff.mp h
        rw [ih (Nat.le_of_succ_le_succ le) hdeeper, Option.map_some, e]
      · exact h

/-! ## Escaping -/

theorem escape_cons (special : Bytes) (c : UInt8) (str : Bytes) :
    escape special (c :: str) =
      (if c ∈ special then [92, c] else [c]) ++ escape special str := rfl

theorem escape_append (special a b : Bytes) :
    escape special (a ++ b) = escape special a ++ escape special b := List.flatMap_append

theorem special_exact : chars "[]*/?" = [91, 93, 42, 47, 63] := by decide

theorem special_wildcard : chars "[]/?" = [91, 93, 47, 63] := by decide

/-- A character that is not escaped begins the escaped text when it begins the text. -/
theorem singleton_prefix_escape_iff {special : Bytes} {c : UInt8} (plain : c ∉ special)
    (other : c ≠ 92) (str : Bytes) : [c] <+: escape special str ↔ [c] <+: str := by
  cases str with
  | nil => rfl
  | cons d str =>
    rw [escape_cons]
    split_ifs with hd
    · have : c ≠ d := by
        rintro rfl
        exact plain hd
      simp [other, this]
    · simp

theorem pair_infix_escape_iff {special : Bytes} {c d : UInt8} (hc : c ∉ special) (hd : d ∉ special)
    (hc' : c ≠ 92) (hd' : d ≠ 92) (str : Bytes) :
    [c, d] <:+: escape special str ↔ [c, d] <:+: str := by
  induction str with
  | nil => rfl
  | cons e str ih =>
    rw [escape_cons]
    split_ifs with he
    · have : c ≠ e := by
        rintro rfl
        exact hc he
      simp [List.infix_cons_iff, ih, hc', this]
    · rw [List.singleton_append, List.infix_cons_iff, List.infix_cons_iff, ih,
        List.cons_prefix_cons, List.cons_prefix_cons, singleton_prefix_escape_iff hd hd']

theorem wildcard_infix_escape_iff (str : Bytes) :
    [92, 47, 42] <:+: sanitizeExceptWildcardForRegex str ↔ [47, 42] <:+: str := by
  rw [sanitizeExceptWildcardForRegex, special_wildcard]
  have noSlash (str : Bytes) : ¬ [47, 42] <+: escape [91, 93, 47, 63] str := by
    cases str with
    | nil => simp [escape]
    | cons d str =>
      rw [escape_cons]
      split_ifs with hd
      · simp
      · have : (47 : UInt8) ≠ d := by
          rintro rfl
          exact hd (by decide)
        simp [this]
  induction str with
  | nil => simp [escape]
  | cons e str ih =>
    have later : [42] <+: escape [91, 93, 47, 63] str ↔ [42] <+: str :=
      singleton_prefix_escape_iff (by decide) (by decide) str
    rw [escape_cons]
    split_ifs with he
    · have : (92 : UInt8) ≠ e := by
        rintro rfl
        exact absurd he (by decide)
      simp [List.infix_cons_iff, this, later, ih]
    · have : (47 : UInt8) ≠ e := by
        rintro rfl
        exact he (by decide)
      simp [List.infix_cons_iff, this, noSlash, ih]

end strings

namespace UriMapper

open strings

variable {uri : Bytes} {fuel : ℕ}

/-! ## Exact routes -/

theorem braces : chars "\x7b\x7d" = [123, 125] := by decide

theorem exactMatchTemplate : chars "^\x7b\x7d$" = [94] ++ [123, 125] ++ [36] := by decide

theorem braces_infix_iff (uri : Bytes) :
    [123, 125] <:+: sanitizeForRegex uri ↔ [123, 125] <:+: uri := by
  rw [sanitizeForRegex, special_exact]
  exact pair_infix_escape_iff (by decide) (by decide) (by decide) (by decide) uri

def exactText (uri : Bytes) : Bytes := 94 :: sanitizeForRegex uri ++ [36]

theorem createExactMatch_eq (absent : ¬ [123, 125] <:+: uri) :
    createExactMatch (fuel + 2) uri = some (.ok (exactText uri)) := by
  have closed : ¬ [123, 125] <:+: [94] ++ sanitizeForRegex uri ++ [36] := by
    rw [List.singleton_append, List.cons_append, List.infix_cons_iff, infix_append_cons (by decide),
      braces_infix_iff]
    simp [absent]
  rw [createExactMatch, strings.format, exactMatchTemplate, braces]
  rw [formatEx_of_first (unbordered_pair (by decide)) (by decide) (by simp),
    formatEx_of_absent closed]
  rfl

theorem createExactMatch_diverges (present : [123, 125] <:+: uri) :
    createExactMatch fuel uri = none := by
  rw [createExactMatch, strings.format, exactMatchTemplate, braces,
    formatEx_diverges (unbordered_pair (by decide)) (by decide)
      ((braces_infix_iff uri).mpr present) ⟨[94], [36], rfl⟩]
  rfl

/-- How the characters of an exact route stand in its expression. The `$` of the template is escaped
by a backslash at the end of the route. -/
def exactSymbols : Bytes → List Symbol
  | [] => [.bare 36]
  | [92] => [.escaped 36]
  | 92 :: c :: rest =>
      if c ∈ chars "[]*/?" then .escaped 92 :: .bare c :: exactSymbols rest
      else .escaped c :: exactSymbols rest
  | c :: rest => (if c ∈ chars "[]*/?" then .escaped c else .bare c) :: exactSymbols rest

/-- In an exact route a backslash takes the next character with it. -/
theorem route_induct {motive : Bytes → Prop} (nil : motive []) (last : motive [92])
    (pair : ∀ c rest, motive rest → motive (92 :: c :: rest))
    (cons : ∀ c rest, c ≠ 92 → motive rest → motive (c :: rest)) (uri : Bytes) : motive uri := by
  induction uri using exactSymbols.induct with
  | case1 => exact nil
  | case2 => exact last
  | case3 c rest _ ih => exact pair c rest ih
  | case4 c rest _ ih => exact pair c rest ih
  | case5 c rest atEnd inside ih =>
    apply cons c rest _ ih
    rintro rfl
    cases rest with
    | nil => exact atEnd rfl rfl
    | cons d rest => exact inside d rest rfl rfl

theorem exactSymbols_pair (c : UInt8) (rest : Bytes) :
    exactSymbols (92 :: c :: rest) =
      if c ∈ chars "[]*/?" then .escaped 92 :: .bare c :: exactSymbols rest
      else .escaped c :: exactSymbols rest := rfl

theorem exactSymbols_cons {c : UInt8} (h : c ≠ 92) (rest : Bytes) :
    exactSymbols (c :: rest) =
      (if c ∈ chars "[]*/?" then .escaped c else .bare c) :: exactSymbols rest := by
  rw [exactSymbols]
  · rintro rfl
    exact absurd rfl h
  · rintro d rest' rfl
    exact absurd rfl h

theorem symbols_exactText (uri : Bytes) :
    symbols (exactText uri) = some (.bare 94 :: exactSymbols uri) := by
  have body : symbols (sanitizeForRegex uri ++ [36]) = some (exactSymbols uri) := by
    unfold sanitizeForRegex
    induction uri using route_induct with
    | nil => rfl
    | last => decide
    | pair c rest ih =>
      rw [escape_cons, if_neg (by decide), escape_cons, exactSymbols_pair]
      split_ifs with special
      · have other : c ≠ 92 := by
          rintro rfl
          exact absurd special (by decide)
        simp only [List.cons_append, List.nil_append]
        rw [symbols_escape, symbols_cons other, ih]
        rfl
      · simp only [List.cons_append, List.nil_append]
        rw [symbols_escape, ih]
        rfl
    | cons c rest other ih =>
      rw [escape_cons, exactSymbols_cons other]
      split_ifs with special
      · simp only [List.cons_append, List.nil_append]
        rw [symbols_escape, ih]
        rfl
      · simp only [List.cons_append, List.nil_append]
        rw [symbols_cons other, ih]
        rfl
  rw [exactText, List.cons_append, symbols_cons (by decide), body]
  rfl

/-! ## Wildcard routes -/

theorem separator : chars "\\/*" = [92, 47, 42] := by decide

theorem wildcardRegex : chars "(\\/.*|$)" = [40, 92, 47, 46, 42, 124, 36, 41] := by decide

/-- The escaped route with the expression of the wildcard for every `/*`. -/
def wildcardText : Bytes → Bytes
  | [] => []
  | 47 :: 42 :: rest => chars "(\\/.*|$)" ++ wildcardText rest
  | c :: rest => sanitizeExceptWildcardForRegex [c] ++ wildcardText rest

theorem wildcardText_cons {c : UInt8} {rest : Bytes} (h : ¬ [47, 42] <+: c :: rest) :
    wildcardText (c :: rest) = sanitizeExceptWildcardForRegex [c] ++ wildcardText rest := by
  rw [wildcardText]
  rintro rest' rfl rfl
  exact h ⟨rest', rfl⟩

theorem wildcardText_append {a : Bytes} (absent : ¬ [47, 42] <:+: a) (b : Bytes) :
    wildcardText (a ++ 47 :: 42 :: b) =
      sanitizeExceptWildcardForRegex a ++ (chars "(\\/.*|$)" ++ wildcardText b) := by
  induction a with
  | nil => rfl
  | cons c a ih =>
    rw [List.infix_cons_iff, not_or] at absent
    have first : ¬ [47, 42] <+: c :: (a ++ 47 :: 42 :: b) := by
      intro h
      cases a with
      | nil => simp at h
      | cons d a =>
        apply absent.1
        simpa using h
    rw [List.cons_append, wildcardText_cons first, ih absent.2, ← List.append_assoc,
      sanitizeExceptWildcardForRegex, sanitizeExceptWildcardForRegex, ← escape_append]
    rfl

theorem wildcardText_of_absent {uri : Bytes} (absent : ¬ [47, 42] <:+: uri) :
    wildcardText uri = sanitizeExceptWildcardForRegex uri := by
  induction uri with
  | nil => rfl
  | cons c uri ih =>
    rw [List.infix_cons_iff, not_or] at absent
    rw [wildcardText_cons absent.1, ih absent.2, sanitizeExceptWildcardForRegex,
      sanitizeExceptWildcardForRegex, ← escape_append]
    rfl

/-- By induction on a bound on the length of what is left of the route; the part that is `done` ends
where no token can begin. -/
theorem formatEx_wildcard (n : ℕ) :
    ∀ (uri done : Bytes), uri.length ≤ n →
      (∀ later, [92, 47, 42] <:+: done ++ later ↔ [92, 47, 42] <:+: later) →
      formatEx (n + 1) (done ++ sanitizeExceptWildcardForRegex uri) [92, 47, 42]
          [chars "(\\/.*|$)"] =
        some (if [47, 42] <:+: uri then some (done ++ wildcardText uri) else none) := by
  have unbordered : Unbordered ([92, 47, 42] : Bytes) := by
    intro k pos lt
    have : k = 1 ∨ k = 2 := by
      simp only [List.length_cons, List.length_nil] at lt
      omega
    rcases this with rfl | rfl
    · decide
    · decide
  induction n with
  | zero =>
    intro uri done short closed
    obtain rfl : uri = [] := List.eq_nil_of_length_eq_zero (Nat.le_zero.mp short)
    rw [formatEx_of_absent, if_neg (by decide)]
    rw [closed, wildcard_infix_escape_iff]
    decide
  | succ n ih =>
    intro uri done short closed
    split_ifs with present
    · obtain ⟨a, b, rfl, absent⟩ := exists_first present (by decide)
      have split : done ++ sanitizeExceptWildcardForRegex (a ++ [47, 42] ++ b) =
          done ++ sanitizeExceptWildcardForRegex a ++ [92, 47, 42] ++
            sanitizeExceptWildcardForRegex b := by
        have star : escape (chars "[]/?") [47, 42] = [92, 47, 42] := by decide
        simp only [sanitizeExceptWildcardForRegex, escape_append, star, List.append_assoc]
      have absentFront : ¬ [92, 47, 42] <:+: done ++ sanitizeExceptWildcardForRegex a := by
        rwa [closed, wildcard_infix_escape_iff]
      have closedNext (later : Bytes) :
          [92, 47, 42] <:+: done ++ sanitizeExceptWildcardForRegex a ++ chars "(\\/.*|$)" ++ later ↔
            [92, 47, 42] <:+: later := by
        have inside : ¬ ([92, 47, 42] : Bytes) <:+: [92, 47, 46, 42, 124, 36] := by decide
        rw [wildcardRegex]
        calc _ ↔ [92, 47, 42] <:+: done ++ sanitizeExceptWildcardForRegex a ++
                40 :: ([92, 47, 46, 42, 124, 36] ++ 41 :: later) := by
              simp only [List.append_assoc, List.cons_append, List.nil_append]
          _ ↔ [92, 47, 42] <:+: later := by
              rw [infix_append_cons (by decide), infix_append_cons (by decide)]
              simp [absentFront, inside]
      have shorter : b.length ≤ n := by
        simp only [List.length_append, List.length_cons, List.length_nil] at short
        omega
      have next := ih b (done ++ sanitizeExceptWildcardForRegex a ++ chars "(\\/.*|$)") shorter
        closedNext
      rw [split, formatEx_of_first unbordered absentFront (by rw [wildcardRegex]; simp), next,
        Option.map_some, List.append_assoc a, List.cons_append, List.cons_append, List.nil_append,
        wildcardText_append absent]
      split_ifs with more
      · simp only [Option.getD_some, List.append_assoc]
      · rw [wildcardText_of_absent more]
        simp only [Option.getD_none, List.append_assoc]
    · rw [formatEx_of_absent]
      rwa [closed, wildcard_infix_escape_iff]

theorem star : chars "*" = [42] := by decide

/-- The search stops at the first star, which has to stand right behind a slash. -/
theorem containsWildcard_ne_none_iff :
    containsWildcard uri ≠ none ↔ ∃ front back, uri = front ++ 47 :: 42 :: back ∧ 42 ∉ front := by
  rw [containsWildcard, star]
  constructor
  · intro h
    cases found : findFirst [42] uri with
    | none =>
      rw [found] at h
      exact absurd rfl h
    | some i =>
      obtain ⟨front, back, rfl, absent, rfl⟩ := findFirst_singleton_eq_some_iff.mp found
      simp only [found, ne_eq, ite_eq_right_iff, reduceCtorEq, imp_false, not_not] at h
      rcases List.eq_nil_or_concat front with rfl | ⟨front, c, rfl⟩
      · simp at h
      · rw [List.concat_eq_append] at h absent ⊢
        rw [if_pos (by simp)] at h
        obtain rfl : c = 47 := by simpa using h
        exact ⟨front, back, by simp, fun inside => absent (List.mem_append_left _ inside)⟩
  · rintro ⟨front, back, rfl, absent⟩
    have found : findFirst [42] (front ++ 47 :: 42 :: back) = some (front.length + 1) := by
      refine findFirst_singleton_eq_some_iff.mpr ⟨front ++ [47], back, ?_, ?_, ?_⟩
      · simp
      · simpa using absent
      · simp
    rw [found]
    simp

theorem containsWildcard_of_notMem (absent : 42 ∉ uri) : containsWildcard uri = none := by
  by_contra wildcard
  obtain ⟨front, back, rfl, -⟩ := containsWildcard_ne_none_iff.mp wildcard
  exact absent (by simp)

theorem infix_of_containsWildcard (h : containsWildcard uri ≠ none) : [47, 42] <:+: uri := by
  obtain ⟨front, back, rfl, -⟩ := containsWildcard_ne_none_iff.mp h
  exact ⟨front, back, by simp⟩

theorem createWithWildcard_eq (bound : uri.length < fuel) :
    createWithWildcard fuel uri = some (if [47, 42] <:+: uri then wildcardText uri else uri) := by
  have whole := formatEx_wildcard uri.length uri [] (Nat.le_refl _) fun _ => Iff.rfl
  rw [List.nil_append, List.nil_append] at whole
  rw [createWithWildcard, separator, formatEx_mono bound whole]
  split_ifs with present
  · rfl
  · rfl

/-- The symbols of the wildcard's expression behind its parenthesis. -/
def wildcardTail : List Symbol :=
  [.escaped 47, .bare 46, .bare 42, .bare 124, .bare 36, .bare 41]

/-- How the characters of a wildcard route stand in its expression. A backslash in front of a
wildcard escapes the parenthesis. -/
def wildcardSymbols : Bytes → Option (List Symbol)
  | [] => some []
  | 47 :: 42 :: rest => (wildcardSymbols rest).map (.bare 40 :: wildcardTail ++ ·)
  | [92] => none
  | 92 :: 47 :: 42 :: rest => (wildcardSymbols rest).map (.escaped 40 :: wildcardTail ++ ·)
  | 92 :: c :: rest =>
      (wildcardSymbols rest).map fun ss =>
        if c ∈ chars "[]/?" then .escaped 92 :: .bare c :: ss else .escaped c :: ss
  | c :: rest =>
      (wildcardSymbols rest).map ((if c ∈ chars "[]/?" then .escaped c else .bare c) :: ·)

theorem wildcardSymbols_cons {c : UInt8} {rest : Bytes} (h : c ≠ 92)
    (next : ¬ [47, 42] <+: c :: rest) :
    wildcardSymbols (c :: rest) = (wildcardSymbols rest).map
      ((if c ∈ chars "[]/?" then .escaped c else .bare c) :: ·) := by
  rw [wildcardSymbols]
  · rintro rest' rfl rfl
    exact next ⟨rest', rfl⟩
  · rintro rfl
    exact absurd rfl h
  · rintro rest' rfl
    exact absurd rfl h
  · rintro d rest' rfl
    exact absurd rfl h

theorem sanitize_backslash : sanitizeExceptWildcardForRegex [92] = [92] := by decide

theorem symbols_wildcardTail (rest : Bytes) :
    symbols ([92, 47, 46, 42, 124, 36, 41] ++ rest) = (symbols rest).map (wildcardTail ++ ·) := by
  simp only [List.cons_append, List.nil_append]
  rw [symbols_escape, symbols_cons (by decide), symbols_cons (by decide), symbols_cons (by decide),
    symbols_cons (by decide), symbols_cons (by decide)]
  simp only [Option.map_map]
  rfl

theorem symbols_wildcardText (uri : Bytes) : symbols (wildcardText uri) = wildcardSymbols uri := by
  induction uri using wildcardSymbols.induct with
  | case1 => rfl
  | case2 rest ih =>
    rw [wildcardText, wildcardRegex, wildcardSymbols, ← ih, List.cons_append,
      symbols_cons (by decide), symbols_wildcardTail, Option.map_map]
    rfl
  | case3 => decide
  | case4 rest ih =>
    rw [wildcardText_cons (by simp), sanitize_backslash, wildcardText, wildcardRegex,
      wildcardSymbols, ← ih]
    simp only [List.cons_append, List.nil_append]
    rw [symbols_escape]
    exact (congrArg _ (symbols_wildcardTail _)).trans (Option.map_map _ _ _)
  | case5 c rest notStar ih =>
    have next : ¬ [47, 42] <+: c :: rest := by
      rintro ⟨rest', e⟩
      cases e
      exact notStar rest' rfl rfl
    have read : wildcardSymbols (92 :: c :: rest) = (wildcardSymbols rest).map fun ss =>
        if c ∈ chars "[]/?" then .escaped 92 :: .bare c :: ss else .escaped c :: ss := by
      rw [wildcardSymbols]
      exact notStar
    rw [wildcardText_cons (by simp), sanitize_backslash, wildcardText_cons next, read, ← ih,
      sanitizeExceptWildcardForRegex, escape_cons]
    split_ifs with special
    · have other : c ≠ 92 := by
        rintro rfl
        exact absurd special (by decide)
      simp only [List.cons_append, List.nil_append]
      rw [symbols_escape, symbols_cons other, Option.map_map]
      rfl
    · simp only [List.cons_append, List.nil_append]
      rw [symbols_escape]
      rfl
  | case6 c rest notStar last pair notWild ih =>
    have other : c ≠ 92 := by
      rintro rfl
      cases rest with
      | nil => exact last rfl rfl
      | cons d rest => exact notWild d rest rfl rfl
    have next : ¬ [47, 42] <+: c :: rest := by
      rintro ⟨rest', e⟩
      cases e
      exact notStar rest' rfl rfl
    rw [wildcardText_cons next, wildcardSymbols_cons other next, ← ih,
      sanitizeExceptWildcardForRegex, escape_cons]
    split_ifs with special
    · simp only [List.cons_append, List.nil_append]
      rw [symbols_escape]
      rfl
    · simp only [List.cons_append, List.nil_append]
      rw [symbols_cons other]
      rfl

/-! ## The registered text -/

/-- The expression that `add` registers. -/
def routeText (uri : Bytes) : Bytes :=
  if containsWildcard uri = none then exactText uri else wildcardText uri

/-- How the characters of the route stand in that expression. -/
def routeSymbols (uri : Bytes) : Option (List Symbol) :=
  if containsWildcard uri = none then some (.bare 94 :: exactSymbols uri) else wildcardSymbols uri

theorem symbols_routeText (uri : Bytes) : symbols (routeText uri) = routeSymbols uri := by
  rw [routeText, routeSymbols]
  split_ifs
  · exact symbols_exactText uri
  · exact symbols_wildcardText uri

/-- The recursion of `formatEx` ends for the route. -/
def Ends (uri : Bytes) : Prop := containsWildcard uri = none → ¬ [123, 125] <:+: uri

theorem createRegex_of_ends (ends : Ends uri) (bound : uri.length + 1 < fuel) :
    createRegex fuel uri = some (.ok (routeText uri)) := by
  rw [createRegex, routeText]
  split_ifs with exact
  · obtain ⟨fuel, rfl⟩ := Nat.exists_eq_add_of_le' (Nat.le_trans (Nat.le_add_left 2 _) bound)
    exact createExactMatch_eq (ends exact)
  · rw [createWithWildcard_eq (by omega), if_pos (infix_of_containsWildcard exact)]
    rfl

theorem createRegex_diverges (h : ¬ Ends uri) : createRegex fuel uri = none := by
  obtain ⟨exact, present⟩ := Classical.not_imp.mp h
  rw [createRegex, if_pos exact]
  exact createExactMatch_diverges (not_not.mp present)

theorem createRegex_mono {more : ℕ} {created : Except CppException Bytes} (le : fuel ≤ more)
    (h : createRegex fuel uri = some created) : createRegex more uri = some created := by
  rw [createRegex] at h ⊢
  split_ifs at h ⊢
  · obtain ⟨formatted, found, e⟩ := Option.map_eq_some_iff.mp h
    rw [createExactMatch, strings.format, formatEx_mono le found, Option.map_some, e]
  · rw [createWithWildcard, Option.map_map] at h ⊢
    obtain ⟨formatted, found, e⟩ := Option.map_eq_some_iff.mp h
    rw [formatEx_mono le found, Option.map_some, e]

theorem createRegex_eq_some {created : Except CppException Bytes}
    (h : createRegex fuel uri = some created) : Ends uri ∧ created = .ok (routeText uri) := by
  by_cases ends : Ends uri
  · have deep := createRegex_of_ends ends (Nat.le_refl (uri.length + 2))
    have same := createRegex_mono (Nat.le_max_left fuel (uri.length + 2)) h
    rw [createRegex_mono (Nat.le_max_right fuel (uri.length + 2)) deep] at same
    exact ⟨ends, (Option.some.inj same).symm⟩
  · rw [createRegex_diverges ends] at h
    contradiction

section

variable {ρ : Type} [RegexEngine ρ] {resolver stored : Resolver} {m m' : UriMapper ρ}

theorem add_of_compile (ends : Ends uri) {compiled : ρ}
    (h : RegexEngine.compile (routeText uri) = some compiled) (bound : uri.length + 1 < fuel) :
    m.add fuel uri resolver =
      some (.ok (resolver, ⟨m.resolvers.insertOrAssign (routeText uri) (compiled, resolver)⟩)) := by
  rw [add, createRegex_of_ends ends bound]
  simp [h]

theorem add_eq_ok (h : m.add fuel uri resolver = some (.ok (stored, m'))) :
    createRegex fuel uri = some (.ok (routeText uri)) ∧
      ∃ compiled : ρ, RegexEngine.compile (routeText uri) = some compiled ∧
        m' = ⟨m.resolvers.insertOrAssign (routeText uri) (compiled, resolver)⟩ := by
  obtain ⟨created, hcreated, e⟩ := Option.map_eq_some_iff.mp h
  obtain ⟨-, rfl⟩ := createRegex_eq_some hcreated
  cases compiled : (RegexEngine.compile (routeText uri) : Option ρ) with
  | none => simp [compiled] at e
  | some regex =>
    simp only [compiled, Except.ok.injEq, Prod.mk.injEq] at e
    exact ⟨hcreated, regex, rfl, e.2.symm⟩

end

/-! ## Matching -/

/-- A request URI without NUL, CR and LF. -/
def Clean (v : Bytes) : Prop := 0 ∉ v ∧ 13 ∉ v ∧ 10 ∉ v

theorem Clean.noBreak {v : Bytes} (clean : Clean v) : ∀ c ∈ v, c ≠ 10 ∧ c ≠ 13 := by
  intro c hc
  constructor
  · rintro rfl
    exact clean.2.2 hc
  · rintro rfl
    exact clean.2.1 hc

theorem matchesUri_iff {r : EcmaScript} {v : Bytes} (regular : r.Regular) (clean : Clean v) :
    matchesUri v r = true ↔ Accepts r true v true := by
  have whole : cStr v = v := by
    rw [cStr, List.takeWhile_eq_self_iff]
    intro c hc
    have : c ≠ 0 := by
      rintro rfl
      exact clean.1 hc
    simpa using this
  rw [matchesUri, whole]
  exact regexMatch_isSome_iff regular v

end UriMapper

end Lightning
