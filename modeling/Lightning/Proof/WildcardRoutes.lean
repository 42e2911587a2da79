import Lightning.Proof.RouteText
import Lightning.Lib.RegexBuild

/-!
# What a wildcard route matches

For a route of literal parts with `/*` between them, the registered expression is a row of
characters for every part and one group for every wildcard. `Splits` states in terms of the route
what that expression accepts: each wildcard stands for a `/` with anything behind it, or for nothing
at the end of the URI.
-/

namespace Lightning

open Search EcmaScript

namespace UriMapper

variable {l : Bytes} {ls : List Bytes} {v : Bytes} {c : UInt8} {atStart atEnd : Bool}

/-- Letters, digits and the other characters of a literal part. -/
def IsLiteral (c : UInt8) : Prop := isLetter c ∨ isDigit c ∨ c ∈ chars "/-_%=&?[]"

/-- The parts with a wildcard in front of each but the first. -/
def wildcardRoute (l : Bytes) (ls : List Bytes) : Bytes := l ++ ls.flatMap (chars "/*" ++ ·)

/-- The URI is the parts with a `/` and any characters, or nothing at the end, in between. -/
def Splits : Bytes → List Bytes → Bytes → Prop
  | l, [], v => v = l
  | l, next :: ls, v => ∃ s rest, v = l ++ s ++ rest ∧ Splits next ls rest ∧
      ((∃ t, s = 47 :: t) ∨ s = [] ∧ rest = [])

/-! ## The tokens of the route -/

theorem slashStar : chars "/*" = [47, 42] := by decide

theorem wildcardRoute_cons (l next : Bytes) (ls : List Bytes) :
    wildcardRoute l (next :: ls) = l ++ 47 :: 42 :: wildcardRoute next ls := by
  rw [wildcardRoute, List.flatMap_cons, slashStar]
  rfl

theorem IsLiteral.ne_star (h : IsLiteral c) : c ≠ 42 := by
  rintro rfl
  revert h
  unfold IsLiteral
  decide

theorem IsLiteral.ne_backslash (h : IsLiteral c) : c ≠ 92 := by
  rintro rfl
  revert h
  unfold IsLiteral
  decide

/-- How a literal character stands in the expression. -/
def partSymbol (c : UInt8) : Symbol := if c ∈ chars "[]/?" then .escaped c else .bare c

theorem IsLiteral.literal_partSymbol (h : IsLiteral c) : (partSymbol c).literal = some c := by
  have others : ∀ c ∈ chars "/-_%=&?[]", (partSymbol c).literal = some c := by decide +kernel
  have special : ∀ c ∈ chars "[]/?", ¬ (isLetter c ∨ isDigit c) := by decide +kernel
  have meaning : ∀ c ∈ metacharacters, ¬ (isLetter c ∨ isDigit c) := by
    decide +kernel
  have word (h : isLetter c ∨ isDigit c) : (partSymbol c).literal = some c := by
    rw [partSymbol, if_neg fun inside => special c inside h, Symbol.literal,
      if_neg fun inside => meaning c inside h]
  rcases h with letter | digit | other
  · exact word (Or.inl letter)
  · exact word (Or.inr digit)
  · exact others c other

theorem wildcardSymbols_append (literal : ∀ c ∈ l, IsLiteral c) {rest : Bytes}
    (front : ¬ [42] <+: rest) :
    wildcardSymbols (l ++ rest) = (wildcardSymbols rest).map (l.map partSymbol ++ ·) := by
  induction l with
  | nil => simp
  | cons c l ih =>
    obtain ⟨hc, hl⟩ := List.forall_mem_cons.mp literal
    have next : ¬ [47, 42] <+: c :: (l ++ rest) := by
      rw [List.cons_prefix_cons]
      rintro ⟨-, h⟩
      cases l with
      | nil => exact front h
      | cons d l =>
        obtain ⟨rfl, -⟩ := List.cons_prefix_cons.mp h
        exact (hl 42 List.mem_cons_self).ne_star rfl
    rw [List.cons_append, wildcardSymbols_cons hc.ne_backslash next, ih hl, Option.map_map]
    rfl

/-- The symbols of the expression: those of every part with the wildcard's group in between. -/
def routeRow : Bytes → List Bytes → List Symbol
  | l, [] => l.map partSymbol
  | l, next :: ls => l.map partSymbol ++ (.bare 40 :: wildcardTail ++ routeRow next ls)

theorem wildcardSymbols_wildcardRoute (literal : ∀ part ∈ l :: ls, ∀ c ∈ part, IsLiteral c) :
    wildcardSymbols (wildcardRoute l ls) = some (routeRow l ls) := by
  induction ls generalizing l with
  | nil =>
    have part : wildcardSymbols (l ++ []) = _ :=
      wildcardSymbols_append (literal l List.mem_cons_self) (by simp)
    simpa [wildcardRoute, routeRow, wildcardSymbols] using part
  | cons next ls ih =>
    obtain ⟨hl, later⟩ := List.forall_mem_cons.mp literal
    rw [wildcardRoute_cons, wildcardSymbols_append hl (by simp), wildcardSymbols, ih later]
    rfl

def wildcardTokens : List Token :=
  [.opening, .atom (char 47), .atom any, .quantifier 0 none, .bar, .assertion eol, .closing]

def routeTokens : Bytes → List Bytes → List Token
  | l, [] => (l.map char).map Token.atom
  | l, next :: ls => (l.map char).map Token.atom ++ (wildcardTokens ++ routeTokens next ls)

theorem tokens_wildcard (rest : List Symbol) :
    tokens (.bare 40 :: wildcardTail ++ rest) 0 = (tokens rest 0).map (wildcardTokens ++ ·) := by
  rw [wildcardTail]
  simp only [List.cons_append, List.nil_append]
  iterate 7 rw [tokens_cons rfl]
  simp only [Option.map_map]
  rfl

theorem single_partSymbol (literal : ∀ c ∈ l, IsLiteral c) :
    (l.map partSymbol).map Symbol.single = (l.map char).map some := by
  rw [List.map_map, List.map_map, List.map_inj_left]
  intro c hc
  have notDot : partSymbol c ≠ .bare 46 := by
    intro e
    have := (literal c hc).literal_partSymbol
    rw [e] at this
    contradiction
  simp only [Function.comp_apply, Symbol.single, if_neg notDot, (literal c hc).literal_partSymbol,
    Option.map_some]

theorem tokens_routeRow (literal : ∀ part ∈ l :: ls, ∀ c ∈ part, IsLiteral c) :
    tokens (routeRow l ls) 0 = some (routeTokens l ls) := by
  induction ls generalizing l with
  | nil =>
    have := tokens_append_of_single (single_partSymbol (literal l List.mem_cons_self)) []
    simpa [tokens, routeRow, routeTokens] using this
  | cons next ls ih =>
    obtain ⟨hl, later⟩ := List.forall_mem_cons.mp literal
    rw [routeRow, tokens_append_of_single (single_partSymbol hl), tokens_wildcard, ih later]
    rfl

/-! ## The compiled expression -/

/-- The group of a wildcard. -/
def wildcardItem (index : ℕ) : EcmaScript :=
  group index (alt (seq (char 47) (seq (EcmaScript.star any) empty)) (seq eol empty))

/-- The row of the whole expression, behind a number of groups. -/
def routeItems : Bytes → List Bytes → ℕ → List EcmaScript
  | l, [], _ => l.map char
  | l, next :: ls, n => l.map char ++ wildcardItem (n + 1) :: routeItems next ls (n + 1)

theorem build_wildcardTokens (rest : List Token) (f : Frame) (n : ℕ) :
    build (wildcardTokens ++ rest) f [] n =
      build rest (f.push (wildcardItem (n + 1)) true) [] (n + 1) := rfl

theorem build_routeTokens (l : Bytes) (ls : List Bytes) (f : Frame) (n : ℕ) :
    build (routeTokens l ls) f [] n =
      some (Frame.close ⟨f.index, f.alternatives, (routeItems l ls n).reverse ++ f.items, false⟩) := by
  induction ls generalizing l f n with
  | nil =>
    have := build_row (l.map char) [] f [] n
    rw [List.append_nil] at this
    rw [routeTokens, this]
    rfl
  | cons next ls ih =>
    rw [routeTokens, build_row, build_wildcardTokens, ih, routeItems]
    simp [Frame.push]

theorem refersWithin_routeTokens (groups : ℕ) :
    (routeTokens l ls).all (Token.refersWithin groups) := by
  induction ls generalizing l with
  | nil => simp [routeTokens, Token.refersWithin]
  | cons next ls ih =>
    simp [routeTokens, wildcardTokens, Token.refersWithin, ih]

theorem containsWildcard_wildcardRoute (literal : ∀ part ∈ l :: ls, ∀ c ∈ part, IsLiteral c)
    (nonempty : ls ≠ []) : containsWildcard (wildcardRoute l ls) ≠ none := by
  cases ls with
  | nil => exact absurd rfl nonempty
  | cons next ls =>
    rw [wildcardRoute_cons]
    exact containsWildcard_ne_none_iff.mpr
      ⟨_, _, rfl, fun h => (literal l List.mem_cons_self 42 h).ne_star rfl⟩

theorem compile_wildcardRoute (literal : ∀ part ∈ l :: ls, ∀ c ∈ part, IsLiteral c)
    (nonempty : ls ≠ []) :
    compile (routeText (wildcardRoute l ls)) = some ((routeItems l ls 0).foldr seq empty) := by
  have wild := containsWildcard_wildcardRoute literal nonempty
  rw [compile, symbols_routeText, routeSymbols, if_neg wild, wildcardSymbols_wildcardRoute literal,
    Option.bind_some, tokens_routeRow literal, Option.bind_some,
    if_pos (refersWithin_routeTokens _), build_routeTokens]
  simp [Frame.close, sequence_eq_foldr]

theorem routeItems_regular (l : Bytes) (ls : List Bytes) (n : ℕ) :
    ∀ r ∈ routeItems l ls n, r.Regular := by
  induction ls generalizing l n with
  | nil =>
    intro r hr
    obtain ⟨c, -, rfl⟩ := List.mem_map.mp hr
    trivial
  | cons next ls ih =>
    intro r hr
    rw [routeItems, List.mem_append, List.mem_cons] at hr
    rcases hr with part | rfl | later
    · obtain ⟨c, -, rfl⟩ := List.mem_map.mp part
      trivial
    · simp [wildcardItem, EcmaScript.Regular]
    · exact ih next (n + 1) r later

/-! ## What it accepts -/

theorem accepts_star_any_iff :
    Accepts (EcmaScript.star any) atStart v atEnd ↔ ∀ c ∈ v, c ≠ 10 ∧ c ≠ 13 := by
  constructor
  · intro h
    generalize e : EcmaScript.star any = r at h
    induction h with
    | done => exact fun c hc => absurd hc List.not_mem_nil
    | round taken first rest ihFirst ihRest =>
      cases e
      obtain ⟨d, rfl, hd⟩ := accepts_any_iff.mp first
      exact List.forall_mem_cons.mpr ⟨hd, ihRest rfl⟩
    | _ => contradiction
  · intro h
    induction v generalizing atStart with
    | nil => exact .done
    | cons c v ih =>
      obtain ⟨hc, hv⟩ := List.forall_mem_cons.mp h
      exact .round (List.cons_ne_nil c []) (.any hc.1 hc.2) (ih hv)

theorem accepts_wildcardItem_iff {index : ℕ} (noBreak : ∀ c ∈ v, c ≠ 10 ∧ c ≠ 13) :
    Accepts (wildcardItem index) atStart v atEnd ↔ (∃ t, v = 47 :: t) ∨ v = [] ∧ atEnd = true := by
  have below : Accepts (seq (char 47) (seq (EcmaScript.star any) empty)) atStart v atEnd ↔
      ∃ t, v = 47 :: t := by
    constructor
    · intro h
      obtain ⟨front, t, rfl, first, -⟩ := accepts_seq_iff.mp h
      rw [accepts_char_iff.mp first]
      exact ⟨t, rfl⟩
    · rintro ⟨t, rfl⟩
      have rest : Accepts (EcmaScript.star any) (atStart && false) t atEnd :=
        accepts_star_any_iff.mpr fun c hc => noBreak c (List.mem_cons_of_mem _ hc)
      refine .seq (v := [47]) (w := t) .char (accepts_seq_iff.mpr ⟨t, [], ?_, rest, .empty⟩)
      exact (List.append_nil t).symm
  have nothing : Accepts (seq eol empty) atStart v atEnd ↔ v = [] ∧ atEnd = true := by
    simp [accepts_seq_iff]
  rw [wildcardItem, accepts_group_iff, accepts_alt_iff, below, nothing]

theorem accepts_routeItems_iff (literal : ∀ part ∈ l :: ls, ∀ c ∈ part, IsLiteral c) (n : ℕ)
    (noBreak : ∀ c ∈ v, c ≠ 10 ∧ c ≠ 13) :
    Accepts ((routeItems l ls n).foldr seq empty) atStart v true ↔ Splits l ls v := by
  induction ls generalizing l n v atStart with
  | nil =>
    rw [routeItems, ← List.append_nil (l.map char),
      accepts_row_append (single_partSymbol (literal l List.mem_cons_self)), Splits]
    simp only [forall₂_takes_char, List.foldr_nil, accepts_empty_iff]
    constructor
    · rintro ⟨_, _, rfl, rfl, rfl⟩
      exact List.append_nil _
    · rintro rfl
      exact ⟨v, [], (List.append_nil v).symm, rfl, rfl⟩
  | cons next ls ih =>
    obtain ⟨hl, later⟩ := List.forall_mem_cons.mp literal
    rw [routeItems, accepts_row_append (single_partSymbol hl), Splits]
    simp only [forall₂_takes_char, List.foldr_cons, accepts_seq_iff]
    constructor
    · rintro ⟨_, _, rfl, rfl, s, rest, rfl, item, tail⟩
      have sub (c : UInt8) (hc : c ∈ s ∨ c ∈ rest) : c ≠ 10 ∧ c ≠ 13 :=
        noBreak c (List.mem_append_right _ (List.mem_append.mpr hc))
      refine ⟨s, rest, (List.append_assoc _ _ _).symm, ?_, ?_⟩
      · exact (ih later (n + 1) fun c hc => sub c (Or.inr hc)).mp tail
      · have := (accepts_wildcardItem_iff fun c hc => sub c (Or.inl hc)).mp item
        simpa using this
    · rintro ⟨s, rest, rfl, tail, item⟩
      rw [List.append_assoc] at noBreak ⊢
      have sub (c : UInt8) (hc : c ∈ s ∨ c ∈ rest) : c ≠ 10 ∧ c ≠ 13 :=
        noBreak c (List.mem_append_right _ (List.mem_append.mpr hc))
      refine ⟨l, s ++ rest, rfl, rfl, s, rest, rfl, ?_, ?_⟩
      · rw [accepts_wildcardItem_iff fun c hc => sub c (Or.inl hc)]
        simpa using item
      · exact (ih later (n + 1) fun c hc => sub c (Or.inr hc)).mpr tail

/-- The expression that `add` registers for a wildcard route matches exactly the URIs that can be
split accordingly. -/
theorem wildcardRoute_matches (nonempty : ls ≠ [])
    (literal : ∀ part ∈ l :: ls, ∀ c ∈ part, IsLiteral c) :
    ∃ regexStr compiled,
      (∀ (m : UriMapper EcmaScript) resolver fuel, (wildcardRoute l ls).length + 1 < fuel →
        m.add fuel (wildcardRoute l ls) resolver =
          some (.ok (resolver, ⟨m.resolvers.insertOrAssign regexStr (compiled, resolver)⟩))) ∧
      ∀ v, Clean v → (matchesUri v compiled = true ↔ Splits l ls v) := by
  have compiles := compile_wildcardRoute literal nonempty
  refine ⟨routeText (wildcardRoute l ls), (routeItems l ls 0).foldr seq empty, ?_, ?_⟩
  · intro m resolver fuel bound
    have wild := containsWildcard_wildcardRoute literal nonempty
    exact add_of_compile (fun exact => absurd exact wild) compiles bound
  · intro v clean
    rw [matchesUri_iff (foldr_seq_regular (routeItems_regular l ls 0)) clean]
    exact accepts_routeItems_iff literal 0 clean.noBreak

theorem wildcardRoute_matches_two :
    ∃ regexStr compiled,
      (⟨∅⟩ : UriMapper EcmaScript).add 50 (chars "/a/*/b/*") (fun _ => .throwing .regexError) =
        some (.ok (fun _ => .throwing .regexError,
          ⟨(∅ : UnorderedMap Bytes (EcmaScript × Resolver)).insertOrAssign regexStr
            (compiled, fun _ => .throwing .regexError)⟩)) ∧
      matchesUri (chars "/a/x/y/b") compiled = true := by
  obtain ⟨regexStr, compiled, added, accepts⟩ :=
    @wildcardRoute_matches (chars "/a") [chars "/b", []] (by decide)
      (by unfold IsLiteral; decide +kernel)
  have route : wildcardRoute (chars "/a") [chars "/b", []] = chars "/a/*/b/*" := by decide
  rw [route] at added
  refine ⟨regexStr, compiled, added ⟨∅⟩ _ 50 (by decide), ?_⟩
  apply (accepts (chars "/a/x/y/b") (by unfold Clean; decide)).mpr
  refine ⟨chars "/x/y", chars "/b", by decide, ?_, Or.inl ⟨chars "x/y", by decide⟩⟩
  exact ⟨[], [], by decide, rfl, Or.inr ⟨rfl, rfl⟩⟩

end UriMapper

end Lightning
