import Lightning.Proof.RouteText
import Lightning.Lib.RegexBuild

/-!
# What an exact route matches

A route without a wildcard is meant to match itself only. `sanitizeForRegex` escapes five characters,
so the others keep their meaning in an expression. A `Plain` route, in which they do not occur, does
match itself only. For the converse, a match of the registered expression can be shortened to at most
one character for every symbol that begins an atom, so an expression that matches only the route has
an atom for each of its characters; what is left are literal characters and dots, and a dot matches
other characters too.
-/

namespace Lightning

open Search EcmaScript

namespace UriMapper

variable {uri v : Bytes}

/-- Nothing in the route has a meaning in an expression. A backslash in front of `/` or `]` is
literal, since the escaping puts another one behind it. -/
def Plain : Bytes → Prop
  | [] => True
  | 92 :: c :: rest => (c = 47 ∨ c = 93) ∧ Plain rest
  | c :: rest => c ∉ chars "^$.+()\x7b|\\" ∧ Plain rest

/-- The route begins no count, no word boundary and no back reference. -/
def Simple (uri : Bytes) : Prop :=
  123 ∉ uri ∧ ∀ c, c = 98 ∨ c = 66 ∨ (EcmaScript.isDigit c ∧ c ≠ 48) → ¬ [92, c] <:+: uri

/-! ## Rows -/

/-- Every character of the route is read on its own. -/
def Straight : Bytes → Prop
  | [] => True
  | [92] => True
  | 92 :: c :: rest => c = 47 ∧ Straight rest
  | c :: rest => c ∉ [36, 40, 41, 43, 94, 123, 124, 125] ∧ Straight rest

/-- The expressions of the characters of a straight route. -/
def exactItems : Bytes → List EcmaScript
  | [] => []
  | [92] => [char 36]
  | 92 :: c :: rest => char 92 :: char c :: exactItems rest
  | c :: rest => (if c = 46 then any else char c) :: exactItems rest

theorem meaningful : chars "^$.+()\x7b|\\" = [94, 36, 46, 43, 40, 41, 123, 124, 92] := by
  decide

theorem plain_cons_iff {c : UInt8} (h : c ≠ 92) (rest : Bytes) :
    Plain (c :: rest) ↔ c ∉ chars "^$.+()\x7b|\\" ∧ Plain rest := by
  rw [Plain]
  rintro d rest' rfl
  exact absurd rfl h

theorem special_of_plain {c : UInt8} (h : c = 47 ∨ c = 93) : c ∈ chars "[]*/?" := by
  rcases h with rfl | rfl
  · decide
  · decide

theorem straight_cons_iff {c : UInt8} (h : c ≠ 92) (rest : Bytes) :
    Straight (c :: rest) ↔ c ∉ [36, 40, 41, 43, 94, 123, 124, 125] ∧ Straight rest := by
  rw [Straight]
  · rintro rfl
    exact absurd rfl h
  · rintro d rest' rfl
    exact absurd rfl h

theorem exactItems_pair (c : UInt8) (rest : Bytes) :
    exactItems (92 :: c :: rest) = char 92 :: char c :: exactItems rest := rfl

theorem exactItems_cons {c : UInt8} (h : c ≠ 92) (rest : Bytes) :
    exactItems (c :: rest) = (if c = 46 then any else char c) :: exactItems rest := by
  rw [exactItems]
  · rintro rfl
    exact absurd rfl h
  · rintro d rest' rfl
    exact absurd rfl h

theorem single_of_straight {c : UInt8}
    (straight : c ∉ [36, 40, 41, 43, 94, 123, 124, 125]) :
    (if c ∈ chars "[]*/?" then Symbol.escaped c else .bare c).single =
      some (if c = 46 then any else char c) := by
  rw [strings.special_exact]
  by_cases special : c ∈ ([91, 93, 42, 47, 63] : Bytes)
  · have each : ∀ d ∈ ([91, 93, 42, 47, 63] : Bytes),
        (Symbol.escaped d).single = some (if d = 46 then any else char d) := by decide +kernel
    rw [if_pos special]
    exact each c special
  · rw [if_neg special]
    by_cases dot : c = 46
    · rw [dot]
      rfl
    · have ordinary : c ∉ metacharacters := by
        simp only [metacharacters, List.mem_cons, List.not_mem_nil, or_false, not_or] at *
        tauto
      simp [Symbol.single, Symbol.literal, dot, ordinary]

theorem straight_symbols (straight : Straight uri) :
    ∃ ss last, exactSymbols uri = ss ++ last ∧
      ss.map Symbol.single = (exactItems uri).map some ∧ (last = [] ∨ last = [.bare 36]) := by
  induction uri using route_induct with
  | nil => exact ⟨[], [.bare 36], rfl, rfl, Or.inr rfl⟩
  | last => exact ⟨[.escaped 36], [], rfl, by decide, Or.inl rfl⟩
  | pair c rest ih =>
    obtain ⟨rfl, later⟩ := straight
    obtain ⟨ss, last, split, single, tail⟩ := ih later
    refine ⟨.escaped 92 :: .bare 47 :: ss, last, ?_, ?_, tail⟩
    · rw [exactSymbols_pair, if_pos (by decide), split]
      rfl
    · rw [List.map_cons, List.map_cons, single]
      rfl
  | cons c rest other ih =>
    obtain ⟨hc, later⟩ := (straight_cons_iff other rest).mp straight
    obtain ⟨ss, ending, split, single, tail⟩ := ih later
    refine ⟨(if c ∈ chars "[]*/?" then .escaped c else .bare c) :: ss, ending, ?_, ?_, tail⟩
    · rw [exactSymbols_cons other, split]
      rfl
    · rw [List.map_cons, single, single_of_straight hc, exactItems_cons other]
      rfl

theorem exactItems_takes {r : EcmaScript} (straight : Straight uri) (h : r ∈ exactItems uri) :
    r = any ∨ ∃ c, r = char c := by
  obtain ⟨ss, -, -, single, -⟩ := straight_symbols straight
  have found : some r ∈ ss.map Symbol.single := by
    rw [single]
    exact List.mem_map_of_mem h
  obtain ⟨symbol, -, e⟩ := List.mem_map.mp found
  rw [Symbol.single] at e
  split_ifs at e with dot
  · exact Or.inl (Option.some.inj e).symm
  · obtain ⟨c, -, e⟩ := Option.map_eq_some_iff.mp e
    exact Or.inr ⟨c, e.symm⟩

/-- A straight route compiles to a row of its characters, between assertions that the whole subject
is matched. -/
theorem compile_straight (straight : Straight uri) :
    ∃ assertions, compile (exactText uri) =
        some ((bol :: (exactItems uri ++ assertions)).foldr seq empty) ∧
      (∀ s ∈ assertions, s.Regular) ∧
      ∀ atStart w, Accepts (assertions.foldr seq empty) atStart w true ↔ w = [] := by
  obtain ⟨ss, last, split, single, tail⟩ := straight_symbols straight
  have refers (groups : ℕ) :
      ((exactItems uri).map Token.atom).all (Token.refersWithin groups) = true := by
    rw [List.all_map, List.all_eq_true]
    intro r hr
    obtain rfl | ⟨c, rfl⟩ := exactItems_takes straight hr
    · rfl
    · rfl
  have read (rest : List Token) (h : tokens last 0 = some rest) :
      tokens (.bare 94 :: exactSymbols uri) 0 =
        some (.assertion bol :: ((exactItems uri).map Token.atom ++ rest)) := by
    rw [tokens_cons rfl, split, tokens_append_of_single single, h]
    rfl
  rw [compile, symbols_exactText, Option.bind_some]
  rcases tail with rfl | rfl
  · refine ⟨[], ?_, by simp, by simp⟩
    rw [read [] rfl, Option.bind_some, if_pos, build, build_row, build]
    · simp [Frame.close, sequence_eq_foldr, Frame.push]
    · rw [List.all_cons, List.all_append, refers]
      rfl
  · refine ⟨[eol], ?_, by simp [EcmaScript.Regular], by simp [accepts_seq_iff]⟩
    rw [read [.assertion eol] rfl, Option.bind_some, if_pos, build, build_row, build, build]
    · simp [Frame.close, sequence_eq_foldr, Frame.push]
    · rw [List.all_cons, List.all_append, refers]
      rfl

/-- The expression of a straight route takes one character after the other. -/
theorem straight_matches {r : EcmaScript} (straight : Straight uri)
    (h : compile (exactText uri) = some r) :
    r.Regular ∧ ∀ v, Accepts r true v true ↔ List.Forall₂ takes (exactItems uri) v := by
  obtain ⟨ss, -, -, single, -⟩ := straight_symbols straight
  obtain ⟨assertions, compiled, regular, atEnd⟩ := compile_straight straight
  obtain rfl : (bol :: (exactItems uri ++ assertions)).foldr seq empty = r := by
    rw [compiled] at h
    exact Option.some.inj h
  constructor
  · have items : ∀ s ∈ exactItems uri, s.Regular := by
      intro s hs
      obtain rfl | ⟨c, rfl⟩ := exactItems_takes straight hs
      · trivial
      · trivial
    apply foldr_seq_regular
    exact List.forall_mem_cons.mpr ⟨trivial, List.forall_mem_append.mpr ⟨items, regular⟩⟩
  · intro v
    rw [List.foldr_cons, accepts_seq_iff]
    simp only [accepts_bol_iff]
    constructor
    · rintro ⟨_, w, rfl, ⟨rfl, -⟩, row⟩
      obtain ⟨v, _, rfl, taken, stop⟩ := (accepts_row_append single assertions).mp row
      rw [(atEnd _ _).mp stop, List.append_nil]
      exact taken
    · intro taken
      refine ⟨[], v, rfl, ⟨rfl, trivial⟩, (accepts_row_append single assertions).mpr ?_⟩
      exact ⟨v, [], (List.append_nil v).symm, taken, (atEnd _ _).mpr rfl⟩

/-! ## Plain routes -/

theorem exactItems_of_plain (plain : Plain uri) : exactItems uri = uri.map char := by
  induction uri using route_induct with
  | nil => rfl
  | last => exact absurd plain.1 (by decide)
  | pair c rest ih =>
    rw [exactItems_pair, ih plain.2]
    rfl
  | cons c rest other ih =>
    obtain ⟨hc, later⟩ := (plain_cons_iff other rest).mp plain
    have noDot : c ≠ 46 := by
      rintro rfl
      exact hc (by decide)
    rw [exactItems_cons other, if_neg noDot, ih later, List.map_cons]

/-- A stray closing bracket or brace is malformed. -/
theorem straight_of_plain (plain : Plain uri) {read : List Token}
    (h : tokens (exactSymbols uri) 0 = some read) : Straight uri := by
  induction uri using route_induct generalizing read with
  | nil => trivial
  | last => trivial
  | pair c rest ih =>
    rw [exactSymbols_pair, if_pos (special_of_plain plain.1)] at h
    obtain ⟨_, h⟩ := exists_tokens_of_single (by rfl) h
    rcases plain.1 with rfl | rfl
    · obtain ⟨_, h⟩ := exists_tokens_of_single (by rfl) h
      exact ⟨rfl, ih plain.2 h⟩
    · rw [tokens_eq_none rfl] at h
      contradiction
  | cons c rest other ih =>
    obtain ⟨hc, later⟩ := (plain_cons_iff other rest).mp plain
    rw [exactSymbols_cons other] at h
    by_cases brace : c = 125
    · rw [brace, if_neg (by decide), tokens_eq_none rfl] at h
      contradiction
    · have hc : c ∉ [36, 40, 41, 43, 94, 123, 124, 125] := by
        rw [meaningful] at hc
        simp only [List.mem_cons, List.not_mem_nil, or_false, not_or] at hc ⊢
        tauto
      obtain ⟨_, h⟩ := exists_tokens_of_single (single_of_straight hc) h
      exact (straight_cons_iff other rest).mpr ⟨hc, ih later h⟩

/-! ## Tight routes -/

/-- Every character of the route begins an atom. -/
def Tight : Bytes → Prop
  | [] => True
  | [92] => True
  | 92 :: c :: rest => (c = 47 ∨ c = 91) ∧ Tight rest
  | c :: rest => c ∉ [36, 40, 41, 43, 94, 123, 124, 125] ∧ Tight rest

theorem special_of_tight {c : UInt8} (h : c = 47 ∨ c = 91) : c ∈ chars "[]*/?" := by
  rcases h with rfl | rfl
  · decide
  · decide

theorem tight_cons_iff {c : UInt8} (h : c ≠ 92) (rest : Bytes) :
    Tight (c :: rest) ↔ c ∉ [36, 40, 41, 43, 94, 123, 124, 125] ∧ Tight rest := by
  rw [Tight]
  · rintro rfl
    exact absurd rfl h
  · rintro d rest' rfl
    exact absurd rfl h

theorem countP_exactSymbols_le (uri : Bytes) :
    (exactSymbols uri).countP Symbol.startsAtom ≤ uri.length := by
  induction uri using route_induct with
  | nil => decide
  | last => decide
  | pair c rest ih =>
    rw [exactSymbols_pair]
    simp only [List.length_cons]
    by_cases special : c ∈ chars "[]*/?"
    · rw [if_pos special, List.countP_cons, List.countP_cons]
      split_ifs <;> omega
    · rw [if_neg special, List.countP_cons]
      split_ifs <;> omega
  | cons c rest other ih =>
    rw [exactSymbols_cons other, List.countP_cons]
    simp only [List.length_cons]
    split_ifs <;> omega

theorem tight_of_le (le : uri.length ≤ (exactSymbols uri).countP Symbol.startsAtom) :
    Tight uri := by
  induction uri using route_induct with
  | nil => trivial
  | last => trivial
  | pair c rest ih =>
    have bound := countP_exactSymbols_le rest
    rw [exactSymbols_pair] at le
    simp only [List.length_cons] at le
    by_cases special : c ∈ chars "[]*/?"
    · rw [if_pos special, List.countP_cons, List.countP_cons] at le
      have starts : (Symbol.bare c).startsAtom := by
        by_contra h
        rw [if_neg h] at le
        split_ifs at le <;> omega
      rw [if_pos starts] at le
      have each : ∀ c ∈ chars "[]*/?", (Symbol.bare c).startsAtom → c = 47 ∨ c = 91 := by
        decide +kernel
      exact ⟨each c special starts, ih (by split_ifs at le <;> omega)⟩
    · rw [if_neg special, List.countP_cons] at le
      split_ifs at le <;> omega
  | cons c rest other ih =>
    have bound := countP_exactSymbols_le rest
    rw [exactSymbols_cons other, List.countP_cons] at le
    simp only [List.length_cons] at le
    have starts : (if c ∈ chars "[]*/?" then Symbol.escaped c else .bare c).startsAtom := by
      by_contra h
      rw [if_neg h] at le
      omega
    rw [if_pos starts] at le
    have each : ∀ c ∈ ([36, 40, 41, 43, 94, 123, 124, 125] : Bytes),
        ¬ (if c ∈ chars "[]*/?" then Symbol.escaped c else .bare c).startsAtom := by decide +kernel
    exact (tight_cons_iff other rest).mpr ⟨fun h => each c h starts, ih (by omega)⟩

theorem bare_bracket_notMem_of_tight (tight : Tight uri) : .bare 93 ∉ exactSymbols uri := by
  induction uri using route_induct with
  | nil => decide
  | last => decide
  | pair c rest ih =>
    rw [exactSymbols_pair, if_pos (special_of_tight tight.1), List.mem_cons, List.mem_cons, not_or,
      not_or]
    refine ⟨by simp, ?_, ih tight.2⟩
    rcases tight.1 with rfl | rfl
    · decide
    · decide
  | cons c rest other ih =>
    rw [exactSymbols_cons other, List.mem_cons, not_or]
    refine ⟨?_, ih ((tight_cons_iff other rest).mp tight).2⟩
    split_ifs with special
    · simp
    · rintro e
      obtain rfl := Symbol.bare.inj e
      exact special (by decide)

/-- A class needs a bare bracket that closes it, and a tight route has none. -/
theorem straight_of_tight (tight : Tight uri) {read : List Token}
    (h : tokens (exactSymbols uri) 0 = some read) : Straight uri := by
  induction uri using route_induct generalizing read with
  | nil => trivial
  | last => trivial
  | pair c rest ih =>
    rw [exactSymbols_pair, if_pos (special_of_tight tight.1)] at h
    obtain ⟨_, h⟩ := exists_tokens_of_single (by rfl) h
    rcases tight.1 with rfl | rfl
    · obtain ⟨_, h⟩ := exists_tokens_of_single (by rfl) h
      exact ⟨rfl, ih tight.2 h⟩
    · have unclosed : readToken (.bare 91) (exactSymbols rest) = none :=
        readClass_of_notMem (bare_bracket_notMem_of_tight tight.2)
      rw [tokens_eq_none unclosed] at h
      contradiction
  | cons c rest other ih =>
    obtain ⟨hc, later⟩ := (tight_cons_iff other rest).mp tight
    rw [exactSymbols_cons other] at h
    obtain ⟨_, h⟩ := exists_tokens_of_single (single_of_straight hc) h
    exact (straight_cons_iff other rest).mpr ⟨hc, ih later h⟩

theorem Clean.cons_iff {c : UInt8} {rest : Bytes} :
    Clean (c :: rest) ↔ (c ≠ 0 ∧ c ≠ 13 ∧ c ≠ 10) ∧ Clean rest := by
  simp only [Clean, List.mem_cons, not_or, ne_eq, eq_comm (a := c)]
  tauto

/-- A dot takes other characters, and a backslash at the end of the route takes a `$`. -/
theorem plain_of_matches (straight : Straight uri) (clean : Clean uri)
    (only : ∀ v, Clean v → (List.Forall₂ takes (exactItems uri) v ↔ v = uri)) : Plain uri := by
  induction uri using route_induct with
  | nil => trivial
  | last =>
    have dollar := (only [36] (by unfold Clean; decide)).mp (.cons (takes_char_iff.mpr rfl) .nil)
    contradiction
  | pair c rest ih =>
    obtain ⟨rfl, later⟩ := straight
    obtain ⟨hb, hs, cleanRest⟩ : _ ∧ _ ∧ Clean rest := by
      simpa only [Clean.cons_iff] using clean
    refine ⟨Or.inl rfl, ih later cleanRest fun v hv => ?_⟩
    have := only (92 :: 47 :: v) (Clean.cons_iff.mpr ⟨hb, Clean.cons_iff.mpr ⟨hs, hv⟩⟩)
    simpa [exactItems_pair] using this
  | cons c rest other ih =>
    obtain ⟨hc, later⟩ := (straight_cons_iff other rest).mp straight
    obtain ⟨here, cleanRest⟩ := Clean.cons_iff.mp clean
    rw [exactItems_cons other] at only
    have noDot : c ≠ 46 := by
      rintro rfl
      have itself := (only _ clean).mpr rfl
      have changed : List.Forall₂ takes (any :: exactItems rest) (65 :: rest) :=
        .cons (takes_any_iff.mpr (by decide)) (List.forall₂_cons.mp itself).2
      have := (only (65 :: rest) (Clean.cons_iff.mpr ⟨by decide, cleanRest⟩)).mp changed
      simp at this
    rw [if_neg noDot] at only
    have meansNothing : c ∉ chars "^$.+()\x7b|\\" := by
      rw [meaningful]
      simp only [List.mem_cons, List.not_mem_nil, or_false, not_or] at hc ⊢
      tauto
    refine (plain_cons_iff other rest).mpr ⟨meansNothing, ih later cleanRest fun v hv => ?_⟩
    have := only (c :: v) (Clean.cons_iff.mpr ⟨here, hv⟩)
    simpa using this

/-! ## The registered expression -/

/-- Where the symbols come from: `$` is the template's, and escapes are of characters that do not
make a word or stand in the route. -/
theorem mem_exactSymbols {s : Symbol} (h : s ∈ exactSymbols uri) :
    (∃ c, s = .bare c ∧ (c = 36 ∨ c ∈ uri)) ∨
      ∃ c, s = .escaped c ∧ (isWord c = false ∨ [92, c] <:+: uri) := by
  have special_not_word : ∀ c ∈ chars "[]*/?", isWord c = false := by decide +kernel
  induction uri using route_induct with
  | nil => exact Or.inl ⟨36, List.mem_singleton.mp h, Or.inl rfl⟩
  | last => exact Or.inr ⟨36, List.mem_singleton.mp h, Or.inl (by decide)⟩
  | pair c rest ih =>
    have later (h : s ∈ exactSymbols rest) :
        (∃ d, s = .bare d ∧ (d = 36 ∨ d ∈ 92 :: c :: rest)) ∨
          ∃ d, s = .escaped d ∧ (isWord d = false ∨ [92, d] <:+: 92 :: c :: rest) := by
      rcases ih h with ⟨d, e, hd⟩ | ⟨d, e, hd⟩
      · exact Or.inl ⟨d, e, hd.imp_right fun h => by simp [h]⟩
      · exact Or.inr ⟨d, e, hd.imp_right fun h => h.trans (List.suffix_append [92, c] rest).isInfix⟩
    rw [exactSymbols_pair] at h
    split_ifs at h with special
    · rw [List.mem_cons, List.mem_cons] at h
      rcases h with rfl | rfl | h
      · exact Or.inr ⟨92, rfl, Or.inl (by decide)⟩
      · exact Or.inl ⟨c, rfl, Or.inr (by simp)⟩
      · exact later h
    · rw [List.mem_cons] at h
      rcases h with rfl | h
      · exact Or.inr ⟨c, rfl, Or.inr (List.prefix_append [92, c] rest).isInfix⟩
      · exact later h
  | cons c rest other ih =>
    rw [exactSymbols_cons other, List.mem_cons] at h
    rcases h with rfl | h
    · split_ifs with special
      · exact Or.inr ⟨c, rfl, Or.inl (special_not_word c special)⟩
      · exact Or.inl ⟨c, rfl, Or.inr List.mem_cons_self⟩
    · rcases ih h with ⟨d, e, hd⟩ | ⟨d, e, hd⟩
      · exact Or.inl ⟨d, e, hd.imp_right (List.mem_cons_of_mem c)⟩
      · exact Or.inr ⟨d, e, hd.imp_right fun h => h.trans (List.suffix_cons c rest).isInfix⟩

theorem Simple.symbol (simple : Simple uri) {s : Symbol} (h : s ∈ .bare 94 :: exactSymbols uri) :
    s.Regular ∧ s ≠ .bare 123 := by
  rcases List.mem_cons.mp h with rfl | h
  · exact ⟨trivial, by decide⟩
  · rcases mem_exactSymbols h with ⟨c, rfl, rfl | hc⟩ | ⟨c, rfl, hc⟩
    · exact ⟨trivial, by decide⟩
    · refine ⟨trivial, fun e => simple.1 ?_⟩
      rwa [Symbol.bare.inj e] at hc
    · refine ⟨?_, by simp⟩
      have none (meant : c = 98 ∨ c = 66 ∨ (EcmaScript.isDigit c ∧ c ≠ 48)) : False := by
        rcases hc with notWord | pair
        · rcases meant with rfl | rfl | ⟨digit, -⟩
          · contradiction
          · contradiction
          · simp [isWord, digit] at notWord
        · exact simple.2 c meant pair
      refine ⟨fun e => none (Or.inl e), fun e => none (Or.inr (Or.inl e)), fun digit => ?_⟩
      by_contra zero
      exact none (Or.inr (Or.inr ⟨digit, zero⟩))

/-- An expression that matches the route only can do without none of its characters. -/
theorem tight_of_matches {r : EcmaScript} (simple : Simple uri) (clean : Clean uri)
    (h : compile (exactText uri) = some r)
    (only : ∀ v, Clean v → (matchesUri v r = true ↔ v = uri)) : Tight uri := by
  obtain ⟨_, read, paired, found, built⟩ := compile_eq_some h
  rw [symbols_exactText, Option.some.injEq] at paired
  subst paired
  have regular : r.Regular := by
    refine build_regular built ?_ ⟨by simp, by simp⟩ (by simp)
    exact tokens_forall found fun s hs rest t further ht =>
      readToken_regular ht (simple.symbol hs).1
  have narrow : r.width ≤ (exactSymbols uri).countP Symbol.startsAtom := by
    have short : ∀ t ∈ read, t.Short := tokens_forall found fun s hs rest t further ht =>
      readToken_short ht (simple.symbol hs).2
    have bound := build_width built short
    have atoms := countP_isAtom_le found fun s hs rest t further => readToken_isAtom
    have first : Symbol.startsAtom (.bare 94) = false := by decide
    rw [List.countP_cons, first] at atoms
    simp [Frame.width] at bound atoms
    omega
  have itself := (matchesUri_iff regular clean).mp ((only uri clean).mpr rfl)
  obtain ⟨short, sub, len, accepted⟩ := itself.shrink
  have cleanShort : Clean short :=
    ⟨fun h => clean.1 (sub.subset h), fun h => clean.2.1 (sub.subset h),
      fun h => clean.2.2 (sub.subset h)⟩
  have same := (only short cleanShort).mp ((matchesUri_iff regular cleanShort).mpr accepted)
  apply tight_of_le
  calc uri.length = short.length := by rw [same]
    _ ≤ r.width := len
    _ ≤ _ := narrow

/-- For a route without `*` that `add` accepts, the registered expression matches the route only when
the route is plain; for clean routes without counts, word boundaries and back references it does so
only then. -/
theorem exactRoute_literal_iff {fuel : ℕ} {resolver stored : Resolver} {m m' : UriMapper EcmaScript}
    (exact : 42 ∉ uri) (added : m.add fuel uri resolver = some (.ok (stored, m'))) :
    ∃ regexStr compiled, createRegex fuel uri = some (.ok regexStr) ∧
      compile regexStr = some compiled ∧
      m' = ⟨m.resolvers.insertOrAssign regexStr (compiled, resolver)⟩ ∧
      (Plain uri → ∀ v, Clean v → (matchesUri v compiled = true ↔ v = uri)) ∧
      (Simple uri → Clean uri →
        (∀ v, Clean v → (matchesUri v compiled = true ↔ v = uri)) → Plain uri) := by
  obtain ⟨created, compiled, found, rfl⟩ := add_eq_ok added
  have noWildcard := containsWildcard_of_notMem exact
  rw [routeText, if_pos noWildcard] at created found ⊢
  obtain ⟨_, read, paired, readable, -⟩ := compile_eq_some found
  rw [symbols_exactText, Option.some.injEq] at paired
  rw [← paired, tokens_cons rfl] at readable
  obtain ⟨later, readable, -⟩ := Option.map_eq_some_iff.mp readable
  refine ⟨_, compiled, created, found, rfl, ?_, ?_⟩
  · intro plain v clean
    obtain ⟨regular, accepts⟩ := straight_matches (straight_of_plain plain readable) found
    rw [matchesUri_iff regular clean, accepts, exactItems_of_plain plain, forall₂_takes_char]
  · intro simple clean only
    have straight := straight_of_tight (tight_of_matches simple clean found only) readable
    obtain ⟨regular, accepts⟩ := straight_matches straight found
    apply plain_of_matches straight clean
    intro v hv
    rw [← accepts, ← matchesUri_iff regular hv]
    exact only v hv

/-- The route of a query, which holds two of the escaped characters. -/
theorem exactRoute_literal_iff_query :
    ∃ compiled, compile (chars "^\\/a\\?b=1$") = some compiled ∧
      ∀ v, Clean v → (matchesUri v compiled = true ↔ v = chars "/a?b=1") := by
  obtain ⟨regexStr, compiled, created, found, -, literal, -⟩ :=
    @exactRoute_literal_iff (chars "/a?b=1") 9 (fun _ => .throwing .regexError) _ ⟨∅⟩ _
      (by decide) rfl
  have text : createRegex 9 (chars "/a?b=1") = some (.ok (chars "^\\/a\\?b=1$")) := rfl
  obtain rfl : chars "^\\/a\\?b=1$" = regexStr := by
    rw [text] at created
    simpa using created
  have route : chars "/a?b=1" = [47, 97, 63, 98, 61, 49] := by decide
  exact ⟨compiled, found, literal (by simp [route, meaningful, Plain])⟩

/-- The dot of a route matches any character. -/
theorem exactRoute_dot :
    ∃ compiled, (⟨∅⟩ : UriMapper EcmaScript).add 9 (chars "/a.c") (fun _ => .throwing .regexError) =
        some (.ok (fun _ => .throwing .regexError,
          ⟨(∅ : UnorderedMap Bytes (EcmaScript × Resolver)).insertOrAssign (chars "^\\/a.c$")
            (compiled, fun _ => .throwing .regexError)⟩)) ∧
      Clean (chars "/abc") ∧ matchesUri (chars "/abc") compiled = true ∧
      chars "/abc" ≠ chars "/a.c" :=
  ⟨_, rfl, by unfold Clean; decide, by decide, by decide⟩

end UriMapper

end Lightning
