import Mathlib.Data.List.Chain
import Lightning.Lib.RegexLanguage

/-!
# Well-formed expressions

`compile_isSome_iff` says which expressions the compiler accepts: those whose symbols can be read
as tokens and whose tokens are `WellFormed`. The compiler nests the tokens in one pass with a stack;
`Fits` is what that pass asks of the tokens that are left, at a depth and behind a token that can be
repeated or not.
-/

namespace EcmaScript

/-! ## Symbols -/

theorem symbols_cons {c : UInt8} (h : c ≠ 92) (rest : List UInt8) :
    symbols (c :: rest) = (symbols rest).map (Symbol.bare c :: ·) := by
  rw [symbols.eq_def]
  split
  · contradiction
  · rename_i e
    cases e
    exact absurd rfl h
  · rename_i e
    cases e
    rw [if_neg h]

@[simp] theorem symbols_escape (c : UInt8) (rest : List UInt8) :
    symbols (92 :: c :: rest) = (symbols rest).map (Symbol.escaped c :: ·) := rfl

/-- The bare characters that do not stand for themselves. -/
def metacharacters : List UInt8 := [36, 40, 41, 42, 43, 46, 63, 91, 93, 94, 123, 124, 125]

/-- The character that the symbol stands for by being that character. -/
def Symbol.literal : Symbol → Option UInt8
  | .bare c => if c ∈ metacharacters then none else some c
  | .escaped c => if isWord c then none else some c

theorem readEscape_of_not_isWord {c : UInt8} (h : isWord c = false) (rest : List Symbol) :
    readEscape c rest = some (.atom (char c), 0) := by
  have other (d : UInt8) (hd : isWord d = true) : c ≠ d := by
    rintro rfl
    rw [hd] at h
    contradiction
  have noDigit : isDigit c = false := by
    cases hc : isDigit c with
    | false => rfl
    | true => simp [isWord, hc] at h
  have noClass : classEscape c = none := by
    unfold classEscape
    split <;> first | rfl | exact absurd rfl (other _ (by decide))
  have itself : characterEscape c rest = some (c, 0) := by
    unfold characterEscape
    split <;> first | rfl | exact absurd rfl (other _ (by decide))
  unfold readEscape
  rw [if_neg (other 98 (by decide)), if_neg (other 66 (by decide)), if_neg (by simp [noDigit]),
    noClass, itself]
  rfl

theorem readToken_of_literal {s : Symbol} {c : UInt8} (h : s.literal = some c)
    (rest : List Symbol) : readToken s rest = some (.atom (char c), 0) := by
  cases s with
  | escaped d =>
    simp only [Symbol.literal, Option.ite_none_left_eq_some, Option.some.injEq] at h
    obtain ⟨hd, rfl⟩ := h
    exact readEscape_of_not_isWord (Bool.eq_false_iff.mpr hd) rest
  | bare d =>
    simp only [Symbol.literal, Option.ite_none_left_eq_some, Option.some.injEq] at h
    obtain ⟨hd, rfl⟩ := h
    simp only [metacharacters, List.mem_cons, List.not_mem_nil, or_false, not_or] at hd
    unfold readToken
    split <;> first | rfl | simp_all

theorem tokens_cons {s : Symbol} {t : Token} {rest : List Symbol}
    (h : readToken s rest = some (t, 0)) :
    tokens (s :: rest) 0 = (tokens rest 0).map (t :: ·) := by
  rw [tokens, h]
  rfl

/-- The expression of a symbol that is read on its own and takes one character. -/
def Symbol.single (s : Symbol) : Option EcmaScript :=
  if s = .bare 46 then some any else s.literal.map char

theorem readToken_of_single {s : Symbol} {r : EcmaScript} (h : s.single = some r)
    (rest : List Symbol) : readToken s rest = some (.atom r, 0) := by
  rw [Symbol.single] at h
  split_ifs at h with dot
  · rw [dot, ← Option.some.inj h]
    rfl
  · obtain ⟨c, hc, rfl⟩ := Option.map_eq_some_iff.mp h
    exact readToken_of_literal hc rest

theorem exists_tokens_of_single {s : Symbol} {r : EcmaScript} (h : s.single = some r)
    {rest : List Symbol} {read : List Token} (found : tokens (s :: rest) 0 = some read) :
    ∃ later, tokens rest 0 = some later := by
  rw [tokens_cons (readToken_of_single h rest)] at found
  obtain ⟨later, hlater, -⟩ := Option.map_eq_some_iff.mp found
  exact ⟨later, hlater⟩

theorem tokens_eq_none {s : Symbol} {rest : List Symbol} (h : readToken s rest = none) :
    tokens (s :: rest) 0 = none := by
  rw [tokens, h]
  rfl

theorem tokens_append_of_single {ss : List Symbol} {items : List EcmaScript}
    (h : ss.map Symbol.single = items.map some) (rest : List Symbol) :
    tokens (ss ++ rest) 0 = (tokens rest 0).map (items.map Token.atom ++ ·) := by
  induction ss generalizing items with
  | nil =>
    obtain rfl : items = [] := by simpa using h.symm
    simp
  | cons s ss ih =>
    cases items with
    | nil => simp at h
    | cons r items =>
      rw [List.map_cons, List.map_cons, List.cons.injEq] at h
      rw [List.cons_append, tokens_cons (readToken_of_single h.1 _), ih h.2, Option.map_map]
      rfl

/-! ## What the compiler accepts -/

namespace Token

@[simp] def repeatable : Token → Bool
  | atom _ => true
  | closing => true
  | _ => false

@[simp] def isQuantifier : Token → Bool
  | quantifier _ _ => true
  | _ => false

/-- How deep the groups are nested behind the token. -/
@[simp] def depth (before : ℕ) : Token → ℕ
  | opening => before + 1
  | closing => before - 1
  | _ => before

end Token

/-- The groups that are open at the beginning and those of the tokens close again. -/
structure Balanced (before : ℕ) (read : List Token) : Prop where
  nested : ∀ front, front <+: read → front.count .closing ≤ before + front.count .opening
  closed : read.count .closing = before + read.count .opening

/-- The grammar of the tokens. -/
structure WellFormed (read : List Token) : Prop where
  balanced : Balanced 0 read
  /-- A quantifier directly follows an atom or a group; the beginning counts as a bar. -/
  quantified : (Token.bar :: read).IsChain fun before t => t.isQuantifier → before.repeatable
  referenced : read.all (Token.refersWithin (read.count .opening))

theorem balanced_nil_iff {depth : ℕ} : Balanced depth [] ↔ depth = 0 := by
  constructor
  · intro h
    simpa using h.closed.symm
  · rintro rfl
    exact ⟨fun front h => by simp [List.prefix_nil.mp h], rfl⟩

/-- A token changes the depth by what it adds to the counts. -/
theorem Token.depth_count {depth : ℕ} {t : Token} (first : t = .closing → 0 < depth)
    (read : List Token) :
    depth + (t :: read).count .opening + read.count .closing =
      t.depth depth + read.count .opening + (t :: read).count .closing := by
  cases t with
  | closing =>
    have := first rfl
    simp
    omega
  | opening =>
    simp
    omega
  | _ => simp

theorem balanced_cons_iff {depth : ℕ} {t : Token} {rest : List Token} :
    Balanced depth (t :: rest) ↔ (t = .closing → 0 < depth) ∧ Balanced (t.depth depth) rest := by
  constructor
  · intro h
    have first : t = .closing → 0 < depth := by
      rintro rfl
      exact h.nested [.closing] (List.cons_prefix_cons.mpr ⟨rfl, List.nil_prefix⟩)
    refine ⟨first, fun front hf => ?_, ?_⟩
    · have inside := h.nested (t :: front) (List.cons_prefix_cons.mpr ⟨rfl, hf⟩)
      have := Token.depth_count first front
      omega
    · have whole := h.closed
      have := Token.depth_count first rest
      omega
  · rintro ⟨first, h⟩
    refine ⟨fun front hf => ?_, ?_⟩
    · rcases List.prefix_cons_iff.mp hf with rfl | ⟨front, rfl, shorter⟩
      · exact Nat.zero_le _
      · have inside := h.nested front shorter
        have := Token.depth_count first front
        omega
    · have whole := h.closed
      have := Token.depth_count first rest
      omega

/-- What the compiler asks of the tokens that are left. -/
@[simp] def Fits : List Token → ℕ → Bool → Prop
  | [], depth, _ => depth = 0
  | t :: rest, depth, ready =>
      (t = .closing → 0 < depth) ∧ (t.isQuantifier → ready) ∧ Fits rest (t.depth depth) t.repeatable

theorem fits_iff (read : List Token) (depth : ℕ) (before : Token) :
    Fits read depth before.repeatable ↔ Balanced depth read ∧
      (before :: read).IsChain fun before t => t.isQuantifier → before.repeatable := by
  induction read generalizing depth before with
  | nil => simp [balanced_nil_iff]
  | cons t rest ih =>
    rw [Fits, ih, balanced_cons_iff, List.isChain_cons_cons]
    tauto

attribute [local simp] build Frame.push Frame.bar Frame.quantify

/-- By induction on the tokens; the last item can only be repeated when there is one. -/
theorem build_isSome_iff (read : List Token) (f : Frame) (outer : List Frame) (n : ℕ)
    (nonempty : f.ready → f.items ≠ []) :
    (build read f outer n).isSome ↔ Fits read outer.length f.ready := by
  induction read generalizing f outer n with
  | nil =>
    cases outer with
    | nil => simp
    | cons parent outer => simp
  | cons t rest ih =>
    cases t with
    | atom r =>
      rw [build, ih _ _ _ fun _ => List.cons_ne_nil _ _]
      simp
    | assertion r =>
      rw [build, ih _ _ _ fun _ => List.cons_ne_nil _ _]
      simp
    | opening =>
      rw [build, ih _ _ _ (by simp)]
      simp
    | closing =>
      cases outer with
      | nil => simp
      | cons parent outer =>
        rw [build, ih _ _ _ fun _ => List.cons_ne_nil _ _]
        simp
    | bar =>
      rw [build, ih _ _ _ (by simp)]
      simp
    | quantifier least most =>
      cases items : f.items with
      | nil =>
        have notReady : f.ready = false := by
          cases ready : f.ready with
          | false => rfl
          | true => exact absurd items (nonempty ready)
        simp [items, notReady]
      | cons r items' =>
        cases ready : f.ready with
        | false => simp [items, ready]
        | true =>
          simp only [build, Frame.quantify, items, ready, if_true, Option.bind_some]
          rw [ih _ _ _ (by simp)]
          simp

theorem compile_isSome_iff (expression : List UInt8) :
    (compile expression).isSome ↔
      ∃ ss read, symbols expression = some ss ∧ tokens ss 0 = some read ∧ WellFormed read := by
  have accepted (read : List Token) :
      (if read.all (Token.refersWithin (read.count .opening)) then
        build read ⟨0, [], [], false⟩ [] 0 else none).isSome ↔ WellFormed read := by
    have fits : Fits read 0 false ↔ _ := fits_iff read 0 .bar
    by_cases referenced : read.all (Token.refersWithin (read.count .opening))
    · rw [if_pos referenced, build_isSome_iff _ _ _ _ (by simp)]
      rw [List.length_nil, fits]
      exact ⟨fun h => ⟨h.1, h.2, referenced⟩, fun h => ⟨h.balanced, h.quantified⟩⟩
    · rw [if_neg referenced]
      exact ⟨fun h => absurd h (by simp), fun h => absurd h.referenced referenced⟩
  rw [compile]
  cases symbols expression with
  | none => simp
  | some ss =>
    cases found : tokens ss 0 with
    | none => simp [found]
    | some read =>
      rw [Option.bind_some, found, Option.bind_some, accepted]
      simp [found]

theorem compile_eq_some {expression : List UInt8} {r : EcmaScript}
    (h : compile expression = some r) :
    ∃ ss read, symbols expression = some ss ∧ tokens ss 0 = some read ∧
      build read ⟨0, [], [], false⟩ [] 0 = some r := by
  rw [compile] at h
  obtain ⟨read, found, built⟩ := Option.bind_eq_some_iff.mp h
  obtain ⟨ss, paired, found⟩ := Option.bind_eq_some_iff.mp found
  exact ⟨ss, read, paired, found, (Option.ite_none_right_eq_some.mp built).2⟩

end EcmaScript
