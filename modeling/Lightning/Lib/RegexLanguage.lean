import Lightning.Lib.Regex

/-!
# The language of a regular expression

`Accepts r atStart word atEnd` says what an expression without word boundaries and back references
matches; the flags tell whether the word lies at the start and at the end of the subject, which `^`
and `$` depend on. `mem_run_iff` connects it with the backtracking matcher, so that
`regexMatch_isSome_iff` describes every whole match. `Accepts.shrink` bounds how short a match can
be made: repetitions are skipped, and what is left takes at most `width r` characters.
-/

namespace EcmaScript

variable {r s : EcmaScript} {word : List UInt8} {atStart atEnd : Bool}

inductive Accepts : EcmaScript → Bool → List UInt8 → Bool → Prop
  | empty {atStart atEnd : Bool} : Accepts empty atStart [] atEnd
  | char {c : UInt8} {atStart atEnd : Bool} : Accepts (char c) atStart [c] atEnd
  | any {c : UInt8} {atStart atEnd : Bool} (lf : c ≠ 10) (cr : c ≠ 13) :
      Accepts any atStart [c] atEnd
  | set {negated : Bool} {ranges : List (UInt8 × UInt8)} {c : UInt8} {atStart atEnd : Bool}
      (h : inRanges ranges c ≠ negated) : Accepts (set negated ranges) atStart [c] atEnd
  | bol {atEnd : Bool} : Accepts bol true [] atEnd
  | eol {atStart : Bool} : Accepts eol atStart [] true
  | seq {r s : EcmaScript} {v w : List UInt8} {atStart atEnd : Bool}
      (first : Accepts r atStart v (w.isEmpty && atEnd))
      (second : Accepts s (atStart && v.isEmpty) w atEnd) : Accepts (seq r s) atStart (v ++ w) atEnd
  | left {r s : EcmaScript} {word : List UInt8} {atStart atEnd : Bool}
      (h : Accepts r atStart word atEnd) : Accepts (alt r s) atStart word atEnd
  | right {r s : EcmaScript} {word : List UInt8} {atStart atEnd : Bool}
      (h : Accepts s atStart word atEnd) : Accepts (alt r s) atStart word atEnd
  | done {r : EcmaScript} {atStart atEnd : Bool} : Accepts (star r) atStart [] atEnd
  | round {r : EcmaScript} {v w : List UInt8} {atStart atEnd : Bool} (taken : v ≠ [])
      (first : Accepts r atStart v (w.isEmpty && atEnd))
      (rest : Accepts (star r) false w atEnd) : Accepts (star r) atStart (v ++ w) atEnd
  | group {index : ℕ} {r : EcmaScript} {word : List UInt8} {atStart atEnd : Bool}
      (h : Accepts r atStart word atEnd) : Accepts (group index r) atStart word atEnd

/-! ## What each construct accepts -/

@[simp] theorem accepts_empty_iff : Accepts empty atStart word atEnd ↔ word = [] := by
  constructor
  · intro h
    cases h
    rfl
  · rintro rfl
    exact .empty

@[simp] theorem accepts_char_iff {c : UInt8} :
    Accepts (char c) atStart word atEnd ↔ word = [c] := by
  constructor
  · intro h
    cases h
    rfl
  · rintro rfl
    exact .char

theorem accepts_any_iff :
    Accepts any atStart word atEnd ↔ ∃ c, word = [c] ∧ c ≠ 10 ∧ c ≠ 13 := by
  constructor
  · intro h
    cases h with
    | any lf cr => exact ⟨_, rfl, lf, cr⟩
  · rintro ⟨c, rfl, lf, cr⟩
    exact .any lf cr

theorem accepts_set_iff {negated : Bool} {ranges : List (UInt8 × UInt8)} :
    Accepts (set negated ranges) atStart word atEnd ↔
      ∃ c, word = [c] ∧ inRanges ranges c ≠ negated := by
  constructor
  · intro h
    cases h with
    | set inside => exact ⟨_, rfl, inside⟩
  · rintro ⟨c, rfl, inside⟩
    exact .set inside

@[simp] theorem accepts_bol_iff :
    Accepts bol atStart word atEnd ↔ word = [] ∧ atStart = true := by
  constructor
  · intro h
    cases h
    exact ⟨rfl, rfl⟩
  · rintro ⟨rfl, rfl⟩
    exact .bol

@[simp] theorem accepts_eol_iff : Accepts eol atStart word atEnd ↔ word = [] ∧ atEnd = true := by
  constructor
  · intro h
    cases h
    exact ⟨rfl, rfl⟩
  · rintro ⟨rfl, rfl⟩
    exact .eol

theorem accepts_seq_iff :
    Accepts (seq r s) atStart word atEnd ↔
      ∃ v w, word = v ++ w ∧ Accepts r atStart v (w.isEmpty && atEnd) ∧
        Accepts s (atStart && v.isEmpty) w atEnd := by
  constructor
  · intro h
    cases h with
    | seq first second => exact ⟨_, _, rfl, first, second⟩
  · rintro ⟨v, w, rfl, first, second⟩
    exact .seq first second

theorem accepts_alt_iff :
    Accepts (alt r s) atStart word atEnd ↔
      Accepts r atStart word atEnd ∨ Accepts s atStart word atEnd := by
  constructor
  · intro h
    cases h with
    | left h => exact Or.inl h
    | right h => exact Or.inr h
  · rintro (h | h)
    · exact .left h
    · exact .right h

@[simp] theorem accepts_group_iff {index : ℕ} :
    Accepts (group index r) atStart word atEnd ↔ Accepts r atStart word atEnd := by
  constructor
  · intro h
    cases h with
    | group h => exact h
  · exact .group

theorem accepts_star_iff :
    Accepts (star r) atStart word atEnd ↔
      word = [] ∨ ∃ v w, word = v ++ w ∧ v ≠ [] ∧ Accepts r atStart v (w.isEmpty && atEnd) ∧
        Accepts (star r) false w atEnd := by
  constructor
  · intro h
    cases h with
    | done => exact Or.inl rfl
    | round taken first rest => exact Or.inr ⟨_, _, rfl, taken, first, rest⟩
  · rintro (rfl | ⟨v, w, rfl, taken, first, rest⟩)
    · exact .done
    · exact .round taken first rest

/-! ## The matcher and the language -/

/-- Word boundaries look at the characters around the match, and back references at its captures. -/
@[simp] def Regular : EcmaScript → Prop
  | empty => True
  | char _ => True
  | any => True
  | set _ _ => True
  | bol => True
  | eol => True
  | wordBoundary _ => False
  | backReference _ => False
  | seq r s => r.Regular ∧ s.Regular
  | alt r s => r.Regular ∧ s.Regular
  | star r => r.Regular
  | group _ r => r.Regular

/-- The matches from behind `pre` are the words of the language at the front of the rest. -/
def Recognizes (r : EcmaScript) : Prop :=
  ∀ (pre rest : List UInt8) (next : ℕ) (caps : Captures),
    (∃ found, (next, found) ∈ run (pre ++ rest) r pre.length caps) ↔
      ∃ word post, rest = word ++ post ∧ next = pre.length + word.length ∧
        Accepts r pre.isEmpty word post.isEmpty

theorem isEmpty_append (v w : List UInt8) : (v ++ w).isEmpty = (v.isEmpty && w.isEmpty) := by
  cases v <;> simp

theorem getElem?_append_length (pre rest : List UInt8) :
    (pre ++ rest)[pre.length]? = rest.head? := by
  rw [List.getElem?_append_right (Nat.le_refl _), Nat.sub_self, List.head?_eq_getElem?]

/-- An expression that takes nothing and only asks where it stands. -/
theorem recognizes_of_assertion {p : Bool → Bool → Prop}
    (runs : ∀ pre rest caps next found, (next, found) ∈ run (pre ++ rest) r pre.length caps ↔
      p pre.isEmpty rest.isEmpty ∧ next = pre.length ∧ found = caps)
    (accepts : ∀ word atStart atEnd,
      Accepts r atStart word atEnd ↔ word = [] ∧ p atStart atEnd) : Recognizes r := by
  intro pre rest next caps
  constructor
  · rintro ⟨found, h⟩
    obtain ⟨there, rfl, -⟩ := (runs _ _ _ _ _).mp h
    exact ⟨[], rest, rfl, rfl, (accepts _ _ _).mpr ⟨rfl, there⟩⟩
  · rintro ⟨word, post, rfl, rfl, h⟩
    obtain ⟨rfl, there⟩ := (accepts _ _ _).mp h
    exact ⟨caps, (runs _ _ _ _ _).mpr ⟨there, rfl, rfl⟩⟩

/-- An expression that takes one character with a property. -/
theorem recognizes_of_character {p : UInt8 → Prop}
    (runs : ∀ pre rest caps next found, (next, found) ∈ run (pre ++ rest) r pre.length caps ↔
      ∃ c, rest.head? = some c ∧ p c ∧ next = pre.length + 1 ∧ found = caps)
    (accepts : ∀ word atStart atEnd,
      Accepts r atStart word atEnd ↔ ∃ c, word = [c] ∧ p c) : Recognizes r := by
  intro pre rest next caps
  constructor
  · rintro ⟨found, h⟩
    obtain ⟨c, front, hc, rfl, -⟩ := (runs _ _ _ _ _).mp h
    obtain ⟨post, rfl⟩ := List.head?_eq_some_iff.mp front
    exact ⟨[c], post, rfl, rfl, (accepts _ _ _).mpr ⟨c, rfl, hc⟩⟩
  · rintro ⟨word, post, rfl, rfl, h⟩
    obtain ⟨c, rfl, hc⟩ := (accepts _ _ _).mp h
    exact ⟨caps, (runs _ _ _ _ _).mpr ⟨c, rfl, hc, rfl, rfl⟩⟩

attribute [local simp] run

theorem recognizes_empty : Recognizes empty := by
  refine recognizes_of_assertion (p := fun _ _ => True) ?_ ?_
  · intro pre rest caps next found
    simp
  · simp

theorem recognizes_bol : Recognizes bol := by
  refine recognizes_of_assertion (p := fun atStart _ => atStart = true) ?_ ?_
  · intro pre rest caps next found
    by_cases h : pre = []
    · simp [h]
    · simp [h]
  · simp

theorem recognizes_eol : Recognizes eol := by
  refine recognizes_of_assertion (p := fun _ atEnd => atEnd = true) ?_ ?_
  · intro pre rest caps next found
    by_cases h : rest = []
    · simp [h]
    · simp [h]
  · simp

theorem recognizes_char (c : UInt8) : Recognizes (char c) := by
  refine recognizes_of_character (p := fun d => d = c) ?_ ?_
  · intro pre rest caps next found
    rw [run, getElem?_append_length]
    by_cases h : rest.head? = some c
    · simp [h]
    · simp [h]
  · simp

theorem recognizes_any : Recognizes any := by
  refine recognizes_of_character (p := fun d => d ≠ 10 ∧ d ≠ 13) ?_ ?_
  · intro pre rest caps next found
    rw [run, getElem?_append_length]
    cases rest.head? with
    | none => simp
    | some d =>
      by_cases h : d = 10 ∨ d = 13
      · simpa [h] using fun lf cr => absurd h (not_or.mpr ⟨lf, cr⟩)
      · simp [not_or.mp h]
  · intro word atStart atEnd
    exact accepts_any_iff

theorem recognizes_set (negated : Bool) (ranges : List (UInt8 × UInt8)) :
    Recognizes (set negated ranges) := by
  refine recognizes_of_character (p := fun d => inRanges ranges d ≠ negated) ?_ ?_
  · intro pre rest caps next found
    rw [run, getElem?_append_length]
    cases rest.head? with
    | none => simp
    | some d =>
      by_cases h : inRanges ranges d = negated
      · simp [h]
      · simp [h]
  · intro word atStart atEnd
    exact accepts_set_iff

theorem recognizes_seq (first : Recognizes r) (second : Recognizes s) :
    Recognizes (seq r s) := by
  intro pre rest next caps
  have split : (∃ found, (next, found) ∈ run (pre ++ rest) (seq r s) pre.length caps) ↔
      ∃ mid between, (mid, between) ∈ run (pre ++ rest) r pre.length caps ∧
        ∃ found, (next, found) ∈ run (pre ++ rest) s mid between := by
    simp only [run, List.mem_flatMap, Prod.exists]
    exact ⟨fun ⟨found, mid, between, h, h'⟩ => ⟨mid, between, h, found, h'⟩,
      fun ⟨mid, between, h, found, h'⟩ => ⟨found, mid, between, h, h'⟩⟩
  rw [split]
  constructor
  · rintro ⟨mid, between, h, h'⟩
    obtain ⟨v, behind, rfl, rfl, hv⟩ := (first pre rest mid caps).mp ⟨between, h⟩
    rw [← List.append_assoc, ← List.length_append] at h'
    obtain ⟨w, post, rfl, rfl, hw⟩ := (second (pre ++ v) behind next between).mp h'
    refine ⟨v ++ w, post, (List.append_assoc _ _ _).symm, ?_, .seq ?_ ?_⟩
    · simp only [List.length_append, Nat.add_assoc]
    · rwa [isEmpty_append] at hv
    · rwa [isEmpty_append] at hw
  · rintro ⟨word, post, rfl, rfl, h⟩
    obtain ⟨v, w, rfl, hv, hw⟩ := accepts_seq_iff.mp h
    rw [← isEmpty_append] at hv hw
    obtain ⟨between, hb⟩ := (first pre (v ++ w ++ post) (pre.length + v.length) caps).mpr
      ⟨v, w ++ post, List.append_assoc _ _ _, rfl, hv⟩
    obtain ⟨found, hf⟩ := (second (pre ++ v) (w ++ post) _ between).mpr ⟨w, post, rfl, rfl, hw⟩
    refine ⟨_, between, hb, found, ?_⟩
    simpa [Nat.add_assoc] using hf

theorem recognizes_alt (left : Recognizes r) (right : Recognizes s) : Recognizes (alt r s) := by
  intro pre rest next caps
  simp only [run, List.mem_append, exists_or, left pre rest next caps, right pre rest next caps,
    accepts_alt_iff, and_or_left]

theorem recognizes_group (index : ℕ) (body : Recognizes r) : Recognizes (group index r) := by
  intro pre rest next caps
  simp only [accepts_group_iff, ← body pre rest next caps]
  constructor
  · rintro ⟨found, h⟩
    obtain ⟨⟨after, between⟩, inside, e⟩ := List.mem_map.mp h
    cases e
    exact ⟨between, inside⟩
  · rintro ⟨between, inside⟩
    exact ⟨_, List.mem_map.mpr ⟨(next, between), inside, rfl⟩⟩

/-- By induction on the bound, which exceeds what is left of the subject: a round that counts takes
at least one character. -/
theorem mem_repeated_iff (body : Recognizes r) (fuel : ℕ) :
    ∀ (pre rest : List UInt8) (next : ℕ) (caps : Captures), rest.length < fuel →
      ((∃ found, (next, found) ∈ repeated (run (pre ++ rest) r) fuel pre.length caps) ↔
        ∃ word post, rest = word ++ post ∧ next = pre.length + word.length ∧
          Accepts (star r) pre.isEmpty word post.isEmpty) := by
  induction fuel with
  | zero => exact fun pre rest next caps h => absurd h (Nat.not_lt_zero _)
  | succ fuel ih =>
    intro pre rest next caps bound
    constructor
    · rintro ⟨found, h⟩
      rw [repeated, List.mem_append, List.mem_flatMap] at h
      rcases h with ⟨⟨mid, between⟩, inRound, later⟩ | stop
      · obtain ⟨v, behind, rfl, rfl, hv⟩ := (body pre rest mid caps).mp ⟨between, inRound⟩
        have taken : v ≠ [] := by
          rintro rfl
          simp at later
        have moved : pre.length + v.length ≠ pre.length := by simpa using taken
        simp only [moved, if_false] at later
        rw [← List.append_assoc, ← List.length_append] at later
        have shorter : behind.length < fuel := by
          have := List.length_pos_iff.mpr taken
          rw [List.length_append] at bound
          omega
        obtain ⟨w, post, rfl, rfl, hw⟩ :=
          (ih (pre ++ v) behind next between shorter).mp ⟨found, later⟩
        refine ⟨v ++ w, post, (List.append_assoc _ _ _).symm, ?_, .round taken ?_ ?_⟩
        · simp only [List.length_append, Nat.add_assoc]
        · rwa [isEmpty_append] at hv
        · rwa [isEmpty_append, List.isEmpty_eq_false_iff.mpr taken, Bool.and_false] at hw
      · obtain ⟨rfl, -⟩ := Prod.mk.inj (List.mem_singleton.mp stop)
        exact ⟨[], rest, rfl, rfl, .done⟩
    · rintro ⟨word, post, rfl, rfl, h⟩
      simp only [repeated, List.mem_append, List.mem_flatMap]
      rcases accepts_star_iff.mp h with rfl | ⟨v, w, rfl, taken, hv, hw⟩
      · exact ⟨caps, Or.inr (List.mem_singleton.mpr rfl)⟩
      · rw [← isEmpty_append] at hv
        obtain ⟨between, hb⟩ := (body pre (v ++ w ++ post) (pre.length + v.length) caps).mpr
          ⟨v, w ++ post, List.append_assoc _ _ _, rfl, hv⟩
        have moved : pre.length + v.length ≠ pre.length := by simpa using taken
        have shorter : (w ++ post).length < fuel := by
          have := List.length_pos_iff.mpr taken
          simp only [List.length_append] at bound ⊢
          omega
        obtain ⟨found, hf⟩ := (ih (pre ++ v) (w ++ post) _ between shorter).mpr
          ⟨w, post, rfl, rfl, by
            rwa [isEmpty_append, List.isEmpty_eq_false_iff.mpr taken, Bool.and_false]⟩
        refine ⟨found, Or.inl ⟨_, hb, ?_⟩⟩
        simp only [moved, if_false]
        simpa [Nat.add_assoc] using hf

theorem recognizes_star (body : Recognizes r) : Recognizes (star r) := by
  intro pre rest next caps
  rw [run]
  exact mem_repeated_iff body _ pre rest next caps (by rw [List.length_append]; omega)

theorem recognizes (regular : r.Regular) : Recognizes r := by
  induction r with
  | empty => exact recognizes_empty
  | char c => exact recognizes_char c
  | any => exact recognizes_any
  | set negated ranges => exact recognizes_set negated ranges
  | bol => exact recognizes_bol
  | eol => exact recognizes_eol
  | wordBoundary negated => exact regular.elim
  | backReference index => exact regular.elim
  | seq r s ihr ihs => exact recognizes_seq (ihr regular.1) (ihs regular.2)
  | alt r s ihr ihs => exact recognizes_alt (ihr regular.1) (ihs regular.2)
  | star r ih => exact recognizes_star (ih regular)
  | group index r ih => exact recognizes_group index (ih regular)

/-- A whole match is a word of the language. -/
theorem regexMatch_isSome_iff (regular : r.Regular) (subject : List UInt8) :
    (regexMatch r subject).isSome ↔ Accepts r true subject true := by
  have whole := recognizes regular [] subject subject.length []
  simp only [List.nil_append, List.length_nil, Nat.zero_add, List.isEmpty_nil] at whole
  rw [regexMatch, Option.isSome_map, List.find?_isSome]
  constructor
  · rintro ⟨⟨next, found⟩, h, atEnd⟩
    obtain rfl : next = subject.length := by simpa using atEnd
    obtain ⟨word, post, e, hlen, accepted⟩ := whole.mp ⟨found, h⟩
    obtain rfl : post = [] := by
      rw [e, List.length_append] at hlen
      exact List.eq_nil_of_length_eq_zero (by omega)
    rw [List.append_nil] at e
    rwa [e]
  · intro accepted
    obtain ⟨found, h⟩ := whole.mpr ⟨subject, [], (List.append_nil _).symm, rfl, accepted⟩
    exact ⟨_, h, by simp⟩

/-! ## Short matches -/

/-- The most characters that a match needs when it skips every repetition. -/
@[simp] def width : EcmaScript → ℕ
  | empty => 0
  | char _ => 1
  | any => 1
  | set _ _ => 1
  | bol => 0
  | eol => 0
  | wordBoundary _ => 0
  | backReference _ => 0
  | seq r s => r.width + s.width
  | alt r s => max r.width s.width
  | star _ => 0
  | group _ r => r.width

/-- `^` and `$` accept wherever they accepted before when the word moves to the start or the end. -/
theorem Accepts.mono (h : Accepts r atStart word atEnd) {atStart' atEnd' : Bool}
    (start : atStart = true → atStart' = true) (finish : atEnd = true → atEnd' = true) :
    Accepts r atStart' word atEnd' := by
  induction h generalizing atStart' atEnd' with
  | empty => exact .empty
  | char => exact .char
  | any lf cr => exact .any lf cr
  | set inside => exact .set inside
  | bol =>
    rw [start rfl]
    exact .bol
  | eol =>
    rw [finish rfl]
    exact .eol
  | seq first second ihFirst ihSecond =>
    refine .seq (ihFirst start ?_) (ihSecond ?_ finish)
    · simpa using fun h e => ⟨h, finish e⟩
    · simpa using fun s h => ⟨start s, h⟩
  | left h ih => exact .left (ih start finish)
  | right h ih => exact .right (ih start finish)
  | done => exact .done
  | round taken first rest ihFirst ihRest =>
    refine .round taken (ihFirst start ?_) (ihRest id finish)
    simpa using fun h e => ⟨h, finish e⟩
  | group h ih => exact .group (ih start finish)

/-- By induction on the match: a repetition is left out, and leaving characters out moves what is
around them towards the start and the end. -/
theorem Accepts.shrink (h : Accepts r atStart word atEnd) :
    ∃ short, short.Sublist word ∧ short.length ≤ r.width ∧ Accepts r atStart short atEnd := by
  induction h with
  | empty => exact ⟨[], List.Sublist.slnil, Nat.le_refl _, .empty⟩
  | @char c => exact ⟨[c], List.Sublist.refl _, Nat.le_refl _, .char⟩
  | @any c atStart atEnd lf cr => exact ⟨[c], List.Sublist.refl _, Nat.le_refl _, .any lf cr⟩
  | @set negated ranges c atStart atEnd inside =>
    exact ⟨[c], List.Sublist.refl _, Nat.le_refl _, .set inside⟩
  | bol => exact ⟨[], List.Sublist.slnil, Nat.le_refl _, .bol⟩
  | eol => exact ⟨[], List.Sublist.slnil, Nat.le_refl _, .eol⟩
  | seq first second ihFirst ihSecond =>
    obtain ⟨v, subV, lenV, hv⟩ := ihFirst
    obtain ⟨w, subW, lenW, hw⟩ := ihSecond
    refine ⟨v ++ w, subV.append subW, ?_, .seq (hv.mono id ?_) (hw.mono ?_ id)⟩
    · rw [List.length_append]
      exact Nat.add_le_add lenV lenW
    · simpa using fun h e => ⟨List.sublist_nil.mp (h ▸ subW), e⟩
    · simpa using fun s h => ⟨s, List.sublist_nil.mp (h ▸ subV)⟩
  | left h ih =>
    obtain ⟨short, sub, len, h⟩ := ih
    exact ⟨short, sub, Nat.le_trans len (Nat.le_max_left _ _), .left h⟩
  | right h ih =>
    obtain ⟨short, sub, len, h⟩ := ih
    exact ⟨short, sub, Nat.le_trans len (Nat.le_max_right _ _), .right h⟩
  | done => exact ⟨[], List.Sublist.slnil, Nat.le_refl _, .done⟩
  | round taken first rest ihFirst ihRest => exact ⟨[], List.nil_sublist _, Nat.zero_le _, .done⟩
  | group h ih =>
    obtain ⟨short, sub, len, h⟩ := ih
    exact ⟨short, sub, len, .group h⟩

end EcmaScript
