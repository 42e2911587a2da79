import Mathlib.Algebra.Ring.Nat
import Mathlib.Data.List.TakeWhile
import Lightning.Lib.RegexSyntax

/-!
# What the compiler builds

Symbols that are read on their own become a row of characters (`build_row`), whose language is read
off (`accepts_row_append`). For any other expression `build_regular` and `build_width` bound what
comes out by the tokens that go in, and `countP_isAtom_le` bounds the tokens by the symbols.
-/

namespace EcmaScript

attribute [local simp] build Frame.push Frame.bar Frame.quantify times upTo

/-! ## Rows of characters -/

/-- A row of atoms becomes the next items of the innermost group. -/
theorem build_row (row : List EcmaScript) (rest : List Token) (f : Frame) (outer : List Frame)
    (n : ℕ) :
    build (row.map Token.atom ++ rest) f outer n =
      build rest ⟨f.index, f.alternatives, row.reverse ++ f.items, f.ready || !row.isEmpty⟩ outer
        n := by
  induction row generalizing f with
  | nil => simp
  | cons r row ih =>
    rw [List.map_cons, List.cons_append, build, ih]
    simp

theorem sequence_eq_foldr (items : List EcmaScript) :
    sequence items = items.reverse.foldr seq empty := by
  rw [List.foldr_reverse]
  rfl

/-- Whether an item of a row takes the character. -/
def takes (r : EcmaScript) (c : UInt8) : Prop := r = char c ∨ r = any ∧ c ≠ 10 ∧ c ≠ 13

@[simp] theorem takes_char_iff {c d : UInt8} : (char d).takes c ↔ c = d := by
  simp [takes, eq_comm]

@[simp] theorem takes_any_iff {c : UInt8} : any.takes c ↔ c ≠ 10 ∧ c ≠ 13 := by
  simp [takes]

theorem forall₂_takes_char {l w : List UInt8} :
    List.Forall₂ takes (l.map char) w ↔ w = l := by
  induction l generalizing w with
  | nil => simp
  | cons c l ih =>
    rw [List.map_cons, List.forall₂_cons_left_iff]
    simp [ih]

theorem accepts_of_single {s : Symbol} {r : EcmaScript} (h : s.single = some r)
    {atStart atEnd : Bool} {word : List UInt8} :
    Accepts r atStart word atEnd ↔ ∃ c, word = [c] ∧ r.takes c := by
  rw [Symbol.single] at h
  split_ifs at h with dot
  · rw [← Option.some.inj h, accepts_any_iff]
    simp
  · obtain ⟨d, -, rfl⟩ := Option.map_eq_some_iff.mp h
    simp [takes]

/-- A row takes one character after the other, and the rest of the sequence what is left. -/
theorem accepts_row_append {ss : List Symbol} {row : List EcmaScript}
    (h : ss.map Symbol.single = row.map some) (items : List EcmaScript) {atStart atEnd : Bool}
    {word : List UInt8} :
    Accepts ((row ++ items).foldr seq empty) atStart word atEnd ↔
      ∃ v w, word = v ++ w ∧ List.Forall₂ takes row v ∧
        Accepts (items.foldr seq empty) (atStart && v.isEmpty) w atEnd := by
  induction ss generalizing row atStart word with
  | nil =>
    obtain rfl : row = [] := by simpa using h.symm
    simp
  | cons s ss ih =>
    cases row with
    | nil => simp at h
    | cons r row =>
      rw [List.map_cons, List.map_cons, List.cons.injEq] at h
      rw [List.cons_append, List.foldr_cons, accepts_seq_iff]
      constructor
      · rintro ⟨front, back, rfl, first, second⟩
        obtain ⟨c, rfl, hc⟩ := (accepts_of_single h.1).mp first
        obtain ⟨v, w, rfl, hv, hw⟩ := (ih h.2).mp second
        refine ⟨c :: v, w, rfl, .cons hc hv, ?_⟩
        simpa using hw
      · rintro ⟨v, w, rfl, hv, hw⟩
        cases hv with
        | @cons _ c _ v hc hv =>
          refine ⟨[c], v ++ w, rfl, (accepts_of_single h.1).mpr ⟨c, rfl, hc⟩, ?_⟩
          exact (ih h.2).mpr ⟨v, w, rfl, hv, by simpa using hw⟩

/-! ## The size of what the compiler builds -/

/-- Word boundaries and back references come from tokens of their own. -/
@[simp] def Token.Regular : Token → Prop
  | atom r => r.Regular
  | assertion r => r.Regular
  | _ => True

/-- The token adds at most one character to what a match needs, and only an atom adds one. -/
@[simp] def Token.Short : Token → Prop
  | atom r => r.width ≤ 1
  | assertion r => r.width = 0
  | quantifier least most => least ≤ 1 ∧ most.getD least ≤ 1
  | _ => True

@[simp] def Token.isAtom : Token → Bool
  | atom _ => true
  | _ => false

def Frame.Regular (f : Frame) : Prop :=
  (∀ r ∈ f.alternatives, r.Regular) ∧ ∀ r ∈ f.items, r.Regular

def Frame.width (f : Frame) : ℕ :=
  (f.alternatives.map EcmaScript.width).sum + (f.items.map EcmaScript.width).sum

theorem times_regular {r rest : EcmaScript} (hr : r.Regular) (hrest : rest.Regular) (n : ℕ) :
    (times r n rest).Regular := by
  induction n with
  | zero => exact hrest
  | succ n ih => exact ⟨hr, ih⟩

theorem upTo_regular {r : EcmaScript} (hr : r.Regular) (n : ℕ) : (upTo r n).Regular := by
  induction n with
  | zero => trivial
  | succ n ih => exact ⟨⟨hr, ih⟩, trivial⟩

theorem repetition_regular {r : EcmaScript} (hr : r.Regular) (least : ℕ) (most : Option ℕ) :
    (repetition least most r).Regular := by
  rw [repetition]
  split_ifs
  · exact ⟨trivial, hr⟩
  · apply times_regular hr
    cases most with
    | none => exact hr
    | some most => exact upTo_regular hr _

theorem times_width (r rest : EcmaScript) (n : ℕ) :
    (times r n rest).width = n * r.width + rest.width := by
  induction n with
  | zero => simp
  | succ n ih =>
    rw [times, width, ih, Nat.succ_mul]
    omega

theorem upTo_width (r : EcmaScript) (n : ℕ) : (upTo r n).width = n * r.width := by
  induction n with
  | zero => simp
  | succ n ih =>
    rw [upTo, width, width, width, ih, Nat.succ_mul]
    omega

theorem repetition_width {least : ℕ} {most : Option ℕ} (r : EcmaScript) (hl : least ≤ 1)
    (hm : most.getD least ≤ 1) : (repetition least most r).width ≤ r.width := by
  have once {n : ℕ} (h : n ≤ 1) : n * r.width ≤ r.width := by
    simpa using Nat.mul_le_mul_right r.width h
  rw [repetition]
  split_ifs
  · exact Nat.zero_le _
  · rw [times_width]
    cases most with
    | none => exact once hl
    | some most =>
      rw [Option.elim_some, upTo_width, ← Nat.add_mul]
      apply once
      rw [Option.getD_some] at hm
      omega

theorem foldr_regular {combine : EcmaScript → EcmaScript → EcmaScript}
    (combines : ∀ r s, r.Regular → s.Regular → (combine r s).Regular) {items : List EcmaScript}
    {last : EcmaScript} (h : ∀ r ∈ items, r.Regular) (hlast : last.Regular) :
    (items.foldr combine last).Regular := by
  induction items with
  | nil => exact hlast
  | cons r items ih =>
    exact combines _ _ (h r List.mem_cons_self)
      (ih fun s hs => h s (List.mem_cons_of_mem _ hs))

theorem foldr_width {combine : EcmaScript → EcmaScript → EcmaScript}
    (combines : ∀ r s, (combine r s).width ≤ r.width + s.width) (items : List EcmaScript)
    (last : EcmaScript) :
    (items.foldr combine last).width ≤ (items.map EcmaScript.width).sum + last.width := by
  induction items with
  | nil => simp
  | cons r items ih =>
    rw [List.foldr_cons, List.map_cons, List.sum_cons]
    have := combines r (items.foldr combine last)
    omega

theorem foldr_seq_regular {items : List EcmaScript} (h : ∀ r ∈ items, r.Regular) :
    (items.foldr seq empty).Regular :=
  foldr_regular (fun r s hr hs => show (seq r s).Regular from ⟨hr, hs⟩) h
    (show empty.Regular from trivial)

theorem sequence_regular {items : List EcmaScript} (h : ∀ r ∈ items, r.Regular) :
    (sequence items).Regular := by
  rw [sequence_eq_foldr]
  exact foldr_seq_regular (by simpa using h)

theorem sequence_width (items : List EcmaScript) :
    (sequence items).width ≤ (items.map EcmaScript.width).sum := by
  rw [sequence_eq_foldr]
  have := foldr_width (fun r s => Nat.le_refl (seq r s).width) items.reverse empty
  rwa [List.map_reverse, List.sum_reverse, show empty.width = 0 from rfl, Nat.add_zero] at this

theorem Frame.close_eq_foldr (f : Frame) :
    f.close = f.alternatives.reverse.foldr alt (sequence f.items) := by
  rw [Frame.close, List.foldr_reverse]

theorem Frame.Regular.close {f : Frame} (h : f.Regular) : f.close.Regular := by
  rw [Frame.close_eq_foldr]
  exact foldr_regular (fun r s hr hs => show (alt r s).Regular from ⟨hr, hs⟩) (by simpa using h.1)
    (sequence_regular h.2)

theorem Frame.close_width (f : Frame) : f.close.width ≤ f.width := by
  have wider (r s : EcmaScript) : (alt r s).width ≤ r.width + s.width := by
    rw [EcmaScript.width]
    omega
  have ends := foldr_width wider f.alternatives.reverse (sequence f.items)
  have := sequence_width f.items
  rw [List.map_reverse, List.sum_reverse] at ends
  rw [Frame.close_eq_foldr, Frame.width]
  omega

theorem Frame.quantify_eq_some {f g : Frame} {least : ℕ} {most : Option ℕ}
    (h : f.quantify least most = some g) :
    ∃ r items, f.items = r :: items ∧
      g = ⟨f.index, f.alternatives, repetition least most r :: items, false⟩ := by
  cases items : f.items with
  | nil => simp [items] at h
  | cons r items' =>
    simp only [Frame.quantify, items, Option.ite_none_right_eq_some, Option.some.injEq] at h
    exact ⟨r, items', rfl, h.2.symm⟩

theorem build_regular {read : List Token} {f : Frame} {outer : List Frame} {n : ℕ} {r : EcmaScript}
    (h : build read f outer n = some r) (hread : ∀ t ∈ read, t.Regular) (hf : f.Regular)
    (houter : ∀ g ∈ outer, g.Regular) : r.Regular := by
  induction read generalizing f outer n with
  | nil =>
    cases outer with
    | nil =>
      rw [build, Option.some.injEq] at h
      rw [← h]
      exact hf.close
    | cons parent outer => simp at h
  | cons t rest ih =>
    obtain ⟨ht, hrest⟩ := List.forall_mem_cons.mp hread
    cases t with
    | atom r => exact ih h hrest ⟨hf.1, List.forall_mem_cons.mpr ⟨ht, hf.2⟩⟩ houter
    | assertion r => exact ih h hrest ⟨hf.1, List.forall_mem_cons.mpr ⟨ht, hf.2⟩⟩ houter
    | opening => exact ih h hrest ⟨by simp, by simp⟩ (List.forall_mem_cons.mpr ⟨hf, houter⟩)
    | closing =>
      cases outer with
      | nil => simp at h
      | cons parent outer =>
        obtain ⟨hparent, houter⟩ := List.forall_mem_cons.mp houter
        exact ih h hrest ⟨hparent.1, List.forall_mem_cons.mpr ⟨hf.close, hparent.2⟩⟩ houter
    | bar =>
      exact ih h hrest
        ⟨List.forall_mem_cons.mpr ⟨sequence_regular hf.2, hf.1⟩, by simp⟩ houter
    | quantifier least most =>
      rw [build] at h
      obtain ⟨g, hg, h⟩ := Option.bind_eq_some_iff.mp h
      obtain ⟨s, items, e, rfl⟩ := Frame.quantify_eq_some hg
      obtain ⟨hs, hitems⟩ := List.forall_mem_cons.mp (e ▸ hf.2)
      exact ih h hrest
        ⟨hf.1, List.forall_mem_cons.mpr ⟨repetition_regular hs least most, hitems⟩⟩ houter

/-- What a match of the result needs comes from the open groups and from the atoms. -/
theorem build_width {read : List Token} {f : Frame} {outer : List Frame} {n : ℕ} {r : EcmaScript}
    (h : build read f outer n = some r) (hread : ∀ t ∈ read, t.Short) :
    r.width ≤ f.width + (outer.map Frame.width).sum + read.countP Token.isAtom := by
  induction read generalizing f outer n with
  | nil =>
    cases outer with
    | nil =>
      rw [build, Option.some.injEq] at h
      rw [← h]
      simpa using f.close_width
    | cons parent outer => simp at h
  | cons t rest ih =>
    obtain ⟨ht, hrest⟩ := List.forall_mem_cons.mp hread
    rw [List.countP_cons]
    cases t with
    | atom s =>
      have bound := ih h hrest
      have one : s.width ≤ 1 := ht
      simp only [Frame.width, Frame.push, List.map_cons, List.sum_cons] at bound ⊢
      simp only [Token.isAtom, if_true]
      omega
    | assertion s =>
      have bound := ih h hrest
      have none : s.width = 0 := ht
      simp only [Frame.width, Frame.push, List.map_cons, List.sum_cons] at bound ⊢
      omega
    | opening =>
      have bound := ih h hrest
      simp only [Frame.width, List.map_cons, List.map_nil, List.sum_cons, List.sum_nil] at bound ⊢
      omega
    | closing =>
      cases outer with
      | nil => simp at h
      | cons parent outer =>
        have bound := ih h hrest
        have inner := f.close_width
        simp only [Frame.width, Frame.push, List.map_cons, List.sum_cons, EcmaScript.width]
          at bound inner ⊢
        omega
    | bar =>
      have bound := ih h hrest
      have row := sequence_width f.items
      simp only [Frame.width, Frame.bar, List.map_cons, List.map_nil, List.sum_cons, List.sum_nil]
        at bound ⊢
      omega
    | quantifier least most =>
      rw [build] at h
      obtain ⟨g, hg, h⟩ := Option.bind_eq_some_iff.mp h
      obtain ⟨s, items, e, rfl⟩ := Frame.quantify_eq_some hg
      have bound := ih h hrest
      have shorter := repetition_width s ht.1 ht.2
      simp only [Frame.width, e, List.map_cons, List.sum_cons] at bound ⊢
      omega

/-! ## The tokens of symbols -/

/-- The symbol begins neither a word boundary nor a back reference. -/
def Symbol.Regular : Symbol → Prop
  | bare _ => True
  | escaped c => c ≠ 98 ∧ c ≠ 66 ∧ (isDigit c → c = 48)

def Symbol.startsAtom : Symbol → Bool
  | bare c => c ∉ metacharacters || c == 46 || c == 91
  | escaped _ => true

/-- What the symbols of a token guarantee, whatever follows them. -/
theorem tokens_forall {p : Token → Prop} {ss : List Symbol} {skip : ℕ} {read : List Token}
    (h : tokens ss skip = some read)
    (each : ∀ s ∈ ss, ∀ rest t further, readToken s rest = some (t, further) → p t) :
    ∀ t ∈ read, p t := by
  induction ss generalizing skip read with
  | nil =>
    obtain rfl : [] = read := Option.some.inj h
    simp
  | cons s ss ih =>
    have later := fun s hs => each s (List.mem_cons_of_mem _ hs)
    cases skip with
    | succ skip => exact ih h later
    | zero =>
      obtain ⟨⟨t, further⟩, ht, h⟩ := Option.bind_eq_some_iff.mp h
      obtain ⟨rest, hrest, rfl⟩ := Option.map_eq_some_iff.mp h
      exact List.forall_mem_cons.mpr ⟨each s List.mem_cons_self _ t further ht, ih hrest later⟩

theorem countP_isAtom_le {ss : List Symbol} {skip : ℕ} {read : List Token}
    (h : tokens ss skip = some read)
    (each : ∀ s ∈ ss, ∀ rest t further, readToken s rest = some (t, further) →
      t.isAtom → s.startsAtom) :
    read.countP Token.isAtom ≤ ss.countP Symbol.startsAtom := by
  induction ss generalizing skip read with
  | nil =>
    obtain rfl : [] = read := Option.some.inj h
    simp
  | cons s ss ih =>
    have later := fun s hs => each s (List.mem_cons_of_mem _ hs)
    rw [List.countP_cons]
    cases skip with
    | succ skip =>
      have := ih h later
      omega
    | zero =>
      obtain ⟨⟨t, further⟩, ht, h⟩ := Option.bind_eq_some_iff.mp h
      obtain ⟨rest, hrest, rfl⟩ := Option.map_eq_some_iff.mp h
      have := ih hrest later
      rw [List.countP_cons]
      cases atom : t.isAtom with
      | false => simpa using this.trans (Nat.le_add_right _ _)
      | true =>
        rw [each s List.mem_cons_self _ t further ht atom]
        simpa using this

theorem readEscape_cases {c : UInt8} {rest : List Symbol} {t : Token} {further : ℕ}
    (h : readEscape c rest = some (t, further)) :
    (∃ negated, t = .assertion (wordBoundary negated) ∧ (c = 98 ∨ c = 66)) ∨
      (∃ index, t = .atom (backReference index) ∧ isDigit c ∧ c ≠ 48) ∨
      (∃ ranges, t = .atom (set false ranges)) ∨ ∃ d, t = .atom (char d) := by
  unfold readEscape at h
  split_ifs at h with b B digit
  · cases h
    exact Or.inl ⟨false, rfl, Or.inl b⟩
  · cases h
    exact Or.inl ⟨true, rfl, Or.inr B⟩
  · cases h
    exact Or.inr (Or.inl ⟨_, rfl, digit⟩)
  · split at h
    · cases h
      exact Or.inr (Or.inr (Or.inl ⟨_, rfl⟩))
    · obtain ⟨⟨d, n⟩, -, e⟩ := Option.map_eq_some_iff.mp h
      cases e
      exact Or.inr (Or.inr (Or.inr ⟨d, rfl⟩))

theorem readClass_of_notMem {rest : List Symbol} (h : .bare 93 ∉ rest) : readClass rest = none := by
  have whole (marks : ℕ) :
      (rest.drop marks).takeWhile (· ≠ .bare 93) = rest.drop marks := by
    rw [List.takeWhile_eq_self_iff]
    intro s hs
    have : s ≠ .bare 93 := by
      rintro rfl
      exact h (List.mem_of_mem_drop hs)
    simpa using this
  simp only [readClass, whole, List.length_drop]
  rw [if_pos]
  split_ifs with negated
  · cases rest with
    | nil => contradiction
    | cons s rest =>
      rw [List.length_cons]
      omega
  · omega

theorem readClass_cases {rest : List Symbol} {t : Token} {further : ℕ}
    (h : readClass rest = some (t, further)) : ∃ negated ranges, t = .atom (set negated ranges) := by
  simp only [readClass] at h
  obtain ⟨-, h⟩ := Option.ite_none_left_eq_some.mp h
  obtain ⟨ranges, -, e⟩ := Option.map_eq_some_iff.mp h
  cases e
  exact ⟨_, _, rfl⟩

theorem readBraces_cases {rest : List Symbol} {t : Token} {further : ℕ}
    (h : readBraces rest = some (t, further)) : ∃ least most, t = .quantifier least most := by
  simp only [readBraces] at h
  split_ifs at h
  split at h
  · cases h
    exact ⟨_, _, rfl⟩
  · split_ifs at h
    · cases h
      exact ⟨_, _, rfl⟩
    · cases h
      exact ⟨_, _, rfl⟩
  · contradiction

/-- What a bare character begins. A counted quantifier alone can ask for more than one round. -/
theorem readToken_bare_cases {c : UInt8} {rest : List Symbol} {t : Token} {further : ℕ}
    (h : readToken (.bare c) rest = some (t, further)) :
    (∃ r, t = .atom r ∧ r.Regular ∧ r.width ≤ 1 ∧ (Symbol.bare c).startsAtom) ∨
      (∃ r, t = .assertion r ∧ r.Regular ∧ r.width = 0) ∨
      (∃ least most, t = .quantifier least most ∧ (c ≠ 123 → t.Short)) ∨
      t = .opening ∨ t = .closing ∨ t = .bar := by
  simp only [readToken] at h
  split at h
  case h_8 =>
    obtain ⟨negated, ranges, rfl⟩ := readClass_cases h
    simp [Symbol.startsAtom]
  case h_11 =>
    obtain ⟨least, most, rfl⟩ := readBraces_cases h
    simp
  case h_14 =>
    cases h
    simp_all [Symbol.startsAtom, metacharacters]
  all_goals cases h <;> simp [Symbol.startsAtom]

theorem readToken_regular {s : Symbol} {rest : List Symbol} {t : Token} {further : ℕ}
    (h : readToken s rest = some (t, further)) (hs : s.Regular) : t.Regular := by
  cases s with
  | escaped c =>
    obtain ⟨negated, rfl, hc⟩ | ⟨index, rfl, hc⟩ | ⟨ranges, rfl⟩ | ⟨d, rfl⟩ := readEscape_cases h
    · exact absurd hc (not_or.mpr ⟨hs.1, hs.2.1⟩)
    · exact absurd (hs.2.2 hc.1) hc.2
    · trivial
    · trivial
  | bare c =>
    obtain ⟨r, rfl, hr, -⟩ | ⟨r, rfl, hr, -⟩ | ⟨least, most, rfl, -⟩ | rfl | rfl | rfl :=
      readToken_bare_cases h
    · exact hr
    · exact hr
    all_goals trivial

theorem readToken_short {s : Symbol} {rest : List Symbol} {t : Token} {further : ℕ}
    (h : readToken s rest = some (t, further)) (hs : s ≠ .bare 123) : t.Short := by
  cases s with
  | escaped c =>
    obtain ⟨negated, rfl, hc⟩ | ⟨index, rfl, hc⟩ | ⟨ranges, rfl⟩ | ⟨d, rfl⟩ := readEscape_cases h
    all_goals simp
  | bare c =>
    obtain ⟨r, rfl, -, hr, -⟩ | ⟨r, rfl, -, hr⟩ | ⟨least, most, rfl, short⟩ | rfl | rfl | rfl :=
      readToken_bare_cases h
    · exact hr
    · exact hr
    · exact short fun e => hs (by rw [e])
    all_goals trivial

theorem readToken_isAtom {s : Symbol} {rest : List Symbol} {t : Token} {further : ℕ}
    (h : readToken s rest = some (t, further)) (atom : t.isAtom) : s.startsAtom := by
  cases s with
  | escaped c => rfl
  | bare c =>
    obtain ⟨r, rfl, -, -, starts⟩ | ⟨r, rfl, -⟩ | ⟨least, most, rfl, -⟩ | rfl | rfl | rfl :=
      readToken_bare_cases h
    · exact starts
    all_goals contradiction

end EcmaScript
