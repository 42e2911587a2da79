import Lightning.Lib.RegexBuild

/-!
# The captures of a match

A match runs forward inside the subject, and so do the groups in it (`run_sound`). What
`regexMatch` answers has therefore one entry for every group that the expression opens
(`compile_groups`), and every entry is a part of the subject (`regexMatch_inside`).
-/

namespace EcmaScript

/-- Every capture is a part of the subject. -/
def Inside (subject : List UInt8) (caps : Captures) : Prop :=
  ∀ c ∈ caps, c.2.1 ≤ c.2.2 ∧ c.2.2 ≤ subject.length

/-- What is found from a position inside the subject ends behind it, inside the subject. -/
def Sound (subject : List UInt8) (find : ℕ → Captures → List (ℕ × Captures)) : Prop :=
  ∀ pos caps, pos ≤ subject.length → Inside subject caps →
    ∀ m ∈ find pos caps, pos ≤ m.1 ∧ m.1 ≤ subject.length ∧ Inside subject m.2

variable {subject : List UInt8} {r : EcmaScript}

/-- What does not move and captures nothing. -/
theorem sound_stay {find : ℕ → Captures → List (ℕ × Captures)}
    (stays : ∀ pos caps, ∀ m ∈ find pos caps, m = (pos, caps)) : Sound subject find := by
  intro pos caps inside caught m found
  obtain rfl := stays pos caps m found
  exact ⟨Nat.le_refl _, inside, caught⟩

/-- What takes one character of the subject and captures nothing. -/
theorem sound_character {find : ℕ → Captures → List (ℕ × Captures)}
    (takes : ∀ pos caps, ∀ m ∈ find pos caps, m = (pos + 1, caps) ∧ subject[pos]? ≠ none) :
    Sound subject find := by
  intro pos caps inside caught m found
  obtain ⟨rfl, there⟩ := takes pos caps m found
  have before : pos < subject.length := by
    by_contra behind
    exact there (List.getElem?_eq_none (Nat.not_lt.mp behind))
  exact ⟨Nat.le_succ pos, before, caught⟩

theorem sound_repeated {round : ℕ → Captures → List (ℕ × Captures)} (sound : Sound subject round)
    (fuel : ℕ) : Sound subject (repeated round fuel) := by
  induction fuel with
  | zero =>
    intro pos caps inside caught m found
    obtain rfl := List.mem_singleton.mp found
    exact ⟨Nat.le_refl _, inside, caught⟩
  | succ fuel ih =>
    intro pos caps inside caught m found
    rw [repeated, List.mem_append, List.mem_flatMap] at found
    rcases found with ⟨⟨next, between⟩, first, later⟩ | stop
    · obtain ⟨forward, inside', caught'⟩ := sound pos caps inside caught _ first
      dsimp only at later
      split_ifs at later
      · exact absurd later List.not_mem_nil
      · obtain ⟨forward', rest⟩ := ih next between inside' caught' m later
        exact ⟨forward.trans forward', rest⟩
    · obtain rfl := List.mem_singleton.mp stop
      exact ⟨Nat.le_refl _, inside, caught⟩

theorem run_sound (r : EcmaScript) : Sound subject (run subject r) := by
  induction r with
  | empty => exact sound_stay fun pos caps m found => List.mem_singleton.mp found
  | char c =>
    apply sound_character
    intro pos caps m found
    rw [run] at found
    split_ifs at found with there
    · exact ⟨List.mem_singleton.mp found, by rw [there]; exact Option.some_ne_none _⟩
    · exact absurd found List.not_mem_nil
  | any =>
    apply sound_character
    intro pos caps m found
    rw [run] at found
    cases there : subject[pos]? with
    | none => simp [there] at found
    | some c =>
      simp only [there] at found
      split_ifs at found
      · exact absurd found List.not_mem_nil
      · exact ⟨List.mem_singleton.mp found, Option.some_ne_none _⟩
  | set negated ranges =>
    apply sound_character
    intro pos caps m found
    rw [run] at found
    cases there : subject[pos]? with
    | none => simp [there] at found
    | some c =>
      simp only [there] at found
      split_ifs at found
      · exact absurd found List.not_mem_nil
      · exact ⟨List.mem_singleton.mp found, Option.some_ne_none _⟩
  | bol | eol | wordBoundary =>
    apply sound_stay
    intro pos caps m found
    rw [run] at found
    split_ifs at found <;> simp_all
  | backReference index =>
    intro pos caps inside caught m found
    simp only [run] at found
    split_ifs at found with there
    · obtain rfl := List.mem_singleton.mp found
      have len := there.length_le
      rw [List.length_drop] at len
      exact ⟨Nat.le_add_right _ _, by dsimp only; omega, caught⟩
    · exact absurd found List.not_mem_nil
  | seq r s ihr ihs =>
    intro pos caps inside caught m found
    obtain ⟨⟨mid, between⟩, first, second⟩ := List.mem_flatMap.mp found
    obtain ⟨forward, inside', caught'⟩ := ihr pos caps inside caught _ first
    obtain ⟨forward', rest⟩ := ihs mid between inside' caught' m second
    exact ⟨forward.trans forward', rest⟩
  | alt r s ihr ihs =>
    intro pos caps inside caught m found
    rcases List.mem_append.mp found with left | right
    · exact ihr pos caps inside caught m left
    · exact ihs pos caps inside caught m right
  | star r ih => exact sound_repeated ih _
  | group index r ih =>
    intro pos caps inside caught m found
    obtain ⟨⟨next, between⟩, body, rfl⟩ := List.mem_map.mp found
    obtain ⟨forward, inside', caught'⟩ := ih pos caps inside caught _ body
    exact ⟨forward, inside', List.forall_mem_cons.mpr ⟨⟨forward, inside'⟩, caught'⟩⟩

/-- Every group is a part of the subject, also one that took no part in the match. -/
theorem regexMatch_inside {captures : List (ℕ × ℕ)} (h : regexMatch r subject = some captures) :
    ∀ capture ∈ captures, capture.1 ≤ capture.2 ∧ capture.2 ≤ subject.length := by
  obtain ⟨⟨next, caps⟩, found, rfl⟩ := Option.map_eq_some_iff.mp h
  obtain ⟨-, -, caught⟩ := run_sound r 0 [] (Nat.zero_le _)
    (fun c h => absurd h List.not_mem_nil) _ (List.mem_of_find?_eq_some found)
  intro capture member
  obtain ⟨i, -, rfl⟩ := List.mem_map.mp member
  cases entry : caps.find? fun capture => capture.1 = i + 1 with
  | none => exact ⟨Nat.le_refl _, Nat.le_refl _⟩
  | some c => exact caught c (List.mem_of_find?_eq_some entry)

theorem regexMatch_length {captures : List (ℕ × ℕ)} (h : regexMatch r subject = some captures) :
    captures.length = r.groups := by
  obtain ⟨result, -, rfl⟩ := Option.map_eq_some_iff.mp h
  rw [List.length_map, List.length_range]

/-! ## The number of groups -/

/-- The largest number of a group in a list of expressions. -/
def mostGroups (items : List EcmaScript) : ℕ := (items.map groups).foldr max 0

@[simp] theorem mostGroups_cons (r : EcmaScript) (items : List EcmaScript) :
    mostGroups (r :: items) = max r.groups (mostGroups items) := rfl

/-- The largest number of a group in an open group, with its own. -/
def Frame.groups (f : Frame) : ℕ := max f.index (max (mostGroups f.alternatives) (mostGroups f.items))

theorem foldl_groups {combine : EcmaScript → EcmaScript → EcmaScript}
    (combines : ∀ r s, (combine r s).groups = max r.groups s.groups) (items : List EcmaScript)
    (last : EcmaScript) :
    (items.foldl (fun rest r => combine r rest) last).groups =
      max (mostGroups items) last.groups := by
  induction items generalizing last with
  | nil => exact (Nat.zero_max _).symm
  | cons r items ih =>
    rw [List.foldl_cons, ih, combines, mostGroups_cons]
    omega

theorem sequence_groups (items : List EcmaScript) : (sequence items).groups = mostGroups items := by
  rw [sequence, @foldl_groups seq fun r s => rfl]
  exact Nat.max_zero _

theorem Frame.close_groups (f : Frame) :
    f.close.groups = max (mostGroups f.alternatives) (mostGroups f.items) := by
  rw [Frame.close, @foldl_groups alt fun r s => rfl, sequence_groups]

theorem times_groups (r rest : EcmaScript) (n : ℕ) :
    (times r n rest).groups = if n = 0 then rest.groups else max r.groups rest.groups := by
  induction n with
  | zero => rfl
  | succ n ih =>
    rw [times, groups, ih, if_neg (Nat.succ_ne_zero n)]
    split_ifs <;> omega

theorem upTo_groups (r : EcmaScript) (n : ℕ) :
    (upTo r n).groups = if n = 0 then 0 else r.groups := by
  induction n with
  | zero => rfl
  | succ n ih =>
    have within : (upTo r n).groups ≤ r.groups := by
      rw [ih]
      split_ifs
      · exact Nat.zero_le _
      · exact Nat.le_refl _
    simp only [upTo, groups, if_neg (Nat.succ_ne_zero n)]
    omega

/-- A quantifier loses no group. -/
theorem repetition_groups (r : EcmaScript) (least : ℕ) (most : Option ℕ) :
    (repetition least most r).groups = r.groups := by
  rw [repetition]
  split_ifs with never
  · exact Nat.zero_max _
  · rw [times_groups]
    cases most with
    | none => simp [groups]
    | some most =>
      have some : most ≠ 0 := fun zero => never (by rw [zero])
      rw [Option.elim_some, upTo_groups]
      split_ifs <;> omega

/-- The token builds no group by itself. -/
def Token.Leaf : Token → Prop
  | atom r => r.groups = 0
  | assertion r => r.groups = 0
  | _ => True

theorem readToken_leaf {s : Symbol} {rest : List Symbol} {t : Token} {further : ℕ}
    (h : readToken s rest = some (t, further)) : t.Leaf := by
  cases s with
  | escaped c =>
    obtain ⟨negated, rfl, -⟩ | ⟨index, rfl, -⟩ | ⟨ranges, rfl⟩ | ⟨d, rfl⟩ := readEscape_cases h
    all_goals rfl
  | bare c =>
    simp only [readToken] at h
    split at h
    case h_8 =>
      obtain ⟨negated, ranges, rfl⟩ := readClass_cases h
      rfl
    case h_11 =>
      obtain ⟨least, most, rfl⟩ := readBraces_cases h
      trivial
    all_goals cases h
    all_goals first | rfl | trivial

theorem Frame.push_groups (r : EcmaScript) (ready : Bool) (f : Frame) :
    (f.push r ready).groups = max r.groups f.groups := by
  simp only [Frame.groups, Frame.push, mostGroups_cons]
  omega

theorem Frame.bar_groups (f : Frame) : f.bar.groups = f.groups := by
  simp only [Frame.groups, Frame.bar, mostGroups_cons, sequence_groups]
  simp only [mostGroups, List.map_nil, List.foldr_nil]
  omega

theorem Frame.quantify_groups {f g : Frame} {least : ℕ} {most : Option ℕ}
    (h : f.quantify least most = some g) : g.groups = f.groups ∧ g.index = f.index := by
  obtain ⟨r, items, e, rfl⟩ := Frame.quantify_eq_some h
  simp only [Frame.groups, e, mostGroups_cons, repetition_groups, and_self]

/-- By induction on the tokens: the groups opened so far are those of the open groups, and the
outermost of these has no number. -/
theorem build_groups {read : List Token} {f : Frame} {outer : List Frame} {n : ℕ} {r : EcmaScript}
    (h : build read f outer n = some r) (leaf : ∀ t ∈ read, t.Leaf)
    (opened : ((f :: outer).map Frame.groups).foldr max 0 = n)
    (outermost : ((f :: outer).map Frame.index).getLast? = some 0) :
    r.groups = n + read.count .opening := by
  induction read generalizing f outer n with
  | nil =>
    cases outer with
    | nil =>
      rw [build, Option.some.injEq] at h
      have unnumbered : f.index = 0 := by simpa using outermost
      rw [← h, ← opened, Frame.close_groups]
      simp [Frame.groups, unnumbered]
    | cons parent outer => simp [build] at h
  | cons t rest ih =>
    obtain ⟨ht, later⟩ := List.forall_mem_cons.mp leaf
    rw [List.map_cons, List.foldr_cons] at opened
    cases t with
    | atom s | assertion s =>
      have none : s.groups = 0 := ht
      rw [List.count_cons_of_ne (by simp)]
      refine ih h later ?_ outermost
      rw [List.map_cons, List.foldr_cons, Frame.push_groups, none, Nat.zero_max, opened]
    | opening =>
      rw [List.count_cons_self, Nat.add_comm (rest.count _), ← Nat.add_assoc]
      refine ih h later ?_ ?_
      · rw [List.map_cons, List.foldr_cons, List.map_cons, List.foldr_cons, opened]
        simp [Frame.groups, mostGroups]
      · rw [List.map_cons, List.map_cons, List.getLast?_cons_cons]
        exact outermost
    | closing =>
      cases outer with
      | nil => simp [build] at h
      | cons parent outer =>
        rw [List.count_cons_of_ne (by simp)]
        refine ih h later ?_ ?_
        · have body : (group f.index f.close).groups = f.groups := by
            rw [groups, Frame.close_groups, Frame.groups]
          rw [List.map_cons, List.foldr_cons, Frame.push_groups, body, ← opened, List.map_cons,
            List.foldr_cons, Nat.max_assoc]
        · rw [List.map_cons, List.map_cons, List.getLast?_cons_cons] at outermost
          exact outermost
    | bar =>
      rw [List.count_cons_of_ne (by simp)]
      refine ih h later ?_ outermost
      rw [List.map_cons, List.foldr_cons, Frame.bar_groups, opened]
    | quantifier least most =>
      rw [List.count_cons_of_ne (by simp)]
      obtain ⟨g, quantified, h⟩ := Option.bind_eq_some_iff.mp h
      obtain ⟨sameGroups, sameIndex⟩ := Frame.quantify_groups quantified
      refine ih h later ?_ ?_
      · rw [List.map_cons, List.foldr_cons, sameGroups, opened]
      · rw [List.map_cons, sameIndex]
        exact outermost

/-- An expression has a group for every parenthesis that opens one. -/
theorem compile_groups {expression : List UInt8} (h : compile expression = some r) :
    ∃ read, (symbols expression).bind (tokens · 0) = some read ∧
      r.groups = read.count .opening := by
  obtain ⟨read, hread, h⟩ := Option.bind_eq_some_iff.mp h
  split_ifs at h with within
  obtain ⟨ss, hss, htokens⟩ := Option.bind_eq_some_iff.mp hread
  refine ⟨read, hread, ?_⟩
  rw [build_groups h (tokens_forall htokens fun s _ rest t further => readToken_leaf) rfl rfl,
    Nat.zero_add]

end EcmaScript
