import Lightning.Proof.UriParameters
import Lightning.Proof.WildcardRoutes

/-!
# The parameters of a wildcard route

The groups of a route lie one behind the other with the parts in between (`Laid`), so a part that is
not empty keeps the group before it from ending with the URI. Where only wildcards follow the first
one, it takes everything, since the matcher tries the longest match first. So the parameters of a
wildcard route are what its groups captured exactly when nothing else follows the first wildcard
(`parametersCaptured_wildcardRoute_iff`).
-/

namespace Lightning

open Search EcmaScript

namespace UriMapper

variable {l : Bytes} {ls : List Bytes} {subject : Bytes} {pos next n : ℕ} {caps found : Captures}

/-- The groups begin behind the parts in front of them, and the last part ends at `final`. -/
def Laid (final : ℕ) : ℕ → Bytes → List Bytes → List (ℕ × ℕ) → Prop
  | pos, l, [], spans => spans = [] ∧ pos + l.length = final
  | pos, l, next :: ls, spans => ∃ last rest, spans = (pos + l.length, last) :: rest ∧
      pos + l.length ≤ last ∧ Laid final last next ls rest

theorem Laid.length {final : ℕ} {spans : List (ℕ × ℕ)} (h : Laid final pos l ls spans) :
    spans.length = ls.length := by
  induction ls generalizing pos l spans with
  | nil =>
    rw [h.1]
    rfl
  | cons next ls ih =>
    obtain ⟨last, rest, rfl, -, later⟩ := h
    rw [List.length_cons, ih later, List.length_cons]

theorem Laid.le_final {final : ℕ} {spans : List (ℕ × ℕ)} (h : Laid final pos l ls spans) :
    pos + l.length ≤ final ∧ ∀ span ∈ spans, pos ≤ span.2 ∧ span.2 ≤ final := by
  induction ls generalizing pos l spans with
  | nil =>
    obtain ⟨rfl, ends⟩ := h
    exact ⟨Nat.le_of_eq ends, fun span member => absurd member List.not_mem_nil⟩
  | cons next ls ih =>
    obtain ⟨last, rest, rfl, forward, later⟩ := h
    obtain ⟨inside, spans⟩ := ih later
    refine ⟨by omega, List.forall_mem_cons.mpr ⟨⟨by dsimp only; omega, by dsimp only; omega⟩, ?_⟩⟩
    intro span member
    have := spans span member
    omega

/-- Behind a group that ends with the subject there is no other part. -/
theorem Laid.parts_eq_nil {final : ℕ} {spans : List (ℕ × ℕ)} (h : Laid final pos l ls spans)
    (ends : ∀ span ∈ spans, span.2 = final) : ∀ part ∈ ls, part = [] := by
  induction ls generalizing pos l spans with
  | nil => exact fun part member => absurd member List.not_mem_nil
  | cons next ls ih =>
    obtain ⟨last, rest, rfl, -, later⟩ := h
    obtain ⟨first, ends⟩ := List.forall_mem_cons.mp ends
    have inside := later.le_final.1
    dsimp only at first
    refine List.forall_mem_cons.mpr ⟨List.eq_nil_of_length_eq_zero (by omega), ih later ends⟩

/-- The captures of the groups behind the first `n`, newest first. -/
def numbered : ℕ → List (ℕ × ℕ) → Captures
  | _, [] => []
  | n, span :: spans => numbered (n + 1) spans ++ [(n + 1, span)]

theorem find?_numbered_eq_none {spans : List (ℕ × ℕ)} {index : ℕ} (small : index ≤ n) :
    (numbered n spans).find? (fun capture => capture.1 = index) = none := by
  induction spans generalizing n with
  | nil => rfl
  | cons span spans ih =>
    have other : ¬ n + 1 = index := by omega
    rw [numbered, List.find?_append, ih (by omega)]
    simp [other]

theorem find?_numbered (spans : List (ℕ × ℕ)) (i : ℕ) :
    ((numbered n spans).find? fun capture => capture.1 = n + 1 + i).map Prod.snd = spans[i]? := by
  induction spans generalizing n i with
  | nil => rfl
  | cons span spans ih =>
    rw [numbered, List.find?_append]
    cases i with
    | zero =>
      rw [Nat.add_zero, find?_numbered_eq_none (Nat.le_refl _)]
      simp
    | succ i =>
      have later := @ih (n + 1) i
      rw [show n + 1 + 1 + i = n + 1 + (i + 1) by omega] at later
      rw [List.getElem?_cons_succ, ← later]
      cases (numbered (n + 1) spans).find? fun capture => capture.1 = n + 1 + (i + 1) with
      | some capture => rfl
      | none => simp

/-- The characters of a part take just that part. -/
theorem run_chars (subject : Bytes) (last : EcmaScript) (l : Bytes) (pos : ℕ) (caps : Captures) :
    run subject ((l.map char).foldr seq last) pos caps =
      if l <+: subject.drop pos then run subject last (pos + l.length) caps else [] := by
  induction l generalizing pos with
  | nil => simp
  | cons c l ih =>
    have step : run subject (((c :: l).map char).foldr seq last) pos caps =
        if subject[pos]? = some c then
          run subject ((l.map char).foldr seq last) (pos + 1) caps else [] := by
      rw [List.map_cons, List.foldr_cons, run, run]
      split_ifs
      · exact List.flatMap_singleton _ _
      · rfl
    have front : c :: l <+: subject.drop pos ↔
        subject[pos]? = some c ∧ l <+: subject.drop (pos + 1) := by
      rcases Nat.lt_or_ge pos subject.length with inside | behind
      · rw [List.drop_eq_getElem_cons inside, List.cons_prefix_cons,
          List.getElem?_eq_getElem inside, Option.some.injEq, eq_comm]
      · rw [List.drop_of_length_le behind, List.getElem?_eq_none behind]
        simp
    rw [step, ih, List.length_cons, Nat.add_comm l.length, ← Nat.add_assoc]
    simp only [front]
    split_ifs <;> tauto

theorem mem_run_chars {last : EcmaScript} (inside : pos ≤ subject.length)
    (h : (next, found) ∈ run subject ((l.map char).foldr seq last) pos caps) :
    pos + l.length ≤ subject.length ∧ (next, found) ∈ run subject last (pos + l.length) caps := by
  rw [run_chars] at h
  split_ifs at h with front
  · have len := front.length_le
    rw [List.length_drop] at len
    exact ⟨by omega, h⟩
  · exact absurd h List.not_mem_nil

theorem mem_repeated_any {fuel : ℕ}
    (h : (next, found) ∈ repeated (run subject any) fuel pos caps) : found = caps := by
  induction fuel generalizing pos with
  | zero => exact (Prod.mk.inj (List.mem_singleton.mp h)).2
  | succ fuel ih =>
    rw [repeated, List.mem_append, List.mem_flatMap] at h
    rcases h with ⟨⟨mid, between⟩, first, later⟩ | stop
    · obtain rfl : between = caps := by
        rw [run] at first
        split at first
        · exact absurd first List.not_mem_nil
        · split_ifs at first
          · exact absurd first List.not_mem_nil
          · exact (Prod.mk.inj (List.mem_singleton.mp first)).2
      dsimp only at later
      split_ifs at later
      · exact absurd later List.not_mem_nil
      · exact ih later
    · exact (Prod.mk.inj (List.mem_singleton.mp stop)).2

/-- A wildcard tries a slash with as much as possible behind it, then the end of the subject. -/
theorem run_wildcardItem (subject : Bytes) (index pos : ℕ) (caps : Captures) :
    run subject (wildcardItem index) pos caps =
      ((if subject[pos]? = some 47 then
          repeated (run subject any) (subject.length + 1) (pos + 1) caps else []) ++
        if pos = subject.length then [(pos, caps)] else []).map
          fun (next, caps) => (next, (index, pos, next) :: caps) := by
  have alone (found : List (ℕ × Captures)) :
      (found.flatMap fun (next, caps) => [(next, caps)]) = found := List.flatMap_singleton' found
  simp only [wildcardItem, run, alone]
  split_ifs <;> simp

/-- The group of a wildcard captures what it takes. -/
theorem mem_run_wildcardItem {index : ℕ} (inside : pos ≤ subject.length)
    (caught : Inside subject caps)
    (h : (next, found) ∈ run subject (wildcardItem index) pos caps) :
    pos ≤ next ∧ next ≤ subject.length ∧ found = (index, pos, next) :: caps := by
  obtain ⟨forward, inside', -⟩ := run_sound _ pos caps inside caught _ h
  refine ⟨forward, inside', ?_⟩
  rw [run_wildcardItem] at h
  obtain ⟨⟨last, between⟩, body, e⟩ := List.mem_map.mp h
  cases e
  obtain rfl : between = caps := by
    rcases List.mem_append.mp body with slash | ends
    · split_ifs at slash
      · exact mem_repeated_any slash
      · exact absurd slash List.not_mem_nil
    · split_ifs at ends
      · exact (Prod.mk.inj (List.mem_singleton.mp ends)).2
      · exact absurd ends List.not_mem_nil
  rfl

/-- The groups of a match of the row, from a position in the subject. -/
theorem mem_run_routeItems (inside : pos ≤ subject.length) (caught : Inside subject caps)
    (h : (next, found) ∈ run subject ((routeItems l ls n).foldr seq empty) pos caps) :
    ∃ spans, Laid next pos l ls spans ∧ found = numbered n spans ++ caps := by
  induction ls generalizing l pos n caps with
  | nil =>
    rw [routeItems] at h
    obtain ⟨rfl, rfl⟩ := Prod.mk.inj (List.mem_singleton.mp (mem_run_chars inside h).2)
    exact ⟨[], ⟨rfl, rfl⟩, rfl⟩
  | cons part ls ih =>
    rw [routeItems, List.foldr_append, List.foldr_cons] at h
    obtain ⟨here, h⟩ := mem_run_chars inside h
    obtain ⟨⟨mid, between⟩, wildcard, rest⟩ := List.mem_flatMap.mp h
    obtain ⟨forward, inside', rfl⟩ := mem_run_wildcardItem here caught wildcard
    have caught' : Inside subject ((n + 1, pos + l.length, mid) :: caps) :=
      List.forall_mem_cons.mpr ⟨⟨forward, inside'⟩, caught⟩
    obtain ⟨spans, laid, rfl⟩ := ih inside' caught' rest
    exact ⟨(pos + l.length, mid) :: spans, ⟨mid, spans, rfl, forward, laid⟩,
      by rw [numbered, List.append_assoc]; rfl⟩

/-! ## The longest match first -/

/-- Without a line break, `.*` takes everything first. -/
theorem head?_repeated_any {fuel : ℕ} (noBreak : ∀ c ∈ subject, c ≠ 10 ∧ c ≠ 13)
    (inside : pos ≤ subject.length) (enough : subject.length - pos < fuel) :
    (repeated (run subject any) fuel pos caps).head? = some (subject.length, caps) := by
  induction fuel generalizing pos with
  | zero => omega
  | succ fuel ih =>
    rw [repeated]
    rcases Nat.lt_or_ge pos subject.length with before | behind
    · obtain ⟨lf, cr⟩ := noBreak _ (List.getElem_mem before)
      have taken : run subject any pos caps = [(pos + 1, caps)] := by
        simp [run, List.getElem?_eq_getElem before, lf, cr]
      rw [taken, List.flatMap_singleton]
      dsimp only
      rw [if_neg (Nat.succ_ne_self pos), List.head?_append, ih before (by omega)]
      rfl
    · obtain rfl : pos = subject.length := Nat.le_antisymm inside behind
      have nothing : run subject any subject.length caps = [] := by
        simp [run]
      rw [nothing]
      rfl

/-- At the end of the subject every further wildcard takes nothing. -/
theorem run_wildcards_ne_nil (empties : ∀ part ∈ ls, part = []) :
    run subject ((routeItems [] ls n).foldr seq empty) subject.length caps ≠ [] := by
  induction ls generalizing n caps with
  | nil => simp [routeItems, run]
  | cons part ls ih =>
    obtain ⟨rfl, later⟩ := List.forall_mem_cons.mp empties
    have first : run subject (wildcardItem (n + 1)) subject.length caps =
        [(subject.length, (n + 1, subject.length, subject.length) :: caps)] := by
      rw [run_wildcardItem, List.getElem?_eq_none (Nat.le_refl _)]
      simp
    rw [routeItems, List.map_nil, List.nil_append, List.foldr_cons, run, first,
      List.flatMap_singleton]
    exact ih later

/-- The first of several wildcards with nothing in between takes everything. -/
theorem first_wildcard_ends {last : ℕ} {spans : List (ℕ × ℕ)}
    (noBreak : ∀ c ∈ subject, c ≠ 10 ∧ c ≠ 13) (empties : ∀ part ∈ ls, part = [])
    (forward : pos ≤ last) (inside : last ≤ subject.length)
    (h : (run subject (seq (wildcardItem 1) ((routeItems [] ls 1).foldr seq empty)) pos []).find?
      (fun result => result.1 = subject.length) =
        some (next, numbered 0 ((pos, last) :: spans))) :
    last = subject.length := by
  rw [run, run_wildcardItem] at h
  by_cases slash : subject[pos]? = some 47
  · have before : pos < subject.length := by
      by_contra behind
      rw [List.getElem?_eq_none (Nat.not_lt.mp behind)] at slash
      cases slash
    have greedy := @head?_repeated_any subject (pos + 1) [] (subject.length + 1) noBreak before
      (by omega)
    obtain ⟨others, longest⟩ := List.head?_eq_some_iff.mp greedy
    obtain ⟨first, more, rest⟩ := List.exists_cons_of_ne_nil
      (@run_wildcards_ne_nil ls subject 1 [(1, pos, subject.length)] empties)
    have member : first ∈ run subject ((routeItems [] ls 1).foldr seq empty) subject.length
        [(1, pos, subject.length)] := by
      rw [rest]
      exact List.mem_cons_self
    have caught : Inside subject [(1, pos, subject.length)] := by
      rw [Inside, List.forall_mem_singleton]
      exact ⟨Nat.le_of_lt before, Nat.le_refl _⟩
    have atEnd : first.1 = subject.length :=
      Nat.le_antisymm (run_sound _ _ _ (Nat.le_refl _) caught _ member).2.1
        (run_sound _ _ _ (Nat.le_refl _) caught _ member).1
    rw [if_pos slash, longest, List.cons_append, List.map_cons, List.flatMap_cons] at h
    dsimp only at h
    rw [rest, List.cons_append, List.find?_cons_of_pos (by simpa using atEnd)] at h
    obtain ⟨later, -, captured⟩ := mem_run_routeItems (Nat.le_refl _) caught member
    rw [Option.some.inj h] at captured
    have same := (List.append_inj_right' captured rfl)
    simpa using same
  · rw [if_neg slash, List.nil_append] at h
    split_ifs at h with atEnd
    · omega
    · simp at h

/-- The routes have a group for each wildcard. -/
theorem groups_routeItems (l : Bytes) (ls : List Bytes) (n : ℕ) :
    ((routeItems l ls n).foldr seq empty).groups = if ls = [] then 0 else n + ls.length := by
  have chars (l : Bytes) (last : EcmaScript) :
      ((l.map char).foldr seq last).groups = last.groups := by
    induction l with
    | nil => rfl
    | cons c l ih => exact (Nat.zero_max _).trans ih
  induction ls generalizing l n with
  | nil => exact chars l empty
  | cons part ls ih =>
    have wildcard : (wildcardItem (n + 1)).groups = n + 1 := by simp [wildcardItem, groups]
    rw [routeItems, List.foldr_append, chars, List.foldr_cons, groups, wildcard, ih,
      if_neg (List.cons_ne_nil _ _), List.length_cons]
    split_ifs with none
    · rw [none, List.length_nil, Nat.max_zero]
    · omega

/-- The captures of a route are its groups, one behind the other. -/
theorem laid_of_regexMatch {captures : List (ℕ × ℕ)}
    (h : regexMatch ((routeItems l ls 0).foldr seq empty) subject = some captures) :
    Laid subject.length 0 l ls captures ∧
      (run subject ((routeItems l ls 0).foldr seq empty) 0 []).find?
        (fun result => result.1 = subject.length) =
          some (subject.length, numbered 0 captures) := by
  obtain ⟨⟨next, caps⟩, found, captured⟩ := Option.map_eq_some_iff.mp h
  have atEnd : next = subject.length := by simpa using List.find?_some found
  subst atEnd
  obtain ⟨spans, laid, rfl⟩ := mem_run_routeItems (Nat.zero_le _)
    (fun c h => absurd h List.not_mem_nil) (List.mem_of_find?_eq_some found)
  rw [List.append_nil] at found captured
  have count : ((routeItems l ls 0).foldr seq empty).groups = spans.length := by
    rw [groups_routeItems, laid.length]
    split_ifs with none
    · rw [none, List.length_nil]
    · exact Nat.zero_add _
  have same : captures = spans := by
    rw [← captured, count]
    apply List.ext_getElem (by simp)
    intro i inside inside'
    have entry := @find?_numbered 0 spans i
    rw [Nat.zero_add, Nat.add_comm, List.getElem?_eq_getElem inside'] at entry
    rw [List.getElem_map, List.getElem_range, entry, Option.getD_some]
  rw [same]
  exact ⟨laid, found⟩

end UriMapper

namespace HttpRequest

open UriMapper

/-- The parameters of a wildcard route are what its wildcards stand for, exactly when only wildcards
follow the first one. -/
theorem parametersCaptured_wildcardRoute_iff {l : Bytes} {ls : List Bytes} {request : HttpRequest}
    {captures : List (ℕ × ℕ)} (nonempty : ls ≠ [])
    (literal : ∀ part ∈ l :: ls, ∀ c ∈ part, IsLiteral c)
    (route : request.frameworkInfo.matchedRegex = routeText (wildcardRoute l ls))
    (clean : Clean request.rawUri)
    (matched : regexMatch ((routeItems l ls 0).foldr seq empty) request.rawUri = some captures) :
    ParametersCaptured request ((routeItems l ls 0).foldr seq empty) captures ↔
      ∀ part ∈ ls, part = [] := by
  have compiled := compile_wildcardRoute literal nonempty
  rw [← route] at compiled
  obtain ⟨laid, found⟩ := laid_of_regexMatch matched
  rw [parametersCaptured_iff compiled matched clean.1]
  refine ⟨laid.parts_eq_nil, fun empties => ?_⟩
  obtain ⟨part, ls, rfl⟩ := List.exists_cons_of_ne_nil nonempty
  obtain ⟨rfl, later⟩ := List.forall_mem_cons.mp empties
  obtain ⟨last, spans, rfl, forward, behind⟩ := laid
  have inside := behind.le_final
  rw [routeItems, List.foldr_append, run_chars] at found
  split_ifs at found
  · have ends := first_wildcard_ends clean.noBreak later forward inside.1 found
    refine List.forall_mem_cons.mpr ⟨ends, fun span member => ?_⟩
    have := inside.2 span member
    omega
  · cases found

end HttpRequest

end Lightning
