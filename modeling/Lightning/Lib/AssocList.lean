import Mathlib.Data.List.AList

/-!
# Association lists

Facts about lists of entries with distinct keys: what a lookup finds after the value of a key was
replaced, which entry is the first to pass a test, and when that entry has a property, said in terms
of the order of the keys.
-/

namespace AssocList

variable {κ ν : Type*} {l : List ((_ : κ) × ν)}

theorem dlookup_kreplace [DecidableEq κ] {key : κ} {value : ν} (key' : κ)
    (l : List ((_ : κ) × ν)) :
    (l.kreplace key value).dlookup key' =
      if key' = key ∧ key ∈ l.keys then some value else l.dlookup key' := by
  induction l with
  | nil => simp [List.kreplace]
  | cons entry l ih =>
    obtain ⟨k, v⟩ := entry
    by_cases found : key = k
    · subst found
      have replaced : List.kreplace key value (⟨key, v⟩ :: l) = ⟨key, value⟩ :: l :=
        List.lookmap_cons_some _ _ (if_pos rfl)
      rw [replaced]
      by_cases same : key' = key
      · subst same
        simp
      · rw [List.dlookup_cons_ne _ _ same, List.dlookup_cons_ne _ _ same, if_neg (same ·.1)]
    · have kept : List.kreplace key value (⟨k, v⟩ :: l) = ⟨k, v⟩ :: l.kreplace key value :=
        List.lookmap_cons_none _ _ (if_neg found)
      rw [kept]
      by_cases same : key' = k
      · subst same
        rw [List.dlookup_cons_eq, List.dlookup_cons_eq, if_neg (Ne.symm found ·.1)]
      · rw [List.dlookup_cons_ne _ _ same, List.dlookup_cons_ne _ _ same, ih]
        simp [found]

/-- An entry is the first that passes a test if and only if its key comes before the keys of all
others that pass. -/
theorem find?_eq_some_iff_idxOf_lt [BEq κ] [LawfulBEq κ] {p : ((_ : κ) × ν) → Bool}
    {x : (_ : κ) × ν} (nodup : l.NodupKeys) (member : x ∈ l) (passes : p x = true) :
    l.find? p = some x ↔
      ∀ y ∈ l, p y = true → y.1 ≠ x.1 → l.keys.idxOf x.1 < l.keys.idxOf y.1 := by
  induction l with
  | nil => cases member
  | cons entry l ih =>
    rw [List.nodupKeys_cons] at nodup
    have inTail {y : (_ : κ) × ν} (hy : y ∈ l) : y.1 ≠ entry.1 := fun same =>
      nodup.1 (same ▸ List.mem_keys_of_mem hy)
    rw [List.mem_cons] at member
    obtain rfl | later := member
    · rw [List.find?_cons_of_pos passes]
      apply iff_of_true rfl
      intro y _ _ other
      rw [List.keys_cons, List.idxOf_cons_self, List.idxOf_cons_ne _ other.symm]
      exact Nat.succ_pos _
    · by_cases first : p entry = true
      · rw [List.find?_cons_of_pos first]
        refine iff_of_false (fun same => ?_) fun before => ?_
        · exact inTail later (by rw [Option.some.inj same])
        · have := before entry List.mem_cons_self first (inTail later).symm
          rw [List.keys_cons, List.idxOf_cons_self] at this
          exact absurd this (Nat.not_lt_zero _)
      · rw [List.find?_cons_of_neg first, ih nodup.2 later]
        have shift (y : (_ : κ) × ν) (hy : y ∈ l) :
            (entry :: l).keys.idxOf y.1 = l.keys.idxOf y.1 + 1 := by
          rw [List.keys_cons, List.idxOf_cons_ne _ (inTail hy).symm]
        simp only [List.forall_mem_cons, first, Bool.false_eq_true, false_implies, true_and]
        refine forall_congr' fun y => forall_congr' fun hy => ?_
        rw [shift x later, shift y hy, Nat.add_lt_add_iff_right]

/-- The first entry that passes a test has a property if and only if every entry that passes without
the property comes behind another one that passes. -/
theorem forall_find?_iff [BEq κ] [LawfulBEq κ] {p : ((_ : κ) × ν) → Bool}
    {q : ((_ : κ) × ν) → Prop} (nodup : l.NodupKeys) :
    (∀ x, l.find? p = some x → q x) ↔
      ∀ x ∈ l, p x = true → ¬ q x → ∃ y ∈ l, p y = true ∧ l.keys.idxOf y.1 < l.keys.idxOf x.1 := by
  constructor
  · intro good x member passes bad
    have notFirst := mt (good x) bad
    rw [find?_eq_some_iff_idxOf_lt nodup member passes] at notFirst
    push Not at notFirst
    obtain ⟨y, hy, passesToo, other, le⟩ := notFirst
    refine ⟨y, hy, passesToo, Nat.lt_of_le_of_ne le fun same => other ?_⟩
    exact (List.idxOf_inj (List.mem_keys_of_mem hy)).mp same
  · intro behind x found
    by_contra bad
    have member := List.mem_of_find?_eq_some found
    have passes := List.find?_some found
    obtain ⟨y, hy, passesToo, before⟩ := behind x member passes bad
    rw [find?_eq_some_iff_idxOf_lt nodup member passes] at found
    have other : y.1 ≠ x.1 := by
      intro same
      rw [same] at before
      exact Nat.lt_irrefl _ before
    exact Nat.lt_asymm before (found y hy passesToo other)

end AssocList
