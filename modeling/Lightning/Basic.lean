import Lightning.Lib.AssocList
import Mathlib.Algebra.Ring.Int.Defs
import Mathlib.Algebra.Ring.Nat
import Mathlib.Data.List.TakeWhile

/-!
# Bytes, exceptions and the parts of the standard library the sources use

A `std::string` and a `std::vector<char>` are lists of bytes. A `std::unordered_map` is an `AList`,
and `Platform.visit` is the order in which iteration visits its entries: of that order only the
permutation law is known. `Platform.adjacent` are the bytes that happen to lie in memory after the
storage of a vector, which the response serializer reads when it treats the body as a C string.
-/

namespace Lightning

abbrev Bytes := List UInt8

/-- The bytes of an ASCII literal. -/
def chars (s : String) : Bytes := s.toList.map fun c => UInt8.ofNat c.toNat

def CRLF : Bytes := [13, 10]

def DOUBLE_CRLF : Bytes := [13, 10, 13, 10]

theorem double_CRLF : DOUBLE_CRLF = CRLF ++ CRLF := rfl

/-- What `throw` can raise in the modelled sources, with the arguments of the constructors; `user`
stands for the exceptions of a handler. -/
inductive CppException where
  | lowLevelApi (msg : String) (appErrorCode capturedErrno : ℤ)
  | openSslErrorQueue (msg : String) (errorCode capturedErrno : ℤ)
  | invalidArgument
  | outOfRange
  | lengthError
  | regexError
  | runtimeError (msg : String)
  | user (what : String)
  deriving DecidableEq, Repr

/-- `std::unordered_map<κ, ν>`. -/
abbrev UnorderedMap (κ ν : Type) := AList (fun _ : κ => ν)

namespace UnorderedMap

variable {κ ν : Type} [DecidableEq κ]

/-- `insert` and `emplace`: an entry that is there already stays. -/
def emplace (key : κ) (value : ν) (m : UnorderedMap κ ν) : UnorderedMap κ ν :=
  if key ∈ m then m else m.insert key value

/-- `insert_or_assign`: an entry that is there already gets the new value. -/
def insertOrAssign (key : κ) (value : ν) (m : UnorderedMap κ ν) : UnorderedMap κ ν :=
  if key ∈ m then m.replace key value else m.insert key value

/-- The number of entries whose value passes a test. -/
def countValues (p : ν → Bool) (m : UnorderedMap κ ν) : ℕ := m.entries.countP fun e => p e.2

variable {key : κ} {value : ν} {p : ν → Bool} {m : UnorderedMap κ ν}

theorem emplace_of_notMem (h : key ∉ m) : emplace key value m = m.insert key value := if_neg h

theorem lookup_emplace (key' : κ) :
    (emplace key value m).lookup key' =
      if key' = key then some ((m.lookup key).getD value) else m.lookup key' := by
  unfold emplace
  split_ifs with present same same
  · obtain ⟨v, hv⟩ := Option.isSome_iff_exists.mp (AList.lookup_isSome.mpr present)
    rw [same, hv]
    rfl
  · rfl
  · rw [same, AList.lookup_insert, AList.lookup_eq_none.mpr present]
    rfl
  · rw [AList.lookup_insert_ne same]

/-- Of several entries with one key the first that is emplaced stays. -/
theorem lookup_foldl_emplace_entries (entries : List (κ × ν)) :
    (entries.foldl (fun m e => emplace e.1 e.2 m) m).lookup key =
      (m.lookup key).or ((entries.find? fun e => e.1 = key).map Prod.snd) := by
  induction entries generalizing m with
  | nil => rw [List.foldl_nil, List.find?_nil, Option.map_none, Option.or_none]
  | cons e entries ih =>
    rw [List.foldl_cons, ih, lookup_emplace]
    by_cases same : e.1 = key
    · rw [if_pos same.symm, same, List.find?_cons_of_pos (by simpa using same)]
      cases m.lookup key <;> rfl
    · rw [if_neg (Ne.symm same), List.find?_cons_of_neg (by simpa using same)]

/-- A map built by emplacing the same value under several keys. -/
theorem lookup_foldl_emplace (keys : List κ) (uniform : ∀ k v, m.lookup k = some v → v = value) :
    (keys.foldl (fun m k => emplace k value m) m).lookup key =
      if key ∈ keys then some value else m.lookup key := by
  induction keys generalizing m with
  | nil => rfl
  | cons k keys ih =>
    have getD : (m.lookup k).getD value = value := by
      cases found : m.lookup k with
      | none => rfl
      | some v => exact uniform k v found
    have next : ∀ k' v, (emplace k value m).lookup k' = some v → v = value := by
      intro k' v found
      rw [lookup_emplace, getD] at found
      split_ifs at found with same
      · exact (Option.some.inj found).symm
      · exact uniform k' v found
    rw [List.foldl_cons, ih next, lookup_emplace, getD]
    by_cases same : key = k
    · simp [same]
    · simp [same]

theorem lookup_replace (key' : κ) :
    (m.replace key value).lookup key' =
      if key' = key ∧ key ∈ m then some value else m.lookup key' := by
  have after := @AssocList.dlookup_kreplace κ ν _ key value key' m.entries
  split_ifs with found
  · exact after.trans (if_pos found)
  · exact after.trans (if_neg found)

theorem lookup_insertOrAssign (key' : κ) :
    (insertOrAssign key value m).lookup key' =
      if key' = key then some value else m.lookup key' := by
  unfold insertOrAssign
  split_ifs with present same same
  · rw [lookup_replace, if_pos ⟨same, present⟩]
  · rw [lookup_replace, if_neg (same ·.1)]
  · rw [same, AList.lookup_insert]
  · rw [AList.lookup_insert_ne same]

/-- Of several values assigned to one key the last stays. -/
theorem lookup_foldl_insertOrAssign (entries : List (κ × ν)) :
    (entries.foldl (fun m e => insertOrAssign e.1 e.2 m) m).lookup key =
      ((entries.reverse.find? fun e => e.1 = key).map Prod.snd).or (m.lookup key) := by
  induction entries generalizing m with
  | nil => rfl
  | cons e entries ih =>
    rw [List.foldl_cons, ih, lookup_insertOrAssign, List.reverse_cons, List.find?_append,
      Option.map_or, Option.or_assoc]
    congr 1
    by_cases same : e.1 = key
    · rw [if_pos same.symm, List.find?_cons_of_pos (by simpa using same)]
      rfl
    · rw [if_neg (Ne.symm same), List.find?_cons_of_neg (by simpa using same)]
      rfl

theorem countValues_insert (h : key ∉ m) :
    countValues p (m.insert key value) = countValues p m + if p value then 1 else 0 := by
  rw [countValues, AList.insert_of_notMem h, List.countP_cons, countValues]

/-- Removing an entry removes exactly that entry. -/
theorem countValues_erase (h : m.lookup key = some value) :
    countValues p m = countValues p (m.erase key) + if p value then 1 else 0 := by
  have present : key ∈ m.entries.keys := AList.lookup_isSome.mp (by rw [h]; rfl)
  obtain ⟨v, front, back, hfront, split, erased⟩ := List.exists_of_kerase present
  have same : v = value := by
    have found : ⟨key, v⟩ ∈ m.entries := by
      rw [split]
      simp
    rw [← AList.mem_lookup_iff, h] at found
    exact (Option.some.inj found).symm
  subst same
  show m.entries.countP _ = (m.entries.kerase key).countP _ + _
  rw [erased, split]
  simp only [List.countP_append, List.countP_cons]
  omega

theorem countValues_pos_iff :
    0 < countValues p m ↔ ∃ key value, m.lookup key = some value ∧ p value = true := by
  rw [countValues, List.countP_pos_iff]
  constructor
  · rintro ⟨⟨key, value⟩, found, hp⟩
    exact ⟨key, value, AList.mem_lookup_iff.mpr found, hp⟩
  · rintro ⟨key, value, found, hp⟩
    exact ⟨⟨key, value⟩, AList.mem_lookup_iff.mp found, hp⟩

end UnorderedMap

abbrev HeadersMap := UnorderedMap Bytes Bytes

/-- What `SSL_get_error` can say of a failed `SSL_read_ex` on a non-blocking socket. -/
inductive SslError where
  | ssl
  | wantRead
  | syscall
  | zeroReturn
  deriving DecidableEq, Repr

/-- The choices of the libraries and of the clock that the sources do not determine. -/
structure Platform where
  /-- The iteration order of a hash map, from its entries. -/
  visit {κ ν : Type} : List ((_ : κ) × ν) → List ((_ : κ) × ν)
  visit_perm {κ ν : Type} (entries : List ((_ : κ) × ν)) : (visit entries).Perm entries
  /-- The bytes in memory after the storage of a vector. -/
  adjacent : Bytes → Bytes
  /-- How `SSL_read_ex` fails when it is asked for no bytes while some are there; `none` when it
  succeeds. -/
  zeroLengthRead : Option SslError
  /-- Milliseconds since the epoch. -/
  now : ℕ

section Visit

variable (P : Platform) {κ ν : Type} {entries : List ((_ : κ) × ν)} {entry : (_ : κ) × ν}

@[simp] theorem Platform.mem_visit_iff : entry ∈ P.visit entries ↔ entry ∈ entries :=
  (P.visit_perm entries).mem_iff

theorem Platform.visit_eq_nil_iff : P.visit entries = [] ↔ entries = [] := by
  rw [← List.perm_nil, ← List.perm_nil]
  exact ⟨(P.visit_perm entries).symm.trans, (P.visit_perm entries).trans⟩

theorem Platform.nodupKeys_visit (nodup : entries.NodupKeys) : (P.visit entries).NodupKeys :=
  (List.perm_nodupKeys (P.visit_perm entries)).mpr nodup

end Visit

/-- A platform that iterates in the order of `AList`, newest entry first, over zeroed memory. -/
def Platform.newestFirst : Platform where
  visit := id
  visit_perm _ := .refl _
  adjacent _ := [0]
  zeroLengthRead := some .syscall
  now := 0

/-- A platform that iterates oldest entry first. -/
def Platform.oldestFirst : Platform where
  visit := List.reverse
  visit_perm entries := List.reverse_perm entries
  adjacent _ := [0]
  zeroLengthRead := some .syscall
  now := 0

/-- The string a `const char*` denotes: everything before the first NUL. -/
def cStr (bytes : Bytes) : Bytes := bytes.takeWhile (· ≠ 0)

/-- `isspace` in the C locale. -/
def isSpace (b : UInt8) : Bool := b == 32 || (9 ≤ b && b ≤ 13)

def isDigit (b : UInt8) : Bool := 48 ≤ b && b ≤ 57

/-- The number that a string of decimal digits denotes. -/
def digitsValue (digits : Bytes) : ℕ := digits.foldl (fun acc b => 10 * acc + (b.toNat - 48)) 0

/-- `std::stoi`: skip white space, accept a sign, stop at the first byte that is no digit. -/
def stoi (str : Bytes) : Except CppException ℤ :=
  let str := str.dropWhile isSpace
  let negative := str.head? == some 45
  let str := if str.head? == some 45 || str.head? == some 43 then str.tail else str
  let digits := str.takeWhile isDigit
  if digits = [] then .error .invalidArgument
  else
    let value : ℤ := if negative then -digitsValue digits else digitsValue digits
    if -2 ^ 31 ≤ value ∧ value < 2 ^ 31 then .ok value else .error .outOfRange

/-- `std::to_string` of an unsigned number. -/
def toStringNat (n : ℕ) : Bytes := (Nat.toDigits 10 n).map fun c => UInt8.ofNat c.toNat

/-- `std::to_string` of an `int`. -/
def toStringInt (i : ℤ) : Bytes :=
  if i < 0 then 45 :: toStringNat i.natAbs else toStringNat i.natAbs

/-- `v` is a plain decimal numeral of `n`, up to surrounding white space. -/
def IsNumeral (v : Bytes) (n : ℕ) : Prop :=
  ∃ pre digits post, v = pre ++ digits ++ post ∧ (∀ b ∈ pre, isSpace b) ∧
    (∀ b ∈ digits, isDigit b) ∧ digits ≠ [] ∧ (∀ b ∈ post, isSpace b) ∧ digitsValue digits = n

theorem not_isDigit_of_isSpace {b : UInt8} (h : isSpace b) : isDigit b = false := by
  revert h
  simp only [isSpace, isDigit, Bool.or_eq_true, Bool.and_eq_true, beq_iff_eq, decide_eq_true_eq,
    Bool.and_eq_false_iff, decide_eq_false_iff_not, UInt8.le_iff_toNat_le]
  rintro (rfl | ⟨-, h⟩)
  · exact Or.inl (by decide)
  · exact Or.inl fun h' => absurd (Nat.le_trans h' h) (by decide)

/-- `v` starts with a number as `std::stoi` reads one: white space and a plus sign may stand before
it, and anything but a further digit after it. -/
def StartsWithNumeral (v : Bytes) (n : ℕ) : Prop :=
  ∃ pre sign digits post, v = pre ++ (sign ++ (digits ++ post)) ∧ (∀ b ∈ pre, isSpace b) ∧
    (sign = [] ∨ sign = [43]) ∧ (∀ b ∈ digits, isDigit b) ∧ digits ≠ [] ∧
    post.takeWhile isDigit = [] ∧ digitsValue digits = n

theorem IsNumeral.startsWithNumeral {v : Bytes} {n : ℕ} (h : IsNumeral v n) :
    StartsWithNumeral v n := by
  obtain ⟨pre, digits, post, rfl, hpre, hdigits, hne, hpost, value⟩ := h
  refine ⟨pre, [], digits, post, List.append_assoc _ _ _, hpre, Or.inl rfl, hdigits, hne, ?_, value⟩
  cases post with
  | nil => rfl
  | cons b post => simp [not_isDigit_of_isSpace (hpost b (by simp))]

/-- A digit is not skipped as white space and is no sign. -/
theorem not_sign_of_isDigit {d : UInt8} (h : isDigit d) :
    isSpace d = false ∧ d ≠ 45 ∧ d ≠ 43 := by
  refine ⟨?_, ?_, ?_⟩
  · by_contra hs
    rw [Bool.not_eq_false] at hs
    rw [not_isDigit_of_isSpace hs] at h
    cases h
  · rintro rfl
    revert h
    decide
  · rintro rfl
    revert h
    decide

/-- How `std::stoi` ends behind white space and a sign that is no minus. -/
theorem stoi_unsigned (digits : Bytes) :
    (if digits = [] then .error .invalidArgument
      else if -2 ^ 31 ≤ (digitsValue digits : ℤ) ∧ (digitsValue digits : ℤ) < 2 ^ 31 then
        .ok (digitsValue digits : ℤ)
      else .error .outOfRange : Except CppException ℤ) =
      if digits = [] then .error .invalidArgument
      else if digitsValue digits < 2 ^ 31 then .ok (digitsValue digits : ℤ)
      else .error .outOfRange := by
  have fits : (-2 ^ 31 ≤ (digitsValue digits : ℤ) ∧ (digitsValue digits : ℤ) < 2 ^ 31) ↔
      digitsValue digits < 2 ^ 31 := by omega
  simp only [fits]

/-- On such a text `std::stoi` gives the number below `2 ^ 31` and throws from there on. -/
theorem stoi_of_startsWithNumeral {v : Bytes} {n : ℕ} (h : StartsWithNumeral v n) :
    stoi v = if n < 2 ^ 31 then .ok n else .error .outOfRange := by
  obtain ⟨pre, sign, digits, post, rfl, hpre, hsign, hdigits, hne, hpost, rfl⟩ := h
  have taken : (digits ++ post).takeWhile isDigit = digits := by
    rw [List.takeWhile_append_of_pos hdigits, hpost, List.append_nil]
  have number := (stoi_unsigned digits).trans (if_neg hne)
  rw [stoi, List.dropWhile_append_of_pos hpre]
  obtain rfl | rfl := hsign
  · obtain ⟨d, ds, rfl⟩ := List.exists_cons_of_ne_nil hne
    obtain ⟨noSpace, noMinus, noPlus⟩ := not_sign_of_isDigit (hdigits d (by simp))
    rw [List.nil_append, List.cons_append, List.dropWhile_cons_of_neg (by simp [noSpace])]
    rw [List.cons_append] at taken
    simp only [List.head?_cons, Option.some_beq_some, beq_eq_false_iff_ne.mpr noMinus,
      beq_eq_false_iff_ne.mpr noPlus, Bool.or_self, Bool.false_eq_true, if_false, taken]
    exact number
  · rw [List.singleton_append, List.dropWhile_cons_of_neg (by decide)]
    simp only [List.head?_cons, Option.some_beq_some, List.tail_cons, taken, beq_self_eq_true,
      Bool.or_true, if_true, show ((43 : UInt8) == 45) = false from rfl, Bool.false_eq_true,
      if_false]
    exact number

theorem takeWhile_dropWhile_eq_nil {α : Type} (p : α → Bool) (l : List α) :
    (l.dropWhile p).takeWhile p = [] := by
  induction l with
  | nil => rfl
  | cons b l ih =>
    by_cases h : p b
    · rw [List.dropWhile_cons_of_pos h, ih]
    · rw [List.dropWhile_cons_of_neg h, List.takeWhile_cons_of_neg h]

/-- A positive number stands behind white space and at most a plus sign. -/
theorem sign_of_stoi {v : Bytes} {n : ℕ} (pos : 0 < n) (h : stoi v = .ok n) :
    ∃ sign str, v.dropWhile isSpace = sign ++ str ∧ (sign = [] ∨ sign = [43]) ∧
      str.takeWhile isDigit ≠ [] ∧ digitsValue (str.takeWhile isDigit) = n ∧ n < 2 ^ 31 := by
  have number {digits : Bytes} (ended : (if digits = [] then .error .invalidArgument
      else if digitsValue digits < 2 ^ 31 then .ok (digitsValue digits : ℤ)
      else .error .outOfRange : Except CppException ℤ) = .ok n) :
      digits ≠ [] ∧ digitsValue digits = n ∧ n < 2 ^ 31 := by
    split_ifs at ended with empty fits
    have value : (digitsValue digits : ℤ) = n := Except.ok.inj ended
    exact ⟨empty, by omega, by omega⟩
  rw [stoi] at h
  cases hv : v.dropWhile isSpace with
  | nil =>
    rw [hv] at h
    cases h
  | cons b str =>
    rw [hv] at h
    by_cases minus : b = 45
    · subst minus
      simp only [List.head?_cons, beq_self_eq_true, Bool.true_or, if_true, List.tail_cons] at h
      split_ifs at h
      have negated : -(digitsValue (str.takeWhile isDigit) : ℤ) = n := Except.ok.inj h
      omega
    · by_cases plus : b = 43
      · subst plus
        exact ⟨[43], str, rfl, Or.inr rfl, number ((stoi_unsigned _).symm.trans h)⟩
      · refine ⟨[], b :: str, rfl, Or.inl rfl, number ((stoi_unsigned _).symm.trans ?_)⟩
        simpa [minus, plus] using h

/-- `std::stoi` gives a positive number on such texts only. -/
theorem stoi_eq_ok_iff {v : Bytes} {n : ℕ} (pos : 0 < n) :
    stoi v = .ok n ↔ StartsWithNumeral v n ∧ n < 2 ^ 31 := by
  constructor
  · intro h
    obtain ⟨sign, str, split, hsign, nonempty, value, small⟩ := sign_of_stoi pos h
    refine ⟨⟨v.takeWhile isSpace, sign, str.takeWhile isDigit, str.dropWhile isDigit, ?_,
      fun b hb => List.mem_takeWhile_imp hb, hsign, fun b hb => List.mem_takeWhile_imp hb,
      nonempty, takeWhile_dropWhile_eq_nil isDigit str, value⟩, small⟩
    rw [List.takeWhile_append_dropWhile, ← split, List.takeWhile_append_dropWhile]
  · rintro ⟨starts, small⟩
    rw [stoi_of_startsWithNumeral starts, if_pos small]

/-- On a plain numeral `std::stoi` is exact below `2 ^ 31` and throws from there on. -/
theorem stoi_of_isNumeral {v : Bytes} {n : ℕ} (h : IsNumeral v n) :
    stoi v = if n < 2 ^ 31 then .ok n else .error .outOfRange :=
  stoi_of_startsWithNumeral h.startsWithNumeral

end Lightning
