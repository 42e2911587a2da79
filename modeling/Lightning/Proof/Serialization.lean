import Lightning.Lib.Search
import Lightning.Response
import Mathlib.Data.List.TakeWhile
import Mathlib.Tactic.IntervalCases

/-!
# Bodies in serialized responses

`toHttpResponse` prints the body as a C string. What it puts behind the first empty line is
therefore the body only when the body is empty: a body with a NUL is cut there, a body without one
makes the serializer read on behind the vector. The head has an empty line of its own only at its
end, unless the status line or a header brings one in (`HeadClean`); `bodyIntact_iff` covers these
responses too.
-/

namespace Lightning.HttpResponse

open Search

/-- What follows the first empty line. -/
def afterEmptyLine (bytes : Bytes) : Option Bytes :=
  (findFirst DOUBLE_CRLF bytes).map fun i => bytes.drop (i + DOUBLE_CRLF.length)

/-- A header as it is printed. -/
def headerField (header : (_ : Bytes) × Bytes) : Bytes := header.1 ++ chars ":" ++ header.2 ++ CRLF

/-- The status line and the headers as they are printed, with the empty line that ends them. -/
def head (P : Platform) (response : HttpResponse) : Bytes :=
  response.statusLine.createStatusLine ++
    (P.visit response.headers.entries).flatMap headerField ++ CRLF

/-- How many bytes from `body.data()` on the serializer looks at: a C string with its NUL. -/
def bodyBytesRead (P : Platform) (response : HttpResponse) : ℕ :=
  if response.body.length > 0 then
    (cStr (response.body ++ P.adjacent response.body)).length + 1
  else 0

/-- What a client needs of a serialized response: behind the first empty line comes the body,
as long as the `Content-Length` header of the constructor says, and from no other memory. -/
structure BodyIntact (P : Platform) (response : HttpResponse) : Prop where
  body : afterEmptyLine (response.toHttpResponse P) = some response.body
  contentLength : ∀ statusLine headers,
    (create statusLine headers response.body).getHeader (chars "Content-Length") =
      (afterEmptyLine (response.toHttpResponse P)).map fun bytes => toStringNat bytes.length
  inside : response.bodyBytesRead P ≤ response.body.length

/-- Neither the status line nor a header prints an empty line. -/
structure HeadClean (response : HttpResponse) : Prop where
  statusLine : ¬ DOUBLE_CRLF <:+: response.statusLine.createStatusLine
  headers : ∀ header ∈ response.headers.entries,
    ¬ DOUBLE_CRLF <:+: headerField header ∧ ¬ CRLF <+: header.1

/-- The part of the head behind its first empty line. -/
def strayHead (P : Platform) (response : HttpResponse) : Bytes :=
  (afterEmptyLine (response.head P)).getD []

variable {P : Platform} {response : HttpResponse} {body : Bytes}

/-! ## The head -/

section Head

variable {a b : Bytes} {fields : List Bytes}

/-- Behind a line break an empty line begins with another line break. -/
theorem emptyLine_append (ended : CRLF <:+ a) :
    DOUBLE_CRLF <:+: a ++ b ↔ DOUBLE_CRLF <:+: a ∨ DOUBLE_CRLF <:+: b ∨ CRLF <+: b := by
  obtain ⟨front, rfl⟩ := ended
  constructor
  · intro h
    obtain inA | inB | ⟨l₁, l₂, split, atEnd, atFront⟩ := List.infix_append_iff.mp h
    · exact Or.inl inA
    · exact Or.inr (Or.inl inB)
    · -- the part in `a` is empty, or it ends with the LF of the line break there
      have lf : l₁ ≠ [] → l₁.getLast? = some 10 := by
        intro hne
        obtain ⟨rest, hrest⟩ := atEnd
        rw [← List.getLast?_append_of_ne_nil rest hne, hrest]
        exact List.getLast?_append_of_ne_nil front (show CRLF ≠ [] by decide)
      have length : l₁.length ≤ 4 := by
        have := congrArg List.length split
        rw [List.length_append] at this
        exact (Nat.le_add_right _ _).trans_eq this.symm
      have hl₁ : l₁ = DOUBLE_CRLF.take l₁.length := by rw [split, List.take_left]
      have hl₂ : l₂ = DOUBLE_CRLF.drop l₁.length := by rw [split, List.drop_left]
      generalize l₁.length = k at length hl₁ hl₂
      subst hl₁ hl₂
      interval_cases k
      · exact Or.inr (Or.inl atFront.isInfix)
      · exact absurd (lf (by decide)) (by decide)
      · exact Or.inr (Or.inr atFront)
      · exact absurd (lf (by decide)) (by decide)
      · exact Or.inl atEnd.isInfix
  · rintro (inA | inB | ⟨rest, rfl⟩)
    · exact inA.trans (List.prefix_append _ b).isInfix
    · exact inB.trans (List.suffix_append _ b).isInfix
    · exact ⟨front, rest, by simp [double_CRLF]⟩

/-- Where an empty line can be in a sequence of lines. -/
theorem emptyLine_flatten (ended : CRLF <:+ a) (fieldsEnded : ∀ field ∈ fields, CRLF <:+ field) :
    DOUBLE_CRLF <:+: a ++ fields.flatten ↔
      DOUBLE_CRLF <:+: a ∨ ∃ field ∈ fields, DOUBLE_CRLF <:+: field ∨ CRLF <+: field := by
  induction fields generalizing a with
  | nil => simp
  | cons field fields ih =>
    obtain ⟨fieldEnded, othersEnded⟩ := List.forall_mem_cons.mp fieldsEnded
    have joined : CRLF <:+ a ++ field := fieldEnded.trans (List.suffix_append a field)
    rw [List.flatten_cons, ← List.append_assoc, ih joined othersEnded, emptyLine_append ended]
    simp only [List.exists_mem_cons_iff, or_assoc]

theorem headerField_ended (header : (_ : Bytes) × Bytes) : CRLF <:+ headerField header :=
  List.suffix_append _ CRLF

theorem CRLF_prefix_headerField (header : (_ : Bytes) × Bytes) :
    CRLF <+: headerField header ↔ CRLF <+: header.1 := by
  obtain ⟨key, value⟩ := header
  rcases key with _ | ⟨c₁, _ | ⟨c₂, key⟩⟩ <;>
    simp [headerField, CRLF, chars, List.cons_prefix_cons]

theorem createStatusLine_ended (line : StatusLine) : CRLF <:+ line.createStatusLine :=
  List.suffix_append _ CRLF

theorem lines_ended (P : Platform) (response : HttpResponse) :
    CRLF <:+ response.statusLine.createStatusLine ++
      (P.visit response.headers.entries).flatMap headerField := by
  rcases List.eq_nil_or_concat (P.visit response.headers.entries) with none | ⟨fields, last, some⟩
  · rw [none, List.flatMap_nil, List.append_nil]
    exact createStatusLine_ended _
  · rw [some, List.concat_eq_append, List.flatMap_append, List.flatMap_singleton,
      ← List.append_assoc]
    exact (headerField_ended last).trans (List.suffix_append _ _)

/-- The lines in front of the empty line at the end of the head. -/
theorem emptyLine_before_end_iff (P : Platform) (response : HttpResponse) :
    DOUBLE_CRLF <:+: response.statusLine.createStatusLine ++
        (P.visit response.headers.entries).flatMap headerField ↔
      ¬ HeadClean response := by
  have fieldsEnded : ∀ field ∈ (P.visit response.headers.entries).map headerField,
      CRLF <:+ field := by
    rintro _ member
    obtain ⟨header, -, rfl⟩ := List.mem_map.mp member
    exact headerField_ended header
  rw [List.flatMap_def, emptyLine_flatten (createStatusLine_ended _) fieldsEnded]
  constructor
  · rintro (inStatus | ⟨_, member, found⟩) clean
    · exact clean.statusLine inStatus
    · obtain ⟨header, present, rfl⟩ := List.mem_map.mp member
      have cleanHeader := clean.headers header (P.mem_visit_iff.mp present)
      rw [CRLF_prefix_headerField] at found
      exact found.elim cleanHeader.1 cleanHeader.2
  · intro unclean
    by_contra none
    rw [not_or] at none
    refine unclean ⟨none.1, fun header member => ?_⟩
    rw [← CRLF_prefix_headerField, ← not_or]
    intro found
    exact none.2 ⟨_, List.mem_map_of_mem (P.mem_visit_iff.mpr member), found⟩

end Head

/-! ## The body -/

/-- The head has an empty line, at the latest at its end. -/
theorem head_emptyLine (P : Platform) (response : HttpResponse) :
    ∃ i, findFirst DOUBLE_CRLF (response.head P) = some i := by
  apply Option.isSome_iff_exists.mp
  rw [findFirst_isSome_iff]
  exact (emptyLine_append (lines_ended P response)).mpr (Or.inr (Or.inr (List.prefix_refl CRLF)))

theorem strayHead_eq {i : ℕ} (h : findFirst DOUBLE_CRLF (response.head P) = some i) :
    response.strayHead P = (response.head P).drop (i + DOUBLE_CRLF.length) := by
  rw [strayHead, afterEmptyLine, h]
  rfl

/-- Behind the first empty line: the rest of the head, and the body as a C string. -/
theorem afterEmptyLine_toHttpResponse (P : Platform) (response : HttpResponse) :
    afterEmptyLine (response.toHttpResponse P) = some (response.strayHead P ++
      if response.body.length > 0 then cStr (response.body ++ P.adjacent response.body) else []) := by
  obtain ⟨i, found⟩ := head_emptyLine P response
  have split : response.toHttpResponse P = response.head P ++
      if response.body.length > 0 then
        cStr (response.body ++ P.adjacent response.body) else [] := rfl
  rw [split, afterEmptyLine, findFirst_append found, Option.map_some,
    List.drop_append_of_le_length (length_le_of_findFirst found), strayHead_eq found]

/-- Nothing of the head is left behind its first empty line exactly when the head is clean. -/
theorem strayHead_eq_nil_iff (P : Platform) (response : HttpResponse) :
    response.strayHead P = [] ↔ HeadClean response := by
  rw [← not_iff_not, ← emptyLine_before_end_iff P response]
  obtain ⟨i, found⟩ := head_emptyLine P response
  obtain ⟨hi, occurs, first⟩ := (findFirst_eq_some_iff _ _ _).mp found
  have inside := length_le_of_findFirst found
  have four : DOUBLE_CRLF.length = 4 := rfl
  have two : CRLF.length = 2 := rfl
  set lines := response.statusLine.createStatusLine ++
    (P.visit response.headers.entries).flatMap headerField with hlines
  have whole : response.head P = lines ++ CRLF := rfl
  rw [strayHead_eq found, List.drop_eq_nil_iff, not_le]
  rw [whole, List.length_append] at inside
  rw [whole, List.length_append]
  constructor
  · intro early
    have fits : i + 4 ≤ lines.length ∨ i + 4 = lines.length + 1 := by omega
    rw [whole] at occurs
    obtain fits | overlap := fits
    · rw [List.drop_append_of_le_length (by omega)] at occurs
      exact (List.prefix_of_prefix_length_le occurs (List.prefix_append _ CRLF)
        (by rw [List.length_drop]; omega)).isInfix.trans (List.drop_suffix i lines).isInfix
    · -- the last but one byte of the lines is a CR, and the occurrence has an LF there
      obtain ⟨front, hfront⟩ := lines_ended P response
      rw [← hlines] at hfront
      rw [← hfront, List.length_append] at overlap
      have shifted := occurs.drop 1
      rw [List.drop_drop, ← hfront, List.append_assoc, show i + 1 = front.length by omega,
        List.drop_left] at shifted
      exact absurd shifted (by decide)
  · intro early
    have found' := (findFirst_isSome_iff _ _).mpr early
    obtain ⟨j, found'⟩ := Option.isSome_iff_exists.mp found'
    have same := findFirst_append found' CRLF
    rw [← whole, found] at same
    have := length_le_of_findFirst found'
    rw [Option.some.inj same]
    omega

theorem cStr_append_of_mem (nul : 0 ∈ body) (tail : Bytes) : cStr (body ++ tail) = cStr body := by
  induction body with
  | nil => cases nul
  | cons b body ih =>
    by_cases stop : b = 0
    · simp [cStr, stop]
    · have later : 0 ∈ body := (List.mem_cons.mp nul).resolve_left (Ne.symm stop)
      have rest := ih later
      unfold cStr at rest ⊢
      rw [List.cons_append, List.takeWhile_cons_of_pos (by simpa using stop), rest,
        List.takeWhile_cons_of_pos (by simpa using stop)]

theorem cStr_append_of_notMem (noNul : 0 ∉ body) (tail : Bytes) :
    cStr (body ++ tail) = body ++ cStr tail :=
  List.takeWhile_append_of_pos fun b member => by
    simpa using fun zero : b = 0 => noNul (zero ▸ member)

theorem cStr_length_lt (nul : 0 ∈ body) : (cStr body).length < body.length := by
  apply Nat.lt_of_le_of_ne (List.takeWhile_prefix _).length_le
  intro same
  have whole : cStr body = body := (List.takeWhile_prefix _).eq_of_length same
  have passes := List.takeWhile_eq_self_iff.mp whole 0 nul
  exact absurd passes (by decide)

/-- The serializer stays inside the vector only if it looks at no byte of it or finds a NUL. -/
theorem bodyBytesRead_le_iff (P : Platform) (response : HttpResponse) :
    response.bodyBytesRead P ≤ response.body.length ↔ response.body = [] ∨ 0 ∈ response.body := by
  unfold bodyBytesRead
  split_ifs with some
  · have nonempty := List.ne_nil_of_length_pos some
    rw [or_iff_right nonempty]
    by_cases nul : 0 ∈ response.body
    · have short := cStr_length_lt nul
      rw [cStr_append_of_mem nul]
      exact iff_of_true short nul
    · rw [cStr_append_of_notMem nul, List.length_append]
      exact iff_of_false (by omega) nul
  · have empty := List.eq_nil_of_length_eq_zero (Nat.eq_zero_of_not_pos some)
    exact iff_of_true (Nat.zero_le _) (Or.inl empty)

/-- A response reaches the client intact if and only if its body is empty and its head clean, or by
the coincidence that the head has an early empty line and the head text behind it, with the body up
to its first NUL, spells the body. -/
theorem bodyIntact_iff (P : Platform) (response : HttpResponse) :
    BodyIntact P response ↔
      response.body = [] ∧ HeadClean response ∨
        0 ∈ response.body ∧ response.strayHead P ++ cStr response.body = response.body := by
  have printed := afterEmptyLine_toHttpResponse P response
  constructor
  · intro intact
    have same := Option.some.inj (printed.symm.trans intact.body)
    obtain empty | nul := (bodyBytesRead_le_iff P response).mp intact.inside
    · rw [empty] at same
      refine Or.inl ⟨empty, (strayHead_eq_nil_iff P response).mp ?_⟩
      exact (List.append_eq_nil_iff.mp same).1
    · rw [if_pos (List.length_pos_of_mem nul), cStr_append_of_mem nul] at same
      exact Or.inr ⟨nul, same⟩
  · intro condition
    have body : afterEmptyLine (response.toHttpResponse P) = some response.body := by
      rw [printed]
      obtain ⟨empty, clean⟩ | ⟨nul, same⟩ := condition
      · rw [(strayHead_eq_nil_iff P response).mpr clean, empty]
        rfl
      · rw [if_pos (List.length_pos_of_mem nul), cStr_append_of_mem nul, same]
    refine ⟨body, fun statusLine headers => ?_, ?_⟩
    · rw [body, create, getHeader, setHeader, UnorderedMap.lookup_insertOrAssign, if_pos rfl]
      rfl
    · exact (bodyBytesRead_le_iff P response).mpr (condition.imp And.left And.left)

/-- A body with a NUL in it is cut there. -/
theorem bodyIntact_nul :
    ¬ BodyIntact Platform.newestFirst
      (create ⟨200, chars "OK", chars "1.1"⟩ ∅ (chars "a\x00b")) := by
  intro intact
  exact absurd intact.body (by decide)

end Lightning.HttpResponse
