import Lightning.Proof.Parsing
import Lightning.Proof.Serialization

/-!
# Printed headers and the parser

`toHttpResponse` prints a colon between key and value, `parseHeaders` looks for a colon and a space.
On a printed line the parser therefore runs past the colon, and every key it returns holds one. The
headers come back only when there are none (`headersRecovered_iff`).
-/

namespace Lightning.HttpResponse

open Search HttpRequest

/-- The headers as they are printed, between the status line and the empty line. -/
def headerBlock (P : Platform) (response : HttpResponse) : Bytes :=
  (P.visit response.headers.entries).flatMap headerField

/-- A printed header without its line break. -/
def fieldLine (header : (_ : Bytes) × Bytes) : Bytes := header.1 ++ chars ":" ++ header.2

/-- A key without colon, space and line break, and a value without line break that does not begin
with a space. -/
structure Portable (header : (_ : Bytes) × Bytes) : Prop where
  keyNoColon : 58 ∉ header.1
  keyNoSpace : 32 ∉ header.1
  keyNoBreak : ¬ CRLF <:+: header.1
  valueNoBreak : ¬ CRLF <:+: header.2
  valueNoSpace : header.2.head? ≠ some 32

/-- The parser gives every key the value that it has in the response. -/
def HeadersRecovered (P : Platform) (response : HttpResponse) : Prop :=
  ∀ key, (parseHeaders (response.headerBlock P)).lookup key = response.headers.lookup key

variable {P : Platform} {response : HttpResponse} {header : (_ : Bytes) × Bytes}

theorem toHttpResponse_eq (P : Platform) (response : HttpResponse) :
    response.toHttpResponse P = response.statusLine.createStatusLine ++ response.headerBlock P ++
      CRLF ++
        if response.body.length > 0 then cStr (response.body ++ P.adjacent response.body) else [] :=
  rfl

/-! ## The lines of the block -/

theorem colon : chars ":" = [58] := by decide

theorem fieldLine_eq (header : (_ : Bytes) × Bytes) :
    fieldLine header = header.1 ++ 58 :: header.2 := by
  rw [fieldLine, colon, List.append_assoc, List.singleton_append]

theorem fieldLine_ne_nil (header : (_ : Bytes) × Bytes) : fieldLine header ≠ [] := by
  rw [fieldLine_eq]
  simp

theorem fieldLine_noBreak (key : ¬ CRLF <:+: header.1) (value : ¬ CRLF <:+: header.2) :
    ¬ CRLF <:+: fieldLine header := by
  rw [fieldLine_eq, infix_append_cons (by decide), not_or]
  exact ⟨key, value⟩

theorem headerBlock_eq (P : Platform) (response : HttpResponse) :
    response.headerBlock P =
      ((P.visit response.headers.entries).map fieldLine).flatMap fun line => line ++ CRLF := by
  rw [List.flatMap_map]
  rfl

/-- The parser finds the lines that were printed. -/
theorem headerLines_headerBlock
    (noBreak : ∀ header ∈ response.headers.entries, ¬ CRLF <:+: header.1 ∧ ¬ CRLF <:+: header.2) :
    headerLines (response.headerBlock P) = (P.visit response.headers.entries).map fieldLine := by
  have filled : ∀ line ∈ (P.visit response.headers.entries).map fieldLine, line ≠ [] := by
    intro line member
    obtain ⟨header, -, rfl⟩ := List.mem_map.mp member
    exact fieldLine_ne_nil header
  have unbroken : ∀ line ∈ (P.visit response.headers.entries).map fieldLine,
      ¬ CRLF <:+: line := by
    intro line member
    obtain ⟨header, visited, rfl⟩ := List.mem_map.mp member
    have clean := noBreak header (P.mem_visit_iff.mp visited)
    exact fieldLine_noBreak clean.1 clean.2
  have lines := headerLines_lines filled unbroken (Or.inl rfl)
  rwa [List.append_nil, ← headerBlock_eq] at lines

/-! ## What the parser takes for the key -/

/-- The first colon of a printed line is not followed by a space, so the key reaches over it. -/
theorem colon_mem_key (portable : Portable header) : 58 ∈ (splitLine (fieldLine header)).1 := by
  have separator : chars ": " = [58, 32] := by decide
  rw [splitLine]
  cases found : findFirst (chars ": ") ((fieldLine header).drop 0) with
  | none =>
    rw [getNextToken_of_none _ _ (Nat.zero_le _) found, List.drop_zero, fieldLine_eq]
    exact List.mem_append_right _ List.mem_cons_self
  | some i =>
    rw [getNextToken_of_some (Nat.zero_le _) found]
    obtain ⟨-, occurs, -⟩ := (findFirst_eq_some_iff _ _ _).mp found
    rw [List.drop_zero, fieldLine_eq, separator] at occurs
    rw [List.drop_zero, fieldLine_eq]
    have behind : header.1.length < i := by
      by_contra early
      rcases Nat.lt_or_eq_of_le (Nat.le_of_not_lt early) with inKey | atColon
      · -- the occurrence would begin inside of the key
        rw [List.drop_append_of_le_length (Nat.le_of_lt inKey), List.drop_eq_getElem_cons inKey,
          List.cons_append, List.cons_prefix_cons] at occurs
        exact portable.keyNoColon (occurs.1 ▸ List.getElem_mem inKey)
      · rw [atColon, List.drop_left, List.cons_prefix_cons] at occurs
        obtain ⟨rest, value⟩ := occurs.2
        apply portable.valueNoSpace
        rw [← value]
        rfl
    rw [List.take_append, List.take_of_length_le (Nat.le_of_lt behind)]
    obtain ⟨more, hmore⟩ := Nat.exists_eq_add_of_lt behind
    rw [hmore, Nat.add_assoc, Nat.add_sub_cancel_left, List.take_succ_cons]
    exact List.mem_append_right _ List.mem_cons_self

/-- The parser gives the headers of a response back if and only if it has none. -/
theorem headersRecovered_iff (portable : ∀ header ∈ response.headers.entries, Portable header) :
    HeadersRecovered P response ↔ response.headers = ∅ := by
  have lines : headerLines (response.headerBlock P) =
      (P.visit response.headers.entries).map fieldLine :=
    headerLines_headerBlock fun header present =>
      ⟨(portable header present).keyNoBreak, (portable header present).valueNoBreak⟩
  constructor
  · intro recovered
    cases visited : P.visit response.headers.entries with
    | nil => exact AList.ext (P.visit_eq_nil_iff.mp visited)
    | cons header others =>
      -- the first printed header comes back under a key that no header of the response has
      have present : header ∈ response.headers.entries := by
        rw [← P.mem_visit_iff, visited]
        exact List.mem_cons_self
      have key := recovered (splitLine (fieldLine header)).1
      rw [lookup_parseHeaders, headerFields, lines, visited, List.map_cons, List.map_cons,
        firstValue, List.find?_cons_of_pos (by simp), Option.map_some] at key
      have stored := AList.mem_lookup_iff.mp key.symm
      exact absurd (colon_mem_key (portable header present)) (portable _ stored).keyNoColon
  · intro none key
    have nothing : P.visit response.headers.entries = [] := by
      rw [P.visit_eq_nil_iff, none]
      rfl
    rw [lookup_parseHeaders, headerFields, lines, nothing, none, List.map_nil, List.map_nil]
    rfl

/-- Without its headers a response loses none. -/
theorem headersRecovered_cleared :
    HeadersRecovered Platform.newestFirst { HttpResponseBuilder.create.build with headers := ∅ } :=
  (headersRecovered_iff fun _ present => absurd present List.not_mem_nil).mpr rfl

/-- The one header of an empty response comes back as a key with the value in it. -/
theorem not_headersRecovered :
    HttpResponseBuilder.create.build.headers.entries = [⟨chars "Content-Length", chars "0"⟩] ∧
      Portable ⟨chars "Content-Length", chars "0"⟩ ∧
      (parseHeaders (HttpResponseBuilder.create.build.headerBlock Platform.newestFirst)).entries =
        [⟨chars "Content-Length:0", []⟩] ∧
      ¬ HeadersRecovered Platform.newestFirst HttpResponseBuilder.create.build := by
  refine ⟨by decide +kernel, ⟨by decide, by decide, by decide +kernel, by decide, by decide⟩,
    by decide +kernel, fun recovered => ?_⟩
  have key := recovered (chars "Content-Length")
  revert key
  decide +kernel

end Lightning.HttpResponse
