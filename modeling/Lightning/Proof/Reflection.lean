import Lightning.Lib.Pieces
import Lightning.Proof.HeaderRoundTrip

/-!
# Fields of a request in the headers of a response

Everything the parser and the router take from a request is a part of one of its lines, so none of
it holds a line break. A response that repeats such a field in a header is still printed line by
line (`reflected_splits`), as long as the texts that the server puts in itself hold no line break.
-/

namespace Lightning

open Search

namespace HttpRequest

/-- The texts that a resolver gets from a request. -/
inductive IsField (request : HttpRequest) : Bytes → Prop
  | method : IsField request request.method
  | rawUri : IsField request request.rawUri
  | protocolVersion : IsField request request.protocolVersion
  | key {key value : Bytes} (found : request.headers.lookup key = some value) : IsField request key
  | value {key value : Bytes} (found : request.headers.lookup key = some value) :
      IsField request value
  | uriParameter {param : Bytes} (found : param ∈ request.uriParameters) : IsField request param

/-- The request as it was parsed, or after the parameters of some matched route were computed. -/
def Handled (ρ : Type) [RegexEngine ρ] (request handled : HttpRequest) : Prop :=
  handled = request ∨ ∃ info,
    computeUriParameters ρ { request with frameworkInfo := info } = .ok handled

section NoBreak

variable {ρ : Type} [RegexEngine ρ] {raw line : Bytes} {request handled : HttpRequest}

theorem noBreak_mono {part whole : Bytes} (inside : part <:+: whole)
    (noBreak : ¬ CRLF <:+: whole) : ¬ CRLF <:+: part := fun broken => noBreak (broken.trans inside)

theorem parseRequestLine_infix (line : Bytes) :
    (parseRequestLine line).method <:+: line ∧ (parseRequestLine line).rawUri <:+: line ∧
      (parseRequestLine line).protocolVersion <:+: line :=
  ⟨infix_getNextToken _ _ _, infix_getNextToken _ _ _, infix_getNextToken _ _ _⟩

theorem infix_splitLine (line : Bytes) :
    (splitLine line).1 <:+: line ∧ (splitLine line).2 <:+: line :=
  ⟨infix_getNextToken _ _ _, (List.drop_suffix _ _).isInfix⟩

/-- A line of the header block ends in front of its line break. -/
theorem headerLines_noBreak {rawHeaders : Bytes} (h : line ∈ headerLines rawHeaders) :
    ¬ CRLF <:+: line := by
  induction hlen : rawHeaders.length using Nat.strong_induction_on generalizing rawHeaders with
  | _ length ih =>
    cases found : findFirst CRLF rawHeaders with
    | none =>
      by_cases empty : rawHeaders = []
      · rw [empty, headerLines_nil] at h
        exact absurd h List.not_mem_nil
      · rw [headerLines_of_none found empty, List.mem_singleton] at h
        rw [h]
        exact (findFirst_eq_none_iff _ _).mp found
    | some i =>
      rcases Nat.eq_zero_or_pos i with rfl | pos
      · rw [headerLines_of_empty_line found] at h
        exact absurd h List.not_mem_nil
      · rw [headerLines_of_line found pos, List.mem_cons] at h
        cases h with
        | inl first =>
          have two : CRLF.length = 2 := rfl
          rw [first, ← findFirst_eq_none_iff]
          exact findFirst_take_eq_none found (by omega)
        | inr later =>
          have inside := length_le_of_findFirst found
          have two : CRLF.length = 2 := rfl
          apply ih _ _ later rfl
          rw [List.length_drop]
          omega

theorem headerFields_noBreak {rawHeaders key value : Bytes}
    (found : (parseHeaders rawHeaders).lookup key = some value) :
    ¬ CRLF <:+: key ∧ ¬ CRLF <:+: value := by
  rw [lookup_parseHeaders, firstValue, Option.map_eq_some_iff] at found
  obtain ⟨field, first, rfl⟩ := found
  obtain rfl : field.1 = key := by simpa using List.find?_some first
  obtain ⟨line, member, rfl⟩ := List.mem_map.mp (List.mem_of_find?_eq_some first)
  have noBreak := headerLines_noBreak member
  exact ⟨noBreak_mono (infix_splitLine line).1 noBreak,
    noBreak_mono (infix_splitLine line).2 noBreak⟩

/-- Both ends of a parameter are cut from the URI. -/
theorem uriParameter_infix (rawUri : Bytes) (capture : ℕ × ℕ) :
    uriParameter rawUri capture <:+: rawUri := by
  have param : cStr (rawUri.drop capture.1) <:+: rawUri :=
    (List.takeWhile_prefix _).isInfix.trans (List.drop_suffix _ _).isInfix
  rw [uriParameter]
  split_ifs
  · exact (List.drop_suffix _ _).isInfix.trans param
  · exact param

/-- What an accepted request consists of. -/
theorem createRequest_noBreak (accepted : createRequest raw = some request) {field : Bytes}
    (obtained : IsField request field) : ¬ CRLF <:+: field := by
  obtain ⟨requestLineEnd, found, rfl⟩ := createRequest_eq_some accepted
  have two : CRLF.length = 2 := rfl
  have line : ¬ CRLF <:+: raw.take requestLineEnd := by
    rw [← findFirst_eq_none_iff]
    exact findFirst_take_eq_none found (by omega)
  obtain ⟨method, uri, version⟩ := parseRequestLine_infix (raw.take requestLineEnd)
  cases obtained with
  | method => exact noBreak_mono method line
  | rawUri => exact noBreak_mono uri line
  | protocolVersion => exact noBreak_mono version line
  | key stored => exact (headerFields_noBreak stored).1
  | value stored => exact (headerFields_noBreak stored).2
  | uriParameter param => exact absurd param List.not_mem_nil

/-- The router adds parts of the URI. -/
theorem computeUriParameters_noBreak {info : FrameworkInfo}
    (noBreak : ∀ field, IsField request field → ¬ CRLF <:+: field)
    (computed : computeUriParameters ρ { request with frameworkInfo := info } = .ok handled)
    {field : Bytes} (obtained : IsField handled field) : ¬ CRLF <:+: field := by
  have frame : handled.method = request.method ∧ handled.rawUri = request.rawUri ∧
      handled.protocolVersion = request.protocolVersion ∧ handled.headers = request.headers ∧
      ∀ param ∈ handled.uriParameters, param <:+: request.rawUri := by
    rw [computeUriParameters] at computed
    cases compiled : (RegexEngine.compile info.matchedRegex : Option ρ) with
    | none =>
      simp only [compiled] at computed
      cases computed
    | some regex =>
      simp only [compiled] at computed
      cases result : RegexEngine.regexMatch regex request.rawUri with
      | none =>
        simp only [result, Except.ok.injEq] at computed
        rw [← computed]
        exact ⟨rfl, rfl, rfl, rfl, fun param h => absurd h List.not_mem_nil⟩
      | some captures =>
        simp only [result, Except.ok.injEq] at computed
        rw [← computed]
        refine ⟨rfl, rfl, rfl, rfl, fun param h => ?_⟩
        obtain ⟨capture, -, rfl⟩ := List.mem_map.mp h
        exact uriParameter_infix _ _
  obtain ⟨method, uri, version, headers, params⟩ := frame
  cases obtained with
  | method =>
    rw [method]
    exact noBreak _ .method
  | rawUri =>
    rw [uri]
    exact noBreak _ .rawUri
  | protocolVersion =>
    rw [version]
    exact noBreak _ .protocolVersion
  | key found =>
    rw [headers] at found
    exact noBreak _ (.key found)
  | value found =>
    rw [headers] at found
    exact noBreak _ (.value found)
  | uriParameter found => exact noBreak_mono (params _ found) (noBreak _ .rawUri)

/-- No text that a resolver gets from a request holds a line break. -/
theorem field_noBreak (accepted : createRequest raw = some request)
    (after : Handled ρ request handled) {field : Bytes} (obtained : IsField handled field) :
    ¬ CRLF <:+: field := by
  obtain rfl | ⟨info, computed⟩ := after
  · exact createRequest_noBreak accepted obtained
  · exact computeUriParameters_noBreak (fun _ h => createRequest_noBreak accepted h) computed
      obtained

end NoBreak

end HttpRequest

namespace HttpResponse

open HttpRequest

/-- The status line without its line break. -/
def statusText (line : StatusLine) : Bytes :=
  chars "HTTP/" ++ line.httpVersion ++ chars " " ++ toStringInt line.statusCode ++ chars " " ++
    line.statusPhrase

/-- No text of the head holds a line break. -/
structure Unbroken (response : HttpResponse) : Prop where
  httpVersion : ¬ CRLF <:+: response.statusLine.httpVersion
  statusPhrase : ¬ CRLF <:+: response.statusLine.statusPhrase
  headers : ∀ header ∈ response.headers.entries, ¬ CRLF <:+: header.1 ∧ ¬ CRLF <:+: header.2

/-- In front of the first empty line there are the status line and one line for each header, none of
them empty. -/
structure HeadSplits (P : Platform) (response : HttpResponse) : Prop where
  lines : ∃ n, findFirst DOUBLE_CRLF (response.toHttpResponse P) = some n ∧
    pieces CRLF ((response.toHttpResponse P).take (n + CRLF.length)) 0 =
      (statusText response.statusLine,
        (P.visit response.headers.entries).map fieldLine ++ [[]])
  filled : ∀ line ∈ (P.visit response.headers.entries).map fieldLine, line ≠ []

section Splitting

variable {P : Platform} {response : HttpResponse} {key value : Bytes}

theorem createStatusLine_eq (line : StatusLine) :
    line.createStatusLine = statusText line ++ CRLF := rfl

theorem notMem_toStringNat (n : ℕ) : 13 ∉ toStringNat n := by
  intro inside
  obtain ⟨c, member, byte⟩ := List.mem_map.mp inside
  have digit := Nat.isDigit_of_mem_toDigits (by decide) (by decide) member
  have value := congrArg UInt8.toNat byte
  simp only [Char.isDigit, Bool.and_eq_true, decide_eq_true_eq, ge_iff_le,
    UInt32.le_iff_toNat_le] at digit
  simp only [UInt8.toNat_ofNat', Char.toNat] at digit value
  have : (13 : UInt8).toNat = 13 := rfl
  have : '0'.val.toNat = 48 := rfl
  have : '9'.val.toNat = 57 := rfl
  omega

theorem toStringInt_noBreak (i : ℤ) : ¬ CRLF <:+: toStringInt i := by
  intro broken
  have inside : 13 ∈ toStringInt i := broken.subset List.mem_cons_self
  rw [toStringInt] at inside
  split_ifs at inside
  · rw [List.mem_cons] at inside
    exact inside.elim (by decide) (notMem_toStringNat _)
  · exact notMem_toStringNat _ inside

theorem statusText_noBreak (unbroken : Unbroken response) :
    ¬ CRLF <:+: statusText response.statusLine := by
  have text : statusText response.statusLine = chars "HTTP" ++ 47 ::
      (response.statusLine.httpVersion ++ 32 ::
        (toStringInt response.statusLine.statusCode ++ 32 :: response.statusLine.statusPhrase)) := by
    simp [statusText, chars]
  rw [text, infix_append_cons (by decide), infix_append_cons (by decide),
    infix_append_cons (by decide)]
  rintro (inName | inVersion | inCode | inPhrase)
  · exact absurd inName (by decide)
  · exact unbroken.httpVersion inVersion
  · exact toStringInt_noBreak _ inCode
  · exact unbroken.statusPhrase inPhrase

/-- A line with its line break holds no empty line. -/
theorem line_noEmptyLine {line : Bytes} (noBreak : ¬ CRLF <:+: line) :
    ¬ DOUBLE_CRLF <:+: line ++ CRLF := by
  intro empty
  obtain ⟨i, found⟩ := Option.isSome_iff_exists.mp ((findFirst_isSome_iff _ _).mpr empty)
  obtain ⟨-, occurs, -⟩ := (findFirst_eq_some_iff _ _ _).mp found
  have inside := length_le_of_findFirst found
  have breaks := findFirst_append_self unbordered_CRLF noBreak []
  rw [List.append_nil, findFirst_eq_some_iff] at breaks
  have two : CRLF.length = 2 := rfl
  have four : DOUBLE_CRLF.length = 4 := rfl
  rw [List.length_append] at inside
  -- an empty line begins with a line break, and the only one comes too late
  exact breaks.2.2 i (by omega) ((List.prefix_append CRLF CRLF).trans occurs)

theorem headClean_of_unbroken (unbroken : Unbroken response) : HeadClean response := by
  constructor
  · rw [createStatusLine_eq]
    exact line_noEmptyLine (statusText_noBreak unbroken)
  · intro header present
    obtain ⟨key, value⟩ := unbroken.headers header present
    exact ⟨line_noEmptyLine (fieldLine_noBreak key value), fun early => key early.isInfix⟩

/-- Line breaks at the ends of the lines, or in front of them and of an empty rest. -/
theorem flatMap_lines (lines : List Bytes) :
    CRLF ++ lines.flatMap (fun line => line ++ CRLF) = (lines ++ [[]]).flatMap (CRLF ++ ·) := by
  induction lines with
  | nil => simp
  | cons line lines ih =>
    rw [List.flatMap_cons, List.append_assoc line, ih, List.cons_append, List.flatMap_cons,
      List.append_assoc]

/-- A response without line breaks in its texts is printed line by line. -/
theorem headSplits_of_unbroken (P : Platform) (unbroken : Unbroken response) :
    HeadSplits P response := by
  obtain ⟨i, found⟩ := head_emptyLine P response
  have stray := (strayHead_eq_nil_iff P response).mpr (headClean_of_unbroken unbroken)
  rw [strayHead_eq found, List.drop_eq_nil_iff] at stray
  have inside := length_le_of_findFirst found
  have two : CRLF.length = 2 := rfl
  have four : DOUBLE_CRLF.length = 4 := rfl
  have lines : response.head P =
      response.statusLine.createStatusLine ++ response.headerBlock P ++ CRLF := rfl
  have upTo : (response.statusLine.createStatusLine ++ response.headerBlock P).length =
      i + CRLF.length := by
    rw [lines, List.length_append] at stray inside
    omega
  have text : response.statusLine.createStatusLine ++ response.headerBlock P =
      statusText response.statusLine ++
        ((P.visit response.headers.entries).map fieldLine ++ [[]]).flatMap (CRLF ++ ·) := by
    rw [createStatusLine_eq, headerBlock_eq, List.append_assoc, flatMap_lines]
  constructor
  · refine ⟨i, findFirst_append found _, ?_⟩
    rw [toHttpResponse_eq, ← upTo, List.append_assoc _ CRLF, List.take_left, text]
    refine pieces_join unbordered_CRLF (by decide) (statusText_noBreak unbroken) ?_
    intro line member
    rw [List.mem_append, List.mem_singleton] at member
    cases member with
    | inl field =>
      obtain ⟨header, visited, rfl⟩ := List.mem_map.mp field
      obtain ⟨key, value⟩ := unbroken.headers header (P.mem_visit_iff.mp visited)
      exact fieldLine_noBreak key value
    | inr last =>
      rw [last]
      decide
  · intro line member
    obtain ⟨header, -, rfl⟩ := List.mem_map.mp member
    exact fieldLine_ne_nil header

theorem HeadSplits.statusText_noBreak (splits : HeadSplits P response) :
    ¬ CRLF <:+: statusText response.statusLine := by
  obtain ⟨n, -, split⟩ := splits.lines
  have absent :=
    (pieces_spec (by decide : CRLF ≠ []) ((response.toHttpResponse P).take (n + CRLF.length))).2
  rwa [split] at absent

theorem setHeader_unbroken (unbroken : Unbroken response) (hkey : ¬ CRLF <:+: key)
    (hvalue : ¬ CRLF <:+: value) : Unbroken (response.setHeader key value) := by
  refine ⟨unbroken.httpVersion, unbroken.statusPhrase, fun header present => ?_⟩
  have stored := AList.mem_lookup_iff.mpr present
  rw [setHeader, UnorderedMap.lookup_insertOrAssign] at stored
  split_ifs at stored with same
  · rw [same, ← Option.some.inj stored]
    exact ⟨hkey, hvalue⟩
  · exact unbroken.headers header (AList.mem_lookup_iff.mp stored)

/-- No field of a request holds a line break, and no response can be split by repeating one. -/
theorem reflected_splits {ρ : Type} [RegexEngine ρ] {raw field : Bytes}
    {request handled : HttpRequest} (accepted : createRequest raw = some request)
    (after : Handled ρ request handled) (obtained : IsField handled field) :
    ¬ CRLF <:+: field ∧ ∀ (P : Platform) (response : HttpResponse) (key : Bytes),
      Unbroken response → ¬ CRLF <:+: key → HeadSplits P (response.setHeader key field) := by
  have noBreak := field_noBreak accepted after obtained
  refine ⟨noBreak, fun P response key unbroken hkey => ?_⟩
  exact headSplits_of_unbroken P (setHeader_unbroken unbroken hkey noBreak)

theorem reflected_splits_uri :
    ¬ CRLF <:+: chars "/a\r" ∧ ∀ (P : Platform) (response : HttpResponse) (key : Bytes),
      Unbroken response → ¬ CRLF <:+: key → HeadSplits P (response.setHeader key (chars "/a\r")) :=
  @reflected_splits EcmaScript _ (chars "GET /a\r HTTP/1.1\r\n\r\n") (chars "/a\r") _ _ rfl
    (Or.inl rfl) IsField.rawUri

/-- A server that puts a line break into its version number splits its own status line. -/
theorem not_headSplits_version :
    ∃ request, createRequest (chars "GET / HTTP/1.1\r\n\r\n") = some request ∧
      ∃ response : HttpResponse, ¬ CRLF <:+: response.statusLine.statusPhrase ∧
        response.headers.entries = [⟨chars "Content-Length", chars "0"⟩] ∧
        ¬ HeadSplits Platform.newestFirst
          (response.setHeader (chars "X-Method") request.method) := by
  refine ⟨_, rfl, (HttpResponseBuilder.create.withHttpVersion (chars "1.1\r\nA:")).build,
    by decide +kernel, by decide +kernel, fun splits => ?_⟩
  exact splits.statusText_noBreak (by decide +kernel)

end Splitting

end HttpResponse

end Lightning
