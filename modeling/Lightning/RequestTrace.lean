import Lightning.Lib.Traced
import Lightning.RequestInt

/-!
# The positions the request parser uses

The parser of `RequestInt` once more. It notes every call of `getNextToken` with what the call is
passed and what it returns, and every iterator it makes, also one that leaves its string: only then
is the behaviour undefined. Without its trace this is the parser of `RequestInt`
(`result_createRequestTraced`).
-/

namespace Lightning

open Search Traced

/-- What `HttpRequest` does with positions. -/
inductive Access
  /-- `getNextToken(line, del, _, offset)` -/
  | call (line del : Bytes) (offset : ℤ)
  /-- It returned `token` and left `outIndex` in its reference. -/
  | returned (line : Bytes) (offset : ℤ) (token : Bytes) (outIndex : ℤ)
  /-- `str.begin() + pos` -/
  | iterator (str : Bytes) (pos : ℤ)
  deriving DecidableEq, Repr

/-- Positions stay inside their strings, and a token that is not empty moves its reader on. -/
def Access.Inside : Access → Prop
  | call line _ offset => 0 ≤ offset ∧ offset ≤ line.length
  | returned line offset token outIndex =>
      offset ≤ outIndex ∧ outIndex ≤ line.length ∧ (token ≠ [] → offset < outIndex)
  | iterator str pos => 0 ≤ pos ∧ pos ≤ str.length

namespace HttpRequest

/-- `str.begin() + pos` -/
def begin (str : Bytes) (pos : ℤ) : Traced Access ℤ := do
  note (.iterator str pos)
  ofOption (if 0 ≤ pos ∧ pos ≤ str.length then some pos else none)

/-- The body of `getNextToken`. -/
def getNextTokenBody (line del : Bytes) (offset : ℤ) : Traced Access (Bytes × ℤ) :=
  let index := findInt del line offset
  if index = -1 then do
    let first ← begin line offset
    let token ← ofOption (range line first line.length)
    pure (token, intOfSize line.length)
  else do
    let first ← begin line offset
    let last ← begin line index
    let token ← ofOption (range line first last)
    pure (token, intOfSize (sizeOfInt index + del.length))

def getNextTokenTraced (line del : Bytes) (offset : ℤ) : Traced Access (Bytes × ℤ) := do
  note (.call line del offset)
  let result ← getNextTokenBody line del offset
  note (.returned line offset result.1 result.2)
  pure result

def parseRequestLineTraced (requestLine : Bytes) : Traced Access RequestLine := do
  let method ← getNextTokenTraced requestLine (chars " ") 0
  let uri ← getNextTokenTraced requestLine (chars " ") method.2
  let version ← getNextTokenTraced requestLine (chars " ") uri.2
  pure ⟨method.1, uri.1, version.1⟩

/-- The `while` loop of `parseHeaders`; past its bound it has not returned. -/
def parseHeadersLoopTraced (rawHeaders : Bytes) : ℕ → ℤ → HeadersMap → Traced Access HeadersMap
  | 0, _, _ => ofOption none
  | fuel + 1, offset, headersMap => do
      let header ← getNextTokenTraced rawHeaders CRLF offset
      if header.1 = [] then pure headersMap
      else do
        let key ← getNextTokenTraced header.1 (chars ": ") 0
        let first ← begin header.1 key.2
        let value ← ofOption (range header.1 first header.1.length)
        parseHeadersLoopTraced rawHeaders fuel header.2 (headersMap.emplace key.1 value)

def parseHeadersTraced (rawHeaders : Bytes) : Traced Access HeadersMap :=
  parseHeadersLoopTraced rawHeaders (rawHeaders.length + 1) 0 ∅

def createRequestTraced (request : Bytes) : Traced Access (Option HttpRequest) :=
  let requestLineEnd := findInt CRLF request 0
  if requestLineEnd = -1 then pure none
  else do
    let last ← begin request requestLineEnd
    let requestLine ← ofOption (range request 0 last)
    let line ← parseRequestLineTraced requestLine
    let lineEnd ← begin request requestLineEnd
    let first ← begin request (lineEnd + CRLF.length)
    let rawHeaders ← ofOption (range request first request.length)
    let headers ← parseHeadersTraced rawHeaders
    pure (some {
      method := line.method
      rawUri := line.rawUri
      protocolVersion := line.protocolVersion
      uriParameters := []
      frameworkInfo := ⟨[], 0⟩
      headers := headers
      stream := false
      bodyRead := false })

/-! ## Without the trace -/

section Result

variable {α : Type}

theorem result_begin (str : Bytes) (pos : ℤ) :
    (begin str pos).result = if 0 ≤ pos ∧ pos ≤ str.length then some pos else none := by
  simp [begin]

/-- A range has no value where its first iterator has none. -/
theorem bind_begin_first (str : Bytes) (first last : ℤ) (f : Bytes → Option α) :
    ((begin str first).result.bind fun first => (range str first last).bind f) =
      (range str first last).bind f := by
  rw [result_begin]
  split_ifs with inside
  · rfl
  · rw [range, if_neg]
    · rfl
    · intro bounds
      exact inside ⟨bounds.1, by omega⟩

theorem bind_begin_last (str : Bytes) (first last : ℤ) (f : Bytes → Option α) :
    ((begin str last).result.bind fun last => (range str first last).bind f) =
      (range str first last).bind f := by
  rw [result_begin]
  split_ifs with inside
  · rfl
  · rw [range, if_neg]
    · rfl
    · intro bounds
      exact inside ⟨by omega, bounds.2.2⟩

theorem result_getNextTokenTraced (line del : Bytes) (offset : ℤ) :
    (getNextTokenTraced line del offset).result = getNextTokenInt line del offset := by
  rw [getNextTokenTraced, getNextTokenBody, getNextTokenInt]
  simp only [result_bind, result_note, result_ite, result_ofOption, result_pure, Option.bind_some,
    Option.bind_fun_some, bind_begin_last, bind_begin_first, Option.map_eq_bind]
  rfl

theorem result_parseRequestLineTraced (requestLine : Bytes) :
    (parseRequestLineTraced requestLine).result = parseRequestLineInt requestLine := by
  simp only [parseRequestLineTraced, parseRequestLineInt, result_bind, result_pure,
    result_getNextTokenTraced]

theorem result_parseHeadersLoopTraced (rawHeaders : Bytes) (fuel : ℕ) (offset : ℤ)
    (headersMap : HeadersMap) :
    (parseHeadersLoopTraced rawHeaders fuel offset headersMap).result =
      parseHeadersLoopInt rawHeaders fuel offset headersMap := by
  induction fuel generalizing offset headersMap with
  | zero => rfl
  | succ fuel ih =>
    simp only [parseHeadersLoopTraced, parseHeadersLoopInt, result_bind, result_ite, result_pure,
      result_ofOption, result_getNextTokenTraced, bind_begin_first, ih]

theorem result_parseHeadersTraced (rawHeaders : Bytes) :
    (parseHeadersTraced rawHeaders).result = parseHeadersInt rawHeaders :=
  result_parseHeadersLoopTraced rawHeaders _ 0 ∅

/-- Without its trace the traced parser is the parser with `int`s. -/
theorem result_createRequestTraced (request : Bytes) :
    (createRequestTraced request).result = createRequestInt request := by
  simp only [createRequestTraced, createRequestInt, result_bind, result_ite, result_pure,
    result_ofOption, result_parseRequestLineTraced, result_parseHeadersTraced, bind_begin_last,
    bind_begin_first]
  -- behind the request line the end of the line is known to be inside
  congr 1
  rw [result_begin, range]
  split_ifs with inside outside
  · rfl
  · exact absurd inside.2 outside
  · rfl
  · rfl

end Result

/-! ## Below `2 ^ 31` bytes every position is inside -/

section Inside

variable {line : Bytes} {offset : ℕ}

theorem ensures_begin {str : Bytes} {pos : ℕ} (inside : pos ≤ str.length) :
    Ensures Access.Inside (begin str pos) (· = (pos : ℤ)) := by
  have iterator : (Access.iterator str pos).Inside := ⟨Int.natCast_nonneg pos, by omega⟩
  refine (Ensures.note iterator).bind fun _ _ => ?_
  exact Ensures.ofOption (if_pos iterator) rfl

/-- `std::string(str.begin() + first, str.end())` -/
theorem ensures_suffix {str : Bytes} {first : ℕ} (inside : first ≤ str.length) :
    Ensures Access.Inside (ofOption (range str first str.length)) (· = str.drop first) := by
  refine Ensures.ofOption (range_natCast inside le_rfl) ?_
  rw [← List.length_drop, List.take_length]

theorem ensures_getNextTokenBody (del : Bytes) (short : line.length < 2 ^ 31)
    (bound : offset ≤ line.length) :
    Ensures Access.Inside (getNextTokenBody line del offset)
      (· = ((getNextToken line del offset).1, ((getNextToken line del offset).2 : ℤ))) := by
  have index := findInt_eq line del (offset.lt_of_le_of_lt bound short)
  rw [getNextTokenBody, getNextToken]
  cases found : findFrom del line offset with
  | none =>
    rw [found, Option.map_none, Option.getD_none] at index
    rw [if_pos index]
    apply (ensures_begin bound).bind
    rintro _ rfl
    apply (ensures_suffix bound).bind
    rintro _ rfl
    exact Ensures.pure (by rw [intOfSize_of_lt short])
  | some i =>
    have inside := findFrom_bounds found
    rw [found, Option.map_some, Option.getD_some, intOfSize_of_lt (by omega)] at index
    rw [index, if_neg (by omega)]
    apply (ensures_begin bound).bind
    rintro _ rfl
    apply (ensures_begin (by omega)).bind
    rintro _ rfl
    apply (Ensures.ofOption (range_natCast inside.1 (by omega)) rfl).bind
    rintro _ rfl
    exact Ensures.pure (by rw [sizeOfInt_natCast (by omega), intOfSize_of_lt (by omega)])

/-- A call that is passed a position of its line returns one that is not before it. -/
theorem ensures_getNextToken (del : Bytes) (short : line.length < 2 ^ 31)
    (bound : offset ≤ line.length) :
    Ensures Access.Inside (getNextTokenTraced line del offset)
      (· = ((getNextToken line del offset).1, ((getNextToken line del offset).2 : ℤ))) := by
  have bounds := getNextToken_bounds del bound
  have called : (Access.call line del offset).Inside := ⟨Int.natCast_nonneg offset, by omega⟩
  have returned : (Access.returned line offset (getNextToken line del offset).1
      (getNextToken line del offset).2).Inside := by
    refine ⟨by omega, by omega, fun nonempty => ?_⟩
    have pos := List.length_pos_iff.mpr nonempty
    omega
  refine (Ensures.note called).bind fun _ _ => ?_
  apply (ensures_getNextTokenBody del short bound).bind
  rintro _ rfl
  exact (Ensures.note returned).bind fun _ _ => Ensures.pure rfl

theorem ensures_parseRequestLine (short : line.length < 2 ^ 31) :
    Ensures Access.Inside (parseRequestLineTraced line) (· = parseRequestLine line) := by
  have afterMethod := (getNextToken_bounds (chars " ") (Nat.zero_le line.length)).2
  have afterUri := (getNextToken_bounds (chars " ") afterMethod).2
  apply (ensures_getNextToken _ short (Nat.zero_le _)).bind
  rintro _ rfl
  apply (ensures_getNextToken _ short afterMethod).bind
  rintro _ rfl
  apply (ensures_getNextToken _ short afterUri).bind
  rintro _ rfl
  exact Ensures.pure rfl

/-- Every header moves the loop on, so that a bound beyond the length is never used up. -/
theorem ensures_parseHeadersLoop {rawHeaders : Bytes} (short : rawHeaders.length < 2 ^ 31)
    {fuel : ℕ} {headersMap : HeadersMap} (bound : offset ≤ rawHeaders.length)
    (enough : rawHeaders.length - offset < fuel) :
    Ensures Access.Inside (parseHeadersLoopTraced rawHeaders fuel offset headersMap)
      (· = parseHeadersLoop rawHeaders fuel offset headersMap) := by
  induction fuel generalizing offset headersMap with
  | zero => omega
  | succ fuel ih =>
    rw [parseHeadersLoop]
    apply (ensures_getNextToken CRLF short bound).bind
    rintro _ rfl
    dsimp only
    split_ifs with hempty
    · exact Ensures.pure rfl
    · have lineShort := (getNextToken_length CRLF bound).trans_lt short
      have keyEnd := (getNextToken_bounds (chars ": ")
        (Nat.zero_le (getNextToken rawHeaders CRLF offset).1.length)).2
      have progress := getNextToken_bounds CRLF bound
      have nonempty := List.length_pos_iff.mpr hempty
      apply (ensures_getNextToken (chars ": ") lineShort (Nat.zero_le _)).bind
      rintro _ rfl
      apply (ensures_begin keyEnd).bind
      rintro _ rfl
      apply (ensures_suffix keyEnd).bind
      rintro _ rfl
      exact ih progress.2 (by omega)

theorem ensures_createRequest {request : Bytes} (short : request.length < 2 ^ 31) :
    Ensures Access.Inside (createRequestTraced request) (· = createRequest request) := by
  have index := findInt_eq request CRLF (Nat.two_pow_pos 31)
  rw [Nat.cast_zero, findFrom_zero] at index
  rw [createRequestTraced, createRequest]
  cases found : findFirst CRLF request with
  | none =>
    rw [found, Option.map_none, Option.getD_none] at index
    rw [if_pos index]
    exact Ensures.pure rfl
  | some i =>
    have inside := length_le_of_findFirst found
    have headShort : (request.take i).length < 2 ^ 31 := by
      rw [List.length_take]
      omega
    have restShort : (request.drop (i + CRLF.length)).length < 2 ^ 31 := by
      rw [List.length_drop]
      omega
    have head := range_natCast (Nat.zero_le i) (Nat.le_of_add_right_le inside)
    rw [Nat.cast_zero, List.drop_zero, Nat.sub_zero] at head
    rw [found, Option.map_some, Option.getD_some, intOfSize_of_lt (by omega)] at index
    rw [index, if_neg (by omega)]
    apply (ensures_begin (Nat.le_of_add_right_le inside)).bind
    rintro _ rfl
    apply (Ensures.ofOption head rfl).bind
    rintro _ rfl
    apply (ensures_parseRequestLine headShort).bind
    rintro _ rfl
    apply (ensures_begin (Nat.le_of_add_right_le inside)).bind
    rintro _ rfl
    apply (ensures_begin inside).bind
    rintro _ rfl
    apply (ensures_suffix inside).bind
    rintro _ rfl
    apply (ensures_parseHeadersLoop restShort (Nat.zero_le _) (by omega)).bind
    rintro _ rfl
    exact Ensures.pure rfl

/-- On a string shorter than `2 ^ 31` bytes the `int`s change nothing. -/
theorem createRequestInt_eq {request : Bytes} (short : request.length < 2 ^ 31) :
    createRequestInt request = some (createRequest request) := by
  rw [← result_createRequestTraced]
  exact (ensures_createRequest short).result_eq

end Inside

/-! ## The offsets of the header loop -/

/-- Where a trace looks for the next header. -/
def headerOffset : Access → Option ℤ
  | .call _ del offset => if del = CRLF then some offset else none
  | .returned _ _ _ _ => none
  | .iterator _ _ => none

def headerOffsets (events : List Access) : List ℤ := events.filterMap headerOffset

section HeaderOffsets

variable {α β : Type} {offset : ℕ}

theorem headerOffsets_bind (x : Traced Access α) (f : α → Traced Access β) :
    headerOffsets (x >>= f).events =
      headerOffsets x.events ++ x.result.elim [] fun a => headerOffsets (f a).events := by
  rw [events_bind, headerOffsets, List.filterMap_append]
  cases x.result with
  | none => rfl
  | some a => rfl

/-- A computation that asks for no header, followed by one that does not either. -/
theorem headerOffsets_bind_eq_nil {x : Traced Access α} {f : α → Traced Access β}
    (hx : headerOffsets x.events = []) (hf : ∀ a, headerOffsets (f a).events = []) :
    headerOffsets (x >>= f).events = [] := by
  rw [headerOffsets_bind, hx]
  cases x.result with
  | none => rfl
  | some a => exact hf a

theorem headerOffsets_begin (str : Bytes) (pos : ℤ) : headerOffsets (begin str pos).events = [] :=
  headerOffsets_bind_eq_nil rfl fun _ => rfl

theorem headerOffsets_getNextTokenBody (line del : Bytes) (offset : ℤ) :
    headerOffsets (getNextTokenBody line del offset).events = [] := by
  rw [getNextTokenBody]
  split_ifs with absent
  · apply headerOffsets_bind_eq_nil (headerOffsets_begin line offset)
    intro first
    exact headerOffsets_bind_eq_nil rfl fun _ => rfl
  · apply headerOffsets_bind_eq_nil (headerOffsets_begin line offset)
    intro first
    apply headerOffsets_bind_eq_nil (headerOffsets_begin line _)
    intro last
    exact headerOffsets_bind_eq_nil rfl fun _ => rfl

theorem headerOffsets_getNextToken (line del : Bytes) (offset : ℤ) :
    headerOffsets (getNextTokenTraced line del offset).events =
      if del = CRLF then [offset] else [] := by
  have rest (result : Bytes × ℤ) : headerOffsets (do
      note (.returned line offset result.1 result.2)
      pure result : Traced Access (Bytes × ℤ)).events = [] :=
    headerOffsets_bind_eq_nil rfl fun _ => rfl
  rw [getNextTokenTraced, headerOffsets_bind, result_note, Option.elim_some,
    headerOffsets_bind_eq_nil (headerOffsets_getNextTokenBody line del offset) rest, List.append_nil,
    events_note, headerOffsets, List.filterMap_cons, headerOffset]
  split_ifs <;> rfl

/-- The loop starts every iteration behind the one before. -/
theorem headerOffsets_parseHeadersLoop {rawHeaders : Bytes} (short : rawHeaders.length < 2 ^ 31)
    {fuel : ℕ} {headersMap : HeadersMap} (bound : offset ≤ rawHeaders.length)
    (enough : rawHeaders.length - offset < fuel) :
    ∃ rest : List ℤ,
      headerOffsets (parseHeadersLoopTraced rawHeaders fuel offset headersMap).events =
        (offset : ℤ) :: rest ∧ ((offset : ℤ) :: rest).Pairwise (· < ·) := by
  induction fuel generalizing offset headersMap with
  | zero => omega
  | succ fuel ih =>
    rw [parseHeadersLoopTraced, headerOffsets_bind, headerOffsets_getNextToken, if_pos rfl,
      (ensures_getNextToken CRLF short bound).result_eq, Option.elim_some]
    dsimp only
    split_ifs with hempty
    · exact ⟨[], rfl, List.pairwise_singleton _ _⟩
    · have lineShort := (getNextToken_length CRLF bound).trans_lt short
      have progress := getNextToken_bounds CRLF bound
      have nonempty := List.length_pos_iff.mpr hempty
      have keyEnd := (getNextToken_bounds (chars ": ")
        (Nat.zero_le (getNextToken rawHeaders CRLF offset).1.length)).2
      have keyed := (ensures_getNextToken (chars ": ") lineShort (Nat.zero_le _)).result_eq
      rw [Nat.cast_zero] at keyed
      rw [headerOffsets_bind, headerOffsets_getNextToken, if_neg (by decide), keyed,
        Option.elim_some, headerOffsets_bind, headerOffsets_begin, (ensures_begin keyEnd).result_eq,
        Option.elim_some, headerOffsets_bind, result_ofOption, range_natCast keyEnd le_rfl,
        Option.elim_some, events_ofOption]
      obtain ⟨rest, hrest, ordered⟩ := ih progress.2 (by omega)
      rw [hrest]
      refine ⟨_, rfl, List.pairwise_cons.mpr ⟨fun later hmem => ?_, ordered⟩⟩
      have next : (offset : ℤ) < (getNextToken rawHeaders CRLF offset).2 := by omega
      cases List.mem_cons.mp hmem with
      | inl first => exact first ▸ next
      | inr inside => exact Int.lt_trans next ((List.pairwise_cons.mp ordered).1 later inside)

end HeaderOffsets

/-- Below `2 ^ 31` bytes the parser never leaves a string. Each of its three entries returns, and
the loop over the headers does so because every iteration starts behind the one before. -/
theorem parser_inside (input : Bytes) (short : input.length < 2 ^ 31) :
    Ensures Access.Inside (parseRequestLineTraced input) (· = parseRequestLine input) ∧
      Ensures Access.Inside (parseHeadersTraced input) (· = parseHeaders input) ∧
      Ensures Access.Inside (createRequestTraced input) (· = createRequest input) ∧
      ∀ fuel, input.length < fuel →
        (parseHeadersLoopTraced input fuel 0 ∅).result = some (parseHeaders input) ∧
          (headerOffsets (parseHeadersLoopTraced input fuel 0 ∅).events).Pairwise (· < ·) := by
  have enough : input.length - 0 < input.length + 1 := by omega
  refine ⟨ensures_parseRequestLine short, ensures_parseHeadersLoop short (Nat.zero_le _) enough,
    ensures_createRequest short, fun fuel hfuel => ⟨?_, ?_⟩⟩
  · have loop := @ensures_parseHeadersLoop 0 input short fuel ∅ (Nat.zero_le _) (by omega)
    rw [Nat.cast_zero] at loop
    rw [loop.result_eq, parseHeaders, parseHeadersLoop_mono (Nat.zero_le _) enough hfuel]
  · obtain ⟨rest, hrest, ordered⟩ := @headerOffsets_parseHeadersLoop 0 input short fuel ∅
      (Nat.zero_le _) (by omega)
    rw [Nat.cast_zero] at hrest ordered
    rw [hrest]
    exact ordered

/-- A block that ends inside a delimiter. -/
theorem parser_inside_unterminated :
    (chars "Host: a\r\nX\r").length < 2 ^ 31 ∧
      Ensures Access.Inside (parseHeadersTraced (chars "Host: a\r\nX\r"))
        (· = parseHeaders (chars "Host: a\r\nX\r")) ∧
      headerOffsets (parseHeadersTraced (chars "Host: a\r\nX\r")).events = [0, 9, 11] :=
  ⟨by decide, (parser_inside (chars "Host: a\r\nX\r") (by decide)).2.1, by decide⟩

end HttpRequest

end Lightning
