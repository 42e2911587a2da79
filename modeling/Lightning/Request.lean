import Lightning.Lib.Regex
import Lightning.Lib.Search
import Lightning.IStream

/-!
# Requests

The parser of a request head and `getBody`. Positions are `int`s in the source; a head has at most
`MAX_HEADER_BYTES` bytes, so they are natural numbers here, and `find` answers an `Option` where
the source compares with `npos`.
-/

namespace Lightning

open Search

structure FrameworkInfo where
  matchedRegex : Bytes
  requestArrivalTime : ℕ
  deriving DecidableEq, Repr

structure HttpRequest where
  method : Bytes
  rawUri : Bytes
  protocolVersion : Bytes
  uriParameters : List Bytes
  frameworkInfo : FrameworkInfo
  headers : HeadersMap
  /-- Whether the pointer to the stream of the client is set. -/
  stream : Bool
  bodyRead : Bool
  deriving DecidableEq

structure RequestLine where
  method : Bytes
  rawUri : Bytes
  protocolVersion : Bytes
  deriving DecidableEq, Repr

namespace HttpRequest

/-- The token that starts at `offset` and the position after its delimiter. -/
def getNextToken (line del : Bytes) (offset : ℕ) : Bytes × ℕ :=
  match findFrom del line offset with
  | none => (line.drop offset, line.length)
  | some index => ((line.drop offset).take (index - offset), index + del.length)

def parseRequestLine (requestLine : Bytes) : RequestLine :=
  let method := getNextToken requestLine (chars " ") 0
  let uri := getNextToken requestLine (chars " ") method.2
  let version := getNextToken requestLine (chars " ") uri.2
  ⟨method.1, uri.1, version.1⟩

/-- The `while` loop of `parseHeaders`. -/
def parseHeadersLoop (rawHeaders : Bytes) : ℕ → ℕ → HeadersMap → HeadersMap
  | 0, _, headersMap => headersMap
  | fuel + 1, offset, headersMap =>
      let header := getNextToken rawHeaders CRLF offset
      if header.1 = [] then headersMap
      else
        let key := getNextToken header.1 (chars ": ") 0
        let value := header.1.drop key.2
        parseHeadersLoop rawHeaders fuel header.2 (headersMap.emplace key.1 value)

/-- Every header is at least one byte long, which bounds the number of iterations. -/
def parseHeaders (rawHeaders : Bytes) : HeadersMap :=
  parseHeadersLoop rawHeaders (rawHeaders.length + 1) 0 ∅

def createRequest (request : Bytes) : Option HttpRequest :=
  match findFirst CRLF request with
  | none => none
  | some requestLineEnd =>
      let line := parseRequestLine (request.take requestLineEnd)
      let rawHeaders := request.drop (requestLineEnd + CRLF.length)
      some {
        method := line.method
        rawUri := line.rawUri
        protocolVersion := line.protocolVersion
        uriParameters := []
        frameworkInfo := ⟨[], 0⟩
        headers := parseHeaders rawHeaders
        stream := false
        bodyRead := false }

def getHeader (key : Bytes) (request : HttpRequest) : Option Bytes := request.headers.lookup key

def setStream (request : HttpRequest) : HttpRequest := { request with stream := true }

/-- `s` is the stream behind the pointer of the request. -/
def getBody (P : Platform) (request : HttpRequest) (s : Stream) :
    Except CppException Bytes × HttpRequest × Stream :=
  if request.stream = false then (.ok [], request, s)
  else
    match request.getHeader (chars "Content-Length") with
    | none => (.ok [], request, s)
    | some contentLengthHeader =>
        match stoi contentLengthHeader with
        | .error e => (.error e, request, s)
        | .ok contentLength =>
            if contentLength ≤ 0 then (.ok [], request, s)
            else
              match IStream.read P contentLength.toNat s with
              | (.error e, s) => (.error e, request, s)
              | (.ok body, s) => (.ok body, { request with bodyRead := true }, s)

/-- The `compute` of a capture group: both ends are turned into C strings. -/
def uriParameter (rawUri : Bytes) (capture : ℕ × ℕ) : Bytes :=
  let param := cStr (rawUri.drop capture.1)
  let postParam := cStr (rawUri.drop capture.2)
  if postParam.length ≠ 0 then param.drop ((findFirst postParam param).getD 0) else param

/-- The constructor of `std::regex` throws on a malformed expression. -/
def computeUriParameters (ρ : Type) [RegexEngine ρ] (request : HttpRequest) :
    Except CppException HttpRequest :=
  match (RegexEngine.compile request.frameworkInfo.matchedRegex : Option ρ) with
  | none => .error .regexError
  | some regex =>
      match RegexEngine.regexMatch regex request.rawUri with
      | none => .ok { request with uriParameters := [] }
      | some result =>
          .ok { request with uriParameters := result.map (uriParameter request.rawUri) }

def isBodyRead (request : HttpRequest) : Bool := request.bodyRead

/-! ## The parser consumes the header block -/

section Parser

variable {rawHeaders : Bytes} {offset : ℕ}

/-- The token and what follows it are where the delimiter says. -/
theorem getNextToken_bounds {line : Bytes} (del : Bytes) (h : offset ≤ line.length) :
    offset + (getNextToken line del offset).1.length ≤ (getNextToken line del offset).2 ∧
      (getNextToken line del offset).2 ≤ line.length := by
  unfold getNextToken
  rcases hfound : findFrom del line offset with _ | index
  · simp only [List.length_drop]
    omega
  · rw [findFrom, if_pos h, Option.map_eq_some_iff] at hfound
    obtain ⟨i, hi, rfl⟩ := hfound
    have := length_le_of_findFirst hi
    rw [List.length_drop] at this
    simp only [List.length_take, List.length_drop]
    omega

/-- The bound on the iterations is never used up. -/
theorem parseHeadersLoop_mono {fuel fuel' : ℕ} {headersMap : HeadersMap}
    (h : offset ≤ rawHeaders.length) (enough : rawHeaders.length - offset < fuel)
    (le : fuel ≤ fuel') :
    parseHeadersLoop rawHeaders fuel' offset headersMap =
      parseHeadersLoop rawHeaders fuel offset headersMap := by
  induction fuel generalizing fuel' offset headersMap with
  | zero => omega
  | succ fuel ih =>
    cases fuel' with
    | zero => omega
    | succ fuel' =>
      simp only [parseHeadersLoop]
      split_ifs with hempty
      · rfl
      · obtain ⟨progress, bound⟩ := getNextToken_bounds CRLF h
        have := List.length_pos_iff.mpr hempty
        exact ih bound (by omega) (by omega)

end Parser

/-- An accepted text is cut at its first line break. -/
theorem createRequest_eq_some {raw : Bytes} {request : HttpRequest}
    (h : createRequest raw = some request) :
    ∃ requestLineEnd, findFirst CRLF raw = some requestLineEnd ∧ request = {
      method := (parseRequestLine (raw.take requestLineEnd)).method
      rawUri := (parseRequestLine (raw.take requestLineEnd)).rawUri
      protocolVersion := (parseRequestLine (raw.take requestLineEnd)).protocolVersion
      uriParameters := []
      frameworkInfo := ⟨[], 0⟩
      headers := parseHeaders (raw.drop (requestLineEnd + CRLF.length))
      stream := false
      bodyRead := false } := by
  rw [createRequest] at h
  cases found : findFirst CRLF raw with
  | none =>
    rw [found] at h
    cases h
  | some requestLineEnd =>
    rw [found] at h
    exact ⟨requestLineEnd, rfl, (Option.some.inj h).symm⟩

/-! ## `getBody` -/

section GetBody

variable {P : Platform} {request : HttpRequest} {s : Stream} {v : Bytes} {n : ℕ}

/-- `getBody` reads as many bytes as `std::stoi` makes of the header. -/
theorem getBody_of_length (hasStream : request.stream = true)
    (header : request.getHeader (chars "Content-Length") = some v) (length : stoi v = .ok (n : ℤ))
    (pos : 0 < n) :
    (getBody P request s).1 = (IStream.read P n s).1 ∧
      (getBody P request s).2.2 = (IStream.read P n s).2 := by
  have nonneg : ¬ (n : ℤ) ≤ 0 := by omega
  simp only [getBody, hasStream, header, length, Bool.true_eq_false, if_false, if_neg nonneg,
    Int.toNat_natCast]
  rcases IStream.read P n s with ⟨e | body, s'⟩
  · exact ⟨rfl, rfl⟩
  · exact ⟨rfl, rfl⟩

/-- On a numeral `getBody` reads exactly so many bytes, or throws before it reads anything. -/
theorem getBody_stream (hasStream : request.stream = true)
    (header : request.getHeader (chars "Content-Length") = some v) (numeral : IsNumeral v n) :
    (getBody P request s).2.2 =
      if 0 < n ∧ n < 2 ^ 31 then (IStream.read P n s).2 else s := by
  have length := stoi_of_isNumeral numeral
  by_cases hn : n < 2 ^ 31
  · rw [if_pos hn] at length
    by_cases pos : 0 < n
    · rw [if_pos ⟨pos, hn⟩]
      exact (getBody_of_length hasStream header length pos).2
    · have zero : (n : ℤ) ≤ 0 := by omega
      simp only [getBody, hasStream, header, length, Bool.true_eq_false, if_false, if_pos zero, pos,
        false_and]
  · rw [if_neg hn] at length
    simp only [getBody, hasStream, header, length, Bool.true_eq_false, if_false, hn, and_false]

/-- What `getBody` gives on a numeral. -/
theorem getBody_result (hasStream : request.stream = true)
    (header : request.getHeader (chars "Content-Length") = some v) (numeral : IsNumeral v n)
    (pos : 0 < n) :
    (getBody P request s).1 =
      if n < 2 ^ 31 then (IStream.read P n s).1 else .error .outOfRange := by
  have length := stoi_of_isNumeral numeral
  by_cases hn : n < 2 ^ 31
  · rw [if_pos hn] at length ⊢
    exact (getBody_of_length hasStream header length pos).1
  · rw [if_neg hn] at length ⊢
    simp only [getBody, hasStream, header, length, Bool.true_eq_false, if_false]

theorem getHeader_congr {request' : HttpRequest} (key : Bytes)
    (headers : request.headers = request'.headers) :
    request.getHeader key = request'.getHeader key := by
  rw [getHeader, headers, getHeader]

/-- `getBody` changes nothing of the request that it looks at. -/
theorem getBody_request (P : Platform) (request : HttpRequest) (s : Stream) :
    (getBody P request s).2.1.stream = request.stream ∧
      (getBody P request s).2.1.headers = request.headers := by
  unfold getBody
  split_ifs
  · exact ⟨rfl, rfl⟩
  · rcases request.getHeader (chars "Content-Length") with _ | v
    · exact ⟨rfl, rfl⟩
    · dsimp only
      rcases stoi v with e | contentLength
      · exact ⟨rfl, rfl⟩
      · dsimp only
        split_ifs
        · exact ⟨rfl, rfl⟩
        · rcases IStream.read P contentLength.toNat s with ⟨_ | _, s'⟩ <;> exact ⟨rfl, rfl⟩

/-- Whatever the header says, `getBody` does nothing to the stream or one `read`. -/
theorem getBody_stream_cases (P : Platform) (request : HttpRequest) (s : Stream) :
    (getBody P request s).2.2 = s ∨
      ∃ amount, (getBody P request s).2.2 = (IStream.read P amount s).2 := by
  unfold getBody
  split_ifs
  · exact Or.inl rfl
  · rcases request.getHeader (chars "Content-Length") with _ | v
    · exact Or.inl rfl
    · dsimp only
      rcases stoi v with e | contentLength
      · exact Or.inl rfl
      · dsimp only
        split_ifs
        · exact Or.inl rfl
        · refine Or.inr ⟨contentLength.toNat, ?_⟩
          rcases IStream.read P contentLength.toNat s with ⟨_ | _, s'⟩ <;> rfl

end GetBody

end HttpRequest

end Lightning
