import Lightning.Request

/-!
# The parser of a request head, with its `int`s

`Request` counts positions in natural numbers. The sources keep them in `int`s: the result of
`find` is narrowed, compared with `npos` after widening it again, and used as an offset of an
iterator. Here every conversion is made; `none` stands for undefined behaviour, which is what a
negative or reversed range of iterators leads to. Below `2 ^ 31` bytes nothing is narrowed away, and
`RequestTrace` shows that the two parsers agree (`createRequestInt_eq`).
-/

namespace Lightning

open Search

namespace HttpRequest

/-- `std::string(str.begin() + first, str.begin() + last)`. -/
def range (str : Bytes) (first last : ℤ) : Option Bytes :=
  if 0 ≤ first ∧ first ≤ last ∧ last ≤ str.length then
    some ((str.drop first.toNat).take (last - first).toNat)
  else none

/-- `int index = line.find(del, offset)`; the narrowed `npos` is `-1`. -/
def findInt (del line : Bytes) (offset : ℤ) : ℤ :=
  match findFrom del line (sizeOfInt offset) with
  | none => -1
  | some index => intOfSize index

def getNextTokenInt (line del : Bytes) (offset : ℤ) : Option (Bytes × ℤ) :=
  let index := findInt del line offset
  if index = -1 then
    (range line offset line.length).map fun token => (token, intOfSize line.length)
  else
    (range line offset index).map fun token =>
      (token, intOfSize (sizeOfInt index + del.length))

def parseRequestLineInt (requestLine : Bytes) : Option RequestLine :=
  (getNextTokenInt requestLine (chars " ") 0).bind fun method =>
  (getNextTokenInt requestLine (chars " ") method.2).bind fun uri =>
  (getNextTokenInt requestLine (chars " ") uri.2).bind fun version =>
    some ⟨method.1, uri.1, version.1⟩

/-- The `while` loop of `parseHeaders`; past its bound it has not returned. -/
def parseHeadersLoopInt (rawHeaders : Bytes) : ℕ → ℤ → HeadersMap → Option HeadersMap
  | 0, _, _ => none
  | fuel + 1, offset, headersMap =>
      (getNextTokenInt rawHeaders CRLF offset).bind fun header =>
        if header.1 = [] then some headersMap
        else
          (getNextTokenInt header.1 (chars ": ") 0).bind fun key =>
          (range header.1 key.2 header.1.length).bind fun value =>
            parseHeadersLoopInt rawHeaders fuel header.2 (headersMap.emplace key.1 value)

def parseHeadersInt (rawHeaders : Bytes) : Option HeadersMap :=
  parseHeadersLoopInt rawHeaders (rawHeaders.length + 1) 0 ∅

def createRequestInt (request : Bytes) : Option (Option HttpRequest) :=
  let requestLineEnd := findInt CRLF request 0
  if requestLineEnd = -1 then some none
  else
    (range request 0 requestLineEnd).bind fun requestLine =>
    (parseRequestLineInt requestLine).bind fun line =>
    (range request (requestLineEnd + CRLF.length) request.length).bind fun rawHeaders =>
    (parseHeadersInt rawHeaders).bind fun headers =>
      some (some {
        method := line.method
        rawUri := line.rawUri
        protocolVersion := line.protocolVersion
        uriParameters := []
        frameworkInfo := ⟨[], 0⟩
        headers := headers
        stream := false
        bodyRead := false })

/-! ## Below `2 ^ 31` bytes -/

section Short

variable {line del : Bytes} {offset : ℕ}

theorem range_natCast {str : Bytes} {first last : ℕ} (le : first ≤ last) (bound : last ≤ str.length) :
    range str first last = some ((str.drop first).take (last - first)) := by
  rw [range, if_pos ⟨by omega, by omega, by omega⟩, Int.toNat_natCast, ← Nat.cast_sub le,
    Int.toNat_natCast]

theorem findInt_eq (line del : Bytes) {offset : ℕ} (h : offset < 2 ^ 31) :
    findInt del line offset = ((findFrom del line offset).map intOfSize).getD (-1) := by
  rw [findInt, sizeOfInt_natCast h]
  cases findFrom del line offset with
  | none => rw [Option.map_none, Option.getD_none]
  | some index => rw [Option.map_some, Option.getD_some]

theorem findFrom_bounds {index : ℕ} (h : findFrom del line offset = some index) :
    offset ≤ index ∧ index + del.length ≤ line.length := by
  unfold findFrom at h
  split_ifs at h with bound
  obtain ⟨i, hi, rfl⟩ := Option.map_eq_some_iff.mp h
  have inside := length_le_of_findFirst hi
  rw [List.length_drop] at inside
  omega

theorem getNextToken_length (del : Bytes) (h : offset ≤ line.length) :
    (getNextToken line del offset).1.length ≤ line.length := by
  have bounds := getNextToken_bounds del h
  omega

end Short

end HttpRequest

end Lightning
