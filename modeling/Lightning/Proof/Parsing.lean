import Lightning.RequestTrace

/-!
# What the request parser computes

A header block is read line by line up to its first empty line (`headerLines`), and every line is
split at its first `": "`. Two results follow. A head that was cut off in front of its terminator
parses like the whole text exactly when its request line is followed by a header
(`createRequest_take_eq_iff`), and parsing undoes printing (`createRequest_encode`).
-/

namespace Lightning.HttpRequest

open Search

/-! ## Tokens -/

section Tokens

variable {line del a b : Bytes} {offset i : ℕ}

theorem getNextToken_of_none (line del : Bytes) (bound : offset ≤ line.length)
    (h : findFirst del (line.drop offset) = none) :
    getNextToken line del offset = (line.drop offset, line.length) := by
  rw [getNextToken, findFrom, if_pos bound, h, Option.map_none]

theorem getNextToken_of_some (bound : offset ≤ line.length)
    (h : findFirst del (line.drop offset) = some i) :
    getNextToken line del offset =
      ((line.drop offset).take i, offset + i + del.length) := by
  rw [getNextToken, findFrom, if_pos bound, h, Option.map_some]
  dsimp only
  rw [Nat.add_sub_cancel_left]

/-- A token that is followed by its delimiter. -/
theorem getNextToken_append (unbordered : Unbordered del) (absent : ¬ del <:+: a)
    (h : line.drop offset = a ++ del ++ b) (bound : offset ≤ line.length) :
    getNextToken line del offset = (a, offset + a.length + del.length) := by
  rw [getNextToken_of_some bound (i := a.length), h, List.append_assoc, List.take_left]
  rw [h]
  exact findFirst_append_self unbordered absent b

/-- A token is a part of the line, wherever it starts. -/
theorem infix_getNextToken (line del : Bytes) (offset : ℕ) :
    (getNextToken line del offset).1 <:+: line := by
  rw [getNextToken]
  cases findFrom del line offset with
  | none => exact (List.drop_suffix offset line).isInfix
  | some index => exact (List.take_prefix _ _).isInfix.trans (List.drop_suffix offset line).isInfix

theorem unbordered_CRLF : Unbordered CRLF := unbordered_pair (by decide)

theorem unbordered_space : Unbordered (chars " ") := unbordered_singleton _

theorem unbordered_colon : Unbordered (chars ": ") := unbordered_pair (by decide)

end Tokens

/-! ## The lines of a header block -/

/-- The lines in front of the first empty one. The last line need not be terminated. -/
def headerLines (rawHeaders : Bytes) : List Bytes :=
  match _h : findFirst CRLF rawHeaders with
  | none => if rawHeaders = [] then [] else [rawHeaders]
  | some 0 => []
  | some (i + 1) => rawHeaders.take (i + 1) :: headerLines (rawHeaders.drop (i + 1 + CRLF.length))
termination_by rawHeaders.length
decreasing_by
  have inside := length_le_of_findFirst _h
  have two : CRLF.length = 2 := rfl
  rw [List.length_drop]
  omega

/-- One iteration of `parseHeaders` on a line. -/
def insertHeader (headersMap : HeadersMap) (line : Bytes) : HeadersMap :=
  let key := getNextToken line (chars ": ") 0
  headersMap.emplace key.1 (line.drop key.2)

section Lines

variable {rawHeaders : Bytes} {i n : ℕ}

theorem headerLines_nil : headerLines [] = [] := by
  rw [headerLines]
  rfl

theorem headerLines_of_none (h : findFirst CRLF rawHeaders = none) (hne : rawHeaders ≠ []) :
    headerLines rawHeaders = [rawHeaders] := by
  rw [headerLines]
  split
  · exact if_neg hne
  all_goals simp_all

theorem headerLines_of_empty_line (h : findFirst CRLF rawHeaders = some 0) :
    headerLines rawHeaders = [] := by
  rw [headerLines]
  split <;> simp_all

theorem headerLines_of_line (h : findFirst CRLF rawHeaders = some i) (pos : 0 < i) :
    headerLines rawHeaders =
      rawHeaders.take i :: headerLines (rawHeaders.drop (i + CRLF.length)) := by
  obtain ⟨i, rfl⟩ := Nat.exists_eq_succ_of_ne_zero (Nat.ne_of_gt pos)
  rw [headerLines]
  split <;> simp_all

/-- The loop of `parseHeaders` inserts the lines one by one. -/
theorem parseHeadersLoop_eq {fuel offset : ℕ} {headersMap : HeadersMap}
    (bound : offset ≤ rawHeaders.length) (enough : rawHeaders.length - offset < fuel) :
    parseHeadersLoop rawHeaders fuel offset headersMap =
      (headerLines (rawHeaders.drop offset)).foldl insertHeader headersMap := by
  induction fuel generalizing offset headersMap with
  | zero => omega
  | succ fuel ih =>
    rw [parseHeadersLoop]
    cases found : findFirst CRLF (rawHeaders.drop offset) with
    | none =>
      rw [getNextToken_of_none _ _ bound found]
      dsimp only
      split_ifs with hempty
      · rw [hempty, headerLines_nil]
        rfl
      · have pos := List.length_pos_iff.mpr hempty
        rw [List.length_drop] at pos
        rw [headerLines_of_none found hempty, ih le_rfl (by omega), List.drop_length,
          headerLines_nil]
        rfl
    | some i =>
      have inside := length_le_of_findFirst found
      have two : CRLF.length = 2 := rfl
      rw [List.length_drop] at inside
      rw [getNextToken_of_some bound found]
      dsimp only
      rcases Nat.eq_zero_or_pos i with rfl | pos
      · rw [List.take_zero, if_pos rfl, headerLines_of_empty_line found]
        rfl
      · have nonempty : (rawHeaders.drop offset).take i ≠ [] := by
          apply List.ne_nil_of_length_pos
          rw [List.length_take, List.length_drop]
          omega
        rw [if_neg nonempty, headerLines_of_line found pos, List.foldl_cons,
          ih (by omega) (by omega), List.drop_drop, Nat.add_assoc]
        rfl

theorem parseHeaders_eq (rawHeaders : Bytes) :
    parseHeaders rawHeaders = (headerLines rawHeaders).foldl insertHeader ∅ :=
  @parseHeadersLoop_eq rawHeaders _ 0 _ (Nat.zero_le _) (by omega)

end Lines

/-! ## Framing and parsing -/

section Framing

variable {s rawHeaders : Bytes} {pos n : ℕ}

/-- A line break that begins in front of the terminator ends in front of it, or is its first
half. -/
theorem CRLF_before {q : ℕ} (h : findFirst DOUBLE_CRLF s = some pos)
    (found : findFirst CRLF s = some q) : q = pos ∨ q + CRLF.length ≤ pos := by
  obtain ⟨hi, hp, -⟩ := (findFirst_eq_some_iff _ _ _).mp h
  obtain ⟨-, hq, first⟩ := (findFirst_eq_some_iff _ _ _).mp found
  have two : CRLF.length = 2 := rfl
  have le : q ≤ pos := by
    by_contra gt
    exact first pos (Nat.lt_of_not_le gt) ((List.prefix_append CRLF CRLF).trans hp)
  by_contra neither
  obtain rfl : pos = q + 1 := by omega
  -- the byte at `pos` would be the LF of one and the CR of the other
  obtain ⟨rest, hrest⟩ := hq
  obtain ⟨rest', hrest'⟩ := hp
  have shifted : s.drop (q + 1) = 10 :: rest := by
    rw [← List.drop_drop, ← hrest]
    rfl
  rw [shifted] at hrest'
  cases hrest'

/-- Up to the terminator the lines of a header block do not depend on what follows. -/
theorem headerLines_take (h : findFirst DOUBLE_CRLF (CRLF ++ rawHeaders) = some (n + CRLF.length)) :
    headerLines (rawHeaders.take n) = headerLines rawHeaders := by
  induction hlen : rawHeaders.length using Nat.strong_induction_on generalizing rawHeaders n with
  | _ length ih =>
    have two : CRLF.length = 2 := rfl
    have terminator : findFirst DOUBLE_CRLF rawHeaders = some n := by
      have dropped := findFirst_drop h (Nat.le_add_left CRLF.length n)
      rwa [List.drop_left, Nat.add_sub_cancel] at dropped
    obtain ⟨-, -, first⟩ := (findFirst_eq_some_iff _ _ _).mp h
    obtain ⟨-, atEnd, -⟩ := (findFirst_eq_some_iff _ _ _).mp terminator
    have broken : CRLF <:+: rawHeaders :=
      ((List.prefix_append CRLF CRLF).trans atEnd).isInfix.trans (List.drop_suffix _ _).isInfix
    obtain ⟨i, found⟩ := Option.isSome_iff_exists.mp ((findFirst_isSome_iff _ _).mpr broken)
    have inside := length_le_of_findFirst terminator
    have four : DOUBLE_CRLF.length = 4 := rfl
    have pos : 0 < i := by
      by_contra zero
      obtain rfl : i = 0 := by omega
      obtain ⟨-, empty, -⟩ := (findFirst_eq_some_iff _ _ _).mp found
      exact first 0 (by omega) ((List.prefix_append_right_inj CRLF).mpr empty)
    rcases CRLF_before terminator found with rfl | before
    · -- the last line: it ends where the text was cut, and an empty line follows
      have cut : findFirst CRLF (rawHeaders.take i) = none :=
        findFirst_take_eq_none found (by omega)
      have last : findFirst CRLF (rawHeaders.drop (i + CRLF.length)) = some 0 := by
        refine (findFirst_eq_some_iff _ _ _).mpr ⟨Nat.zero_le _, ?_, by simp⟩
        obtain ⟨rest, hrest⟩ := atEnd
        rw [List.drop_zero, ← List.drop_drop, ← hrest, double_CRLF, List.append_assoc,
          List.drop_left]
        exact List.prefix_append _ _
      have nonempty : rawHeaders.take i ≠ [] := by
        apply List.ne_nil_of_length_pos
        rw [List.length_take]
        omega
      rw [headerLines_of_none cut nonempty, headerLines_of_line found pos,
        headerLines_of_empty_line last]
    · have kept := findFirst_take found before
      have next : findFirst DOUBLE_CRLF (CRLF ++ rawHeaders.drop (i + CRLF.length)) =
          some (n - (i + CRLF.length) + CRLF.length) := by
        obtain ⟨-, broken, -⟩ := (findFirst_eq_some_iff _ _ _).mp found
        obtain ⟨rest, hrest⟩ := broken
        have shifted := findFirst_drop terminator (k := i) (by omega)
        rw [← List.drop_drop, ← hrest, List.drop_left, hrest, shifted]
        congr 1
        omega
      rw [headerLines_of_line kept pos, headerLines_of_line found pos, List.take_take,
        Nat.min_eq_left (by omega), List.drop_take,
        ih _ (by rw [List.length_drop]; omega) next rfl]

theorem createRequest_take_iff (h : findFirst DOUBLE_CRLF s = some pos) :
    createRequest (s.take pos) = createRequest s ↔ CRLF <:+: s.take pos := by
  have two : CRLF.length = 2 := rfl
  obtain ⟨-, atEnd, -⟩ := (findFirst_eq_some_iff _ _ _).mp h
  have broken : CRLF <:+: s :=
    ((List.prefix_append CRLF CRLF).trans atEnd).isInfix.trans (List.drop_suffix _ _).isInfix
  obtain ⟨q, found⟩ := Option.isSome_iff_exists.mp ((findFirst_isSome_iff _ _).mpr broken)
  rw [← findFirst_isSome_iff]
  rcases CRLF_before h found with rfl | before
  · have cut : findFirst CRLF (s.take q) = none := findFirst_take_eq_none found (by omega)
    rw [cut, createRequest, createRequest, cut, found]
    exact iff_of_false (by simp) (by simp)
  · have kept := findFirst_take found before
    have rest : (s.take pos).drop (q + CRLF.length) =
        (s.drop (q + CRLF.length)).take (pos - (q + CRLF.length)) := List.drop_take ..
    have lines : headerLines ((s.take pos).drop (q + CRLF.length)) =
        headerLines (s.drop (q + CRLF.length)) := by
      rw [rest]
      apply headerLines_take
      obtain ⟨-, broken, -⟩ := (findFirst_eq_some_iff _ _ _).mp found
      obtain ⟨tail, htail⟩ := broken
      have shifted := findFirst_drop h (k := q) (by omega)
      rw [← List.drop_drop, ← htail, List.drop_left, htail, shifted]
      congr 1
      omega
    rw [kept, createRequest, createRequest, kept, found]
    simp only [parseHeaders_eq, lines, List.take_take, Nat.min_eq_left (by omega : q ≤ pos),
      Option.isSome_some]

/-- The head that the event loop hands over parses like the text it was cut from if and only if it
has a line break, which means at least one header field. -/
theorem createRequest_take_eq_iff (h : findFirst DOUBLE_CRLF s = some pos) :
    (createRequest (s.take pos) = createRequest s ↔ CRLF <:+: s.take pos) ∧
      (s.length < 2 ^ 31 →
        (createRequestInt (s.take pos) = createRequestInt s ↔ CRLF <:+: s.take pos)) := by
  refine ⟨createRequest_take_iff h, fun short => ?_⟩
  have shortHead : (s.take pos).length < 2 ^ 31 := (List.length_take_le' pos s).trans_lt short
  rw [createRequestInt_eq short, createRequestInt_eq shortHead, Option.some_inj]
  exact createRequest_take_iff h

/-- With one header field the head and the whole text parse alike. -/
theorem createRequest_take_eq_oneField :
    CRLF <:+: (chars "GET / HTTP/1.1\r\nA: b\r\n\r\n").take 20 ∧
      createRequest ((chars "GET / HTTP/1.1\r\nA: b\r\n\r\n").take 20) =
        createRequest (chars "GET / HTTP/1.1\r\nA: b\r\n\r\n") ∧
      createRequestInt ((chars "GET / HTTP/1.1\r\nA: b\r\n\r\n").take 20) =
        createRequestInt (chars "GET / HTTP/1.1\r\nA: b\r\n\r\n") := by
  have field : CRLF <:+: (chars "GET / HTTP/1.1\r\nA: b\r\n\r\n").take 20 := by decide
  obtain ⟨same, sameInt⟩ := @createRequest_take_eq_iff
    (chars "GET / HTTP/1.1\r\nA: b\r\n\r\n") 20 (by decide)
  exact ⟨field, same.mpr field, (sameInt (by decide)).mpr field⟩

/-- A head without header fields: the loop hands over a text without any line break. -/
theorem createRequest_take_ne :
    findFirst DOUBLE_CRLF (chars "GET / HTTP/1.1\r\n\r\n") = some 14 ∧
      createRequest ((chars "GET / HTTP/1.1\r\n\r\n").take 14) ≠
        createRequest (chars "GET / HTTP/1.1\r\n\r\n") := by
  decide

end Framing

/-! ## Parsing undoes printing -/

/-- A header as a client prints it, without its line break. -/
def headerLine (header : Bytes × Bytes) : Bytes := header.1 ++ chars ": " ++ header.2

/-- A request line and headers as a client prints them. -/
def encode (method uri version : Bytes) (headers : List (Bytes × Bytes)) : Bytes :=
  method ++ chars " " ++ uri ++ chars " " ++ version ++ CRLF ++
    headers.flatMap fun header => headerLine header ++ CRLF

/-- A part of the request line that can be read back. -/
structure IsWord (word : Bytes) : Prop where
  noSpace : ¬ chars " " <:+: word
  noBreak : ¬ CRLF <:+: word

/-- A header that can be read back. -/
structure IsHeader (header : Bytes × Bytes) : Prop where
  keyNoColon : ¬ chars ": " <:+: header.1
  keyNoBreak : ¬ CRLF <:+: header.1
  valueNoBreak : ¬ CRLF <:+: header.2

/-- The value that a list of headers gives to a key: that of the first with this key. -/
def firstValue (headers : List (Bytes × Bytes)) (key : Bytes) : Option Bytes :=
  (headers.find? fun header => header.1 = key).map Prod.snd

/-- The key and the value that the parser takes from a line. -/
def splitLine (line : Bytes) : Bytes × Bytes :=
  let key := getNextToken line (chars ": ") 0
  (key.1, line.drop key.2)

/-- The fields of a header block in their order. -/
def headerFields (rawHeaders : Bytes) : List (Bytes × Bytes) :=
  (headerLines rawHeaders).map splitLine

/-- The map that the parser builds answers with the first field of a key. -/
theorem lookup_parseHeaders (rawHeaders key : Bytes) :
    (parseHeaders rawHeaders).lookup key = firstValue (headerFields rawHeaders) key := by
  have fields : parseHeaders rawHeaders =
      (headerFields rawHeaders).foldl (fun m field => m.emplace field.1 field.2) ∅ := by
    rw [parseHeaders_eq, headerFields, List.foldl_map]
    rfl
  rw [fields, UnorderedMap.lookup_foldl_emplace_entries, AList.lookup_empty, Option.none_or,
    firstValue]

section Encode

variable {method uri version rest : Bytes} {header : Bytes × Bytes} {headers : List (Bytes × Bytes)}

theorem headerLine_noBreak (h : IsHeader header) : ¬ CRLF <:+: headerLine header := by
  have colon : headerLine header = header.1 ++ 58 :: ([] ++ 32 :: header.2) := by
    simp [headerLine, chars]
  rw [colon, infix_append_cons (by decide), infix_append_cons (by decide)]
  rintro (inKey | inNothing | inValue)
  · exact h.keyNoBreak inKey
  · exact absurd inNothing (by decide)
  · exact h.valueNoBreak inValue

theorem headerLine_ne_nil (header : Bytes × Bytes) : headerLine header ≠ [] := by
  simp [headerLine, chars]

theorem insertHeader_headerLine (h : IsHeader header) (headersMap : HeadersMap) :
    insertHeader headersMap (headerLine header) = headersMap.emplace header.1 header.2 := by
  have line : (headerLine header).drop 0 = header.1 ++ chars ": " ++ header.2 := rfl
  have token := getNextToken_append unbordered_colon h.keyNoColon line (Nat.zero_le _)
  have value : (headerLine header).drop (0 + header.1.length + (chars ": ").length) =
      header.2 := by
    rw [Nat.zero_add, ← List.length_append, headerLine, List.drop_left]
  rw [insertHeader, token]
  dsimp only
  rw [value]

/-- The lines that are read are those that were printed, whether or not an empty line ends them. -/
theorem headerLines_lines {lines : List Bytes} (filled : ∀ line ∈ lines, line ≠ [])
    (noBreak : ∀ line ∈ lines, ¬ CRLF <:+: line) (tail : rest = [] ∨ CRLF <+: rest) :
    headerLines ((lines.flatMap fun line => line ++ CRLF) ++ rest) = lines := by
  induction lines with
  | nil =>
    rw [List.flatMap_nil, List.nil_append]
    obtain rfl | ended := tail
    · exact headerLines_nil
    · apply headerLines_of_empty_line
      exact (findFirst_eq_some_iff _ _ _).mpr ⟨Nat.zero_le _, ended, by simp⟩
  | cons line lines ih =>
    obtain ⟨lineFilled, othersFilled⟩ := List.forall_mem_cons.mp filled
    obtain ⟨lineUnbroken, othersUnbroken⟩ := List.forall_mem_cons.mp noBreak
    have found := findFirst_append_self unbordered_CRLF lineUnbroken
      ((lines.flatMap fun line => line ++ CRLF) ++ rest)
    have pos := List.length_pos_iff.mpr lineFilled
    rw [List.flatMap_cons, List.append_assoc, headerLines_of_line found pos,
      ← List.length_append, List.drop_left, ih othersFilled othersUnbroken, List.append_assoc,
      List.take_left]

theorem headerLines_flatMap (clean : ∀ header ∈ headers, IsHeader header)
    (tail : rest = [] ∨ CRLF <+: rest) :
    headerLines ((headers.flatMap fun header => headerLine header ++ CRLF) ++ rest) =
      headers.map headerLine := by
  have filled : ∀ line ∈ headers.map headerLine, line ≠ [] := by
    intro line member
    obtain ⟨header, -, rfl⟩ := List.mem_map.mp member
    exact headerLine_ne_nil header
  have noBreak : ∀ line ∈ headers.map headerLine, ¬ CRLF <:+: line := by
    intro line member
    obtain ⟨header, present, rfl⟩ := List.mem_map.mp member
    exact headerLine_noBreak (clean header present)
  have lines := headerLines_lines filled noBreak tail
  rwa [List.flatMap_map] at lines

theorem parseHeaders_flatMap (clean : ∀ header ∈ headers, IsHeader header)
    (tail : rest = [] ∨ CRLF <+: rest) :
    parseHeaders ((headers.flatMap fun header => headerLine header ++ CRLF) ++ rest) =
      headers.foldl (fun m header => m.emplace header.1 header.2) ∅ := by
  rw [parseHeaders_eq, headerLines_flatMap clean tail, List.foldl_map]
  exact List.foldl_ext _ _ _ fun headersMap header member =>
    insertHeader_headerLine (clean header member) headersMap

theorem parseRequestLine_words (hmethod : IsWord method) (huri : IsWord uri)
    (hversion : IsWord version) :
    parseRequestLine (method ++ chars " " ++ uri ++ chars " " ++ version) =
      ⟨method, uri, version⟩ := by
  set line := method ++ chars " " ++ uri ++ chars " " ++ version with hline
  have one : (chars " ").length = 1 := rfl
  have length : line.length = method.length + 1 + uri.length + 1 + version.length := by
    simp only [hline, List.length_append, one]
  have afterMethod : line.drop (method.length + 1) = uri ++ chars " " ++ version := by
    rw [hline, List.append_assoc, List.append_assoc, List.append_assoc, ← List.append_assoc method,
      ← one, ← List.length_append, List.drop_left, List.append_assoc]
  have afterUri : line.drop (method.length + 1 + uri.length + 1) = version := by
    rw [Nat.add_assoc, ← List.drop_drop, afterMethod, ← one, ← List.length_append, List.drop_left]
  have atMethod : line.drop 0 = method ++ chars " " ++ (uri ++ chars " " ++ version) := by
    simp [hline]
  have first := getNextToken_append unbordered_space hmethod.noSpace atMethod (Nat.zero_le _)
  have second := getNextToken_append unbordered_space huri.noSpace afterMethod (by omega)
  have last : findFirst (chars " ") (line.drop (method.length + 1 + uri.length + 1)) = none := by
    rw [afterUri]
    exact (findFirst_eq_none_iff _ _).mpr hversion.noSpace
  have third := getNextToken_of_none line (chars " ") (by omega) last
  rw [one, Nat.zero_add] at first
  rw [one] at second
  simp only [parseRequestLine, first, second, third, afterUri]

theorem createRequest_encode_eq (hmethod : IsWord method) (huri : IsWord uri)
    (hversion : IsWord version) (clean : ∀ header ∈ headers, IsHeader header)
    (tail : rest = [] ∨ CRLF <+: rest) :
    createRequest (encode method uri version headers ++ rest) = some {
      method := method
      rawUri := uri
      protocolVersion := version
      uriParameters := []
      frameworkInfo := ⟨[], 0⟩
      headers := headers.foldl (fun m header => m.emplace header.1 header.2) ∅
      stream := false
      bodyRead := false } := by
  have words : method ++ chars " " ++ uri ++ chars " " ++ version =
      method ++ 32 :: (uri ++ 32 :: version) := by
    simp [chars]
  have noBreak : ¬ CRLF <:+: method ++ chars " " ++ uri ++ chars " " ++ version := by
    rw [words, infix_append_cons (by decide), infix_append_cons (by decide)]
    rintro (inMethod | inUri | inVersion)
    · exact hmethod.noBreak inMethod
    · exact huri.noBreak inUri
    · exact hversion.noBreak inVersion
  have found := findFirst_append_self unbordered_CRLF noBreak
    ((headers.flatMap fun header => headerLine header ++ CRLF) ++ rest)
  rw [createRequest, encode, List.append_assoc _ _ rest, found]
  dsimp only
  rw [← List.length_append, List.drop_left, parseHeaders_flatMap clean tail, List.append_assoc _ CRLF,
    List.take_left, parseRequestLine_words hmethod huri hversion]

/-- Parsing a printed request gives its parts back, and each header its first value. -/
theorem createRequest_encode (hmethod : IsWord method) (huri : IsWord uri)
    (hversion : IsWord version) (clean : ∀ header ∈ headers, IsHeader header)
    (tail : rest = [] ∨ CRLF <+: rest)
    (short : (encode method uri version headers ++ rest).length < 2 ^ 31) :
    ∃ request, createRequestInt (encode method uri version headers ++ rest) = some (some request) ∧
      request.method = method ∧ request.rawUri = uri ∧ request.protocolVersion = version ∧
      ∀ key, request.getHeader key = firstValue headers key := by
  refine ⟨_, by rw [createRequestInt_eq short,
    createRequest_encode_eq hmethod huri hversion clean tail], rfl, rfl, rfl, fun key => ?_⟩
  show AList.lookup key _ = _
  rw [UnorderedMap.lookup_foldl_emplace_entries, AList.lookup_empty, Option.none_or, firstValue]

/-- A request with a repeated header and a body. -/
theorem createRequest_encode_repeated :
    ∃ request, createRequestInt (encode (chars "GET") (chars "/a") (chars "HTTP/1.1")
        [(chars "Host", chars "x"), (chars "Host", chars "y")] ++ chars "\r\nbody") =
          some (some request) ∧
      request.method = chars "GET" ∧ request.rawUri = chars "/a" ∧
      request.protocolVersion = chars "HTTP/1.1" ∧
      ∀ key, request.getHeader key =
        firstValue [(chars "Host", chars "x"), (chars "Host", chars "y")] key :=
  createRequest_encode ⟨by decide, by decide +kernel⟩ ⟨by decide +kernel, by decide +kernel⟩
    ⟨by decide, by decide +kernel⟩
    (List.forall_mem_cons.mpr ⟨⟨by decide, by decide +kernel, by decide +kernel⟩,
      List.forall_mem_cons.mpr ⟨⟨by decide, by decide, by decide⟩, nofun⟩⟩)
    (Or.inr (by decide)) (by decide +kernel)

end Encode

end Lightning.HttpRequest
