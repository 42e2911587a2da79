import Lightning.ClientRequestHandler
import Lightning.Proof.Parsing

/-!
# The request line

`parseRequestLine` takes the first three of the tokens between the spaces of a line, with an empty
one for each that is missing, and drops the others (`parseRequestLine_eq`). Nothing in it can fail,
so `createRequest` refuses a text without a line break and no other: it enforces the grammar of a
request line only where the line already has it (`grammarEnforced_iff`).
-/

namespace Lightning.HttpRequest

open Search

/-! ## Tokens between spaces -/

/-- The `i`-th of the texts between the spaces of a line, empty past the last one. -/
def token (line : Bytes) (i : ℕ) : Bytes := (line.splitOn 32).getD i []

section Tokens

variable {line word rest : Bytes} {offset : ℕ}

theorem space : chars " " = [32] := by decide

theorem token_append_zero (noSpace : 32 ∉ word) (rest : Bytes) :
    token (word ++ 32 :: rest) 0 = word := by
  rw [token, List.splitOn_append_cons_self_of_not_mem noSpace, List.getD_cons_zero]

theorem token_append_succ (noSpace : 32 ∉ word) (rest : Bytes) (i : ℕ) :
    token (word ++ 32 :: rest) (i + 1) = token rest i := by
  rw [token, List.splitOn_append_cons_self_of_not_mem noSpace, List.getD_cons_succ, token]

/-- A line without spaces is its own first token, and has no other. -/
theorem token_of_noSpace (noSpace : 32 ∉ line) (i : ℕ) :
    token line i = if i = 0 then line else [] := by
  rw [token, List.splitOn_eq_singleton noSpace]
  cases i with
  | zero => rfl
  | succ i => rfl

/-- One call of `getNextToken` takes the first token off what is left of the line. -/
theorem getNextToken_space (bound : offset ≤ line.length) :
    (getNextToken line (chars " ") offset).1 = token (line.drop offset) 0 ∧
      ∀ i, token (line.drop (getNextToken line (chars " ") offset).2) i =
        token (line.drop offset) (i + 1) := by
  cases found : findFirst (chars " ") (line.drop offset) with
  | none =>
    have noSpace : 32 ∉ line.drop offset := by
      rwa [space, findFirst_eq_none_iff, List.singleton_infix_iff] at found
    rw [getNextToken_of_none line (chars " ") bound found, List.drop_length]
    refine ⟨(token_of_noSpace noSpace 0).symm, fun i => ?_⟩
    rw [token_of_noSpace noSpace, if_neg (Nat.succ_ne_zero i), token_of_noSpace List.not_mem_nil,
      ite_self]
  | some i =>
    rw [getNextToken_of_some bound found]
    rw [space] at found
    obtain ⟨word, rest, split, noSpace, rfl⟩ := findFirst_singleton_eq_some_iff.mp found
    have next : line.drop (offset + word.length + (chars " ").length) = rest := by
      rw [Nat.add_assoc, ← List.drop_drop, split, List.append_cons, ← space, ← List.length_append,
        List.drop_left]
    dsimp only
    rw [next, split, List.take_left]
    exact ⟨(token_append_zero noSpace rest).symm, fun i => (token_append_succ noSpace rest i).symm⟩

/-- The parts of a request line are its first three tokens, whatever else it has. -/
theorem parseRequestLine_eq (line : Bytes) :
    parseRequestLine line = ⟨token line 0, token line 1, token line 2⟩ := by
  have afterMethod := (getNextToken_bounds (chars " ") (Nat.zero_le line.length)).2
  have afterUri := (getNextToken_bounds (chars " ") afterMethod).2
  obtain ⟨method, rest⟩ := getNextToken_space (Nat.zero_le line.length)
  obtain ⟨uri, rest'⟩ := getNextToken_space afterMethod
  obtain ⟨version, -⟩ := getNextToken_space afterUri
  rw [parseRequestLine, version, rest', rest, uri, rest, method, List.drop_zero]

end Tokens

/-! ## The grammar -/

/-- A non-empty text without spaces. -/
structure IsToken (word : Bytes) : Prop where
  nonempty : word ≠ []
  noSpace : 32 ∉ word

/-- `Method SP Request-URI SP HTTP-Version`. -/
def IsRequestLine (line : Bytes) : Prop :=
  ∃ method uri version, line = method ++ chars " " ++ uri ++ chars " " ++ version ∧
    IsToken method ∧ IsToken uri ∧ IsToken version

/-- The text before the first line break. -/
def requestLine (request : Bytes) : Bytes :=
  request.take ((findFirst CRLF request).getD request.length)

/-- A request is accepted if and only if its request line has the form of the grammar, and is
answered as a bad request otherwise. -/
structure GrammarEnforced (request : Bytes) : Prop where
  accepted : (createRequest request).isSome ↔ IsRequestLine (requestLine request)
  badRequest : ¬ IsRequestLine (requestLine request) →
    ∀ (P : Platform) (server : HttpServer EcmaScript) (client : ClientId) (s : Stream),
      ClientRequestHandler.call P server client request s =
        ClientRequestHandler.writeAndReturn client (ClientRequestHandler.BAD_REQUEST_ERROR P) s

section Grammar

variable {line request : Bytes}

theorem splitOn_requestLine {method uri version : Bytes} (hmethod : 32 ∉ method) (huri : 32 ∉ uri)
    (hversion : 32 ∉ version) :
    (method ++ chars " " ++ uri ++ chars " " ++ version).splitOn 32 = [method, uri, version] := by
  have split : method ++ chars " " ++ uri ++ chars " " ++ version =
      method ++ 32 :: (uri ++ 32 :: version) := by
    simp [space]
  rw [split, List.splitOn_append_cons_self_of_not_mem hmethod,
    List.splitOn_append_cons_self_of_not_mem huri, List.splitOn_eq_singleton hversion]

/-- No text between two spaces holds a space. -/
theorem noSpace_of_mem_splitOn {word : Bytes} (h : word ∈ line.splitOn 32) : 32 ∉ word := by
  induction line generalizing word with
  | nil =>
    rw [List.splitOn_nil, List.mem_singleton] at h
    rw [h]
    exact List.not_mem_nil
  | cons b line ih =>
    rw [List.splitOn_cons_eq_if_modifyHead] at h
    split_ifs at h with isSpace
    · rw [List.mem_cons] at h
      obtain rfl | later := h
      · exact List.not_mem_nil
      · exact ih later
    · have other : 32 ≠ b := fun same => isSpace (by rw [same, beq_self_eq_true])
      cases words : line.splitOn 32 with
      | nil => exact absurd words (List.splitOn_ne_nil 32 line)
      | cons first words' =>
        rw [words, List.modifyHead_cons, List.mem_cons] at h
        obtain rfl | later := h
        · exact List.not_mem_cons_of_ne_of_not_mem other (ih (by rw [words]; exact .head _))
        · exact ih (by rw [words]; exact .tail _ later)

/-- The lines of the grammar are those with three texts between the spaces, none of them empty. -/
theorem isRequestLine_iff (line : Bytes) :
    IsRequestLine line ↔ (line.splitOn 32).length = 3 ∧ ∀ word ∈ line.splitOn 32, word ≠ [] := by
  constructor
  · rintro ⟨method, uri, version, rfl, hmethod, huri, hversion⟩
    rw [splitOn_requestLine hmethod.noSpace huri.noSpace hversion.noSpace]
    refine ⟨rfl, ?_⟩
    simp [hmethod.nonempty, huri.nonempty, hversion.nonempty]
  · rintro ⟨three, filled⟩
    obtain ⟨method, uri, version, words⟩ := List.length_eq_three.mp three
    have isToken (word) (h : word ∈ line.splitOn 32) : IsToken word :=
      ⟨filled word h, noSpace_of_mem_splitOn h⟩
    have whole : List.intercalate [32] (line.splitOn 32) = line := List.intercalate_splitOn 32
    rw [words] at whole isToken
    refine ⟨method, uri, version, ?_, isToken _ (by simp), isToken _ (by simp),
      isToken _ (by simp)⟩
    rw [← whole, space]
    simp [List.intercalate]

instance (line : Bytes) : Decidable (IsRequestLine line) :=
  decidable_of_iff _ (isRequestLine_iff line).symm

/-- The first line break decides alone whether a text is accepted. -/
theorem createRequest_isSome_iff (request : Bytes) :
    (createRequest request).isSome ↔ CRLF <:+: request := by
  rw [← findFirst_isSome_iff, createRequest]
  cases findFirst CRLF request with
  | none => exact Iff.rfl
  | some requestLineEnd => exact Iff.rfl

/-- Of a request line in the grammar the parser returns the three parts. -/
theorem createRequest_requestLine {parsed : HttpRequest} {method uri version : Bytes}
    (h : createRequest request = some parsed)
    (line : requestLine request = method ++ chars " " ++ uri ++ chars " " ++ version)
    (hmethod : IsToken method) (huri : IsToken uri) (hversion : IsToken version) :
    parsed.method = method ∧ parsed.rawUri = uri ∧ parsed.protocolVersion = version := by
  have words := splitOn_requestLine hmethod.noSpace huri.noSpace hversion.noSpace
  obtain ⟨requestLineEnd, found, rfl⟩ := createRequest_eq_some h
  rw [requestLine, found, Option.getD_some] at line
  rw [line, parseRequestLine_eq]
  simp only [token, words]
  exact ⟨rfl, rfl, rfl⟩

/-- Among the texts with a line break the grammar is enforced on those that satisfy it. -/
theorem grammarEnforced_iff (broken : CRLF <:+: request) :
    GrammarEnforced request ↔ IsRequestLine (requestLine request) := by
  have accepted := (createRequest_isSome_iff request).mpr broken
  constructor
  · intro enforced
    exact enforced.accepted.mp accepted
  · intro inGrammar
    exact ⟨iff_of_true accepted inGrammar, fun refused => absurd inGrammar refused⟩

theorem grammarEnforced_get :
    IsRequestLine (requestLine (chars "GET / HTTP/1.1\r\n\r\n")) ∧
      GrammarEnforced (chars "GET / HTTP/1.1\r\n\r\n") := by
  have inGrammar : IsRequestLine (requestLine (chars "GET / HTTP/1.1\r\n\r\n")) := by
    decide +kernel
  exact ⟨inGrammar, (grammarEnforced_iff (by decide +kernel)).mpr inGrammar⟩

/-- A line with one token, and a line with a fourth one. -/
theorem not_grammarEnforced :
    CRLF <:+: chars "GET\r\n\r\n" ∧ ¬ GrammarEnforced (chars "GET\r\n\r\n") ∧
      CRLF <:+: chars "GET / HTTP/1.1 x\r\n" ∧ ¬ GrammarEnforced (chars "GET / HTTP/1.1 x\r\n") := by
  have short : ¬ IsRequestLine (requestLine (chars "GET\r\n\r\n")) := by decide +kernel
  have long : ¬ IsRequestLine (requestLine (chars "GET / HTTP/1.1 x\r\n")) := by decide +kernel
  refine ⟨by decide +kernel, fun enforced => short ?_, by decide +kernel, fun enforced => long ?_⟩
  · exact enforced.accepted.mp (by decide +kernel)
  · exact enforced.accepted.mp (by decide +kernel)

end Grammar

end Lightning.HttpRequest
