import Lightning.Response
import Mathlib.Data.List.Basic

/-!
# What a builder builds

The calls of a builder, and what each contributes to the body and to the headers other than
`Content-Length`. The last contribution stays (`build_spec`): the constructor of the response and
`withBody` write the same length, and nothing else writes a header that the caller did not ask for.
-/

namespace Lightning

inductive BuilderCall where
  | withStatusCode (statusCode : ℤ)
  | withStatusPhrase (statusPhrase : Bytes)
  | withHttpVersion (httpVersion : Bytes)
  | withHeader (key value : Bytes)
  | withBody (body : Bytes)
  | withStringBody (body : Bytes)
  | withJsonBody (json : Bytes)
  | withHtmlBody (html : Bytes)
  deriving DecidableEq, Repr

namespace BuilderCall

def apply (b : HttpResponseBuilder) : BuilderCall → HttpResponseBuilder
  | withStatusCode statusCode => b.withStatusCode statusCode
  | withStatusPhrase statusPhrase => b.withStatusPhrase statusPhrase
  | withHttpVersion httpVersion => b.withHttpVersion httpVersion
  | withHeader key value => b.withHeader key value
  | withBody body => b.withBody body
  | withStringBody body => b.withStringBody body
  | withJsonBody json => b.withJsonBody json
  | withHtmlBody html => b.withHtmlBody html

/-- The body that the call sets. -/
def body? : BuilderCall → Option Bytes
  | withBody body | withStringBody body | withJsonBody body | withHtmlBody body => some body
  | _ => none

/-- The headers that the call sets, except for the length of a body. -/
def writes : BuilderCall → List (Bytes × Bytes)
  | withHeader key value => [(key, value)]
  | withJsonBody _ => [(chars "Content-Type", chars "application/json")]
  | withHtmlBody _ => [(chars "Content-Type", chars "text/html")]
  | _ => []

/-- The body of the last call that sets one. -/
def lastBody (calls : List BuilderCall) : Bytes := ((calls.filterMap body?).getLast?).getD []

/-- The value of the last write for a key. -/
def lastValue (writes : List (Bytes × Bytes)) (key : Bytes) : Option Bytes :=
  (writes.reverse.find? fun write => write.1 = key).map Prod.snd

/-- A response from a builder, with headers that are set on it later. -/
def respond (calls : List BuilderCall) (headers : List (Bytes × Bytes)) : HttpResponse :=
  headers.foldl (fun response header => response.setHeader header.1 header.2)
    (calls.foldl apply HttpResponseBuilder.create).build

variable {b : HttpResponseBuilder} {calls : List BuilderCall} {headers : List (Bytes × Bytes)}
  {key : Bytes}

/-! ## The calls -/

theorem apply_body (b : HttpResponseBuilder) (call : BuilderCall) :
    (apply b call).body = call.body?.getD b.body := by
  cases call <;> rfl

/-- What a call does to the headers other than `Content-Length`. -/
theorem apply_lookup (other : key ≠ chars "Content-Length") (call : BuilderCall) :
    (apply b call).headers.lookup key = (lastValue call.writes key).or (b.headers.lookup key) := by
  have written (key' value : Bytes) :
      (b.headers.insertOrAssign key' value).lookup key =
        (lastValue [(key', value)] key).or (b.headers.lookup key) :=
    UnorderedMap.lookup_foldl_insertOrAssign [(key', value)]
  have length (m : HeadersMap) (value : Bytes) :
      (m.insertOrAssign (chars "Content-Length") value).lookup key = m.lookup key := by
    rw [UnorderedMap.lookup_insertOrAssign, if_neg other]
  cases call with
  | withStatusCode | withStatusPhrase | withHttpVersion => rfl
  | withHeader key' value => exact written key' value
  | withBody body => exact length b.headers _
  | withStringBody body => exact length b.headers _
  | withJsonBody json =>
    exact (length (b.withHeader _ _).headers _).trans (written _ _)
  | withHtmlBody html =>
    exact (length (b.withHeader _ _).headers _).trans (written _ _)

/-! ## Sequences of calls -/

theorem foldl_apply_body (b : HttpResponseBuilder) (calls : List BuilderCall) :
    (calls.foldl apply b).body = ((calls.filterMap body?).getLast?).getD b.body := by
  induction calls generalizing b with
  | nil => rfl
  | cons call calls ih =>
    rw [List.foldl_cons, ih, apply_body]
    cases body : call.body? with
    | none => rw [List.filterMap_cons_none body, Option.getD_none]
    | some body' =>
      rw [List.filterMap_cons_some body, List.getLast?_cons, Option.getD_some, Option.getD_some]

theorem lastValue_append (front back : List (Bytes × Bytes)) (key : Bytes) :
    lastValue (front ++ back) key = (lastValue back key).or (lastValue front key) := by
  rw [lastValue, List.reverse_append, List.find?_append, Option.map_or]
  rfl

theorem foldl_apply_lookup (other : key ≠ chars "Content-Length") (b : HttpResponseBuilder)
    (calls : List BuilderCall) :
    (calls.foldl apply b).headers.lookup key =
      (lastValue (calls.flatMap writes) key).or (b.headers.lookup key) := by
  induction calls generalizing b with
  | nil => rfl
  | cons call calls ih =>
    rw [List.foldl_cons, ih, apply_lookup other, List.flatMap_cons, lastValue_append,
      Option.or_assoc]

/-! ## The response -/

theorem foldl_setHeader (headers : List (Bytes × Bytes)) (response : HttpResponse) :
    headers.foldl (fun response header => response.setHeader header.1 header.2) response =
      { response with
        headers := headers.foldl (fun m header => m.insertOrAssign header.1 header.2)
          response.headers } := by
  induction headers generalizing response with
  | nil => rfl
  | cons header headers ih => exact ih _

theorem lastValue_eq_none (absent : ∀ header ∈ headers, header.1 ≠ key) :
    lastValue headers key = none := by
  rw [lastValue, Option.map_eq_none_iff, List.find?_eq_none]
  intro header member
  rw [decide_eq_true_eq]
  exact absent header (List.mem_reverse.mp member)

theorem respond_getHeader (calls : List BuilderCall) (headers : List (Bytes × Bytes))
    (key : Bytes) :
    (respond calls headers).getHeader key =
      (lastValue headers key).or
        ((calls.foldl apply HttpResponseBuilder.create).build.headers.lookup key) := by
  rw [respond, foldl_setHeader]
  exact UnorderedMap.lookup_foldl_insertOrAssign headers

/-- Body and length are those of the last call that sets a body, every other header is the last one
that was written. -/
theorem build_spec (calls : List BuilderCall)
    (others : ∀ header ∈ headers, header.1 ≠ chars "Content-Length") :
    (respond calls headers).body = lastBody calls ∧
      (respond calls headers).getHeader (chars "Content-Length") =
        some (toStringNat (lastBody calls).length) ∧
      ∀ key, key ≠ chars "Content-Length" →
        (respond calls headers).getHeader key =
          lastValue (calls.flatMap writes ++ headers) key := by
  have body : (calls.foldl apply HttpResponseBuilder.create).body = lastBody calls :=
    foldl_apply_body HttpResponseBuilder.create calls
  have constructed (key : Bytes) :
      (calls.foldl apply HttpResponseBuilder.create).build.headers.lookup key =
        if key = chars "Content-Length" then some (toStringNat (lastBody calls).length)
        else (calls.foldl apply HttpResponseBuilder.create).headers.lookup key := by
    rw [← body]
    exact UnorderedMap.lookup_insertOrAssign key
  refine ⟨?_, ?_, fun key other => ?_⟩
  · rw [respond, foldl_setHeader]
    exact body
  · rw [respond_getHeader, lastValue_eq_none others, Option.none_or, constructed, if_pos rfl]
  · rw [respond_getHeader, constructed, if_neg other, foldl_apply_lookup other, lastValue_append]
    exact congrArg _ (Option.or_none)

/-- A length of the caller's own and a type that a later body replaces. -/
theorem build_spec_json :
    (respond [.withHeader (chars "Content-Length") (chars "7"), .withHtmlBody (chars "a"),
        .withJsonBody (chars "{}")] [(chars "Connection", chars "close")]).body =
        lastBody [.withHeader (chars "Content-Length") (chars "7"), .withHtmlBody (chars "a"),
          .withJsonBody (chars "{}")] ∧
      (respond [.withHeader (chars "Content-Length") (chars "7"), .withHtmlBody (chars "a"),
        .withJsonBody (chars "{}")] [(chars "Connection", chars "close")]).getHeader
          (chars "Content-Length") = some (chars "2") := by
  obtain ⟨body, length, -⟩ := @build_spec [(chars "Connection", chars "close")]
    [.withHeader (chars "Content-Length") (chars "7"), .withHtmlBody (chars "a"),
      .withJsonBody (chars "{}")] (by decide)
  exact ⟨body, length⟩

end BuilderCall

end Lightning
