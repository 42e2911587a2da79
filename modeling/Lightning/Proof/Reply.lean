import Lightning.ClientRequestHandler

/-!
# What the request handler does with the outcomes of `write`

There are three places where `ClientRequestHandler::operator()` writes: the 400 response, the
response of the resolver inside the `try` block, and the 500 response in its handler. Only the
second is protected by the `try` block, and none looks at the number of bytes written.
-/

namespace Lightning

namespace Socket

/-- The call of `send` after the next one fails. -/
def SecondSendFails (k : Socket) : Prop := ∃ errno, k.sends.tail.head? = some (.fails errno)

/-- The next call of `send` takes `size` bytes at once, as one system call and without an error. -/
def TakesAll (size : ℕ) (k : Socket) : Prop :=
  size ≤ MAX_RW_COUNT ∧
    (k.sends = [] ∨ ∃ count, size ≤ count ∧ k.sends.head? = some (.accepts count))

theorem takesAll_iff {size : ℕ} {k : Socket} (pos : 0 < size) :
    k.TakesAll size ↔ size ≤ MAX_RW_COUNT ∧ size ≤ k.accepted size := by
  unfold TakesAll accepted
  cases k.sends with
  | nil => simp
  | cons outcome rest =>
    cases outcome with
    | accepts count =>
      simp only [List.cons_ne_nil, List.head?_cons, Option.some.injEq, SendResult.accepts.injEq,
        exists_eq_right', false_or, Nat.le_min, Nat.le_refl, and_true]
    | fails errno => simp; omega

end Socket

namespace ClientRequestHandler

open HttpServer

variable {ρ : Type} [RegexEngine ρ] {P : Platform} {server : HttpServer ρ} {client : ClientId}
  {requestBuffer : Bytes} {request : HttpRequest} {keepAlive : Bool} {response : HttpResponse}
  {s : Stream}

/-- The head of a request that asks for a persistent connection. -/
def keepAliveHead : Bytes := chars "GET /a HTTP/1.1\r\nConnection: keep-alive"

/-! ## Every client comes back -/

/-- The handler ended normally and enqueued its client exactly once. -/
def ReturnsOnce (client : ClientId) (outcome : HandlerOutcome) : Prop :=
  outcome.result = .ok () ∧ ∃ keepAlive, outcome.enqueued = [⟨client, keepAlive⟩]

/-- The calls of `send` that the request leads to do not fail in the places without protection:
the only one of a malformed or failing request, the first two of a request that is answered. -/
def WritesSucceed (P : Platform) (server : HttpServer ρ) (requestBuffer : Bytes) (s : Stream) :
    Prop :=
  match HttpRequest.createRequest requestBuffer with
  | none => ¬ s.socket.SendFails
  | some request =>
      match (runRequestResolver P server request P.now s).1 with
      | .error _ => ¬ s.socket.SendFails
      | .ok _ => ¬ (s.socket.SendFails ∧ s.socket.SecondSendFails)

/-- The unprotected last write of an error path decides whether the client comes back. -/
theorem writeAndReturn_returnsOnce_iff (bytes : Bytes) (s : Stream) :
    ReturnsOnce client (writeAndReturn client bytes s) ↔ ¬ s.socket.SendFails := by
  rw [← @IStream.write_error_iff bytes (intOfSize bytes.length)]
  rcases hwrite : IStream.write bytes (intOfSize bytes.length) s with ⟨e | count, s'⟩
  · simp [writeAndReturn, writeAll, hwrite, ReturnsOnce]
  · simp [writeAndReturn, writeAll, hwrite, ReturnsOnce, signalReturn]

theorem respond_error_iff (h : (runRequestResolver P server request P.now s).1 = .ok response) :
    (∃ e, (respond P server request keepAlive s).1 = .error e) ↔ s.socket.SendFails := by
  have sends : s.socket.SendFails ↔
      (runRequestResolver P server request P.now s).2.socket.SendFails := by
    simp only [Socket.SendFails, runRequestResolver_sends]
  rw [respond_of_ok h, sends, ← @IStream.write_error_iff (replyBytes P keepAlive response)
    (intOfSize (replyBytes P keepAlive response).length), writeAll]
  cases (IStream.write (replyBytes P keepAlive response) _ _).1 with
  | error e => simp [Except.map]
  | ok count => simp [Except.map]

/-- After the write of the `try` block the next outcome of `send` is the second one. -/
theorem respond_sends (h : (runRequestResolver P server request P.now s).1 = .ok response) :
    (respond P server request keepAlive s).2.socket.sends = s.socket.sends.tail := by
  rw [respond_of_ok h, writeAll, IStream.write_sends, runRequestResolver_sends]

theorem respond_sends_of_error {e : CppException}
    (h : (runRequestResolver P server request P.now s).1 = .error e) :
    (respond P server request keepAlive s).2.socket.sends = s.socket.sends := by
  rw [respond_of_error h, runRequestResolver_sends]

/-- The handler returns its client exactly once, and lets no exception escape, if and only if the
unprotected writes succeed. -/
theorem call_returnsOnce_iff (P : Platform) (server : HttpServer ρ) (client : ClientId)
    (requestBuffer : Bytes) (s : Stream) :
    ReturnsOnce client (call P server client requestBuffer s) ↔
      WritesSucceed P server requestBuffer s := by
  unfold WritesSucceed
  cases parsed : HttpRequest.createRequest requestBuffer with
  | none =>
    rw [call_of_malformed parsed]
    exact writeAndReturn_returnsOnce_iff _ s
  | some request =>
    dsimp only
    cases ran : (runRequestResolver P server request P.now s).1 with
    | error e =>
      have thrown : (respond P server request (wantsKeepAlive request) s).1 = .error e := by
        rw [respond_of_error ran]
      rw [call_of_respond_error parsed thrown, writeAndReturn_returnsOnce_iff, Socket.SendFails,
        respond_sends_of_error ran]
      rfl
    | ok response =>
      have thrown_iff := @respond_error_iff ρ _ P server request (wantsKeepAlive request) response s
        ran
      cases replied : (respond P server request (wantsKeepAlive request) s).1 with
      | error e =>
        have first : s.socket.SendFails := thrown_iff.mp ⟨e, replied⟩
        rw [call_of_respond_error parsed replied, writeAndReturn_returnsOnce_iff, Socket.SendFails,
          respond_sends ran]
        simp only [first, true_and, Socket.SecondSendFails]
      | ok done =>
        have first : ¬ s.socket.SendFails := by
          rw [← thrown_iff, replied]
          rintro ⟨e, h⟩
          cases h
        rw [call_of_respond_ok parsed replied]
        simp only [first, false_and, not_false_eq_true, iff_true]
        exact ⟨rfl, wantsKeepAlive request, rfl⟩

/-- A full send buffer (`EAGAIN`) makes the 400 response fail, outside the `try` block. -/
theorem call_malformed_unsent :
    ¬ ReturnsOnce 0 (call Platform.newestFirst emptyServer 0
      (chars "GET / HTTP/1.1") { socket := { sends := [.fails 11] } }) := by
  rintro ⟨escaped, -⟩
  revert escaped
  decide

/-! ## A connection that is kept -/

theorem offered_length (bytes : Bytes) :
    (offered bytes (intOfSize bytes.length)).length ≤ bytes.length := by
  rw [offered, List.length_take]
  exact Nat.min_le_right _ _

/-- What `write` hands over is everything exactly when one call of `send` takes all of it. -/
theorem handed_over_iff {bytes : Bytes} (k : Socket) (pos : 0 < bytes.length) :
    (offered bytes (intOfSize bytes.length)).take
        (k.accepted (offered bytes (intOfSize bytes.length)).length) = bytes ↔
      k.TakesAll bytes.length := by
  rw [Socket.takesAll_iff pos]
  constructor
  · intro whole
    have lengths := congrArg List.length whole
    rw [List.length_take] at lengths
    have limit : (offered bytes (intOfSize bytes.length)).length ≤ MAX_RW_COUNT := by
      rw [offered, List.length_take]
      omega
    have full : (offered bytes (intOfSize bytes.length)).length = bytes.length := by
      have := offered_length bytes
      omega
    rw [full] at lengths limit
    omega
  · rintro ⟨limit, accepted⟩
    rw [offered_of_le limit]
    exact List.take_of_length_le accepted

theorem replyBytes_pos (P : Platform) (keepAlive : Bool) (response : HttpResponse) :
    0 < (replyBytes P keepAlive response).length := by
  simp only [replyBytes, HttpResponse.toHttpResponse, List.length_append]
  have : 0 < CRLF.length := by decide
  omega

/-- The bytes that are on the wire after the handler has returned the connection with
`keepAlive = true` contain the whole response if and only if the client did not ask to keep the
connection, the first `send` failed, or it took the response at once. -/
theorem kept_reply_complete_iff (plain : s.transport = .plain)
    (parsed : HttpRequest.createRequest requestBuffer = some request)
    (returned : (runRequestResolver P server request P.now s).1 = .ok response) :
    (⟨client, true⟩ ∈ (call P server client requestBuffer s).enqueued →
      (call P server client requestBuffer s).stream.socket.sent =
        s.socket.sent ++ replyBytes P true response) ↔
    (wantsKeepAlive request = false ∨ s.socket.SendFails ∨
      s.socket.TakesAll (replyBytes P true response).length) := by
  cases keep : wantsKeepAlive request with
  | false =>
    have notKept : ⟨client, true⟩ ∉ (call P server client requestBuffer s).enqueued := by
      cases replied : (respond P server request (wantsKeepAlive request) s).1 with
      | error e =>
        rw [call_of_respond_error parsed replied]
        exact writeAndReturn_not_kept _ _
      | ok done =>
        rw [call_of_respond_ok parsed replied, keep]
        simp [signalReturn]
    simp [notKept]
  | true =>
    simp only [Bool.true_eq_false, false_or]
    have thrown_iff := @respond_error_iff ρ _ P server request (wantsKeepAlive request) response s
      returned
    by_cases fails : s.socket.SendFails
    · obtain ⟨e, replied⟩ := thrown_iff.mpr fails
      simp only [fails, true_or, iff_true]
      intro kept
      rw [call_of_respond_error parsed replied] at kept
      exact absurd kept (writeAndReturn_not_kept _ _)
    · have sends : ¬ (runRequestResolver P server request P.now s).2.socket.SendFails := by
        rwa [Socket.SendFails, runRequestResolver_sends]
      have accepted (size : ℕ) :
          (runRequestResolver P server request P.now s).2.socket.accepted size =
            s.socket.accepted size := by
        rw [Socket.accepted, runRequestResolver_sends, Socket.accepted]
      cases replied : (respond P server request (wantsKeepAlive request) s).1 with
      | error e => exact absurd (thrown_iff.mp ⟨e, replied⟩) fails
      | ok done =>
        rw [call_of_respond_ok parsed replied, respond_of_ok returned, keep]
        simp only [signalReturn, List.mem_singleton, forall_const, fails, false_or]
        rw [writeAll, IStream.write_sent_of_plain (by rwa [runRequestResolver_transport]) sends,
          runRequestResolver_sent, accepted, List.append_right_inj,
          handed_over_iff _ (replyBytes_pos P true response)]

/-- A reply of the default resolver that the send buffer has room for. -/
theorem kept_reply_complete_notFound :
    let s : Stream := { socket := { sends := [.accepts 1000] } }
    let outcome := call Platform.newestFirst emptyServer 0 keepAliveHead s
    ∃ response, s.socket.TakesAll (replyBytes Platform.newestFirst true response).length ∧
      ⟨0, true⟩ ∈ outcome.enqueued ∧
      outcome.stream.socket.sent =
        s.socket.sent ++ replyBytes Platform.newestFirst true response := by
  have taken : ({ sends := [.accepts 1000] } : Socket).TakesAll
      (replyBytes Platform.newestFirst true ((HttpResponseBuilder.create.withStatusCode
        404).withStatusPhrase (chars "Not Found")).build).length :=
    ⟨by decide, Or.inr ⟨1000, by decide, rfl⟩⟩
  exact ⟨_, taken, by decide,
    (kept_reply_complete_iff rfl rfl rfl).mpr (Or.inr (Or.inr taken)) (by decide)⟩

/-- The send buffer has room for ten bytes: the connection is kept after ten bytes of the reply. -/
theorem kept_reply_cut :
    let s : Stream := { socket := { sends := [.accepts 10] } }
    let outcome := call Platform.newestFirst emptyServer 0 keepAliveHead s
    ∃ request response, HttpRequest.createRequest keepAliveHead = some request ∧
      (runRequestResolver Platform.newestFirst emptyServer request 0 s).1 = .ok response ∧
      ⟨0, true⟩ ∈ outcome.enqueued ∧
      outcome.stream.socket.sent = chars "HTTP/1.1 4" ∧
      outcome.stream.socket.sent ≠ replyBytes Platform.newestFirst true response :=
  ⟨_, _, rfl, rfl, by decide, by decide, by decide⟩

end ClientRequestHandler

end Lightning
