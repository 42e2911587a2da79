import Lightning.HttpServer

/-!
# The request handler

`call` is `ClientRequestHandler::operator()`. Its outcome keeps what a caller can observe: the
stream it leaves, what it enqueued on the return channel, and whether an exception escaped.
-/

namespace Lightning

/-- A client is known by its number in the order of acceptance. -/
abbrev ClientId := ℕ

structure ReturnedConnection where
  client : ClientId
  keepAlive : Bool
  deriving DecidableEq, Repr

structure HandlerOutcome where
  stream : Stream
  enqueued : List ReturnedConnection
  result : Except CppException Unit

namespace ClientRequestHandler

def BAD_REQUEST_ERROR (P : Platform) : Bytes :=
  ((HttpResponseBuilder.create.withStatusCode 400).withStatusPhrase
    (chars "BadRequest")).build.toHttpResponse P

def INTERNAL_SERVER_ERROR (P : Platform) : Bytes :=
  ((HttpResponseBuilder.create.withStatusCode 500).withStatusPhrase
    (chars "InternalError")).build.toHttpResponse P

/-- `write(bytes.data(), bytes.size())`. -/
def writeAll (bytes : Bytes) (s : Stream) : Except CppException ℤ × Stream :=
  IStream.write bytes (intOfSize bytes.length) s

/-- Whether the client asks to keep the connection. -/
def wantsKeepAlive (request : HttpRequest) : Bool :=
  request.getHeader (chars "Connection") == some (chars "keep-alive")

/-- The header that `operator()` adds to the response of the resolver. -/
def setConnection (keepAlive : Bool) (response : HttpResponse) : HttpResponse :=
  response.setHeader (chars "Connection") (if keepAlive then chars "keep-alive" else chars "close")

variable {ρ : Type} [RegexEngine ρ]

/-- The request as the resolver gets it, or the exception of `computeUriParameters`. -/
def prepareRequest (ρ : Type) [RegexEngine ρ] (request : HttpRequest) (matchedRegex : Bytes)
    (requestArrivalTime : ℕ) : Except CppException HttpRequest :=
  (({ request with frameworkInfo := ⟨matchedRegex, requestArrivalTime⟩ } :
    HttpRequest).computeUriParameters ρ).map HttpRequest.setStream

def runRequestResolver (P : Platform) (server : HttpServer ρ) (request : HttpRequest)
    (requestArrivalTime : ℕ) (s : Stream) : Except CppException HttpResponse × Stream :=
  let resolver := (server.getResolver P request.method request.rawUri).getD
    (HttpServer.defaultResolver, [])
  match prepareRequest ρ request resolver.2 requestArrivalTime with
  | .error e => (.error e, s)
  | .ok request => (resolver.1 request).run P request s

/-- The `try` block: the response of the resolver is written with its `Connection` header. -/
def respond (P : Platform) (server : HttpServer ρ) (request : HttpRequest) (keepAlive : Bool)
    (s : Stream) : Except CppException Unit × Stream :=
  match runRequestResolver P server request P.now s with
  | (.error e, s) => (.error e, s)
  | (.ok response, s) =>
      let responseBytes := (setConnection keepAlive response).toHttpResponse P
      match writeAll responseBytes s with
      | (.error e, s) => (.error e, s)
      | (.ok _, s) => (.ok (), s)

/-- `signalReturn` as the last action. -/
def signalReturn (client : ClientId) (keepAlive : Bool) (s : Stream) : HandlerOutcome :=
  ⟨s, [⟨client, keepAlive⟩], .ok ()⟩

/-- Write an error response and give the connection up. An exception of this `write` escapes. -/
def writeAndReturn (client : ClientId) (bytes : Bytes) (s : Stream) : HandlerOutcome :=
  match writeAll bytes s with
  | (.error e, s) => ⟨s, [], .error e⟩
  | (.ok _, s) => signalReturn client false s

def call (P : Platform) (server : HttpServer ρ) (client : ClientId) (requestBuffer : Bytes)
    (s : Stream) : HandlerOutcome :=
  match HttpRequest.createRequest requestBuffer with
  | none => writeAndReturn client (BAD_REQUEST_ERROR P) s
  | some request =>
      let keepAlive := wantsKeepAlive request
      match respond P server request keepAlive s with
      | (.ok (), s) => signalReturn client keepAlive s
      | (.error _, s) => writeAndReturn client (INTERNAL_SERVER_ERROR P) s

/-! ## The request that the resolver gets -/

section Prepare

variable {request : HttpRequest} {matchedRegex : Bytes} {requestArrivalTime : ℕ}

theorem prepareRequest_of_none (h : (RegexEngine.compile matchedRegex : Option ρ) = none) :
    prepareRequest ρ request matchedRegex requestArrivalTime = .error .regexError := by
  simp only [prepareRequest, HttpRequest.computeUriParameters, h]
  rfl

/-- An expression that compiles lets the request through; the handler sets these fields only. -/
theorem prepareRequest_of_some {regex : ρ} (h : RegexEngine.compile matchedRegex = some regex) :
    prepareRequest ρ request matchedRegex requestArrivalTime =
      .ok { request with
        frameworkInfo := ⟨matchedRegex, requestArrivalTime⟩
        uriParameters := ((RegexEngine.regexMatch regex request.rawUri).map
          fun result => result.map (HttpRequest.uriParameter request.rawUri)).getD []
        stream := true } := by
  simp only [prepareRequest, HttpRequest.computeUriParameters, h]
  cases RegexEngine.regexMatch regex request.rawUri <;> rfl

end Prepare

/-! ## What the resolver leaves of the stream -/

variable {P : Platform} {server : HttpServer ρ} {request : HttpRequest} {arrival : ℕ} {s : Stream}

theorem runRequestResolver_stream :
    (runRequestResolver P server request arrival s).2 = s ∨
      ∃ (p : Program) (prepared : HttpRequest),
        (runRequestResolver P server request arrival s).2 = (p.run P prepared s).2 := by
  simp only [runRequestResolver]
  cases prepareRequest ρ request _ arrival with
  | error e => exact Or.inl rfl
  | ok prepared => exact Or.inr ⟨_, prepared, rfl⟩

@[simp] theorem runRequestResolver_sends :
    (runRequestResolver P server request arrival s).2.socket.sends = s.socket.sends := by
  obtain same | ⟨p, prepared, after⟩ := @runRequestResolver_stream ρ _ P server request arrival s
  · rw [same]
  · rw [after, Program.run_sends]

@[simp] theorem runRequestResolver_sent :
    (runRequestResolver P server request arrival s).2.socket.sent = s.socket.sent := by
  obtain same | ⟨p, prepared, after⟩ := @runRequestResolver_stream ρ _ P server request arrival s
  · rw [same]
  · rw [after, Program.run_sent]

@[simp] theorem runRequestResolver_transport :
    (runRequestResolver P server request arrival s).2.transport = s.transport := by
  obtain same | ⟨p, prepared, after⟩ := @runRequestResolver_stream ρ _ P server request arrival s
  · rw [same]
  · rw [after, Program.run_transport]

/-! ## The branches of the handler -/

section Branches

variable {client : ClientId} {requestBuffer : Bytes} {keepAlive : Bool} {e : CppException}
  {response : HttpResponse}

theorem respond_of_error (h : (runRequestResolver P server request P.now s).1 = .error e) :
    respond P server request keepAlive s =
      (.error e, (runRequestResolver P server request P.now s).2) := by
  rw [respond, show runRequestResolver P server request P.now s = (.error e, _) from Prod.ext h rfl]

/-- The bytes that the `try` block writes for a response. -/
def replyBytes (P : Platform) (keepAlive : Bool) (response : HttpResponse) : Bytes :=
  (setConnection keepAlive response).toHttpResponse P

theorem respond_of_ok (h : (runRequestResolver P server request P.now s).1 = .ok response) :
    respond P server request keepAlive s =
      ((writeAll (replyBytes P keepAlive response)
          (runRequestResolver P server request P.now s).2).1.map fun _ => (),
        (writeAll (replyBytes P keepAlive response)
          (runRequestResolver P server request P.now s).2).2) := by
  rw [respond, show runRequestResolver P server request P.now s = (.ok response, _) from
    Prod.ext h rfl]
  rcases hwrite : writeAll (replyBytes P keepAlive response) _ with ⟨e | count, s'⟩
  all_goals
    rw [replyBytes] at hwrite
    simp only [hwrite]
    rfl

theorem call_of_malformed (malformed : HttpRequest.createRequest requestBuffer = none) :
    call P server client requestBuffer s = writeAndReturn client (BAD_REQUEST_ERROR P) s := by
  rw [call, malformed]

theorem call_of_respond_ok (parsed : HttpRequest.createRequest requestBuffer = some request)
    (h : (respond P server request (wantsKeepAlive request) s).1 = .ok ()) :
    call P server client requestBuffer s =
      signalReturn client (wantsKeepAlive request)
        (respond P server request (wantsKeepAlive request) s).2 := by
  rw [call, parsed]
  dsimp only
  rw [show respond P server request (wantsKeepAlive request) s = (.ok (), _) from Prod.ext h rfl]

theorem call_of_respond_error (parsed : HttpRequest.createRequest requestBuffer = some request)
    (h : (respond P server request (wantsKeepAlive request) s).1 = .error e) :
    call P server client requestBuffer s =
      writeAndReturn client (INTERNAL_SERVER_ERROR P)
        (respond P server request (wantsKeepAlive request) s).2 := by
  rw [call, parsed]
  dsimp only
  rw [show respond P server request (wantsKeepAlive request) s = (.error e, _) from Prod.ext h rfl]

/-- The error paths give the connection up. -/
theorem writeAndReturn_not_kept (bytes : Bytes) (s : Stream) :
    ⟨client, true⟩ ∉ (writeAndReturn client bytes s).enqueued := by
  unfold writeAndReturn
  rcases writeAll bytes s with ⟨e | count, s'⟩ <;> simp [signalReturn]

/-- A handler that ends normally has enqueued its client once. -/
theorem call_enqueued (h : (call P server client requestBuffer s).result = .ok ()) :
    ∃ keepAlive, (call P server client requestBuffer s).enqueued = [⟨client, keepAlive⟩] := by
  have errorPath (bytes : Bytes) (t : Stream)
      (ended : (writeAndReturn client bytes t).result = .ok ()) :
      ∃ keepAlive, (writeAndReturn client bytes t).enqueued = [⟨client, keepAlive⟩] := by
    unfold writeAndReturn at ended ⊢
    rcases hwrite : writeAll bytes t with ⟨e | count, t'⟩
    · simp [hwrite] at ended
    · exact ⟨false, rfl⟩
  cases parsed : HttpRequest.createRequest requestBuffer with
  | none =>
    rw [call_of_malformed parsed] at h ⊢
    exact errorPath _ _ h
  | some request =>
    cases replied : (respond P server request (wantsKeepAlive request) s).1 with
    | error e =>
      rw [call_of_respond_error parsed replied] at h ⊢
      exact errorPath _ _ h
    | ok done =>
      rw [call_of_respond_ok parsed replied]
      exact ⟨wantsKeepAlive request, rfl⟩

theorem writeAndReturn_stream (bytes : Bytes) (s : Stream) :
    (writeAndReturn client bytes s).stream = (writeAll bytes s).2 := by
  unfold writeAndReturn
  rcases writeAll bytes s with ⟨e | count, s'⟩ <;> rfl

/-- What every `read` and every `write` keeps, the handler keeps. -/
theorem call_keeps {motive : Stream → Prop}
    (read : ∀ amount s, motive s → motive (IStream.read P amount s).2)
    (write : ∀ bytes s, motive s → motive (writeAll bytes s).2) (h : motive s) :
    motive (call P server client requestBuffer s).stream := by
  have resolved (request : HttpRequest) :
      motive (runRequestResolver P server request P.now s).2 := by
    obtain same | ⟨p, prepared, after⟩ := @runRequestResolver_stream ρ _ P server request P.now s
    · rwa [same]
    · rw [after]
      exact Program.run_keeps read p h
  have responded (request : HttpRequest) (keepAlive : Bool) :
      motive (respond P server request keepAlive s).2 := by
    cases result : (runRequestResolver P server request P.now s).1 with
    | error e =>
      rw [respond_of_error result]
      exact resolved request
    | ok response =>
      rw [respond_of_ok result]
      exact write _ _ (resolved request)
  cases parsed : HttpRequest.createRequest requestBuffer with
  | none =>
    rw [call_of_malformed parsed, writeAndReturn_stream]
    exact write _ _ h
  | some request =>
    cases replied : (respond P server request (wantsKeepAlive request) s).1 with
    | error e =>
      rw [call_of_respond_error parsed replied, writeAndReturn_stream]
      exact write _ _ (responded request _)
    | ok done =>
      rw [call_of_respond_ok parsed replied]
      exact responded request _

end Branches

end ClientRequestHandler

end Lightning
