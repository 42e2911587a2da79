import Lightning.ClientRequestHandler

/-!
# Where the next request starts

Nothing but `getBody` moves the position in a connection between two heads, and every call of it
reads `Content-Length` bytes again. So the position after a request is the end of its body when the
resolver has read the body once; without a call the body is left for the next head, and a second
call takes what follows the body unless nothing has arrived there.
-/

namespace Lightning

namespace Program

variable {P : Platform} {request : HttpRequest} {s : Stream} {v : Bytes} {n : ℕ}

/-- `getBody` on a request with a `Content-Length` that can be read. -/
theorem getBody_next (hasStream : request.stream = true)
    (header : request.getHeader (chars "Content-Length") = some v) (numeral : IsNumeral v n)
    (pos : 0 < n) (small : n < 2 ^ 31) :
    (request.getBody P s).2.1.stream = true ∧
      (request.getBody P s).2.1.getHeader (chars "Content-Length") = some v ∧
      (request.getBody P s).2.2 = (IStream.read P n s).2 := by
  obtain ⟨stream, headers⟩ := HttpRequest.getBody_request P request s
  refine ⟨stream.trans hasStream, (HttpRequest.getHeader_congr _ headers).trans header, ?_⟩
  rw [HttpRequest.getBody_stream hasStream header numeral, if_pos ⟨pos, small⟩]

/-- Nothing is unread and the next `count` calls of `recv` find nothing. -/
def Quiet (count : ℕ) (s : Stream) : Prop :=
  s.unread = [] ∧ ∀ a ∈ s.socket.schedule.take count, a.bytes = []

theorem dry_iff_quiet : IStream.Dry s ↔ Quiet 1 s := by
  rw [IStream.Dry, Quiet, Stream.unread, Socket.poll_received, Socket.arriving]
  simp only [List.append_eq_nil_iff, List.flatMap_eq_nil_iff, and_assoc]

theorem quiet_succ_iff {count : ℕ} :
    Quiet (count + 1) s ↔ Quiet 1 s ∧ ∀ a ∈ s.socket.schedule.tail.take count, a.bytes = [] := by
  unfold Quiet
  cases s.socket.schedule with
  | nil => simp
  | cons a schedule => simp [and_assoc]

theorem read_incoming_of_dry (pos : 0 < n) (dry : IStream.Dry s) :
    (IStream.read P n s).2.incoming = s.incoming := by
  obtain ⟨unread, schedule⟩ := IStream.read_of_dry (P := P) pos dry
  obtain ⟨empty, first⟩ := dry_iff_quiet.mp dry
  rw [Stream.incoming_eq, Stream.incoming_eq, unread, schedule, empty]
  cases hs : s.socket.schedule with
  | nil => rfl
  | cons a rest =>
    rw [hs] at first
    simp [first a (by simp)]

/-- A resolver takes nothing if and only if it does not call `getBody`, or all its calls find
nothing. -/
theorem run_incoming_eq_iff (p : Program) (hasStream : request.stream = true)
    (header : request.getHeader (chars "Content-Length") = some v) (numeral : IsNumeral v n)
    (pos : 0 < n) (small : n < 2 ^ 31) :
    (p.run P request s).2.incoming = s.incoming ↔
      p.reads P request s = 0 ∨ Quiet (p.reads P request s) s := by
  induction p generalizing request s with
  | respond response => exact iff_of_true rfl (Or.inl rfl)
  | throwing e => exact iff_of_true rfl (Or.inl rfl)
  | getBody next ih =>
    obtain ⟨hasStream', header', after⟩ := getBody_next (P := P) (s := s) hasStream header numeral
      pos small
    have rest := @ih (request.getBody P s).1 (request.getBody P s).2.1 (IStream.read P n s).2
      hasStream' header'
    show ((next (request.getBody P s).1).run P (request.getBody P s).2.1
        (request.getBody P s).2.2).2.incoming = s.incoming ↔
      (next (request.getBody P s).1).reads P (request.getBody P s).2.1
          (request.getBody P s).2.2 + 1 = 0 ∨
        Quiet ((next (request.getBody P s).1).reads P (request.getBody P s).2.1
          (request.getBody P s).2.2 + 1) s
    rw [after, quiet_succ_iff, ← dry_iff_quiet]
    by_cases dry : IStream.Dry s
    · obtain ⟨unread, schedule⟩ := IStream.read_of_dry (P := P) pos dry
      rw [← read_incoming_of_dry (P := P) pos dry, rest, Quiet, unread, schedule]
      cases (next (request.getBody P s).1).reads P (request.getBody P s).2.1
        (IStream.read P n s).2 with
      | zero => simp [dry]
      | succ count => simp [dry]
    · have shorter := IStream.read_length_lt (P := P) pos dry
      have suffix := (@run_suffix P (request.getBody P s).2.1 (IStream.read P n s).2
        (next (request.getBody P s).1)).length_le
      refine iff_of_false (fun same => ?_) (fun quiet => ?_)
      · rw [same] at suffix
        omega
      · obtain impossible | ⟨found, -⟩ := quiet
        · exact absurd impossible (Nat.succ_ne_zero _)
        · exact dry found

/-- `getBody` reads nothing when the length is zero or too large for an `int`. -/
theorem run_of_unreadable (p : Program) (hasStream : request.stream = true)
    (header : request.getHeader (chars "Content-Length") = some v) (numeral : IsNumeral v n)
    (unreadable : ¬ (0 < n ∧ n < 2 ^ 31)) : (p.run P request s).2 = s := by
  induction p generalizing request with
  | respond response => rfl
  | throwing e => rfl
  | getBody next ih =>
    obtain ⟨stream, headers⟩ := HttpRequest.getBody_request P request s
    have header' := (HttpRequest.getHeader_congr _ headers).trans header
    have same : (request.getBody P s).2.2 = s := by
      rw [HttpRequest.getBody_stream hasStream header numeral, if_neg unreadable]
    rw [run, same]
    exact ih (request.getBody P s).1 (stream.trans hasStream) header'

/-- Bytes that have arrived are not skipped by standing still. -/
theorem incoming_ne_drop (pos : 0 < n) (arrived : n ≤ s.unread.length) :
    s.incoming ≠ s.incoming.drop n := by
  intro same
  have lengths := congrArg List.length same
  rw [List.length_drop, Stream.incoming_eq, List.length_append] at lengths
  omega

/-- The calls of `getBody` take the `n` bytes of the body and nothing else: there is one call, or
the further calls find nothing behind the body. -/
def TakesBodyOnly (n calls : ℕ) (s : Stream) : Prop :=
  calls = 1 ∨
    (1 < calls ∧ s.unread.length = n ∧
      ∀ a ∈ s.socket.schedule.take (IStream.polls n s + (calls - 1)), a.bytes = [])

/-- After the first call the stream is quiet when only the body had arrived and nothing follows. -/
theorem quiet_read_iff {count : ℕ} (arrived : n ≤ s.unread.length) :
    Quiet count (IStream.read P n s).2 ↔
      s.unread.length = n ∧
        ∀ a ∈ s.socket.schedule.take (IStream.polls n s + count), a.bytes = [] := by
  obtain ⟨unread, schedule⟩ := IStream.read_of_le_unread (P := P) arrived
  rw [Quiet, unread, schedule, List.take_add, List.append_eq_nil_iff, List.drop_eq_nil_iff,
    List.flatMap_eq_nil_iff, and_assoc]
  simp only [List.mem_append, or_imp, forall_and]
  apply and_congr_left
  intro _
  omega

theorem run_incoming_eq_drop_iff (p : Program) (hasStream : request.stream = true)
    (header : request.getHeader (chars "Content-Length") = some v) (numeral : IsNumeral v n)
    (pos : 0 < n) (small : n < 2 ^ 31) (arrived : n ≤ s.unread.length) :
    (p.run P request s).2.incoming = s.incoming.drop n ↔
      TakesBodyOnly n (p.reads P request s) s := by
  have moved := incoming_ne_drop pos arrived
  cases p with
  | respond response => exact iff_of_false moved (by simp [TakesBodyOnly, reads])
  | throwing e => exact iff_of_false moved (by simp [TakesBodyOnly, reads])
  | getBody next =>
    obtain ⟨hasStream', header', after⟩ := getBody_next (P := P) (s := s) hasStream header numeral
      pos small
    have rest := @run_incoming_eq_iff P (request.getBody P s).2.1 (IStream.read P n s).2 v n
      (next (request.getBody P s).1) hasStream' header' numeral pos small
    rw [IStream.read_incoming_of_le_unread arrived, quiet_read_iff arrived] at rest
    simp only [run, reads, after, TakesBodyOnly, rest]
    cases (next (request.getBody P s).1).reads P (request.getBody P s).2.1
      (IStream.read P n s).2 with
    | zero => simp
    | succ count => simp

end Program

namespace ClientRequestHandler

open HttpServer

variable {ρ : Type} [RegexEngine ρ] {P : Platform} {server : HttpServer ρ} {client : ClientId}
  {requestBuffer : Bytes} {request prepared : HttpRequest} {arrival : ℕ} {s : Stream} {v : Bytes}
  {n : ℕ}

/-- How often the resolver of the request calls `getBody`. -/
def bodyReads (P : Platform) (server : HttpServer ρ) (request : HttpRequest)
    (requestArrivalTime : ℕ) (s : Stream) : ℕ :=
  let resolver := (server.getResolver P request.method request.rawUri).getD
    (HttpServer.defaultResolver, [])
  match prepareRequest ρ request resolver.2 requestArrivalTime with
  | .error _ => 0
  | .ok request => (resolver.1 request).reads P request s

/-- The resolver gets the headers as they were parsed, and a stream. -/
theorem prepareRequest_frame {matchedRegex : Bytes}
    (h : prepareRequest ρ request matchedRegex arrival = .ok prepared) :
    prepared.stream = true ∧ prepared.headers = request.headers := by
  cases compiled : (RegexEngine.compile matchedRegex : Option ρ) with
  | none =>
    rw [prepareRequest_of_none compiled] at h
    cases h
  | some regex =>
    rw [prepareRequest_of_some compiled] at h
    cases h
    exact ⟨rfl, rfl⟩

/-- A resolver that was run leaves the stream as its calls of `getBody` do. -/
theorem runRequestResolver_incoming_iff {response : HttpResponse}
    (returned : (runRequestResolver P server request arrival s).1 = .ok response)
    (header : request.getHeader (chars "Content-Length") = some v) (numeral : IsNumeral v n)
    (arrived : n ≤ s.unread.length) :
    (runRequestResolver P server request arrival s).2.incoming = s.incoming.drop n ↔
      n = 0 ∨ (n < 2 ^ 31 ∧
        Program.TakesBodyOnly n (bodyReads P server request arrival s) s) := by
  unfold runRequestResolver bodyReads at *
  generalize (server.getResolver P request.method request.rawUri).getD (defaultResolver, []) =
    resolver at *
  dsimp only at *
  cases ready : prepareRequest ρ request resolver.2 arrival with
  | error e =>
    rw [ready] at returned
    cases returned
  | ok prepared =>
    obtain ⟨hasStream, headers⟩ := prepareRequest_frame ready
    have header' := (HttpRequest.getHeader_congr _ headers).trans header
    dsimp only
    by_cases pos : 0 < n
    · by_cases small : n < 2 ^ 31
      · rw [Program.run_incoming_eq_drop_iff _ hasStream header' numeral pos small arrived]
        exact ⟨fun only => Or.inr ⟨small, only⟩, fun h => (h.resolve_left (Nat.ne_of_gt pos)).2⟩
      · rw [Program.run_of_unreadable _ hasStream header' numeral (by omega)]
        exact iff_of_false (Program.incoming_ne_drop pos arrived) (by omega)
    · rw [Program.run_of_unreadable _ hasStream header' numeral (by omega)]
      have zero : n = 0 := by omega
      exact iff_of_true (by rw [zero, List.drop_zero]) (Or.inl zero)

/-- A kept connection was answered with the response of the resolver. -/
theorem returned_of_kept (parsed : HttpRequest.createRequest requestBuffer = some request)
    (kept : ⟨client, true⟩ ∈ (call P server client requestBuffer s).enqueued) :
    (∃ response, (runRequestResolver P server request P.now s).1 = .ok response) ∧
      (call P server client requestBuffer s).stream.incoming =
        (runRequestResolver P server request P.now s).2.incoming := by
  cases replied : (respond P server request (wantsKeepAlive request) s).1 with
  | error e =>
    rw [call_of_respond_error parsed replied] at kept
    exact absurd kept (writeAndReturn_not_kept _ _)
  | ok done =>
    cases ran : (runRequestResolver P server request P.now s).1 with
    | error e =>
      rw [respond_of_error ran] at replied
      cases replied
    | ok response =>
      refine ⟨⟨response, rfl⟩, ?_⟩
      rw [call_of_respond_ok parsed replied, respond_of_ok ran]
      exact IStream.write_incoming

/-- When a connection is put back, the next unread byte is the one behind the body if and only if
the body is empty, or its length fits an `int` and the resolver took the body only. -/
theorem kept_position_iff (parsed : HttpRequest.createRequest requestBuffer = some request)
    (header : request.getHeader (chars "Content-Length") = some v) (numeral : IsNumeral v n)
    (arrived : n ≤ s.unread.length)
    (kept : ⟨client, true⟩ ∈ (call P server client requestBuffer s).enqueued) :
    (call P server client requestBuffer s).stream.incoming = s.incoming.drop n ↔
      n = 0 ∨ (n < 2 ^ 31 ∧ Program.TakesBodyOnly n (bodyReads P server request P.now s) s) := by
  obtain ⟨⟨response, returned⟩, same⟩ := returned_of_kept parsed kept
  rw [same]
  exact runRequestResolver_incoming_iff returned header numeral arrived

/-- The head of a request with a body of five bytes. -/
def postHead : Bytes := chars "POST /a HTTP/1.1\r\nConnection: keep-alive\r\nContent-Length: 5"

/-- Its body and the head of the next request, read together with the head. -/
def postStream : Stream := { leftoverBuffer := chars "helloGET /b HTTP/1.1\r\n\r\n" }

theorem isNumeral_five : IsNumeral (chars "5") 5 :=
  ⟨[], chars "5", [], rfl, by decide +kernel, by decide +kernel, by decide +kernel,
    by decide +kernel, rfl⟩

/-- A resolver that reads the body once and sends it back. -/
def echo : Resolver := fun _ => .getBody fun
  | .ok body => .respond (HttpResponseBuilder.create.withBody body).build
  | .error e => .throwing e

/-- The resolver reads the body, and the next head follows. -/
theorem kept_position_echo :
    ∃ server, emptyServer.post 5 (chars "/a") echo = some (.ok server) ∧
      (call Platform.newestFirst server 0 postHead postStream).stream.incoming =
        chars "GET /b HTTP/1.1\r\n\r\n" :=
  ⟨_, rfl, (kept_position_iff rfl rfl isNumeral_five (by decide) (by decide +kernel)).mpr
    (Or.inr ⟨by decide, Or.inl (by decide +kernel)⟩)⟩

/-- The default resolver does not read the body, which is left in front of the next head. -/
theorem kept_position_skipped :
    ∃ request, HttpRequest.createRequest postHead = some request ∧
      request.getHeader (chars "Content-Length") = some (chars "5") ∧
      5 ≤ postStream.unread.length ∧
      ⟨0, true⟩ ∈ (call Platform.newestFirst emptyServer 0 postHead postStream).enqueued ∧
      (call Platform.newestFirst emptyServer 0 postHead postStream).stream.incoming =
        chars "helloGET /b HTTP/1.1\r\n\r\n" ∧
      (call Platform.newestFirst emptyServer 0 postHead postStream).stream.incoming ≠
        postStream.incoming.drop 5 :=
  ⟨_, rfl, rfl, by decide, by decide +kernel, by decide +kernel, by decide +kernel⟩

end ClientRequestHandler

end Lightning
