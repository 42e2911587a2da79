import Lightning.Proof.BodyPosition

/-!
# When the body arrives

The sockets are non-blocking and `PlainStream::read` throws when `recv` finds nothing, so `getBody`
gives the body only if at every call of `recv` something new of it is there until it is complete.
Two runs of the handler that both get the body cannot be told apart by the client: further calls of
`getBody` find nothing in either.
-/

namespace Lightning

/-- A socket of a peer that sends the segments and neither closes nor fails. -/
def peer (received : Bytes) (segments : List Bytes) (sends : List SendResult) (sent : Bytes) :
    Socket where
  received := received
  schedule := segments.map fun bytes => { bytes := bytes }
  sends := sends
  sent := sent

/-- What each call of `recv` finds when every call takes all there is. -/
def windows (received : Bytes) : List Bytes → List Bytes
  | [] => [received]
  | segment :: segments => (received ++ segment) :: segments

/-- Once a call of `recv` finds nothing, nothing is missing any more. -/
def NoPause (received : Bytes) (segments : List Bytes) : Prop :=
  (windows received segments).Pairwise fun earlier later => earlier = [] → later = []

/-- A way in which the bytes of a body arrive: read together with the head, in the receive buffer,
and what reaches that buffer before each of the next calls of `recv`. -/
structure Delivery (body : Bytes) where
  leftoverBuffer : Bytes
  received : Bytes
  segments : List Bytes
  whole : leftoverBuffer ++ received ++ segments.flatten = body

/-- The plain stream at the moment the handler starts. -/
def Delivery.stream {body : Bytes} (d : Delivery body) (sends : List SendResult) (sent : Bytes) :
    Stream where
  leftoverBuffer := d.leftoverBuffer
  socket := peer d.received d.segments sends sent

/-- The plain stream of a peer from which everything has been read. -/
def spent (segments : List Bytes) (sends : List SendResult) (sent : Bytes) : Stream where
  socket := peer [] segments sends sent

/-! ## The loop of `read` -/

section ReadLoop

variable {amount fuel : ℕ} {written received segment : Bytes} {segments : List Bytes}
  {sends : List SendResult} {sent : Bytes}

theorem peer_poll : (peer received (segment :: segments) sends sent).poll =
    peer (received ++ segment) segments sends sent := rfl

theorem mem_windows_of_flatten {w : Bytes} (h : w ∈ windows received segments) :
    ∀ b ∈ w, b ∈ received ++ segments.flatten := by
  intro b hb
  cases segments with
  | nil =>
    rw [windows, List.mem_singleton] at h
    subst h
    simp [hb]
  | cons segment segments =>
    rw [windows, List.mem_cons] at h
    obtain rfl | later := h
    · rw [List.flatten_cons, ← List.append_assoc]
      exact List.mem_append_left _ hb
    · simp only [List.flatten_cons, List.mem_append, List.mem_flatten]
      exact Or.inr (Or.inr ⟨w, later, hb⟩)

/-- Nothing pauses when nothing is missing. -/
theorem noPause_of_nil (empty : received ++ segments.flatten = []) : NoPause received segments := by
  apply List.pairwise_of_forall_mem_list
  intro w hw later hlater nothing
  apply List.eq_nil_iff_forall_not_mem.mpr
  intro b hb
  have := mem_windows_of_flatten hlater b hb
  rw [empty] at this
  exact List.not_mem_nil this

/-- A first window with bytes in it is no pause. -/
theorem noPause_cons_iff (some : received ++ segment ≠ []) :
    NoPause received (segment :: segments) ↔ NoPause [] segments := by
  unfold NoPause windows
  rw [List.pairwise_cons]
  cases segments with
  | nil => simp [some]
  | cons next segments => simp [some]

theorem not_noPause_of_nil (pause : received ++ segment = []) (missing : segments.flatten ≠ []) :
    ¬ NoPause received (segment :: segments) := by
  intro noPause
  obtain ⟨later, hlater, hne⟩ := List.flatten_ne_nil_iff.mp missing
  unfold NoPause windows at noPause
  rw [List.pairwise_cons] at noPause
  exact hne (noPause.1 later hlater pause)

/-- The loop ends at once when nothing is missing. -/
theorem readLoop_peer_of_nil (nothing : received ++ segments.flatten = [])
    (full : amount ≤ written.length) :
    PlainStream.readLoop amount fuel written (peer received segments sends sent) =
      (.ok (written ++ received ++ segments.flatten), peer [] segments sends sent) := by
  rw [PlainStream.readLoop_of_le full, zeroFilled_of_le full, List.append_assoc, nothing,
    List.append_nil, (List.append_eq_nil_iff.mp nothing).1]

/-- A call of `recv` that finds nothing makes the loop throw. -/
theorem readLoop_peer_of_pause (short : written.length < amount)
    (pause : received ++ segment = []) :
    PlainStream.readLoop amount (fuel + 1) written
        (peer received (segment :: segments) sends sent) =
      (.error (.lowLevelApi "recv() failed" EAGAIN EAGAIN), peer [] segments sends sent) := by
  have recv : (peer received (segment :: segments) sends sent).recv (amount - written.length) =
      (.fail EAGAIN, peer [] segments sends sent) := by
    simp only [Socket.recv, peer_poll, pause]
    rfl
  rw [PlainStream.readLoop, if_pos short, recv]

/-- A call of `recv` that finds something takes all of it when it is not more than is missing. -/
theorem readLoop_peer_of_window (short : written.length < amount)
    (some : received ++ segment ≠ [])
    (fits : (received ++ segment).length ≤ amount - written.length) :
    PlainStream.readLoop amount (fuel + 1) written
        (peer received (segment :: segments) sends sent) =
      PlainStream.readLoop amount fuel (written ++ (received ++ segment))
        (peer [] segments sends sent) := by
  have recv : (peer received (segment :: segments) sends sent).recv (amount - written.length) =
      (.data (received ++ segment), peer [] segments sends sent) := by
    have found : (peer received (segment :: segments) sends sent).poll.received ≠ [] := some
    rw [Socket.recv_of_ne found]
    show (Recv.data ((received ++ segment).take _),
      peer ((received ++ segment).drop _) segments sends sent) = _
    rw [List.take_of_length_le fits, List.drop_of_length_le fits]
  rw [PlainStream.readLoop_of_data short (congrArg Prod.fst recv), recv]

/-- The loop gives everything when the peer does not pause, and throws otherwise. -/
theorem readLoop_peer
    (total : written.length + received.length + segments.flatten.length = amount)
    (enough : amount - written.length < fuel) :
    (NoPause received segments ∧ ∃ rest, rest.flatten = [] ∧
        PlainStream.readLoop amount fuel written (peer received segments sends sent) =
          (.ok (written ++ received ++ segments.flatten), peer [] rest sends sent)) ∨
      (¬ NoPause received segments ∧ ∃ e,
        (PlainStream.readLoop amount fuel written (peer received segments sends sent)).1 =
          .error e) := by
  induction segments generalizing received written fuel with
  | nil =>
    left
    refine ⟨List.pairwise_singleton _ _, [], rfl, ?_⟩
    by_cases nothing : received = []
    · subst nothing
      exact readLoop_peer_of_nil rfl (by simp at total; omega)
    · have pos := List.length_pos_iff.mpr nothing
      simp only [List.flatten_nil, List.length_nil, List.append_nil] at total ⊢
      obtain ⟨fuel, rfl⟩ := Nat.exists_eq_succ_of_ne_zero (Nat.ne_of_gt (Nat.lt_of_le_of_lt
        (Nat.zero_le _) enough))
      rw [PlainStream.readLoop_of_le_received (by omega) (by show _ ≤ received.length; omega)]
      have all : received.length ≤ amount - written.length := by omega
      show (Except.ok (written ++ received.take _),
        peer (received.drop _ ++ []) [] sends sent) = _
      rw [List.take_of_length_le all, List.drop_of_length_le all, List.append_nil]
  | cons segment segments ih =>
    by_cases nothing : received ++ (segment :: segments).flatten = []
    · left
      have lengths := congrArg List.length nothing
      rw [List.length_append, List.length_nil] at lengths
      exact ⟨noPause_of_nil nothing, segment :: segments, (List.append_eq_nil_iff.mp nothing).2,
        readLoop_peer_of_nil nothing (by omega)⟩
    · have pos := List.length_pos_iff.mpr nothing
      obtain ⟨fuel, rfl⟩ := Nat.exists_eq_succ_of_ne_zero (Nat.ne_of_gt (Nat.lt_of_le_of_lt
        (Nat.zero_le _) enough))
      rw [List.length_append] at pos
      have short : written.length < amount := by omega
      simp only [List.flatten_cons, List.length_append] at total pos
      by_cases pause : received ++ segment = []
      · right
        have missing : segments.flatten ≠ [] := by
          intro none
          rw [List.flatten_cons, ← List.append_assoc, pause, none] at nothing
          exact nothing rfl
        exact ⟨not_noPause_of_nil pause missing, _, congrArg Prod.fst
          (readLoop_peer_of_pause short pause)⟩
      · have progress := List.length_pos_iff.mpr pause
        rw [List.length_append] at progress
        rw [noPause_cons_iff pause, readLoop_peer_of_window short pause
          (by rw [List.length_append]; omega)]
        have rest := @ih fuel (written ++ (received ++ segment)) []
          (by simp only [List.length_append, List.length_nil]; omega)
          (by simp only [List.length_append]; omega)
        simpa only [List.append_nil, List.append_assoc, List.flatten_cons] using rest

end ReadLoop

/-! ## `getBody` -/

section GetBody

variable {P : Platform} {request : HttpRequest} {body v : Bytes} {n : ℕ} {segments : List Bytes}
  {sends : List SendResult} {sent : Bytes} {p : Program}

def Delivery.NoPause (d : Delivery body) : Prop := Lightning.NoPause d.received d.segments

theorem read_delivery (d : Delivery body) :
    (d.NoPause ∧ ∃ rest, rest.flatten = [] ∧
        IStream.read P body.length (d.stream sends sent) = (.ok body, spent rest sends sent)) ∨
      (¬ d.NoPause ∧ ∃ e, (IStream.read P body.length (d.stream sends sent)).1 = .error e) := by
  obtain ⟨leftoverBuffer, received, segments, whole⟩ := d
  have total := congrArg List.length whole
  simp only [List.length_append] at total
  have front : leftoverBuffer.take body.length = leftoverBuffer :=
    List.take_of_length_le (by omega)
  have back : leftoverBuffer.drop body.length = [] := List.drop_of_length_le (by omega)
  have loop := @readLoop_peer body.length (body.length + 1) leftoverBuffer received segments sends
    sent total (by omega)
  rw [IStream.read_of_plain rfl, PlainStream.read_eq]
  simp only [Delivery.stream, front, back]
  obtain ⟨noPause, rest, empty, result⟩ | ⟨pause, e, thrown⟩ := loop
  · left
    refine ⟨noPause, rest, empty, ?_⟩
    rw [result, whole]
    rfl
  · exact Or.inr ⟨pause, e, thrown⟩

/-- A peer that sends nothing more makes `read` throw. -/
theorem read_spent (pos : 0 < n) (empty : segments.flatten = []) :
    IStream.read P n (spent segments sends sent) =
      (.error (.lowLevelApi "recv() failed" EAGAIN EAGAIN), spent segments.tail sends sent) := by
  rw [IStream.read_of_plain rfl, PlainStream.read_eq]
  cases segments with
  | nil =>
    have loop : PlainStream.readLoop n (n + 1) [] (peer [] [] sends sent) =
        (.error (.lowLevelApi "recv() failed" EAGAIN EAGAIN), peer [] [] sends sent) := by
      rw [PlainStream.readLoop, if_pos (by simpa using pos)]
      rfl
    simp only [spent, List.take_nil, List.drop_nil, loop, List.tail_nil]
  | cons segment segments =>
    have pause : [] ++ segment = [] := (List.append_eq_nil_iff.mp empty).1
    have loop := @readLoop_peer_of_pause n n [] [] segment segments sends sent pos pause
    simp only [spent, List.take_nil, List.drop_nil, loop, List.tail_cons]

/-- `getBody` gives the body if and only if its length fits an `int` and the peer does not pause. -/
theorem getBody_delivery_iff (d : Delivery body) (hasStream : request.stream = true)
    (header : request.getHeader (chars "Content-Length") = some v)
    (numeral : IsNumeral v body.length) (pos : 0 < body.length) :
    (request.getBody P (d.stream sends sent)).1 = .ok body ↔
      body.length < 2 ^ 31 ∧ d.NoPause := by
  rw [HttpRequest.getBody_result hasStream header numeral pos]
  split_ifs with small
  · obtain ⟨noPause, rest, -, result⟩ | ⟨pause, e, thrown⟩ := @read_delivery P body sends sent d
    · rw [result]
      exact iff_of_true rfl ⟨small, noPause⟩
    · rw [thrown]
      exact iff_of_false (fun given => by cases given) fun h => pause h.2
  · exact iff_of_false (fun given => by cases given) fun h => small h.1

/-- Resolvers see only what `read` gives. -/
theorem getBody_congr {s t : Stream} (hasStream : request.stream = true)
    (header : request.getHeader (chars "Content-Length") = some v) (numeral : IsNumeral v n)
    (same : (IStream.read P n s).1 = (IStream.read P n t).1) :
    (request.getBody P s).1 = (request.getBody P t).1 ∧
      (request.getBody P s).2.1 = (request.getBody P t).2.1 := by
  simp only [HttpRequest.getBody, hasStream, header, stoi_of_isNumeral numeral, Bool.true_eq_false,
    if_false]
  by_cases small : n < 2 ^ 31
  · simp only [small, if_true, Int.toNat_natCast]
    split_ifs
    · exact ⟨rfl, rfl⟩
    · rcases hs : IStream.read P n s with ⟨e | body, s'⟩ <;>
        rcases ht : IStream.read P n t with ⟨e' | body', t'⟩ <;>
        rw [hs, ht] at same <;> cases same <;> exact ⟨rfl, rfl⟩
  · simp only [small, if_false, and_self]

/-- On an exhausted peer a resolver behaves the same whatever the remaining schedule. -/
theorem run_spent (p : Program) (hasStream : request.stream = true)
    (header : request.getHeader (chars "Content-Length") = some v) (numeral : IsNumeral v n)
    (pos : 0 < n) (small : n < 2 ^ 31) {segments' : List Bytes} (empty : segments.flatten = [])
    (empty' : segments'.flatten = []) :
    (p.run P request (spent segments sends sent)).1 =
      (p.run P request (spent segments' sends sent)).1 := by
  induction p generalizing request segments segments' with
  | respond response => rfl
  | throwing e => rfl
  | getBody next ih =>
    obtain ⟨hasStream', header', after⟩ := @Program.getBody_next P request
      (spent segments sends sent) v n hasStream header numeral pos small
    obtain ⟨-, -, after'⟩ := @Program.getBody_next P request
      (spent segments' sends sent) v n hasStream header numeral pos small
    have read := @read_spent P n segments sends sent pos empty
    have read' := @read_spent P n segments' sends sent pos empty'
    obtain ⟨result, request'⟩ := @getBody_congr P request v n (spent segments sends sent)
      (spent segments' sends sent) hasStream header numeral (by rw [read, read'])
    have tail {segments : List Bytes} (h : segments.flatten = []) : segments.tail.flatten = [] := by
      rw [List.flatten_eq_nil_iff] at h ⊢
      exact fun l hl => h l (List.mem_of_mem_tail hl)
    simp only [Program.run]
    rw [after, after', read, read', ← result, ← request']
    exact ih _ hasStream' header' (tail empty) (tail empty')

/-- Two deliveries that both give the body cannot be told apart by a resolver. -/
theorem run_delivery (p : Program) (hasStream : request.stream = true)
    (header : request.getHeader (chars "Content-Length") = some v)
    (numeral : IsNumeral v body.length) (pos : 0 < body.length) (small : body.length < 2 ^ 31)
    {d d' : Delivery body} (noPause : d.NoPause) (noPause' : d'.NoPause) :
    (p.run P request (d.stream sends sent)).1 = (p.run P request (d'.stream sends sent)).1 := by
  cases p with
  | respond response => rfl
  | throwing e => rfl
  | getBody next =>
    obtain ⟨-, rest, empty, read⟩ | ⟨pause, -⟩ := @read_delivery P body sends sent d
    · obtain ⟨-, rest', empty', read'⟩ | ⟨pause, -⟩ := @read_delivery P body sends sent d'
      · obtain ⟨hasStream', header', after⟩ := @Program.getBody_next P request
          (d.stream sends sent) v body.length hasStream header numeral pos small
        obtain ⟨-, -, after'⟩ := @Program.getBody_next P request
          (d'.stream sends sent) v body.length hasStream header numeral pos small
        obtain ⟨result, request'⟩ := @getBody_congr P request v body.length (d.stream sends sent)
          (d'.stream sends sent) hasStream header numeral (by rw [read, read'])
        simp only [Program.run]
        rw [after, after', read, read', ← result, ← request']
        exact run_spent _ hasStream' header' numeral pos small empty empty'
      · exact absurd noPause' pause
    · exact absurd noPause pause

end GetBody

/-! ## The reply -/

namespace ClientRequestHandler

open HttpServer

variable {ρ : Type} [RegexEngine ρ] {P : Platform} {server : HttpServer ρ} {client : ClientId}
  {requestBuffer : Bytes} {request : HttpRequest} {keepAlive : Bool} {s t : Stream}
  {sends : List SendResult} {sent : Bytes}

/-- Two streams that agree on everything that concerns sending. -/
structure SameSending (s t : Stream) : Prop where
  transport : s.transport = t.transport
  sends : s.socket.sends = t.socket.sends
  sent : s.socket.sent = t.socket.sent

/-- What the client and the server see of a handler that has ended. -/
structure SameOutcome (o o' : HandlerOutcome) : Prop where
  enqueued : o.enqueued = o'.enqueued
  result : o.result = o'.result
  sent : o.stream.socket.sent = o'.stream.socket.sent

theorem writeAll_congr (bytes : Bytes) (h : SameSending s t) :
    (writeAll bytes s).1 = (writeAll bytes t).1 ∧
      SameSending (writeAll bytes s).2 (writeAll bytes t).2 := by
  obtain ⟨transport, leftover, ⟨received, fin, error, schedule, sends, sent⟩⟩ := s
  obtain ⟨transport', leftover', ⟨received', fin', error', schedule', sends', sent'⟩⟩ := t
  obtain ⟨h, h', h''⟩ := h
  dsimp only at h h' h''
  subst h h' h''
  rcases sends with _ | ⟨count | errno, sends⟩ <;> cases transport <;>
    exact ⟨rfl, rfl, rfl, rfl⟩

theorem writeAndReturn_congr (bytes : Bytes) (h : SameSending s t) :
    SameOutcome (writeAndReturn client bytes s) (writeAndReturn client bytes t) := by
  obtain ⟨result, after⟩ := writeAll_congr bytes h
  unfold writeAndReturn
  rcases hs : writeAll bytes s with ⟨e | count, s'⟩ <;>
    rcases ht : writeAll bytes t with ⟨e' | count', t'⟩ <;>
    rw [hs, ht] at result after <;> cases result <;> exact ⟨rfl, rfl, after.sent⟩

theorem respond_congr (h : SameSending s t)
    (same : (runRequestResolver P server request P.now s).1 =
      (runRequestResolver P server request P.now t).1) :
    (respond P server request keepAlive s).1 = (respond P server request keepAlive t).1 ∧
      SameSending (respond P server request keepAlive s).2
        (respond P server request keepAlive t).2 := by
  have ran : SameSending (runRequestResolver P server request P.now s).2
      (runRequestResolver P server request P.now t).2 := by
    refine ⟨?_, ?_, ?_⟩
    · rw [runRequestResolver_transport, runRequestResolver_transport, h.transport]
    · rw [runRequestResolver_sends, runRequestResolver_sends, h.sends]
    · rw [runRequestResolver_sent, runRequestResolver_sent, h.sent]
  cases returned : (runRequestResolver P server request P.now s).1 with
  | error e =>
    rw [respond_of_error returned, respond_of_error (same.symm.trans returned)]
    exact ⟨rfl, ran⟩
  | ok response =>
    rw [respond_of_ok returned, respond_of_ok (same.symm.trans returned)]
    obtain ⟨result, after⟩ := writeAll_congr (replyBytes P keepAlive response) ran
    exact ⟨congrArg (Except.map fun _ => ()) result, after⟩

/-- The handler cannot tell streams apart on which its resolver gives the same response. -/
theorem call_congr (h : SameSending s t)
    (same : ∀ request, HttpRequest.createRequest requestBuffer = some request →
      (runRequestResolver P server request P.now s).1 =
        (runRequestResolver P server request P.now t).1) :
    SameOutcome (call P server client requestBuffer s) (call P server client requestBuffer t) := by
  cases parsed : HttpRequest.createRequest requestBuffer with
  | none =>
    rw [call_of_malformed parsed, call_of_malformed parsed]
    exact writeAndReturn_congr _ h
  | some request =>
    obtain ⟨result, after⟩ := @respond_congr ρ _ P server request (wantsKeepAlive request) s t h
      (same request parsed)
    cases replied : (respond P server request (wantsKeepAlive request) s).1 with
    | error e =>
      rw [call_of_respond_error parsed replied,
        call_of_respond_error parsed (result.symm.trans replied)]
      exact writeAndReturn_congr _ after
    | ok done =>
      rw [call_of_respond_ok parsed replied, call_of_respond_ok parsed (result.symm.trans replied)]
      exact ⟨rfl, rfl, after.sent⟩

/-- In both runs `getBody` gives the body and the client gets the same reply, if and only if the
length of the body fits an `int` and neither delivery pauses. -/
theorem same_body_and_reply_iff {body v : Bytes}
    (parsed : HttpRequest.createRequest requestBuffer = some request)
    (header : request.getHeader (chars "Content-Length") = some v)
    (numeral : IsNumeral v body.length) (pos : 0 < body.length) (d d' : Delivery body) :
    ((request.setStream.getBody P (d.stream sends sent)).1 = .ok body ∧
        (request.setStream.getBody P (d'.stream sends sent)).1 = .ok body ∧
        SameOutcome (call P server client requestBuffer (d.stream sends sent))
          (call P server client requestBuffer (d'.stream sends sent))) ↔
      (body.length < 2 ^ 31 ∧ d.NoPause ∧ d'.NoPause) := by
  have gives (d : Delivery body) :
      (request.setStream.getBody P (d.stream sends sent)).1 = .ok body ↔
        body.length < 2 ^ 31 ∧ d.NoPause := getBody_delivery_iff d rfl header numeral pos
  rw [gives, gives]
  constructor
  · rintro ⟨⟨small, noPause⟩, ⟨-, noPause'⟩, -⟩
    exact ⟨small, noPause, noPause'⟩
  · rintro ⟨small, noPause, noPause'⟩
    refine ⟨⟨small, noPause⟩, ⟨small, noPause'⟩,
      call_congr ⟨rfl, rfl, rfl⟩ fun request' parsed' => ?_⟩
    obtain rfl : request = request' := Option.some.inj (parsed.symm.trans parsed')
    unfold runRequestResolver
    generalize (server.getResolver P request.method request.rawUri).getD (defaultResolver, []) =
      resolver
    dsimp only
    cases ready : prepareRequest ρ request resolver.2 P.now with
    | error e => rfl
    | ok prepared =>
      obtain ⟨hasStream, headers⟩ := prepareRequest_frame ready
      have header' := (HttpRequest.getHeader_congr _ headers).trans header
      exact run_delivery _ hasStream header' numeral pos small noPause noPause'

/-- The five bytes of the body arrive with the head. -/
def atOnce : Delivery (chars "hello") := ⟨chars "hello", [], [], rfl⟩

/-- The last three bytes arrive after the first `recv` of `getBody`. -/
def late : Delivery (chars "hello") := ⟨chars "he", [], [[], chars "llo"], rfl⟩

/-- The last three bytes are in the receive buffer when `getBody` is called. -/
def inBuffer : Delivery (chars "hello") := ⟨chars "he", chars "llo", [], rfl⟩

/-- A body that arrives in two pieces is read as one that arrives at once. -/
theorem same_body_and_reply_inBuffer :
    ∃ server, ∃ request : HttpRequest, emptyServer.post 5 (chars "/a") echo = some (.ok server) ∧
      (request.setStream.getBody Platform.newestFirst (inBuffer.stream [] [])).1 =
        .ok (chars "hello") ∧
      SameOutcome (call Platform.newestFirst server 0 postHead (atOnce.stream [] []))
        (call Platform.newestFirst server 0 postHead (inBuffer.stream [] [])) := by
  refine ⟨_, _, rfl, ((same_body_and_reply_iff rfl rfl isNumeral_five (by decide) atOnce
    inBuffer).mpr ⟨by decide, ?_, ?_⟩).2⟩
  · exact List.pairwise_singleton _ _
  · exact List.pairwise_singleton _ _

/-- When the rest of the body is late, `getBody` throws and the client gets another reply. -/
theorem late_body_differs :
    ∃ server, ∃ request : HttpRequest, emptyServer.post 5 (chars "/a") echo = some (.ok server) ∧
      HttpRequest.createRequest postHead = some request ∧
      request.getHeader (chars "Content-Length") = some (chars "5") ∧
      (request.setStream.getBody Platform.newestFirst (atOnce.stream [] [])).1 =
        .ok (chars "hello") ∧
      (request.setStream.getBody Platform.newestFirst (late.stream [] [])).1 =
        .error (.lowLevelApi "recv() failed" EAGAIN EAGAIN) ∧
      (call Platform.newestFirst server 0 postHead (atOnce.stream [] [])).stream.socket.sent =
        chars "HTTP/1.1 200 OK\r\nConnection:keep-alive\r\nContent-Length:5\r\n\r\nhello" ∧
      (call Platform.newestFirst server 0 postHead (late.stream [] [])).stream.socket.sent =
        chars "HTTP/1.1 500 InternalError\r\nContent-Length:0\r\n\r\n" :=
  ⟨_, _, rfl, rfl, rfl, rfl, rfl, by decide +kernel, by decide +kernel⟩

end ClientRequestHandler

end Lightning
