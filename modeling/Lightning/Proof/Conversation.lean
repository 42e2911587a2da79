import Lightning.Proof.Answered
import Lightning.Proof.Closing

/-!
# Whole conversations

A client sends one head after the other, each when there is nothing left to do. A stream that is at
rest is known by its class and by what was sent on it (`Stream.idle`), and a handler leaves such a
stream at rest; so every reply is the one that a fresh connection would get for that head, and the
client is sent the replies in the order of its heads (`World.conversation`). The server can always
be brought to the end of a conversation by its own steps (`World.exists_conversation`).
-/

namespace Lightning

open Search Transition NonblockingClientManagerTask

/-- A stream with nothing to read on which everything that is written is accepted. -/
def Stream.idle (transport : Transport) (sent : Bytes) : Stream where
  transport := transport
  socket := { sent := sent }

theorem Stream.calm_idle (transport : Transport) (sent : Bytes) :
    (Stream.idle transport sent).Calm where
  socket := ⟨rfl, rfl, rfl, fun r member => absurd member List.not_mem_nil⟩
  short := by
    show 0 < MAX_HEADER_BYTES
    decide

theorem Stream.eq_idle {s : Stream} (unread : s.unread = []) (calm : s.socket.Calm)
    (sends : s.socket.sends = []) : s = .idle s.transport s.socket.sent := by
  obtain ⟨leftover, received⟩ := List.append_eq_nil_iff.mp unread
  obtain ⟨transport, leftoverBuffer, k⟩ := s
  obtain ⟨receivedK, fin, error, schedule, sendsK, sent⟩ := k
  obtain ⟨schedule, fin, error, -⟩ := calm
  simp_all [idle]

section Idle

variable {P : Platform} {amount : ℕ} {transport : Transport} {sent : Bytes} {request : HttpRequest}

/-- What is read does not depend on what was sent. -/
theorem IStream.read_idle : read P amount (.idle transport sent) =
    ((read P amount (.idle transport [])).1, .idle transport sent) := by
  cases transport <;> cases amount <;> rfl

theorem HttpRequest.getBody_idle : request.getBody P (.idle transport sent) =
    ((request.getBody P (.idle transport [])).1, (request.getBody P (.idle transport [])).2.1,
      .idle transport sent) := by
  unfold getBody
  split_ifs
  · rfl
  cases request.getHeader (chars "Content-Length") with
  | none => rfl
  | some length =>
    dsimp only
    cases stoi length with
    | error e => rfl
    | ok contentLength =>
      dsimp only
      split_ifs
      · rfl
      · have same := @IStream.read_idle P contentLength.toNat transport sent
        rw [same]
        rcases IStream.read P contentLength.toNat (.idle transport []) with ⟨_ | _, s⟩ <;> rfl

/-- A resolver gets the same answers from a stream at rest, and leaves it at rest. -/
theorem Program.run_idle (p : Program) : p.run P request (.idle transport sent) =
    ((p.run P request (.idle transport [])).1, .idle transport sent) := by
  induction p generalizing request with
  | respond response => rfl
  | throwing e => rfl
  | getBody next ih =>
    have fresh := @HttpRequest.getBody_idle P transport [] request
    have body := @HttpRequest.getBody_idle P transport sent request
    rw [run, run, body, fresh]
    exact ih _

/-- What it does to a stream at rest does not depend on what was sent before. -/
def Stream.Steady {α : Type} (transport : Transport) (f : Stream → α × Stream) : Prop :=
  ∃ result written, ∀ sent, f (.idle transport sent) = (result, .idle transport (sent ++ written))

end Idle

namespace ClientRequestHandler

variable {ρ : Type} [RegexEngine ρ] {P : Platform} {server : HttpServer ρ} {head : Bytes}
  {transport : Transport} {sent : Bytes} {request : HttpRequest}

theorem steady_writeAll (bytes : Bytes) : Stream.Steady transport (writeAll bytes) := by
  cases transport with
  | plain => exact ⟨_, _, fun sent => rfl⟩
  | ssl => exact ⟨_, _, fun sent => rfl⟩

theorem steady_run (p : Program) : Stream.Steady transport (p.run P request) := by
  refine ⟨(p.run P request (.idle transport [])).1, [], fun sent => ?_⟩
  rw [List.append_nil]
  exact p.run_idle

theorem steady_runRequestResolver {arrival : ℕ} :
    Stream.Steady transport (runRequestResolver P server request arrival) := by
  unfold runRequestResolver
  dsimp only
  cases prepareRequest ρ request _ arrival with
  | error e => exact ⟨.error e, [], fun sent => by rw [List.append_nil]⟩
  | ok prepared => exact steady_run _

theorem steady_respond {keepAlive : Bool} :
    Stream.Steady transport (respond P server request keepAlive) := by
  obtain ⟨result, before, resolved⟩ :=
    @steady_runRequestResolver ρ _ P server transport request P.now
  unfold Stream.Steady respond
  cases result with
  | error e =>
    refine ⟨.error e, before, fun sent => ?_⟩
    rw [resolved]
  | ok response =>
    obtain ⟨count, written, replied⟩ := @steady_writeAll transport
      ((setConnection keepAlive response).toHttpResponse P)
    cases count with
    | error e =>
      refine ⟨.error e, before ++ written, fun sent => ?_⟩
      rw [resolved]
      dsimp only
      rw [replied, List.append_assoc]
    | ok count =>
      refine ⟨.ok (), before ++ written, fun sent => ?_⟩
      rw [resolved]
      dsimp only
      rw [replied, List.append_assoc]

/-- What a handler sends to a fresh client of that class for that head. -/
def reply (P : Platform) (server : HttpServer ρ) (transport : Transport) (head : Bytes) : Bytes :=
  (call P server 0 head (.idle transport [])).stream.socket.sent

/-- A handler gives such a client back to be kept. -/
def Keeps (P : Platform) (server : HttpServer ρ) (transport : Transport) (head : Bytes) : Prop :=
  (call P server 0 head (.idle transport [])).enqueued = [⟨0, true⟩]

theorem steady_writeAndReturn (bytes : Bytes) :
    ∃ enqueued result written, ∀ sent, writeAndReturn 0 bytes (.idle transport sent) =
      ⟨.idle transport (sent ++ written), enqueued, result⟩ := by
  obtain ⟨count, written, replied⟩ := @steady_writeAll transport bytes
  unfold writeAndReturn
  cases count with
  | error e => exact ⟨[], .error e, written, fun sent => by rw [replied]⟩
  | ok count => exact ⟨[⟨0, false⟩], .ok (), written, fun sent => by rw [replied]; rfl⟩

theorem steady_call :
    ∃ enqueued result written, ∀ sent, call P server 0 head (.idle transport sent) =
      ⟨.idle transport (sent ++ written), enqueued, result⟩ := by
  unfold call
  cases HttpRequest.createRequest head with
  | none => exact steady_writeAndReturn (BAD_REQUEST_ERROR P)
  | some request =>
    obtain ⟨answer, first, responded⟩ :=
      @steady_respond ρ _ P server transport request (wantsKeepAlive request)
    dsimp only
    cases answer with
    | ok done =>
      exact ⟨[⟨0, wantsKeepAlive request⟩], .ok (), first, fun sent => by rw [responded]; rfl⟩
    | error e =>
      obtain ⟨enqueued, result, second, gaveUp⟩ :=
        @steady_writeAndReturn transport (INTERNAL_SERVER_ERROR P)
      refine ⟨enqueued, result, first ++ second, fun sent => ?_⟩
      rw [responded]
      dsimp only
      rw [gaveUp, List.append_assoc]

/-- On a stream at rest a handler does what it would do for a fresh client. -/
theorem call_idle : call P server 0 head (.idle transport sent) =
    { call P server 0 head (.idle transport []) with
      stream := .idle transport (sent ++ reply P server transport head) } := by
  obtain ⟨enqueued, result, written, called⟩ := @steady_call ρ _ P server head transport
  rw [reply, called, called]
  rfl

end ClientRequestHandler

namespace World

open ClientRequestHandler

variable {ρ : Type} [RegexEngine ρ] {P : Platform} {server : HttpServer ρ} {capacity : ℕ}
  {w₀ w w' : World} {c : ClientId} {heads : List Bytes}

theorem accepted_le {a : Action} (step : w.next P server capacity a = some w') :
    w.accepted ≤ w'.accepted := by
  have taken := takes_of_next step
  rcases accepted_of_takes taken with ⟨fd, transport, rfl⟩ | same
  · cases taken with
    | accept => exact Nat.le_succ _
  · exact same.ge

theorem known_of_run {as : List Action} (known : c < w.accepted)
    (hrun : run (next P server capacity) w as = some w') : c < w'.accepted := by
  induction as generalizing w with
  | nil =>
    obtain rfl : w = w' := Option.some.inj hrun
    exact known
  | cons a as ih =>
    obtain ⟨u, step, rest⟩ := Option.bind_eq_some_iff.mp hrun
    exact ih (known.trans_le (accepted_le step)) rest

/-- A client sends these heads, each in any pieces, and waits after each until there is nothing left
to do; all else that happens to it is what the server does. -/
inductive Conversation (P : Platform) (server : HttpServer ρ) (capacity : ℕ) (c : ClientId) :
    World → List Bytes → World → Prop
  | done (w : World) : Conversation P server capacity c w [] w
  | exchange {w u v : World} {head : Bytes} {heads : List Bytes} (as : List Action)
      (hrun : run (next P server capacity) w as = some u)
      (polite : ∀ a ∈ trace (next P server capacity) (project c) w as, a.Polite)
      (sent : Connection.arrivals (trace (next P server capacity) (project c) w as) =
        head ++ DOUBLE_CRLF)
      (quiet : Quiescent u) (rest : Conversation P server capacity c u heads v) :
      Conversation P server capacity c w (head :: heads) v

/-- One exchange with a client at rest. -/
theorem exchange (h : Reachable Initial (Step P server capacity) w₀) (known : c < w₀.accepted)
    {transport : Transport} {sent head : Bytes} (idle : w₀.stream c = .idle transport sent)
    (waits : w₀.stage c = .queued ∨ w₀.stage c = .watched) (isHead : Connection.IsHead head)
    {as : List Action} (hrun : run (next P server capacity) w₀ as = some w)
    (polite : ∀ a ∈ trace (next P server capacity) (project c) w₀ as, a.Polite)
    (arrived : Connection.arrivals (trace (next P server capacity) (project c) w₀ as) =
      head ++ DOUBLE_CRLF) (quiet : Quiescent w) :
    w.stream c = .idle transport (sent ++ reply P server transport head) ∧
      (Keeps P server transport head ∧ w.stage c = .watched ∨
        ¬ Keeps P server transport head ∧ w.stage c = .closed) := by
  have calm := (Stream.calm_idle transport sent).socket
  have begun : Connection.Exchange P server (.idle transport sent) head []
      ⟨w₀.stage c, w₀.stream c⟩ := by
    rw [idle]
    exact @Connection.Exchange.gathering ρ _ P server (.idle transport sent) head (w₀.stage c)
      [] [] waits (by decide)
  obtain ⟨keepAlive, enqueued, stage, stream⟩ :=
    answered_of_exchange h known rfl calm isHead begun hrun polite arrived quiet.toIdle
      fun fd tracked _ => (quiet.silent fd c tracked).received
  rw [call_idle] at enqueued stream
  refine ⟨stream, ?_⟩
  cases keepAlive with
  | true => exact Or.inl ⟨enqueued, stage⟩
  | false =>
    refine Or.inr ⟨fun keeps => ?_, stage⟩
    have other := keeps.symm.trans enqueued
    simp at other

/-- All clients are plain. -/
def AllPlain (w : World) : Prop := ∀ c < w.accepted, (w.stream c).transport = .plain

theorem AllPlain.of_internal {as : List Action} (h : AllPlain w)
    (all : ∀ a ∈ as, a.internal = true) (hrun : run (next P server capacity) w as = some w') :
    AllPlain w' := by
  induction as generalizing w with
  | nil =>
    obtain rfl : w = w' := Option.some.inj hrun
    exact h
  | cons a as ih =>
    obtain ⟨u, step, rest⟩ := Option.bind_eq_some_iff.mp hrun
    refine ih (fun c known => ?_) (fun b member => all b (List.mem_cons_of_mem a member)) rest
    obtain ⟨fd, transport, rfl⟩ | same := accepted_of_takes (takes_of_next step)
    · cases all _ List.mem_cons_self
    · rw [same] at known
      rw [next_transport known step]
      exact h c known

/-- The head of a calm client arrives, and the server goes on by itself until nothing is left. -/
theorem exists_exchange (pos : 0 < capacity) (workers : 0 < server.threadCount)
    (h : Undisturbed P server capacity w₀) (plain : AllPlain w₀) (noHangup : NoHangup w₀)
    (known : c < w₀.accepted) {transport : Transport} {sent head : Bytes}
    (idle : w₀.stream c = .idle transport sent) (short : head.length + 4 < MAX_HEADER_BYTES) :
    ∃ as u, run (next P server capacity) w₀ as = some u ∧
      (∀ a ∈ trace (next P server capacity) (project c) w₀ as, a.Polite) ∧
      Connection.arrivals (trace (next P server capacity) (project c) w₀ as) =
        head ++ DOUBLE_CRLF ∧
      Quiescent u ∧ Undisturbed P server capacity u ∧ AllPlain u := by
  let arrival : Arrival := ⟨head ++ DOUBLE_CRLF, false, none⟩
  let w₁ := w₀.setSocket c ((w₀.stream c).socket.arrive arrival)
  have runs : w₀.newFdChannel.reader ≠ .returned := by
    intro returned
    have closed := ((FdChannel.inv_reachable pos
      (newFdChannel_reachable h.reachable)).returned returned).1
    rw [h.isOpen] at closed
    cases closed
  have step : w₀.next P server capacity (.arrive c arrival) = some w₁ := by
    simp [World.next, known, runs, w₁]
  have calm : w₁.Calm := by
    apply calm_setStream h.calm
    have socket := (Stream.calm_idle transport sent).socket
    rw [idle]
    refine ⟨⟨socket.schedule, socket.fin, socket.error, socket.sends⟩, ?_⟩
    show (head ++ DOUBLE_CRLF).length < MAX_HEADER_BYTES
    rw [List.length_append]
    exact short
  have h₁ : Undisturbed P server capacity w₁ := ⟨h.reachable.next step, h.isOpen, calm⟩
  obtain ⟨as, u, all, hrun, stuck⟩ := lowers_work.exists_settled h₁
  have h₂ := lowers_work.run_keeps h₁ all hrun
  have plain₁ : AllPlain w₁ := by
    intro d isKnown
    have kept : (w₁.stream d).transport = (w₀.stream d).transport := next_transport isKnown step
    exact kept.trans (plain d isKnown)
  have plain₂ := plain₁.of_internal all hrun
  have quiet : Quiescent u := (h₂.settled_of_stuck pos workers stuck).quiescent fun fd d tracked =>
    plain₂ d ((ownershipInv_reachable h₂.reachable).tracked tracked).1
  obtain ⟨later, nothing⟩ := @trace_of_internal ρ _ P server capacity w₁ u c as noHangup all hrun
  have traced : trace (next P server capacity) (project c) w₀ (.arrive c arrival :: as) =
      .arrive arrival :: trace (next P server capacity) (project c) w₁ as := by
    rw [trace, step]
    simp [project]
  refine ⟨.arrive c arrival :: as, u, ?_, ?_, ?_, quiet, h₂, plain₂⟩
  · rw [run, step]
    exact hrun
  · rw [traced]
    intro a member
    rcases List.mem_cons.mp member with rfl | member
    · exact ⟨rfl, rfl⟩
    · exact later a member
  · rw [traced, Connection.arrivals, List.flatMap_cons]
    exact (congrArg _ nothing).trans (List.append_nil _)

/-- When the peers are calm and plain, a conversation takes place by steps that the server takes by
itself after each head, until one is not kept. -/
theorem exists_conversation (pos : 0 < capacity) (workers : 0 < server.threadCount)
    (h : Undisturbed P server capacity w₀) (plain : AllPlain w₀) (noHangup : NoHangup w₀)
    (known : c < w₀.accepted) {transport : Transport} {sent : Bytes}
    (idle : w₀.stream c = .idle transport sent)
    (waits : w₀.stage c = .queued ∨ w₀.stage c = .watched)
    (isHead : ∀ head ∈ heads, Connection.IsHead head ∧ head.length + 4 < MAX_HEADER_BYTES)
    (keeps : ∀ head ∈ heads.dropLast, Keeps P server transport head) :
    ∃ w, Conversation P server capacity c w₀ heads w := by
  induction heads generalizing w₀ sent with
  | nil => exact ⟨w₀, .done w₀⟩
  | cons head heads ih =>
    obtain ⟨first, short⟩ := isHead head List.mem_cons_self
    obtain ⟨as, u, hrun, polite, arrived, quiet, h', plain'⟩ :=
      exists_exchange pos workers h plain noHangup known idle short
    obtain ⟨after, stage⟩ := exchange h.reachable known idle waits first hrun polite arrived quiet
    have noHangup' : NoHangup u := by
      rw [NoHangup, quiet.batch]
      exact fun event member => absurd member List.not_mem_nil
    cases heads with
    | nil => exact ⟨u, .exchange _ hrun polite arrived quiet (.done u)⟩
    | cons second heads =>
      have watched := stage.resolve_right fun other => other.1 (keeps head (by simp))
      obtain ⟨w, talk⟩ := ih h' plain' noHangup' (known_of_run known hrun) after (Or.inr watched.2)
        (fun other member => isHead other (List.mem_cons_of_mem _ member))
        (fun other member => keeps other (by
          rw [List.dropLast_cons_cons]
          exact List.mem_cons_of_mem _ member))
      exact ⟨w, .exchange _ hrun polite arrived quiet talk⟩

/-- After a conversation the stream is at rest again, with the replies sent on it. -/
theorem Conversation.spec (talk : Conversation P server capacity c w₀ heads w)
    (h : Reachable Initial (Step P server capacity) w₀) (known : c < w₀.accepted)
    {transport : Transport} {sent : Bytes} (idle : w₀.stream c = .idle transport sent)
    (waits : w₀.stage c = .queued ∨ w₀.stage c = .watched)
    (isHead : ∀ head ∈ heads, Connection.IsHead head)
    (keeps : ∀ head ∈ heads.dropLast, Keeps P server transport head) :
    w.stream c = .idle transport (sent ++ heads.flatMap (reply P server transport)) ∧
      ∀ head ∈ heads.getLast?, Keeps P server transport head ∧ w.stage c = .watched ∨
        ¬ Keeps P server transport head ∧ w.stage c = .closed := by
  induction talk generalizing sent with
  | done w => exact ⟨by rw [idle, List.flatMap_nil, List.append_nil], by simp⟩
  | @exchange w u v head heads as hrun polite arrived quiet talk ih =>
    obtain ⟨after, stage⟩ := World.exchange h known idle waits (isHead head List.mem_cons_self)
      hrun polite arrived quiet
    cases heads with
    | nil =>
      cases talk
      refine ⟨by rw [after, List.flatMap_singleton], fun last found => ?_⟩
      obtain rfl : head = last := by simpa using found
      exact stage
    | cons second heads =>
      have watched := stage.resolve_right fun other => other.1 (keeps head (by simp))
      obtain ⟨ended, last⟩ := ih (h.of_run hrun) (known_of_run known hrun) after
        (Or.inr watched.2) (fun other member => isHead other (List.mem_cons_of_mem _ member))
        (fun other member => keeps other (by
          rw [List.dropLast_cons_cons]
          exact List.mem_cons_of_mem _ member))
      rw [List.append_assoc, ← List.flatMap_cons] at ended
      exact ⟨ended, fun other found => last other (by simpa using found)⟩

/-- A client is sent the replies to its heads in their order, each the one that a fresh client would
get for that head, and it is kept or closed as the last reply decides; whatever other clients do and
however the steps are interleaved. -/
theorem conversation (h : Reachable Initial (Step P server capacity) w₀) (known : c < w₀.accepted)
    (rest : Connection.AtRest ⟨w₀.stage c, w₀.stream c⟩) (sends : (w₀.stream c).socket.sends = [])
    (isHead : ∀ head ∈ heads, Connection.IsHead head)
    (keeps : ∀ head ∈ heads.dropLast, Keeps P server (w₀.stream c).transport head)
    (talk : Conversation P server capacity c w₀ heads w) :
    (w.stream c).socket.sent = (w₀.stream c).socket.sent ++
        heads.flatMap (reply P server (w₀.stream c).transport) ∧
      ∀ head ∈ heads.getLast?,
        Keeps P server (w₀.stream c).transport head ∧ w.stage c = .watched ∨
          ¬ Keeps P server (w₀.stream c).transport head ∧ w.stage c = .closed := by
  have idle := Stream.eq_idle rest.unread rest.socket sends
  obtain ⟨ended, last⟩ := talk.spec h known idle rest.stage isHead keeps
  exact ⟨congrArg (·.socket.sent) ended, last⟩

/-- The first request asks to keep the connection, the second does not. -/
def twoHeads : List Bytes :=
  [chars "GET /a HTTP/1.1\r\nConnection: keep-alive", chars "GET /b HTTP/1.1"]

theorem conversation_twoHeads :
    ∃ w₀ w, Reachable Initial (Step Platform.newestFirst HttpServer.emptyServer 65536) w₀ ∧
      Conversation Platform.newestFirst HttpServer.emptyServer 65536 0 w₀ twoHeads w ∧
      (w.stream 0).socket.sent = (w₀.stream 0).socket.sent ++ twoHeads.flatMap
        (reply Platform.newestFirst HttpServer.emptyServer (w₀.stream 0).transport) ∧
      ∀ head ∈ twoHeads.getLast?,
        Keeps Platform.newestFirst HttpServer.emptyServer (w₀.stream 0).transport head ∧
            w.stage 0 = .watched ∨
          ¬ Keeps Platform.newestFirst HttpServer.emptyServer (w₀.stream 0).transport head ∧
            w.stage 0 = .closed := by
  obtain ⟨w₀, reachable, state⟩ := @exists_reachable_of_run World Action Initial
    (next Platform.newestFirst HttpServer.emptyServer 65536) {} [.accept 5 .plain]
    (fun w => w.accepted = 1 ∧ w.newFdChannel.writeOpen = true ∧ w.stage 0 = .queued ∧
      w.batch = [] ∧ w.stream 0 = .idle .plain []) rfl (by decide +kernel)
  obtain ⟨accepted, isOpen, stage, empty, stream⟩ := of_decide_eq_true state
  have calm : w₀.Calm := by
    intro c known
    obtain rfl : c = 0 := by omega
    rw [stream]
    exact Stream.calm_idle _ _
  have plain : AllPlain w₀ := by
    intro c known
    obtain rfl : c = 0 := by omega
    rw [stream]
    rfl
  have noHangup : NoHangup w₀ := by
    rw [NoHangup, empty]
    exact fun event member => absurd member List.not_mem_nil
  have known : 0 < w₀.accepted := by omega
  have isHead : ∀ head ∈ twoHeads,
      Connection.IsHead head ∧ head.length + 4 < MAX_HEADER_BYTES := by
    intro head member
    simp only [twoHeads, List.mem_cons, List.not_mem_nil, or_false] at member
    rcases member with rfl | rfl
    · exact ⟨⟨by decide +kernel, by decide +kernel⟩, by decide +kernel⟩
    · exact ⟨⟨by decide +kernel, by decide +kernel⟩, by decide +kernel⟩
  have keeps : ∀ head ∈ twoHeads.dropLast,
      Keeps Platform.newestFirst HttpServer.emptyServer .plain head := by
    intro head member
    obtain rfl : head = chars "GET /a HTTP/1.1\r\nConnection: keep-alive" :=
      List.mem_singleton.mp member
    rw [Keeps]
    decide +kernel
  obtain ⟨w, talk⟩ := exists_conversation (by decide) (by decide) ⟨reachable, isOpen, calm⟩
    plain noHangup known stream (Or.inl stage) isHead keeps
  have rest : Connection.AtRest ⟨w₀.stage 0, w₀.stream 0⟩ := by
    rw [stream]
    exact ⟨Or.inl stage, rfl, (Stream.calm_idle _ _).socket⟩
  exact ⟨w₀, w, reachable, talk, conversation reachable known rest (by rw [stream]; rfl)
    (fun head member => (isHead head member).1) (by rw [stream]; exact keeps) talk⟩

end World

end Lightning
