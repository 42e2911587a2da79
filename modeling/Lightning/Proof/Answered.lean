import Lightning.Proof.Settling

/-!
# A request is answered

A client that waits for nothing sends a head, in pieces that arrive at any time, and nothing else
happens to its socket. Then its connection goes through one `Exchange`: the bytes gather until the
head is complete, a worker handles exactly that head, and the client comes back or is closed. So
when there is nothing left to do the stream is what the handler has left of it (`answered`), whatever
the other clients do, and the server gets there by itself (`request_settles`).
-/

namespace Lightning

open Search NonblockingClientManagerTask Transition

variable {ρ : Type} [RegexEngine ρ] {P : Platform} {server : HttpServer ρ} {capacity : ℕ}

/-- The stream when everything that has arrived was read. -/
def Stream.emptied (s : Stream) : Stream :=
  { s with leftoverBuffer := [], socket := { s.socket with received := [] } }

namespace IStream

variable {s : Stream} {amount : ℕ}

/-- Everything that has arrived at a calm socket fits: it is in `leftoverBuffer` afterwards. -/
theorem peek_of_calm (calm : s.socket.Calm) (fits : s.unread.length ≤ amount) :
    (peek P amount s).2 = { s with
      leftoverBuffer := s.unread
      socket := { s.socket with received := [] } } ∧
    (peek P amount s).1 = s.unread := by
  rw [peek_eq]
  obtain ⟨view, ⟨taken, leftover, -⟩, incoming, empty⟩ := PlainStream.peek_spec amount s
  obtain ⟨received, socket⟩ : ∃ received, (PlainStream.peek amount s).2.socket =
      { s.socket with received := received } := by
    apply PlainStream.peekLoop_keeps (motive := fun k => ∃ received, k =
      { s.socket with received := received })
    · rintro len k ⟨received, rfl⟩
      have calmK : ({ s.socket with received := received } : Socket).Calm :=
        ⟨calm.schedule, calm.fin, calm.error, calm.sends⟩
      exact ⟨_, calmK.recv_eq len⟩
    · exact ⟨s.socket.received, rfl⟩
  have calm' : (PlainStream.peek amount s).2.socket.Calm := by
    rw [socket]
    exact ⟨calm.schedule, calm.fin, calm.error, calm.sends⟩
  have nothing : (PlainStream.peek amount s).2.socket.received = [] := by
    rw [Stream.incoming, Stream.incoming, calm.incoming_eq, calm'.incoming_eq] at incoming
    have total := congrArg List.length incoming
    by_cases room : (PlainStream.peek amount s).2.leftoverBuffer.length < amount
    · exact empty room
    · simp only [Stream.unread, List.length_append] at fits total
      apply List.eq_nil_of_length_eq_zero
      omega
  have all : (PlainStream.peek amount s).2.leftoverBuffer = s.unread := by
    rw [Stream.incoming, Stream.incoming, calm.incoming_eq, calm'.incoming_eq, nothing,
      List.append_nil] at incoming
    exact incoming
  rw [socket] at nothing
  dsimp only at nothing
  subst nothing
  refine ⟨?_, view.trans all⟩
  rw [← all, ← socket]
  rfl

end IStream

namespace Connection

variable {s t : Stream} {head requestBuffer : Bytes} {x : Connection} {a : Action}

/-! ## One exchange -/

/-- The step does nothing to the connection but that bytes arrive. -/
def Action.Polite : Action → Prop
  | .arrive a => a.fin = false ∧ a.error = none
  | .event hangup => hangup = false
  | .register | .call | .resume => True
  | .accept _ | .foresee _ | .outcome _ => False

/-- The bytes that arrive in a step. -/
def Action.arrival : Action → Bytes
  | .arrive a => a.bytes
  | .accept _ | .foresee _ | .outcome _ | .register | .event _ | .call | .resume => []

/-- Everything that arrived was read, and the client is with the manager or on its way there. -/
structure AtRest (x : Connection) : Prop where
  stage : x.stage = .queued ∨ x.stage = .watched
  unread : x.stream.unread = []
  socket : x.stream.socket.Calm

/-- A head that its terminator ends and that fits. -/
structure IsHead (head : Bytes) : Prop where
  first : findFirst DOUBLE_CRLF (head ++ DOUBLE_CRLF) = some head.length
  short : head.length + 4 ≤ MAX_HEADER_BYTES

/-- Where a connection is that was at rest with stream `s` and to which `arrived` has come. -/
inductive Exchange (P : Platform) (server : HttpServer ρ) (s : Stream) (head : Bytes) :
    Bytes → Connection → Prop
  | gathering {stage : Stage} {leftover received : Bytes}
      (waits : stage = .queued ∨ stage = .watched)
      (headless : findFirst DOUBLE_CRLF leftover = none) :
      Exchange P server s head (leftover ++ received)
        ⟨stage, { s with leftoverBuffer := leftover, socket := { s.socket with
          received := received } }⟩
  | handled : Exchange P server s head (head ++ DOUBLE_CRLF) ⟨.handled head, s⟩
  | answered {keepAlive : Bool} {stage : Stage}
      (enqueued : (ClientRequestHandler.call P server 0 head s).enqueued = [⟨0, keepAlive⟩])
      (back : stage = .returned keepAlive ∨ stage = if keepAlive then .watched else .closed) :
      Exchange P server s head (head ++ DOUBLE_CRLF)
        ⟨stage, (ClientRequestHandler.call P server 0 head s).stream⟩

/-- Before the terminator is complete there is no head. -/
theorem IsHead.headless (isHead : IsHead head) {arrived : Bytes}
    (isPrefix : arrived <+: head ++ DOUBLE_CRLF) (incomplete : arrived ≠ head ++ DOUBLE_CRLF) :
    findFirst DOUBLE_CRLF arrived = none := by
  have shorter : arrived.length < (head ++ DOUBLE_CRLF).length := by
    apply Nat.lt_of_le_of_ne isPrefix.length_le
    exact fun same => incomplete (isPrefix.eq_of_length same)
  rw [List.prefix_iff_eq_take.mp isPrefix]
  apply findFirst_take_eq_none isHead.first
  rw [List.length_append] at shorter
  exact shorter

theorem work_eq_zero_iff : s.work = 0 ↔ s.unread = [] := by
  rw [Stream.unread, List.append_eq_nil_iff, ← List.length_eq_zero_iff, ← List.length_eq_zero_iff,
    Stream.work]
  omega

/-- A stream of which everything was read. -/
theorem emptied_of_unread (unread : s.unread = []) : s.emptied = s := by
  obtain ⟨leftover, received⟩ := List.append_eq_nil_iff.mp unread
  obtain ⟨transport, _, k⟩ := s
  subst leftover
  obtain ⟨_, fin, error, schedule, sends, sent⟩ := k
  subst received
  rfl

theorem calm_of_unread (unread : s.unread = []) (socket : s.socket.Calm) : s.Calm where
  socket := socket
  short := by
    rw [unread]
    decide

/-- A handler that finds nothing to read leaves nothing to read. -/
theorem unread_call (unread : s.unread = []) (socket : s.socket.Calm) {client : ClientId} :
    (ClientRequestHandler.call P server client requestBuffer s).stream.unread = [] ∧
      (ClientRequestHandler.call P server client requestBuffer s).stream.socket.Calm := by
  obtain ⟨calm, less⟩ := @ClientRequestHandler.call_calm ρ _ P server client requestBuffer s
    (calm_of_unread unread socket)
  rw [work_eq_zero_iff.mpr unread, Nat.le_zero] at less
  exact ⟨work_eq_zero_iff.mp less, calm.socket⟩

/-- The manager finds nothing new on a stream of which everything was read. -/
theorem handleEvent_of_unread (unread : s.unread = []) (socket : s.socket.Calm) :
    handleEvent P s = some ⟨.watched, s⟩ := by
  obtain ⟨after, view⟩ := @IStream.peek_of_calm P s MAX_HEADER_BYTES socket
    (by rw [unread]; exact Nat.zero_le _)
  rw [unread] at after
  rw [handleEvent, view, after, unread]
  exact congrArg (fun t => some (Connection.mk .watched t)) (emptied_of_unread unread)

/-- The manager looks at the bytes that have gathered. -/
theorem handleEvent_gathering (unread : s.unread = []) (socket : s.socket.Calm)
    (isHead : IsHead head) {leftover received : Bytes}
    (isPrefix : leftover ++ received <+: head ++ DOUBLE_CRLF) {y : Connection}
    (h : handleEvent P { s with leftoverBuffer := leftover, socket := { s.socket with
      received := received } } = some y) :
    Exchange P server s head (leftover ++ received) y := by
  have calm : ({ s.socket with received := received } : Socket).Calm :=
    ⟨socket.schedule, socket.fin, socket.error, socket.sends⟩
  have within : (leftover ++ received).length ≤ MAX_HEADER_BYTES := by
    apply isPrefix.length_le.trans
    rw [List.length_append]
    exact isHead.short
  obtain ⟨after, view⟩ := @IStream.peek_of_calm P { s with
    leftoverBuffer := leftover
    socket := { s.socket with received := received } } MAX_HEADER_BYTES calm within
  have view' : (IStream.peek P MAX_HEADER_BYTES { s with
      leftoverBuffer := leftover
      socket := { s.socket with received := received } }).1 = leftover ++ received := view
  by_cases complete : leftover ++ received = head ++ DOUBLE_CRLF
  · obtain ⟨headless, -⟩ | ⟨pos, found, rfl⟩ := handleEvent_cases h
    · rw [view', complete, isHead.first] at headless
      cases headless
    · rw [view', complete, isHead.first] at found
      obtain rfl := Option.some.inj found
      have terminated : (leftover ++ received).drop (head.length + 4) = [] := by
        rw [complete]
        apply List.drop_of_length_le
        rw [List.length_append]
        rfl
      rw [after, view', complete, List.take_left]
      simp only [Stream.unread, terminated]
      have emptied := emptied_of_unread unread
      rw [Stream.emptied] at emptied
      rw [emptied]
      exact .handled
  · obtain ⟨headless, rfl⟩ | ⟨pos, found, rfl⟩ := handleEvent_cases h
    · rw [after]
      rw [view'] at headless
      have moved := @Exchange.gathering ρ _ P server s head .watched _ [] (Or.inr rfl) headless
      rwa [List.append_nil] at moved
    · rw [view', isHead.headless isPrefix complete] at found
      cases found

/-- Nothing arrives any more. -/
theorem arrive_of_nil {k : Socket} {arrival : Arrival} (bytes : arrival.bytes = [])
    (fin : arrival.fin = false) (error : arrival.error = none) : k.arrive arrival = k := by
  rw [Socket.arrive, bytes, fin, error, List.append_nil, Bool.or_false, Option.none_or]

/-- A step of the exchange. -/
theorem Exchange.step (unread : s.unread = []) (socket : s.socket.Calm) (isHead : IsHead head)
    {arrived : Bytes} (h : Exchange P server s head arrived x) (polite : a.Polite)
    (isPrefix : arrived ++ a.arrival <+: head ++ DOUBLE_CRLF) {y : Option Connection}
    (step : next P server (some x) a = some y) :
    ∃ z, y = some z ∧ Exchange P server s head (arrived ++ a.arrival) z := by
  have returned := @ClientRequestHandler.call_returns ρ _ P server 0 head s
    (calm_of_unread unread socket)
  cases a with
  | accept | foresee | outcome => cases polite
  | arrive a =>
    obtain ⟨fin, error⟩ := polite
    have nothing (complete : arrived = head ++ DOUBLE_CRLF) : a.bytes = [] := by
      have longer := isPrefix.length_le
      rw [complete, List.length_append] at longer
      have zero : (Action.arrive a).arrival.length = 0 := by omega
      exact List.eq_nil_of_length_eq_zero zero
    cases h with
    | @gathering stage leftover received waits headless =>
      cases step
      refine ⟨_, rfl, ?_⟩
      have gathered := @Exchange.gathering ρ _ P server s head stage leftover (received ++ a.bytes)
        waits headless
      rw [← List.append_assoc] at gathered
      simp only [setSocket, Socket.arrive, fin, error, Bool.or_false, Option.none_or]
      exact gathered
    | handled =>
      cases step
      rw [setSocket, arrive_of_nil (nothing rfl) fin error]
      refine ⟨_, rfl, ?_⟩
      rw [Action.arrival, nothing rfl, List.append_nil]
      exact .handled
    | answered enqueued back =>
      cases step
      rw [setSocket, arrive_of_nil (nothing rfl) fin error]
      refine ⟨_, rfl, ?_⟩
      rw [Action.arrival, nothing rfl, List.append_nil]
      exact .answered enqueued back
  | register =>
    rw [Action.arrival, List.append_nil]
    cases h with
    | gathering waits headless =>
      rcases waits with rfl | rfl
      · cases step
        exact ⟨_, rfl, .gathering (Or.inr rfl) headless⟩
      · cases step
    | handled => cases step
    | @answered keepAlive stage enqueued back =>
      rcases back with rfl | rfl
      · cases step
      · cases keepAlive <;> cases step
  | event hangup =>
    obtain rfl : hangup = false := polite
    rw [Action.arrival, List.append_nil] at isPrefix ⊢
    cases h with
    | gathering waits headless =>
      rcases waits with rfl | rfl
      · cases step
      · obtain ⟨z, event, rfl⟩ := Option.map_eq_some_iff.mp step
        exact ⟨z, rfl, handleEvent_gathering unread socket isHead isPrefix event⟩
    | handled => cases step
    | @answered keepAlive stage enqueued back =>
      obtain ⟨nothing, calm⟩ := @unread_call ρ _ P server s head unread socket 0
      rcases back with rfl | rfl
      · cases step
      · cases keepAlive with
        | false => cases step
        | true =>
          obtain ⟨z, event, rfl⟩ := Option.map_eq_some_iff.mp step
          rw [handleEvent_of_unread nothing calm] at event
          cases event
          exact ⟨_, rfl, .answered enqueued (Or.inr rfl)⟩
  | call =>
    rw [Action.arrival, List.append_nil]
    cases h with
    | gathering waits headless => rcases waits with rfl | rfl <;> cases step
    | handled =>
      obtain ⟨keepAlive, enqueued⟩ := ClientRequestHandler.call_enqueued returned
      simp only [next, handle, enqueued, Option.map_some, Option.some.injEq] at step
      exact ⟨_, step.symm, .answered enqueued (Or.inl rfl)⟩
    | @answered keepAlive stage enqueued back =>
      rcases back with rfl | rfl
      · cases step
      · cases keepAlive <;> cases step
  | resume =>
    rw [Action.arrival, List.append_nil]
    cases h with
    | gathering waits headless => rcases waits with rfl | rfl <;> cases step
    | handled => cases step
    | @answered keepAlive stage enqueued back =>
      rcases back with rfl | rfl
      · cases step
        exact ⟨_, rfl, .answered enqueued (Or.inr rfl)⟩
      · cases keepAlive <;> cases step

/-- All that arrived on a run. -/
def arrivals (as : List Action) : Bytes := as.flatMap Action.arrival

/-- A run of the exchange. -/
theorem Exchange.run (unread : s.unread = []) (socket : s.socket.Calm) (isHead : IsHead head)
    {arrived : Bytes} (h : Exchange P server s head arrived x) {as : List Action}
    (polite : ∀ a ∈ as, a.Polite) (isPrefix : arrived ++ arrivals as <+: head ++ DOUBLE_CRLF)
    {y : Option Connection} (hrun : Transition.run (next P server) (some x) as = some y) :
    ∃ z, y = some z ∧ Exchange P server s head (arrived ++ arrivals as) z := by
  induction as generalizing arrived x with
  | nil =>
    cases hrun
    refine ⟨x, rfl, ?_⟩
    rw [arrivals, List.flatMap_nil, List.append_nil]
    exact h
  | cons a as ih =>
    obtain ⟨u, step, rest⟩ := Option.bind_eq_some_iff.mp hrun
    rw [arrivals, List.flatMap_cons, ← List.append_assoc] at isPrefix ⊢
    obtain ⟨z, rfl, h'⟩ := h.step unread socket isHead (polite a List.mem_cons_self)
      ((List.prefix_append _ _).trans isPrefix) step
    exact ih h' (fun b member => polite b (List.mem_cons_of_mem a member)) isPrefix rest

end Connection

namespace World

variable {w w₀ w' : World} {c : ClientId} {head : Bytes}

theorem view_eq_some {x : Connection} (h : w.view c = some x) :
    c < w.accepted ∧ x = ⟨w.stage c, w.stream c⟩ := by
  unfold view at h
  split_ifs at h with known
  exact ⟨known, (Option.some.inj h).symm⟩

/-- When nothing is left to do, and nothing of the client in its socket, the exchange is over. -/
theorem answered_of_idle (own : OwnershipInv w) (idle : Idle w) {s : Stream}
    (read : ∀ fd, w.connections.lookup fd = some c → (w.stream c).transport = s.transport →
      (w.stream c).socket.received = [])
    (isHead : Connection.IsHead head) (known : c < w.accepted)
    (h : Connection.Exchange P server s head (head ++ DOUBLE_CRLF) ⟨w.stage c, w.stream c⟩) :
    ∃ keepAlive,
      (ClientRequestHandler.call P server 0 head s).enqueued = [⟨0, keepAlive⟩] ∧
      w.stage c = (if keepAlive then .watched else .closed) ∧
      w.stream c = (ClientRequestHandler.call P server 0 head s).stream := by
  obtain ⟨stage, staged⟩ := own.staged known
  rw [staged.stage_eq own] at h ⊢
  generalize whole : head ++ DOUBLE_CRLF = arrived at h
  generalize w.stream c = stream at h read ⊢
  cases h with
  | @gathering stage leftover received waits headless =>
    exfalso
    rcases waits with rfl | rfl
    · rw [Staged, idle.newQueue] at staged
      cases staged
    · obtain ⟨fd, tracked⟩ := staged
      have nothing := read fd tracked rfl
      dsimp only at nothing
      rw [nothing, List.append_nil] at whole
      rw [← whole, isHead.first] at headless
      cases headless
  | handled =>
    rcases staged with waiting | ⟨i, busy⟩
    · rw [idle.tasks] at waiting
      cases waiting
    · rw [idle.running i] at busy
      cases busy
  | @answered keepAlive stage enqueued back =>
    rcases back with rfl | rfl
    · rw [Staged, idle.returnQueue] at staged
      cases staged
    · exact ⟨keepAlive, enqueued, rfl, rfl⟩

/-- The connection of a client takes its exchange to the end. -/
theorem answered_of_exchange (h : Reachable Initial (Step P server capacity) w₀)
    (known : c < w₀.accepted) {s : Stream} (unread : s.unread = []) (socket : s.socket.Calm)
    (isHead : Connection.IsHead head) {arrived : Bytes}
    (exchange : Connection.Exchange P server s head arrived ⟨w₀.stage c, w₀.stream c⟩)
    {as : List Action} (hrun : run (next P server capacity) w₀ as = some w)
    (polite : ∀ a ∈ trace (next P server capacity) (project c) w₀ as, a.Polite)
    (whole : arrived ++ Connection.arrivals (trace (next P server capacity) (project c) w₀ as) =
      head ++ DOUBLE_CRLF) (idle : Idle w)
    (read : ∀ fd, w.connections.lookup fd = some c → (w.stream c).transport = s.transport →
      (w.stream c).socket.received = []) :
    ∃ keepAlive,
      (ClientRequestHandler.call P server 0 head s).enqueued = [⟨0, keepAlive⟩] ∧
      w.stage c = (if keepAlive then .watched else .closed) ∧
      w.stream c = (ClientRequestHandler.call P server 0 head s).stream := by
  have own := ownershipInv_reachable (h.of_run hrun)
  have alone : run (Connection.next P server) (w₀.view c)
      (trace (next P server capacity) (project c) w₀ as) = some (w.view c) := by
    apply @run_trace World (Option Connection) Action Connection.Action _ _ _ (view c) OwnershipInv
      w₀ w as _ _ (ownershipInv_reachable h) hrun
    · exact fun s a t own step => ownershipInv_step own (takes_of_next step)
    · exact fun s a t own step => follows_of_step own step
  rw [view, if_pos known] at alone
  obtain ⟨x, viewed, ended⟩ := exchange.run unread socket isHead polite
    (by rw [whole]) alone
  rw [whole] at ended
  obtain ⟨stillKnown, rfl⟩ := view_eq_some viewed
  exact answered_of_idle own idle read isHead stillKnown ended

/-- A client at rest has sent a head, in any pieces, and nothing else has happened to it. When there
is nothing left to do, a handler has had exactly that head and the stream of the client, which is
with the manager again or closed. -/
theorem answered (h : Reachable Initial (Step P server capacity) w₀) (known : c < w₀.accepted)
    (rest : Connection.AtRest ⟨w₀.stage c, w₀.stream c⟩) (isHead : Connection.IsHead head)
    {as : List Action} (hrun : run (next P server capacity) w₀ as = some w)
    (polite : ∀ a ∈ trace (next P server capacity) (project c) w₀ as, a.Polite)
    (sent : Connection.arrivals (trace (next P server capacity) (project c) w₀ as) =
      head ++ DOUBLE_CRLF) (quiet : Quiescent w) :
    ∃ keepAlive,
      (ClientRequestHandler.call P server 0 head (w₀.stream c)).enqueued = [⟨0, keepAlive⟩] ∧
      w.stage c = (if keepAlive then .watched else .closed) ∧
      w.stream c = (ClientRequestHandler.call P server 0 head (w₀.stream c)).stream := by
  have begun : Connection.Exchange P server (w₀.stream c) head []
      ⟨w₀.stage c, (w₀.stream c).emptied⟩ :=
    @Connection.Exchange.gathering ρ _ P server (w₀.stream c) head (w₀.stage c) [] [] rest.stage
      (by decide)
  rw [Connection.emptied_of_unread rest.unread] at begun
  exact answered_of_exchange h known rest.unread rest.socket isHead begun hrun polite sent
    quiet.toIdle fun fd tracked _ => (quiet.silent fd c tracked).received

/-- The test of `Quiescent`, for as many workers as there are. -/
def isQuiescent (workers : ℕ) (w : World) : Bool :=
  isIdle workers w &&
    w.connections.entries.all fun e => (w.stream e.2).socket.received = [] &&
      !(w.stream e.2).socket.fin && (w.stream e.2).socket.error.isNone

omit [RegexEngine ρ] in
theorem quiescent_of_isQuiescent (inv : WorkerInv server w)
    (h : isQuiescent server.threadCount.toNat w = true) : Quiescent w := by
  simp only [isQuiescent, Bool.and_eq_true, decide_eq_true_eq, Bool.not_eq_true', List.all_eq_true,
    Option.isNone_iff_eq_none] at h
  refine ⟨idle_of_isIdle inv h.1, fun fd c tracked => ?_⟩
  obtain ⟨⟨received, fin⟩, error⟩ := h.2 ⟨fd, c⟩ (AList.mem_lookup_iff.mp tracked)
  exact ⟨received, fin, error⟩

/-- The first client sends its head in two pieces, and another client comes in between. -/
def twoPieces : List Action :=
  [.arrive 0 ⟨chars "GET / HT", false, none⟩, .notifyNew, .epollWait [.newPipe], .handle, .drain,
    .drain, .epollWait [.client 5 false], .handle, .accept 7 .ssl,
    .arrive 0 ⟨chars "TP/1.1\r\n\r\n", false, none⟩, .epollWait [.client 5 false], .handle,
    .notifyNew, .take 0, .call 0, .notifyReturn 0, .epollWait [.newPipe, .returnPipe], .handle,
    .drain, .drain, .handle, .drain, .drain]

theorem answered_twoPieces :
    ∃ w, Reachable Initial (Step Platform.newestFirst HttpServer.emptyServer 65536) w ∧
      w.accepted = 2 ∧ ∃ keepAlive,
        (ClientRequestHandler.call Platform.newestFirst HttpServer.emptyServer 0
          (chars "GET / HTTP/1.1") {}).enqueued = [⟨0, keepAlive⟩] ∧
        w.stage 0 = (if keepAlive then .watched else .closed) ∧
        w.stream 0 = (ClientRequestHandler.call Platform.newestFirst HttpServer.emptyServer 0
          (chars "GET / HTTP/1.1") {}).stream := by
  obtain ⟨w₀, first, state⟩ := (Option.any_eq_true _ _).mp
    (show (run (next Platform.newestFirst HttpServer.emptyServer 65536) {}
      [.accept 5 .plain]).any (fun w => w.accepted = 1 ∧ w.stage 0 = .queued ∧ w.stream 0 = {} ∧
        trace (next Platform.newestFirst HttpServer.emptyServer 65536) (project 0) w twoPieces =
          [.arrive ⟨chars "GET / HT", false, none⟩, .register, .event false,
            .arrive ⟨chars "TP/1.1\r\n\r\n", false, none⟩, .event false, .call, .resume] ∧
        (run (next Platform.newestFirst HttpServer.emptyServer 65536) w twoPieces).any
          (fun w => w.accepted = 2 ∧ isQuiescent 1 w) = true) = true by
      decide +kernel)
  obtain ⟨accepted, stage, stream, traced, ends⟩ := of_decide_eq_true state
  obtain ⟨w, second, state'⟩ := (Option.any_eq_true _ _).mp ends
  obtain ⟨accepted', quiet⟩ := of_decide_eq_true state'
  have reachable₀ : Reachable Initial
      (Step Platform.newestFirst HttpServer.emptyServer 65536) w₀ :=
    (Reachable.start (show Initial {} from rfl)).of_run first
  have reachable : Reachable Initial
      (Step Platform.newestFirst HttpServer.emptyServer 65536) w := reachable₀.of_run second
  have isHead : Connection.IsHead (chars "GET / HTTP/1.1") := ⟨by decide, by decide⟩
  have rest : Connection.AtRest ⟨w₀.stage 0, w₀.stream 0⟩ := by
    rw [stream]
    exact ⟨Or.inl stage, rfl, ⟨rfl, rfl, rfl, nofun⟩⟩
  have replied := answered reachable₀ (by rw [accepted]; decide) rest isHead second
    (by rw [traced]; simp [Connection.Action.Polite]) (by rw [traced]; decide)
    (quiescent_of_isQuiescent (workerInv_reachable reachable) quiet)
  rw [stream] at replied
  exact ⟨w, reachable, accepted', replied⟩

/-! ## By itself -/

/-- No event of a batch tells that a peer has gone. -/
def NoHangup (w : World) : Prop := ∀ event ∈ w.batch, event.isHangup = false

theorem noHangup_of_internal {a : Action} (quiet : NoHangup w) (internal : a.internal = true)
    (step : w.next P server capacity a = some w') : NoHangup w' := by
  have behind {event : Event} {batch : List Event} (first : w.batch = event :: batch) :
      ∀ other ∈ batch, other.isHangup = false := by
    intro other member
    exact quiet other (by rw [first]; exact List.mem_cons_of_mem _ member)
  cases takes_of_next step with
  | accept | shutdown | arrive | foresee | ciphertext | outcome => cases internal
  | epollWait events idle empty reported =>
    simp only [Action.internal, Bool.and_eq_true, List.all_eq_true, Bool.not_eq_true'] at internal
    exact internal.2
  | newPipe batch idle first => exact behind first
  | returnPipe batch idle first => exact behind first
  | client fd hangup batch w' idle first handled =>
    have rest : w'.batch = batch := (handleClientEvent_keeps handled).2
    rw [NoHangup, rest]
    exact behind first
  | drainNew draining =>
    obtain ⟨interest, connections, after⟩ := drainNewFdChannel_frame w
    rw [after]
    exact quiet
  | drainReturn draining =>
    obtain ⟨interest, connections, closed, fdOpen, after⟩ := drainReturnChannel_frame w
    rw [after]
    exact quiet
  | notifyNew | notifyReturn | take | call => exact quiet

/-- What the server does by itself is polite, and brings nothing. -/
theorem project_of_internal {a : Action} (quiet : NoHangup w) (internal : a.internal = true)
    {b : Connection.Action} (h : w.project c a = some b) : b.Polite ∧ b.arrival = [] := by
  cases a with
  | accept | shutdown | arrive | foresee | ciphertext | outcome => cases internal
  | notifyNew | epollWait | take | notifyReturn => cases h
  | handle =>
    rcases first : w.batch with _ | ⟨_ | _ | ⟨fd, hangup⟩, batch⟩
    · simp [project, first] at h
    · simp [project, first] at h
    · simp [project, first] at h
    · have noHangup := quiet (.client fd hangup) (by rw [first]; exact List.mem_cons_self)
      simp only [project, first] at h
      split_ifs at h
      cases h
      exact ⟨noHangup, rfl⟩
  | drain =>
    simp only [project] at h
    split_ifs at h
    · cases h
      exact ⟨trivial, rfl⟩
    · cases h
      exact ⟨trivial, rfl⟩
  | call i =>
    simp only [project] at h
    split_ifs at h
    cases h
    exact ⟨trivial, rfl⟩

theorem trace_of_internal {as : List Action} (quiet : NoHangup w)
    (all : ∀ a ∈ as, a.internal = true) (hrun : run (next P server capacity) w as = some w') :
    (∀ a ∈ trace (next P server capacity) (project c) w as, a.Polite) ∧
      Connection.arrivals (trace (next P server capacity) (project c) w as) = [] := by
  induction as generalizing w with
  | nil => exact ⟨fun a member => absurd member List.not_mem_nil, rfl⟩
  | cons a as ih =>
    obtain ⟨u, step, rest⟩ := Option.bind_eq_some_iff.mp hrun
    have internal := all a List.mem_cons_self
    obtain ⟨later, nothing⟩ := ih (noHangup_of_internal quiet internal step)
      (fun b member => all b (List.mem_cons_of_mem a member)) rest
    rw [trace, step, Option.elim_some]
    constructor
    · intro b member
      rcases List.mem_append.mp member with first | second
      · exact (project_of_internal quiet internal (Option.mem_toList.mp first)).1
      · exact later b second
    · rw [Connection.arrivals, List.flatMap_append]
      apply List.append_eq_nil_iff.mpr
      refine ⟨?_, nothing⟩
      cases projected : w.project c a with
      | none => rfl
      | some b =>
        rw [Option.toList_some, List.flatMap_singleton]
        exact (project_of_internal quiet internal projected).2

/-- The head of a plain client that has arrived is answered by what the server does by itself, in any
order: the steps are bounded, and where no step is left a handler has had exactly that head. -/
theorem request_settles (pos : 0 < capacity) (workers : 0 < server.threadCount)
    (h : Reachable Initial (Step P server capacity) w) (isOpen : w.newFdChannel.writeOpen = true)
    (calm : w.Calm) (noHangup : NoHangup w) (known : c < w.accepted)
    (plain : (w.stream c).transport = .plain)
    (waits : w.stage c = .queued ∨ w.stage c = .watched) (isHead : Connection.IsHead head)
    (arrived : (w.stream c).unread = head ++ DOUBLE_CRLF)
    (headless : findFirst DOUBLE_CRLF (w.stream c).leftoverBuffer = none) {as : List Action}
    (all : ∀ a ∈ as, a.internal = true) (hrun : run (next P server capacity) w as = some w') :
    as.length ≤ w.work server.threadCount.toNat ∧
    (Stuck P server capacity w' → ∃ keepAlive,
      (ClientRequestHandler.call P server 0 head (w.stream c).emptied).enqueued =
        [⟨0, keepAlive⟩] ∧
      w'.stage c = (if keepAlive then .watched else .closed) ∧
      w'.stream c = (ClientRequestHandler.call P server 0 head (w.stream c).emptied).stream) := by
  have undisturbed : Undisturbed P server capacity w := ⟨h, isOpen, calm⟩
  have bounded := lowers_work.length_le undisturbed all hrun
  refine ⟨by omega, fun stuck => ?_⟩
  have settled := (lowers_work.run_keeps undisturbed all hrun).settled_of_stuck pos workers stuck
  obtain ⟨polite, nothing⟩ := @trace_of_internal ρ _ P server capacity w w' c as noHangup all hrun
  have calmC := (calm c known).socket
  have gathered : Connection.Exchange P server (w.stream c).emptied head (w.stream c).unread
      ⟨w.stage c, w.stream c⟩ := .gathering waits headless
  apply answered_of_exchange h known rfl _ isHead gathered hrun polite _ settled.toIdle
  · intro fd tracked same
    exact (silent_of_unreported (same.trans plain) (settled.unreported fd c tracked)).received
  · exact ⟨calmC.schedule, calmC.fin, calmC.error, calmC.sends⟩
  · rw [nothing, List.append_nil, arrived]

/-- The request arrived before the client was announced. -/
theorem request_settles_unannounced :
    ∃ w, Reachable Initial (Step Platform.newestFirst HttpServer.emptyServer 65536) w ∧
      (w.stream 0).unread = chars "GET / HTTP/1.1" ++ DOUBLE_CRLF ∧
      w.stage 0 = .queued ∧ (∀ as w', (∀ a ∈ as, a.internal = true) →
        run (next Platform.newestFirst HttpServer.emptyServer 65536) w as = some w' →
        as.length ≤ w.work 1 ∧
        (Stuck Platform.newestFirst HttpServer.emptyServer 65536 w' → ∃ keepAlive,
          (ClientRequestHandler.call Platform.newestFirst HttpServer.emptyServer 0
            (chars "GET / HTTP/1.1") (w.stream 0).emptied).enqueued = [⟨0, keepAlive⟩] ∧
          w'.stage 0 = (if keepAlive then .watched else .closed) ∧
          w'.stream 0 = (ClientRequestHandler.call Platform.newestFirst HttpServer.emptyServer 0
            (chars "GET / HTTP/1.1") (w.stream 0).emptied).stream)) := by
  obtain ⟨w, reachable, state⟩ := @exists_reachable_of_run World Action Initial
    (next Platform.newestFirst HttpServer.emptyServer 65536) {}
    [.accept 5 .plain, .arrive 0 ⟨chars "GET / HTTP/1.1\r\n\r\n", false, none⟩]
    (fun w => w.accepted = 1 ∧ w.newFdChannel.writeOpen = true ∧ w.stage 0 = .queued ∧
      w.batch = [] ∧ w.stream 0 = { socket := { received := chars "GET / HTTP/1.1\r\n\r\n" } }) rfl
    (by decide +kernel)
  obtain ⟨accepted, isOpen, stage, empty, stream⟩ := of_decide_eq_true state
  have unread : (w.stream 0).unread = chars "GET / HTTP/1.1" ++ DOUBLE_CRLF := by
    rw [stream]
    decide
  have calm : w.Calm := by
    intro c known
    obtain rfl : c = 0 := by omega
    rw [stream]
    exact ⟨⟨rfl, rfl, rfl, nofun⟩, by decide⟩
  have noHangup : NoHangup w := by
    rw [NoHangup, empty]
    exact fun event member => absurd member List.not_mem_nil
  refine ⟨w, reachable, unread, stage, fun as w' all hrun => ?_⟩
  exact request_settles (by decide) (by decide) reachable isOpen calm noHangup
    (by rw [accepted]; decide) (by rw [stream]) (Or.inl stage) ⟨by decide, by decide⟩ unread
    (by rw [stream]; decide) all hrun

end World

end Lightning
