import Lightning.NonblockingClientManagerTask

/-!
# Extraction of a request head

Over any number of `EPOLLIN` events of a connection, whatever pieces its bytes arrive in, `peek`
accumulates a growing prefix of the byte sequence in `leftoverBuffer` and the search sees the first
terminator as soon as that prefix contains it, and never earlier (`findFirst_take` and
`findFirst_take_eq_none`). The read that follows is served from `leftoverBuffer` alone.
-/

namespace Lightning

open Search

namespace NonblockingClientManagerTask

variable {P : Platform} {fd pos n : ℕ} {client : ClientId} {w : World}

/-- The stream of a client after the `peek` of an event. -/
def peeked (P : Platform) (client : ClientId) (w : World) : Stream :=
  (IStream.peek P MAX_HEADER_BYTES (w.stream client)).2

theorem peeked_view (P : Platform) (client : ClientId) (w : World) :
    (IStream.peek P MAX_HEADER_BYTES (w.stream client)).1 = (peeked P client w).leftoverBuffer := by
  rw [peeked, IStream.peek_eq]
  rfl

theorem peeked_incoming (P : Platform) (client : ClientId) (w : World) :
    (peeked P client w).incoming = (w.stream client).incoming := by
  rw [peeked, IStream.peek_eq]
  exact (PlainStream.peek_spec MAX_HEADER_BYTES (w.stream client)).2.2.1

/-- `leftoverBuffer` holds a prefix of the bytes to come. -/
theorem peeked_leftover (P : Platform) (client : ClientId) (w : World) :
    (peeked P client w).leftoverBuffer =
      (w.stream client).incoming.take (peeked P client w).leftoverBuffer.length := by
  rw [← peeked_incoming P client w, Stream.incoming, List.take_left]

/-- The search sees the first terminator exactly when it is complete in `leftoverBuffer`. -/
theorem find_terminator
    (terminated : findFirst DOUBLE_CRLF (w.stream client).incoming = some pos) :
    findFirst DOUBLE_CRLF (peeked P client w).leftoverBuffer =
      if pos + 4 ≤ (peeked P client w).leftoverBuffer.length then some pos else none := by
  rw [peeked_leftover P client w]
  have same := congrArg List.length (peeked_leftover P client w)
  rw [← same]
  split_ifs with complete
  · exact findFirst_take terminated complete
  · exact findFirst_take_eq_none terminated (Nat.lt_of_not_le complete)

/-- A terminator that has arrived, within the limit of `peek`, is complete after the `peek`. -/
theorem complete_of_arrived (within : pos + 4 ≤ MAX_HEADER_BYTES)
    (arrived : pos + 4 ≤ (w.stream client).unread.length) :
    pos + 4 ≤ (peeked P client w).leftoverBuffer.length := by
  by_contra short
  have total := congrArg List.length (peeked_incoming P client w)
  have schedule : (peeked P client w).socket.schedule <:+ (w.stream client).socket.schedule := by
    rw [peeked, IStream.peek_eq]
    exact PlainStream.peekLoop_keeps
      (motive := fun k => k.schedule <:+ (w.stream client).socket.schedule)
      (fun len k h => by
        rw [Socket.recv_schedule]
        exact (List.tail_suffix _).trans h)
      (List.suffix_refl _)
  have dry : (peeked P client w).socket.received = [] := by
    rw [peeked, IStream.peek_eq] at short ⊢
    apply (PlainStream.peek_spec MAX_HEADER_BYTES (w.stream client)).2.2.2
    omega
  obtain ⟨past, hpast⟩ := schedule
  rw [Stream.incoming_eq, Stream.incoming_eq, ← hpast, Stream.unread, dry, List.flatMap_append]
    at total
  simp only [List.length_append, List.length_nil] at total
  omega

/-- What an event does while the terminator is incomplete. -/
def waiting (P : Platform) (fd : ℕ) (client : ClientId) (w : World) : World :=
  rearmFd fd (w.setStream client (peeked P client w))

/-- What an event does when the head that ends at `pos` is complete. -/
def dispatched (P : Platform) (fd pos : ℕ) (client : ClientId) (w : World) : World :=
  { w.setStream client { peeked P client w with
      leftoverBuffer := (peeked P client w).leftoverBuffer.drop (pos + 4) } with
    connections := w.connections.erase fd
    tasks := w.tasks ++ [⟨client, (w.stream client).incoming.take pos⟩] }

/-- An event dispatches exactly when the terminator is complete, and then the socket is as `peek`
left it: the read of `pos + 4` bytes takes them from `leftoverBuffer`. -/
theorem handleClientEvent_of_terminated (tracked : w.connections.lookup fd = some client)
    (terminated : findFirst DOUBLE_CRLF (w.stream client).incoming = some pos) :
    handleClientEvent P fd false w =
      .ok (if pos + 4 ≤ (peeked P client w).leftoverBuffer.length then dispatched P fd pos client w
        else waiting P fd client w) := by
  have found := find_terminator (P := P) terminated
  rw [handleClientEvent, tracked]
  dsimp only
  rw [if_neg Bool.false_ne_true, peeked_view, found, ← peeked]
  split_ifs with complete
  · dsimp only
    rw [IStream.read_of_le_leftover complete]
    have head : ((peeked P client w).leftoverBuffer.take (pos + 4)).take pos =
        (w.stream client).incoming.take pos := by
      rw [peeked_leftover P client w, List.take_take, List.take_take]
      congr 1
      omega
    dsimp only
    rw [head]
    simp only [dispatched, World.setStream, Function.update_idem]
  · rfl

/-- `EPOLLIN` events of one connection, one after the other. -/
def handleEvents (P : Platform) (fd : ℕ) : ℕ → World → Except CppException World
  | 0, w => .ok w
  | n + 1, w => (handleClientEvent P fd false w).bind (handleEvents P fd n)

/-- Nothing was dispatched: the connection is tracked, no byte is lost. -/
structure Waits (fd : ℕ) (client : ClientId) (w w' : World) : Prop where
  tracked : w'.connections.lookup fd = some client
  tasks : w'.tasks = w.tasks
  incoming : (w'.stream client).incoming = (w.stream client).incoming

/-- The head before the terminator at `pos` was dispatched, once, and what follows the terminator
is what remains: `leftoverBuffer` and then the bytes that are not received yet. -/
structure Dispatches (fd pos : ℕ) (client : ClientId) (w w' : World) : Prop where
  untracked : w'.connections.lookup fd = none
  tasks : w'.tasks = w.tasks ++ [⟨client, (w.stream client).incoming.take pos⟩]
  incoming : (w'.stream client).incoming = (w.stream client).incoming.drop (pos + 4)

theorem waits_waiting (tracked : w.connections.lookup fd = some client) :
    Waits fd client w (waiting P fd client w) := by
  have frame : ∃ interest, waiting P fd client w =
      { w.setStream client (peeked P client w) with interest := interest } := by
    unfold waiting rearmFd
    split_ifs
    · exact ⟨w.interest, rfl⟩
    · exact ⟨_, rfl⟩
  obtain ⟨interest, after⟩ := frame
  rw [after]
  refine ⟨tracked, rfl, ?_⟩
  show (Function.update w.stream client (peeked P client w) client).incoming = _
  rw [Function.update_self, peeked_incoming]

theorem dispatches_dispatched (complete : pos + 4 ≤ (peeked P client w).leftoverBuffer.length) :
    Dispatches fd pos client w (dispatched P fd pos client w) := by
  refine ⟨AList.lookup_erase fd w.connections, rfl, ?_⟩
  show (Function.update w.stream client _ client).incoming = _
  rw [Function.update_self, ← peeked_incoming P client w, Stream.incoming, Stream.incoming,
    List.drop_append_of_le_length complete]

/-- A connection that is not tracked is not touched. -/
theorem handleEvents_of_untracked (untracked : w.connections.lookup fd = none) (n : ℕ) :
    handleEvents P fd n w = .ok w := by
  induction n with
  | zero => rfl
  | succ n ih =>
    have same : handleClientEvent P fd false w = .ok w := by
      rw [handleClientEvent, untracked]
    rw [handleEvents, same]
    exact ih

theorem Waits.trans {w' w'' : World} (h : Waits fd client w w') (h' : Waits fd client w' w'') :
    Waits fd client w w'' :=
  ⟨h'.tracked, h'.tasks.trans h.tasks, h'.incoming.trans h.incoming⟩

theorem Waits.dispatches {w' w'' : World} (h : Waits fd client w w')
    (h' : Dispatches fd pos client w' w'') : Dispatches fd pos client w w'' :=
  ⟨h'.untracked, by rw [h'.tasks, h.tasks, h.incoming], by rw [h'.incoming, h.incoming]⟩

/-- What the next event of a waiting connection does. It dispatches if and only if the terminator is
complete in what `peek` has buffered, which is so when the terminator has arrived; the `read` behind
it is served from `leftoverBuffer` and leaves the socket as `peek` left it. -/
structure NextEvent (P : Platform) (fd pos : ℕ) (client : ClientId) (w : World) : Prop where
  result : handleClientEvent P fd false w =
    .ok (if pos + 4 ≤ (peeked P client w).leftoverBuffer.length then dispatched P fd pos client w
      else waiting P fd client w)
  arrived : pos + 4 ≤ (w.stream client).unread.length →
    pos + 4 ≤ (peeked P client w).leftoverBuffer.length
  served : pos + 4 ≤ (peeked P client w).leftoverBuffer.length →
    IStream.read P (pos + 4) (peeked P client w) =
      (.ok ((w.stream client).incoming.take (pos + 4)), { peeked P client w with
        leftoverBuffer := (peeked P client w).leftoverBuffer.drop (pos + 4) })

theorem nextEvent_of_terminated (tracked : w.connections.lookup fd = some client)
    (terminated : findFirst DOUBLE_CRLF (w.stream client).incoming = some pos)
    (within : pos + 4 ≤ MAX_HEADER_BYTES) : NextEvent P fd pos client w where
  result := handleClientEvent_of_terminated tracked terminated
  arrived := complete_of_arrived within
  served complete := by
    rw [IStream.read_of_le_leftover complete, peeked_leftover P client w, List.take_take,
      Nat.min_eq_left complete]

/-- After any number of events the connection waits for the rest of its head, with no byte lost, or
its head was dispatched once, cut at the first terminator. -/
theorem handleEvents_extract (n : ℕ) (tracked : w.connections.lookup fd = some client)
    (terminated : findFirst DOUBLE_CRLF (w.stream client).incoming = some pos)
    (within : pos + 4 ≤ MAX_HEADER_BYTES) :
    ∃ w', handleEvents P fd n w = .ok w' ∧
      (Waits fd client w w' ∧ NextEvent P fd pos client w' ∨ Dispatches fd pos client w w') := by
  induction n generalizing w with
  | zero =>
    exact ⟨w, rfl, Or.inl ⟨⟨tracked, rfl, rfl⟩, nextEvent_of_terminated tracked terminated within⟩⟩
  | succ n ih =>
    rw [handleEvents, handleClientEvent_of_terminated tracked terminated]
    show ∃ w', handleEvents P fd n _ = .ok w' ∧ _
    split_ifs with complete
    · have done := @dispatches_dispatched P fd pos client w complete
      exact ⟨_, handleEvents_of_untracked done.untracked n, Or.inr done⟩
    · have waits := waits_waiting (P := P) tracked
      obtain ⟨w', run, waits' | dispatches⟩ := ih waits.tracked (by rw [waits.incoming, terminated])
      · exact ⟨w', run, Or.inl ⟨waits.trans waits'.1, waits'.2⟩⟩
      · exact ⟨w', run, Or.inr (waits.dispatches dispatches)⟩

/-- Three events of a head whose terminator is cut in the middle, with a would-block between. -/
theorem handleEvents_extract_cut :
    let w : World := {
      accepted := 1
      getFd := fun _ => 5
      stream := fun _ => { socket := { schedule := [⟨chars "GET / HTTP/1.1\r\n\r", false, none⟩,
        {}, ⟨chars "\nrest", false, none⟩] } }
      connections := AList.singleton 5 0 }
    ∃ w', handleEvents Platform.newestFirst 5 3 w = .ok w' ∧
      (Waits 5 0 w w' ∧ NextEvent Platform.newestFirst 5 14 0 w' ∨ Dispatches 5 14 0 w w') :=
  handleEvents_extract 3 rfl (by decide) (by decide)

end NonblockingClientManagerTask

end Lightning
