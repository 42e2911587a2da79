import Lightning.SSLStream

/-!
# `IStream`

The virtual functions dispatch on the class of the object. The lemmas say what `read` does to the
bytes of the connection for both classes alike: it takes a prefix (`read_suffix`), exactly `amount`
bytes when these have arrived (`read_of_le_unread`), nothing when nothing is there
(`read_of_dry`), and something otherwise (`read_length_lt`). `read` does not touch the sending
side, `write` does not touch the receiving side.
-/

namespace Lightning

namespace IStream

def read (P : Platform) (amount : ℕ) (s : Stream) : Except CppException Bytes × Stream :=
  match s.transport with
  | .plain => PlainStream.read amount s
  | .ssl => SSLStream.read P amount s

def write (buffer : Bytes) (size : ℤ) (s : Stream) : Except CppException ℤ × Stream :=
  match s.transport with
  | .plain => PlainStream.write buffer size s
  | .ssl => SSLStream.write buffer size s

def peek (P : Platform) (amount : ℕ) (s : Stream) : Bytes × Stream :=
  match s.transport with
  | .plain => PlainStream.peek amount s
  | .ssl => SSLStream.peek P amount s

theorem peek_eq (P : Platform) (amount : ℕ) (s : Stream) :
    peek P amount s = PlainStream.peek amount s := by
  unfold peek
  cases s.transport with
  | plain => rfl
  | ssl => exact SSLStream.peek_eq P amount s

/-! ## `read` -/

section Read

variable {P : Platform} {amount : ℕ} {s : Stream}

theorem read_of_plain (plain : s.transport = .plain) :
    read P amount s = PlainStream.read amount s := by
  rw [read, plain]

/-- The `recv` loop of the two classes, from the bytes served from `leftoverBuffer`. -/
def readLoop (P : Platform) (amount : ℕ) (s : Stream) : Socket :=
  match s.transport with
  | .plain => (PlainStream.readLoop amount (amount + 1) (s.leftoverBuffer.take amount) s.socket).2
  | .ssl => (SSLStream.readLoop P amount (amount + 2) (s.leftoverBuffer.take amount) []
      s.socket).2.2

/-- How often the loop calls `recv` when everything it asks for has arrived. -/
def polls (amount : ℕ) (s : Stream) : ℕ :=
  if amount ≤ s.leftoverBuffer.length then 0
  else
    match s.transport with
    | .plain => 1
    | .ssl => 2

/-- The stream that `read` leaves, whatever it answers. -/
theorem read_stream (P : Platform) (amount : ℕ) (s : Stream) :
    (read P amount s).2 =
      if amount ≤ s.leftoverBuffer.length then
        { s with leftoverBuffer := s.leftoverBuffer.drop amount }
      else
        { s with
          leftoverBuffer := s.leftoverBuffer.drop amount
          socket := readLoop P amount s } := by
  obtain ⟨transport, leftover, k⟩ := s
  cases transport with
  | plain =>
    split_ifs with served
    · exact congrArg Prod.snd (PlainStream.read_of_le_leftover served)
    · exact congrArg Prod.snd PlainStream.read_eq
  | ssl => exact SSLStream.read_stream P amount _

@[simp] theorem read_transport : (read P amount s).2.transport = s.transport := by
  rw [read_stream]
  split_ifs <;> rfl

theorem read_leftoverBuffer :
    (read P amount s).2.leftoverBuffer = s.leftoverBuffer.drop amount := by
  rw [read_stream]
  split_ifs <;> rfl

/-- Served from `leftoverBuffer`, `read` does not touch the socket. -/
theorem read_of_le_leftover (h : amount ≤ s.leftoverBuffer.length) :
    read P amount s = (.ok (s.leftoverBuffer.take amount),
      { s with leftoverBuffer := s.leftoverBuffer.drop amount }) := by
  obtain ⟨transport, leftover, k⟩ := s
  cases transport with
  | plain => exact PlainStream.read_of_le_leftover h
  | ssl =>
    have served : (leftover.take amount).length ≥ amount := by
      rw [List.length_take]
      exact Nat.le_min.mpr ⟨Nat.le_refl _, h⟩
    simp only [read, SSLStream.read, Stream.readFromLeftover_eq, if_pos served]

/-- What every single `recv` keeps, `read` keeps. -/
theorem read_keeps {motive : Socket → Prop} (step : ∀ len k, motive k → motive (k.recv len).2)
    (h : motive s.socket) : motive (read P amount s).2.socket := by
  rw [read_stream]
  split_ifs
  · exact h
  · change motive (readLoop P amount s)
    unfold readLoop
    cases s.transport with
    | plain => exact PlainStream.readLoop_keeps step h
    | ssl => exact SSLStream.readLoop_keeps step h

@[simp] theorem read_sends : (read P amount s).2.socket.sends = s.socket.sends :=
  read_keeps (motive := fun k => k.sends = s.socket.sends)
    (fun len k h => by rw [Socket.recv_sends, h]) rfl

@[simp] theorem read_sent : (read P amount s).2.socket.sent = s.socket.sent :=
  read_keeps (motive := fun k => k.sent = s.socket.sent)
    (fun len k h => by rw [Socket.recv_sent, h]) rfl

theorem readLoop_of_le_unread (short : s.leftoverBuffer.length < amount)
    (arrived : amount ≤ s.unread.length) :
    (readLoop P amount s).received =
        s.socket.received.drop (amount - s.leftoverBuffer.length) ++
          (s.socket.schedule.take (polls amount s)).flatMap Arrival.bytes ∧
      (readLoop P amount s).schedule = s.socket.schedule.drop (polls amount s) := by
  obtain ⟨transport, leftover, k⟩ := s
  rw [Stream.unread, List.length_append] at arrived
  dsimp only at short arrived ⊢
  have whole : leftover.take amount = leftover := List.take_of_length_le (Nat.le_of_lt short)
  have first := Socket.recv_of_le_received (amount - leftover.length) k (by omega) (by omega)
  simp only [readLoop, polls, if_neg (Nat.not_le.mpr short), whole]
  cases transport with
  | plain =>
    rw [PlainStream.readLoop_of_le_received short (by omega)]
    exact ⟨rfl, by rw [Socket.poll_schedule]; simp⟩
  | ssl =>
    have full : amount ≤ (leftover ++ k.received.take (amount - leftover.length)).length := by
      rw [List.length_append, List.length_take]
      omega
    dsimp only
    rw [SSLStream.readLoop_data (by rwa [List.append_nil])
      (by rw [List.append_nil]; exact congrArg Prod.fst first), List.append_nil,
      SSLStream.readLoop_full full, Socket.recv_zero_received, Socket.recv_schedule, first]
    simp only [Socket.arriving, Socket.poll_schedule, List.append_assoc]
    rcases k.schedule with _ | ⟨a, _ | ⟨b, rest⟩⟩ <;> simp

/-- Exactly `amount` bytes are taken when they have arrived; meanwhile the next arrivals happen. -/
theorem read_of_le_unread (arrived : amount ≤ s.unread.length) :
    (read P amount s).2.unread =
        s.unread.drop amount ++ (s.socket.schedule.take (polls amount s)).flatMap Arrival.bytes ∧
      (read P amount s).2.socket.schedule = s.socket.schedule.drop (polls amount s) := by
  rw [read_stream]
  split_ifs with served
  · simp only [polls, if_pos served, List.take_zero, List.flatMap_nil, List.append_nil,
      Stream.unread, List.drop_append_of_le_length served, List.drop_zero, and_self]
  · have short := Nat.lt_of_not_le served
    obtain ⟨received, schedule⟩ := readLoop_of_le_unread (P := P) short arrived
    refine ⟨?_, schedule⟩
    rw [Stream.unread, Stream.unread, received, List.drop_append, List.append_assoc]

theorem read_incoming_of_le_unread (arrived : amount ≤ s.unread.length) :
    (read P amount s).2.incoming = s.incoming.drop amount := by
  obtain ⟨unread, schedule⟩ := read_of_le_unread (P := P) arrived
  rw [Stream.incoming_eq, unread, schedule, Stream.incoming_eq,
    List.drop_append_of_le_length arrived, List.append_assoc, ← List.flatMap_append,
    List.take_append_drop]

/-- The stream holds no byte and none reaches it before the next call of `recv`. -/
def Dry (s : Stream) : Prop := s.leftoverBuffer = [] ∧ s.socket.poll.received = []

theorem readLoop_of_stop (short : s.leftoverBuffer.length < amount)
    (h : (s.socket.recv (amount - s.leftoverBuffer.length)).1 = .eof ∨
      ∃ errno, (s.socket.recv (amount - s.leftoverBuffer.length)).1 = .fail errno) :
    readLoop P amount s = (s.socket.recv (amount - s.leftoverBuffer.length)).2 := by
  have whole : s.leftoverBuffer.take amount = s.leftoverBuffer :=
    List.take_of_length_le (Nat.le_of_lt short)
  simp only [readLoop, whole]
  cases s.transport with
  | plain => exact (PlainStream.readLoop_of_stop short h).1
  | ssl =>
    have last := @SSLStream.readLoop_stop P amount (amount + 1) s.leftoverBuffer [] s.socket
    rw [List.append_nil] at last
    exact last h

/-- The first call of `recv` already takes what it can get. -/
theorem readLoop_suffix (short : s.leftoverBuffer.length < amount) :
    (readLoop P amount s).incoming <:+
      (s.socket.recv (amount - s.leftoverBuffer.length)).2.incoming := by
  rcases Socket.recv_cases (amount - s.leftoverBuffer.length) s.socket with
    ⟨bytes, hdata, -⟩ | ⟨hstop, -⟩
  · have whole : s.leftoverBuffer.take amount = s.leftoverBuffer :=
      List.take_of_length_le (Nat.le_of_lt short)
    simp only [readLoop, whole]
    cases s.transport with
    | plain =>
      dsimp only
      rw [PlainStream.readLoop_of_data short hdata]
      exact PlainStream.readLoop_suffix
    | ssl =>
      have next := @SSLStream.readLoop_data P amount (amount + 1) s.leftoverBuffer [] s.socket bytes
      rw [List.append_nil] at next
      dsimp only
      rw [next short hdata]
      exact SSLStream.readLoop_suffix
  · have stopped := readLoop_of_stop (P := P) short hstop
    exact ⟨[], by rw [stopped, List.nil_append]⟩

theorem read_of_dry (pos : 0 < amount) (dry : Dry s) :
    (read P amount s).2.unread = [] ∧
      (read P amount s).2.socket.schedule = s.socket.schedule.tail := by
  obtain ⟨empty, hk⟩ := dry
  have short : s.leftoverBuffer.length < amount := by
    rw [empty]
    exact pos
  obtain ⟨stop, error, after⟩ :=
    Socket.recv_of_nil (amount - s.leftoverBuffer.length) hk
  rw [read_stream, if_neg (Nat.not_le.mpr short), readLoop_of_stop short stop, after, empty]
  exact ⟨by rw [Stream.unread, List.drop_nil]; exact hk, Socket.poll_schedule s.socket⟩

/-- `read` takes a prefix of the bytes to come. -/
theorem read_suffix (P : Platform) (amount : ℕ) (s : Stream) :
    (read P amount s).2.incoming <:+ s.incoming := by
  rw [read_stream]
  split_ifs with served
  · exact (List.suffix_append_self_iff).mpr (List.drop_suffix _ _)
  · have short := Nat.lt_of_not_le served
    have socket := (readLoop_suffix (P := P) short).trans (Socket.recv_suffix _ _)
    rw [Stream.incoming, List.drop_of_length_le (Nat.le_of_lt short)]
    exact socket.trans (List.suffix_append _ _)

theorem read_length_lt (pos : 0 < amount) (h : ¬ Dry s) :
    (read P amount s).2.incoming.length < s.incoming.length := by
  by_cases empty : s.leftoverBuffer = []
  · have short : s.leftoverBuffer.length < amount := by
      rw [empty]
      exact pos
    have arrived : s.socket.poll.received ≠ [] := fun hk => h ⟨empty, hk⟩
    have loop := (readLoop_suffix (P := P) short).length_le
    have first := Socket.recv_length_lt (amount - s.leftoverBuffer.length)
      (Nat.sub_pos_of_lt short) arrived
    rw [read_stream, if_neg (Nat.not_le.mpr short)]
    simp only [Stream.incoming, empty, List.drop_nil, List.nil_append] at loop first ⊢
    omega
  · have := (@read_keeps P amount s (fun k => k.incoming <:+ s.socket.incoming)
      (fun len k h => (k.recv_suffix len).trans h) (List.suffix_refl _)).length_le
    have := List.length_pos_iff.mpr empty
    simp only [Stream.incoming, read_leftoverBuffer, List.length_append, List.length_drop]
    omega

end Read

/-! ## `write` -/

section Write

variable {buffer : Bytes} {size : ℤ} {s : Stream}

/-- `write` throws exactly when the system call fails. -/
theorem write_error_iff :
    (∃ e, (write buffer size s).1 = .error e) ↔ s.socket.SendFails := by
  obtain ⟨transport, leftover, k⟩ := s
  constructor
  · intro thrown
    by_contra sent
    cases transport <;>
      simp [write, PlainStream.write, SSLStream.write, SSL_write_ex,
        Socket.send_of_not_fails sent] at thrown
  · rintro ⟨errno, fails⟩
    cases transport <;>
      simp [write, PlainStream.write, SSLStream.write, SSL_write_ex, Socket.send_of_fails fails]

/-- Whatever the outcome, one outcome of `send` is used and the receiving side is untouched. -/
theorem write_stream (buffer : Bytes) (size : ℤ) (s : Stream) :
    ∃ sent, (write buffer size s).2 =
      { s with socket := { s.socket with sends := s.socket.sends.tail, sent := sent } } := by
  obtain ⟨transport, leftover, k⟩ := s
  by_cases h : k.SendFails
  · obtain ⟨errno, fails⟩ := h
    refine ⟨k.sent, ?_⟩
    cases transport <;>
      simp only [write, PlainStream.write, SSLStream.write, SSL_write_ex,
        Socket.send_of_fails fails]
  · cases transport <;>
      simp only [write, PlainStream.write, SSLStream.write, SSL_write_ex,
        Socket.send_of_not_fails h] <;>
      exact ⟨_, rfl⟩

@[simp] theorem write_incoming : (write buffer size s).2.incoming = s.incoming := by
  obtain ⟨sent, after⟩ := write_stream buffer size s
  rw [after]
  rfl

@[simp] theorem write_sends : (write buffer size s).2.socket.sends = s.socket.sends.tail := by
  obtain ⟨sent, after⟩ := write_stream buffer size s
  rw [after]

/-- The bytes that a call of `write` passes to the system. -/
def handed (transport : Transport) (buffer : Bytes) (size : ℤ) : Bytes :=
  match transport with
  | .plain => offered buffer size
  | .ssl => buffer.take (sizeOfInt size)

/-- `write` depends on the bytes that it passes on only. -/
theorem write_congr {buffer' : Bytes} {size' : ℤ}
    (same : handed s.transport buffer size = handed s.transport buffer' size') :
    write buffer size s = write buffer' size' s := by
  obtain ⟨transport, leftover, k⟩ := s
  cases transport with
  | plain =>
    have same : offered buffer size = offered buffer' size' := same
    simp only [write, PlainStream.write, same]
  | ssl =>
    have same : buffer.take (sizeOfInt size) = buffer'.take (sizeOfInt size') := same
    simp only [write, SSLStream.write, SSL_write_ex, same]

/-- `write` hands over what the system call takes of the bytes it looks at. -/
theorem write_sent (h : ¬ s.socket.SendFails) :
    (write buffer size s).2.socket.sent =
      s.socket.sent ++ (handed s.transport buffer size).take
        (s.socket.accepted (handed s.transport buffer size).length) := by
  obtain ⟨transport, leftover, k⟩ := s
  cases transport <;>
    simp only [write, PlainStream.write, SSLStream.write, SSL_write_ex, handed,
      Socket.send_of_not_fails h]

theorem write_sent_of_plain (plain : s.transport = .plain) (h : ¬ s.socket.SendFails) :
    (write buffer size s).2.socket.sent =
      s.socket.sent ++ (offered buffer size).take
        (s.socket.accepted (offered buffer size).length) := by
  rw [write_sent h, plain]
  rfl

end Write

end IStream

end Lightning
