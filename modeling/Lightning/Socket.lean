import Lightning.Basic

/-!
# The kernel side of a connected, non-blocking socket

`HttpServer::start` sets `O_NONBLOCK` on every accepted socket, so `recv` and `send` never wait.
What the peer and the kernel do is data: `schedule` lists what reaches the receive buffer before
each of the next calls of `recv`, and `sends` lists the outcomes of the next calls of `send`. A
statement about every way in which the bytes arrive quantifies over these lists. Past the end of
`schedule` nothing more arrives, past the end of `sends` everything offered is accepted.
-/

namespace Lightning

/-- What reaches the receive buffer between two calls of `recv`. -/
structure Arrival where
  bytes : Bytes := []
  fin : Bool := false
  error : Option ℤ := none
  deriving DecidableEq, Repr

/-- The outcome of one call of `send`: how many of the offered bytes it takes at most, or an
error. -/
inductive SendResult where
  | accepts (count : ℕ)
  | fails (errno : ℤ)
  deriving DecidableEq, Repr

structure Socket where
  /-- The receive buffer: bytes that have arrived and were not read. -/
  received : Bytes := []
  /-- The peer has ended its sending side. -/
  fin : Bool := false
  /-- The pending socket error. -/
  error : Option ℤ := none
  schedule : List Arrival := []
  sends : List SendResult := []
  /-- Everything `send` has taken so far. -/
  sent : Bytes := []
  deriving DecidableEq, Repr

/-- The result of `recv`: some bytes, `0`, or `-1` with an `errno`. -/
inductive Recv where
  | data (bytes : Bytes)
  | eof
  | fail (errno : ℤ)
  deriving DecidableEq, Repr

def EAGAIN : ℤ := 11

/-- The largest number of bytes one system call transfers on Linux. -/
def MAX_RW_COUNT : ℕ := 0x7ffff000

namespace Socket

def arrive (a : Arrival) (k : Socket) : Socket :=
  { k with
    received := k.received ++ a.bytes
    fin := k.fin || a.fin
    error := a.error.or k.error }

/-- The next entry of the schedule takes place. -/
def poll (k : Socket) : Socket :=
  match k.schedule with
  | [] => k
  | a :: rest => { k.arrive a with schedule := rest }

/-- `recv(fd, _, len, 0)`. A pending error or the end of the stream shows only once the receive
buffer is empty. -/
def recv (len : ℕ) (k : Socket) : Recv × Socket :=
  let k := k.poll
  if k.received = [] then
    match k.error with
    | some errno => (.fail errno, { k with error := none })
    | none => if k.fin then (.eof, k) else (.fail EAGAIN, k)
  else (.data (k.received.take len), { k with received := k.received.drop len })

/-- `send(fd, _, _, 0)` where `offered` are the bytes of the range that is passed. -/
def send (offered : Bytes) (k : Socket) : Except ℤ ℕ × Socket :=
  match k.sends with
  | [] => (.ok offered.length, { k with sent := k.sent ++ offered })
  | .accepts count :: rest =>
      let taken := min count offered.length
      (.ok taken, { k with sends := rest, sent := k.sent ++ offered.take taken })
  | .fails errno :: rest => (.error errno, { k with sends := rest })

/-- Every byte that is not read yet: those in the receive buffer, then those still to arrive. -/
def incoming (k : Socket) : Bytes := k.received ++ k.schedule.flatMap Arrival.bytes

/-! ## Reading -/

@[simp] theorem poll_incoming (k : Socket) : k.poll.incoming = k.incoming := by
  unfold poll incoming
  cases h : k.schedule <;> simp [arrive, h]

@[simp] theorem poll_sends (k : Socket) : k.poll.sends = k.sends := by
  unfold poll
  cases k.schedule <;> rfl

@[simp] theorem poll_sent (k : Socket) : k.poll.sent = k.sent := by
  unfold poll
  cases k.schedule <;> rfl

@[simp] theorem poll_schedule (k : Socket) : k.poll.schedule = k.schedule.tail := by
  unfold poll
  cases h : k.schedule <;> simp [h]

/-- The bytes that the next call of `recv` finds besides those received already. -/
def arriving (k : Socket) : Bytes := (k.schedule.take 1).flatMap Arrival.bytes

theorem poll_received (k : Socket) : k.poll.received = k.received ++ k.arriving := by
  unfold poll arriving
  cases h : k.schedule <;> simp [arrive]

theorem recv_of_ne {len : ℕ} {k : Socket} (h : k.poll.received ≠ []) :
    k.recv len = (.data (k.poll.received.take len),
      { k.poll with received := k.poll.received.drop len }) := by
  simp only [recv, if_neg h]

theorem recv_of_nil (len : ℕ) {k : Socket} (h : k.poll.received = []) :
    ((k.recv len).1 = .eof ∨ ∃ errno, (k.recv len).1 = .fail errno) ∧
      ∃ error, (k.recv len).2 = { k.poll with error := error } := by
  simp only [recv, if_pos h]
  cases he : k.poll.error with
  | some errno => exact ⟨Or.inr ⟨errno, rfl⟩, none, rfl⟩
  | none =>
    dsimp only
    split_ifs
    · exact ⟨Or.inl rfl, k.poll.error, rfl⟩
    · exact ⟨Or.inr ⟨EAGAIN, rfl⟩, k.poll.error, rfl⟩

/-- A call of `recv` either takes the front of the incoming bytes, or finds the receive buffer
empty and takes nothing. -/
theorem recv_cases (len : ℕ) (k : Socket) :
    (∃ bytes, (k.recv len).1 = .data bytes ∧ bytes ++ (k.recv len).2.incoming = k.incoming ∧
      bytes.length ≤ len ∧ (0 < len → bytes ≠ [])) ∨
    (((k.recv len).1 = .eof ∨ ∃ errno, (k.recv len).1 = .fail errno) ∧
      (k.recv len).2.received = [] ∧ (k.recv len).2.incoming = k.incoming) := by
  by_cases h : k.poll.received = []
  · right
    obtain ⟨stop, error, after⟩ := recv_of_nil len h
    rw [after]
    exact ⟨stop, h, poll_incoming k⟩
  · left
    rw [recv_of_ne h]
    refine ⟨_, rfl, ?_, List.length_take_le _ _, fun hlen => ?_⟩
    · rw [← poll_incoming k, incoming, incoming, ← List.append_assoc, List.take_append_drop]
    · simp only [ne_eq, List.take_eq_nil_iff, h, or_false]
      omega

theorem recv_suffix (len : ℕ) (k : Socket) : (k.recv len).2.incoming <:+ k.incoming := by
  rcases recv_cases len k with ⟨bytes, -, hsplit, -⟩ | ⟨-, -, hsame⟩
  · exact ⟨bytes, hsplit⟩
  · exact ⟨[], hsame⟩

theorem recv_length_lt (len : ℕ) {k : Socket} (pos : 0 < len) (h : k.poll.received ≠ []) :
    (k.recv len).2.incoming.length < k.incoming.length := by
  rw [recv_of_ne h, ← poll_incoming k]
  simp only [incoming, List.length_append, List.length_drop]
  have := List.length_pos_iff.mpr h
  omega

/-- `recv` touches nothing but the receive side. -/
theorem recv_frame (len : ℕ) (k : Socket) :
    ∃ received error, (k.recv len).2 = { k.poll with received := received, error := error } := by
  by_cases h : k.poll.received = []
  · obtain ⟨-, error, after⟩ := recv_of_nil len h
    exact ⟨k.poll.received, error, after⟩
  · rw [recv_of_ne h]
    exact ⟨_, _, rfl⟩

@[simp] theorem recv_sends (len : ℕ) (k : Socket) : (k.recv len).2.sends = k.sends := by
  obtain ⟨received, error, h⟩ := recv_frame len k
  rw [h]
  exact poll_sends k

@[simp] theorem recv_sent (len : ℕ) (k : Socket) : (k.recv len).2.sent = k.sent := by
  obtain ⟨received, error, h⟩ := recv_frame len k
  rw [h]
  exact poll_sent k

@[simp] theorem recv_schedule (len : ℕ) (k : Socket) :
    (k.recv len).2.schedule = k.schedule.tail := by
  obtain ⟨received, error, h⟩ := recv_frame len k
  rw [h]
  exact poll_schedule k

/-- A call that asks for nothing only lets the next arrival happen. -/
theorem recv_zero_received (k : Socket) :
    (k.recv 0).2.received = k.received ++ k.arriving := by
  rw [← poll_received]
  by_cases h : k.poll.received = []
  · obtain ⟨-, error, after⟩ := recv_of_nil 0 h
    rw [after]
  · rw [recv_of_ne h]
    rfl

/-- What has arrived is delivered without a pause. -/
theorem recv_of_le_received (len : ℕ) (k : Socket) (pos : 0 < len)
    (arrived : len ≤ k.received.length) :
    k.recv len = (.data (k.received.take len),
      { k.poll with received := k.received.drop len ++ k.arriving }) := by
  have hne : k.poll.received ≠ [] := by
    rw [poll_received, ne_eq, List.append_eq_nil_iff, not_and_or]
    exact Or.inl (List.ne_nil_of_length_pos (by omega))
  rw [recv_of_ne hne, poll_received, List.take_append_of_le_length arrived,
    List.drop_append_of_le_length arrived]

/-! ## Writing -/

/-- The next call of `send` fails. -/
def SendFails (k : Socket) : Prop := ∃ errno, k.sends.head? = some (.fails errno)

/-- How many of `size` offered bytes the next call of `send` takes. -/
def accepted (size : ℕ) (k : Socket) : ℕ :=
  match k.sends.head? with
  | none => size
  | some (.accepts count) => min count size
  | some (.fails _) => 0

theorem send_of_fails {offered : Bytes} {k : Socket} {errno : ℤ}
    (h : k.sends.head? = some (.fails errno)) :
    k.send offered = (.error errno, { k with sends := k.sends.tail }) := by
  unfold send
  cases hs : k.sends with
  | nil => simp [hs] at h
  | cons r rest =>
    rw [hs, List.head?_cons, Option.some.injEq] at h
    subst h
    rfl

theorem send_of_not_fails {offered : Bytes} {k : Socket} (h : ¬ k.SendFails) :
    k.send offered = (.ok (k.accepted offered.length), { k with
      sends := k.sends.tail
      sent := k.sent ++ offered.take (k.accepted offered.length) }) := by
  unfold send accepted
  cases hs : k.sends with
  | nil =>
    simp only [List.head?_nil, List.tail_nil, List.take_length]
  | cons r rest =>
    cases r with
    | accepts count => rfl
    | fails errno => exact absurd ⟨errno, by rw [hs]; rfl⟩ h

end Socket

end Lightning
