import Lightning.Socket

/-!
# Streams

The state of an `IStream` is the user-space `leftoverBuffer` together with the kernel socket;
`transport` says which of the two classes the object is. Both classes take bytes from
`leftoverBuffer` in the same way.
-/

namespace Lightning

/-- The class of a stream: `PlainStream` or `SSLStream`. -/
inductive Transport where
  | plain
  | ssl
  deriving DecidableEq, Repr

structure Stream where
  transport : Transport := .plain
  leftoverBuffer : Bytes := []
  socket : Socket := {}
  deriving DecidableEq, Repr

/-- A `std::vector<char>` of `amount` elements of which the front was overwritten. -/
def zeroFilled (amount : ℕ) (written : Bytes) : Bytes :=
  written ++ List.replicate (amount - written.length) 0

theorem length_zeroFilled (amount : ℕ) (written : Bytes) :
    (zeroFilled amount written).length = max amount written.length := by
  rw [zeroFilled, List.length_append, List.length_replicate]
  omega

theorem zeroFilled_of_le {amount : ℕ} {written : Bytes} (h : amount ≤ written.length) :
    zeroFilled amount written = written := by
  rw [zeroFilled, Nat.sub_eq_zero_of_le h, List.replicate_zero, List.append_nil]

/-- `size_t` to `int`. -/
def intOfSize (n : ℕ) : ℤ := (n : ℤ).bmod (2 ^ 32)

/-- `int` to `size_t`. -/
def sizeOfInt (i : ℤ) : ℕ := (i % 2 ^ 64).toNat

/-- The bytes a writing system call looks at when it is passed `buffer` and an `int` size. -/
def offered (buffer : Bytes) (size : ℤ) : Bytes := buffer.take (min (sizeOfInt size) MAX_RW_COUNT)

theorem intOfSize_of_lt {n : ℕ} (h : n < 2 ^ 31) : intOfSize n = n := by
  unfold intOfSize
  exact Int.bmod_eq_of_le (by omega) (by omega)

theorem sizeOfInt_natCast {n : ℕ} (h : n < 2 ^ 31) : sizeOfInt n = n := by
  unfold sizeOfInt
  rw [Int.emod_eq_of_lt (by omega) (by omega), Int.toNat_natCast]

theorem sizeOfInt_intOfSize {n : ℕ} (h : n < 2 ^ 31) : sizeOfInt (intOfSize n) = n := by
  rw [intOfSize_of_lt h, sizeOfInt_natCast h]

/-- A buffer shorter than the limit of the system call is offered whole. -/
theorem offered_of_le {buffer : Bytes} (h : buffer.length ≤ MAX_RW_COUNT) :
    offered buffer (intOfSize buffer.length) = buffer := by
  have limit : MAX_RW_COUNT < 2 ^ 31 := by decide
  rw [offered, sizeOfInt_intOfSize (by omega), Nat.min_eq_left h, List.take_length]

namespace Stream

/-- Every byte of the connection that is not read yet, in order. -/
def incoming (s : Stream) : Bytes := s.leftoverBuffer ++ s.socket.incoming

/-- The bytes that are not read yet and have already arrived. -/
def unread (s : Stream) : Bytes := s.leftoverBuffer ++ s.socket.received

theorem incoming_eq (s : Stream) :
    s.incoming = s.unread ++ s.socket.schedule.flatMap Arrival.bytes := by
  rw [incoming, unread, Socket.incoming, List.append_assoc]

/-- The bytes taken from `leftoverBuffer`; the rest of the returned vector is zero. -/
def readFromLeftover (amount : ℕ) (s : Stream) : Bytes × Stream :=
  if s.leftoverBuffer = [] then ([], s)
  else
    let toCopy := if amount > s.leftoverBuffer.length then s.leftoverBuffer.length else amount
    (s.leftoverBuffer.take toCopy, { s with leftoverBuffer := s.leftoverBuffer.drop toCopy })

theorem readFromLeftover_eq (amount : ℕ) (s : Stream) :
    s.readFromLeftover amount = (s.leftoverBuffer.take amount,
      { s with leftoverBuffer := s.leftoverBuffer.drop amount }) := by
  unfold readFromLeftover
  split_ifs with hempty hshort
  · rw [hempty, List.take_nil, List.drop_nil, ← hempty]
  · dsimp only
    rw [List.take_length, List.drop_length, List.take_of_length_le (Nat.le_of_lt hshort),
      List.drop_of_length_le (Nat.le_of_lt hshort)]
  · rfl

end Stream

end Lightning
