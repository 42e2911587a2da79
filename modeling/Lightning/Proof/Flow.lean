import Lightning.IStream
import Lightning.PlainStreamInt

/-!
# What a socket delivers before it pauses

The loops of `read` and `peek` ask `recv` for all they still need, so every call but the last takes
everything that has arrived. `Socket.flow` is what such calls deliver until one returns no byte, and
why that one does: the loops are closed forms over it (`readLoopWritten_eq`, `peekLoop_eq_flow`, and
for `SSLStream` the two lemmas about its loop).
-/

namespace Lightning

namespace Socket

/-- Why `recv` returns no byte: its `errno`, or `none` at the end of the stream. -/
def silence (fin : Bool) (error : Option ℤ) : Option ℤ :=
  error.or (if fin then none else some EAGAIN)

def flowFrom : List Arrival → Bytes → Bool → Option ℤ → Bytes × Option ℤ
  | [], received, fin, error => (received, silence fin error)
  | a :: schedule, received, fin, error =>
      if received ++ a.bytes = [] then ([], silence (fin || a.fin) (a.error.or error))
      else
        let later := flowFrom schedule [] (fin || a.fin) (a.error.or error)
        (received ++ a.bytes ++ later.1, later.2)

/-- The bytes that arrive without a pause, and what `recv` says then. -/
def flow (k : Socket) : Bytes × Option ℤ := flowFrom k.schedule k.received k.fin k.error

/-- The result of a call of `recv` that returns no byte. -/
def stop : Option ℤ → Recv
  | none => .eof
  | some errno => .fail errno

variable {len : ℕ} {k : Socket} {bytes : Bytes}

theorem flow_of_nil (h : k.poll.received = []) :
    k.flow = ([], silence k.poll.fin k.poll.error) := by
  rw [poll_received] at h
  unfold flow poll
  cases hs : k.schedule with
  | nil => simp_all [flowFrom, arriving]
  | cons a schedule => simp_all [flowFrom, arriving, arrive]

/-- What has arrived is taken whole, then the next arrivals come. -/
theorem flow_of_ne (h : k.poll.received ≠ []) :
    k.flow = (k.poll.received ++ ({ k.poll with received := [] } : Socket).flow.1,
      ({ k.poll with received := [] } : Socket).flow.2) := by
  rw [poll_received] at h
  unfold flow poll
  cases hs : k.schedule with
  | nil => simp [flowFrom, hs]
  | cons a schedule =>
    have arrived : k.received ++ a.bytes ≠ [] := by simpa [arriving, hs] using h
    rw [flowFrom, if_neg arrived]
    rfl

theorem recv_eq_stop (h : k.poll.received = []) : (k.recv len).1 = stop k.flow.2 := by
  rw [flow_of_nil h]
  simp only [recv, if_pos h, silence]
  cases k.poll.error with
  | some errno => rfl
  | none =>
    dsimp only
    split_ifs <;> rfl

/-- What a call of `recv` does to the flow: it finds the end, it gets all it asks for, or it takes
everything that has arrived. -/
inductive RecvFlow (len : ℕ) (k : Socket) : Prop
  | stops (nothing : k.flow.1 = []) (stopped : (k.recv len).1 = stop k.flow.2)
      (same : (k.recv len).2.incoming = k.incoming)
  | fills (bytes : Bytes) (hdata : (k.recv len).1 = .data bytes) (full : bytes.length = len)
      (taken : k.flow.1.take len = bytes) (after : bytes ++ (k.recv len).2.incoming = k.incoming)
  | drains (bytes : Bytes) (hdata : (k.recv len).1 = .data bytes) (progress : 0 < bytes.length)
      (short : bytes.length < len)
      (flows : k.flow = (bytes ++ (k.recv len).2.flow.1, (k.recv len).2.flow.2))
      (after : bytes ++ (k.recv len).2.incoming = k.incoming)

theorem recv_flow (len : ℕ) (k : Socket) : RecvFlow len k := by
  by_cases h : k.poll.received = []
  · obtain ⟨-, error, after⟩ := recv_of_nil len h
    apply RecvFlow.stops
    · rw [flow_of_nil h]
    · exact recv_eq_stop h
    · rw [after]
      exact poll_incoming k
  · have data : (k.recv len).1 = .data (k.poll.received.take len) := by
      rw [recv_of_ne h]
    have after : k.poll.received.take len ++ (k.recv len).2.incoming = k.incoming := by
      rw [recv_of_ne h, ← poll_incoming k, incoming, incoming, ← List.append_assoc,
        List.take_append_drop]
    by_cases full : len ≤ k.poll.received.length
    · apply RecvFlow.fills _ data (List.length_take_of_le full) _ after
      rw [flow_of_ne h, List.take_append_of_le_length full]
    · have all : k.poll.received.take len = k.poll.received := List.take_of_length_le (by omega)
      rw [all] at data after
      apply RecvFlow.drains _ data (List.length_pos_iff.mpr h) (Nat.lt_of_not_le full) _ after
      rw [flow_of_ne h, recv_of_ne h, List.drop_of_length_le (by omega)]

end Socket

namespace PlainStream

open Socket

variable {amount fuel : ℕ} {written buffer : Bytes} {k : Socket}

/-- How the loop of `read` ends when these bytes came before the pause. -/
def readResult (amount : ℕ) (total : Bytes) (last : Option ℤ) : Except CppException Bytes :=
  if amount ≤ total.length then .ok (total.take amount)
  else last.elim (.ok total) fun errno => .error (.lowLevelApi "recv() failed" errno errno)

theorem readLoopWritten_of_le (h : amount ≤ written.length) :
    readLoopWritten amount fuel written k = (.ok written, k) := by
  cases fuel with
  | zero => rfl
  | succ fuel => rw [readLoopWritten, if_neg (Nat.not_lt.mpr h)]

theorem readLoopWritten_of_data {bytes : Bytes} (short : written.length < amount)
    (hdata : (k.recv (amount - written.length)).1 = .data bytes) :
    readLoopWritten amount (fuel + 1) written k =
      readLoopWritten amount fuel (written ++ bytes) (k.recv (amount - written.length)).2 := by
  rw [readLoopWritten, if_pos short, show k.recv (amount - written.length) = (.data bytes, _) from
    Prod.ext hdata rfl]

/-- The loop of `read` takes the flow up to `amount`. -/
theorem readLoopWritten_eq (enough : amount - written.length < fuel)
    (bound : written.length ≤ amount) :
    (readLoopWritten amount fuel written k).1 =
        readResult amount (written ++ k.flow.1) k.flow.2 ∧
      k.flow.1.take (amount - written.length) ++
        (readLoopWritten amount fuel written k).2.incoming = k.incoming := by
  induction fuel generalizing written k with
  | zero => omega
  | succ fuel ih =>
    by_cases short : written.length < amount
    · cases recv_flow (amount - written.length) k with
      | stops nothing stopped same =>
        rw [readLoopWritten, if_pos short]
        rcases hrecv : k.recv (amount - written.length) with ⟨result, k'⟩
        rw [hrecv] at stopped same
        subst stopped
        rw [nothing, List.append_nil, readResult, if_neg (Nat.not_le.mpr short), List.take_nil,
          List.nil_append]
        cases k.flow.2 with
        | none => exact ⟨rfl, same⟩
        | some errno => exact ⟨rfl, same⟩
      | fills bytes hdata full taken after =>
        have filled : amount ≤ (written ++ bytes).length := by
          rw [List.length_append]
          omega
        have exact : (written ++ k.flow.1).take amount = written ++ bytes := by
          rw [List.take_append, taken, List.take_of_length_le bound]
        have arrived : amount ≤ (written ++ k.flow.1).length := by
          rw [← exact, List.length_take] at filled
          omega
        rw [readLoopWritten_of_data short hdata, readLoopWritten_of_le filled, readResult,
          if_pos arrived, exact, taken]
        exact ⟨rfl, after⟩
      | drains bytes hdata progress inside flows after =>
        obtain ⟨result, rest⟩ := @ih (written ++ bytes) (k.recv (amount - written.length)).2
          (by rw [List.length_append]; omega) (by rw [List.length_append]; omega)
        have front : bytes.take (amount - written.length) = bytes :=
          List.take_of_length_le (Nat.le_of_lt inside)
        rw [readLoopWritten_of_data short hdata, result, flows]
        dsimp only
        refine ⟨by rw [List.append_assoc], ?_⟩
        rw [List.take_append, front, List.append_assoc, Nat.sub_sub, ← List.length_append, rest,
          after]
    · have full : amount ≤ written.length := Nat.le_of_not_lt short
      have arrived : amount ≤ (written ++ k.flow.1).length := by
        rw [List.length_append]
        omega
      rw [readLoopWritten_of_le full, readResult, if_pos arrived, Nat.sub_eq_zero_of_le full,
        List.take_zero, List.take_append_of_le_length full, List.take_of_length_le bound]
      exact ⟨rfl, rfl⟩

/-- The loop of `peek` appends the flow up to `amount`. -/
theorem peekLoop_eq_flow (enough : amount - buffer.length < fuel) :
    (peekLoop amount fuel buffer k).1 = buffer ++ k.flow.1.take (amount - buffer.length) := by
  induction fuel generalizing buffer k with
  | zero => omega
  | succ fuel ih =>
    by_cases short : buffer.length < amount
    · cases recv_flow (amount - buffer.length) k with
      | stops nothing stopped _ =>
        have stops : (k.recv (amount - buffer.length)).1 = .eof ∨
            ∃ errno, (k.recv (amount - buffer.length)).1 = .fail errno := by
          rw [stopped]
          cases k.flow.2 with
          | none => exact Or.inl rfl
          | some errno => exact Or.inr ⟨errno, rfl⟩
        rw [peekLoop_of_stop short stops, nothing, List.take_nil, List.append_nil]
      | fills bytes hdata full taken _ =>
        have filled : amount ≤ (buffer ++ bytes).length := by
          rw [List.length_append]
          omega
        rw [peekLoop_of_data short hdata, peekLoop_of_le filled, taken]
      | drains bytes hdata progress inside flows _ =>
        rw [peekLoop_of_data short hdata, ih (by rw [List.length_append]; omega), flows]
        dsimp only
        rw [List.take_append, List.take_of_length_le (Nat.le_of_lt inside), List.append_assoc,
          Nat.sub_sub, ← List.length_append]
    · have full : amount ≤ buffer.length := Nat.le_of_not_lt short
      rw [peekLoop_of_le full, Nat.sub_eq_zero_of_le full, List.take_zero, List.append_nil]

end PlainStream

namespace SSLStream

open Socket

variable {P : Platform} {amount fuel num : ℕ} {written chunk : Bytes} {k : Socket}

/-- How `SSL_get_error` classifies the end of the flow. -/
def sslError : Option ℤ → SslError
  | none => .zeroReturn
  | some errno => if errno = EAGAIN then .wantRead else if errno = EPROTO then .ssl else .syscall

theorem SSL_read_ex_of_nil (P : Platform) (h : (k.recv num).1 = stop k.flow.2) :
    SSL_read_ex P num k = (.error (sslError k.flow.2), (k.recv num).2) := by
  rw [SSL_read_ex]
  rcases hrecv : k.recv num with ⟨result, k'⟩
  rw [hrecv] at h
  subst h
  cases k.flow.2 with
  | none => rfl
  | some errno => rfl

/-- Asked for no byte, it takes none. -/
theorem recv_zero_incoming (k : Socket) : (k.recv 0).2.incoming = k.incoming := by
  rcases recv_cases 0 k with ⟨bytes, -, split, le, -⟩ | ⟨-, -, same⟩
  · rw [← split, List.eq_nil_of_length_eq_zero (Nat.le_zero.mp le), List.nil_append]
  · exact same

theorem SSL_read_ex_zero (P : Platform) (k : Socket) :
    (SSL_read_ex P 0 k).1 = .ok [] ∨ ∃ e, (SSL_read_ex P 0 k).1 = .error e := by
  rw [SSL_read_ex]
  rcases k.recv 0 with ⟨_ | _ | _, k'⟩
  · cases P.zeroLengthRead with
    | none => exact Or.inl rfl
    | some e => exact Or.inr ⟨e, rfl⟩
  · exact Or.inr ⟨_, rfl⟩
  · exact Or.inr ⟨_, rfl⟩

/-- The flow ends before the buffer is full. -/
theorem readLoop_short (short : (written ++ chunk ++ k.flow.1).length < amount)
    (enough : amount - (written ++ chunk).length < fuel) :
    (readLoop P amount fuel written chunk k).1 = zeroFilled amount (written ++ chunk ++ k.flow.1) ∧
      (readLoop P amount fuel written chunk k).2.1 = some (sslError k.flow.2) ∧
      k.flow.1 ++ (readLoop P amount fuel written chunk k).2.2.incoming = k.incoming := by
  induction fuel generalizing written chunk k with
  | zero => omega
  | succ fuel ih =>
    have missing : (written ++ chunk).length < amount := by
      rw [List.length_append] at short
      omega
    cases recv_flow (amount - (written ++ chunk).length) k with
    | stops nothing stopped same =>
      rw [readLoop, SSL_read_ex_of_nil P stopped, nothing, List.append_nil, List.nil_append]
      exact ⟨rfl, rfl, same⟩
    | fills bytes hdata full taken after =>
      rw [← taken, List.length_take] at full
      rw [List.length_append] at short
      omega
    | drains bytes hdata progress inside flows after =>
      rw [readLoop_data missing hdata]
      rw [flows] at short ⊢
      obtain ⟨buffer, error, rest⟩ := @ih (written ++ chunk) bytes
        (k.recv (amount - (written ++ chunk).length)).2
        (by rw [List.append_assoc]; exact short) (by rw [List.length_append]; omega)
      refine ⟨by rw [buffer, List.append_assoc _ bytes], error, ?_⟩
      rw [List.append_assoc, rest, after]

/-- The buffer gets full, whatever the last call says. -/
theorem readLoop_enough (arrived : amount ≤ (written ++ chunk ++ k.flow.1).length)
    (bound : (written ++ chunk).length ≤ amount)
    (enough : amount - (written ++ chunk).length + 1 < fuel) :
    (readLoop P amount fuel written chunk k).1 = (written ++ chunk ++ k.flow.1).take amount ∧
      k.flow.1.take (amount - (written ++ chunk).length) ++
        (readLoop P amount fuel written chunk k).2.2.incoming = k.incoming := by
  induction fuel generalizing written chunk k with
  | zero => omega
  | succ fuel ih =>
    by_cases missing : (written ++ chunk).length < amount
    · cases recv_flow (amount - (written ++ chunk).length) k with
      | stops nothing _ _ =>
        rw [nothing, List.append_nil] at arrived
        omega
      | fills bytes hdata full taken after =>
        have filled : (written ++ chunk ++ bytes).length = amount := by
          rw [List.length_append]
          omega
        rw [readLoop_data missing hdata]
        obtain ⟨buffer, rest⟩ := @ih (written ++ chunk) bytes
          (k.recv (amount - (written ++ chunk).length)).2
          (by rw [List.length_append, filled]; omega) (Nat.le_of_eq filled) (by omega)
        rw [filled, Nat.sub_self, List.take_zero, List.nil_append] at rest
        rw [buffer, taken, rest, List.take_append_of_le_length (Nat.le_of_eq filled.symm),
          List.take_of_length_le (Nat.le_of_eq filled), List.take_append, taken,
          List.take_of_length_le bound]
        exact ⟨rfl, after⟩
      | drains bytes hdata progress inside flows after =>
        rw [readLoop_data missing hdata]
        rw [flows] at arrived ⊢
        obtain ⟨buffer, rest⟩ := @ih (written ++ chunk) bytes
          (k.recv (amount - (written ++ chunk).length)).2
          (by rw [List.append_assoc]; exact arrived) (by rw [List.length_append]; omega)
          (by rw [List.length_append]; omega)
        refine ⟨by rw [buffer, List.append_assoc _ bytes], ?_⟩
        rw [List.take_append, List.take_of_length_le (Nat.le_of_lt inside), List.append_assoc,
          Nat.sub_sub, ← List.length_append, rest, after]
    · have full : (written ++ chunk).length = amount := by omega
      have filled : amount ≤ (written ++ chunk).length := Nat.le_of_eq full.symm
      have socket := @readLoop_full P amount fuel written chunk k filled
      rw [socket, recv_zero_incoming, full, Nat.sub_self, List.take_zero, List.nil_append,
        List.take_append_of_le_length filled, List.take_of_length_le (Nat.le_of_eq full)]
      refine ⟨?_, rfl⟩
      rw [readLoop, full, Nat.sub_self]
      rcases hread : SSL_read_ex P 0 k with ⟨e | bytes, k'⟩
      · exact zeroFilled_of_le filled
      · have nothing : bytes = [] := by
          have := SSL_read_ex_zero P k
          rw [hread] at this
          simpa using this
        rw [nothing]
        dsimp only
        rw [if_neg (Nat.lt_irrefl _), List.append_nil]
        exact zeroFilled_of_le filled

end SSLStream

namespace IStream

variable {P : Platform} {amount : ℕ} {s : Stream}

/-- Behind `leftoverBuffer`, the loops of both classes take the flow up to `amount`. -/
theorem readLoop_flow (short : s.leftoverBuffer.length < amount) :
    s.socket.flow.1.take (amount - s.leftoverBuffer.length) ++ (readLoop P amount s).incoming =
      s.socket.incoming := by
  have whole : s.leftoverBuffer.take amount = s.leftoverBuffer :=
    List.take_of_length_le (Nat.le_of_lt short)
  simp only [readLoop, whole]
  cases s.transport with
  | plain =>
    dsimp only
    rw [PlainStream.readLoop_eq_written]
    exact (PlainStream.readLoopWritten_eq (by omega) (Nat.le_of_lt short)).2
  | ssl =>
    dsimp only
    by_cases arrived : amount ≤ (s.leftoverBuffer ++ s.socket.flow.1).length
    · have taken := (@SSLStream.readLoop_enough P amount (amount + 2) s.leftoverBuffer [] s.socket
        (by rwa [List.append_nil]) (by rw [List.append_nil]; omega) (by omega)).2
      rwa [List.append_nil] at taken
    · have taken := (@SSLStream.readLoop_short P amount (amount + 2) s.leftoverBuffer [] s.socket
        (by rw [List.append_nil]; omega) (by omega)).2.2
      rw [List.length_append] at arrived
      rwa [List.take_of_length_le (by omega)]

/-- `read` takes the first `amount` bytes of what `leftoverBuffer` holds and the flow. -/
theorem read_takes (P : Platform) (amount : ℕ) (s : Stream) :
    (s.leftoverBuffer ++ s.socket.flow.1).take amount ++ (read P amount s).2.incoming =
      s.incoming := by
  rw [read_stream]
  split_ifs with served
  · rw [List.take_append_of_le_length served, Stream.incoming, ← List.append_assoc,
      List.take_append_drop]
    rfl
  · have short := Nat.lt_of_not_le served
    rw [Stream.incoming, List.take_append, List.take_of_length_le (Nat.le_of_lt short),
      List.drop_of_length_le (Nat.le_of_lt short), List.nil_append, List.append_assoc,
      readLoop_flow short]
    rfl

end IStream

end Lightning
