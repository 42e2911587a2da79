import Lightning.Stream

/-!
# `PlainStream`

Each function below is the loop of the source with a bound on its iterations: every `recv` that
returns bytes makes progress, so the bound `amount + 1` is never used up, and the lemmas about the
loops hold for every larger bound too.

`readLoop_spec` and `peek_spec` say everything a caller needs: which bytes were taken, what
remains, and that a `read` that came short, or a `peek` that stopped below `amount`, found the
receive buffer empty.
-/

namespace Lightning

namespace PlainStream

/-- The `while` loop of `PlainStream::read`, with the part of the buffer written so far. -/
def readLoop (amount : ℕ) : ℕ → Bytes → Socket → Except CppException Bytes × Socket
  | 0, written, k => (.ok (zeroFilled amount written), k)
  | fuel + 1, written, k =>
      if written.length < amount then
        match k.recv (amount - written.length) with
        | (.data bytes, k) => readLoop amount fuel (written ++ bytes) k
        | (.eof, k) => (.ok (zeroFilled amount written), k)
        | (.fail errno, k) => (.error (.lowLevelApi "recv() failed" errno errno), k)
      else (.ok (zeroFilled amount written), k)

def read (amount : ℕ) (s : Stream) : Except CppException Bytes × Stream :=
  let leftover := s.readFromLeftover amount
  let result := readLoop amount (amount + 1) leftover.1 leftover.2.socket
  (result.1, { leftover.2 with socket := result.2 })

def write (buffer : Bytes) (size : ℤ) (s : Stream) : Except CppException ℤ × Stream :=
  match s.socket.send (offered buffer size) with
  | (.error errno, k) => (.error (.lowLevelApi "send() failed" errno errno), { s with socket := k })
  | (.ok count, k) => (.ok count, { s with socket := k })

/-- The `while` loop of `PlainStream::peek`. -/
def peekLoop (amount : ℕ) : ℕ → Bytes → Socket → Bytes × Socket
  | 0, buffer, k => (buffer, k)
  | fuel + 1, buffer, k =>
      if buffer.length < amount then
        match k.recv (amount - buffer.length) with
        | (.data bytes, k) => peekLoop amount fuel (buffer ++ bytes) k
        | (.eof, k) => (buffer, k)
        | (.fail _, k) => (buffer, k)
      else (buffer, k)

/-- The returned view is the whole of `leftoverBuffer`. -/
def peek (amount : ℕ) (s : Stream) : Bytes × Stream :=
  let result := peekLoop amount (amount + 1) s.leftoverBuffer s.socket
  (result.1, { s with leftoverBuffer := result.1, socket := result.2 })

/-! ## The loop of `read` -/

section ReadLoop

variable {amount fuel : ℕ} {written bytes : Bytes} {k : Socket}

theorem readLoop_of_le (h : amount ≤ written.length) :
    readLoop amount fuel written k = (.ok (zeroFilled amount written), k) := by
  cases fuel with
  | zero => rfl
  | succ fuel => rw [readLoop, if_neg (Nat.not_lt.mpr h)]

theorem readLoop_of_data (short : written.length < amount)
    (h : (k.recv (amount - written.length)).1 = .data bytes) :
    readLoop amount (fuel + 1) written k =
      readLoop amount fuel (written ++ bytes) (k.recv (amount - written.length)).2 := by
  have split : k.recv (amount - written.length) =
      (.data bytes, (k.recv (amount - written.length)).2) := Prod.ext h rfl
  rw [readLoop, if_pos short, split]

/-- An iteration that finds nothing ends the loop, with zeros in place of what is missing or with
an exception. -/
theorem readLoop_of_stop (short : written.length < amount)
    (h : (k.recv (amount - written.length)).1 = .eof ∨
      ∃ errno, (k.recv (amount - written.length)).1 = .fail errno) :
    (readLoop amount (fuel + 1) written k).2 = (k.recv (amount - written.length)).2 ∧
      ((readLoop amount (fuel + 1) written k).1 = .ok (zeroFilled amount written) ∨
        ∃ e, (readLoop amount (fuel + 1) written k).1 = .error e) := by
  rw [readLoop, if_pos short]
  rcases hrecv : k.recv (amount - written.length) with ⟨result, k'⟩
  rw [hrecv] at h
  obtain h | ⟨errno, h⟩ := h <;> cases h
  · exact ⟨rfl, Or.inl rfl⟩
  · exact ⟨rfl, Or.inr ⟨_, rfl⟩⟩

/-- One call of `recv` is enough when everything has arrived. -/
theorem readLoop_of_le_received (short : written.length < amount)
    (arrived : amount - written.length ≤ k.received.length) :
    readLoop amount (fuel + 1) written k =
      (.ok (written ++ k.received.take (amount - written.length)),
        { k.poll with received := k.received.drop (amount - written.length) ++ k.arriving }) := by
  have hrecv := Socket.recv_of_le_received (amount - written.length) k (by omega) arrived
  rw [readLoop_of_data short (congrArg Prod.fst hrecv), hrecv]
  have full : amount ≤ (written ++ k.received.take (amount - written.length)).length := by
    rw [List.length_append, List.length_take]
    omega
  rw [readLoop_of_le full, zeroFilled_of_le full]

/-- What every single `recv` keeps, the loop keeps. -/
theorem readLoop_keeps {motive : Socket → Prop} (step : ∀ len k, motive k → motive (k.recv len).2)
    (h : motive k) : motive (readLoop amount fuel written k).2 := by
  induction fuel generalizing written k with
  | zero => exact h
  | succ fuel ih =>
    by_cases short : written.length < amount
    · rcases Socket.recv_cases (amount - written.length) k with ⟨bytes, hdata, -⟩ | ⟨hstop, -⟩
      · rw [readLoop_of_data short hdata]
        exact ih (step _ _ h)
      · rw [(readLoop_of_stop short hstop).1]
        exact step _ _ h
    · rw [readLoop_of_le (Nat.le_of_not_lt short)]
      exact h

theorem readLoop_suffix : (readLoop amount fuel written k).2.incoming <:+ k.incoming :=
  readLoop_keeps (motive := fun k' => k'.incoming <:+ k.incoming)
    (fun len k' h => (k'.recv_suffix len).trans h) (List.suffix_refl _)

end ReadLoop

/-! ## `read` -/

section Read

variable {amount : ℕ} {s : Stream}

theorem read_eq : read amount s =
    ((readLoop amount (amount + 1) (s.leftoverBuffer.take amount) s.socket).1,
      { s with
        leftoverBuffer := s.leftoverBuffer.drop amount
        socket := (readLoop amount (amount + 1) (s.leftoverBuffer.take amount) s.socket).2 }) := by
  rw [read, Stream.readFromLeftover_eq]

/-- Served from `leftoverBuffer`, `read` does not touch the socket. -/
theorem read_of_le_leftover (h : amount ≤ s.leftoverBuffer.length) :
    read amount s = (.ok (s.leftoverBuffer.take amount),
      { s with leftoverBuffer := s.leftoverBuffer.drop amount }) := by
  have full : amount ≤ (s.leftoverBuffer.take amount).length := by
    rw [List.length_take]
    omega
  rw [read_eq, readLoop_of_le full, zeroFilled_of_le full]

end Read

/-! ## `peek` -/

section Peek

variable {amount fuel : ℕ} {buffer bytes : Bytes} {k : Socket}

theorem peekLoop_of_le (h : amount ≤ buffer.length) :
    peekLoop amount fuel buffer k = (buffer, k) := by
  cases fuel with
  | zero => rfl
  | succ fuel => rw [peekLoop, if_neg (Nat.not_lt.mpr h)]

theorem peekLoop_of_data (short : buffer.length < amount)
    (h : (k.recv (amount - buffer.length)).1 = .data bytes) :
    peekLoop amount (fuel + 1) buffer k =
      peekLoop amount fuel (buffer ++ bytes) (k.recv (amount - buffer.length)).2 := by
  have split : k.recv (amount - buffer.length) =
      (.data bytes, (k.recv (amount - buffer.length)).2) := Prod.ext h rfl
  rw [peekLoop, if_pos short, split]

theorem peekLoop_of_stop (short : buffer.length < amount)
    (h : (k.recv (amount - buffer.length)).1 = .eof ∨
      ∃ errno, (k.recv (amount - buffer.length)).1 = .fail errno) :
    peekLoop amount (fuel + 1) buffer k = (buffer, (k.recv (amount - buffer.length)).2) := by
  rw [peekLoop, if_pos short]
  rcases hrecv : k.recv (amount - buffer.length) with ⟨result, k'⟩
  rw [hrecv] at h
  obtain h | ⟨errno, h⟩ := h <;> cases h <;> rfl

/-- What the loop has appended to the buffer: it fills the buffer up to `amount`, or appends
everything that was there. -/
theorem peekLoop_spec (enough : amount - buffer.length < fuel) :
    ∃ taken, (peekLoop amount fuel buffer k).1 = buffer ++ taken ∧
      taken ++ (peekLoop amount fuel buffer k).2.incoming = k.incoming ∧
      taken.length ≤ amount - buffer.length ∧
      (amount ≤ (buffer ++ taken).length ∨ (peekLoop amount fuel buffer k).2.received = []) := by
  induction fuel generalizing buffer k with
  | zero => omega
  | succ fuel ih =>
    by_cases short : buffer.length < amount
    · rcases Socket.recv_cases (amount - buffer.length) k with
        ⟨bytes, hdata, hsplit, hle, hne⟩ | ⟨hstop, hempty, hsame⟩
      · have progress : 0 < bytes.length := List.length_pos_iff.mpr (hne (by omega))
        rw [peekLoop_of_data short hdata]
        obtain ⟨taken, hbuffer, hrest, hlen, hresult⟩ :=
          @ih (buffer ++ bytes) (k.recv (amount - buffer.length)).2
            (by rw [List.length_append]; omega)
        rw [List.append_assoc] at hbuffer hresult
        rw [List.length_append] at hlen
        refine ⟨bytes ++ taken, hbuffer, ?_, ?_, hresult⟩
        · rw [List.append_assoc, hrest, hsplit]
        · rw [List.length_append]
          omega
      · rw [peekLoop_of_stop short hstop]
        exact ⟨[], (List.append_nil _).symm, hsame, Nat.zero_le _, Or.inr hempty⟩
    · have full : amount ≤ buffer.length := Nat.le_of_not_lt short
      rw [peekLoop_of_le full]
      exact ⟨[], (List.append_nil _).symm, rfl, Nat.zero_le _,
        Or.inl (by rw [List.append_nil]; exact full)⟩

theorem peekLoop_keeps {motive : Socket → Prop} (step : ∀ len k, motive k → motive (k.recv len).2)
    (h : motive k) : motive (peekLoop amount fuel buffer k).2 := by
  induction fuel generalizing buffer k with
  | zero => exact h
  | succ fuel ih =>
    by_cases short : buffer.length < amount
    · rcases Socket.recv_cases (amount - buffer.length) k with ⟨bytes, hdata, -⟩ | ⟨hstop, -⟩
      · rw [peekLoop_of_data short hdata]
        exact ih (step _ _ h)
      · rw [peekLoop_of_stop short hstop]
        exact step _ _ h
    · rw [peekLoop_of_le (Nat.le_of_not_lt short)]
      exact h

/-- A `peek` moves bytes from the socket to `leftoverBuffer` and loses none. -/
theorem peek_spec (amount : ℕ) (s : Stream) :
    (peek amount s).1 = (peek amount s).2.leftoverBuffer ∧
      (∃ taken, (peek amount s).2.leftoverBuffer = s.leftoverBuffer ++ taken ∧
        taken.length ≤ amount - s.leftoverBuffer.length) ∧
      (peek amount s).2.incoming = s.incoming ∧
      ((peek amount s).2.leftoverBuffer.length < amount →
        (peek amount s).2.socket.received = []) := by
  obtain ⟨taken, hbuffer, hrest, hlen, hresult⟩ := @peekLoop_spec amount (amount + 1)
    s.leftoverBuffer s.socket (by omega)
  have leftover : (peek amount s).2.leftoverBuffer = s.leftoverBuffer ++ taken := hbuffer
  refine ⟨rfl, ⟨taken, leftover, hlen⟩, ?_, fun short => ?_⟩
  · rw [Stream.incoming, leftover, Stream.incoming, List.append_assoc, ← hrest]
    rfl
  · rw [leftover] at short
    exact hresult.resolve_left (Nat.not_le.mpr short)

end Peek

end PlainStream

end Lightning
