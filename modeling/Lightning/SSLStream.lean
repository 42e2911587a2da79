import Lightning.PlainStream

/-!
# `SSLStream`

The socket of an `SSLStream` carries the decrypted bytes. `SSL_read_ex` is `recv` with the failures
classified as `SSL_get_error` does. The loop of `SSLStream::read` adds the bytes of a call to
`totalReadBytes` only at the start of the next iteration, so a complete read ends with one more
call that asks for no bytes at all; on `peek` the class agrees with `PlainStream` (`peek_eq`).
-/

namespace Lightning

def EPROTO : ℤ := 71

/-- `SSL_read_ex(ssl, _, num, &readbytes)`. -/
def SSL_read_ex (P : Platform) (num : ℕ) (k : Socket) : Except SslError Bytes × Socket :=
  match k.recv num with
  | (.data bytes, k) =>
      if num = 0 then
        match P.zeroLengthRead with
        | none => (.ok [], k)
        | some e => (.error e, k)
      else (.ok bytes, k)
  | (.eof, k) => (.error .zeroReturn, k)
  | (.fail errno, k) =>
      (.error (if errno = EAGAIN then .wantRead else if errno = EPROTO then .ssl else .syscall), k)

/-- `SSL_write_ex(ssl, buffer, num, &written)`. -/
def SSL_write_ex (buffer : Bytes) (num : ℕ) (k : Socket) : Except ℤ ℕ × Socket :=
  k.send (buffer.take num)

namespace SSLStream

def SSL_ERROR_SSL : ℤ := 1

def SSL_ERROR_SYSCALL : ℤ := 5

/-- The errno that goes into the exception has no influence on anything, it is taken to be `0`. -/
def handleReadError : SslError → Except CppException Unit
  | .ssl => .error (.openSslErrorQueue "SSL_ERROR_SSL" SSL_ERROR_SSL 0)
  | .wantRead => .ok ()
  | .syscall => .error (.openSslErrorQueue "SSL_ERROR_SYSCALL" SSL_ERROR_SYSCALL 0)
  | .zeroReturn => .ok ()

/-- The `do … while` loop of `SSLStream::read`: `written` holds the bytes counted in
`totalReadBytes`, `chunk` those of the last call, which are counted in the next iteration. The
result is the buffer and the error that ended the loop. -/
def readLoop (P : Platform) (amount : ℕ) :
    ℕ → Bytes → Bytes → Socket → Bytes × Option SslError × Socket
  | 0, written, chunk, k => (zeroFilled amount (written ++ chunk), none, k)
  | fuel + 1, written, chunk, k =>
      let written := written ++ chunk
      match SSL_read_ex P (amount - written.length) k with
      | (.error e, k) => (zeroFilled amount written, some e, k)
      | (.ok chunk, k) =>
          if written.length < amount then readLoop P amount fuel written chunk k
          else (zeroFilled amount (written ++ chunk), none, k)

def read (P : Platform) (amount : ℕ) (s : Stream) : Except CppException Bytes × Stream :=
  let leftover := s.readFromLeftover amount
  if leftover.1.length ≥ amount then (.ok leftover.1, leftover.2)
  else
    let result := readLoop P amount (amount + 2) leftover.1 [] leftover.2.socket
    let s := { leftover.2 with socket := result.2.2 }
    match result.2.1 with
    | none => (.ok result.1, s)
    | some e =>
        match handleReadError e with
        | .error thrown => (.error thrown, s)
        | .ok () => (.ok result.1, s)

def write (buffer : Bytes) (size : ℤ) (s : Stream) : Except CppException ℤ × Stream :=
  match SSL_write_ex buffer (sizeOfInt size) s.socket with
  | (.error errno, k) =>
      (.error (.lowLevelApi "Error while writing to SSL sink" errno 0), { s with socket := k })
  | (.ok written, k) => (.ok (intOfSize written), { s with socket := k })

/-- The `while` loop of `SSLStream::peek`. -/
def peekLoop (P : Platform) (amount : ℕ) : ℕ → Bytes → Socket → Bytes × Socket
  | 0, buffer, k => (buffer, k)
  | fuel + 1, buffer, k =>
      if buffer.length < amount then
        match SSL_read_ex P (amount - buffer.length) k with
        | (.error _, k) => (buffer, k)
        | (.ok bytes, k) =>
            if bytes.length = 0 then (buffer, k) else peekLoop P amount fuel (buffer ++ bytes) k
      else (buffer, k)

def peek (P : Platform) (amount : ℕ) (s : Stream) : Bytes × Stream :=
  let result := peekLoop P amount (amount + 1) s.leftoverBuffer s.socket
  (result.1, { s with leftoverBuffer := result.1, socket := result.2 })

/-! ## `SSL_read_ex` -/

section ReadEx

variable {P : Platform} {num : ℕ} {bytes : Bytes} {k : Socket}

theorem SSL_read_ex_of_data (pos : 0 < num) (h : (k.recv num).1 = .data bytes) :
    SSL_read_ex P num k = (.ok bytes, (k.recv num).2) := by
  have split : k.recv num = (.data bytes, (k.recv num).2) := Prod.ext h rfl
  rw [SSL_read_ex, split]
  exact if_neg (Nat.ne_of_gt pos)

theorem SSL_read_ex_of_stop
    (h : (k.recv num).1 = .eof ∨ ∃ errno, (k.recv num).1 = .fail errno) :
    ∃ e, SSL_read_ex P num k = (.error e, (k.recv num).2) := by
  rw [SSL_read_ex]
  rcases hrecv : k.recv num with ⟨result, k'⟩
  rw [hrecv] at h
  obtain h | ⟨errno, h⟩ := h <;> cases h <;> exact ⟨_, rfl⟩

/-- Whatever it answers, the socket is the one `recv` leaves. -/
theorem SSL_read_ex_socket (P : Platform) (num : ℕ) (k : Socket) :
    (SSL_read_ex P num k).2 = (k.recv num).2 := by
  rw [SSL_read_ex]
  rcases k.recv num with ⟨_ | _ | _, k'⟩
  · dsimp only
    split_ifs
    · cases P.zeroLengthRead <;> rfl
    · rfl
  · rfl
  · rfl

end ReadEx

/-! ## `peek` -/

theorem peekLoop_eq (P : Platform) (amount fuel : ℕ) (buffer : Bytes) (k : Socket) :
    peekLoop P amount fuel buffer k = PlainStream.peekLoop amount fuel buffer k := by
  induction fuel generalizing buffer k with
  | zero => rfl
  | succ fuel ih =>
    by_cases short : buffer.length < amount
    · have pos : 0 < amount - buffer.length := by omega
      rw [peekLoop, if_pos short]
      rcases Socket.recv_cases (amount - buffer.length) k with
        ⟨bytes, hdata, -, -, hne⟩ | ⟨hstop, -⟩
      · rw [SSL_read_ex_of_data pos hdata, PlainStream.peekLoop_of_data short hdata, ← ih]
        exact if_neg (Nat.ne_of_gt (List.length_pos_iff.mpr (hne pos)))
      · obtain ⟨e, h⟩ := SSL_read_ex_of_stop (P := P) hstop
        rw [h, PlainStream.peekLoop_of_stop short hstop]
    · rw [peekLoop, if_neg short, PlainStream.peekLoop_of_le (Nat.le_of_not_lt short)]

theorem peek_eq (P : Platform) (amount : ℕ) (s : Stream) :
    peek P amount s = PlainStream.peek amount s := by
  rw [peek, PlainStream.peek, peekLoop_eq]

/-! ## `read` -/

section Read

variable {P : Platform} {amount fuel : ℕ} {written chunk : Bytes} {k : Socket} {s : Stream}

/-- The socket after one iteration and, when there are more, after the rest of the loop. -/
theorem readLoop_socket_succ (P : Platform) (amount fuel : ℕ) (written chunk : Bytes)
    (k : Socket) : (readLoop P amount (fuel + 1) written chunk k).2.2 =
        (k.recv (amount - (written ++ chunk).length)).2 ∨
      ∃ bytes, (readLoop P amount (fuel + 1) written chunk k).2.2 =
        (readLoop P amount fuel (written ++ chunk) bytes
          (k.recv (amount - (written ++ chunk).length)).2).2.2 := by
  rw [readLoop, ← SSL_read_ex_socket P]
  rcases SSL_read_ex P (amount - (written ++ chunk).length) k with ⟨e | bytes, k'⟩
  · exact Or.inl rfl
  · dsimp only
    split_ifs
    · exact Or.inr ⟨bytes, rfl⟩
    · exact Or.inl rfl

/-- What every single `recv` keeps, the loop keeps. -/
theorem readLoop_keeps {motive : Socket → Prop} (step : ∀ len k, motive k → motive (k.recv len).2)
    (h : motive k) : motive (readLoop P amount fuel written chunk k).2.2 := by
  induction fuel generalizing written chunk k with
  | zero => exact h
  | succ fuel ih =>
    rcases readLoop_socket_succ P amount fuel written chunk k with after | ⟨bytes, after⟩ <;>
      rw [after]
    · exact step _ _ h
    · exact ih (step _ _ h)

theorem readLoop_suffix : (readLoop P amount fuel written chunk k).2.2.incoming <:+ k.incoming :=
  readLoop_keeps (motive := fun k' => k'.incoming <:+ k.incoming)
    (fun len k' h => (k'.recv_suffix len).trans h) (List.suffix_refl _)

theorem readLoop_data {bytes : Bytes} (short : (written ++ chunk).length < amount)
    (h : (k.recv (amount - (written ++ chunk).length)).1 = .data bytes) :
    readLoop P amount (fuel + 1) written chunk k =
      readLoop P amount fuel (written ++ chunk) bytes
        (k.recv (amount - (written ++ chunk).length)).2 := by
  rw [readLoop, SSL_read_ex_of_data (by omega) h]
  exact if_pos short

theorem readLoop_stop (h : (k.recv (amount - (written ++ chunk).length)).1 = .eof ∨
      ∃ errno, (k.recv (amount - (written ++ chunk).length)).1 = .fail errno) :
    (readLoop P amount (fuel + 1) written chunk k).2.2 =
      (k.recv (amount - (written ++ chunk).length)).2 := by
  obtain ⟨e, failed⟩ := SSL_read_ex_of_stop (P := P) h
  rw [readLoop, failed]

/-- When every byte was read the loop ends with a call that asks for nothing. -/
theorem readLoop_full (full : amount ≤ (written ++ chunk).length) :
    (readLoop P amount (fuel + 1) written chunk k).2.2 = (k.recv 0).2 := by
  have nothing : amount - (written ++ chunk).length = 0 := by omega
  rw [readLoop, nothing, ← SSL_read_ex_socket P]
  rcases SSL_read_ex P 0 k with ⟨e | bytes, k'⟩
  · rfl
  · dsimp only
    rw [if_neg (Nat.not_lt.mpr full)]

/-- The stream that `read` leaves, whatever it answers. -/
theorem read_stream (P : Platform) (amount : ℕ) (s : Stream) :
    (read P amount s).2 =
      if amount ≤ s.leftoverBuffer.length then
        { s with leftoverBuffer := s.leftoverBuffer.drop amount }
      else
        { s with
          leftoverBuffer := s.leftoverBuffer.drop amount
          socket := (readLoop P amount (amount + 2) (s.leftoverBuffer.take amount) []
            s.socket).2.2 } := by
  have served : (s.leftoverBuffer.take amount).length ≥ amount ↔
      amount ≤ s.leftoverBuffer.length := by
    rw [List.length_take]
    omega
  simp only [read, Stream.readFromLeftover_eq, served]
  split_ifs
  · rfl
  · rcases readLoop P amount (amount + 2) (s.leftoverBuffer.take amount) [] s.socket with
      ⟨bytes, error, k⟩
    cases error with
    | none => rfl
    | some e => cases e <;> rfl

end Read

end SSLStream

end Lightning
