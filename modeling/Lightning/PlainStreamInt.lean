import Lightning.PlainStream

/-!
# `PlainStream`, with its `int`s

`PlainStream` takes the size of `leftoverBuffer` as it is. The sources narrow it to an `int` first,
in `readFromLeftover` to decide how much to copy and in `peek` to decide how much is missing. Here
the conversions are made, and `none` stands for undefined behaviour: copying a negative number of
elements, or a difference that overflows. As long as `leftoverBuffer` has fewer than `2 ^ 31` bytes
the functions agree with those of `PlainStream` (`readInt_eq`, `peekInt_eq`).

`readInt` answers the value of `totalReadBytes` besides the buffer, which tells a read that came
short from a complete one.
-/

namespace Lightning.PlainStream

/-- What `read` has in its local variables when it returns. -/
structure ReadOutcome where
  buffer : Bytes
  totalReadBytes : ℕ
  deriving DecidableEq, Repr

/-- `(int)leftoverBuffer.size()`. -/
def leftoverSize (s : Stream) : ℤ := intOfSize s.leftoverBuffer.length

def readFromLeftoverInt (amount : ℕ) (s : Stream) : Option (Bytes × Stream) :=
  if s.leftoverBuffer = [] then some ([], s)
  else
    let toCopy := if (amount : ℤ) > leftoverSize s then leftoverSize s else amount
    if toCopy < 0 then none
    else
      some (s.leftoverBuffer.take toCopy.toNat,
        { s with leftoverBuffer := s.leftoverBuffer.drop toCopy.toNat })

/-- The `while` loop of `read`, which answers the part of the buffer that was written. -/
def readLoopWritten (amount : ℕ) : ℕ → Bytes → Socket → Except CppException Bytes × Socket
  | 0, written, k => (.ok written, k)
  | fuel + 1, written, k =>
      if written.length < amount then
        match k.recv (amount - written.length) with
        | (.data bytes, k) => readLoopWritten amount fuel (written ++ bytes) k
        | (.eof, k) => (.ok written, k)
        | (.fail errno, k) => (.error (.lowLevelApi "recv() failed" errno errno), k)
      else (.ok written, k)

def readInt (amount : ℕ) (s : Stream) : Option (Except CppException ReadOutcome × Stream) :=
  (readFromLeftoverInt amount s).map fun leftover =>
    let result := readLoopWritten amount (amount + 1) leftover.1 leftover.2.socket
    (result.1.map fun written => ⟨zeroFilled amount written, written.length⟩,
      { leftover.2 with socket := result.2 })

/-- The constructor of the buffer throws when it is asked for a negative number of elements. -/
def readAmount (amount : ℤ) (s : Stream) : Option (Except CppException ReadOutcome × Stream) :=
  if amount < 0 then some (.error .lengthError, s) else readInt amount.toNat s

/-- The `while` loop of `peek`. What is missing gets smaller with every iteration. -/
def peekLoopInt (amount : ℕ) : ℕ → Bytes → Socket → Option (Bytes × Socket)
  | 0, buffer, k => some (buffer, k)
  | fuel + 1, buffer, k =>
      if intOfSize buffer.length < amount then
        let needed := amount - intOfSize buffer.length
        if needed < 2 ^ 31 then
          match k.recv needed.toNat with
          | (.data bytes, k) => peekLoopInt amount fuel (buffer ++ bytes) k
          | (.eof, k) => some (buffer, k)
          | (.fail _, k) => some (buffer, k)
        else none
      else some (buffer, k)

def peekInt (amount : ℕ) (s : Stream) : Option (Bytes × Stream) :=
  (peekLoopInt amount ((amount - leftoverSize s).toNat + 1) s.leftoverBuffer s.socket).map
    fun result => (result.1, { s with leftoverBuffer := result.1, socket := result.2 })

def injectBuffer (data : Bytes) (s : Stream) : Stream :=
  { s with leftoverBuffer := data ++ s.leftoverBuffer }

/-! ## Fewer than `2 ^ 31` bytes in `leftoverBuffer` -/

section Short

variable {amount fuel : ℕ} {s : Stream} {written buffer : Bytes} {k : Socket}

theorem leftoverSize_eq (short : s.leftoverBuffer.length < 2 ^ 31) :
    leftoverSize s = s.leftoverBuffer.length := by
  rw [leftoverSize, intOfSize_of_lt short]

theorem readFromLeftoverInt_eq (short : s.leftoverBuffer.length < 2 ^ 31) :
    readFromLeftoverInt amount s = some (s.leftoverBuffer.take amount,
      { s with leftoverBuffer := s.leftoverBuffer.drop amount }) := by
  rw [readFromLeftoverInt, leftoverSize_eq short]
  by_cases hempty : s.leftoverBuffer = []
  · rw [if_pos hempty, hempty, List.take_nil, List.drop_nil, ← hempty]
  · rw [if_neg hempty]
    dsimp only
    by_cases hmore : (amount : ℤ) > s.leftoverBuffer.length
    · have enough : s.leftoverBuffer.length ≤ amount := by omega
      rw [if_pos hmore, if_neg (by omega), Int.toNat_natCast, List.take_length, List.drop_length,
        List.take_of_length_le enough, List.drop_of_length_le enough]
    · rw [if_neg hmore, if_neg (by omega), Int.toNat_natCast]

/-- The loop of `read` pads what it has written. -/
theorem readLoop_eq_written :
    readLoop amount fuel written k =
      ((readLoopWritten amount fuel written k).1.map (zeroFilled amount),
        (readLoopWritten amount fuel written k).2) := by
  induction fuel generalizing written k with
  | zero => rfl
  | succ fuel ih =>
    rw [readLoop, readLoopWritten]
    split_ifs
    · rcases k.recv (amount - written.length) with ⟨_ | _ | _, k'⟩
      · exact ih
      · rfl
      · rfl
    · rfl

theorem readInt_eq (short : s.leftoverBuffer.length < 2 ^ 31) :
    ∃ result, readInt amount s = some (result, (read amount s).2) ∧
      (read amount s).1 = result.map ReadOutcome.buffer := by
  rw [readInt, readFromLeftoverInt_eq short, read_eq, readLoop_eq_written]
  refine ⟨_, rfl, ?_⟩
  dsimp only
  cases (readLoopWritten amount (amount + 1) (s.leftoverBuffer.take amount) s.socket).1 <;> rfl

theorem peekLoop_fuel {fuel' : ℕ} (enough : amount - buffer.length < fuel)
    (enough' : amount - buffer.length < fuel') :
    peekLoop amount fuel buffer k = peekLoop amount fuel' buffer k := by
  induction fuel generalizing fuel' buffer k with
  | zero => omega
  | succ fuel ih =>
    obtain ⟨fuel', rfl⟩ := Nat.exists_eq_succ_of_ne_zero (Nat.ne_of_gt (Nat.zero_lt_of_lt enough'))
    by_cases short : buffer.length < amount
    · rcases Socket.recv_cases (amount - buffer.length) k with
        ⟨bytes, hdata, -, -, hne⟩ | ⟨hstop, -⟩
      · have progress : 0 < bytes.length := List.length_pos_iff.mpr (hne (by omega))
        rw [peekLoop_of_data short hdata, peekLoop_of_data short hdata]
        apply ih <;> (rw [List.length_append]; omega)
      · rw [peekLoop_of_stop short hstop, peekLoop_of_stop short hstop]
    · rw [peekLoop_of_le (Nat.le_of_not_lt short), peekLoop_of_le (Nat.le_of_not_lt short)]

theorem peekLoopInt_eq (isInt : amount < 2 ^ 31) (short : buffer.length < 2 ^ 31) :
    peekLoopInt amount fuel buffer k = some (peekLoop amount fuel buffer k) := by
  induction fuel generalizing buffer k with
  | zero => rfl
  | succ fuel ih =>
    rw [peekLoopInt, peekLoop, intOfSize_of_lt short]
    by_cases missing : buffer.length < amount
    · have needed : ((amount : ℤ) - buffer.length).toNat = amount - buffer.length := by omega
      rw [if_pos (by omega), if_pos missing, if_pos (by omega), needed]
      rcases Socket.recv_cases (amount - buffer.length) k with
        ⟨bytes, hdata, -, hle, -⟩ | ⟨hstop, -⟩
      · rw [show k.recv (amount - buffer.length) =
          (.data bytes, (k.recv (amount - buffer.length)).2) from Prod.ext hdata rfl]
        exact ih (by rw [List.length_append]; omega)
      · rcases hrecv : k.recv (amount - buffer.length) with ⟨result, k'⟩
        rw [hrecv] at hstop
        obtain hstop | ⟨errno, hstop⟩ := hstop <;> cases hstop <;> rfl
    · rw [if_neg (by omega), if_neg missing]

theorem peekInt_eq (isInt : amount < 2 ^ 31) (short : s.leftoverBuffer.length < 2 ^ 31) :
    peekInt amount s = some (peek amount s) := by
  have enough : amount - s.leftoverBuffer.length <
      ((amount : ℤ) - s.leftoverBuffer.length).toNat + 1 := by omega
  rw [peekInt, peekLoopInt_eq isInt short, leftoverSize_eq short,
    peekLoop_fuel enough (Nat.lt_succ_of_le (Nat.sub_le _ _)), peek]
  rfl

/-- What a complete read returns is what it took from the front of the connection. -/
theorem readLoopWritten_spec (enough : amount - written.length < fuel)
    (bound : written.length ≤ amount) {result : Bytes}
    (ended : (readLoopWritten amount fuel written k).1 = .ok result) :
    ∃ taken, result = written ++ taken ∧
      taken ++ (readLoopWritten amount fuel written k).2.incoming = k.incoming := by
  induction fuel generalizing written k with
  | zero => omega
  | succ fuel ih =>
    rw [readLoopWritten] at ended ⊢
    by_cases missing : written.length < amount
    · rw [if_pos missing] at ended ⊢
      rcases Socket.recv_cases (amount - written.length) k with
        ⟨bytes, hdata, hsplit, hle, hne⟩ | ⟨hstop, -, hsame⟩
      · have progress : 0 < bytes.length := List.length_pos_iff.mpr (hne (by omega))
        rw [show k.recv (amount - written.length) =
          (.data bytes, (k.recv (amount - written.length)).2) from Prod.ext hdata rfl] at ended ⊢
        obtain ⟨taken, rfl, rest⟩ := ih (by rw [List.length_append]; omega)
          (by rw [List.length_append]; omega) ended
        refine ⟨bytes ++ taken, by rw [List.append_assoc], ?_⟩
        rw [List.append_assoc, rest, hsplit]
      · rcases hrecv : k.recv (amount - written.length) with ⟨outcome, k'⟩
        rw [hrecv] at hstop hsame ended
        obtain hstop | ⟨errno, hstop⟩ := hstop <;> cases hstop
        · cases ended
          exact ⟨[], (List.append_nil _).symm, hsame⟩
        · cases ended
    · rw [if_neg missing] at ended ⊢
      cases ended
      exact ⟨[], (List.append_nil _).symm, rfl⟩

end Short

end Lightning.PlainStream
