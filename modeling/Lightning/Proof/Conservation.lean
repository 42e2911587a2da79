import Lightning.Lib.Transition
import Lightning.PlainStreamInt

/-!
# Conservation of the byte stream

A session is a sequence of calls on one `PlainStream`, in any order. `peek` moves bytes from the
socket to the end of `leftoverBuffer`, `injectBuffer` puts bytes in front of it, and a complete
`read` takes from the front of both. So what was read, what is in `leftoverBuffer` and what is
still to come always spell the incoming bytes with the injected ones inserted where they were
injected, as long as the size of `leftoverBuffer` fits an `int`.
-/

namespace Lightning.PlainStream

open Transition

/-- A call on the stream, with the arguments an `int` parameter can have. -/
inductive Call where
  | peek (amount : ℕ) (isInt : amount < 2 ^ 31)
  | injectBuffer (data : Bytes)
  | read (amount : ℕ) (isInt : amount < 2 ^ 31)

structure Session where
  stream : Stream
  /-- The concatenation of all bytes that reads have returned. -/
  returned : Bytes := []
  /-- The incoming bytes with every injected part inserted at the position of its injection. -/
  total : Bytes

namespace Session

/-- Insert a part at the position up to which the connection was read. -/
def insertInjected (data : Bytes) (σ : Session) : Bytes :=
  σ.total.take σ.returned.length ++ data ++ σ.total.drop σ.returned.length

/-- Execute a call. Sessions with a read that does not obtain its full amount are not
considered. -/
def next (σ : Session) : Call → Option Session
  | .peek amount _ => (peekInt amount σ.stream).map fun peeked => { σ with stream := peeked.2 }
  | .injectBuffer data =>
      some { σ with
        stream := PlainStream.injectBuffer data σ.stream
        total := σ.insertInjected data }
  | .read amount _ =>
      match readInt amount σ.stream with
      | some (.ok outcome, s) =>
          if outcome.totalReadBytes = amount then
            some { σ with stream := s, returned := σ.returned ++ outcome.buffer }
          else none
      | _ => none

def Step (σ : Session) (call : Call) (σ' : Session) : Prop := σ.next call = some σ'

/-- A fresh stream; how its bytes arrive is up to the socket. -/
def Initial (σ : Session) : Prop :=
  ∃ k : Socket, σ = { stream := { socket := k }, total := k.incoming }

/-- Nothing is lost, duplicated or reordered. -/
def Conserved (σ : Session) : Prop :=
  σ.returned ++ σ.stream.leftoverBuffer ++ σ.stream.socket.incoming = σ.total

/-- The size of `leftoverBuffer` fits an `int` where the call looks at it. -/
def Fits (σ : Session) : Call → Bool
  | .injectBuffer _ => true
  | _ => σ.stream.leftoverBuffer.length < 2 ^ 31

/-- The steps that meet the condition. -/
def FittingStep (σ : Session) (call : Call) (σ' : Session) : Prop :=
  Step σ call σ' ∧ σ.Fits call = true

variable {σ σ' : Session} {call : Call}

/-! ## Steps -/

theorem conserved_peek (h : Conserved σ) {s : Stream}
    (kept : s.incoming = σ.stream.incoming) : Conserved { σ with stream := s } := by
  rw [Conserved, List.append_assoc] at h ⊢
  exact (congrArg (σ.returned ++ ·) kept).trans h

theorem conserved_injectBuffer (h : Conserved σ) (data : Bytes) :
    Conserved { σ with
      stream := PlainStream.injectBuffer data σ.stream
      total := σ.insertInjected data } := by
  have front : σ.total.take σ.returned.length = σ.returned := by
    rw [← h, List.append_assoc, List.take_left]
  have back : σ.total.drop σ.returned.length =
      σ.stream.leftoverBuffer ++ σ.stream.socket.incoming := by
    rw [← h, List.append_assoc, List.drop_left]
  simp only [Conserved, PlainStream.injectBuffer, insertInjected, front, back, List.append_assoc]

/-- A complete read returns the front of the connection. -/
theorem readInt_complete {amount : ℕ} {s s' : Stream} {outcome : ReadOutcome}
    (short : s.leftoverBuffer.length < 2 ^ 31)
    (h : readInt amount s = some (.ok outcome, s')) (complete : outcome.totalReadBytes = amount) :
    outcome.buffer ++ s'.incoming = s.incoming := by
  rw [readInt, readFromLeftoverInt_eq short, Option.map_some, Option.some.injEq] at h
  dsimp only at h
  cases ended : (readLoopWritten amount (amount + 1) (s.leftoverBuffer.take amount) s.socket).1 with
  | error e =>
    rw [ended] at h
    cases h
  | ok written =>
    obtain ⟨taken, rfl, rest⟩ := readLoopWritten_spec (by omega)
      (by rw [List.length_take]; omega) ended
    rw [ended] at h
    cases h
    have full : amount ≤ (s.leftoverBuffer.take amount ++ taken).length := Nat.le_of_eq complete.symm
    dsimp only
    rw [zeroFilled_of_le full]
    -- when something came from the socket, `leftoverBuffer` was used up before
    have order : taken ++ s.leftoverBuffer.drop amount = s.leftoverBuffer.drop amount ++ taken := by
      by_cases served : amount ≤ s.leftoverBuffer.length
      · have length : (s.leftoverBuffer.take amount ++ taken).length = amount := complete
        rw [List.length_append, List.length_take, Nat.min_eq_left served] at length
        rw [List.eq_nil_of_length_eq_zero (by omega : taken.length = 0), List.append_nil,
          List.nil_append]
      · rw [List.drop_of_length_le (by omega), List.append_nil, List.nil_append]
    rw [Stream.incoming, Stream.incoming, ← rest]
    calc s.leftoverBuffer.take amount ++ taken ++
          (s.leftoverBuffer.drop amount ++
            (readLoopWritten amount (amount + 1) (s.leftoverBuffer.take amount) s.socket).2.incoming)
        = s.leftoverBuffer.take amount ++ (taken ++ s.leftoverBuffer.drop amount) ++
            (readLoopWritten amount (amount + 1) (s.leftoverBuffer.take amount)
              s.socket).2.incoming := by
          simp only [List.append_assoc]
      _ = s.leftoverBuffer ++ (taken ++
            (readLoopWritten amount (amount + 1) (s.leftoverBuffer.take amount)
              s.socket).2.incoming) := by
          rw [order, ← List.append_assoc _ _ taken, List.take_append_drop, List.append_assoc]

theorem conserved_read (h : Conserved σ) {s : Stream} {buffer : Bytes}
    (taken : buffer ++ s.incoming = σ.stream.incoming) :
    Conserved { σ with stream := s, returned := σ.returned ++ buffer } := by
  rw [Conserved, List.append_assoc] at h ⊢
  rw [List.append_assoc]
  exact (congrArg (σ.returned ++ ·) taken).trans h

theorem conserved_step (h : Conserved σ) (step : FittingStep σ call σ') : Conserved σ' := by
  obtain ⟨done, fits⟩ := step
  cases call with
  | peek amount isInt =>
    have short := of_decide_eq_true fits
    rw [Step, next, peekInt_eq isInt short] at done
    cases done
    exact conserved_peek h (peek_spec amount σ.stream).2.2.1
  | injectBuffer data =>
    cases done
    exact conserved_injectBuffer h data
  | read amount isInt =>
    have short := of_decide_eq_true fits
    rw [Step, next] at done
    split at done
    · next outcome s result =>
      split_ifs at done with complete
      cases done
      exact conserved_read h (readInt_complete short result complete)
    · cases done

/-! ## Sessions -/

/-- In every session whose calls find a `leftoverBuffer` below `2 ^ 31` bytes the stream is
conserved, and every `peek` there returns what `leftoverBuffer` is afterwards and keeps the
connection as it is. -/
theorem conserved (h : Reachable Initial FittingStep σ) :
    Conserved σ ∧ ∀ amount, amount < 2 ^ 31 → σ.stream.leftoverBuffer.length < 2 ^ 31 →
      ∃ s, peekInt amount σ.stream = some (s.leftoverBuffer, s) ∧
        s.incoming = σ.stream.incoming := by
  refine ⟨h.invariant ?_ fun _ _ _ => conserved_step, fun amount isInt short => ?_⟩
  · rintro _ ⟨k, rfl⟩
    rfl
  · obtain ⟨view, -, kept, -⟩ := peek_spec amount σ.stream
    refine ⟨(peek amount σ.stream).2, ?_, kept⟩
    rw [peekInt_eq isInt short, ← view]

/-- `next`, when the step meets the condition. -/
def nextFitting (σ : Session) (call : Call) : Option Session :=
  if σ.Fits call then σ.next call else none

theorem fittingStep_of_nextFitting (h : σ.nextFitting call = some σ') : FittingStep σ call σ' := by
  unfold nextFitting at h
  split_ifs at h with fits
  exact ⟨h, fits⟩

/-- A session that peeks, injects and reads across the three parts. -/
theorem conserved_mixed :
    ∃ σ : Session, σ.returned = chars "Xabcd" ∧ Conserved σ ∧
      ∀ amount, amount < 2 ^ 31 → σ.stream.leftoverBuffer.length < 2 ^ 31 →
        ∃ s, peekInt amount σ.stream = some (s.leftoverBuffer, s) ∧
          s.incoming = σ.stream.incoming := by
  obtain ⟨σ, reachable, returned⟩ := @exists_reachable_of_run Session Call Initial nextFitting
    { stream := { socket := { received := chars "ab", schedule := [{ bytes := chars "cd" }] } }
      total := chars "abcd" }
    [.peek 3 (by decide), .injectBuffer (chars "X"), .read 2 (by decide), .read 3 (by decide)]
    (fun σ => σ.returned == chars "Xabcd") ⟨_, rfl⟩ (by decide)
  exact ⟨σ, by simpa using returned,
    conserved (reachable.mono fun _ _ _ step => fittingStep_of_nextFitting step)⟩

/-- `2 ^ 32` bytes in `leftoverBuffer` look like none. -/
theorem readFromLeftoverInt_wrapped {s : Stream} {amount : ℕ}
    (size : s.leftoverBuffer.length = 2 ^ 32) (pos : 0 < amount) :
    readFromLeftoverInt amount s = some ([], s) := by
  have wrapped : leftoverSize s = 0 := by
    rw [leftoverSize, size]
    decide
  rw [readFromLeftoverInt, wrapped, if_pos (by omega : (amount : ℤ) > 0)]
  split_ifs <;> rfl

/-- After an injection of `2 ^ 32` bytes a read takes its byte from the socket. -/
theorem conserved_wrapped : ∃ σ, Reachable Initial Step σ ∧ ¬ Conserved σ := by
  set zeros : Bytes := List.replicate (2 ^ 32) 0 with hzeros
  have size : zeros.length = 2 ^ 32 := List.length_replicate
  have start : Reachable Initial Step { stream := { socket := { received := [1] } }, total := [1] } :=
    .start ⟨_, rfl⟩
  have injected : Reachable Initial Step
      { stream := { leftoverBuffer := zeros, socket := { received := [1] } }
        total := zeros ++ [1] } := by
    refine start.next (a := .injectBuffer zeros) ?_
    simp [Step, next, injectBuffer, insertInjected]
  have done : Reachable Initial Step
      { stream := { leftoverBuffer := zeros }, returned := [1], total := zeros ++ [1] } := by
    refine injected.next (a := .read 1 (by decide)) ?_
    rw [Step, next, readInt, readFromLeftoverInt_wrapped size Nat.one_pos]
    rfl
  refine ⟨_, done, fun same => ?_⟩
  obtain ⟨n, hn⟩ : ∃ n, 2 ^ 32 = n + 1 := ⟨2 ^ 32 - 1, by decide⟩
  rw [Conserved, hzeros, hn, List.replicate_succ] at same
  exact absurd (List.cons.inj same).1 (by decide)

end Session

end Lightning.PlainStream
