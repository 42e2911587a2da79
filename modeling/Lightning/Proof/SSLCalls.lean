import Lightning.Proof.Flow

/-!
# The calls that `SSLStream::read` makes

The loop counts the bytes of a call when the next iteration begins, but decides about that iteration
before. `calls` lists what each call of `SSL_read_ex` is asked for; the socket that `read` leaves is
the one these calls leave (`readLoop_eq_foldl_calls`). A read that gets everything from the socket
always ends with a call that asks for nothing.
-/

namespace Lightning.SSLStream

open Socket

/-- A call of `SSL_read_ex` inside `read`. -/
structure ReadCall where
  /-- The bytes that are in the buffer before the call. -/
  obtained : ℕ
  requested : ℕ
  deriving DecidableEq, Repr

/-- The calls of the `do … while` loop of `read`. -/
def loopCalls (P : Platform) (amount : ℕ) : ℕ → Bytes → Bytes → Socket → List ReadCall
  | 0, _, _, _ => []
  | fuel + 1, written, chunk, k =>
      let written := written ++ chunk
      ⟨written.length, amount - written.length⟩ ::
        match SSL_read_ex P (amount - written.length) k with
        | (.error _, _) => []
        | (.ok chunk, k) =>
            if written.length < amount then loopCalls P amount fuel written chunk k else []

def calls (P : Platform) (amount : ℕ) (s : Stream) : List ReadCall :=
  let leftover := s.readFromLeftover amount
  if leftover.1.length ≥ amount then []
  else loopCalls P amount (amount + 2) leftover.1 [] leftover.2.socket

/-- Every call asks for something, and none is made once the buffer is full. -/
def Needed (amount : ℕ) (calls : List ReadCall) : Prop :=
  ∀ call ∈ calls, call.requested ≠ 0 ∧ call.obtained < amount

variable {P : Platform} {amount fuel : ℕ} {written chunk : Bytes} {k : Socket}

/-- The loop leaves the socket that its calls leave. -/
theorem readLoop_eq_foldl_calls :
    (readLoop P amount fuel written chunk k).2.2 =
      (loopCalls P amount fuel written chunk k).foldl
        (fun k call => (SSL_read_ex P call.requested k).2) k := by
  induction fuel generalizing written chunk k with
  | zero => rfl
  | succ fuel ih =>
    rw [readLoop, loopCalls, List.foldl_cons]
    rcases SSL_read_ex P (amount - (written ++ chunk).length) k with ⟨e | bytes, k'⟩
    · rfl
    · dsimp only
      split_ifs
      · exact ih
      · rfl

theorem loopCalls_of_data {bytes : Bytes} (missing : (written ++ chunk).length < amount)
    (h : (k.recv (amount - (written ++ chunk).length)).1 = .data bytes) :
    loopCalls P amount (fuel + 1) written chunk k =
      ⟨(written ++ chunk).length, amount - (written ++ chunk).length⟩ ::
        loopCalls P amount fuel (written ++ chunk) bytes
          (k.recv (amount - (written ++ chunk).length)).2 := by
  rw [loopCalls, SSL_read_ex_of_data (by omega) h]
  dsimp only
  rw [if_pos missing]

/-- The flow ends first: the buffer is never full. -/
theorem needed_loopCalls (short : (written ++ chunk ++ k.flow.1).length < amount) :
    Needed amount (loopCalls P amount fuel written chunk k) := by
  induction fuel generalizing written chunk k with
  | zero => exact fun call h => absurd h List.not_mem_nil
  | succ fuel ih =>
    have missing : (written ++ chunk).length < amount := by
      rw [List.length_append] at short
      omega
    have first : amount - (written ++ chunk).length ≠ 0 ∧ (written ++ chunk).length < amount :=
      ⟨by omega, missing⟩
    cases recv_flow (amount - (written ++ chunk).length) k with
    | stops nothing stopped same =>
      rw [loopCalls, SSL_read_ex_of_nil P stopped]
      exact List.forall_mem_cons.mpr ⟨first, fun call h => absurd h List.not_mem_nil⟩
    | fills bytes hdata full taken after =>
      rw [← taken, List.length_take] at full
      rw [List.length_append] at short
      omega
    | drains bytes hdata progress inside flows after =>
      rw [flows, ← List.append_assoc] at short
      rw [loopCalls_of_data missing hdata]
      exact List.forall_mem_cons.mpr ⟨first, ih short⟩

/-- The last call asks for nothing when the buffer gets full before it. -/
theorem exists_empty_call (arrived : amount ≤ (written ++ chunk ++ k.flow.1).length)
    (bound : (written ++ chunk).length ≤ amount)
    (enough : amount - (written ++ chunk).length < fuel) :
    ⟨amount, 0⟩ ∈ loopCalls P amount fuel written chunk k := by
  induction fuel generalizing written chunk k with
  | zero => omega
  | succ fuel ih =>
    by_cases missing : (written ++ chunk).length < amount
    · cases recv_flow (amount - (written ++ chunk).length) k with
      | stops nothing _ _ =>
        rw [nothing, List.append_nil] at arrived
        omega
      | fills bytes hdata full _ _ =>
        rw [loopCalls_of_data missing hdata]
        apply List.mem_cons_of_mem
        apply ih
        · rw [List.length_append, List.length_append]
          omega
        · rw [List.length_append]
          omega
        · rw [List.length_append]
          omega
      | drains bytes hdata progress inside flows _ =>
        rw [loopCalls_of_data missing hdata]
        apply List.mem_cons_of_mem
        apply ih
        · rw [flows] at arrived
          rw [List.append_assoc]
          exact arrived
        · rw [List.length_append]
          omega
        · rw [List.length_append]
          omega
    · have full : (written ++ chunk).length = amount := by omega
      rw [loopCalls, full, Nat.sub_self]
      exact List.mem_cons_self

/-- `read` makes needed calls only, exactly when it does not fill its buffer from the socket:
`leftoverBuffer` covers the amount, or the socket fails before. -/
theorem calls_needed_iff (P : Platform) (amount : ℕ) (s : Stream) :
    Needed amount (calls P amount s) ↔
      amount ≤ s.leftoverBuffer.length ∨
        s.leftoverBuffer.length + s.socket.flow.1.length < amount := by
  have served : (s.leftoverBuffer.take amount).length ≥ amount ↔
      amount ≤ s.leftoverBuffer.length := by
    rw [List.length_take]
    omega
  rw [calls, Stream.readFromLeftover_eq]
  dsimp only
  simp only [served]
  split_ifs with full
  · exact iff_of_true (fun call h => absurd h List.not_mem_nil) (Or.inl full)
  · have whole : s.leftoverBuffer.take amount = s.leftoverBuffer :=
      List.take_of_length_le (by omega)
    rw [whole, or_iff_right full]
    constructor
    · intro needed
      by_contra arrived
      have last : ⟨amount, 0⟩ ∈ loopCalls P amount (amount + 2) s.leftoverBuffer [] s.socket := by
        apply exists_empty_call
        · rw [List.append_nil, List.length_append]
          omega
        · rw [List.append_nil]
          omega
        · rw [List.append_nil]
          omega
      exact (needed _ last).1 rfl
    · intro short
      apply needed_loopCalls
      rw [List.append_nil, List.length_append]
      exact short

/-- Three bytes that come at once are followed by a call that asks for none. -/
theorem calls_not_needed :
    calls Platform.newestFirst 3 { transport := .ssl, socket := { received := chars "abc" } } =
        [⟨0, 3⟩, ⟨3, 0⟩] ∧
      ¬ Needed 3 (calls Platform.newestFirst 3
        { transport := .ssl, socket := { received := chars "abc" } }) := by
  refine ⟨rfl, fun needed => ?_⟩
  exact (needed ⟨3, 0⟩ (by decide)).1 rfl

end Lightning.SSLStream
