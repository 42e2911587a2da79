import Lightning.Proof.Flow
import Lightning.Proof.Steps

/-!
# Connections whose head is not complete

`peek` gives the loop the bytes that it has, whatever made it stop, and without a terminator in them
`handleClientEvent` waits for more. `peekEnd` says why `peek` stopped, and `HeadHere` whether the
bytes hold a head. The theorems say when waiting is right: when the socket is only empty
(`handleClientEvent_endsHandled_iff`), and when the view has room for more
(`leftoverBuffer_lt_of_fitting`). Otherwise the descriptor is reported again at once, and the two
steps of the loop lead back to the state before them (`spins`).
-/

namespace Lightning

open Search

/-- Why the loop of `peek` ends. -/
inductive PeekEnd where
  /-- The view has the size that was asked for. -/
  | full
  /-- No data is available yet. -/
  | noData
  | endOfStream
  /-- Any other error. -/
  | failed
  deriving DecidableEq, Repr

namespace PlainStream

/-- The loop of `peek`, with its reason to end. -/
def peekLoopEnd (amount : ℕ) : ℕ → Bytes → Socket → PeekEnd
  | 0, _, _ => .full
  | fuel + 1, buffer, k =>
      if buffer.length < amount then
        match k.recv (amount - buffer.length) with
        | (.data bytes, k) => peekLoopEnd amount fuel (buffer ++ bytes) k
        | (.eof, _) => .endOfStream
        | (.fail errno, _) => if errno = EAGAIN then .noData else .failed
      else .full

/-- How `recv` classifies the end of the flow. -/
def endOf : Option ℤ → PeekEnd
  | none => .endOfStream
  | some errno => if errno = EAGAIN then .noData else .failed

variable {amount fuel : ℕ} {buffer : Bytes} {k : Socket}

theorem peekLoopEnd_of_le (h : amount ≤ buffer.length) :
    peekLoopEnd amount fuel buffer k = .full := by
  cases fuel with
  | zero => rfl
  | succ fuel => rw [peekLoopEnd, if_neg (Nat.not_lt.mpr h)]

theorem peekLoopEnd_of_data {bytes : Bytes} (short : buffer.length < amount)
    (hdata : (k.recv (amount - buffer.length)).1 = .data bytes) :
    peekLoopEnd amount (fuel + 1) buffer k =
      peekLoopEnd amount fuel (buffer ++ bytes) (k.recv (amount - buffer.length)).2 := by
  rw [peekLoopEnd, if_pos short, show k.recv (amount - buffer.length) = (.data bytes, _) from
    Prod.ext hdata rfl]

theorem peekLoopEnd_eq (enough : amount - buffer.length < fuel) :
    peekLoopEnd amount fuel buffer k =
      if amount ≤ (buffer ++ k.flow.1).length then .full else endOf k.flow.2 := by
  induction fuel generalizing buffer k with
  | zero => omega
  | succ fuel ih =>
    by_cases short : buffer.length < amount
    · cases Socket.recv_flow (amount - buffer.length) k with
      | stops nothing stopped _ =>
        rw [peekLoopEnd, if_pos short]
        rcases hrecv : k.recv (amount - buffer.length) with ⟨result, k'⟩
        rw [hrecv] at stopped
        subst stopped
        rw [nothing, List.append_nil, if_neg (Nat.not_le.mpr short)]
        cases k.flow.2 <;> rfl
      | fills bytes hdata full taken _ =>
        have filled : amount ≤ (buffer ++ bytes).length := by
          rw [List.length_append]
          omega
        have arrived : amount ≤ (buffer ++ k.flow.1).length := by
          rw [← taken, List.length_take] at full
          rw [List.length_append]
          omega
        rw [peekLoopEnd_of_data short hdata, peekLoopEnd_of_le filled, if_pos arrived]
      | drains bytes hdata progress inside flows _ =>
        rw [peekLoopEnd_of_data short hdata, ih (by rw [List.length_append]; omega), flows,
          List.append_assoc]
    · have full : amount ≤ buffer.length := Nat.le_of_not_lt short
      rw [peekLoopEnd_of_le full, if_pos (by rw [List.length_append]; omega)]

end PlainStream

namespace IStream

/-- Why `peek` ends, for both classes: `SSL_ERROR_WANT_READ` and `SSL_ERROR_ZERO_RETURN` are the
first two errors of `recv`. -/
def peekEnd (amount : ℕ) (s : Stream) : PeekEnd :=
  PlainStream.peekLoopEnd amount (amount + 1) s.leftoverBuffer s.socket

variable {P : Platform} {amount : ℕ} {s : Stream}

theorem peekEnd_eq (amount : ℕ) (s : Stream) :
    peekEnd amount s =
      if amount ≤ (s.leftoverBuffer ++ s.socket.flow.1).length then .full
      else PlainStream.endOf s.socket.flow.2 :=
  PlainStream.peekLoopEnd_eq (by omega)

theorem peek_view (P : Platform) (amount : ℕ) (s : Stream) :
    (peek P amount s).1 =
      s.leftoverBuffer ++ s.socket.flow.1.take (amount - s.leftoverBuffer.length) := by
  rw [peek_eq]
  exact PlainStream.peekLoop_eq_flow (by omega)

theorem peek_leftoverBuffer (P : Platform) (amount : ℕ) (s : Stream) :
    (peek P amount s).2.leftoverBuffer = (peek P amount s).1 := by
  rw [peek_eq]
  exact (PlainStream.peek_spec amount s).1.symm

end IStream

namespace World

open NonblockingClientManagerTask Transition

/-- The bytes that `peek` shows hold a terminator. -/
def HeadHere (s : Stream) : Prop :=
  DOUBLE_CRLF <:+:
    s.leftoverBuffer ++ s.socket.flow.1.take (MAX_HEADER_BYTES - s.leftoverBuffer.length)

instance (s : Stream) : Decidable (HeadHere s) := inferInstanceAs (Decidable (_ <:+: _))

/-- The event leaves the client in `connections` and arms its descriptor again. -/
def Rearms (P : Platform) (fd : ℕ) (client : ClientId) (w : World) : Prop :=
  handleClientEvent P fd false w = .ok (rearmFd fd
    (w.setStream client (IStream.peek P MAX_HEADER_BYTES (w.stream client)).2))

/-- The event ends with the client out of `connections`, and this holds. -/
def Removes (P : Platform) (fd : ℕ) (w : World) (p : World → Prop) : Prop :=
  ∃ w', handleClientEvent P fd false w = .ok w' ∧ w'.connections.lookup fd = none ∧ p w'

section Event

variable {P : Platform} {fd : ℕ} {client : ClientId} {w w' : World}

theorem findFirst_peek_eq_none_iff :
    findFirst DOUBLE_CRLF (IStream.peek P MAX_HEADER_BYTES (w.stream client)).1 = none ↔
      ¬ HeadHere (w.stream client) := by
  rw [findFirst_eq_none_iff, IStream.peek_view, HeadHere]

theorem rearms_of_missing (tracked : w.connections.lookup fd = some client)
    (missing : ¬ HeadHere (w.stream client)) : Rearms P fd client w := by
  rw [Rearms, handleClientEvent, tracked]
  dsimp only
  rw [if_neg Bool.false_ne_true, findFirst_peek_eq_none_iff.mpr missing]

theorem rearmFd_of_registered (h : w.interest fd ≠ none) :
    rearmFd fd w = { w with interest := Function.update w.interest fd (some true) } := if_neg h

theorem rearmFd_connections (fd : ℕ) (w : World) : (rearmFd fd w).connections = w.connections := by
  obtain ⟨interest, armed⟩ := rearmFd_eq fd w
  rw [armed]

theorem not_removes_of_rearms (tracked : w.connections.lookup fd = some client)
    (armed : Rearms P fd client w) (p : World → Prop) : ¬ Removes P fd w p := by
  rintro ⟨w', handled, removed, -⟩
  obtain rfl := Except.ok.inj (armed.symm.trans handled)
  rw [rearmFd_connections] at removed
  cases tracked.symm.trans removed

/-- A head that is there takes the client out of `connections`. -/
theorem not_rearms_of_headHere (tracked : w.connections.lookup fd = some client)
    (here : HeadHere (w.stream client)) : ¬ Rearms P fd client w := by
  intro armed
  obtain ⟨untracked, -⟩ | ⟨c, tracked', ⟨hangup, -⟩ | ⟨-, missing, -⟩ | ⟨-, pos, head, after⟩⟩ :=
    handleClientEvent_cases armed
  · cases tracked.symm.trans untracked
  · cases hangup
  · obtain rfl := Option.some.inj (tracked.symm.trans tracked')
    exact findFirst_peek_eq_none_iff.mp missing here
  · refine not_removes_of_rearms tracked armed (fun _ => True) ⟨_, armed, ?_, trivial⟩
    rw [after]
    exact AList.lookup_erase _ _

/-- What has to follow when `peek` shows no head: a connection whose peer has ended its side is
closed and removed, and only an empty socket is waited for. -/
structure EndsHandled (P : Platform) (fd : ℕ) (client : ClientId) (w : World) : Prop where
  dropped : ¬ HeadHere (w.stream client) →
    (IStream.peekEnd MAX_HEADER_BYTES (w.stream client) = .endOfStream ∨
      (w.stream client).transport = .ssl ∧
        IStream.peekEnd MAX_HEADER_BYTES (w.stream client) = .failed) →
    Removes P fd w fun w' => w'.closed client = true
  rearmed : Rearms P fd client w →
    IStream.peekEnd MAX_HEADER_BYTES (w.stream client) = .noData

/-- `handleClientEvent` deals with the end of the stream exactly when the head is there or the
socket is only empty: `recv` would block before the view is full. -/
theorem handleClientEvent_endsHandled_iff (tracked : w.connections.lookup fd = some client) :
    EndsHandled P fd client w ↔ HeadHere (w.stream client) ∨
      ((w.stream client).leftoverBuffer ++ (w.stream client).socket.flow.1).length <
          MAX_HEADER_BYTES ∧
        (w.stream client).socket.flow.2 = some EAGAIN := by
  have noData : IStream.peekEnd MAX_HEADER_BYTES (w.stream client) = .noData ↔
      ((w.stream client).leftoverBuffer ++ (w.stream client).socket.flow.1).length <
          MAX_HEADER_BYTES ∧
        (w.stream client).socket.flow.2 = some EAGAIN := by
    rw [IStream.peekEnd_eq, ← Nat.not_le]
    split_ifs with full
    · exact iff_of_false (by decide) fun h => h.1 full
    · rw [and_iff_right full]
      cases (w.stream client).socket.flow.2 with
      | none => exact iff_of_false (by decide) (by simp)
      | some errno => simp [PlainStream.endOf]
  rw [← noData]
  by_cases here : HeadHere (w.stream client)
  · exact iff_of_true ⟨fun missing => absurd here missing,
      fun armed => absurd armed (not_rearms_of_headHere tracked here)⟩ (Or.inl here)
  · have armed := rearms_of_missing (P := P) tracked here
    rw [or_iff_right here]
    refine ⟨fun handled => handled.rearmed armed, fun paused =>
      ⟨fun _ ended => ?_, fun _ => paused⟩⟩
    rw [paused] at ended
    obtain ended | ⟨-, ended⟩ := ended <;> cases ended

/-! ## Events that come again -/

variable {ρ : Type} [RegexEngine ρ] {server : HttpServer ρ} {capacity : ℕ}

theorem running_of_loopIdle (idle : w.loopIdle = true) : w.newFdChannel.reader ≠ .returned := by
  intro returned
  simp [loopIdle, returned] at idle

theorem next_handle_client {hangup : Bool} {batch : List Event} (idle : w.loopIdle = true)
    (first : w.batch = .client fd hangup :: batch) :
    w.next P server capacity .handle =
      (handleClientEvent P fd hangup (w.turnTo fd batch)).toOption := by
  rw [next, if_neg (running_of_loopIdle idle), if_pos idle, first]

/-- A client that is reported although `peek` finds nothing new: the loop waits for its event and
handles it, and is where it was before. -/
theorem spins (idle : w.loopIdle = true) (empty : w.batch = [])
    (tracked : w.connections.lookup fd = some client)
    (reported : w.ready (.client fd false) = true) (plain : w.ciphertext client = false)
    (still : (IStream.peek P MAX_HEADER_BYTES (w.stream client)).2 = w.stream client)
    (missing : ¬ HeadHere (w.stream client)) :
    (w.next P server capacity (.epollWait [.client fd false])).bind
      (fun w => w.next P server capacity .handle) = some w := by
  have armed : w.interest fd = some true := by
    simp only [ready, Bool.and_eq_true, decide_eq_true_eq] at reported
    exact reported.1
  have waited : w.next P server capacity (.epollWait [.client fd false]) = some { w with
      batch := [.client fd false]
      interest := Function.update w.interest fd (some false) } := by
    rw [next, if_neg (running_of_loopIdle idle)]
    exact if_pos ⟨idle, empty, Nat.le_add_left 1 63, List.nodup_singleton _,
      by simpa using reported⟩
  have handled := @rearms_of_missing P fd client
    { w with
      batch := []
      interest := Function.update w.interest fd (some false)
      ciphertext := fun c => w.ciphertext c && w.connections.lookup fd ≠ some c } tracked missing
  have disarmed : Function.update w.interest fd (some false) fd ≠ none := by
    rw [Function.update_self]
    exact Option.some_ne_none _
  have fetched : (fun c => w.ciphertext c && w.connections.lookup fd ≠ some c) = w.ciphertext := by
    funext c
    by_cases other : c = client
    · rw [other, plain, Bool.false_and]
    · simp [tracked, Ne.symm other]
  have same : Function.update (Function.update w.interest fd (some false)) fd (some true) =
      w.interest := by
    rw [Function.update_idem, ← armed, Function.update_eq_self]
  have next := @next_handle_client P fd { w with
      batch := [.client fd false]
      interest := Function.update w.interest fd (some false) } ρ _ server capacity false [] idle rfl
  rw [waited, Option.bind_some, next, handled, rearmFd_of_registered disarmed]
  dsimp only [setStream]
  rw [still, Function.update_eq_self, same, fetched, ← empty]
  rfl

end Event

/-- A client whose peer has ended its side after one byte is reported and re-armed forever. -/
theorem half_closed_rearmed :
    ∃ w, Reachable Initial (Step Platform.newestFirst HttpServer.emptyServer 65536) w ∧
      w.connections.lookup 5 = some 0 ∧ (w.stream 0).socket.fin = true ∧
      ¬ EndsHandled Platform.newestFirst 5 0 w ∧
      (w.next Platform.newestFirst HttpServer.emptyServer 65536
        (.epollWait [.client 5 false])).bind
          (fun w => w.next Platform.newestFirst HttpServer.emptyServer 65536 .handle) = some w := by
  obtain ⟨w, reachable, state⟩ := @exists_reachable_of_run World Action Initial
    (next Platform.newestFirst HttpServer.emptyServer 65536) {}
    [.accept 5 .plain, .notifyNew, .epollWait [.newPipe], .handle, .drain, .drain,
      .arrive 0 { bytes := [71], fin := true }, .epollWait [.client 5 false], .handle]
    (fun w => w.connections.lookup 5 == some 0 &&
      w.stream 0 == { leftoverBuffer := [71], socket := { fin := true } } &&
      w.ready (.client 5 false) && w.loopIdle && w.batch == [] && !w.ciphertext 0) rfl
    (by decide +kernel)
  simp only [Bool.and_eq_true, beq_iff_eq, Bool.not_eq_true'] at state
  obtain ⟨⟨⟨⟨⟨tracked, stream⟩, reported⟩, idle⟩, empty⟩, plain⟩ := state
  have missing : ¬ HeadHere (w.stream 0) := by
    rw [stream]
    decide
  refine ⟨w, reachable, tracked, by rw [stream], fun handled => ?_,
    spins idle empty tracked reported plain (by rw [stream]; rfl) missing⟩
  have waits := handled.rearmed (rearms_of_missing tracked missing)
  rw [stream] at waits
  exact absurd waits (by decide)

/-- A head that is cut waits for the rest. -/
theorem endsHandled_paused :
    EndsHandled Platform.newestFirst 5 0 { connections := AList.singleton 5 0, stream := fun _ =>
      { leftoverBuffer := [71], socket := { received := [69] } } } := by
  apply (handleClientEvent_endsHandled_iff rfl).mpr
  exact Or.inr (by decide)

/-! ## The limit of a head -/

/-- What `handleClientEvent` needs in order not to wait with a full `leftoverBuffer`: there is a
head, or the bytes that are there do not reach the limit. -/
def Fits (s : Stream) : Prop :=
  HeadHere s ∨ (s.leftoverBuffer ++ s.socket.flow.1).length < MAX_HEADER_BYTES

/-- A descriptor is armed again only with room for more, and a client that has as many bytes as a
head may have, without a terminator, is answered or closed. -/
structure BelowLimit (P : Platform) (fd : ℕ) (client : ClientId) (w : World) : Prop where
  rearmed : Rearms P fd client w →
    (IStream.peek P MAX_HEADER_BYTES (w.stream client)).2.leftoverBuffer.length < MAX_HEADER_BYTES
  givenUp : ¬ HeadHere (w.stream client) →
    MAX_HEADER_BYTES ≤
      (IStream.peek P MAX_HEADER_BYTES (w.stream client)).2.leftoverBuffer.length →
    Removes P fd w fun w' => w'.closed client = true ∨
      (w'.stream client).socket.sent ≠ (w.stream client).socket.sent

instance (s : Stream) : Decidable (Fits s) := inferInstanceAs (Decidable (_ ∨ _))

/-- A step in which the event of a client finds a head or room for more. -/
def FittingStep {ρ : Type} [RegexEngine ρ] (P : Platform) (server : HttpServer ρ) (capacity : ℕ)
    (w : World) (a : Action) (w' : World) : Prop :=
  Step P server capacity w a w' ∧ ∀ fd client batch, a = .handle →
    w.batch = .client fd false :: batch → w.connections.lookup fd = some client →
      Fits (w.stream client)

section Limit

variable {ρ : Type} [RegexEngine ρ] {P : Platform} {server : HttpServer ρ} {capacity : ℕ}
  {w w' : World} {a : Action} {fd : ℕ} {client : ClientId}

theorem length_peek_lt_iff (s : Stream) :
    (IStream.peek P MAX_HEADER_BYTES s).2.leftoverBuffer.length < MAX_HEADER_BYTES ↔
      (s.leftoverBuffer ++ s.socket.flow.1).length < MAX_HEADER_BYTES := by
  rw [IStream.peek_leftoverBuffer, IStream.peek_view]
  simp only [List.length_append, List.length_take]
  omega

theorem belowLimit_iff (tracked : w.connections.lookup fd = some client) :
    BelowLimit P fd client w ↔ Fits (w.stream client) := by
  rw [Fits, ← length_peek_lt_iff (P := P)]
  by_cases here : HeadHere (w.stream client)
  · exact iff_of_true ⟨fun armed => absurd armed (not_rearms_of_headHere tracked here),
      fun missing => absurd here missing⟩ (Or.inl here)
  · rw [or_iff_right here]
    refine ⟨fun below => below.rearmed (rearms_of_missing tracked here), fun room =>
      ⟨fun _ => room, fun _ full => ?_⟩⟩
    exact absurd room (Nat.not_lt.mpr full)

theorem call_leftoverBuffer_le (task : Task) (s : Stream) :
    (ClientRequestHandler.call P server task.client task.requestBuffer
      s).stream.leftoverBuffer.length ≤ s.leftoverBuffer.length := by
  refine ClientRequestHandler.call_keeps
    (motive := fun t => t.leftoverBuffer.length ≤ s.leftoverBuffer.length)
    (fun amount t h => ?_) (fun bytes t h => ?_) (Nat.le_refl _)
  · rw [IStream.read_leftoverBuffer, List.length_drop]
    omega
  · obtain ⟨sent, after⟩ := IStream.write_stream bytes (intOfSize bytes.length) t
    rw [ClientRequestHandler.writeAll, after]
    exact h

theorem setStream_leftoverBuffer_lt (below : ∀ c,
      (w.stream c).leftoverBuffer.length < MAX_HEADER_BYTES) {s : Stream}
    (lt : s.leftoverBuffer.length < MAX_HEADER_BYTES) (c : ClientId) :
    ((w.setStream client s).stream c).leftoverBuffer.length < MAX_HEADER_BYTES := by
  by_cases same : c = client
  · rwa [same, setStream_self]
  · rw [setStream_of_ne same]
    exact below c

/-- An event that finds a head or room for more leaves less than a full view. -/
theorem handleClientEvent_leftoverBuffer {hangup : Bool} (below : ∀ c,
      (w.stream c).leftoverBuffer.length < MAX_HEADER_BYTES)
    (fits : ∀ client, hangup = false → w.connections.lookup fd = some client →
      Fits (w.stream client))
    (h : handleClientEvent P fd hangup w = .ok w') (c : ClientId) :
    (w'.stream c).leftoverBuffer.length < MAX_HEADER_BYTES := by
  obtain ⟨-, rfl⟩ | ⟨client, tracked, ⟨-, fdOpen, interest, rfl, -⟩ |
    ⟨notHangup, missing, interest, rfl⟩ | ⟨notHangup, pos, head, rfl⟩⟩ := handleClientEvent_cases h
  · exact below c
  · exact below c
  · refine setStream_leftoverBuffer_lt below ?_ c
    obtain here | room := fits client notHangup tracked
    · exact absurd here (findFirst_peek_eq_none_iff.mp missing)
    · exact (length_peek_lt_iff _).mpr room
  · refine setStream_leftoverBuffer_lt below ?_ c
    have shown : (IStream.peek P MAX_HEADER_BYTES (w.stream client)).1.length ≤
        MAX_HEADER_BYTES := by
      have := below client
      rw [IStream.peek_view, List.length_append, List.length_take]
      omega
    rw [IStream.read_leftoverBuffer, IStream.peek_leftoverBuffer, List.length_drop]
    have : 0 < MAX_HEADER_BYTES := by decide
    omega

theorem leftoverBuffer_lt_step (below : ∀ c, (w.stream c).leftoverBuffer.length < MAX_HEADER_BYTES)
    (step : FittingStep P server capacity w a w') (c : ClientId) :
    (w'.stream c).leftoverBuffer.length < MAX_HEADER_BYTES := by
  obtain ⟨step, fits⟩ := step
  cases takes_of_next step with
  | accept fd transport idle isOpen unused =>
    show (Function.update w.stream w.accepted _ c).leftoverBuffer.length < MAX_HEADER_BYTES
    rw [Function.update_apply]
    split_ifs
    · exact Nat.zero_lt_succ _
    · exact below c
  | arrive d arrival | foresee d arrival | outcome d r =>
    refine setStream_leftoverBuffer_lt below ?_ c
    exact below d
  | client fd hangup batch w' idle first handled =>
    refine handleClientEvent_leftoverBuffer (w := (w.turnTo fd batch)) below
      (fun client notHangup tracked => ?_) handled c
    exact fits fd client batch rfl (by rw [first, notHangup]) tracked
  | drainNew draining =>
    rw [drainNewFdChannel_stream]
    exact below c
  | drainReturn draining =>
    rw [drainReturnChannel_stream]
    exact below c
  | call i task keepAlive busy enqueued =>
    exact setStream_leftoverBuffer_lt below
      ((call_leftoverBuffer_le task _).trans_lt (below task.client)) c
  | notifyNew | shutdown | ciphertext | epollWait | newPipe | returnPipe | take | notifyReturn =>
    exact below c

/-- In a run whose events find heads or room for more, no client that waits has a full
`leftoverBuffer`; and the next event keeps this exactly when it finds a head or room for more. -/
theorem leftoverBuffer_lt_of_fitting (h : Reachable Initial (FittingStep P server capacity) w)
    (tracked : w.connections.lookup fd = some client) :
    (w.stream client).leftoverBuffer.length < MAX_HEADER_BYTES ∧
      (BelowLimit P fd client w ↔ Fits (w.stream client)) := by
  have below := h.invariant (I := fun w => ∀ c,
    (w.stream c).leftoverBuffer.length < MAX_HEADER_BYTES)
    (fun w initial c => by rw [initial]; exact Nat.zero_lt_succ _)
    fun w a w' => leftoverBuffer_lt_step
  exact ⟨below client, belowLimit_iff tracked⟩

end Limit

/-- `next`, for the steps that are fitting. -/
def nextFitting {ρ : Type} [RegexEngine ρ] (P : Platform) (server : HttpServer ρ) (capacity : ℕ)
    (w : World) (a : Action) : Option World :=
  match a, w.batch with
  | .handle, .client fd false :: _ =>
      if (w.connections.lookup fd).all fun client => Fits (w.stream client) then
        w.next P server capacity a
      else none
  | _, _ => w.next P server capacity a

theorem fittingStep_of_nextFitting {ρ : Type} [RegexEngine ρ] {P : Platform}
    {server : HttpServer ρ} {capacity : ℕ} {w w' : World} {a : Action}
    (h : nextFitting P server capacity w a = some w') : FittingStep P server capacity w a w' := by
  unfold nextFitting at h
  split at h
  · rename_i fd batch first
    split_ifs at h with fits
    refine ⟨h, fun fd' client batch' _ first' tracked => ?_⟩
    obtain ⟨⟨rfl⟩, -⟩ := List.cons.inj (first.symm.trans first')
    rw [tracked] at fits
    exact of_decide_eq_true fits
  · rename_i other
    exact ⟨h, fun fd client batch isHandle first => absurd first (other fd batch isHandle)⟩

/-- A client that was accepted and is in `connections`, before anything arrives. -/
theorem exists_waiting :
    ∃ w, Reachable Initial (FittingStep Platform.newestFirst HttpServer.emptyServer 65536) w ∧
      w.connections.lookup 5 = some 0 ∧ w.stream 0 = {} ∧ w.accepted = 1 ∧
      w.newFdChannel.reader = .draining := by
  obtain ⟨w, reachable, state⟩ := @exists_reachable_of_run World Action Initial
    (nextFitting Platform.newestFirst HttpServer.emptyServer 65536) {}
    [.accept 5 .plain, .notifyNew, .epollWait [.newPipe], .handle, .drain]
    (fun w => w.connections.lookup 5 = some 0 ∧ w.stream 0 = {} ∧ w.accepted = 1 ∧
      w.newFdChannel.reader = .draining) rfl (by decide +kernel)
  exact ⟨w, reachable.mono fun _ _ _ step => fittingStep_of_nextFitting step,
    of_decide_eq_true state⟩

/-- A client whose partial head was read and which was armed again, with the next bytes waiting. -/
theorem leftoverBuffer_lt_waiting :
    ∃ w, w.connections.lookup 5 = some 0 ∧
      (w.stream 0).leftoverBuffer = chars "GET /" ∧
      (w.stream 0).socket.received = chars " HTTP" ∧
      (w.stream 0).leftoverBuffer.length < MAX_HEADER_BYTES ∧
      (BelowLimit Platform.newestFirst 5 0 w ↔ Fits (w.stream 0)) := by
  obtain ⟨w, reachable, state⟩ := @exists_reachable_of_run World Action Initial
    (nextFitting Platform.newestFirst HttpServer.emptyServer 65536) {}
    [.accept 5 .plain, .notifyNew, .epollWait [.newPipe], .handle, .drain, .drain,
      .arrive 0 { bytes := chars "GET /" }, .epollWait [.client 5 false], .handle,
      .arrive 0 { bytes := chars " HTTP" }]
    (fun w => w.connections.lookup 5 = some 0 ∧ (w.stream 0).leftoverBuffer = chars "GET /" ∧
      (w.stream 0).socket.received = chars " HTTP") rfl (by decide +kernel)
  obtain ⟨tracked, head, received⟩ := of_decide_eq_true state
  have fitting := reachable.mono fun _ _ _ step => fittingStep_of_nextFitting step
  exact ⟨w, tracked, head, received, leftoverBuffer_lt_of_fitting fitting tracked⟩

/-- One byte more than a head may have arrives, without a terminator. -/
theorem full_rearmed :
    ∃ w, Reachable Initial (Step Platform.newestFirst HttpServer.emptyServer 65536) w ∧
      w.connections.lookup 5 = some 0 ∧ ¬ BelowLimit Platform.newestFirst 5 0 w := by
  obtain ⟨w, fitting, tracked, stream, known, draining⟩ := exists_waiting
  have reachable := fitting.mono fun _ _ _ step => step.1
  have arrives : w.next Platform.newestFirst HttpServer.emptyServer 65536
      (.arrive 0 { bytes := List.replicate 65537 97 }) =
        some (w.setSocket 0 ((w.stream 0).socket.arrive { bytes := List.replicate 65537 97 })) := by
    rw [next, if_neg (by rw [draining]; decide)]
    exact if_pos (by rw [known]; decide)
  have bytes : (w.setSocket 0 ((w.stream 0).socket.arrive
      { bytes := List.replicate 65537 97 })).stream 0 =
        { socket := { received := List.replicate 65537 97 } } := by
    rw [setSocket, setStream_self, stream]
    rfl
  refine ⟨_, reachable.next arrives, tracked, fun below => ?_⟩
  have missing : ¬ HeadHere { socket := { received := List.replicate 65537 97 } } := by
    intro here
    have inside := List.mem_of_mem_take (here.subset (List.mem_cons_self (a := 13)))
    exact absurd (List.eq_of_mem_replicate inside) (by decide)
  have room := below.rearmed (rearms_of_missing tracked (by rw [bytes]; exact missing))
  rw [length_peek_lt_iff, bytes] at room
  have len : (List.replicate 65537 (97 : UInt8)).length = 65537 := List.length_replicate
  exact absurd (len ▸ room) (by decide)

end World

end Lightning
