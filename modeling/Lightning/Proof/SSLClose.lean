import Lightning.SSLClose

/-!
# When closing a TLS stream ends

The loop that `SSLStream::close` runs after an `SSL_shutdown` of `0` is a queue: the peer adds
bytes, and every call of `SSL_read` takes up to 256 of them. It ends when a call finds the queue
empty (`backlog`), which is up to the peer alone, so that no number of calls bounds it for all
peers (`reads_bounded_iff`). A peer that sends a finite text makes it end
(`exists_returnsAfter_of_silent`).
-/

namespace Lightning

namespace SSLStream

/-! ## One call of `SSL_read` -/

section Step

variable {peer : ℕ → Arrival} {i : ℕ} {k : Socket}

theorem SSL_read_pos_iff {num : ℕ} (pos : 0 < num) (k : Socket) :
    (SSL_read num k).1 > 0 ↔ k.poll.received ≠ [] := by
  rw [SSL_read]
  by_cases h : k.poll.received = []
  · obtain ⟨stop, -⟩ := Socket.recv_of_nil num h
    rcases hrecv : k.recv num with ⟨result, k'⟩
    rw [hrecv] at stop
    cases stop with
    | inl eof =>
      cases eof
      simp [h]
    | inr fail =>
      obtain ⟨errno, rfl⟩ := fail
      simp [h]
  · rw [Socket.recv_of_ne h]
    have some_byte := List.length_pos_iff.mpr h
    simp only [List.length_take, h, ne_eq, not_false_eq_true, iff_true]
    omega

theorem SSL_read_socket (num : ℕ) (k : Socket) : (SSL_read num k).2 = (k.recv num).2 := by
  rw [SSL_read]
  rcases k.recv num with ⟨_ | _ | _, k'⟩ <;> rfl

theorem drainStep_eq_none_iff :
    drainStep peer (i, k) = none ↔ (k.arrive (peer i)).poll.received = [] := by
  have size : 0 < drainSize := by decide
  have positive := SSL_read_pos_iff size (k.arrive (peer i))
  rw [drainStep]
  dsimp only
  split_ifs with h
  · simpa using positive.mp h
  · simpa using fun hne => h (positive.mpr hne)

theorem drainStep_of_ne (h : (k.arrive (peer i)).poll.received ≠ []) :
    drainStep peer (i, k) = some (i + 1, ((k.arrive (peer i)).recv drainSize).2) := by
  rw [drainStep, SSL_read_socket]
  exact if_pos ((SSL_read_pos_iff (by decide) _).mpr h)

end Step

/-! ## The loop as a queue -/

section Backlog

variable (peer : ℕ → Arrival) (k : Socket)

/-- How many bytes reach the socket just before a call. -/
def reaching (i : ℕ) : ℕ :=
  (((k.schedule.drop i).take 1).flatMap Arrival.bytes).length + (peer i).bytes.length

/-- How many bytes a call finds, when every call before it took what it could. -/
def backlog : ℕ → ℕ
  | 0 => k.received.length + reaching peer k 0
  | i + 1 => backlog i - drainSize + reaching peer k (i + 1)

/-- The socket after so many calls. -/
def drained : ℕ → Socket
  | 0 => k
  | i + 1 => (((drained i).arrive (peer i)).recv drainSize).2

theorem drained_schedule (i : ℕ) : (drained peer k i).schedule = k.schedule.drop i := by
  induction i with
  | zero => rfl
  | succ i ih =>
    rw [drained, Socket.recv_schedule, Socket.arrive, ih, List.tail_drop]

theorem recv_received (len : ℕ) (k : Socket) :
    (k.recv len).2.received = k.poll.received.drop len := by
  by_cases h : k.poll.received = []
  · obtain ⟨-, error, after⟩ := Socket.recv_of_nil len h
    rw [after, h, List.drop_nil]
  · rw [Socket.recv_of_ne h]

theorem length_arrived (i : ℕ) :
    ((drained peer k i).arrive (peer i)).poll.received.length =
      (drained peer k i).received.length + reaching peer k i := by
  rw [Socket.poll_received, Socket.arriving, Socket.arrive, List.length_append,
    List.length_append, drained_schedule, reaching]
  omega

/-- The calls find what the queue holds. -/
theorem length_drained (i : ℕ) :
    ((drained peer k i).arrive (peer i)).poll.received.length = backlog peer k i := by
  induction i with
  | zero => exact length_arrived peer k 0
  | succ i ih =>
    rw [length_arrived, drained, recv_received, List.length_drop, ih, backlog]

/-- The states of the loop, for as long as it goes on. -/
theorem drained_trajectory (i : ℕ) :
    drainStep peer (i, drained peer k i) = none ∨
      drainStep peer (i, drained peer k i) = some (i + 1, drained peer k (i + 1)) := by
  by_cases empty : ((drained peer k i).arrive (peer i)).poll.received = []
  · exact Or.inl (drainStep_eq_none_iff.mpr empty)
  · exact Or.inr (drainStep_of_ne empty)

theorem drainStep_drained (i : ℕ) :
    drainStep peer (i, drained peer k i) = none ↔ backlog peer k i = 0 := by
  rw [drainStep_eq_none_iff, ← length_drained, List.length_eq_zero_iff]

theorem endsAfter_iff (n : ℕ) :
    Loop.EndsAfter (drainStep peer) (0, k) n ↔
      backlog peer k n = 0 ∧ ∀ i < n, backlog peer k i ≠ 0 := by
  have along := Loop.EndsAfter.iff_trajectory (n := n) (x := fun i => (i, drained peer k i))
    (drained_trajectory peer k)
  simpa only [ne_eq, drainStep_drained, drained] using along

theorem exists_endsAfter_iff :
    (∃ n, Loop.EndsAfter (drainStep peer) (0, k) n) ↔ ∃ i, backlog peer k i = 0 := by
  have along := Loop.EndsAfter.exists_iff_trajectory (x := fun i => (i, drained peer k i))
    (drained_trajectory peer k)
  simpa only [drainStep_drained, drained] using along

end Backlog

/-! ## `close` -/

section Close

variable {c : Closing} {k : Socket} {reads : ℕ}

/-- There is nothing to drain, or the peer falls behind. -/
def Pauses (c : Closing) (k : Socket) : Prop :=
  c.initFinished = true → c.shutdown = 0 → ∃ i, backlog c.peer k i = 0

theorem close_of_not_drained (h : ¬ (c.initFinished = true ∧ c.shutdown = 0)) (fuel : ℕ)
    (k : Socket) : close fuel c k = some 0 := by
  rw [close]
  split_ifs with unfinished answered
  · rfl
  · exact absurd ⟨Bool.not_eq_false _ ▸ unfinished, answered⟩ h
  · rfl

theorem close_mono {fuel fuel' : ℕ} (le : fuel ≤ fuel') (h : close fuel c k = some reads) :
    close fuel' c k = some reads := by
  rw [close] at h ⊢
  split_ifs at h ⊢ with unfinished answered
  · exact h
  · obtain ⟨n, hn, rfl⟩ := Option.map_eq_some_iff.mp h
    obtain ⟨ends, enough⟩ := Loop.run_eq_some_iff.mp hn
    exact Option.map_eq_some_iff.mpr
      ⟨n, Loop.run_eq_some_iff.mpr ⟨ends, enough.trans_le le⟩, rfl⟩
  · exact h

theorem returnsAfter_of_drained (finished : c.initFinished = true) (answered : c.shutdown = 0) :
    ReturnsAfter c k reads ↔ ∃ n, reads = n + 1 ∧ Loop.EndsAfter (drainStep c.peer) (0, k) n := by
  have loop (fuel : ℕ) :
      close fuel c k = (Loop.run (drainStep c.peer) fuel (0, k)).map (· + 1) := by
    rw [close, if_neg (by simp [finished]), if_pos answered]
  constructor
  · rintro ⟨fuel, h⟩
    rw [loop] at h
    obtain ⟨n, hn, rfl⟩ := Option.map_eq_some_iff.mp h
    exact ⟨n, rfl, Loop.exists_run_iff.mp ⟨fuel, hn⟩⟩
  · rintro ⟨n, rfl, h⟩
    obtain ⟨fuel, hn⟩ := Loop.exists_run_iff.mpr h
    exact ⟨fuel, by rw [loop, hn]; rfl⟩

theorem exists_returnsAfter_iff : (∃ reads, ReturnsAfter c k reads) ↔ Pauses c k := by
  by_cases h : c.initFinished = true ∧ c.shutdown = 0
  · simp only [returnsAfter_of_drained h.1 h.2, Pauses, h.1, h.2, forall_const,
      ← exists_endsAfter_iff]
    constructor
    · rintro ⟨_, n, -, hn⟩
      exact ⟨n, hn⟩
    · rintro ⟨n, hn⟩
      exact ⟨n + 1, n, rfl, hn⟩
  · constructor
    · intro _ finished answered
      exact absurd ⟨finished, answered⟩ h
    · intro _
      exact ⟨0, 0, close_of_not_drained h 0 k⟩

/-- With a silent peer an iteration takes bytes that were there before. -/
theorem drainStep_incoming {peer : ℕ → Arrival} (silent : ∀ i, peer i = {}) {s t : ℕ × Socket}
    (goes : drainStep peer s = some t) : t.2.incoming.length < s.2.incoming.length := by
  obtain ⟨i, k⟩ := s
  have arrived : k.arrive (peer i) = k := by
    rw [silent, Socket.arrive]
    simp
  by_cases empty : k.poll.received = []
  · have ended : drainStep peer (i, k) = none := drainStep_eq_none_iff.mpr (by rw [arrived, empty])
    rw [ended] at goes
    cases goes
  · have iterated : drainStep peer (i, k) = some (i + 1, (k.recv drainSize).2) := by
      rw [← arrived] at empty
      rw [drainStep_of_ne empty, arrived]
    rw [iterated] at goes
    cases goes
    exact Socket.recv_length_lt drainSize (by decide) empty

/-- A peer that has sent everything it will ever send makes the loop end. -/
theorem exists_returnsAfter_of_silent (silent : ∀ i, c.peer i = {}) :
    ∃ reads ≤ k.incoming.length + 1, ReturnsAfter c k reads := by
  by_cases h : c.initFinished = true ∧ c.shutdown = 0
  · obtain ⟨n, hn, ends⟩ := Loop.EndsAfter.of_variant (fun s : ℕ × Socket => s.2.incoming.length)
      (fun _ _ => drainStep_incoming silent) (0, k)
    exact ⟨n + 1, Nat.succ_le_succ hn, (returnsAfter_of_drained h.1 h.2).mpr ⟨n, rfl, ends⟩⟩
  · exact ⟨0, Nat.zero_le _, 0, close_of_not_drained h 0 k⟩

/-- A peer that sends a byte in front of every call. -/
def trickle (_ : ℕ) : Arrival := { bytes := [0] }

theorem backlog_trickle (k : Socket) (i : ℕ) : backlog trickle k i ≠ 0 := by
  have one : 0 < reaching trickle k i := Nat.lt_of_lt_of_le Nat.one_pos (Nat.le_add_left 1 _)
  cases i with
  | zero =>
    rw [backlog]
    omega
  | succ i =>
    rw [backlog]
    omega

/-- No number of calls bounds the loop for all peers, wherever it runs at all. -/
theorem reads_bounded_iff (initFinished : Bool) (shutdown : ℤ) (k : Socket) :
    (∃ bound, ∀ peer, ∃ reads ≤ bound, ReturnsAfter ⟨initFinished, shutdown, peer⟩ k reads) ↔
      ¬ (initFinished = true ∧ shutdown = 0) := by
  constructor
  · rintro ⟨bound, bounded⟩ drains
    obtain ⟨reads, -, returns⟩ := bounded trickle
    obtain ⟨i, empty⟩ := exists_returnsAfter_iff.mp ⟨reads, returns⟩ drains.1 drains.2
    exact backlog_trickle k i empty
  · intro h
    exact ⟨0, fun peer => ⟨0, le_rfl, 0, close_of_not_drained h 0 k⟩⟩

end Close

end SSLStream

open SSLStream (Closing Pauses ReturnsAfter)

/-! ## The event loop -/

namespace World

variable {fuel fuel' : ℕ} {tls : ClientId → Closing} {client : ClientId} {w w' : World}

/-- Closing the client does not depend on a peer that never falls behind. -/
def ClosePauses (tls : ClientId → Closing) (client : ClientId) (w : World) : Prop :=
  (w.stream client).transport = .ssl → Pauses (tls client) (w.stream client).socket

theorem eq_close_of_closeWithin (h : closeWithin fuel tls client w = some w') :
    w' = w.close client := by
  rw [closeWithin] at h
  cases transport : (w.stream client).transport with
  | plain =>
    rw [transport] at h
    exact (Option.some.inj h).symm
  | ssl =>
    rw [transport] at h
    obtain ⟨reads, -, rfl⟩ := Option.map_eq_some_iff.mp h
    rfl

theorem closeWithin_mono (le : fuel ≤ fuel') (h : closeWithin fuel tls client w = some w') :
    closeWithin fuel' tls client w = some w' := by
  rw [closeWithin] at h ⊢
  cases transport : (w.stream client).transport with
  | plain =>
    rw [transport] at h
    exact h
  | ssl =>
    rw [transport] at h
    obtain ⟨reads, hreads, rfl⟩ := Option.map_eq_some_iff.mp h
    exact Option.map_eq_some_iff.mpr ⟨reads, SSLStream.close_mono le hreads, rfl⟩

theorem exists_closeWithin_iff :
    (∃ fuel, closeWithin fuel tls client w = some (w.close client)) ↔ w.ClosePauses tls client := by
  simp only [closeWithin, ClosePauses]
  cases transport : (w.stream client).transport with
  | plain => simp
  | ssl =>
    simp only [Option.map_eq_some_iff, and_true, forall_const, ← SSLStream.exists_returnsAfter_iff]
    exact exists_comm

end World

namespace NonblockingClientManagerTask

open World

variable {tls : ClientId → Closing} {w w' : World} {fuel fuel' : ℕ}

/-- The world in which the connection at the front of the channel is handled. -/
def dequeued (w : World) (queue : List ReturnedConnection) : World :=
  { w with returnChannel := { w.returnChannel with queue := queue } }

theorem drainReturnChannelWithin_of_nil (h : w.returnChannel.queue = []) :
    drainReturnChannelWithin tls (fuel + 1) w = some (drainReturnChannel w) := by
  rw [drainReturnChannelWithin, h]

theorem drainReturnChannelWithin_of_kept {client : ClientId} {queue : List ReturnedConnection}
    (h : w.returnChannel.queue = ⟨client, true⟩ :: queue) :
    drainReturnChannelWithin tls (fuel + 1) w =
      drainReturnChannelWithin tls fuel (drainReturnChannel w) := by
  rw [drainReturnChannelWithin, h]

theorem drainReturnChannelWithin_of_closed {client : ClientId} {queue : List ReturnedConnection}
    (h : w.returnChannel.queue = ⟨client, false⟩ :: queue) :
    drainReturnChannelWithin tls (fuel + 1) w =
      (closeWithin fuel tls client (dequeued w queue)).bind
        (drainReturnChannelWithin tls fuel) := by
  rw [drainReturnChannelWithin, h]
  rfl

theorem drainReturnChannelWithin_mono (le : fuel ≤ fuel')
    (h : drainReturnChannelWithin tls fuel w = some w') :
    drainReturnChannelWithin tls fuel' w = some w' := by
  induction fuel generalizing fuel' w with
  | zero => cases h
  | succ fuel ih =>
    obtain ⟨fuel', rfl⟩ := Nat.exists_eq_succ_of_ne_zero (Nat.ne_of_gt (Nat.zero_lt_of_lt le))
    have le' := Nat.le_of_succ_le_succ le
    cases hq : w.returnChannel.queue with
    | nil =>
      rw [drainReturnChannelWithin_of_nil hq] at h ⊢
      exact h
    | cons rc queue =>
      obtain ⟨client, _ | _⟩ := rc
      · rw [drainReturnChannelWithin_of_closed hq] at h ⊢
        obtain ⟨closed, hclosed, rest⟩ := Option.bind_eq_some_iff.mp h
        rw [closeWithin_mono le' hclosed]
        exact ih le' rest
      · rw [drainReturnChannelWithin_of_kept hq] at h ⊢
        exact ih le' h

/-- What one iteration leaves to the next. -/
theorem drainReturnChannel_rest {rc : ReturnedConnection} {queue : List ReturnedConnection}
    (h : w.returnChannel.queue = rc :: queue) :
    (drainReturnChannel w).returnChannel.queue = queue ∧
      (drainReturnChannel w).stream = w.stream := by
  obtain ⟨interest, connections, closed, fdOpen, after⟩ := drainReturnChannel_frame w
  rw [after, FdChannel.tryDequeue_of_cons h]
  exact ⟨rfl, rfl⟩

/-- The loop gets to its end exactly when every stream that it closes lets it. -/
theorem exists_drainReturnChannelWithin_iff (tls : ClientId → Closing) (w : World) :
    (∃ fuel w', drainReturnChannelWithin tls fuel w = some w') ↔
      ∀ rc ∈ w.returnChannel.queue, rc.keepAlive = false → w.ClosePauses tls rc.client := by
  induction hq : w.returnChannel.queue generalizing w with
  | nil =>
    simp only [List.not_mem_nil, false_implies, implies_true, iff_true]
    exact ⟨1, _, drainReturnChannelWithin_of_nil hq⟩
  | cons rc queue ih =>
    obtain ⟨hqueue, hstream⟩ := drainReturnChannel_rest hq
    have rest := ih (drainReturnChannel w) hqueue
    simp only [ClosePauses, hstream] at rest
    obtain ⟨client, _ | _⟩ := rc
    · have closed : drainReturnChannel w = (dequeued w queue).close client :=
        drainReturnChannel_of_closed hq
      have front : (∃ fuel, closeWithin fuel tls client (dequeued w queue) =
          some ((dequeued w queue).close client)) ↔ w.ClosePauses tls client :=
        exists_closeWithin_iff
      simp only [List.forall_mem_cons, forall_const]
      constructor
      · rintro ⟨fuel, w', h⟩
        cases fuel with
        | zero => cases h
        | succ fuel =>
          rw [drainReturnChannelWithin_of_closed hq] at h
          obtain ⟨world, hworld, later⟩ := Option.bind_eq_some_iff.mp h
          obtain rfl := eq_close_of_closeWithin hworld
          refine ⟨front.mp ⟨fuel, hworld⟩, rest.mp ⟨fuel, w', ?_⟩⟩
          rw [closed]
          exact later
      · rintro ⟨here, later⟩
        obtain ⟨m, hm⟩ := front.mpr here
        obtain ⟨n, w', hn⟩ := rest.mpr later
        refine ⟨max m n + 1, w', ?_⟩
        rw [drainReturnChannelWithin_of_closed hq, closeWithin_mono (Nat.le_max_left m n) hm,
          Option.bind_some, ← closed]
        exact drainReturnChannelWithin_mono (Nat.le_max_right m n) hn
    · simp only [List.forall_mem_cons, Bool.true_eq_false, false_implies, true_and]
      refine Iff.trans ?_ rest
      constructor
      · rintro ⟨fuel, w', h⟩
        cases fuel with
        | zero => cases h
        | succ fuel =>
          rw [drainReturnChannelWithin_of_kept hq] at h
          exact ⟨fuel, w', h⟩
      · rintro ⟨fuel, w', h⟩
        exact ⟨fuel + 1, w', by rw [drainReturnChannelWithin_of_kept hq]; exact h⟩

/-- What the loop does when it gets to its end. -/
theorem drainReturnChannelWithin_eq (h : drainReturnChannelWithin tls fuel w = some w') :
    w' = drainReturnChannel^[w.returnChannel.queue.length + 1] w := by
  induction fuel generalizing w with
  | zero => cases h
  | succ fuel ih =>
    cases hq : w.returnChannel.queue with
    | nil =>
      rw [drainReturnChannelWithin_of_nil hq] at h
      exact (Option.some.inj h).symm
    | cons rc queue =>
      have left := (drainReturnChannel_rest hq).1
      rw [List.length_cons, Function.iterate_succ_apply, ← left]
      obtain ⟨client, _ | _⟩ := rc
      · rw [drainReturnChannelWithin_of_closed hq] at h
        obtain ⟨world, hworld, rest⟩ := Option.bind_eq_some_iff.mp h
        obtain rfl := eq_close_of_closeWithin hworld
        rw [drainReturnChannel_of_closed hq]
        exact ih rest
      · rw [drainReturnChannelWithin_of_kept hq] at h
        exact ih h

theorem handleClientEventWithin_of_hangup {P : Platform} {fd : ℕ} {client : ClientId}
    (tracked : w.connections.lookup fd = some client) :
    handleClientEventWithin P tls fuel fd true w =
      (closeWithin fuel tls client w).map fun _ => handleClientEvent P fd true w := by
  rw [handleClientEventWithin, handleClientEvent, tracked]
  dsimp only
  rw [if_pos rfl, if_pos rfl]
  cases hclosed : closeWithin fuel tls client w with
  | none => rfl
  | some world =>
    obtain rfl := eq_close_of_closeWithin hclosed
    rfl

theorem handleClientEventWithin_of_not {P : Platform} {fd : ℕ} {hangup : Bool}
    (h : w.connections.lookup fd = none ∨ hangup = false) :
    handleClientEventWithin P tls fuel fd hangup w = some (handleClientEvent P fd hangup w) := by
  rw [handleClientEventWithin]
  cases h with
  | inl untracked => rw [untracked]
  | inr calm =>
    subst calm
    cases w.connections.lookup fd with
    | none => rfl
    | some client => rfl

/-- Without a hangup of a connection that it tracks, `handleClientEvent` closes nothing. -/
theorem exists_handleClientEventWithin_iff (P : Platform) (tls : ClientId → Closing) (fd : ℕ)
    (hangup : Bool) (w : World) :
    (∃ fuel, handleClientEventWithin P tls fuel fd hangup w =
        some (handleClientEvent P fd hangup w)) ↔
      ∀ client, w.connections.lookup fd = some client → hangup = true →
        w.ClosePauses tls client := by
  cases tracked : w.connections.lookup fd with
  | none =>
    simp only [handleClientEventWithin_of_not (Or.inl tracked), exists_const, reduceCtorEq,
      false_implies, implies_true]
  | some client =>
    cases hangup with
    | false =>
      simp only [handleClientEventWithin_of_not (Or.inr rfl), exists_const, Bool.false_eq_true,
        false_implies, implies_true]
    | true =>
      simp only [handleClientEventWithin_of_hangup tracked, Option.some.injEq, forall_eq',
        forall_const, ← exists_closeWithin_iff]
      apply exists_congr
      intro fuel
      constructor
      · intro h
        obtain ⟨world, hworld, -⟩ := Option.map_eq_some_iff.mp h
        rw [hworld, eq_close_of_closeWithin hworld]
      · intro h
        rw [h]
        rfl

end NonblockingClientManagerTask

open NonblockingClientManagerTask

/-- A number of calls bounds `close` for all peers exactly where it makes no call. For one peer
they are counted by the first call that finds nothing, and the event loop gets back from
`drainReturnChannel` and `handleClientEvent` exactly when there is such a call for every stream
they close. -/
theorem eventLoop_returns_iff (P : Platform) (tls : ClientId → Closing) (fd : ℕ) (hangup : Bool)
    (w : World) (c : Closing) (k : Socket) :
    ((∃ bound, ∀ peer, ∃ reads ≤ bound, ReturnsAfter { c with peer := peer } k reads) ↔
      ¬ (c.initFinished = true ∧ c.shutdown = 0)) ∧
    (c.initFinished = true → c.shutdown = 0 → ∀ n, ReturnsAfter c k (n + 1) ↔
      SSLStream.backlog c.peer k n = 0 ∧ ∀ i < n, SSLStream.backlog c.peer k i ≠ 0) ∧
    ((∃ fuel w', drainReturnChannelWithin tls fuel w = some w') ↔
      ∀ rc ∈ w.returnChannel.queue, rc.keepAlive = false → w.ClosePauses tls rc.client) ∧
    ((∃ fuel, handleClientEventWithin P tls fuel fd hangup w =
        some (handleClientEvent P fd hangup w)) ↔
      ∀ client, w.connections.lookup fd = some client → hangup = true →
        w.ClosePauses tls client) := by
  refine ⟨SSLStream.reads_bounded_iff c.initFinished c.shutdown k, fun finished answered n => ?_,
    exists_drainReturnChannelWithin_iff tls w,
    exists_handleClientEventWithin_iff P tls fd hangup w⟩
  rw [SSLStream.returnsAfter_of_drained finished answered, ← SSLStream.endsAfter_iff]
  constructor
  · rintro ⟨m, same, ends⟩
    obtain rfl := Nat.succ.inj same
    exact ends
  · intro ends
    exact ⟨n, rfl, ends⟩

/-- A TLS client whose response closes the connection. -/
def closingWorld : World where
  accepted := 1
  stream := fun _ => { transport := .ssl }
  returnChannel := { queue := [⟨0, false⟩] }

/-- Against a peer that keeps sending, `close` never returns, and the event loop with it. -/
theorem drainReturnChannel_stuck :
    (∀ reads, ¬ ReturnsAfter ⟨true, 0, SSLStream.trickle⟩ {} reads) ∧
      ¬ ∃ fuel w',
        drainReturnChannelWithin (fun _ => ⟨true, 0, SSLStream.trickle⟩) fuel closingWorld =
          some w' := by
  have never : ¬ Pauses ⟨true, 0, SSLStream.trickle⟩ {} := by
    intro pauses
    obtain ⟨i, empty⟩ := pauses rfl rfl
    exact SSLStream.backlog_trickle {} i empty
  constructor
  · intro reads returns
    exact never (SSLStream.exists_returnsAfter_iff.mp ⟨reads, returns⟩)
  · intro back
    have all := (exists_drainReturnChannelWithin_iff _ _).mp back
    exact never (all ⟨0, false⟩ (List.mem_singleton_self _) rfl rfl)

end Lightning
