import Lightning.Proof.Pipelining
import Lightning.Proof.Registration
import Lightning.Proof.HeadExtraction
import Lightning.Proof.Reply

/-!
# The server stops only when there is nothing to do

The steps that the server takes by itself (`Action.internal`) are all that it needs: while its pipes
are open and no handler ends the process, a state from which no such step is possible is `Settled`
(`stuck_iff_settled`). Every client that was accepted is then closed, or is tracked with a socket
that has nothing to report. A head that a `peek` has left in a `leftoverBuffer` is not reported by
anybody, and neither is what OpenSSL holds of a TLS client; of a plain client everything that has
arrived was read.
-/

namespace Lightning

/-- The peer has hung up, or its socket has failed. -/
def Event.isHangup : Event → Bool
  | .client _ hangup => hangup
  | _ => false

/-- The steps that need nothing from a client or from the kernel but what is there already. -/
def Action.internal : Action → Bool
  | .notifyNew | .handle | .drain | .take _ | .call _ | .notifyReturn _ => true
  | .epollWait events => !events.isEmpty && events.all fun event => !event.isHangup
  | .accept _ _ | .shutdown | .arrive _ _ | .foresee _ _ | .ciphertext _ | .outcome _ _ => false

/-- `epoll_wait` has nothing to report of this socket. -/
structure Socket.Silent (k : Socket) : Prop where
  received : k.received = []
  fin : k.fin = false
  error : k.error = none

namespace World

open Search NonblockingClientManagerTask Transition

variable {ρ : Type} [RegexEngine ρ] {P : Platform} {server : HttpServer ρ} {capacity : ℕ}
  {w w' : World} {a : Action} {c : ClientId} {fd : ℕ}

/-- Nobody is on the way, and no thread has anything to do. -/
structure Idle (w : World) : Prop where
  newQueue : w.newFdChannel.queue = []
  newPipe : w.newFdChannel.pipe = 0
  newWriting : w.newFdChannel.writing () = false
  returnQueue : w.returnChannel.queue = []
  returnPipe : w.returnChannel.pipe = 0
  returnWriting : ∀ i, w.returnChannel.writing i = false
  idle : w.loopIdle = true
  batch : w.batch = []
  tasks : w.tasks = []
  running : ∀ i, w.running.lookup i = none

/-- There is nothing to report of the clients that the manager has; what a `leftoverBuffer` holds is
not reported. -/
structure Settled (w : World) : Prop extends Idle w where
  unreported : ∀ fd c, w.connections.lookup fd = some c → w.reports c = false

/-- The sockets of the clients that the manager has are silent, those of TLS clients too. What a
`leftoverBuffer` holds does not count. -/
structure Quiescent (w : World) : Prop extends Idle w where
  silent : ∀ fd c, w.connections.lookup fd = some c → (w.stream c).socket.Silent

theorem silent_of_unreported (plain : (w.stream c).transport = .plain)
    (unreported : w.reports c = false) : (w.stream c).socket.Silent := by
  simp only [reports, plain, Bool.or_eq_false_iff, decide_eq_false_iff_not, not_not,
    Option.isSome_eq_false_iff, Option.isNone_iff_eq_none] at unreported
  exact ⟨unreported.1.1, unreported.1.2, unreported.2⟩

theorem nothingUnread_of_unreported (unreported : w.reports c = false) : w.NothingUnread c := by
  cases transport : (w.stream c).transport with
  | plain =>
    rw [NothingUnread, transport]
    exact (silent_of_unreported transport unreported).received
  | ssl =>
    rw [reports, transport] at unreported
    rw [NothingUnread, transport]
    exact unreported

/-- Where all clients are plain, nothing is left in their sockets. -/
theorem Settled.quiescent (settled : Settled w)
    (plain : ∀ fd c, w.connections.lookup fd = some c → (w.stream c).transport = .plain) :
    Quiescent w where
  toIdle := settled.toIdle
  silent fd c tracked := silent_of_unreported (plain fd c tracked) (settled.unreported fd c tracked)

/-- No step is possible that the server takes by itself. -/
def Stuck (P : Platform) (server : HttpServer ρ) (capacity : ℕ) (w : World) : Prop :=
  ∀ a : Action, a.internal = true → w.next P server capacity a = none

/-- No handler that a worker has begun lets an exception escape. -/
def HandlersReturn (P : Platform) (server : HttpServer ρ) (w : World) : Prop :=
  ∀ i task, w.running.lookup i = some task →
    (ClientRequestHandler.call P server task.client task.requestBuffer
      (w.stream task.client)).result = .ok ()

/-- The steps of the workers. -/
def ofWorker : Action → Bool
  | .take _ | .call _ | .notifyReturn _ => true
  | _ => false

/-- The head that a `peek` has shown is read without an exception. -/
theorem handleClientEvent_ok (P : Platform) (fd : ℕ) (hangup : Bool) (w : World) :
    ∃ w', handleClientEvent P fd hangup w = .ok w' := by
  unfold handleClientEvent
  cases w.connections.lookup fd with
  | none => exact ⟨w, rfl⟩
  | some client =>
    dsimp only
    split_ifs
    · exact ⟨_, rfl⟩
    · rw [peeked_view, ← peeked]
      cases found : findFirst DOUBLE_CRLF (peeked P client w).leftoverBuffer with
      | none => exact ⟨_, rfl⟩
      | some pos =>
        have complete : pos + 4 ≤ (peeked P client w).leftoverBuffer.length :=
          length_le_of_findFirst found
        dsimp only
        rw [IStream.read_of_le_leftover complete]
        exact ⟨_, rfl⟩

/-- As long as the acceptor has not closed its pipe the manager has not returned. -/
theorem running_of_open (pos : 0 < capacity) (h : Reachable Initial (Step P server capacity) w)
    (isOpen : w.newFdChannel.writeOpen = true) : w.newFdChannel.reader ≠ .returned := by
  intro returned
  have closed := ((FdChannel.inv_reachable pos (newFdChannel_reachable h)).returned returned).1
  rw [isOpen] at closed
  cases closed

theorem returnChannel_not_returned (pos : 0 < capacity)
    (h : Reachable Initial (Step P server capacity) w) :
    w.returnChannel.reader ≠ .returned := by
  intro returned
  have closed := ((FdChannel.inv_reachable pos (returnChannel_reachable h)).returned returned).1
  rw [(workersInv_reachable h).isOpen] at closed
  cases closed

/-- One event that is ready is a step. -/
theorem not_stuck_of_ready (stuck : Stuck P server capacity w)
    (running : w.newFdChannel.reader ≠ .returned) (idle : w.loopIdle = true) (empty : w.batch = [])
    {event : Event} (noHangup : event.isHangup = false) : ¬ w.ready event = true := by
  intro ready
  have nothing := stuck (.epollWait [event]) (by simp [Action.internal, noHangup])
  rw [next, if_neg running] at nothing
  rw [if_pos (by simp [idle, empty, ready])] at nothing
  cases nothing

theorem loopIdle_of_stuck (pos : 0 < capacity) (h : Reachable Initial (Step P server capacity) w)
    (running : w.newFdChannel.reader ≠ .returned) (stuck : Stuck P server capacity w) :
    w.loopIdle = true := by
  have nothing := stuck .drain rfl
  rw [next, if_neg running] at nothing
  split_ifs at nothing with draining draining'
  have newIdle : w.newFdChannel.reader = .idle := by
    cases state : w.newFdChannel.reader with
    | idle => rfl
    | draining => exact absurd state draining
    | returned => exact absurd state running
  have returnIdle : w.returnChannel.reader = .idle := by
    cases state : w.returnChannel.reader with
    | idle => rfl
    | draining => exact absurd state draining'
    | returned => exact absurd state (returnChannel_not_returned pos h)
  simp [loopIdle, newIdle, returnIdle]

theorem batch_of_stuck (running : w.newFdChannel.reader ≠ .returned) (idle : w.loopIdle = true)
    (stuck : Stuck P server capacity w) : w.batch = [] := by
  have nothing := stuck .handle rfl
  rw [next, if_neg running] at nothing
  rw [if_pos idle] at nothing
  cases first : w.batch with
  | nil => rfl
  | cons event batch =>
    rw [first] at nothing
    cases event with
    | newPipe => cases nothing
    | returnPipe => cases nothing
    | client fd hangup =>
      obtain ⟨after, handled⟩ := handleClientEvent_ok P fd hangup (w.turnTo fd batch)
      dsimp only at nothing
      rw [handled] at nothing
      cases nothing

/-- An idle channel whose pipe is empty and on which nobody writes has an empty queue. -/
theorem queue_eq_nil {α ι : Type} {ch : FdChannel α ι} (inv : ch.Inv) (idle : ch.reader = .idle)
    (pipe : ch.pipe = 0) (writing : ∀ i, ch.writing i = false) : ch.queue = [] := by
  by_contra nonempty
  obtain pending | ⟨i, writes⟩ | draining := inv.announced nonempty
  · exact absurd pipe (Nat.ne_of_gt pending)
  · rw [writing i] at writes
    cases writes
  · rw [idle] at draining
    cases draining

theorem pipe_of_not_readable {α ι : Type} {ch : FdChannel α ι} (h : ¬ ch.readable = true) :
    ch.pipe = 0 := by
  unfold FdChannel.readable at h
  simp only [gt_iff_lt, Bool.or_eq_true, decide_eq_true_eq, not_or] at h
  exact Nat.eq_zero_of_not_pos h.1

/-- A tracked client without an event has nothing to report. -/
theorem unreported_of_not_ready (own : OwnershipInv w) (reg : RegistrationInv w)
    (empty : w.batch = []) (tracked : w.connections.lookup fd = some c)
    (notReady : ¬ w.ready (.client fd false) = true) : w.reports c = false := by
  have member : fd ∈ w.connections := AList.lookup_isSome.mp (by rw [tracked]; rfl)
  have notPending : ¬ w.Pending fd := by
    rintro ⟨hangup, inBatch⟩
    rw [empty] at inBatch
    cases inBatch
  have armed := ((reg.tracked fd member).resolve_right fun pending => notPending pending.2).1
  simp only [ready, armed, owner_of_tracked own tracked, decide_true, Bool.true_and,
    Bool.or_false, Bool.not_eq_true] at notReady
  exact notReady

theorem Settled.not_ready (settled : Settled w) (isOpen : w.newFdChannel.writeOpen = true)
    (returnOpen : w.returnChannel.writeOpen = true) (own : OwnershipInv w)
    (reg : RegistrationInv w) {event : Event} (noHangup : event.isHangup = false) :
    w.ready event = false := by
  cases event with
  | newPipe => simp [ready, FdChannel.readable, settled.newPipe, isOpen]
  | returnPipe => simp [ready, FdChannel.readable, settled.returnPipe, returnOpen]
  | client fd hangup =>
    obtain rfl : hangup = false := noHangup
    by_contra reported
    have member : fd ∈ w.connections :=
      (reg.mem_iff fd).mp (Or.inl (armed_of_ready (Bool.of_not_eq_false reported)))
    obtain ⟨c, tracked⟩ := Option.isSome_iff_exists.mp (AList.lookup_isSome.mpr member)
    apply reported
    simp [ready, owner_of_tracked own tracked, settled.unreported fd c tracked]

/-! ## Workers -/

/-- Only the workers that there are have tasks or write to the pipe. -/
structure WorkerInv (server : HttpServer ρ) (w : World) : Prop where
  busy : ∀ i task, w.running.lookup i = some task → (i : ℤ) < server.threadCount
  writing : ∀ i, w.returnChannel.writing i = true → (i : ℤ) < server.threadCount

theorem worker_of_take {i : ℕ} (h : w.next P server capacity (.take i) = some w') :
    (i : ℤ) < server.threadCount := by
  unfold next at h
  by_cases returned : w.newFdChannel.reader = .returned
  · rw [if_pos returned] at h
    cases h
  · rw [if_neg returned] at h
    dsimp only at h
    split_ifs at h with ready
    exact ready.1

theorem workerInv_step (inv : WorkerInv server w) (step : w.next P server capacity a = some w') :
    WorkerInv server w' := by
  cases takes_of_next step with
  | returnPipe batch idle first =>
    refine ⟨inv.busy, fun i writes => inv.writing i ?_⟩
    rwa [(onReadable_writing false w.returnChannel).1] at writes
  | client fd hangup batch w' idle first handled =>
    have channel := (handleClientEvent_channels handled).2
    have running := handleClientEvent_running handled
    exact ⟨running ▸ inv.busy, channel ▸ inv.writing⟩
  | drainNew draining =>
    exact ⟨drainNewFdChannel_running w ▸ inv.busy,
      (drainNewFdChannel_channels w).2 ▸ inv.writing⟩
  | drainReturn draining =>
    refine ⟨drainReturnChannel_running w ▸ inv.busy, fun i writes => inv.writing i ?_⟩
    rwa [(drainReturnChannel_channels w).2, (tryDequeue_writing w.returnChannel).1] at writes
  | take i task tasks free idle first =>
    refine ⟨fun j task' running => ?_, inv.writing⟩
    by_cases same : j = i
    · rw [same]
      exact worker_of_take step
    · exact inv.busy j task' (by rwa [AList.lookup_insert_ne same] at running)
  | call i task keepAlive busy enqueued =>
    constructor
    · intro j task' running
      have other : j ≠ i := by
        rintro rfl
        rw [AList.lookup_erase] at running
        cases running
      exact inv.busy j task' (by rwa [AList.lookup_erase_ne other] at running)
    · intro j writes
      by_cases same : j = i
      · rw [same]
        exact inv.busy i task busy
      · apply inv.writing j
        simp only [FdChannel.enqueue] at writes
        rwa [Function.update_of_ne same] at writes
  | notifyReturn i pending =>
    refine ⟨inv.busy, fun j writes => inv.writing j ?_⟩
    simp only [FdChannel.writeByte] at writes
    rw [Function.update_apply] at writes
    split_ifs at writes
    exact writes
  | accept | notifyNew | shutdown | arrive | foresee | ciphertext | outcome | epollWait | newPipe =>
    exact ⟨inv.busy, inv.writing⟩

theorem workerInv_reachable (h : Reachable Initial (Step P server capacity) w) :
    WorkerInv server w := by
  apply h.invariant
  · rintro w rfl
    exact ⟨nofun, nofun⟩
  · intro w a w' inv step
    exact workerInv_step inv step

/-! ## Stuck states -/

/-- Workers that cannot take a step have no tasks and nothing to write. -/
theorem workersIdle_of_stuck (workers : 0 < server.threadCount)
    (running : w.newFdChannel.reader ≠ .returned) (returns : HandlersReturn P server w)
    (stuck : ∀ a, ofWorker a = true → w.next P server capacity a = none) :
    w.tasks = [] ∧ (∀ i, w.running.lookup i = none) ∧ ∀ i, w.returnChannel.writing i = false := by
  have returnWriting (i : ℕ) : w.returnChannel.writing i = false := by
    have nothing := stuck (.notifyReturn i) rfl
    simpa [next, running] using nothing
  have noHandler (i : ℕ) : w.running.lookup i = none := by
    cases busy : w.running.lookup i with
    | none => rfl
    | some task =>
      have nothing := stuck (.call i) rfl
      simp only [next, if_neg running, busy, returns i task busy] at nothing
      cases nothing
  refine ⟨?_, noHandler, returnWriting⟩
  have nothing := stuck (.take 0) rfl
  cases first : w.tasks with
  | nil => rfl
  | cons task tasks =>
    rw [next, if_neg running] at nothing
    rw [if_pos ⟨workers, noHandler 0, returnWriting 0⟩, first] at nothing
    cases nothing

/-- With a worker, the acceptor there and handlers that return, nothing is left undone where no step
is left. -/
theorem settled_of_stuck (pos : 0 < capacity) (workers : 0 < server.threadCount)
    (h : Reachable Initial (Step P server capacity) w) (isOpen : w.newFdChannel.writeOpen = true)
    (returns : HandlersReturn P server w) (stuck : Stuck P server capacity w) : Settled w := by
  have running := running_of_open pos h isOpen
  have idle := loopIdle_of_stuck pos h running stuck
  have empty := batch_of_stuck running idle stuck
  have notReady (event : Event) (noHangup : event.isHangup = false) :
      ¬ w.ready event = true :=
    not_stuck_of_ready stuck running idle empty noHangup
  have newWriting : w.newFdChannel.writing () = false := by
    have nothing := stuck .notifyNew rfl
    simpa [next, running] using nothing
  obtain ⟨noTask, noHandler, returnWriting⟩ := workersIdle_of_stuck workers running returns
    fun a byWorker => stuck a (by cases a <;> simp [ofWorker, Action.internal] at byWorker ⊢)
  have newPipe := pipe_of_not_readable (notReady .newPipe rfl)
  have returnPipe := pipe_of_not_readable (notReady .returnPipe rfl)
  have readers := idle
  simp only [loopIdle, Bool.and_eq_true, decide_eq_true_eq] at readers
  exact {
    newQueue := queue_eq_nil (FdChannel.inv_reachable pos (newFdChannel_reachable h)) readers.1
      newPipe fun _ => newWriting
    newPipe := newPipe
    newWriting := newWriting
    returnQueue := queue_eq_nil (FdChannel.inv_reachable pos (returnChannel_reachable h))
      readers.2 returnPipe returnWriting
    returnPipe := returnPipe
    returnWriting := returnWriting
    idle := idle
    batch := empty
    tasks := noTask
    running := noHandler
    unreported := fun fd c tracked => unreported_of_not_ready (ownershipInv_reachable h)
      (registrationInv_reachable h) empty tracked (notReady _ rfl) }

theorem stuck_of_settled (pos : 0 < capacity) (h : Reachable Initial (Step P server capacity) w)
    (isOpen : w.newFdChannel.writeOpen = true) (settled : Settled w) :
    Stuck P server capacity w := by
  intro a internal
  have readers := settled.idle
  simp only [loopIdle, Bool.and_eq_true, decide_eq_true_eq] at readers
  unfold next
  rw [if_neg (running_of_open pos h isOpen)]
  cases a with
  | notifyNew => simp [settled.newWriting]
  | handle => simp [settled.batch]
  | drain => simp [readers.1, readers.2]
  | take i => simp [settled.tasks]
  | call i => simp [settled.running i]
  | notifyReturn i => simp [settled.returnWriting i]
  | epollWait events =>
    cases events with
    | nil => cases internal
    | cons event events =>
      simp only [Action.internal, List.isEmpty_cons, Bool.not_false, Bool.true_and,
        List.all_cons, Bool.and_eq_true, Bool.not_eq_true'] at internal
      have notReady := settled.not_ready isOpen (workersInv_reachable h).isOpen
        (ownershipInv_reachable h) (registrationInv_reachable h) internal.1
      simp [notReady]
  | accept | shutdown | arrive | foresee | ciphertext | outcome => cases internal

/-- A server with a worker whose acceptor is there and whose handlers return has no step left
exactly when there is nothing to do. What has arrived of a plain client and was not read is then in
its `leftoverBuffer`, and a complete head is there only if a connection was put back with it. -/
theorem stuck_iff_settled (pos : 0 < capacity) (workers : 0 < server.threadCount)
    (h : Reachable Initial (Step P server capacity) w) (isOpen : w.newFdChannel.writeOpen = true)
    (returns : HandlersReturn P server w) :
    (Stuck P server capacity w ↔ Settled w) ∧
      (Stuck P server capacity w → ∀ fd c, w.connections.lookup fd = some c →
        ((w.stream c).transport = .plain → (w.stream c).unread = (w.stream c).leftoverBuffer) ∧
        (Reachable Initial (SafeStep P server capacity) w →
          ¬ DOUBLE_CRLF <:+: (w.stream c).leftoverBuffer)) := by
  refine ⟨⟨settled_of_stuck pos workers h isOpen returns, stuck_of_settled pos h isOpen⟩, ?_⟩
  intro stuck fd c tracked
  have settled := settled_of_stuck pos workers h isOpen returns stuck
  have unreported := settled.unreported fd c tracked
  refine ⟨fun plain => ?_, fun safe => ?_⟩
  · rw [Stream.unread, (silent_of_unreported plain unreported).received, List.append_nil]
  · exact (leftoverInv_reachable safe).tracked fd c tracked (nothingUnread_of_unreported unreported)

/-- The test of `Idle`, for as many workers as there are. -/
def isIdle (workers : ℕ) (w : World) : Bool :=
  w.newFdChannel.queue = [] && w.newFdChannel.pipe = 0 && !w.newFdChannel.writing () &&
    w.returnChannel.queue = [] && w.returnChannel.pipe = 0 &&
    (List.range workers).all (fun i => !w.returnChannel.writing i) && w.loopIdle &&
    w.batch = [] && w.tasks = [] && w.running.entries.isEmpty

omit [RegexEngine ρ] in
theorem idle_of_isIdle (inv : WorkerInv server w)
    (h : isIdle server.threadCount.toNat w = true) : Idle w := by
  simp only [isIdle, Bool.and_eq_true, decide_eq_true_eq, Bool.not_eq_true', List.all_eq_true,
    List.mem_range, List.isEmpty_iff] at h
  obtain ⟨⟨⟨⟨⟨⟨⟨⟨⟨newQueue, newPipe⟩, newWriting⟩, returnQueue⟩, returnPipe⟩, returnWriting⟩, idle⟩,
    batch⟩, tasks⟩, running⟩ := h
  exact {
    newQueue := newQueue
    newPipe := newPipe
    newWriting := newWriting
    returnQueue := returnQueue
    returnPipe := returnPipe
    returnWriting := fun i => by
      by_contra writes
      have worker := inv.writing i (Bool.of_not_eq_false writes)
      exact writes (returnWriting i (Int.lt_toNat.mpr worker))
    idle := idle
    batch := batch
    tasks := tasks
    running := fun i => by
      by_contra busy
      obtain ⟨task, isTask⟩ := Option.ne_none_iff_exists'.mp busy
      have member := AList.mem_lookup_iff.mp isTask
      rw [running] at member
      cases member }

/-- One client was served and its connection is open: there is nothing to do, and no step is
left. -/
theorem stuck_iff_settled_served :
    ∃ w, Reachable Initial (Step Platform.newestFirst HttpServer.emptyServer 65536) w ∧
      w.connections.lookup 5 = some 0 ∧ (w.stream 0).socket.sent ≠ [] ∧
      Stuck Platform.newestFirst HttpServer.emptyServer 65536 w ∧ Settled w ∧
      (w.stream 0).unread = (w.stream 0).leftoverBuffer ∧
      ¬ DOUBLE_CRLF <:+: (w.stream 0).leftoverBuffer := by
  obtain ⟨w, safe, state⟩ := @exists_reachable_of_run World Action Initial
    (nextSafe Platform.newestFirst HttpServer.emptyServer 65536) {}
    (roundTrip (chars "GET /a HTTP/1.1\r\nConnection: keep-alive\r\n\r\n"))
    (fun w => w.connections.lookup 5 = some 0 ∧ (w.stream 0).socket.sent ≠ [] ∧
      (w.stream 0).transport = .plain ∧ w.newFdChannel.writeOpen = true ∧ isIdle 1 w = true ∧
      w.connections.entries.all (fun e => !w.reports e.2) = true) rfl (by decide +kernel)
  obtain ⟨tracked, served, plain, isOpen, idle, unreported⟩ := of_decide_eq_true state
  have safe := safe.mono fun _ _ _ step => safeStep_of_nextSafe step
  have reachable := safe.mono fun _ _ _ step => step.1
  have idle := idle_of_isIdle (workerInv_reachable reachable) idle
  have settled : Settled w := by
    refine ⟨idle, fun fd c tracked => ?_⟩
    simpa using List.all_eq_true.mp unreported ⟨fd, c⟩ (AList.mem_lookup_iff.mp tracked)
  have returns : HandlersReturn Platform.newestFirst HttpServer.emptyServer w := by
    intro i task busy
    rw [idle.running i] at busy
    cases busy
  obtain ⟨same, rest⟩ :=
    stuck_iff_settled (by decide) (by decide) reachable isOpen returns
  have stuck := same.mpr settled
  obtain ⟨read, headless⟩ := rest stuck 5 0 tracked
  exact ⟨w, reachable, tracked, served, stuck, settled, read plain, headless safe⟩

end World

end Lightning
