import Lightning.ClientRequestHandler
import Lightning.FdChannels
import Lightning.Lib.Transition

/-!
# The event loop and the threads around it

The state of a running server: the kernel's descriptors and epoll interest list, the clients with
their streams, the two channels, and the four places a client can be in. The functions of
`NonblockingClientManagerTask` act on that state. `next` executes one step of one thread: the
acceptor in `HttpServer::start`, the event loop, a worker of the task executor, or the environment.

A handler runs in one step; what reaches its socket meanwhile is listed in `schedule` before
(`foresee`). A handler that lets an exception escape ends the process, so it has no step.
-/

namespace Lightning

open Search

/-- An entry of the array that `epoll_wait` fills. -/
inductive Event where
  | newPipe
  | returnPipe
  /-- An event of a client; `hangup` when it carries `EPOLLERR` or `EPOLLHUP`. -/
  | client (fd : ℕ) (hangup : Bool)
  deriving DecidableEq, Repr

/-- A `ClientRequestHandler`: its client and the head it was given. -/
structure Task where
  client : ClientId
  requestBuffer : Bytes
  deriving DecidableEq, Repr

structure World where
  /-- The number of clients accepted so far. -/
  accepted : ℕ := 0
  getFd : ClientId → ℕ := fun _ => 0
  stream : ClientId → Stream := fun _ => {}
  closed : ClientId → Bool := fun _ => false
  /-- The descriptors that are open in the process. -/
  fdOpen : ℕ → Bool := fun _ => false
  /-- The registered descriptors; the value tells whether the one-shot registration is armed. -/
  interest : ℕ → Option Bool := fun _ => none
  /-- The kernel's buffer of a TLS client holds ciphertext. -/
  ciphertext : ClientId → Bool := fun _ => false
  newFdChannel : FdChannel ClientId Unit := {}
  returnChannel : FdChannel ReturnedConnection ℕ := {}
  connections : UnorderedMap ℕ ClientId := ∅
  /-- The events of the current batch that are not handled yet. -/
  batch : List Event := []
  /-- The queue of the task executor. -/
  tasks : List Task := []
  /-- The tasks that workers are executing. -/
  running : UnorderedMap ℕ Task := ∅

namespace World

def setStream (client : ClientId) (s : Stream) (w : World) : World :=
  { w with stream := Function.update w.stream client s }

/-- `getStream().close()`. Only `PlainStream` closes the descriptor, which also ends its
registration. -/
def close (client : ClientId) (w : World) : World :=
  let w := { w with closed := Function.update w.closed client true }
  match (w.stream client).transport with
  | .plain =>
      { w with
        fdOpen := Function.update w.fdOpen (w.getFd client) false
        interest := Function.update w.interest (w.getFd client) none }
  | .ssl => w

end World

namespace NonblockingClientManagerTask

def MAX_HEADER_BYTES : ℕ := 65536

/-- `EPOLL_CTL_ADD` with `EPOLLIN | EPOLLONESHOT`; it fails when the descriptor is registered. -/
def addFd (fd : ℕ) (w : World) : World :=
  if w.interest fd = none then { w with interest := Function.update w.interest fd (some true) }
  else w

/-- `EPOLL_CTL_MOD`; it fails when the descriptor is not registered. -/
def rearmFd (fd : ℕ) (w : World) : World :=
  if w.interest fd = none then w
  else { w with interest := Function.update w.interest fd (some true) }

/-- One iteration of `drainNewFdChannel`. -/
def drainNewFdChannel (w : World) : World :=
  let dequeued := w.newFdChannel.tryDequeue
  let w := { w with newFdChannel := dequeued.2 }
  match dequeued.1 with
  | none => w
  | some client =>
      let fd := w.getFd client
      let w := addFd fd w
      { w with connections := w.connections.emplace fd client }

/-- One iteration of `drainReturnChannel`. -/
def drainReturnChannel (w : World) : World :=
  let dequeued := w.returnChannel.tryDequeue
  let w := { w with returnChannel := dequeued.2 }
  match dequeued.1 with
  | none => w
  | some rc =>
      if rc.keepAlive then
        let fd := w.getFd rc.client
        rearmFd fd { w with connections := w.connections.emplace fd rc.client }
      else w.close rc.client

def handleClientEvent (P : Platform) (fd : ℕ) (hangup : Bool) (w : World) :
    Except CppException World :=
  match w.connections.lookup fd with
  | none => .ok w
  | some client =>
      if hangup then
        let w := w.close client
        .ok { w with connections := w.connections.erase fd }
      else
        let view := IStream.peek P MAX_HEADER_BYTES (w.stream client)
        let w := w.setStream client view.2
        match findFirst DOUBLE_CRLF view.1 with
        | none => .ok (rearmFd fd w)
        | some pos =>
            match IStream.read P (pos + 4) view.2 with
            | (.error e, _) => .error e
            | (.ok consumed, s) =>
                let headerData := consumed.take pos
                let w := w.setStream client s
                .ok { w with
                  connections := w.connections.erase fd
                  tasks := w.tasks ++ [⟨client, headerData⟩] }

end NonblockingClientManagerTask

/-! ## What the functions of the loop change -/

namespace World

variable {client c : ClientId} {s : Stream} {w : World}

@[simp] theorem setStream_self : (w.setStream client s).stream client = s := by
  show Function.update w.stream client s client = s
  rw [Function.update_self]

theorem setStream_of_ne (other : c ≠ client) : (w.setStream client s).stream c = w.stream c := by
  show Function.update w.stream client s c = w.stream c
  rw [Function.update_of_ne other]

end World

/-- What `close` does to the descriptor: it ends the registration with the descriptor, or leaves
both as they are. -/
theorem World.close_eq (client : ClientId) (w : World) :
    ∃ fdOpen interest, w.close client = { w with
        closed := Function.update w.closed client true
        fdOpen := fdOpen
        interest := interest } ∧
      (∀ d, d ≠ w.getFd client → fdOpen d = w.fdOpen d ∧ interest d = w.interest d) ∧
      (interest (w.getFd client) = none ∨
        fdOpen (w.getFd client) = w.fdOpen (w.getFd client) ∧
          interest (w.getFd client) = w.interest (w.getFd client)) := by
  unfold World.close
  dsimp only
  cases (w.stream client).transport with
  | plain =>
    refine ⟨_, _, rfl, fun d other => ?_, Or.inl (Function.update_self _ _ _)⟩
    rw [Function.update_of_ne other, Function.update_of_ne other]
    exact ⟨rfl, rfl⟩
  | ssl => exact ⟨_, _, rfl, fun _ _ => ⟨rfl, rfl⟩, Or.inr ⟨rfl, rfl⟩⟩

namespace NonblockingClientManagerTask

variable {P : Platform} {fd : ℕ} {w w' : World}

theorem addFd_eq (fd : ℕ) (w : World) :
    ∃ interest, addFd fd w = { w with interest := interest } := by
  unfold addFd
  split_ifs
  · exact ⟨_, rfl⟩
  · exact ⟨w.interest, rfl⟩

theorem rearmFd_eq (fd : ℕ) (w : World) :
    ∃ interest, rearmFd fd w = { w with interest := interest } := by
  unfold rearmFd
  split_ifs
  · exact ⟨w.interest, rfl⟩
  · exact ⟨_, rfl⟩

theorem drainNewFdChannel_of_nil (h : w.newFdChannel.queue = []) :
    drainNewFdChannel w = { w with newFdChannel := { w.newFdChannel with reader := .idle } } := by
  rw [drainNewFdChannel, FdChannel.tryDequeue_of_nil h]

theorem drainNewFdChannel_of_cons {client : ClientId} {queue : List ClientId}
    (h : w.newFdChannel.queue = client :: queue) :
    ∃ interest, drainNewFdChannel w = { w with
      newFdChannel := { w.newFdChannel with queue := queue }
      interest := interest
      connections := w.connections.emplace (w.getFd client) client } := by
  obtain ⟨interest, added⟩ := addFd_eq (w.getFd client)
    { w with newFdChannel := { w.newFdChannel with queue := queue } }
  refine ⟨interest, ?_⟩
  rw [drainNewFdChannel, FdChannel.tryDequeue_of_cons h]
  dsimp only
  rw [added]

theorem drainReturnChannel_of_nil (h : w.returnChannel.queue = []) :
    drainReturnChannel w =
      { w with returnChannel := { w.returnChannel with reader := .idle } } := by
  rw [drainReturnChannel, FdChannel.tryDequeue_of_nil h]

theorem drainReturnChannel_of_kept {client : ClientId} {queue : List ReturnedConnection}
    (h : w.returnChannel.queue = ⟨client, true⟩ :: queue) :
    ∃ interest, drainReturnChannel w = { w with
      returnChannel := { w.returnChannel with queue := queue }
      interest := interest
      connections := w.connections.emplace (w.getFd client) client } := by
  obtain ⟨interest, armed⟩ := rearmFd_eq (w.getFd client) { w with
    returnChannel := { w.returnChannel with queue := queue }
    connections := w.connections.emplace (w.getFd client) client }
  refine ⟨interest, ?_⟩
  rw [drainReturnChannel, FdChannel.tryDequeue_of_cons h]
  exact armed

theorem drainReturnChannel_of_closed {client : ClientId} {queue : List ReturnedConnection}
    (h : w.returnChannel.queue = ⟨client, false⟩ :: queue) :
    drainReturnChannel w =
      World.close client { w with returnChannel := { w.returnChannel with queue := queue } } := by
  rw [drainReturnChannel, FdChannel.tryDequeue_of_cons h]
  rfl

theorem drainNewFdChannel_frame (w : World) :
    ∃ interest connections, drainNewFdChannel w = { w with
      newFdChannel := w.newFdChannel.tryDequeue.2
      interest := interest
      connections := connections } := by
  cases hq : w.newFdChannel.queue with
  | nil =>
    rw [drainNewFdChannel_of_nil hq, FdChannel.tryDequeue_of_nil hq]
    exact ⟨_, _, rfl⟩
  | cons client queue =>
    obtain ⟨interest, after⟩ := drainNewFdChannel_of_cons hq
    rw [after, FdChannel.tryDequeue_of_cons hq]
    exact ⟨_, _, rfl⟩

theorem drainReturnChannel_frame (w : World) :
    ∃ interest connections closed fdOpen, drainReturnChannel w = { w with
      returnChannel := w.returnChannel.tryDequeue.2
      interest := interest
      connections := connections
      closed := closed
      fdOpen := fdOpen } := by
  cases hq : w.returnChannel.queue with
  | nil =>
    rw [drainReturnChannel_of_nil hq, FdChannel.tryDequeue_of_nil hq]
    exact ⟨_, _, _, _, rfl⟩
  | cons rc queue =>
    obtain ⟨client, _ | _⟩ := rc
    · obtain ⟨fdOpen, interest, after, -⟩ := World.close_eq client
        { w with returnChannel := { w.returnChannel with queue := queue } }
      rw [drainReturnChannel_of_closed hq, after, FdChannel.tryDequeue_of_cons hq]
      exact ⟨_, _, _, _, rfl⟩
    · obtain ⟨interest, after⟩ := drainReturnChannel_of_kept hq
      rw [after, FdChannel.tryDequeue_of_cons hq]
      exact ⟨_, _, _, _, rfl⟩

/-- The four things that an event of a client can lead to. -/
theorem handleClientEvent_outcome {hangup : Bool} (h : handleClientEvent P fd hangup w = .ok w') :
    (w.connections.lookup fd = none ∧ w' = w) ∨
    ∃ client, w.connections.lookup fd = some client ∧
      (hangup = true ∧ w' = { w.close client with connections := w.connections.erase fd } ∨
        hangup = false ∧
          findFirst DOUBLE_CRLF (IStream.peek P MAX_HEADER_BYTES (w.stream client)).1 = none ∧
          w' = rearmFd fd
            (w.setStream client (IStream.peek P MAX_HEADER_BYTES (w.stream client)).2) ∨
        hangup = false ∧ ∃ pos head, w' = { w.setStream client (IStream.read P (pos + 4)
            (IStream.peek P MAX_HEADER_BYTES (w.stream client)).2).2 with
          connections := w.connections.erase fd
          tasks := w.tasks ++ [⟨client, head⟩] }) := by
  unfold handleClientEvent at h
  cases tracked : w.connections.lookup fd with
  | none =>
    rw [tracked] at h
    exact Or.inl ⟨rfl, (Except.ok.inj h).symm⟩
  | some client =>
    rw [tracked] at h
    refine Or.inr ⟨client, rfl, ?_⟩
    dsimp only at h
    split_ifs at h with isHangup
    · left
      obtain ⟨fdOpen, interest, closed, -⟩ := World.close_eq client w
      rw [← Except.ok.inj h, closed]
      exact ⟨isHangup, rfl⟩
    · right
      have notHangup := Bool.eq_false_iff.mpr isHangup
      cases found : findFirst DOUBLE_CRLF
          (IStream.peek P MAX_HEADER_BYTES (w.stream client)).1 with
      | none =>
        rw [found] at h
        exact Or.inl ⟨notHangup, rfl, (Except.ok.inj h).symm⟩
      | some pos =>
        rw [found] at h
        dsimp only at h
        right
        rcases hread : IStream.read P (pos + 4)
          (IStream.peek P MAX_HEADER_BYTES (w.stream client)).2 with ⟨e | consumed, s⟩
        · rw [hread] at h
          cases h
        · rw [hread] at h
          refine ⟨notHangup, pos, consumed.take pos, ?_⟩
          rw [← Except.ok.inj h, hread]
          simp only [World.setStream, Function.update_idem]

/-- The fields that these change. -/
theorem handleClientEvent_cases {hangup : Bool} (h : handleClientEvent P fd hangup w = .ok w') :
    (w.connections.lookup fd = none ∧ w' = w) ∨
    ∃ client, w.connections.lookup fd = some client ∧
      ((hangup = true ∧ ∃ fdOpen interest, w' = { w with
          closed := Function.update w.closed client true
          fdOpen := fdOpen
          interest := interest
          connections := w.connections.erase fd } ∧
          ∀ d, d ≠ w.getFd client → fdOpen d = w.fdOpen d) ∨
        (hangup = false ∧
          findFirst DOUBLE_CRLF (IStream.peek P MAX_HEADER_BYTES (w.stream client)).1 = none ∧
          ∃ interest, w' =
            { w.setStream client (IStream.peek P MAX_HEADER_BYTES (w.stream client)).2 with
              interest := interest }) ∨
        hangup = false ∧ ∃ pos head, w' = { w.setStream client (IStream.read P (pos + 4)
            (IStream.peek P MAX_HEADER_BYTES (w.stream client)).2).2 with
          connections := w.connections.erase fd
          tasks := w.tasks ++ [⟨client, head⟩] }) := by
  obtain untracked | ⟨client, tracked, outcome⟩ := handleClientEvent_outcome h
  · exact Or.inl untracked
  refine Or.inr ⟨client, tracked, ?_⟩
  obtain ⟨isHangup, rfl⟩ | ⟨notHangup, missing, rfl⟩ | extracted := outcome
  · obtain ⟨fdOpen, interest, closed, others, -⟩ := World.close_eq client w
    rw [closed]
    exact Or.inl ⟨isHangup, fdOpen, interest, rfl, fun d other => (others d other).1⟩
  · exact Or.inr (Or.inl ⟨notHangup, missing, rearmFd_eq fd _⟩)
  · exact Or.inr (Or.inr extracted)

end NonblockingClientManagerTask

/-! ## Steps -/

/-- The steps of the acceptor, the event loop, the workers and the environment. -/
inductive Action where
  /-- `accept` gives a client on this descriptor, which is enqueued. -/
  | accept (fd : ℕ) (transport : Transport)
  | notifyNew
  /-- The acceptor closes the write end of its pipe. -/
  | shutdown
  /-- Bytes, the end of the stream or an error reach the socket of a client. -/
  | arrive (client : ClientId) (a : Arrival)
  /-- The same, at the next call of `recv`. -/
  | foresee (client : ClientId) (a : Arrival)
  /-- There is ciphertext in the kernel's buffer of a TLS client, be it new or still there after a
  `peek`. What OpenSSL has fetched and holds decrypted is not in that buffer, and what is in it need
  not be a whole record with data. -/
  | ciphertext (client : ClientId)
  /-- The outcome of a later call of `send` on the socket of a client. -/
  | outcome (client : ClientId) (r : SendResult)
  | epollWait (events : List Event)
  /-- The loop handles the next event of its batch. -/
  | handle
  /-- The loop dequeues once from the channel it is draining. -/
  | drain
  | take (worker : ℕ)
  /-- The worker executes its handler up to the `enqueue` in `signalReturn`. -/
  | call (worker : ℕ)
  | notifyReturn (worker : ℕ)
  deriving DecidableEq, Repr

namespace World

section Next

variable {ρ : Type} [RegexEngine ρ] (P : Platform) (server : HttpServer ρ) (capacity : ℕ)

/-- The client of an open descriptor. -/
def owner (fd : ℕ) (w : World) : Option ClientId :=
  (List.range w.accepted).find? fun c => w.getFd c = fd && !w.closed c

/-- The socket has something to report. Of a TLS client that is the ciphertext, which the decrypted
bytes do not tell. -/
def reports (w : World) (c : ClientId) : Bool :=
  match (w.stream c).transport with
  | .plain =>
      (w.stream c).socket.received ≠ [] || (w.stream c).socket.fin ||
        (w.stream c).socket.error.isSome
  | .ssl => w.ciphertext c

/-- `epoll_wait` may report the event: the pipe is readable, or the registration is armed and the
socket has something to report. -/
def ready (w : World) : Event → Bool
  | .newPipe => w.newFdChannel.readable
  | .returnPipe => w.returnChannel.readable
  | .client fd hangup =>
      w.interest fd = some true &&
        match w.owner fd with
        | none => false
        | some c => w.reports c || hangup

/-- The registrations of the reported descriptors are disarmed. -/
def disarm (w : World) : List Event → ℕ → Option Bool
  | [] => w.interest
  | .client fd _ :: events => Function.update (w.disarm events) fd (some false)
  | _ :: events => w.disarm events

/-- The descriptor an event is about, with the pipes numbered apart from the clients. -/
def eventFd : Event → ℕ ⊕ Bool
  | .newPipe => .inr true
  | .returnPipe => .inr false
  | .client fd _ => .inl fd

def setSocket (client : ClientId) (k : Socket) (w : World) : World :=
  w.setStream client { w.stream client with socket := k }

/-- The loop turns to an event of this descriptor. The ciphertext that was reported is fetched now;
what is left of it, the environment puts back. -/
abbrev turnTo (fd : ℕ) (batch : List Event) (w : World) : World :=
  { w with
    batch := batch
    ciphertext := fun c => w.ciphertext c && w.connections.lookup fd ≠ some c }

/-- The loop waits in `epoll_wait` or is between two events. -/
def loopIdle (w : World) : Bool :=
  w.newFdChannel.reader = .idle && w.returnChannel.reader = .idle

/-- Execute a step when its thread can take it. Nothing happens after the manager has returned. -/
def next (w : World) (a : Action) : Option World :=
  if w.newFdChannel.reader = .returned then none
  else
    match a with
    | .accept fd transport =>
        if w.newFdChannel.writing () = false ∧ w.newFdChannel.writeOpen = true ∧
            w.fdOpen fd = false then
          some { w with
            accepted := w.accepted + 1
            getFd := Function.update w.getFd w.accepted fd
            stream := Function.update w.stream w.accepted { transport := transport }
            closed := Function.update w.closed w.accepted false
            fdOpen := Function.update w.fdOpen fd true
            newFdChannel := w.newFdChannel.enqueue () w.accepted }
        else none
    | .notifyNew =>
        if w.newFdChannel.writing () = true then
          some { w with newFdChannel := w.newFdChannel.writeByte capacity () }
        else none
    | .shutdown =>
        if w.newFdChannel.writing () = false ∧ 0 < w.accepted then
          some { w with newFdChannel := w.newFdChannel.closeWrite }
        else none
    | .arrive c arrival =>
        if c < w.accepted then some (w.setSocket c ((w.stream c).socket.arrive arrival)) else none
    | .foresee c arrival =>
        if c < w.accepted then
          some (w.setSocket c { (w.stream c).socket with
            schedule := (w.stream c).socket.schedule ++ [arrival] })
        else none
    | .ciphertext c =>
        if c < w.accepted then
          some { w with ciphertext := Function.update w.ciphertext c true }
        else none
    | .outcome c r =>
        if c < w.accepted then
          some (w.setSocket c { (w.stream c).socket with
            sends := (w.stream c).socket.sends ++ [r] })
        else none
    | .epollWait events =>
        if w.loopIdle ∧ w.batch = [] ∧ events.length ≤ 64 ∧ (events.map eventFd).Nodup ∧
            events.all w.ready then
          some { w with batch := events, interest := w.disarm events }
        else none
    | .handle =>
        if w.loopIdle then
          match w.batch with
          | [] => none
          | .newPipe :: batch =>
              some { w with batch := batch, newFdChannel := w.newFdChannel.onReadable true }
          | .returnPipe :: batch =>
              some { w with batch := batch, returnChannel := w.returnChannel.onReadable false }
          | .client fd hangup :: batch =>
              (NonblockingClientManagerTask.handleClientEvent P fd hangup
                (w.turnTo fd batch)).toOption
        else none
    | .drain =>
        if w.newFdChannel.reader = .draining then
          some (NonblockingClientManagerTask.drainNewFdChannel w)
        else if w.returnChannel.reader = .draining then
          some (NonblockingClientManagerTask.drainReturnChannel w)
        else none
    | .take i =>
        if i < server.threadCount ∧ w.running.lookup i = none ∧
            w.returnChannel.writing i = false then
          match w.tasks with
          | [] => none
          | task :: tasks => some { w with tasks := tasks, running := w.running.insert i task }
        else none
    | .call i =>
        match w.running.lookup i with
        | none => none
        | some task =>
            let outcome := ClientRequestHandler.call P server task.client task.requestBuffer
              (w.stream task.client)
            match outcome.result with
            | .error _ => none
            | .ok () =>
                let w := w.setStream task.client outcome.stream
                some { w with
                  running := w.running.erase i
                  returnChannel := outcome.enqueued.foldl (fun ch rc => ch.enqueue i rc)
                    w.returnChannel }
    | .notifyReturn i =>
        if w.returnChannel.writing i = true then
          some { w with returnChannel := w.returnChannel.writeByte capacity i }
        else none

/-- The steps of a server whose pipes have `capacity` bytes. -/
def Step (w : World) (a : Action) (w' : World) : Prop := w.next P server capacity a = some w'

/-- Nothing has been accepted, and nothing is open that `accept` could return. -/
def Initial (w : World) : Prop := w = {}

end Next

end World

end Lightning
