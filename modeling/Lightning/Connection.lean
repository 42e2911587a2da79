import Lightning.NonblockingClientManagerTask

/-!
# One connection

What the server is for one of its clients: a connection goes through the stages below, one step
after the other, and has its stream; there is no other client, no descriptor, no channel, no batch
and no worker. The functions that act on the stream are those of the server.
-/

namespace Lightning

/-- Where a connection is. -/
inductive Stage where
  /-- Accepted and on its way to the manager. -/
  | queued
  /-- The manager waits for its head. -/
  | watched
  /-- A worker handles this head, or will. -/
  | handled (requestBuffer : Bytes)
  /-- On its way back to the manager. -/
  | returned (keepAlive : Bool)
  | closed
  deriving DecidableEq, Repr

structure Connection where
  stage : Stage := .queued
  stream : Stream := {}
  deriving DecidableEq, Repr

namespace Connection

open Search NonblockingClientManagerTask

inductive Action where
  | accept (transport : Transport)
  | arrive (a : Arrival)
  | foresee (a : Arrival)
  | outcome (r : SendResult)
  /-- The manager gets the new client. -/
  | register
  /-- The manager handles an event of the client. -/
  | event (hangup : Bool)
  /-- A worker executes the handler. -/
  | call
  /-- The manager gets the client back. -/
  | resume
  deriving DecidableEq, Repr

def setSocket (k : Socket) (x : Connection) : Connection :=
  { x with stream := { x.stream with socket := k } }

/-- The manager looks for a head. -/
def handleEvent (P : Platform) (s : Stream) : Option Connection :=
  let view := IStream.peek P MAX_HEADER_BYTES s
  match findFirst DOUBLE_CRLF view.1 with
  | none => some ⟨.watched, view.2⟩
  | some pos =>
      match IStream.read P (pos + 4) view.2 with
      | (.error _, _) => none
      | (.ok consumed, s) => some ⟨.handled (consumed.take pos), s⟩

variable {ρ : Type} [RegexEngine ρ] (P : Platform) (server : HttpServer ρ)

/-- The handler answers, for a client of any number; one that lets an exception escape has enqueued
nothing. -/
def handle (requestBuffer : Bytes) (s : Stream) : Option Connection :=
  let outcome := ClientRequestHandler.call P server 0 requestBuffer s
  match outcome.enqueued with
  | [rc] => some ⟨.returned rc.keepAlive, outcome.stream⟩
  | _ => none

/-- Execute a step when the connection can take it; `none` is a client that was not accepted. -/
def next : Option Connection → Action → Option (Option Connection)
  | none, .accept transport => some (some { stream := { transport := transport } })
  | some x, .arrive a => some (some (x.setSocket (x.stream.socket.arrive a)))
  | some x, .foresee a =>
      some (some (x.setSocket { x.stream.socket with
        schedule := x.stream.socket.schedule ++ [a] }))
  | some x, .outcome r =>
      some (some (x.setSocket { x.stream.socket with sends := x.stream.socket.sends ++ [r] }))
  | some ⟨.queued, s⟩, .register => some (some ⟨.watched, s⟩)
  | some ⟨.watched, s⟩, .event true => some (some ⟨.closed, s⟩)
  | some ⟨.watched, s⟩, .event false => (handleEvent P s).map some
  | some ⟨.handled requestBuffer, s⟩, .call => (handle P server requestBuffer s).map some
  | some ⟨.returned keepAlive, s⟩, .resume =>
      some (some ⟨if keepAlive then .watched else .closed, s⟩)
  | _, _ => none

/-- The client was not accepted yet. -/
def Initial (x : Option Connection) : Prop := x = none

def Step (x : Option Connection) (a : Action) (y : Option Connection) : Prop :=
  next P server x a = some y

end Connection

/-! ## What a server is for one of its clients -/

namespace World

/-- The tasks of the workers and those that wait for one. -/
def allTasks (w : World) : List Task := w.tasks ++ w.running.entries.map Sigma.snd

def stage (w : World) (c : ClientId) : Stage :=
  if w.closed c then .closed
  else if c ∈ w.newFdChannel.queue then .queued
  else
    match w.returnChannel.queue.find? (·.client == c) with
    | some rc => .returned rc.keepAlive
    | none =>
        match w.allTasks.find? (·.client == c) with
        | some task => .handled task.requestBuffer
        | none => .watched

def view (c : ClientId) (w : World) : Option Connection :=
  if c < w.accepted then some ⟨w.stage c, w.stream c⟩ else none

/-- What a step of the server is for the client. -/
def project (c : ClientId) (w : World) : Action → Option Connection.Action
  | .accept _ transport => if c = w.accepted then some (.accept transport) else none
  | .arrive d a => if c = d then some (.arrive a) else none
  | .foresee d a => if c = d then some (.foresee a) else none
  | .outcome d r => if c = d then some (.outcome r) else none
  | .handle =>
      match w.batch with
      | .client fd hangup :: _ =>
          if w.connections.lookup fd = some c then some (.event hangup) else none
      | _ => none
  | .drain =>
      if w.newFdChannel.reader = .draining then
        if w.newFdChannel.queue.head? = some c then some .register else none
      else if w.returnChannel.queue.head?.map (·.client) = some c then some .resume
      else none
  | .call i => if (w.running.lookup i).map (·.client) = some c then some .call else none
  | _ => none

end World

end Lightning
