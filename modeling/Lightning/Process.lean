import Lightning.NonblockingClientManagerTask

/-!
# Closing and destroying clients

`Process` adds to the server what `World` leaves open: the calls of `::close` on the descriptor of
a client, the state of the SSL object that an `SSLClient` owns, and when the client objects are
destroyed. It also goes on after the manager has returned: its members are destroyed in the reverse
order of their declaration, so the map of connections goes before the worker pool, whose destructor
lets the workers finish, and the two channels go with the `HttpServer`.
-/

namespace Lightning

/-- What is left of the server. -/
inductive Phase where
  | running
  /-- `connections` is destroyed, and the destructor of the worker pool waits for the workers. -/
  | stopping
  /-- The thread of the manager is joined. -/
  | joined
  /-- The `HttpServer` is destroyed with its channels. -/
  | destroyed
  deriving DecidableEq, Repr

structure Process where
  world : World := {}
  /-- How often `::close` was called on the descriptor of the client. -/
  closeCalls : ClientId → ℕ := fun _ => 0
  /-- `SSL_is_init_finished`. -/
  initFinished : ClientId → Bool := fun _ => false
  /-- `SSL_get_shutdown` is not `0`. -/
  shutdownState : ClientId → Bool := fun _ => false
  /-- How often `SSL_free` was called on the object of the client. -/
  freed : ClientId → ℕ := fun _ => 0
  destroyed : ClientId → Bool := fun _ => false
  phase : Phase := .running

namespace Process

/-- `SmartSslResource::sslObjectDeleter`. -/
def sslObjectDeleter (c : ClientId) (p : Process) : Process :=
  if p.shutdownState c = false then
    { p with
      shutdownState := Function.update p.shutdownState c true
      freed := Function.update p.freed c (p.freed c + 1) }
  else p

/-- `getStream().close()`: `PlainStream::close` or `SSLStream::close`. -/
def close (c : ClientId) (p : Process) : Process :=
  match (p.world.stream c).transport with
  | .plain => { p with closeCalls := Function.update p.closeCalls c (p.closeCalls c + 1) }
  | .ssl =>
      if p.initFinished c then
        { p with shutdownState := Function.update p.shutdownState c true }
      else p

/-- `~PlainClient` or `~SSLClient`, which are defaulted: only the SSL object has a deleter. -/
def destroy (c : ClientId) (p : Process) : Process :=
  let p := { p with destroyed := Function.update p.destroyed c true }
  match (p.world.stream c).transport with
  | .plain => p
  | .ssl => p.sslObjectDeleter c

def destroyAll (clients : List ClientId) (p : Process) : Process :=
  clients.foldl (fun p c => p.destroy c) p

end Process

namespace World

/-- The client that a step of the loop closes and then drops. -/
def droppedBy (w : World) : Action → Option ClientId
  | .handle =>
      match w.batch with
      | .client fd true :: _ => w.connections.lookup fd
      | _ => none
  | .drain =>
      if w.newFdChannel.reader = .draining then none
      else
        match w.returnChannel.queue with
        | ⟨client, false⟩ :: _ => some client
        | _ => none
  | _ => none

end World

namespace Process

inductive Action where
  | serve (a : Lightning.Action)
  /-- The handshake of a TLS client ends, in `SSL_accept` or in a later call. -/
  | handshake (c : ClientId)
  /-- An alert or an error sets the shutdown state of the SSL object. -/
  | alert (c : ClientId)
  /-- `~NonblockingClientManagerTask` destroys `connections`. -/
  | destroyConnections
  /-- `~TaskExecutor` has joined the workers. -/
  | joinWorkers
  /-- `~HttpServer` destroys the channels. -/
  | destroyChannels
  deriving DecidableEq, Repr

/-- The steps of the workers and of the peers, which go on after the manager has returned. -/
def outlivesManager : Lightning.Action → Bool
  | .arrive .. | .foresee .. | .ciphertext _ | .outcome .. | .take _ | .call _
  | .notifyReturn _ => true
  | _ => false

section Next

variable {ρ : Type} [RegexEngine ρ] (P : Platform) (server : HttpServer ρ) (capacity : ℕ)

/-- The server as the workers see it, who do not notice that the manager has returned. -/
def resumed (w : World) : World :=
  { w with newFdChannel := { w.newFdChannel with reader := .idle } }

def nextWorld (p : Process) (a : Lightning.Action) : Option World :=
  if p.world.newFdChannel.reader = .returned then
    if outlivesManager a then
      ((resumed p.world).next P server capacity a).map fun w =>
        { w with newFdChannel := p.world.newFdChannel }
    else none
  else p.world.next P server capacity a

/-- Every worker has found its sentinel: no task is left and no handler runs. -/
def workersDone (w : World) : Bool :=
  w.tasks.isEmpty && w.running.entries.isEmpty &&
    (List.range server.threadCount.toNat).all fun i => !w.returnChannel.writing i

/-- Execute a step when its thread can take it. -/
def next (p : Process) : Action → Option Process
  | .serve a =>
      if p.phase = .running ∨ p.phase = .stopping then
        (p.nextWorld P server capacity a).map fun w =>
          match p.world.droppedBy a with
          | none => { p with world := w }
          | some c => (({ p with world := w } : Process).close c).destroy c
      else none
  | .handshake c =>
      if c < p.world.accepted ∧ p.destroyed c = false then
        some { p with initFinished := Function.update p.initFinished c true }
      else none
  | .alert c =>
      if c < p.world.accepted ∧ p.destroyed c = false then
        some { p with shutdownState := Function.update p.shutdownState c true }
      else none
  | .destroyConnections =>
      if p.phase = .running ∧ p.world.newFdChannel.reader = .returned then
        let p := p.destroyAll (p.world.connections.entries.map Sigma.snd)
        some { p with world := { p.world with connections := ∅ }, phase := .stopping }
      else none
  | .joinWorkers =>
      if p.phase = .stopping ∧ workersDone server p.world then some { p with phase := .joined }
      else none
  | .destroyChannels =>
      if p.phase = .joined then
        let p := p.destroyAll
          (p.world.newFdChannel.queue ++ p.world.returnChannel.queue.map (·.client))
        some { p with
          world := { p.world with
            newFdChannel := { p.world.newFdChannel with queue := [] }
            returnChannel := { p.world.returnChannel with queue := [] } }
          phase := .destroyed }
      else none

def Step (p : Process) (a : Action) (p' : Process) : Prop := p.next P server capacity a = some p'

def Initial (p : Process) : Prop := p = {}

end Next

end Process

end Lightning
