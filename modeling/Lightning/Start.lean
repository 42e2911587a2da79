import Lightning.Process

/-!
# `HttpServer::start`

The thread that calls `start` beside the threads it creates. `accept` and `shouldStop` are given by
their outcomes, which may be exceptions. Nothing in `start` catches one, so that it destroys the
local variables, of which only the `std::thread` has a destructor that does anything: it calls
`std::terminate` as long as the thread is joinable.
-/

namespace Lightning

def EMFILE : ℤ := 24

/-- `PlainServer::accept`, by what `::accept` returns and leaves in `errno`. -/
def PlainServer.accept (clientFd errno : ℤ) : Except CppException (ℕ × Transport) :=
  if clientFd < 0 then .error (.lowLevelApi "accept() failed" errno errno)
  else .ok (clientFd.toNat, .plain)

namespace SSLServer

/-- It looks at the error and ignores it. -/
def handleSslAcceptError (_ret : ℤ) : Except CppException Unit := .ok ()

/-- `SSLServer::accept`; `acceptRet` is the result of `SSL_accept`. -/
def accept (clientFd errno acceptRet : ℤ) : Except CppException (ℕ × Transport) :=
  if clientFd < 0 then .error (.lowLevelApi "Error while calling accept()" errno 0)
  else if acceptRet ≠ 1 then
    (handleSslAcceptError acceptRet).map fun _ => (clientFd.toNat, .ssl)
  else .ok (clientFd.toNat, .ssl)

end SSLServer

namespace HttpServer

/-- The call that the thread in `start` makes next. -/
inductive Acceptor where
  | accept
  | write
  | shouldStop
  | closeNewWrite
  | join
  | closeNewRead
  | closeReturnRead
  | closeReturnWrite
  /-- `start` is left, by this exception or normally. -/
  | left (thrown : Option CppException)
  /-- `std::terminate` was called. -/
  | aborted
  deriving DecidableEq, Repr

/-- The process while a thread is in `start`. The write ends of the pipes are in their channels. -/
structure Start where
  process : Process := {}
  acceptor : Acceptor := .accept
  newReadOpen : Bool := true
  returnReadOpen : Bool := true
  /-- `epollThread.joinable()` -/
  joinable : Bool := true

namespace Start

inductive Action where
  | accept (outcome : Except CppException (ℕ × Transport))
  | shouldStop (outcome : Except CppException Bool)
  /-- The thread makes a call that cannot throw. -/
  | proceed
  /-- A step of the event loop, a worker, a peer or OpenSSL. -/
  | process (a : Process.Action)
  deriving DecidableEq, Repr

/-- The call ends with an exception. -/
def Action.throws : Action → Bool
  | .accept (.error _) => true
  | .shouldStop (.error _) => true
  | _ => false

/-- The steps that another thread takes while `start` has not been left. -/
def ofOtherThread : Process.Action → Bool
  | .serve (.accept ..) | .serve .notifyNew | .serve .shutdown | .destroyChannels => false
  | _ => true

/-- An exception leaves `start`: the destructor of `epollThread` runs. -/
def unwind (e : CppException) (s : Start) : Start :=
  if s.joinable then { s with acceptor := .aborted } else { s with acceptor := .left (some e) }

def closeReturnWrite (p : Process) : Process :=
  { p with world := { p.world with returnChannel := p.world.returnChannel.closeWrite } }

section Next

variable {ρ : Type} [RegexEngine ρ] (P : Platform) (server : HttpServer ρ) (capacity : ℕ)

/-- The process takes this step, and the thread goes on with that call. -/
def serve (a : Lightning.Action) (acceptor : Acceptor) (s : Start) : Option Start :=
  (s.process.next P server capacity (.serve a)).map fun p =>
    { s with process := p, acceptor := acceptor }

/-- Execute a step when its thread can take it. -/
def next (s : Start) : Action → Option Start
  | .accept outcome =>
      if s.acceptor = .accept then
        match outcome with
        | .error e => some (s.unwind e)
        | .ok client => s.serve P server capacity (.accept client.1 client.2) .write
      else none
  | .shouldStop outcome =>
      if s.acceptor = .shouldStop then
        match outcome with
        | .error e => some (s.unwind e)
        | .ok stop => some { s with acceptor := if stop then .closeNewWrite else .accept }
      else none
  | .proceed =>
      match s.acceptor with
      | .write => s.serve P server capacity .notifyNew .shouldStop
      | .closeNewWrite => s.serve P server capacity .shutdown .join
      | .join =>
          if s.process.phase = .joined then
            some { s with joinable := false, acceptor := .closeNewRead }
          else none
      | .closeNewRead => some { s with newReadOpen := false, acceptor := .closeReturnRead }
      | .closeReturnRead => some { s with returnReadOpen := false, acceptor := .closeReturnWrite }
      | .closeReturnWrite =>
          some { s with process := closeReturnWrite s.process, acceptor := .left none }
      | .accept | .shouldStop | .left _ | .aborted => none
  | .process a =>
      if s.acceptor ≠ .aborted ∧ ofOtherThread a then
        (s.process.next P server capacity a).map fun p => { s with process := p }
      else none

end Next

/-- The process has not been aborted, and once `start` is left the event loop was told to stop and
is joined, and the four ends of the pipes are closed. -/
def ExitClean (s : Start) : Prop :=
  s.acceptor ≠ .aborted ∧ ∀ thrown, s.acceptor = .left thrown →
    s.joinable = false ∧ s.process.phase = .joined ∧
      s.process.world.newFdChannel.writeOpen = false ∧ s.newReadOpen = false ∧
      s.process.world.returnChannel.writeOpen = false ∧ s.returnReadOpen = false

end Start

end HttpServer

end Lightning
