import Lightning.Lib.Loop
import Lightning.NonblockingClientManagerTask

/-!
# `SSLStream::close` and the event loop that calls it

After an `SSL_shutdown` that returned `0`, `close` calls `SSL_read` until it has nothing more. The
timeout of three seconds that it sets before is one of a call that waits; on the non-blocking
sockets of the server no call does, so that the timeout is left out. `drainReturnChannel` and
`handleClientEvent` are executed here with the calls of `SSL_read` that their `close`s make; where
a bound on these is given, `none` says that they have not returned within it.
-/

namespace Lightning

/-- `SSL_read(ssl, _, num)`: the number of bytes, or not a positive number. -/
def SSL_read (num : ℕ) (k : Socket) : ℤ × Socket :=
  match k.recv num with
  | (.data bytes, k) => (bytes.length, k)
  | (.eof, k) => (0, k)
  | (.fail _, k) => (-1, k)

namespace SSLStream

/-- What OpenSSL and the peer do when a stream is closed. -/
structure Closing where
  /-- `SSL_is_init_finished` -/
  initFinished : Bool
  /-- The result of `SSL_shutdown`: `0` when the peer has not shut down its side yet. -/
  shutdown : ℤ
  /-- What reaches the socket before each call of `SSL_read`, without end. -/
  peer : ℕ → Arrival

/-- `sizeof(drain)` -/
def drainSize : ℕ := 256

/-- The condition of the loop, in front of which so many calls have been made. -/
def drainStep (peer : ℕ → Arrival) (s : ℕ × Socket) : Option (ℕ × Socket) :=
  let result := SSL_read drainSize (s.2.arrive (peer s.1))
  if result.1 > 0 then some (s.1 + 1, result.2) else none

/-- The number of calls of `SSL_read`. Each iteration stands behind one, and one ends the loop. -/
def close (fuel : ℕ) (c : Closing) (k : Socket) : Option ℕ :=
  if c.initFinished = false then some 0
  else if c.shutdown = 0 then (Loop.run (drainStep c.peer) fuel (0, k)).map (· + 1)
  else some 0

/-- `close` returns after so many calls of `SSL_read`. -/
def ReturnsAfter (c : Closing) (k : Socket) (reads : ℕ) : Prop :=
  ∃ fuel, close fuel c k = some reads

end SSLStream

open SSLStream (Closing)

/-- `getStream().close()` with the calls of `SSL_read` that `SSLStream` makes. What these leave of
the socket is not looked at again. -/
def World.closeWithin (fuel : ℕ) (tls : ClientId → Closing) (client : ClientId) (w : World) :
    Option World :=
  match (w.stream client).transport with
  | .plain => some (w.close client)
  | .ssl =>
      (SSLStream.close fuel (tls client) (w.stream client).socket).map fun _ => w.close client

namespace NonblockingClientManagerTask

/-- The whole loop of `drainReturnChannel`. -/
def drainReturnChannelWithin (tls : ClientId → Closing) : ℕ → World → Option World
  | 0, _ => none
  | fuel + 1, w =>
      match w.returnChannel.queue with
      | [] => some (drainReturnChannel w)
      | ⟨_, true⟩ :: _ => drainReturnChannelWithin tls fuel (drainReturnChannel w)
      | ⟨client, false⟩ :: queue =>
          (World.closeWithin fuel tls client
              { w with returnChannel := { w.returnChannel with queue := queue } }).bind
            (drainReturnChannelWithin tls fuel)

def handleClientEventWithin (P : Platform) (tls : ClientId → Closing) (fuel : ℕ) (fd : ℕ)
    (hangup : Bool) (w : World) : Option (Except CppException World) :=
  match w.connections.lookup fd with
  | none => some (handleClientEvent P fd hangup w)
  | some client =>
      if hangup then
        (w.closeWithin fuel tls client).map fun w =>
          .ok { w with connections := w.connections.erase fd }
      else some (handleClientEvent P fd hangup w)

end NonblockingClientManagerTask

end Lightning
