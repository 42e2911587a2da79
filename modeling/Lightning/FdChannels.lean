import Lightning.Basic
import Mathlib.Logic.Function.Basic

/-!
# Channels

`NewFdChannel` and `ReturnChannel` pair a queue with a non-blocking pipe. A producer enqueues and
then writes one byte without looking at the result; the event loop reads up to 256 bytes and then
dequeues until the queue is empty. `α` is what is sent, `ι` names the producers.

The queue is taken to be linearizable: it is first in, first out over all producers together, and
`try_dequeue` finds an element whenever there is one. `concurrentqueue.h` promises less, the order
of each producer alone, and that a dequeue may miss an element that is being enqueued.
-/

namespace Lightning

/-- What the event loop does with a channel. -/
inductive ReaderState where
  | idle
  | draining
  | returned
  deriving DecidableEq, Repr

structure FdChannel (α ι : Type) where
  queue : List α := []
  /-- The number of bytes in the pipe. -/
  pipe : ℕ := 0
  /-- The producers that have enqueued and not written yet. -/
  writing : ι → Bool := fun _ => false
  /-- The write end of the pipe is open. -/
  writeOpen : Bool := true
  reader : ReaderState := .idle

/-- The result of `read` on the pipe. -/
inductive PipeRead where
  | bytes (count : ℕ)
  | eof
  | wouldBlock
  deriving DecidableEq, Repr

namespace FdChannel

variable {α ι : Type} [DecidableEq ι]

/-- The first half of sending. -/
def enqueue (i : ι) (x : α) (ch : FdChannel α ι) : FdChannel α ι :=
  { ch with queue := ch.queue ++ [x], writing := Function.update ch.writing i true }

/-- The second half: `::write(pipeWrite, &byte, 1)`, which fails when the pipe is full. -/
def writeByte (capacity : ℕ) (i : ι) (ch : FdChannel α ι) : FdChannel α ι :=
  { ch with
    pipe := if ch.pipe < capacity then ch.pipe + 1 else ch.pipe
    writing := Function.update ch.writing i false }

def closeWrite (ch : FdChannel α ι) : FdChannel α ι := { ch with writeOpen := false }

/-- `read(pipeRead, buf, 256)`. -/
def readPipe (ch : FdChannel α ι) : PipeRead × FdChannel α ι :=
  if ch.pipe > 0 then
    (.bytes (min 256 ch.pipe), { ch with pipe := ch.pipe - min 256 ch.pipe })
  else if ch.writeOpen then (.wouldBlock, ch)
  else (.eof, ch)

/-- The event of the pipe in the loop of `operator()`. Only for the new-client channel a read of
`0` bytes makes the manager return. -/
def onReadable (returnOnEof : Bool) (ch : FdChannel α ι) : FdChannel α ι :=
  let result := ch.readPipe
  if result.1 = .eof ∧ returnOnEof then { result.2 with reader := .returned }
  else { result.2 with reader := .draining }

/-- One `try_dequeue` of the draining loop, which ends when the queue is empty. -/
def tryDequeue (ch : FdChannel α ι) : Option α × FdChannel α ι :=
  match ch.queue with
  | [] => (none, { ch with reader := .idle })
  | x :: queue => (some x, { ch with queue := queue })

omit [DecidableEq ι] in
theorem tryDequeue_of_nil {ch : FdChannel α ι} (h : ch.queue = []) :
    ch.tryDequeue = (none, { ch with reader := .idle }) := by
  rw [tryDequeue, h]

omit [DecidableEq ι] in
theorem tryDequeue_of_cons {ch : FdChannel α ι} {x : α} {queue : List α}
    (h : ch.queue = x :: queue) : ch.tryDequeue = (some x, { ch with queue := queue }) := by
  rw [tryDequeue, h]

/-- The pipe is readable: level-triggered, and also at the end of the stream. -/
def readable (ch : FdChannel α ι) : Bool := ch.pipe > 0 || !ch.writeOpen

inductive Action (α ι : Type) where
  | enqueue (i : ι) (x : α)
  | writeByte (i : ι)
  | closeWrite
  | read
  | dequeue

/-- The steps of the producers and of the loop. A producer is sequential, and the write end is
closed by the thread that has joined or is the only producer. -/
inductive Step (capacity : ℕ) (returnOnEof : Bool) :
    FdChannel α ι → Action α ι → FdChannel α ι → Prop
  | enqueue {ch : FdChannel α ι} (i : ι) (x : α) (idle : ch.writing i = false)
      (isOpen : ch.writeOpen = true) :
      Step capacity returnOnEof ch (.enqueue i x) (ch.enqueue i x)
  | writeByte {ch : FdChannel α ι} (i : ι) (pending : ch.writing i = true) :
      Step capacity returnOnEof ch (.writeByte i) (ch.writeByte capacity i)
  | closeWrite {ch : FdChannel α ι} (idle : ∀ i, ch.writing i = false) :
      Step capacity returnOnEof ch .closeWrite ch.closeWrite
  | read {ch : FdChannel α ι} (idle : ch.reader = .idle) :
      Step capacity returnOnEof ch .read (ch.onReadable returnOnEof)
  | dequeue {ch : FdChannel α ι} (draining : ch.reader = .draining) :
      Step capacity returnOnEof ch .dequeue ch.tryDequeue.2

/-- Both parts are empty, nobody is sending and the loop is elsewhere. -/
def Initial (ch : FdChannel α ι) : Prop := ch = {}

end FdChannel

end Lightning
