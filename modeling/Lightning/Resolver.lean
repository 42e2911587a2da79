import Lightning.Request
import Lightning.Response

/-!
# Resolvers

A resolver is an arbitrary function of the request. All it can do to the connection is to call
`getBody`, so it is a `Program`: it returns a response, throws, or calls `getBody` and goes on with
what that gave; an exception of `getBody` is passed on to it because a resolver may catch it.
-/

namespace Lightning

inductive Program where
  | respond (response : HttpResponse)
  | throwing (e : CppException)
  | getBody (next : Except CppException Bytes → Program)

abbrev Resolver := HttpRequest → Program

namespace Program

/-- Run a resolver on its copy of the request; `s` is the stream behind the pointer. -/
def run (P : Platform) : Program → HttpRequest → Stream → Except CppException HttpResponse × Stream
  | respond response, _, s => (.ok response, s)
  | throwing e, _, s => (.error e, s)
  | getBody next, request, s =>
      let body := request.getBody P s
      (next body.1).run P body.2.1 body.2.2

/-- How often the resolver calls `getBody` in that run. -/
def reads (P : Platform) : Program → HttpRequest → Stream → ℕ
  | respond _, _, _ => 0
  | throwing _, _, _ => 0
  | getBody next, request, s =>
      let body := request.getBody P s
      (next body.1).reads P body.2.1 body.2.2 + 1

variable {P : Platform} {request : HttpRequest} {s : Stream}

/-- What every `read` keeps, a resolver keeps. -/
theorem run_keeps {motive : Stream → Prop}
    (step : ∀ amount s, motive s → motive (IStream.read P amount s).2) (p : Program)
    (h : motive s) : motive (p.run P request s).2 := by
  induction p generalizing request s with
  | respond response => exact h
  | throwing e => exact h
  | getBody next ih =>
    apply ih
    rcases HttpRequest.getBody_stream_cases P request s with same | ⟨amount, after⟩
    · rw [same]
      exact h
    · rw [after]
      exact step amount s h

@[simp] theorem run_sends (p : Program) :
    (p.run P request s).2.socket.sends = s.socket.sends :=
  run_keeps (motive := fun t => t.socket.sends = s.socket.sends)
    (fun amount t h => by rw [IStream.read_sends, h]) p rfl

@[simp] theorem run_sent (p : Program) : (p.run P request s).2.socket.sent = s.socket.sent :=
  run_keeps (motive := fun t => t.socket.sent = s.socket.sent)
    (fun amount t h => by rw [IStream.read_sent, h]) p rfl

@[simp] theorem run_transport (p : Program) : (p.run P request s).2.transport = s.transport :=
  run_keeps (motive := fun t => t.transport = s.transport)
    (fun amount t h => by rw [IStream.read_transport, h]) p rfl

theorem run_suffix (p : Program) : (p.run P request s).2.incoming <:+ s.incoming :=
  run_keeps (motive := fun t => t.incoming <:+ s.incoming)
    (fun amount t h => (IStream.read_suffix P amount t).trans h) p (List.suffix_refl _)

end Program

end Lightning
