import Lightning.Start
import Lightning.Proof.Closing

/-!
# How `HttpServer::start` is left

The cleanup at the end of `start` leaves nothing behind (`StartInv`), and it is on the only way out
that does not end the process: wherever an exception can come from, the thread of the event loop is
joinable. So a run of `start` is left cleanly exactly when no call in it throws (`exitClean_iff`).
-/

namespace Lightning

/-! ## The write ends of the pipes -/

namespace World

variable {ρ : Type} [RegexEngine ρ] {P : Platform} {server : HttpServer ρ} {capacity : ℕ}
  {w w' : World} {a : Action}

/-- Only `shutdown` closes a write end. -/
theorem writeOpen_of_takes (step : Takes P server capacity w a w') (other : a ≠ .shutdown) :
    w'.newFdChannel.writeOpen = w.newFdChannel.writeOpen ∧
      w'.returnChannel.writeOpen = w.returnChannel.writeOpen := by
  cases step with
  | shutdown idle => exact absurd rfl other
  | newPipe batch idle first => exact ⟨(onReadable_writing true w.newFdChannel).2, rfl⟩
  | returnPipe batch idle first => exact ⟨rfl, (onReadable_writing false w.returnChannel).2⟩
  | client fd hangup batch w' idle first handled =>
    obtain ⟨new, returned⟩ := handleClientEvent_channels handled
    rw [new, returned]
    exact ⟨rfl, rfl⟩
  | drainNew draining =>
    obtain ⟨new, returned⟩ := drainNewFdChannel_channels w
    rw [new, returned]
    exact ⟨(tryDequeue_writing w.newFdChannel).2, rfl⟩
  | drainReturn draining =>
    obtain ⟨new, returned⟩ := drainReturnChannel_channels w
    rw [new, returned]
    exact ⟨rfl, (tryDequeue_writing w.returnChannel).2⟩
  | accept | notifyNew | arrive | foresee | ciphertext | outcome | epollWait | take | call |
    notifyReturn =>
    exact ⟨rfl, rfl⟩

theorem writeOpen_of_shutdown (step : Takes P server capacity w .shutdown w') :
    w'.newFdChannel.writeOpen = false ∧
      w'.returnChannel.writeOpen = w.returnChannel.writeOpen := by
  cases step with
  | shutdown idle => exact ⟨rfl, rfl⟩

end World

namespace Process

open World

variable {ρ : Type} [RegexEngine ρ] {P : Platform} {server : HttpServer ρ} {capacity : ℕ}
  {p p' : Process} {a : Action}

theorem nextWorld_writeOpen {a : Lightning.Action} {w : World}
    (step : p.nextWorld P server capacity a = some w) :
    (p.world.newFdChannel.writeOpen = false ∨ a = .shutdown → w.newFdChannel.writeOpen = false) ∧
      w.returnChannel.writeOpen = p.world.returnChannel.writeOpen := by
  unfold nextWorld at step
  split_ifs at step with returned outlives
  · obtain ⟨w', taken, rfl⟩ := Option.map_eq_some_iff.mp step
    have notShutdown : a ≠ .shutdown := by
      rintro rfl
      cases outlives
    have same := (writeOpen_of_takes (takes_of_next taken) notShutdown).2
    refine ⟨fun closed => ?_, same⟩
    exact closed.resolve_right notShutdown
  · by_cases isShutdown : a = .shutdown
    · subst isShutdown
      obtain ⟨closed, same⟩ := writeOpen_of_shutdown (takes_of_next step)
      exact ⟨fun _ => closed, same⟩
    · obtain ⟨new, same⟩ := writeOpen_of_takes (takes_of_next step) isShutdown
      refine ⟨fun closed => ?_, same⟩
      rw [new]
      exact closed.resolve_right isShutdown

/-- A write end that is closed stays closed. -/
theorem next_writeOpen (step : p.next P server capacity a = some p') :
    (p.world.newFdChannel.writeOpen = false ∨ a = .serve .shutdown →
        p'.world.newFdChannel.writeOpen = false) ∧
      p'.world.returnChannel.writeOpen = p.world.returnChannel.writeOpen := by
  cases moves_of_next step with
  | serve a w live taken nobody =>
    obtain ⟨closed, same⟩ := nextWorld_writeOpen taken
    exact ⟨fun h => closed (h.imp_right Action.serve.inj), same⟩
  | drop a w c live taken dropped =>
    obtain ⟨closed, same⟩ := nextWorld_writeOpen taken
    rw [(destroy_frame c _).1, (close_frame c _).1]
    exact ⟨fun h => closed (h.imp_right Action.serve.inj), same⟩
  | handshake c => exact ⟨fun h => h.resolve_right (by simp), rfl⟩
  | alert c => exact ⟨fun h => h.resolve_right (by simp), rfl⟩
  | destroyConnections running =>
    have world := (destroyAll_frame (p.world.connections.entries.map Sigma.snd) p).1
    rw [world]
    exact ⟨fun h => h.resolve_right (by simp), rfl⟩
  | joinWorkers stopping => exact ⟨fun h => h.resolve_right (by simp), rfl⟩
  | destroyChannels q destroys =>
    rw [destroys, (destroyAll_frame _ p).1]
    exact ⟨fun h => h.resolve_right (by simp), rfl⟩

/-- The manager does not come back. -/
theorem next_joined (step : p.next P server capacity a = some p') (joined : p.phase = .joined)
    (other : a ≠ .destroyChannels) : p'.phase = .joined := by
  have ended : ¬ (p.phase = .running ∨ p.phase = .stopping) := by
    rw [joined]
    decide
  cases moves_of_next step with
  | serve a w live taken nobody => exact absurd live ended
  | drop a w c live taken dropped => exact absurd live ended
  | handshake c => exact joined
  | alert c => exact joined
  | destroyConnections running => exact absurd (Or.inl running) ended
  | joinWorkers stopping => exact absurd (Or.inr stopping) ended
  | destroyChannels q destroys => exact absurd rfl other

end Process

/-! ## Runs of `start` -/

namespace HttpServer.Start

open Transition

variable {ρ : Type} [RegexEngine ρ] {P : Platform} {server : HttpServer ρ} {capacity : ℕ}
  {s s' : Start} {a : Action}

/-- How many calls of the cleanup have been made. -/
def cleaned : Acceptor → ℕ
  | .accept | .write | .shouldStop | .closeNewWrite | .aborted => 0
  | .join => 1
  | .closeNewRead => 2
  | .closeReturnRead => 3
  | .closeReturnWrite => 4
  | .left _ => 5

/-- What the cleanup has done so far, as long as nothing was thrown. -/
structure StartInv (s : Start) : Prop where
  alive : s.acceptor ≠ .aborted
  pending : cleaned s.acceptor < 2 → s.joinable = true
  told : 1 ≤ cleaned s.acceptor → s.process.world.newFdChannel.writeOpen = false
  joined : 2 ≤ cleaned s.acceptor → s.joinable = false ∧ s.process.phase = .joined
  newRead : 3 ≤ cleaned s.acceptor → s.newReadOpen = false
  returnRead : 4 ≤ cleaned s.acceptor → s.returnReadOpen = false
  returnWrite : 5 ≤ cleaned s.acceptor → s.process.world.returnChannel.writeOpen = false

theorem StartInv.exitClean (h : StartInv s) : s.ExitClean := by
  refine ⟨h.alive, fun thrown left => ?_⟩
  have all : cleaned s.acceptor = 5 := by rw [left, cleaned]
  obtain ⟨joinable, phase⟩ := h.joined (by omega)
  exact ⟨joinable, phase, h.told (by omega), h.newRead (by omega), h.returnWrite (by omega),
    h.returnRead (by omega)⟩

/-- In the loop the invariant says no more than that the thread is joinable. -/
theorem startInv_of_loop (alive : s.acceptor ≠ .aborted) (loop : cleaned s.acceptor = 0)
    (joinable : s.joinable = true) : StartInv s where
  alive := alive
  pending _ := joinable
  told h := by omega
  joined h := by omega
  newRead h := by omega
  returnRead h := by omega
  returnWrite h := by omega

theorem startInv_initial : StartInv {} := startInv_of_loop (by simp) rfl rfl

theorem serve_spec {action : Lightning.Action} {acceptor : Acceptor}
    (step : s.serve P server capacity action acceptor = some s') :
    ∃ p, s.process.next P server capacity (.serve action) = some p ∧
      s' = { s with process := p, acceptor := acceptor } := by
  obtain ⟨p, taken, rfl⟩ := Option.map_eq_some_iff.mp step
  exact ⟨p, taken, rfl⟩

/-- A step of another thread undoes nothing of the cleanup. -/
theorem startInv_process (h : StartInv s) {action : Process.Action} {p : Process}
    (step : s.process.next P server capacity action = some p) (other : ofOtherThread action = true) :
    StartInv { s with process := p } := by
  obtain ⟨new, returned⟩ := Process.next_writeOpen step
  have notDestroy : action ≠ .destroyChannels := by
    rintro rfl
    cases other
  constructor
  · exact h.alive
  · exact h.pending
  · intro made
    exact new (Or.inl (h.told made))
  · intro made
    obtain ⟨joinable, phase⟩ := h.joined made
    exact ⟨joinable, Process.next_joined step phase notDestroy⟩
  · exact h.newRead
  · exact h.returnRead
  · intro made
    exact returned.trans (h.returnWrite made)

/-- A call that cannot throw. -/
theorem startInv_proceed (h : StartInv s) (step : s.next P server capacity .proceed = some s') :
    StartInv s' := by
  simp only [next] at step
  cases here : s.acceptor with
  | write =>
    rw [here] at step
    obtain ⟨p, -, rfl⟩ := serve_spec step
    exact startInv_of_loop (by simp) rfl (h.pending (by simp [here, cleaned]))
  | closeNewWrite =>
    rw [here] at step
    obtain ⟨p, taken, rfl⟩ := serve_spec step
    exact {
      alive := by simp
      pending := fun _ => h.pending (by simp [here, cleaned])
      told := fun _ => (Process.next_writeOpen taken).1 (Or.inr rfl)
      joined := by simp [cleaned]
      newRead := by simp [cleaned]
      returnRead := by simp [cleaned]
      returnWrite := by simp [cleaned] }
  | join =>
    rw [here] at step
    dsimp only at step
    split_ifs at step with finished
    cases step
    exact {
      alive := by simp
      pending := by simp [cleaned]
      told := fun _ => h.told (by simp [here, cleaned])
      joined := fun _ => ⟨rfl, finished⟩
      newRead := by simp [cleaned]
      returnRead := by simp [cleaned]
      returnWrite := by simp [cleaned] }
  | closeNewRead =>
    rw [here] at step
    cases step
    exact {
      alive := by simp
      pending := by simp [cleaned]
      told := fun _ => h.told (by simp [here, cleaned])
      joined := fun _ => h.joined (by simp [here, cleaned])
      newRead := fun _ => rfl
      returnRead := by simp [cleaned]
      returnWrite := by simp [cleaned] }
  | closeReturnRead =>
    rw [here] at step
    cases step
    exact {
      alive := by simp
      pending := by simp [cleaned]
      told := fun _ => h.told (by simp [here, cleaned])
      joined := fun _ => h.joined (by simp [here, cleaned])
      newRead := fun _ => h.newRead (by simp [here, cleaned])
      returnRead := fun _ => rfl
      returnWrite := by simp [cleaned] }
  | closeReturnWrite =>
    rw [here] at step
    cases step
    exact {
      alive := by simp
      pending := by simp [cleaned]
      told := fun _ => h.told (by simp [here, cleaned])
      joined := fun _ => h.joined (by simp [here, cleaned])
      newRead := fun _ => h.newRead (by simp [here, cleaned])
      returnRead := fun _ => h.returnRead (by simp [here, cleaned])
      returnWrite := fun _ => rfl }
  | accept =>
    rw [here] at step
    cases step
  | shouldStop =>
    rw [here] at step
    cases step
  | left thrown =>
    rw [here] at step
    cases step
  | aborted =>
    rw [here] at step
    cases step

theorem startInv_step (h : StartInv s) (step : s.next P server capacity a = some s')
    (quiet : a.throws = false) : StartInv s' := by
  cases a with
  | accept outcome =>
    simp only [next] at step
    split_ifs at step with here
    cases outcome with
    | error e => cases quiet
    | ok client =>
      obtain ⟨p, -, rfl⟩ := serve_spec step
      exact startInv_of_loop (by simp) rfl (h.pending (by simp [here, cleaned]))
  | shouldStop outcome =>
    simp only [next] at step
    split_ifs at step with here
    cases outcome with
    | error e => cases quiet
    | ok stop =>
      cases step
      have joinable := h.pending (by simp [here, cleaned])
      cases stop with
      | true => exact startInv_of_loop (by simp) rfl joinable
      | false => exact startInv_of_loop (by simp) rfl joinable
  | proceed => exact startInv_proceed h step
  | process action =>
    simp only [next] at step
    split_ifs at step with ready
    obtain ⟨p, taken, rfl⟩ := Option.map_eq_some_iff.mp step
    exact startInv_process h taken ready.2

theorem unwind_of_joinable (e : CppException) (joinable : s.joinable = true) :
    (s.unwind e).acceptor = .aborted := by
  rw [unwind, if_pos joinable]

/-- An exception always meets a joinable thread. -/
theorem aborted_of_throws (h : StartInv s) (step : s.next P server capacity a = some s')
    (throws : a.throws = true) : s'.acceptor = .aborted := by
  cases a with
  | accept outcome =>
    simp only [next] at step
    split_ifs at step with here
    cases outcome with
    | error e =>
      cases step
      exact unwind_of_joinable e (h.pending (by simp [here, cleaned]))
    | ok client => cases throws
  | shouldStop outcome =>
    simp only [next] at step
    split_ifs at step with here
    cases outcome with
    | error e =>
      cases step
      exact unwind_of_joinable e (h.pending (by simp [here, cleaned]))
    | ok stop => cases throws
  | proceed => cases throws
  | process action => cases throws

theorem next_of_aborted (gone : s.acceptor = .aborted) (a : Action) :
    s.next P server capacity a = none := by
  cases a with
  | accept outcome => simp only [next, gone, reduceCtorEq, if_false]
  | shouldStop outcome => simp only [next, gone, reduceCtorEq, if_false]
  | proceed => simp only [next, gone]
  | process action =>
    simp only [next, gone, ne_eq, not_true_eq_false, false_and, if_false]

/-- A run in which nothing is thrown keeps the invariant, any other one ends with the process. -/
theorem run_cases {actions : List Action} (h : StartInv s)
    (hrun : run (next P server capacity) s actions = some s') :
    ((∀ a ∈ actions, a.throws = false) ∧ StartInv s') ∨
      ((∃ a ∈ actions, a.throws = true) ∧ s'.acceptor = .aborted) := by
  induction actions generalizing s with
  | nil =>
    obtain rfl : s = s' := Option.some.inj hrun
    exact Or.inl ⟨fun a hmem => absurd hmem List.not_mem_nil, h⟩
  | cons a actions ih =>
    obtain ⟨t, step, rest⟩ := Option.bind_eq_some_iff.mp hrun
    cases throws : a.throws with
    | true =>
      right
      have gone := aborted_of_throws h step throws
      refine ⟨⟨a, List.mem_cons_self, throws⟩, ?_⟩
      -- nothing can follow
      cases actions with
      | nil =>
        obtain rfl : t = s' := Option.some.inj rest
        exact gone
      | cons b actions =>
        obtain ⟨u, later, -⟩ := Option.bind_eq_some_iff.mp rest
        rw [next_of_aborted gone] at later
        cases later
    | false =>
      cases ih (startInv_step h step throws) rest with
      | inl quiet => exact Or.inl ⟨List.forall_mem_cons.mpr ⟨throws, quiet.1⟩, quiet.2⟩
      | inr thrown =>
        obtain ⟨⟨b, hmem, hb⟩, gone⟩ := thrown
        exact Or.inr ⟨⟨b, List.mem_cons_of_mem a hmem, hb⟩, gone⟩

/-- Either server throws exactly when the system call fails; a failed handshake is a client. -/
theorem accept_throws_iff (clientFd errno acceptRet : ℤ) :
    ((Action.accept (PlainServer.accept clientFd errno)).throws = true ↔ clientFd < 0) ∧
      ((Action.accept (SSLServer.accept clientFd errno acceptRet)).throws = true ↔
        clientFd < 0) := by
  constructor
  · rw [PlainServer.accept]
    split_ifs with failed
    · exact iff_of_true rfl failed
    · exact iff_of_false Bool.false_ne_true failed
  · rw [SSLServer.accept]
    split_ifs with failed handshake
    · exact iff_of_true rfl failed
    · exact iff_of_false Bool.false_ne_true failed
    · exact iff_of_false Bool.false_ne_true failed

/-- However the threads are interleaved, `start` is left cleanly exactly when nothing is thrown by
a call of `accept` or of `shouldStop`. -/
theorem exitClean_iff (P : Platform) (server : HttpServer ρ) (capacity : ℕ)
    (actions : List Action) (s : Start) (hrun : run (next P server capacity) {} actions = some s) :
    s.ExitClean ↔ ∀ a ∈ actions, a.throws = false := by
  cases run_cases startInv_initial hrun with
  | inl quiet => exact ⟨fun _ => quiet.1, fun _ => quiet.2.exitClean⟩
  | inr thrown =>
    obtain ⟨⟨a, hmem, throws⟩, gone⟩ := thrown
    constructor
    · intro clean
      exact absurd gone clean.1
    · intro quiet
      rw [quiet a hmem] at throws
      cases throws

/-- One client is accepted and tracked, and the server is told to stop. -/
def oneClient : List Action :=
  [.accept (PlainServer.accept 5 0), .proceed, .process (.serve (.epollWait [.newPipe])),
    .process (.serve .handle), .process (.serve .drain), .process (.serve .drain),
    .shouldStop (.ok true), .proceed, .process (.serve (.epollWait [.newPipe])),
    .process (.serve .handle), .process .destroyConnections, .process .joinWorkers,
    .proceed, .proceed, .proceed, .proceed]

theorem exitClean_iff_oneClient :
    ∃ s : Start, s.acceptor = .left none ∧
      (s.ExitClean ↔ ∀ a ∈ oneClient, a.throws = false) := by
  have ends : (run (next Platform.newestFirst emptyServer 65536) {} oneClient).any
      (fun s => s.acceptor = .left none) = true := by decide +kernel
  obtain ⟨s, hrun, left⟩ := (Option.any_eq_true _ _).mp ends
  exact ⟨s, of_decide_eq_true left,
    exitClean_iff Platform.newestFirst emptyServer 65536 oneClient s hrun⟩

/-- Out of descriptors after the first client: the process is aborted. -/
theorem not_exitClean_of_emfile :
    ∃ s, run (next Platform.newestFirst emptyServer 65536) {}
        [.accept (PlainServer.accept 5 0), .proceed, .shouldStop (.ok false),
          .accept (PlainServer.accept (-1) EMFILE)] = some s ∧
      s.acceptor = .aborted ∧ ¬ s.ExitClean := by
  have ends : (run (next Platform.newestFirst emptyServer 65536) {}
      [.accept (PlainServer.accept 5 0), .proceed, .shouldStop (.ok false),
        .accept (PlainServer.accept (-1) EMFILE)]).any
      (fun s => s.acceptor = .aborted) = true := by decide +kernel
  obtain ⟨s, hrun, gone⟩ := (Option.any_eq_true _ _).mp ends
  have gone := of_decide_eq_true gone
  exact ⟨s, hrun, gone, fun clean => clean.1 gone⟩

end HttpServer.Start

end Lightning
