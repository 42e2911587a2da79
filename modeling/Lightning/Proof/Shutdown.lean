import Lightning.Proof.Start
import Lightning.Proof.Settling

/-!
# `start` returns after it was told to stop

Once the loop of `start` is left, what is to be done can only shrink while the peers are calm
(`remaining`): the manager finds its pipe closed and returns, its connections go, the workers finish
their tasks and are joined, and the ends of the pipes are closed. None of the threads involved waits
for something that never comes (`left_of_stuck`), so `start` returns (`shutdown_completes`).
-/

namespace Lightning

open Transition

namespace World

open NonblockingClientManagerTask

variable {ρ : Type} [RegexEngine ρ] {P : Platform} {server : HttpServer ρ} {capacity : ℕ}
  {w w' : World} {a : Action} {workers : ℕ}

omit [RegexEngine ρ] in
/-- What the workers rely on does not depend on the manager. -/
theorem WorkInv.congr (inv : WorkInv server w) (tasks : w'.tasks = w.tasks)
    (running : w'.running = w.running) (accepted : w'.accepted = w.accepted)
    (writing : w'.returnChannel.writing = w.returnChannel.writing) : WorkInv server w' where
  waiting := by
    rw [tasks, accepted]
    exact inv.waiting
  running := by
    rw [running, accepted]
    exact inv.running
  idle := by
    rw [running, writing]
    exact inv.idle
  worker := by
    refine ⟨?_, ?_⟩
    · rw [running]
      exact inv.worker.busy
    · rw [writing]
      exact inv.worker.writing

/-- The steps that go on without the manager keep it. -/
theorem workInv_outlives (inv : WorkInv server w) (outlives : Process.outlivesManager a = true)
    (step : w.next P server capacity a = some w') : WorkInv server w' := by
  have worker := workerInv_step inv.worker step
  cases takes_of_next step with
  | arrive | foresee | ciphertext | outcome => exact ⟨inv.waiting, inv.running, inv.idle, worker⟩
  | notifyReturn i pending =>
    refine ⟨inv.waiting, inv.running, fun j task busy => ?_, worker⟩
    have before := inv.idle j task busy
    simp only [FdChannel.writeByte, Function.update_apply]
    split_ifs
    · rfl
    · exact before
  | take i task tasks free idle first =>
    have known (other : Task) (member : other ∈ task :: tasks) : other.client < w.accepted :=
      inv.waiting other (first ▸ member)
    have taken (j : ℕ) (other : Task) (busy : (w.running.insert i task).lookup j = some other) :
        other.client < w.accepted ∧ w.returnChannel.writing j = false := by
      by_cases same : j = i
      · rw [same, AList.lookup_insert] at busy
        rw [same, ← Option.some.inj busy]
        exact ⟨known task List.mem_cons_self, idle⟩
      · rw [AList.lookup_insert_ne same] at busy
        exact ⟨inv.running j other busy, inv.idle j other busy⟩
    exact ⟨fun other member => known other (List.mem_cons_of_mem _ member),
      fun j other busy => (taken j other busy).1, fun j other busy => (taken j other busy).2,
      worker⟩
  | call i task keepAlive busy enqueued =>
    have left (j : ℕ) (other : Task) (busy' : (w.running.erase i).lookup j = some other) :
        j ≠ i ∧ w.running.lookup j = some other := by
      have different : j ≠ i := by
        rintro rfl
        rw [AList.lookup_erase] at busy'
        cases busy'
      rw [AList.lookup_erase_ne different] at busy'
      exact ⟨different, busy'⟩
    refine ⟨inv.waiting, fun j other busy' => ?_, fun j other busy' => ?_, worker⟩
    · exact inv.running j other (left j other busy').2
    · obtain ⟨different, before⟩ := left j other busy'
      simp only [FdChannel.enqueue, Function.update_of_ne different]
      exact inv.idle j other before
  | accept | notifyNew | shutdown | epollWait | newPipe | returnPipe | client | drainNew |
    drainReturn => cases outlives

/-- Only the acceptor writes to the new-client channel or closes it, or accepts. -/
theorem acceptor_frame (step : Takes P server capacity w a w')
    (other : HttpServer.Start.ofOtherThread (.serve a) = true) :
    w'.newFdChannel.writing = w.newFdChannel.writing ∧
      w'.newFdChannel.writeOpen = w.newFdChannel.writeOpen ∧ w'.accepted = w.accepted := by
  cases step with
  | accept | notifyNew | shutdown => cases other
  | newPipe batch idle first =>
    obtain ⟨writing, isOpen⟩ := onReadable_writing true w.newFdChannel
    exact ⟨writing, isOpen, rfl⟩
  | client fd hangup batch w' idle first handled =>
    rw [(handleClientEvent_channels handled).1]
    exact ⟨rfl, rfl, (handleClientEvent_keeps handled).1⟩
  | drainNew draining =>
    obtain ⟨interest, connections, after⟩ := drainNewFdChannel_frame w
    obtain ⟨writing, isOpen⟩ := tryDequeue_writing w.newFdChannel
    rw [after]
    exact ⟨writing, isOpen, rfl⟩
  | drainReturn draining =>
    obtain ⟨interest, connections, closed, fdOpen, after⟩ := drainReturnChannel_frame w
    rw [after]
    exact ⟨rfl, rfl, rfl⟩
  | arrive | foresee | ciphertext | outcome | epollWait | returnPipe | take | call | notifyReturn =>
    exact ⟨rfl, rfl, rfl⟩

theorem accept_effect {fd : ℕ} {transport : Transport}
    (step : Takes P server capacity w (.accept fd transport) w') :
    w'.newFdChannel.writing () = true ∧ w'.newFdChannel.writeOpen = true ∧ 0 < w'.accepted := by
  cases step with
  | accept fd transport idle isOpen unused =>
    exact ⟨by simp [FdChannel.enqueue], isOpen, Nat.succ_pos _⟩

theorem notifyNew_effect (step : Takes P server capacity w .notifyNew w') :
    w'.newFdChannel.writing () = false ∧
      w'.newFdChannel.writeOpen = w.newFdChannel.writeOpen ∧ w'.accepted = w.accepted := by
  cases step with
  | notifyNew pending => exact ⟨by simp [FdChannel.writeByte], rfl, rfl⟩

theorem shutdown_effect (step : Takes P server capacity w .shutdown w') :
    w.newFdChannel.writing () = false ∧
      w' = { w with newFdChannel := w.newFdChannel.closeWrite } := by
  cases step with
  | shutdown idle => exact ⟨idle, rfl⟩

end World

namespace Process

open World

variable {ρ : Type} [RegexEngine ρ] {P : Platform} {server : HttpServer ρ} {capacity : ℕ}
  {p p' : Process} {a : Action}

/-- The manager runs on states of the server that are reachable, and what it leaves to the workers
is in order; the `HttpServer` is there. -/
structure ManagedInv (P : Platform) (server : HttpServer ρ) (capacity : ℕ) (p : Process) :
    Prop where
  kept : p.phase ≠ .destroyed
  managed : p.world.newFdChannel.reader ≠ .returned → p.phase = .running ∧
    Reachable World.Initial (World.Step P server capacity) p.world
  returned : p.world.newFdChannel.reader = .returned → p.world.newFdChannel.writeOpen = false
  work : WorkInv server p.world
  finished : p.phase = .joined → workersDone server p.world = true

theorem managedInv_initial : ManagedInv P server capacity {} where
  kept := by decide
  managed _ := ⟨rfl, .start rfl⟩
  returned h := nomatch h
  work := ⟨nofun, nofun, nofun, ⟨nofun, nofun⟩⟩
  finished h := nomatch h

omit [RegexEngine ρ] in
/-- Workers without tasks and without anything to write are done. -/
theorem workersDone_of_idle {w : World} (tasks : w.tasks = [])
    (running : ∀ i, w.running.lookup i = none) (writing : ∀ i, w.returnChannel.writing i = false) :
    workersDone server w = true := by
  have noHandler : w.running.entries = [] := by
    apply List.eq_nil_iff_forall_not_mem.mpr
    intro e member
    have busy := AList.mem_lookup_iff.mpr member
    rw [running] at busy
    cases busy
  simp [workersDone, tasks, noHandler, writing]

theorem close_phase (c : ClientId) (p : Process) : (p.close c).phase = p.phase := by
  unfold close
  cases (p.world.stream c).transport with
  | plain => rfl
  | ssl =>
    dsimp only
    split_ifs <;> rfl

theorem destroy_phase (c : ClientId) (p : Process) : (p.destroy c).phase = p.phase := by
  unfold destroy
  dsimp only
  cases (p.world.stream c).transport with
  | plain => rfl
  | ssl =>
    dsimp only
    unfold sslObjectDeleter
    split_ifs <;> rfl

/-- A step of the server is one of its `World`, whatever happens to a client that it drops. -/
theorem serve_world {a : Lightning.Action} (step : p.next P server capacity (.serve a) = some p') :
    (p.phase = .running ∨ p.phase = .stopping) ∧
      p.nextWorld P server capacity a = some p'.world ∧ p'.phase = p.phase := by
  cases moves_of_next step with
  | serve a w live taken nobody => exact ⟨live, taken, rfl⟩
  | drop a w c live taken dropped =>
    refine ⟨live, ?_, ?_⟩
    · rw [(destroy_frame c _).1, (close_frame c _).1]
      exact taken
    · rw [destroy_phase, close_phase]

theorem nextWorld_cases {a : Lightning.Action} {w : World}
    (step : p.nextWorld P server capacity a = some w) :
    (p.world.newFdChannel.reader ≠ .returned ∧ p.world.next P server capacity a = some w) ∨
      (p.world.newFdChannel.reader = .returned ∧ outlivesManager a = true ∧
        ∃ w', (resumed p.world).next P server capacity a = some w' ∧
          w = { w' with newFdChannel := p.world.newFdChannel }) := by
  unfold nextWorld at step
  split_ifs at step with returned outlives
  · obtain ⟨w', taken, rfl⟩ := Option.map_eq_some_iff.mp step
    exact Or.inr ⟨returned, outlives, w', taken, rfl⟩
  · exact Or.inl ⟨returned, step⟩

theorem managedInv_serve (pos : 0 < capacity) (inv : ManagedInv P server capacity p)
    {a : Lightning.Action} (step : p.next P server capacity (.serve a) = some p') :
    ManagedInv P server capacity p' := by
  obtain ⟨live, taken, phase⟩ := serve_world step
  have notJoined : p'.phase ≠ .joined := by
    rw [phase]
    rcases live with running | stopping
    · simp [running]
    · simp [stopping]
  refine ⟨phase ▸ inv.kept, ?_, ?_, ?_, fun joined => absurd joined notJoined⟩
  all_goals rcases nextWorld_cases taken with ⟨runs, step⟩ | ⟨returned, outlives, w, step, after⟩
  · obtain ⟨running, reachable⟩ := inv.managed runs
    exact fun _ => ⟨phase.trans running, reachable.next step⟩
  · intro runs
    rw [after] at runs
    exact absurd returned runs
  · have reachable := (inv.managed runs).2.next step
    exact fun ends => ((FdChannel.inv_reachable pos (newFdChannel_reachable reachable)).returned
      ends).1
  · intro ends
    rw [after]
    exact inv.returned returned
  · exact workInv_reachable ((inv.managed runs).2.next step)
  · have before : WorkInv server (resumed p.world) := inv.work.congr rfl rfl rfl rfl
    rw [after]
    exact (workInv_outlives before outlives step).congr rfl rfl rfl rfl

theorem destroyConnections_effect
    (step : p.next P server capacity .destroyConnections = some p') :
    p.phase = .running ∧ p.world.newFdChannel.reader = .returned ∧ p'.phase = .stopping ∧
      p'.world = { p.world with connections := ∅ } := by
  simp only [next] at step
  split_ifs at step with ready
  cases step
  have world := (destroyAll_frame (p.world.connections.entries.map Sigma.snd) p).1
  exact ⟨ready.1, ready.2, rfl, by rw [world]⟩

theorem joinWorkers_effect (step : p.next P server capacity .joinWorkers = some p') :
    p.phase = .stopping ∧ workersDone server p.world = true ∧
      p' = { p with phase := .joined } := by
  simp only [next] at step
  split_ifs at step with ready
  exact ⟨ready.1, ready.2, (Option.some.inj step).symm⟩

/-- What OpenSSL notes about a client changes nothing else. -/
theorem mark_effect {c : ClientId} (mark : a = .handshake c ∨ a = .alert c)
    (step : p.next P server capacity a = some p') : p'.world = p.world ∧ p'.phase = p.phase := by
  rcases mark with rfl | rfl
  all_goals
    simp only [next] at step
    split_ifs at step
    cases step
    exact ⟨rfl, rfl⟩

theorem ManagedInv.congr (inv : ManagedInv P server capacity p) (world : p'.world = p.world)
    (phase : p'.phase = p.phase) : ManagedInv P server capacity p' where
  kept := phase ▸ inv.kept
  managed := by
    rw [world, phase]
    exact inv.managed
  returned := by
    rw [world]
    exact inv.returned
  work := world ▸ inv.work
  finished := by
    rw [world, phase]
    exact inv.finished

theorem managedInv_step (pos : 0 < capacity) (inv : ManagedInv P server capacity p)
    (step : p.next P server capacity a = some p') (kept : a ≠ .destroyChannels) :
    ManagedInv P server capacity p' := by
  cases a with
  | serve a => exact managedInv_serve pos inv step
  | handshake c =>
    obtain ⟨world, phase⟩ := mark_effect (Or.inl rfl) step
    exact inv.congr world phase
  | alert c =>
    obtain ⟨world, phase⟩ := mark_effect (Or.inr rfl) step
    exact inv.congr world phase
  | destroyConnections =>
    obtain ⟨-, returned, phase, world⟩ := destroyConnections_effect step
    refine ⟨by simp [phase], ?_, ?_, ?_, by simp [phase]⟩
    · rw [world]
      exact fun runs => absurd returned runs
    · rw [world]
      exact inv.returned
    · rw [world]
      exact inv.work.congr rfl rfl rfl rfl
  | joinWorkers =>
    obtain ⟨stopping, done, rfl⟩ := joinWorkers_effect step
    refine ⟨by simp, fun runs => ?_, inv.returned, inv.work, fun _ => done⟩
    have running := (inv.managed runs).1
    rw [stopping] at running
    cases running
  | destroyChannels => exact absurd rfl kept

theorem world_frame (step : p.next P server capacity a = some p')
    (other : HttpServer.Start.ofOtherThread a = true) :
    p'.world.newFdChannel.writing = p.world.newFdChannel.writing ∧
      p'.world.newFdChannel.writeOpen = p.world.newFdChannel.writeOpen ∧
      p'.world.accepted = p.world.accepted := by
  cases a with
  | serve a =>
    obtain ⟨-, taken, -⟩ := serve_world step
    rcases nextWorld_cases taken with ⟨runs, step⟩ | ⟨returned, outlives, w, step, after⟩
    · exact acceptor_frame (takes_of_next step) other
    · rw [after]
      exact ⟨rfl, rfl, (acceptor_frame (takes_of_next step) other).2.2⟩
  | handshake c =>
    rw [(mark_effect (Or.inl rfl) step).1]
    exact ⟨rfl, rfl, rfl⟩
  | alert c =>
    rw [(mark_effect (Or.inr rfl) step).1]
    exact ⟨rfl, rfl, rfl⟩
  | destroyConnections =>
    rw [(destroyConnections_effect step).2.2.2]
    exact ⟨rfl, rfl, rfl⟩
  | joinWorkers =>
    rw [(joinWorkers_effect step).2.2]
    exact ⟨rfl, rfl, rfl⟩
  | destroyChannels => cases other

/-- The steps of the acceptor are steps of the `World` that the manager still runs. -/
theorem takes_of_acceptor {a : Lightning.Action}
    (step : p.next P server capacity (.serve a) = some p')
    (own : HttpServer.Start.ofOtherThread (.serve a) = false) :
    Takes P server capacity p.world a p'.world := by
  obtain ⟨-, taken, -⟩ := serve_world step
  rcases nextWorld_cases taken with ⟨runs, step⟩ | ⟨returned, outlives, w, step, after⟩
  · exact takes_of_next step
  · cases a <;> simp [outlivesManager, HttpServer.Start.ofOtherThread] at outlives own

end Process

namespace HttpServer.Start

open World

variable {ρ : Type} [RegexEngine ρ] {P : Platform} {server : HttpServer ρ} {capacity : ℕ}
  {s s' : Start} {a : Action}

/-- What holds in a run of `start` in which nothing is thrown. -/
structure LiveInv (P : Platform) (server : HttpServer ρ) (capacity : ℕ) (s : Start) : Prop where
  start : StartInv s
  process : s.process.ManagedInv P server capacity
  normal : ∀ e, s.acceptor ≠ .left (some e)
  announced : s.process.world.newFdChannel.writing () = true ↔ s.acceptor = .write
  isOpen : cleaned s.acceptor = 0 → s.process.world.newFdChannel.writeOpen = true
  begun : s.acceptor ≠ .accept → 0 < s.process.world.accepted

theorem liveInv_initial : LiveInv P server capacity {} where
  start := startInv_initial
  process := Process.managedInv_initial
  normal := by simp
  announced := by simp
  isOpen _ := rfl
  begun h := absurd rfl h

theorem liveInv_process (pos : 0 < capacity) (inv : LiveInv P server capacity s)
    {action : Process.Action} {p : Process}
    (step : s.process.next P server capacity action = some p)
    (other : ofOtherThread action = true) : LiveInv P server capacity { s with process := p } := by
  obtain ⟨writing, isOpen, accepted⟩ := Process.world_frame step other
  have kept : action ≠ .destroyChannels := by
    rintro rfl
    cases other
  refine ⟨startInv_process inv.start step other, Process.managedInv_step pos inv.process step kept,
    inv.normal, ?_, ?_, ?_⟩
  · rw [writing]
    exact inv.announced
  · rw [isOpen]
    exact inv.isOpen
  · rw [accepted]
    exact inv.begun

theorem liveInv_proceed (pos : 0 < capacity) (inv : LiveInv P server capacity s)
    (step : s.next P server capacity .proceed = some s') : LiveInv P server capacity s' := by
  have start := startInv_proceed inv.start step
  simp only [next] at step
  cases here : s.acceptor with
  | write =>
    rw [here] at step
    obtain ⟨p, taken, rfl⟩ := serve_spec step
    have process := Process.managedInv_step pos inv.process taken (by simp)
    obtain ⟨writing, isOpen, accepted⟩ := notifyNew_effect (Process.takes_of_acceptor taken rfl)
    refine ⟨start, process, by simp, by simp [writing], fun _ => ?_, fun _ => ?_⟩
    · exact isOpen.trans (inv.isOpen (by simp [here, cleaned]))
    · exact (inv.begun (by simp [here])).trans_eq accepted.symm
  | closeNewWrite =>
    rw [here] at step
    obtain ⟨p, taken, rfl⟩ := serve_spec step
    have process := Process.managedInv_step pos inv.process taken (by simp)
    obtain ⟨writing, after⟩ := shutdown_effect (Process.takes_of_acceptor taken rfl)
    refine ⟨start, process, by simp, ?_, by simp [cleaned], fun _ => ?_⟩
    · rw [after]
      simp [FdChannel.closeWrite, writing]
    · rw [after]
      exact inv.begun (by simp [here])
  | join =>
    rw [here] at step
    dsimp only at step
    split_ifs at step
    cases step
    exact ⟨start, inv.process, by simp, by simp [inv.announced, here], by simp [cleaned],
      fun _ => inv.begun (by simp [here])⟩
  | closeNewRead =>
    rw [here] at step
    cases step
    exact ⟨start, inv.process, by simp, by simp [inv.announced, here], by simp [cleaned],
      fun _ => inv.begun (by simp [here])⟩
  | closeReturnRead =>
    rw [here] at step
    cases step
    exact ⟨start, inv.process, by simp, by simp [inv.announced, here], by simp [cleaned],
      fun _ => inv.begun (by simp [here])⟩
  | closeReturnWrite =>
    rw [here] at step
    cases step
    have joined := (inv.start.joined (by simp [here, cleaned])).2
    have returned : s.process.world.newFdChannel.reader = .returned := by
      by_contra runs
      have running := (inv.process.managed runs).1
      rw [joined] at running
      cases running
    have quiet : s.process.world.newFdChannel.writing () = false := by
      simpa [here] using inv.announced
    refine ⟨start, ⟨inv.process.kept, fun runs => absurd returned runs, inv.process.returned,
      inv.process.work.congr rfl rfl rfl rfl, fun _ => ?_⟩, by simp, ?_, by simp [cleaned],
      fun _ => inv.begun (by simp [here])⟩
    · exact inv.process.finished joined
    · simp [closeReturnWrite, quiet]
  | accept =>
    rw [here] at step
    cases step
  | shouldStop =>
    rw [here] at step
    cases step
  | left thrown =>
    rw [here] at step
    cases step
  | aborted =>
    rw [here] at step
    cases step

theorem liveInv_step (pos : 0 < capacity) (inv : LiveInv P server capacity s)
    (step : s.next P server capacity a = some s') (quiet : a.throws = false) :
    LiveInv P server capacity s' := by
  have start := startInv_step inv.start step quiet
  cases a with
  | accept outcome =>
    simp only [next] at step
    split_ifs at step with here
    cases outcome with
    | error e => cases quiet
    | ok client =>
      obtain ⟨p, taken, rfl⟩ := serve_spec step
      have process := Process.managedInv_step pos inv.process taken (by simp)
      obtain ⟨writing, isOpen, accepted⟩ := accept_effect (Process.takes_of_acceptor taken rfl)
      exact ⟨start, process, by simp, by simp [writing], fun _ => isOpen, fun _ => accepted⟩
  | shouldStop outcome =>
    simp only [next] at step
    split_ifs at step with here
    cases outcome with
    | error e => cases quiet
    | ok stop =>
      cases step
      have isOpen := inv.isOpen (by simp [here, cleaned])
      have begun := inv.begun (by simp [here])
      have announced := inv.announced
      cases stop with
      | true => exact ⟨start, inv.process, by simp, by simp [announced, here], fun _ => isOpen,
          fun _ => begun⟩
      | false => exact ⟨start, inv.process, by simp, by simp [announced, here], fun _ => isOpen,
          fun _ => begun⟩
  | proceed => exact liveInv_proceed pos inv step
  | process action =>
    simp only [next] at step
    split_ifs at step with ready
    obtain ⟨p, taken, rfl⟩ := Option.map_eq_some_iff.mp step
    exact liveInv_process pos inv taken ready.2

theorem liveInv_run (pos : 0 < capacity) {actions : List Action}
    (inv : LiveInv P server capacity s) (quiet : ∀ a ∈ actions, a.throws = false)
    (hrun : run (next P server capacity) s actions = some s') : LiveInv P server capacity s' := by
  induction actions generalizing s with
  | nil =>
    obtain rfl : s = s' := Option.some.inj hrun
    exact inv
  | cons a actions ih =>
    obtain ⟨t, step, rest⟩ := Option.bind_eq_some_iff.mp hrun
    have first := liveInv_step pos inv step (quiet a List.mem_cons_self)
    exact ih first (fun b member => quiet b (List.mem_cons_of_mem a member)) rest

/-! ## What is left to be done -/

/-- `shouldStop` has told `start` to stop. -/
def Told (s : Start) : Prop := s.acceptor ≠ .accept ∧ s.acceptor ≠ .write ∧ s.acceptor ≠ .shouldStop

/-- The steps that need nothing from a peer, and the calls of the cleanup. -/
def Action.own : Action → Bool
  | .proceed => true
  | .process (.serve a) => a.internal
  | .process .destroyConnections | .process .joinWorkers => true
  | .accept _ | .shouldStop _ | .process (.handshake _) | .process (.alert _) |
    .process .destroyChannels => false

/-- The manager forgets the rest of its batch when it returns. -/
def managerLoad : ReaderState → ℕ
  | .idle | .draining => 65
  | .returned => 0

def phaseLoad : Phase → ℕ
  | .running => 2
  | .stopping => 1
  | .joined | .destroyed => 0

/-- How many steps the threads can still take while the peers are calm. -/
def remaining (workers : ℕ) (s : Start) : ℕ :=
  s.process.world.work workers + managerLoad s.process.world.newFdChannel.reader +
    phaseLoad s.process.phase + (5 - cleaned s.acceptor)

omit [RegexEngine ρ] in
theorem work_forget (w : World) (workers : ℕ) :
    ({ w with connections := ∅ } : World).work workers ≤ w.work workers := by
  have none : (∅ : UnorderedMap ℕ ClientId).countValues (fun _ => true) = 0 := rfl
  simp only [work, chores, none]
  omega

structure Stopping (P : Platform) (server : HttpServer ρ) (capacity : ℕ) (s : Start) : Prop where
  live : LiveInv P server capacity s
  told : s.Told
  calm : s.process.world.Calm

theorem managerLoad_le (reader : ReaderState) : managerLoad reader ≤ 65 := by
  cases reader <;> simp [managerLoad]

theorem managerLoad_of_runs {reader : ReaderState} (runs : reader ≠ .returned) :
    managerLoad reader = 65 := by
  cases reader with
  | idle | draining => rfl
  | returned => exact absurd rfl runs

/-- A step of the server lowers what is left of its work, also when the manager returns and when
the workers go on without it. -/
theorem serve_lowers {p p' : Process} (inv : p.ManagedInv P server capacity)
    (calm : p.world.Calm) {a : Lightning.Action} (internal : a.internal = true)
    (step : p.next P server capacity (.serve a) = some p') :
    p'.world.Calm ∧ p'.phase = p.phase ∧
      p'.world.work server.threadCount.toNat + managerLoad p'.world.newFdChannel.reader <
        p.world.work server.threadCount.toNat + managerLoad p.world.newFdChannel.reader := by
  obtain ⟨-, taken, phase⟩ := Process.serve_world step
  rcases Process.nextWorld_cases taken with ⟨runs, step⟩ | ⟨returned, outlives, w, step, after⟩
  · obtain ⟨calm', -, advances⟩ := advances_of_internal (inv.managed runs).2 calm internal step
    refine ⟨calm', phase, ?_⟩
    rw [managerLoad_of_runs runs]
    rcases advances with proceeds | returns
    · have less := proceeds.work_lt
      have load := managerLoad_le p'.world.newFdChannel.reader
      omega
    · rw [returns.reader, managerLoad, work, work, returns.same, returns.batch,
        if_neg (List.cons_ne_nil _ _), List.length_cons]
      split_ifs
      · omega
      · omega
  · have byWorker : ofWorker a = true := by
      cases a <;> simp [Process.outlivesManager, Action.internal, ofWorker] at outlives internal ⊢
    have channel := (Process.newFdChannel_of_outlives outlives step).1
    have sameLoad : load {()} (Process.resumed p.world).newFdChannel =
        load {()} p.world.newFdChannel := by
      simp [load, Process.resumed, returned, readerLoad]
    have before : WorkInv server (Process.resumed p.world) := inv.work.congr rfl rfl rfl rfl
    obtain ⟨calm', batch, less⟩ := chores_worker before calm byWorker step
    have sameReader : p'.world.newFdChannel.reader = p.world.newFdChannel.reader := by rw [after]
    have sameBatch : p'.world.batch = p.world.batch := by
      rw [after]
      exact batch
    have fewer : p'.world.chores server.threadCount.toNat <
        p.world.chores server.threadCount.toNat := by
      rw [after]
      simp only [chores, channel, sameLoad] at less ⊢
      exact less
    have lower := (Proceeds.chore sameBatch fewer).work_lt
    refine ⟨by rw [after]; exact calm', phase, ?_⟩
    rw [sameReader]
    omega

theorem stopping_of_own (pos : 0 < capacity) (h : Stopping P server capacity s)
    (own : a.own = true) (step : s.next P server capacity a = some s') :
    Stopping P server capacity s' ∧
      s'.remaining server.threadCount.toNat < s.remaining server.threadCount.toNat := by
  have quiet : a.throws = false := by
    cases a <;> simp [Action.own, Action.throws] at own ⊢
  have live := liveInv_step pos h.live step quiet
  cases a with
  | accept | shouldStop => cases own
  | proceed =>
    simp only [next] at step
    cases here : s.acceptor with
    | closeNewWrite =>
      rw [here] at step
      obtain ⟨p, taken, rfl⟩ := serve_spec step
      obtain ⟨-, after⟩ := shutdown_effect (Process.takes_of_acceptor taken rfl)
      obtain ⟨-, -, phase⟩ := Process.serve_world taken
      refine ⟨⟨live, by simp [Told], by rw [after]; exact h.calm⟩, ?_⟩
      have same : p.world.work server.threadCount.toNat =
          s.process.world.work server.threadCount.toNat := by
        rw [after]
        rfl
      have reader : p.world.newFdChannel.reader = s.process.world.newFdChannel.reader := by
        rw [after]
        rfl
      simp only [remaining, same, reader, phase, here, cleaned]
      omega
    | join =>
      rw [here] at step
      dsimp only at step
      split_ifs at step
      cases step
      refine ⟨⟨live, by simp [Told], h.calm⟩, ?_⟩
      simp only [remaining, here, cleaned]
      omega
    | closeNewRead =>
      rw [here] at step
      cases step
      refine ⟨⟨live, by simp [Told], h.calm⟩, ?_⟩
      simp only [remaining, here, cleaned]
      omega
    | closeReturnRead =>
      rw [here] at step
      cases step
      refine ⟨⟨live, by simp [Told], h.calm⟩, ?_⟩
      simp only [remaining, here, cleaned]
      omega
    | closeReturnWrite =>
      rw [here] at step
      cases step
      refine ⟨⟨live, by simp [Told], h.calm⟩, ?_⟩
      have same : (closeReturnWrite s.process).world.work server.threadCount.toNat =
          s.process.world.work server.threadCount.toNat := rfl
      simp only [remaining, same, here, cleaned]
      simp only [closeReturnWrite]
      omega
    | write => exact absurd here h.told.2.1
    | accept | shouldStop | left | aborted =>
      rw [here] at step
      cases step
  | process action =>
    simp only [next] at step
    split_ifs at step with ready
    obtain ⟨p, taken, rfl⟩ := Option.map_eq_some_iff.mp step
    cases action with
    | serve a =>
      obtain ⟨calm, phase, lower⟩ := serve_lowers h.live.process h.calm own taken
      refine ⟨⟨live, h.told, calm⟩, ?_⟩
      simp only [remaining, phase]
      omega
    | destroyConnections =>
      obtain ⟨running, -, phase, world⟩ := Process.destroyConnections_effect taken
      have fewer := work_forget s.process.world server.threadCount.toNat
      refine ⟨⟨live, h.told, by rw [world]; exact h.calm⟩, ?_⟩
      simp only [remaining, world, running, phase, phaseLoad]
      omega
    | joinWorkers =>
      obtain ⟨stopping, -, rfl⟩ := Process.joinWorkers_effect taken
      refine ⟨⟨live, h.told, h.calm⟩, ?_⟩
      simp only [remaining, stopping, phaseLoad]
      omega
    | handshake | alert | destroyChannels => cases own

theorem lowers_remaining (pos : 0 < capacity) :
    Lowers (next P server capacity) (fun a => a.own = true) (Stopping P server capacity)
      (remaining server.threadCount.toNat) where
  keeps _ _ _ h own step := (stopping_of_own pos h own step).1
  lowers _ _ _ h own step := (stopping_of_own pos h own step).2

/-! ## Nobody waits for ever -/

/-- No step is possible of the threads that are to end. -/
def Stuck (P : Platform) (server : HttpServer ρ) (capacity : ℕ) (s : Start) : Prop :=
  ∀ a : Action, a.own = true → s.next P server capacity a = none

/-- Where `start` waits for the manager, no step of it is possible. -/
theorem stuck_process (stuck : Stuck P server capacity s) (alive : s.acceptor ≠ .aborted)
    {action : Process.Action} (own : Action.own (.process action) = true)
    (other : ofOtherThread action = true) : s.process.next P server capacity action = none := by
  have nothing := stuck (.process action) own
  simpa [next, alive, other] using nothing

/-- A manager that has nothing to do has returned. -/
theorem returned_of_stuck (pos : 0 < capacity) (h : Stopping P server capacity s)
    (stuck : Stuck P server capacity s) (waits : s.acceptor = .join) :
    s.process.world.newFdChannel.reader = .returned := by
  by_contra runs
  obtain ⟨running, reachable⟩ := h.live.process.managed runs
  have closed := h.live.start.told (by rw [waits, cleaned])
  have quiet : s.process.world.newFdChannel.writing () = false := by
    simpa [waits] using h.live.announced
  have stuckWorld : World.Stuck P server capacity s.process.world := by
    intro a internal
    by_cases other : ofOtherThread (.serve a) = true
    · have nothing : s.process.next P server capacity (.serve a) = none :=
        stuck_process stuck h.live.start.alive internal other
      simpa [Process.next, Process.nextWorld, running, runs] using nothing
    · obtain rfl : a = .notifyNew := by
        cases a <;> simp [ofOtherThread, Lightning.Action.internal] at other internal ⊢
      simp [World.next, quiet]
  have idle := loopIdle_of_stuck pos reachable runs stuckWorld
  have empty := batch_of_stuck runs idle stuckWorld
  have noHangup : Event.newPipe.isHangup = false := rfl
  exact not_stuck_of_ready stuckWorld runs idle empty noHangup
    (by simp [ready, FdChannel.readable, closed])

/-- Once the manager has returned, the thread of the event loop ends. -/
theorem joined_of_stuck (pos : 0 < capacity) (workers : 0 < server.threadCount)
    (h : Stopping P server capacity s) (stuck : Stuck P server capacity s)
    (waits : s.acceptor = .join) : s.process.phase = .joined := by
  have returned := returned_of_stuck pos h stuck waits
  have alive := h.live.start.alive
  cases phase : s.process.phase with
  | running =>
    have nothing : s.process.next P server capacity .destroyConnections = none :=
      stuck_process stuck alive rfl rfl
    simp [Process.next, phase, returned] at nothing
  | stopping =>
    have inv : WorkInv server (Process.resumed s.process.world) :=
      h.live.process.work.congr rfl rfl rfl rfl
    have idle : ∀ a, ofWorker a = true →
        (Process.resumed s.process.world).next P server capacity a = none := by
      intro a byWorker
      have nothing : s.process.next P server capacity (.serve a) = none :=
        stuck_process stuck alive
          (by cases a <;> simp [ofWorker, Action.own, Lightning.Action.internal] at byWorker ⊢)
          (by cases a <;> simp [ofWorker, ofOtherThread] at byWorker ⊢)
      have outlives : Process.outlivesManager a = true := by
        cases a <;> simp [ofWorker, Process.outlivesManager] at byWorker ⊢
      simpa [Process.next, Process.nextWorld, phase, returned, outlives] using nothing
    obtain ⟨tasks, running, writing⟩ := workersIdle_of_stuck workers (by simp [Process.resumed])
      (inv.handlersReturn h.calm) idle
    have done : Process.workersDone server s.process.world = true :=
      Process.workersDone_of_idle tasks running writing
    have nothing : s.process.next P server capacity .joinWorkers = none :=
      stuck_process stuck alive rfl rfl
    simp [Process.next, phase, done] at nothing
  | joined => rfl
  | destroyed => exact absurd phase h.live.process.kept

/-- Of the threads that are to end none waits for ever: where they cannot go on, `start` has
returned. -/
theorem left_of_stuck (pos : 0 < capacity) (workers : 0 < server.threadCount)
    (h : Stopping P server capacity s) (stuck : Stuck P server capacity s) :
    s.acceptor = .left none := by
  have nothing := stuck .proceed rfl
  simp only [next] at nothing
  cases here : s.acceptor with
  | closeNewWrite =>
    have isOpen := h.live.isOpen (by rw [here, cleaned])
    have runs : s.process.world.newFdChannel.reader ≠ .returned := by
      intro returned
      have closed := h.live.process.returned returned
      rw [isOpen] at closed
      cases closed
    have running := (h.live.process.managed runs).1
    have quiet : s.process.world.newFdChannel.writing () = false := by
      simpa [here] using h.live.announced
    have begun := h.live.begun (by simp [here])
    simp [here, serve, Process.next, Process.nextWorld, World.next, running, runs, quiet,
      begun] at nothing
  | join =>
    rw [here] at nothing
    dsimp only at nothing
    rw [if_pos (joined_of_stuck pos workers h stuck here)] at nothing
    cases nothing
  | closeNewRead | closeReturnRead | closeReturnWrite =>
    rw [here] at nothing
    cases nothing
  | left thrown =>
    cases thrown with
    | none => rfl
    | some e => exact absurd here (h.live.normal e)
  | accept => exact absurd here h.told.1
  | write => exact absurd here h.told.2.1
  | shouldStop => exact absurd here h.told.2.2
  | aborted => exact absurd here h.live.start.alive

/-- Nothing is left to do once `start` has returned. -/
theorem stuck_of_left (h : Stopping P server capacity s) (left : s.acceptor = .left none) :
    Stuck P server capacity s := by
  have joined := (h.live.start.joined (by rw [left, cleaned]; decide)).2
  intro a own
  cases a with
  | accept | shouldStop => cases own
  | proceed => simp [next, left]
  | process action =>
    cases action with
    | serve a => simp [next, Process.next, joined]
    | destroyConnections => simp [next, Process.next, joined]
    | joinWorkers => simp [next, Process.next, joined]
    | handshake | alert | destroyChannels => cases own

/-- After `shouldStop` has told it to stop, and as long as no peer does anything, `start` returns:
however the threads go on there are at most `remaining` steps, they can go on until it has returned,
and then everything is cleaned up and every request that was dispatched has had its handler. -/
theorem shutdown_completes (pos : 0 < capacity) (workers : 0 < server.threadCount)
    {actions : List Action} (hrun : run (next P server capacity) {} actions = some s)
    (quiet : ∀ a ∈ actions, a.throws = false) (told : s.Told) (calm : s.process.world.Calm) :
    (∀ as s', (∀ a ∈ as, a.own = true) → run (next P server capacity) s as = some s' →
      as.length ≤ s.remaining server.threadCount.toNat ∧
        (Stuck P server capacity s' ↔ s'.acceptor = .left none)) ∧
    ∃ as s', (∀ a ∈ as, a.own = true) ∧ run (next P server capacity) s as = some s' ∧
      s'.acceptor = .left none ∧ s'.ExitClean ∧
      s'.process.world.tasks = [] ∧ s'.process.world.running.entries = [] := by
  have stopping : Stopping P server capacity s :=
    ⟨liveInv_run pos liveInv_initial quiet hrun, told, calm⟩
  constructor
  · intro as s' own ran
    have bounded := (lowers_remaining pos).length_le stopping own ran
    have stopping' := (lowers_remaining pos).run_keeps stopping own ran
    exact ⟨by omega, left_of_stuck pos workers stopping', stuck_of_left stopping'⟩
  · obtain ⟨as, s', own, ran, stuck⟩ := (lowers_remaining pos).exists_settled stopping
    have stopping' := (lowers_remaining pos).run_keeps stopping own ran
    have left := left_of_stuck pos workers stopping' stuck
    have joined := (stopping'.live.start.joined (by rw [left, cleaned]; decide)).2
    have done := stopping'.live.process.finished joined
    simp only [Process.workersDone, Bool.and_eq_true, List.isEmpty_iff] at done
    exact ⟨as, s', own, ran, left, stopping'.live.start.exitClean, done.1.1, done.1.2⟩

/-- A client was accepted and has sent a request when `start` is told to stop. -/
theorem shutdown_completes_request :
    ∃ s, run (next Platform.newestFirst emptyServer 65536) {}
        [.accept (PlainServer.accept 5 0), .proceed,
          .process (.serve (.arrive 0 ⟨chars "GET / HTTP/1.1\r\n\r\n", false, none⟩)),
          .shouldStop (.ok true)] = some s ∧
      (s.process.world.stream 0).socket.received ≠ [] ∧
      (∀ as s', (∀ a ∈ as, a.own = true) →
        run (next Platform.newestFirst emptyServer 65536) s as = some s' →
        as.length ≤ s.remaining 1 ∧
          (Stuck Platform.newestFirst emptyServer 65536 s' ↔ s'.acceptor = .left none)) ∧
      ∃ as s', (∀ a ∈ as, a.own = true) ∧
        run (next Platform.newestFirst emptyServer 65536) s as = some s' ∧
        s'.acceptor = .left none ∧ s'.ExitClean ∧
        s'.process.world.tasks = [] ∧ s'.process.world.running.entries = [] := by
  have ends : (run (next Platform.newestFirst emptyServer 65536) {}
      [.accept (PlainServer.accept 5 0), .proceed,
        .process (.serve (.arrive 0 ⟨chars "GET / HTTP/1.1\r\n\r\n", false, none⟩)),
        .shouldStop (.ok true)]).any
      (fun s => s.acceptor = .closeNewWrite ∧ s.process.world.accepted = 1 ∧
        s.process.world.stream 0 =
          { socket := { received := chars "GET / HTTP/1.1\r\n\r\n" } }) = true := by
    decide +kernel
  obtain ⟨s, hrun, state⟩ := (Option.any_eq_true _ _).mp ends
  obtain ⟨told, accepted, stream⟩ := of_decide_eq_true state
  refine ⟨s, hrun, by rw [stream]; decide, ?_⟩
  refine shutdown_completes (by decide) (by decide) hrun (by decide) (by simp [Told, told])
    fun c known => ?_
  obtain rfl : c = 0 := by omega
  rw [stream]
  exact ⟨⟨rfl, rfl, rfl, nofun⟩, by decide⟩

end HttpServer.Start

end Lightning
