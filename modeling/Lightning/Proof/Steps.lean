import Lightning.NonblockingClientManagerTask
import Lightning.Proof.Channel

/-!
# The steps of the server

`Takes` says what each step does and under which conditions; `takes_of_next` derives it from the
executable `next` once, and every invariant is a case analysis of `Takes`. Seen from one of the two
channels a run of the server is a run of that channel (`newFdChannel_reachable`,
`returnChannel_reachable`), so that no wake-up is lost on them.
-/

namespace Lightning.World

open NonblockingClientManagerTask Transition

variable {ρ : Type} [RegexEngine ρ]

/-- The effects of the steps, with what holds before them. -/
inductive Takes (P : Platform) (server : HttpServer ρ) (capacity : ℕ) (w : World) :
    Action → World → Prop
  | accept (fd : ℕ) (transport : Transport) (idle : w.newFdChannel.writing () = false)
      (isOpen : w.newFdChannel.writeOpen = true) (unused : w.fdOpen fd = false) :
      Takes P server capacity w (.accept fd transport) { w with
        accepted := w.accepted + 1
        getFd := Function.update w.getFd w.accepted fd
        stream := Function.update w.stream w.accepted { transport := transport }
        closed := Function.update w.closed w.accepted false
        fdOpen := Function.update w.fdOpen fd true
        newFdChannel := w.newFdChannel.enqueue () w.accepted }
  | notifyNew (pending : w.newFdChannel.writing () = true) :
      Takes P server capacity w .notifyNew
        { w with newFdChannel := w.newFdChannel.writeByte capacity () }
  | shutdown (idle : w.newFdChannel.writing () = false) :
      Takes P server capacity w .shutdown { w with newFdChannel := w.newFdChannel.closeWrite }
  | arrive (c : ClientId) (arrival : Arrival) (known : c < w.accepted) :
      Takes P server capacity w (.arrive c arrival)
        (w.setSocket c ((w.stream c).socket.arrive arrival))
  | foresee (c : ClientId) (arrival : Arrival) (known : c < w.accepted) :
      Takes P server capacity w (.foresee c arrival)
        (w.setSocket c { (w.stream c).socket with
          schedule := (w.stream c).socket.schedule ++ [arrival] })
  | ciphertext (c : ClientId) (known : c < w.accepted) :
      Takes P server capacity w (.ciphertext c)
        { w with ciphertext := Function.update w.ciphertext c true }
  | outcome (c : ClientId) (r : SendResult) (known : c < w.accepted) :
      Takes P server capacity w (.outcome c r)
        (w.setSocket c { (w.stream c).socket with sends := (w.stream c).socket.sends ++ [r] })
  | epollWait (events : List Event) (idle : w.loopIdle = true) (empty : w.batch = [])
      (reported : events.all w.ready = true) :
      Takes P server capacity w (.epollWait events)
        { w with batch := events, interest := w.disarm events }
  | newPipe (batch : List Event) (idle : w.loopIdle = true) (first : w.batch = .newPipe :: batch) :
      Takes P server capacity w .handle
        { w with batch := batch, newFdChannel := w.newFdChannel.onReadable true }
  | returnPipe (batch : List Event) (idle : w.loopIdle = true)
      (first : w.batch = .returnPipe :: batch) :
      Takes P server capacity w .handle
        { w with batch := batch, returnChannel := w.returnChannel.onReadable false }
  | client (fd : ℕ) (hangup : Bool) (batch : List Event) (w' : World) (idle : w.loopIdle = true)
      (first : w.batch = .client fd hangup :: batch)
      (handled : handleClientEvent P fd hangup (w.turnTo fd batch) = .ok w') :
      Takes P server capacity w .handle w'
  | drainNew (draining : w.newFdChannel.reader = .draining) :
      Takes P server capacity w .drain (drainNewFdChannel w)
  | drainReturn (draining : w.returnChannel.reader = .draining) :
      Takes P server capacity w .drain (drainReturnChannel w)
  | take (i : ℕ) (task : Task) (tasks : List Task) (free : w.running.lookup i = none)
      (idle : w.returnChannel.writing i = false) (first : w.tasks = task :: tasks) :
      Takes P server capacity w (.take i)
        { w with tasks := tasks, running := w.running.insert i task }
  | call (i : ℕ) (task : Task) (keepAlive : Bool) (busy : w.running.lookup i = some task)
      (enqueued : (ClientRequestHandler.call P server task.client task.requestBuffer
        (w.stream task.client)).enqueued = [⟨task.client, keepAlive⟩]) :
      Takes P server capacity w (.call i)
        { w.setStream task.client (ClientRequestHandler.call P server task.client
            task.requestBuffer (w.stream task.client)).stream with
          running := w.running.erase i
          returnChannel := w.returnChannel.enqueue i ⟨task.client, keepAlive⟩ }
  | notifyReturn (i : ℕ) (pending : w.returnChannel.writing i = true) :
      Takes P server capacity w (.notifyReturn i)
        { w with returnChannel := w.returnChannel.writeByte capacity i }

variable {P : Platform} {server : HttpServer ρ} {capacity : ℕ} {w w' : World} {a : Action}

theorem takes_of_next (h : w.next P server capacity a = some w') :
    Takes P server capacity w a w' := by
  unfold next at h
  by_cases returned : w.newFdChannel.reader = .returned
  · rw [if_pos returned] at h
    cases h
  rw [if_neg returned] at h
  cases a with
  | accept fd transport =>
    dsimp only at h
    split_ifs at h with ready
    cases h
    exact .accept fd transport ready.1 ready.2.1 ready.2.2
  | notifyNew =>
    dsimp only at h
    split_ifs at h with pending
    cases h
    exact .notifyNew pending
  | shutdown =>
    dsimp only at h
    split_ifs at h with ready
    cases h
    exact .shutdown ready.1
  | arrive c arrival =>
    dsimp only at h
    split_ifs at h with known
    cases h
    exact .arrive c arrival known
  | foresee c arrival =>
    dsimp only at h
    split_ifs at h with known
    cases h
    exact .foresee c arrival known
  | ciphertext c =>
    dsimp only at h
    split_ifs at h with known
    cases h
    exact .ciphertext c known
  | outcome c r =>
    dsimp only at h
    split_ifs at h with known
    cases h
    exact .outcome c r known
  | epollWait events =>
    dsimp only at h
    split_ifs at h with ready
    cases h
    exact .epollWait events ready.1 ready.2.1 ready.2.2.2.2
  | handle =>
    dsimp only at h
    split_ifs at h with idle
    cases first : w.batch with
    | nil =>
      rw [first] at h
      cases h
    | cons event batch =>
      rw [first] at h
      cases event with
      | newPipe =>
        cases h
        exact .newPipe batch idle first
      | returnPipe =>
        cases h
        exact .returnPipe batch idle first
      | client fd hangup =>
        dsimp only at h
        cases handled : handleClientEvent P fd hangup (w.turnTo fd batch) with
        | error e =>
          rw [handled] at h
          cases h
        | ok after =>
          rw [handled] at h
          cases h
          exact .client fd hangup batch _ idle first handled
  | drain =>
    dsimp only at h
    split_ifs at h with draining draining'
    · cases h
      exact .drainNew draining
    · cases h
      exact .drainReturn draining'
  | take i =>
    dsimp only at h
    split_ifs at h with ready
    cases first : w.tasks with
    | nil =>
      rw [first] at h
      cases h
    | cons task tasks =>
      rw [first] at h
      cases h
      exact .take i task tasks ready.2.1 ready.2.2 first
  | call i =>
    dsimp only at h
    cases busy : w.running.lookup i with
    | none =>
      rw [busy] at h
      cases h
    | some task =>
      rw [busy] at h
      dsimp only at h
      cases ended : (ClientRequestHandler.call P server task.client task.requestBuffer
          (w.stream task.client)).result with
      | error e =>
        rw [ended] at h
        cases h
      | ok done =>
        obtain ⟨keepAlive, enqueued⟩ := ClientRequestHandler.call_enqueued ended
        rw [ended, enqueued] at h
        cases h
        exact .call i task keepAlive busy enqueued
  | notifyReturn i =>
    dsimp only at h
    split_ifs at h with pending
    cases h
    exact .notifyReturn i pending

/-! ## The channels -/

section Channels

theorem handleClientEvent_channels {fd : ℕ} {hangup : Bool}
    (h : handleClientEvent P fd hangup w = .ok w') :
    w'.newFdChannel = w.newFdChannel ∧ w'.returnChannel = w.returnChannel := by
  rcases handleClientEvent_cases h with ⟨-, rfl⟩ | ⟨client, -, ⟨-, fdOpen, interest, rfl, -⟩ |
    ⟨-, -, interest, rfl⟩ | ⟨-, pos, head, rfl⟩⟩ <;> exact ⟨rfl, rfl⟩

theorem handleClientEvent_keeps {fd : ℕ} {hangup : Bool}
    (h : handleClientEvent P fd hangup w = .ok w') :
    w'.accepted = w.accepted ∧ w'.batch = w.batch := by
  rcases handleClientEvent_cases h with ⟨-, rfl⟩ | ⟨client, -, ⟨-, fdOpen, interest, rfl, -⟩ |
    ⟨-, -, interest, rfl⟩ | ⟨-, pos, head, rfl⟩⟩ <;> exact ⟨rfl, rfl⟩

theorem drainNewFdChannel_channels (w : World) :
    (drainNewFdChannel w).newFdChannel = w.newFdChannel.tryDequeue.2 ∧
      (drainNewFdChannel w).returnChannel = w.returnChannel := by
  obtain ⟨interest, connections, after⟩ := drainNewFdChannel_frame w
  rw [after]
  exact ⟨rfl, rfl⟩

theorem drainReturnChannel_channels (w : World) :
    (drainReturnChannel w).newFdChannel = w.newFdChannel ∧
      (drainReturnChannel w).returnChannel = w.returnChannel.tryDequeue.2 := by
  obtain ⟨interest, connections, closed, fdOpen, after⟩ := drainReturnChannel_frame w
  rw [after]
  exact ⟨rfl, rfl⟩

/-- A worker that executes a handler has nothing left to write, and the return pipe stays open. -/
structure WorkersInv (w : World) : Prop where
  busy : ∀ i task, w.running.lookup i = some task → w.returnChannel.writing i = false
  isOpen : w.returnChannel.writeOpen = true

/-- `WorkersInv` depends on the workers and on the state of the return channel's write end. -/
theorem WorkersInv.congr (h : WorkersInv w) (running : w'.running = w.running)
    (writing : w'.returnChannel.writing = w.returnChannel.writing)
    (isOpen : w'.returnChannel.writeOpen = w.returnChannel.writeOpen) : WorkersInv w' where
  busy := by
    rw [running, writing]
    exact h.busy
  isOpen := isOpen.trans h.isOpen

theorem onReadable_writing {α ι : Type} (returnOnEof : Bool) (ch : FdChannel α ι) :
    (ch.onReadable returnOnEof).writing = ch.writing ∧
      (ch.onReadable returnOnEof).writeOpen = ch.writeOpen := by
  obtain ⟨pipe, after⟩ := FdChannel.readPipe_frame ch
  simp only [FdChannel.onReadable, after]
  split_ifs <;> exact ⟨rfl, rfl⟩

theorem onReadable_queue {α ι : Type} (returnOnEof : Bool) (ch : FdChannel α ι) :
    (ch.onReadable returnOnEof).queue = ch.queue := by
  obtain ⟨pipe, after⟩ := FdChannel.readPipe_frame ch
  simp only [FdChannel.onReadable, after]
  split_ifs <;> rfl

theorem tryDequeue_writing {α ι : Type} (ch : FdChannel α ι) :
    ch.tryDequeue.2.writing = ch.writing ∧ ch.tryDequeue.2.writeOpen = ch.writeOpen := by
  unfold FdChannel.tryDequeue
  cases ch.queue <;> exact ⟨rfl, rfl⟩

theorem handleClientEvent_running {fd : ℕ} {hangup : Bool}
    (h : handleClientEvent P fd hangup w = .ok w') : w'.running = w.running := by
  rcases handleClientEvent_cases h with ⟨-, rfl⟩ | ⟨client, -, ⟨-, fdOpen, interest, rfl, -⟩ |
    ⟨-, -, interest, rfl⟩ | ⟨-, pos, head, rfl⟩⟩ <;> rfl

theorem drainNewFdChannel_running (w : World) : (drainNewFdChannel w).running = w.running := by
  obtain ⟨interest, connections, after⟩ := drainNewFdChannel_frame w
  rw [after]

theorem drainReturnChannel_running (w : World) : (drainReturnChannel w).running = w.running := by
  obtain ⟨interest, connections, closed, fdOpen, after⟩ := drainReturnChannel_frame w
  rw [after]

theorem drainNewFdChannel_stream (w : World) : (drainNewFdChannel w).stream = w.stream := by
  obtain ⟨interest, connections, after⟩ := drainNewFdChannel_frame w
  rw [after]

theorem drainReturnChannel_stream (w : World) : (drainReturnChannel w).stream = w.stream := by
  obtain ⟨interest, connections, closed, fdOpen, after⟩ := drainReturnChannel_frame w
  rw [after]

theorem workersInv_step (h : WorkersInv w) (step : Takes P server capacity w a w') :
    WorkersInv w' := by
  cases step with
  | accept | notifyNew | shutdown | arrive | foresee | ciphertext | outcome | epollWait | newPipe =>
    exact ⟨h.busy, h.isOpen⟩
  | returnPipe batch idle first =>
    have frame := onReadable_writing false w.returnChannel
    exact h.congr rfl frame.1 frame.2
  | client fd hangup batch w' idle first handled =>
    have channel := (handleClientEvent_channels handled).2
    have running := handleClientEvent_running handled
    exact h.congr running (by rw [channel]) (by rw [channel])
  | drainNew draining =>
    have channel := (drainNewFdChannel_channels w).2
    exact h.congr (drainNewFdChannel_running w) (by rw [channel]) (by rw [channel])
  | drainReturn draining =>
    have channel := (drainReturnChannel_channels w).2
    have frame := tryDequeue_writing w.returnChannel
    exact h.congr (drainReturnChannel_running w) (by rw [channel, frame.1])
      (by rw [channel, frame.2])
  | take i task tasks free idle first =>
    refine ⟨fun j task' running => ?_, h.isOpen⟩
    by_cases same : j = i
    · rw [same]
      exact idle
    · exact h.busy j task' (by rwa [AList.lookup_insert_ne same] at running)
  | call i task keepAlive busy enqueued =>
    refine ⟨fun j task' running => ?_, h.isOpen⟩
    have other : j ≠ i := by
      rintro rfl
      rw [AList.lookup_erase] at running
      cases running
    show Function.update w.returnChannel.writing i true j = false
    rw [Function.update_of_ne other]
    exact h.busy j task' (by rwa [AList.lookup_erase_ne other] at running)
  | notifyReturn i pending =>
    refine ⟨fun j task' running => ?_, h.isOpen⟩
    show Function.update w.returnChannel.writing i false j = false
    rw [Function.update_apply]
    split_ifs
    · rfl
    · exact h.busy j task' running

theorem workersInv_reachable (h : Reachable Initial (Step P server capacity) w) : WorkersInv w :=
  h.invariant (fun _ h => h ▸ ⟨nofun, rfl⟩) fun _ _ _ h step =>
    workersInv_step h (takes_of_next step)

/-- A run of the server is, on the new-client channel, a run of that channel. -/
theorem newFdChannel_reachable (h : Reachable Initial (Step P server capacity) w) :
    Reachable FdChannel.Initial (FdChannel.Step capacity true) w.newFdChannel := by
  refine h.simulates newFdChannel (fun w h => by rw [h]; rfl) fun w a w' _ step => ?_
  cases takes_of_next step with
  | accept fd transport idle isOpen unused =>
    exact Or.inr ⟨_, .enqueue () w.accepted idle isOpen⟩
  | notifyNew pending => exact Or.inr ⟨_, .writeByte () pending⟩
  | shutdown idle => exact Or.inr ⟨_, .closeWrite fun _ => idle⟩
  | newPipe batch idle first =>
    simp only [loopIdle, Bool.and_eq_true, decide_eq_true_eq] at idle
    exact Or.inr ⟨_, .read idle.1⟩
  | client fd hangup batch w' idle first handled =>
    exact Or.inl (handleClientEvent_channels handled).1
  | drainNew draining =>
    rw [(drainNewFdChannel_channels w).1]
    exact Or.inr ⟨_, .dequeue draining⟩
  | drainReturn draining => exact Or.inl (drainReturnChannel_channels w).1
  | arrive | foresee | ciphertext | outcome | epollWait | returnPipe | take | call | notifyReturn =>
    exact Or.inl rfl

/-- A run of the server is, on the return channel, a run of that channel. -/
theorem returnChannel_reachable (h : Reachable Initial (Step P server capacity) w) :
    Reachable FdChannel.Initial (FdChannel.Step capacity false) w.returnChannel := by
  refine h.simulates returnChannel (fun w h => by rw [h]; rfl) fun w a w' reached step => ?_
  have workers := workersInv_reachable reached
  cases takes_of_next step with
  | returnPipe batch idle first =>
    simp only [loopIdle, Bool.and_eq_true, decide_eq_true_eq] at idle
    exact Or.inr ⟨_, .read idle.2⟩
  | client fd hangup batch w' idle first handled =>
    exact Or.inl (handleClientEvent_channels handled).2
  | drainNew draining => exact Or.inl (drainNewFdChannel_channels w).2
  | drainReturn draining =>
    rw [(drainReturnChannel_channels w).2]
    exact Or.inr ⟨_, .dequeue draining⟩
  | call i task keepAlive busy enqueued =>
    exact Or.inr ⟨_, .enqueue i _ (workers.busy i task busy) workers.isOpen⟩
  | notifyReturn i pending => exact Or.inr ⟨_, .writeByte i pending⟩
  | accept | notifyNew | shutdown | arrive | foresee | ciphertext | outcome | epollWait | newPipe |
    take =>
    exact Or.inl rfl

/-- In a running server a queued client is announced on both channels. -/
theorem announced_of_reachable (pos : 0 < capacity)
    (h : Reachable Initial (Step P server capacity) w) :
    (w.newFdChannel.queue ≠ [] → w.newFdChannel.Announced) ∧
      (w.returnChannel.queue ≠ [] → w.returnChannel.Announced) :=
  ⟨(FdChannel.inv_reachable pos (newFdChannel_reachable h)).announced,
    (FdChannel.inv_reachable pos (returnChannel_reachable h)).announced⟩

end Channels

end Lightning.World
