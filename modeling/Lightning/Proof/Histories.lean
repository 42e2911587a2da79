import Lightning.Proof.Pipelining
import Lightning.Proof.Registration

/-!
# What the loop and the workers do to a connection

`History` adds to the state of the server what a run has done so far: whose registration
`epoll_wait` has reported, the tasks that the loop has added, and what the handlers have written.
It follows the server without restricting it (`History.exists_of_world`). From the registrations
it follows that an event is applied to the client it was reported for, that the loop neither reads
nor changes a stream that a worker has (`next_setStream`), and that the replies on a connection
come in the order of its heads (`in_order`).

A handler owns its connection from its construction until `signalReturn` has moved the client into
the return channel.
-/

namespace Lightning

/-! ## What was sent is never taken back -/

namespace IStream

variable {P : Platform} {amount : ℕ} {buffer : Bytes} {size : ℤ} {s : Stream}

@[simp] theorem peek_sent : (peek P amount s).2.socket.sent = s.socket.sent := by
  rw [peek_eq]
  exact @PlainStream.peekLoop_keeps amount (amount + 1) s.leftoverBuffer s.socket
    (fun k => k.sent = s.socket.sent) (fun len k h => by rw [Socket.recv_sent, h]) rfl

theorem write_sent_prefix : s.socket.sent <+: (write buffer size s).2.socket.sent := by
  by_cases h : s.socket.SendFails
  · obtain ⟨errno, fails⟩ := h
    obtain ⟨transport, leftover, k⟩ := s
    have same : (write buffer size ⟨transport, leftover, k⟩).2.socket.sent = k.sent := by
      cases transport <;>
        simp only [write, PlainStream.write, SSLStream.write, SSL_write_ex,
          Socket.send_of_fails fails]
    rw [same]
  · rw [write_sent h]
    exact List.prefix_append _ _

end IStream

namespace ClientRequestHandler

variable {ρ : Type} [RegexEngine ρ] {P : Platform} {server : HttpServer ρ} {client : ClientId}
  {requestBuffer : Bytes} {s : Stream}

/-- What a handler writes comes behind what was sent before. -/
theorem call_sent_prefix :
    s.socket.sent <+: (call P server client requestBuffer s).stream.socket.sent :=
  call_keeps (motive := fun t => s.socket.sent <+: t.socket.sent)
    (fun amount t h => by rwa [IStream.read_sent])
    (fun bytes t h => h.trans IStream.write_sent_prefix) (List.prefix_refl _)

end ClientRequestHandler

/-- The steps of the event loop. -/
def Action.ofLoop : Action → Bool
  | .epollWait _ | .handle | .drain => true
  | _ => false

namespace World

open Search NonblockingClientManagerTask Transition

variable {ρ : Type} [RegexEngine ρ] {P : Platform} {server : HttpServer ρ} {capacity : ℕ}
  {w w' : World} {a : Action} {c d : ClientId} {fd : ℕ} {s : Stream}

/-- Reading an event's head writes nothing. -/
theorem handleClientEvent_sent {hangup : Bool} (h : handleClientEvent P fd hangup w = .ok w')
    (c : ClientId) : (w'.stream c).socket.sent = (w.stream c).socket.sent := by
  have kept (client : ClientId) (t : Stream)
      (same : t.socket.sent = (w.stream client).socket.sent) :
      ((w.setStream client t).stream c).socket.sent = (w.stream c).socket.sent := by
    by_cases isClient : c = client
    · rw [isClient, setStream_self, same]
    · rw [setStream_of_ne isClient]
  obtain ⟨-, rfl⟩ | ⟨client, -, ⟨-, fdOpen, interest, rfl, -⟩ | ⟨-, -, interest, rfl⟩ |
    ⟨-, pos, head, rfl⟩⟩ := handleClientEvent_cases h
  · rfl
  · rfl
  · exact kept client _ IStream.peek_sent
  · exact kept client _ (by rw [IStream.read_sent, IStream.peek_sent])

/-! ## The loop and the streams of the workers -/

section Independence

theorem setStream_comm (other : d ≠ c) (t : Stream) :
    (w.setStream c s).setStream d t = (w.setStream d t).setStream c s := by
  simp only [setStream, Function.update_comm other.symm]

theorem close_setStream (other : d ≠ c) :
    (w.setStream c s).close d = (w.close d).setStream c s := by
  unfold close
  dsimp only
  rw [setStream_of_ne other]
  cases (w.stream d).transport <;> rfl

theorem rearmFd_setStream : rearmFd fd (w.setStream c s) = (rearmFd fd w).setStream c s := by
  unfold rearmFd
  rw [show (w.setStream c s).interest = w.interest from rfl]
  by_cases h : w.interest fd = none
  · rw [if_pos h, if_pos h]
  · rw [if_neg h, if_neg h]
    rfl

theorem addFd_setStream : addFd fd (w.setStream c s) = (addFd fd w).setStream c s := by
  unfold addFd
  rw [show (w.setStream c s).interest = w.interest from rfl]
  by_cases h : w.interest fd = none
  · rw [if_pos h, if_pos h]
    rfl
  · rw [if_neg h, if_neg h]

theorem drainNewFdChannel_setStream :
    drainNewFdChannel (w.setStream c s) = (drainNewFdChannel w).setStream c s := by
  unfold drainNewFdChannel
  rw [show (w.setStream c s).newFdChannel = w.newFdChannel from rfl]
  dsimp only
  cases w.newFdChannel.tryDequeue.1 with
  | none => rfl
  | some client =>
    have added := @addFd_setStream
      { w with newFdChannel := w.newFdChannel.tryDequeue.2 } c (w.getFd client) s
    exact congrArg (fun v : World =>
      { v with connections := v.connections.emplace (w.getFd client) client }) added

/-- The client that is closed is the one that was returned. -/
theorem drainReturnChannel_setStream (notReturned : ¬ w.In c .returnQueue) :
    drainReturnChannel (w.setStream c s) = (drainReturnChannel w).setStream c s := by
  cases hq : w.returnChannel.queue with
  | nil =>
    rw [drainReturnChannel_of_nil hq, drainReturnChannel_of_nil]
    · rfl
    · exact hq
  | cons rc queue =>
    obtain ⟨client, _ | _⟩ := rc
    · have other : client ≠ c := by
        rintro rfl
        exact notReturned ⟨_, by rw [hq]; exact List.mem_cons_self, rfl⟩
      have closed := @close_setStream
        { w with returnChannel := { w.returnChannel with queue := queue } } c client s other
      have hq' : (w.setStream c s).returnChannel.queue = ⟨client, false⟩ :: queue := hq
      rw [drainReturnChannel_of_closed hq, drainReturnChannel_of_closed hq']
      exact closed
    · have armed := @rearmFd_setStream { w with
        returnChannel := { w.returnChannel with queue := queue }
        connections := w.connections.emplace (w.getFd client) client } c (w.getFd client) s
      unfold drainReturnChannel
      rw [show (w.setStream c s).returnChannel = w.returnChannel from rfl,
        FdChannel.tryDequeue_of_cons hq]
      exact armed

theorem handleClientEvent_setStream {hangup : Bool} (other : w.connections.lookup fd ≠ some c) :
    handleClientEvent P fd hangup (w.setStream c s) =
      (handleClientEvent P fd hangup w).map (setStream c s) := by
  unfold handleClientEvent
  rw [show (w.setStream c s).connections = w.connections from rfl]
  cases tracked : w.connections.lookup fd with
  | none => rfl
  | some client =>
    have apart : client ≠ c := fun same => other (by rw [tracked, same])
    dsimp only
    rw [close_setStream apart, setStream_of_ne apart, setStream_comm apart]
    by_cases isHangup : hangup = true
    · rw [if_pos isHangup, if_pos isHangup]
      rfl
    · rw [if_neg isHangup, if_neg isHangup]
      cases findFirst DOUBLE_CRLF (IStream.peek P MAX_HEADER_BYTES (w.stream client)).1 with
      | none =>
        dsimp only
        rw [rearmFd_setStream]
        rfl
      | some pos =>
        dsimp only
        rcases IStream.read P (pos + 4) (IStream.peek P MAX_HEADER_BYTES (w.stream client)).2 with
          ⟨e | consumed, t⟩
        · rfl
        · dsimp only
          rw [setStream_comm apart]
          rfl

theorem ready_setStream {event : Event}
    (notArmed : ∀ fd, w.owner fd = some c → w.interest fd ≠ some true) :
    (w.setStream c s).ready event = w.ready event := by
  cases event with
  | newPipe => rfl
  | returnPipe => rfl
  | client fd hangup =>
    have sameOwner : (w.setStream c s).owner fd = w.owner fd := rfl
    have sameInterest : (w.setStream c s).interest fd = w.interest fd := rfl
    simp only [ready, sameOwner, sameInterest]
    by_cases armed : w.interest fd = some true
    · cases owned : w.owner fd with
      | none => rfl
      | some client =>
        have other : client ≠ c := fun same => notArmed fd (by rw [owned, same]) armed
        dsimp only
        rw [reports, setStream_of_ne other]
        rfl
    · simp only [armed, decide_false, Bool.false_and]

theorem disarm_setStream (events : List Event) :
    (w.setStream c s).disarm events = w.disarm events := by
  induction events with
  | nil => rfl
  | cons event events ih =>
    cases event with
    | newPipe => exact ih
    | returnPipe => exact ih
    | client fd hangup => exact congrArg (Function.update · fd (some false)) ih

/-- The loop neither reads nor changes the stream of a client that a handler owns: whatever that
stream is, its step is possible or not, and has the same effect on everything else. -/
theorem next_setStream (reg : RegistrationInv w) (own : OwnershipInv w) (held : w.In c .handler)
    (loop : a.ofLoop = true) (s : Stream) :
    (w.setStream c s).next P server capacity a =
      (w.next P server capacity a).map (setStream c s) := by
  have notTracked (fd : ℕ) : w.connections.lookup fd ≠ some c := fun tracked =>
    own.not_in (q := .connections) held (by decide) ⟨fd, tracked⟩
  have sameReader : (w.setStream c s).newFdChannel.reader = w.newFdChannel.reader := rfl
  unfold next
  rw [sameReader]
  by_cases returned : w.newFdChannel.reader = .returned
  · rw [if_pos returned, if_pos returned]
    rfl
  rw [if_neg returned, if_neg returned]
  cases a with
  | epollWait events =>
    have notArmed (fd : ℕ) (owned : w.owner fd = some c) : w.interest fd ≠ some true := by
      have getFd : w.getFd c = fd := by
        have found := List.find?_some owned
        simp only [Bool.and_eq_true, decide_eq_true_eq] at found
        exact found.1
      rw [← getFd, reg.away c (Or.inl held)]
      nofun
    have sameReady : events.all (w.setStream c s).ready = events.all w.ready := by
      congr 1
      funext event
      exact ready_setStream notArmed
    have sameIdle : (w.setStream c s).loopIdle = w.loopIdle := rfl
    have sameBatch : (w.setStream c s).batch = w.batch := rfl
    dsimp only
    rw [sameReady, sameIdle, sameBatch, disarm_setStream]
    split_ifs <;> rfl
  | handle =>
    have sameIdle : (w.setStream c s).loopIdle = w.loopIdle := rfl
    have sameBatch : (w.setStream c s).batch = w.batch := rfl
    dsimp only
    rw [sameIdle, sameBatch]
    by_cases idle : w.loopIdle = true
    · rw [if_pos idle, if_pos idle]
      rcases w.batch with _ | ⟨_ | _ | ⟨fd, hangup⟩, batch⟩
      · rfl
      · rfl
      · rfl
      · have handled := @handleClientEvent_setStream P (w.turnTo fd batch) c fd s hangup
          (notTracked fd)
        dsimp only
        rw [show (w.setStream c s).turnTo fd batch =
          (w.turnTo fd batch).setStream c s from rfl, handled]
        cases handleClientEvent P fd hangup (w.turnTo fd batch) <;> rfl
    · rw [if_neg idle, if_neg idle]
      rfl
  | drain =>
    have sameReturn : (w.setStream c s).returnChannel.reader = w.returnChannel.reader := rfl
    dsimp only
    rw [sameReturn, drainNewFdChannel_setStream, drainReturnChannel_setStream
      (own.not_in held (by decide))]
    split_ifs <;> rfl
  | accept | notifyNew | shutdown | arrive | foresee | ciphertext | outcome | take | call |
    notifyReturn =>
    cases loop

end Independence

/-- The client whose registration is armed. -/
def armed (w : World) (fd : ℕ) : Option ClientId :=
  if w.interest fd = some true then w.owner fd else none

/-- A worker executes the task, or will. -/
def Holds (w : World) (task : Task) : Prop :=
  task ∈ w.tasks ∨ ∃ i, w.running.lookup i = some task

theorem in_handler_iff : w.In c .handler ↔ ∃ task, w.Holds task ∧ task.client = c := by
  constructor
  · rintro (⟨task, member, isC⟩ | ⟨i, task, running, isC⟩)
    · exact ⟨task, Or.inl member, isC⟩
    · exact ⟨task, Or.inr ⟨i, running⟩, isC⟩
  · rintro ⟨task, member | ⟨i, running⟩, isC⟩
    · exact Or.inl ⟨task, member, isC⟩
    · exact Or.inr ⟨i, task, running, isC⟩

end World

/-! ## Histories -/

/-- A state of the server with what the run that led to it has done. -/
structure History where
  world : World := {}
  /-- Who was armed on each descriptor when `epoll_wait` returned last. -/
  reported : ℕ → Option ClientId := fun _ => none
  /-- The tasks that the loop has added, in that order. -/
  extracted : List Task := []
  /-- The tasks whose handlers have ended, each with what it wrote, in that order. -/
  replies : List (Task × Bytes) := []

namespace History

open World NonblockingClientManagerTask Transition

variable {ρ : Type} [RegexEngine ρ] {P : Platform} {server : HttpServer ρ} {capacity : ℕ}
  {h h' : History} {w w' : World} {a : Action} {c : ClientId} {fd : ℕ}

/-- What a step that leads to `w` adds to the history. -/
def record (h : History) (a : Action) (w : World) : History where
  world := w
  reported :=
    match a with
    | .epollWait _ => h.world.armed
    | _ => h.reported
  extracted :=
    match a with
    | .handle => h.extracted ++ w.tasks.drop h.world.tasks.length
    | _ => h.extracted
  replies :=
    match a with
    | .call i =>
        match h.world.running.lookup i with
        | none => h.replies
        | some task => h.replies ++ [(task, (w.stream task.client).socket.sent.drop
            (h.world.stream task.client).socket.sent.length)]
    | _ => h.replies

def next (P : Platform) (server : HttpServer ρ) (capacity : ℕ) (h : History) (a : Action) :
    Option History :=
  (h.world.next P server capacity a).map (h.record a)

def Step (P : Platform) (server : HttpServer ρ) (capacity : ℕ) (h : History) (a : Action)
    (h' : History) : Prop :=
  h.next P server capacity a = some h'

def Initial (h : History) : Prop := h = {}

theorem step_iff : Step P server capacity h a h' ↔
    h.world.next P server capacity a = some h'.world ∧ h' = h.record a h'.world := by
  unfold Step next
  rw [Option.map_eq_some_iff]
  constructor
  · rintro ⟨w, step, rfl⟩
    exact ⟨step, rfl⟩
  · rintro ⟨step, after⟩
    exact ⟨h'.world, step, after.symm⟩

theorem world_reachable (h : Reachable Initial (Step P server capacity) h') :
    Reachable World.Initial (World.Step P server capacity) h'.world :=
  h.simulates world (fun _ start => by rw [start]; rfl) fun _ a _ _ step =>
    Or.inr ⟨a, (step_iff.mp step).1⟩

/-- Every run of the server has a history. -/
theorem exists_of_world (h : Reachable World.Initial (World.Step P server capacity) w) :
    ∃ h', Reachable Initial (Step P server capacity) h' ∧ h'.world = w := by
  induction h with
  | start start => exact ⟨{}, .start rfl, start.symm⟩
  | @next w w' a reached step ih =>
    obtain ⟨h', reachable, rfl⟩ := ih
    exact ⟨h'.record a w', reachable.next (step_iff.mpr ⟨step, rfl⟩), rfl⟩

/-- The tasks with requests of that client. -/
def extractedOf (h : History) (c : ClientId) : List Task := h.extracted.filter (·.client == c)

/-- The replies on that connection. -/
def repliesOf (h : History) (c : ClientId) : List (Task × Bytes) :=
  h.replies.filter (·.1.client == c)

/-! ### Events -/

/-- The events of the batch are about the clients that are tracked. -/
def EventsInv (h : History) : Prop :=
  ∀ fd, h.world.Pending fd → h.reported fd ≠ none ∧
    h.world.connections.lookup fd = h.reported fd

/-- The steps that are not `epoll_wait` keep the clients of the remaining events. -/
theorem eventsInv_of_subset (inv : EventsInv h) (reported : h'.reported = h.reported)
    (lookup : ∀ fd, h'.world.Pending fd → h.world.Pending fd ∧
      h'.world.connections.lookup fd = h.world.connections.lookup fd) : EventsInv h' := by
  intro fd pending
  obtain ⟨before, same⟩ := lookup fd pending
  rw [reported, same]
  exact inv fd before

theorem eventsInv_epollWait (own : OwnershipInv h.world) (reg : RegistrationInv h.world)
    {events : List Event} (reportedAll : events.all h.world.ready = true) :
    EventsInv (h.record (.epollWait events)
      { h.world with batch := events, interest := h.world.disarm events }) := by
  rintro fd ⟨hangup, member⟩
  have isArmed := armed_of_ready (List.all_eq_true.mp reportedAll _ member)
  have tracked := (reg.mem_iff fd).mp (Or.inl isArmed)
  obtain ⟨client, found⟩ := Option.isSome_iff_exists.mp (AList.lookup_isSome.mpr tracked)
  have armed : h.world.armed fd = some client := by
    rw [World.armed, if_pos isArmed, owner_of_tracked own found]
  show h.world.armed fd ≠ none ∧ h.world.connections.lookup fd = h.world.armed fd
  rw [armed]
  exact ⟨nofun, found⟩

/-- An event of one descriptor leaves the others as they are. -/
theorem handleClientEvent_frame {hangup : Bool} (h : handleClientEvent P fd hangup w = .ok w') :
    w'.batch = w.batch ∧ ∀ d, d ≠ fd → w'.connections.lookup d = w.connections.lookup d := by
  obtain ⟨-, rfl⟩ | ⟨client, -, ⟨-, fdOpen, interest, rfl, -⟩ | ⟨-, -, interest, rfl⟩ |
    ⟨-, pos, head, rfl⟩⟩ := handleClientEvent_cases h
  · exact ⟨rfl, fun _ _ => rfl⟩
  · exact ⟨rfl, fun d other => AList.lookup_erase_ne other⟩
  · exact ⟨rfl, fun _ _ => rfl⟩
  · exact ⟨rfl, fun d other => AList.lookup_erase_ne other⟩

/-- A client that comes into `connections` has no event in the batch. -/
theorem eventsInv_emplace (inv : EventsInv h) (reg : RegistrationInv h.world) {client : ClientId}
    (free : fd ∉ h.world.connections) (reported : h'.reported = h.reported)
    (batch : h'.world.batch = h.world.batch)
    (connections : h'.world.connections = h.world.connections.emplace fd client) :
    EventsInv h' := by
  apply eventsInv_of_subset inv reported
  intro d pending
  have before : h.world.Pending d := by
    unfold Pending at pending ⊢
    rwa [batch] at pending
  have other : d ≠ fd := by
    rintro rfl
    exact free (reg.of_pending before).1
  rw [connections, UnorderedMap.emplace_of_notMem free, AList.lookup_insert_ne other]
  exact ⟨before, rfl⟩

theorem eventsInv_step (inv : EventsInv h) (own : OwnershipInv h.world)
    (reg : RegistrationInv h.world) (step : h.world.next P server capacity a = some w) :
    EventsInv (h.record a w) := by
  cases takes_of_next step with
  | epollWait events idle empty reported => exact eventsInv_epollWait own reg reported
  | newPipe batch idle first =>
    refine eventsInv_of_subset inv rfl fun fd ⟨hangup, member⟩ => ⟨⟨hangup, ?_⟩, rfl⟩
    rw [first]
    exact List.mem_cons_of_mem _ member
  | returnPipe batch idle first =>
    refine eventsInv_of_subset inv rfl fun fd ⟨hangup, member⟩ => ⟨⟨hangup, ?_⟩, rfl⟩
    rw [first]
    exact List.mem_cons_of_mem _ member
  | client fd hangup batch w idle first handled =>
    obtain ⟨batch', lookup⟩ := handleClientEvent_frame handled
    have nodup := reg.distinct
    rw [first, List.map_cons, List.nodup_cons] at nodup
    refine eventsInv_of_subset inv rfl fun d ⟨hangup', member⟩ => ?_
    have left : .client d hangup' ∈ batch := by
      have member : Event.client d hangup' ∈ w.batch := member
      rwa [batch'] at member
    have other : d ≠ fd := by
      rintro rfl
      exact nodup.1 (List.mem_map.mpr ⟨_, left, rfl⟩)
    refine ⟨⟨hangup', ?_⟩, lookup d other⟩
    rw [first]
    exact List.mem_cons_of_mem _ left
  | drainNew draining =>
    cases hq : h.world.newFdChannel.queue with
    | nil =>
      rw [drainNewFdChannel_of_nil hq]
      exact eventsInv_of_subset inv rfl fun fd pending => ⟨pending, rfl⟩
    | cons client queue =>
      have found : h.world.In client .newQueue := by
        show client ∈ h.world.newFdChannel.queue
        rw [hq]
        exact List.mem_cons_self
      have free := own.getFd_untracked found (by decide) (by decide)
      obtain ⟨interest, after⟩ := drainNewFdChannel_of_cons hq
      rw [after]
      exact eventsInv_emplace inv reg free rfl rfl rfl
  | drainReturn draining =>
    cases hq : h.world.returnChannel.queue with
    | nil =>
      rw [drainReturnChannel_of_nil hq]
      exact eventsInv_of_subset inv rfl fun fd pending => ⟨pending, rfl⟩
    | cons rc queue =>
      obtain ⟨client, keepAlive⟩ := rc
      have found : h.world.In client .returnQueue := ⟨⟨client, keepAlive⟩, by simp [hq], rfl⟩
      have free := own.getFd_untracked found (by decide) (by decide)
      cases keepAlive with
      | true =>
        obtain ⟨interest, after⟩ := drainReturnChannel_of_kept hq
        rw [after]
        exact eventsInv_emplace inv reg free rfl rfl rfl
      | false =>
        rw [drainReturnChannel_of_closed hq]
        obtain ⟨fdOpen, interest, after, -⟩ := close_eq client
          { h.world with returnChannel := { h.world.returnChannel with queue := queue } }
        rw [after]
        exact eventsInv_of_subset inv rfl fun fd pending => ⟨pending, rfl⟩
  | accept | notifyNew | shutdown | arrive | foresee | ciphertext | outcome | take | call |
    notifyReturn =>
    exact eventsInv_of_subset inv rfl fun fd pending => ⟨pending, rfl⟩

/-! ### Requests and replies -/

structure RepliesInv (h : History) : Prop where
  /-- All heads but the one a handler has are answered, in their order. -/
  order : ∀ c, ∃ held : List Task, h.extractedOf c = (h.repliesOf c).map Prod.fst ++ held ∧
    held.length ≤ 1 ∧ ∀ task, task ∈ held ↔ h.world.Holds task ∧ task.client = c
  sent : ∀ c, (h.world.stream c).socket.sent = ((h.repliesOf c).map Prod.snd).flatten
  known : ∀ reply ∈ h.replies, reply.1.client < h.world.accepted

/-- A step that extracts and answers nothing. -/
theorem RepliesInv.congr (inv : RepliesInv h) (extracted : h'.extracted = h.extracted)
    (replies : h'.replies = h.replies) (holds : ∀ task, h'.world.Holds task ↔ h.world.Holds task)
    (sent : ∀ c, (h'.world.stream c).socket.sent = (h.world.stream c).socket.sent)
    (accepted : h'.world.accepted = h.world.accepted) : RepliesInv h' where
  order c := by
    unfold extractedOf repliesOf
    simp only [extracted, replies, holds]
    exact inv.order c
  sent c := by
    unfold repliesOf
    rw [sent, replies]
    exact inv.sent c
  known := by
    rw [replies, accepted]
    exact inv.known

theorem repliesOf_eq_nil (inv : RepliesInv h) (unknown : h.world.accepted ≤ c) :
    h.repliesOf c = [] := by
  unfold repliesOf
  rw [List.filter_eq_nil_iff]
  intro reply member isC
  have known := inv.known reply member
  rw [beq_iff_eq.mp isC] at known
  exact absurd known (Nat.not_lt.mpr unknown)

/-- The loop adds a task of a client that no handler has. -/
theorem repliesInv_extract (inv : RepliesInv h) (task : Task)
    (nobody : ¬ h.world.In task.client .handler)
    (extracted : h'.extracted = h.extracted ++ [task]) (replies : h'.replies = h.replies)
    (tasks : h'.world.tasks = h.world.tasks ++ [task])
    (running : h'.world.running = h.world.running)
    (sent : ∀ c, (h'.world.stream c).socket.sent = (h.world.stream c).socket.sent)
    (accepted : h'.world.accepted = h.world.accepted) : RepliesInv h' where
  order c := by
    have holds (other : Task) : h'.world.Holds other ↔ h.world.Holds other ∨ other = task := by
      unfold Holds
      rw [tasks, running, List.mem_append, List.mem_singleton]
      exact or_right_comm
    obtain ⟨held, split, short, isHeld⟩ := inv.order c
    unfold extractedOf repliesOf at split ⊢
    rw [extracted, replies, List.filter_append, split]
    by_cases same : task.client = c
    · obtain rfl : held = [] := by
        rw [List.eq_nil_iff_forall_not_mem]
        intro other member
        obtain ⟨holdsOther, isC⟩ := (isHeld other).mp member
        exact nobody (in_handler_iff.mpr ⟨other, holdsOther, isC.trans same.symm⟩)
      refine ⟨[task], by simp [same], Nat.le_refl 1, fun other => ?_⟩
      rw [List.mem_singleton, holds]
      constructor
      · rintro rfl
        exact ⟨Or.inr rfl, same⟩
      · rintro ⟨before | isTask, isC⟩
        · exact absurd ((isHeld other).mpr ⟨before, isC⟩) List.not_mem_nil
        · exact isTask
    · refine ⟨held, by simp [same], short, fun other => ?_⟩
      rw [isHeld, holds]
      constructor
      · exact fun ⟨before, isC⟩ => ⟨Or.inl before, isC⟩
      · rintro ⟨before | rfl, isC⟩
        · exact ⟨before, isC⟩
        · exact absurd isC same
  sent c := by
    unfold repliesOf
    rw [sent, replies]
    exact inv.sent c
  known := by
    rw [replies, accepted]
    exact inv.known

/-- A handler ends, after which nobody has the client. -/
theorem repliesInv_call (inv : RepliesInv h) (own : OwnershipInv h.world) {i : ℕ} {task : Task}
    {keepAlive : Bool} {s : Stream} (busy : h.world.running.lookup i = some task)
    (grows : (h.world.stream task.client).socket.sent <+: s.socket.sent) :
    RepliesInv (h.record (.call i) { h.world.setStream task.client s with
      running := h.world.running.erase i
      returnChannel := h.world.returnChannel.enqueue i ⟨task.client, keepAlive⟩ }) := by
  set piece := s.socket.sent.drop (h.world.stream task.client).socket.sent.length with hpiece
  set w : World := { h.world.setStream task.client s with
    running := h.world.running.erase i
    returnChannel := h.world.returnChannel.enqueue i ⟨task.client, keepAlive⟩ } with hw
  have replies : (h.record (.call i) w).replies = h.replies ++ [(task, piece)] := by
    simp only [record, busy, hw, setStream_self]
    rfl
  have stream (c : ClientId) : w.stream c = (h.world.setStream task.client s).stream c := rfl
  have own' : OwnershipInv w := ownershipInv_call own busy
  constructor
  · intro c
    obtain ⟨held, split, short, isHeld⟩ := inv.order c
    unfold extractedOf repliesOf at split ⊢
    rw [replies, List.filter_append, List.map_append]
    show ∃ held', h.extracted.filter (·.client == c) = _ ∧ _
    by_cases same : task.client = c
    · have member : task ∈ held := (isHeld task).mpr ⟨Or.inr ⟨i, busy⟩, same⟩
      obtain rfl : held = [task] := by
        obtain ⟨first, rfl⟩ := List.length_eq_one_iff.mp
          (Nat.le_antisymm short (List.length_pos_of_mem member))
        rw [List.mem_singleton.mp member]
      refine ⟨[], ?_, Nat.zero_le 1, fun other => ?_⟩
      · rw [split]
        simp [same]
      · refine ⟨nofun, fun ⟨holdsOther, isC⟩ => ?_⟩
        have returned : w.In c .returnQueue :=
          ⟨⟨task.client, keepAlive⟩, List.mem_append_right _ List.mem_cons_self, same⟩
        exact absurd (in_handler_iff.mpr ⟨other, holdsOther, isC⟩)
          (own'.not_in returned (by decide))
    · refine ⟨held, by rw [split]; simp [same], short, fun other => ?_⟩
      rw [isHeld]
      refine and_congr_left fun isC => or_congr Iff.rfl (exists_congr fun j => ?_)
      show h.world.running.lookup j = some other ↔ (h.world.running.erase i).lookup j = some other
      by_cases sameWorker : j = i
      · rw [sameWorker, AList.lookup_erase, busy]
        constructor
        · rintro ⟨⟩
          exact absurd isC same
        · nofun
      · rw [AList.lookup_erase_ne sameWorker]
  · intro c
    show (w.stream c).socket.sent = _
    unfold repliesOf
    rw [replies, List.filter_append, List.map_append, List.flatten_append, stream]
    have before := inv.sent c
    unfold repliesOf at before
    by_cases same : task.client = c
    · subst same
      rw [setStream_self, ← before]
      obtain ⟨rest, after⟩ := grows
      simp [hpiece, ← after]
    · rw [setStream_of_ne (Ne.symm same), before]
      simp [same]
  · rw [replies]
    intro reply member
    obtain older | new := List.mem_append.mp member
    · exact inv.known reply older
    · rw [List.mem_singleton.mp new]
      exact own.known (in_handler_iff.mpr ⟨task, Or.inr ⟨i, busy⟩, rfl⟩)

theorem repliesInv_accept (inv : RepliesInv h) {transport : Transport} {fd : ℕ} :
    RepliesInv (h.record (.accept fd transport) { h.world with
      accepted := h.world.accepted + 1
      getFd := Function.update h.world.getFd h.world.accepted fd
      stream := Function.update h.world.stream h.world.accepted { transport := transport }
      closed := Function.update h.world.closed h.world.accepted false
      fdOpen := Function.update h.world.fdOpen fd true
      newFdChannel := h.world.newFdChannel.enqueue () h.world.accepted }) where
  order := inv.order
  sent c := by
    show (Function.update h.world.stream h.world.accepted _ c).socket.sent = _
    by_cases new : c = h.world.accepted
    · have nothing : h.repliesOf c = [] := repliesOf_eq_nil inv (Nat.le_of_eq new.symm)
      rw [new, Function.update_self, ← new]
      show [] = ((h.repliesOf c).map Prod.snd).flatten
      rw [nothing]
      rfl
    · rw [Function.update_of_ne new]
      exact inv.sent c
  known reply member := Nat.lt_succ_of_lt (inv.known reply member)

theorem repliesInv_client (inv : RepliesInv h) (own : OwnershipInv h.world) {hangup : Bool}
    {batch : List Event}
    (handled : handleClientEvent P fd hangup (h.world.turnTo fd batch) = .ok w) :
    RepliesInv (h.record .handle w) := by
  have sent := handleClientEvent_sent handled
  have nothingNew {w : World} (tasks : w.tasks = h.world.tasks) :
      (h.record .handle w).extracted = h.extracted := by
    simp only [record, tasks, List.drop_length, List.append_nil]
  obtain ⟨-, rfl⟩ | ⟨client, tracked, ⟨-, fdOpen, interest, rfl, -⟩ | ⟨-, -, interest, rfl⟩ |
    ⟨-, pos, head, rfl⟩⟩ := handleClientEvent_cases handled
  · exact inv.congr (nothingNew rfl) rfl (fun _ => Iff.rfl) sent rfl
  · exact inv.congr (nothingNew rfl) rfl (fun _ => Iff.rfl) sent rfl
  · exact inv.congr (nothingNew rfl) rfl (fun _ => Iff.rfl) sent rfl
  · refine repliesInv_extract inv ⟨client, head⟩ ?_ ?_ rfl rfl rfl sent rfl
    · intro held
      exact own.not_in (q := .connections) held (by decide) ⟨fd, tracked⟩
    · have added : (h.world.tasks ++ [(⟨client, head⟩ : Task)]).drop h.world.tasks.length =
          [⟨client, head⟩] := List.drop_left
      exact congrArg (h.extracted ++ ·) added

theorem repliesInv_step (inv : RepliesInv h) (own : OwnershipInv h.world)
    (step : h.world.next P server capacity a = some w) : RepliesInv (h.record a w) := by
  have socket (c : ClientId) (k : Socket) (same : k.sent = (h.world.stream c).socket.sent)
      (d : ClientId) :
      ((h.world.setSocket c k).stream d).socket.sent = (h.world.stream d).socket.sent := by
    by_cases isC : d = c
    · rw [isC, setSocket, setStream_self, same]
    · rw [setSocket, setStream_of_ne isC]
  cases takes_of_next step with
  | accept fd transport idle isOpen unused => exact repliesInv_accept inv
  | arrive c arrival known =>
    exact inv.congr rfl rfl (fun _ => Iff.rfl) (socket c _ rfl) rfl
  | foresee c arrival known =>
    exact inv.congr rfl rfl (fun _ => Iff.rfl) (socket c _ rfl) rfl
  | outcome c r known => exact inv.congr rfl rfl (fun _ => Iff.rfl) (socket c _ rfl) rfl
  | ciphertext c known => exact inv.congr rfl rfl (fun _ => Iff.rfl) (fun _ => rfl) rfl
  | newPipe batch idle first =>
    refine inv.congr ?_ rfl (fun _ => Iff.rfl) (fun _ => rfl) rfl
    simp only [record, List.drop_length, List.append_nil]
  | returnPipe batch idle first =>
    refine inv.congr ?_ rfl (fun _ => Iff.rfl) (fun _ => rfl) rfl
    simp only [record, List.drop_length, List.append_nil]
  | client fd hangup batch w idle first handled => exact repliesInv_client inv own handled
  | drainNew draining =>
    obtain ⟨interest, connections, after⟩ := drainNewFdChannel_frame h.world
    rw [after]
    exact inv.congr rfl rfl (fun _ => Iff.rfl) (fun _ => rfl) rfl
  | drainReturn draining =>
    obtain ⟨interest, connections, closed, fdOpen, after⟩ := drainReturnChannel_frame h.world
    rw [after]
    exact inv.congr rfl rfl (fun _ => Iff.rfl) (fun _ => rfl) rfl
  | take i task tasks free idle first =>
    refine inv.congr rfl rfl (fun other => ?_) (fun _ => rfl) rfl
    have lookup (j : ℕ) : (h.world.running.insert i task).lookup j = some other ↔
        j = i ∧ task = other ∨ h.world.running.lookup j = some other := by
      by_cases same : j = i
      · rw [same, AList.lookup_insert, free]
        simp
      · rw [AList.lookup_insert_ne same]
        simp [same]
    constructor
    · rintro (member | ⟨j, running⟩)
      · exact Or.inl (by rw [first]; exact List.mem_cons_of_mem _ member)
      · obtain ⟨-, rfl⟩ | before := (lookup j).mp running
        · exact Or.inl (by rw [first]; exact List.mem_cons_self)
        · exact Or.inr ⟨j, before⟩
    · rintro (member | ⟨j, running⟩)
      · rw [first] at member
        obtain rfl | later := List.mem_cons.mp member
        · exact Or.inr ⟨i, (lookup i).mpr (Or.inl ⟨rfl, rfl⟩)⟩
        · exact Or.inl later
      · exact Or.inr ⟨j, (lookup j).mpr (Or.inr running)⟩
  | call i task keepAlive busy enqueued =>
    exact repliesInv_call inv own busy ClientRequestHandler.call_sent_prefix
  | notifyNew | shutdown | epollWait | notifyReturn =>
    exact inv.congr rfl rfl (fun _ => Iff.rfl) (fun _ => rfl) rfl

/-! ### Runs -/

theorem eventsInv_reachable (reachable : Reachable Initial (Step P server capacity) h) :
    EventsInv h := by
  refine reachable.invariant_of ?_ fun h a h' reached inv step => ?_
  · rintro _ rfl fd ⟨hangup, member⟩
    cases member
  · obtain ⟨step, after⟩ := step_iff.mp step
    have world := world_reachable reached
    rw [after]
    exact eventsInv_step inv (ownershipInv_reachable world) (registrationInv_reachable world) step

theorem repliesInv_reachable (reachable : Reachable Initial (Step P server capacity) h) :
    RepliesInv h := by
  refine reachable.invariant_of ?_ fun h a h' reached inv step => ?_
  · rintro _ rfl
    refine ⟨fun c => ⟨[], rfl, Nat.zero_le 1, fun task => ⟨nofun, ?_⟩⟩, fun _ => rfl, nofun⟩
    rintro ⟨member | ⟨i, running⟩, -⟩
    · cases member
    · cases running
  · obtain ⟨step, after⟩ := step_iff.mp step
    rw [after]
    exact repliesInv_step inv (ownershipInv_reachable (world_reachable reached)) step

/-- In every state of every run: a descriptor is armed or has an event in the batch exactly when
it is a key of `connections`; such an event is about the client that is tracked there, which is the
one that was armed when it was reported; whatever the loop does next depends on no stream that a
handler owns and changes none; a connection has at most one handler; and its heads are answered in
the order in which they were extracted. -/
theorem loop_invariant (reachable : Reachable Initial (Step P server capacity) h) :
    (∀ fd, h.world.interest fd = some true ∨ h.world.Pending fd ↔ fd ∈ h.world.connections) ∧
    (∀ fd, h.world.Pending fd → ∃ c, h.reported fd = some c ∧
      h.world.connections.lookup fd = some c) ∧
    (∀ c, h.world.In c .handler → ∀ a : Action, a.ofLoop = true → ∀ s,
      (h.world.setStream c s).next P server capacity a =
        (h.world.next P server capacity a).map (setStream c s)) ∧
    (∀ c, h.world.occurrences c .handler ≤ 1) ∧
    (∀ c, (h.repliesOf c).map Prod.fst <+: h.extractedOf c ∧
      (h.world.stream c).socket.sent = ((h.repliesOf c).map Prod.snd).flatten) := by
  have own := ownershipInv_reachable (world_reachable reachable)
  have reg := registrationInv_reachable (world_reachable reachable)
  have replies := repliesInv_reachable reachable
  refine ⟨reg.mem_iff, fun fd pending => ?_, fun c held a loop s => next_setStream reg own held
    loop s, fun c => ?_, fun c => ⟨?_, replies.sent c⟩⟩
  · obtain ⟨someone, tracked⟩ := eventsInv_reachable reachable fd pending
    obtain ⟨c, isC⟩ := Option.ne_none_iff_exists'.mp someone
    exact ⟨c, isC, tracked.trans isC⟩
  · by_cases held : 0 < h.world.occurrences c .handler
    · exact Nat.le_of_eq (own.exclusive held).2.1
    · omega
  · obtain ⟨held, split, -⟩ := replies.order c
    exact ⟨held, split.symm⟩

/-- A connection with one request answered and the next one reported. -/
theorem loop_invariant_second :
    ∃ h : History, h.world.batch = [.client 5 false] ∧ (h.repliesOf 0).length = 1 ∧
      (∀ fd, h.world.interest fd = some true ∨ h.world.Pending fd ↔ fd ∈ h.world.connections) ∧
      (∀ fd, h.world.Pending fd → ∃ c, h.reported fd = some c ∧
        h.world.connections.lookup fd = some c) ∧
      (∀ c, h.world.In c .handler → ∀ a : Action, a.ofLoop = true → ∀ s,
        (h.world.setStream c s).next Platform.newestFirst HttpServer.emptyServer 65536 a =
          (h.world.next Platform.newestFirst HttpServer.emptyServer 65536 a).map
            (setStream c s)) ∧
      (∀ c, h.world.occurrences c .handler ≤ 1) ∧
      (∀ c, (h.repliesOf c).map Prod.fst <+: h.extractedOf c ∧
        (h.world.stream c).socket.sent = ((h.repliesOf c).map Prod.snd).flatten) := by
  obtain ⟨h, reachable, state⟩ := @exists_reachable_of_run History Action Initial
    (next Platform.newestFirst HttpServer.emptyServer 65536) {}
    (roundTrip (chars "GET /a HTTP/1.1\r\nConnection: keep-alive\r\n\r\n") ++
      [.arrive 0 ⟨chars "GET /b HTTP/1.1\r\n\r\n", false, none⟩, .epollWait [.client 5 false]])
    (fun h => h.world.batch = [.client 5 false] ∧ (h.repliesOf 0).length = 1) rfl
    (by decide +kernel)
  obtain ⟨batch, answered⟩ := of_decide_eq_true state
  exact ⟨h, batch, answered, loop_invariant reachable⟩

end History

end Lightning
