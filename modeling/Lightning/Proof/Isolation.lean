import Lightning.Connection
import Lightning.Lib.Component
import Lightning.Proof.Histories

/-!
# Connections do not interfere

Every step of the server is a step of at most one connection, the one that `project` says, and
leaves all others as they are (`follows_of_step`). So what a client sees of a run of the server is
a run of its connection alone, and two clients whose connections took the same steps are in the same
state, whatever else their servers did (`isolated`).
-/

namespace Lightning

namespace World

open Search NonblockingClientManagerTask Transition

variable {ρ : Type} [RegexEngine ρ] {P : Platform} {server : HttpServer ρ} {capacity : ℕ}
  {w w' : World} {a : Action} {c d : ClientId} {fd : ℕ} {k : Socket} {stage : Stage}

/-! ## Stages -/

/-- What the stage of a client says about the server. -/
def Staged (w : World) (c : ClientId) : Stage → Prop
  | .queued => c ∈ w.newFdChannel.queue
  | .watched => ∃ fd, w.connections.lookup fd = some c
  | .handled requestBuffer => w.Holds ⟨c, requestBuffer⟩
  | .returned keepAlive => ⟨c, keepAlive⟩ ∈ w.returnChannel.queue
  | .closed => w.closed c = true

def placeOf : Stage → Place
  | .queued => .newQueue
  | .watched => .connections
  | .handled _ => .handler
  | .returned _ => .returnQueue
  | .closed => .closed

theorem Staged.place (h : w.Staged c stage) : w.In c (placeOf stage) := by
  cases stage with
  | queued => exact h
  | watched => exact h
  | handled requestBuffer => exact in_handler_iff.mpr ⟨_, h, rfl⟩
  | returned keepAlive => exact ⟨_, h, rfl⟩
  | closed => exact h

theorem staged_of_in {p : Place} (h : w.In c p) : ∃ stage, w.Staged c stage := by
  cases p with
  | newQueue => exact ⟨.queued, h⟩
  | connections => exact ⟨.watched, h⟩
  | handler =>
    obtain ⟨⟨client, requestBuffer⟩, holds, rfl⟩ := in_handler_iff.mp h
    exact ⟨.handled requestBuffer, holds⟩
  | returnQueue =>
    obtain ⟨⟨client, keepAlive⟩, member, rfl⟩ := h
    exact ⟨.returned keepAlive, member⟩
  | closed => exact ⟨.closed, h⟩

/-- The only entry that passes a test is the first one. -/
theorem find?_of_countP_le_one {α : Type} {p : α → Bool} {l : List α} {x : α} (member : x ∈ l)
    (passes : p x = true) (once : l.countP p ≤ 1) : l.find? p = some x := by
  induction l with
  | nil => cases member
  | cons y l ih =>
    cases first : p y with
    | true =>
      rw [List.find?_cons_of_pos first]
      rw [List.countP_cons_of_pos first] at once
      rcases List.mem_cons.mp member with rfl | later
      · rfl
      · have positive := List.countP_pos_iff.mpr ⟨x, later, passes⟩
        omega
    | false =>
      have other : ¬ p y = true := by rw [first]; exact Bool.false_ne_true
      rw [List.find?_cons_of_neg other]
      rw [List.countP_cons_of_neg other] at once
      rcases List.mem_cons.mp member with rfl | later
      · exact absurd passes other
      · exact ih later once

theorem mem_allTasks {task : Task} : task ∈ w.allTasks ↔ w.Holds task := by
  unfold allTasks Holds
  rw [List.mem_append, List.mem_map]
  apply or_congr Iff.rfl
  constructor
  · rintro ⟨⟨i, running⟩, member, rfl⟩
    exact ⟨i, AList.mem_lookup_iff.mpr member⟩
  · rintro ⟨i, running⟩
    exact ⟨⟨i, task⟩, AList.mem_lookup_iff.mp running, rfl⟩

theorem countP_allTasks (w : World) (c : ClientId) :
    w.allTasks.countP (·.client == c) = w.occurrences c .handler := by
  unfold allTasks
  rw [List.countP_append, List.countP_map]
  rfl

/-- What is nowhere in a list is not found there. -/
theorem find?_of_not_in {α : Type} {f : α → ClientId} {l : List α}
    (h : ¬ ∃ x ∈ l, f x = c) : l.find? (fun x => f x == c) = none := by
  rw [List.find?_eq_none]
  intro x member same
  exact h ⟨x, member, by simpa using same⟩

/-- The stage that is computed is the stage of the client. -/
theorem Staged.stage_eq (h : w.Staged c stage) (own : OwnershipInv w) : w.stage c = stage := by
  have elsewhere {p : Place} (other : p ≠ placeOf stage) : ¬ w.In c p := own.not_in h.place other
  have single : w.occurrences c (placeOf stage) = 1 :=
    (own.exclusive ((in_iff_occurrences_pos w c _).mp h.place)).2.1
  have notClosed (other : Place.closed ≠ placeOf stage) : ¬ w.closed c = true := elsewhere other
  have notQueued (other : Place.newQueue ≠ placeOf stage) : c ∉ w.newFdChannel.queue :=
    elsewhere other
  have notReturned (other : Place.returnQueue ≠ placeOf stage) :
      w.returnChannel.queue.find? (·.client == c) = none := find?_of_not_in (elsewhere other)
  unfold World.stage
  cases stage with
  | closed => exact if_pos h
  | queued =>
    rw [if_neg (notClosed nofun)]
    exact if_pos h
  | returned keepAlive =>
    have found : w.returnChannel.queue.find? (·.client == c) = some ⟨c, keepAlive⟩ :=
      find?_of_countP_le_one h (beq_self_eq_true c) (Nat.le_of_eq single)
    rw [if_neg (notClosed nofun), if_neg (notQueued nofun), found]
  | handled requestBuffer =>
    have found : w.allTasks.find? (·.client == c) = some ⟨c, requestBuffer⟩ := by
      apply find?_of_countP_le_one (mem_allTasks.mpr h) (beq_self_eq_true c)
      rw [countP_allTasks]
      exact Nat.le_of_eq single
    rw [if_neg (notClosed nofun), if_neg (notQueued nofun), notReturned nofun, found]
  | watched =>
    have noTask : ¬ ∃ task ∈ w.allTasks, task.client = c := by
      rintro ⟨task, member, isC⟩
      exact elsewhere (p := .handler) nofun
        (in_handler_iff.mpr ⟨task, mem_allTasks.mp member, isC⟩)
    rw [if_neg (notClosed nofun), if_neg (notQueued nofun), notReturned nofun,
      find?_of_not_in noTask]

theorem Staged.known (h : w.Staged c stage) (own : OwnershipInv w) : c < w.accepted :=
  own.known h.place

theorem Staged.view_eq (h : w.Staged c stage) (own : OwnershipInv w) :
    w.view c = some ⟨stage, w.stream c⟩ := by
  rw [view, if_pos (h.known own), h.stage_eq own]

/-- An accepted client has a stage. -/
theorem OwnershipInv.staged (own : OwnershipInv w) (known : c < w.accepted) :
    ∃ stage, w.Staged c stage := by
  have counted := own.counted c
  rw [if_pos known] at counted
  have somewhere : ∃ p, 0 < w.occurrences c p := by
    by_contra nowhere
    have none (p : Place) : w.occurrences c p = 0 := by
      by_contra positive
      exact nowhere ⟨p, Nat.pos_of_ne_zero positive⟩
    simp [total, none] at counted
  obtain ⟨p, found⟩ := somewhere
  exact staged_of_in ((in_iff_occurrences_pos w c p).mpr found)

/-! ## Steps -/

/-- The client is where it was. -/
theorem follows_of_staged (h : w.Staged c stage) (own : OwnershipInv w) (own' : OwnershipInv w')
    (same : w'.Staged c stage) (stream : w'.stream c = w.stream c) :
    Follows (Connection.next P server) (w.view c) none (w'.view c) := by
  rw [follows_none, h.view_eq own, same.view_eq own', stream]

/-- The client takes a step of its connection. -/
theorem follows_of_next (h : w.Staged c stage) (own : OwnershipInv w) (own' : OwnershipInv w')
    (stage' : Stage) {b : Connection.Action} (after : w'.Staged c stage')
    (step : Connection.next P server (some ⟨stage, w.stream c⟩) b =
      some (some ⟨stage', w'.stream c⟩)) :
    Follows (Connection.next P server) (w.view c) (some b) (w'.view c) := by
  rw [follows_some, h.view_eq own, after.view_eq own', step]

/-- A step that changes nothing of these fields. -/
theorem Staged.congr (h : w.Staged c stage)
    (newQueue : w'.newFdChannel.queue = w.newFdChannel.queue)
    (connections : w'.connections = w.connections) (tasks : w'.tasks = w.tasks)
    (running : w'.running = w.running)
    (returnQueue : w'.returnChannel.queue = w.returnChannel.queue) (closed : w'.closed = w.closed) :
    w'.Staged c stage := by
  cases stage with
  | queued => rwa [Staged, newQueue]
  | watched => rwa [Staged, connections]
  | handled requestBuffer => rwa [Staged, Holds, tasks, running]
  | returned keepAlive => rwa [Staged, returnQueue]
  | closed => rwa [Staged, closed]

/-- What reaches the socket of a client. -/
theorem follows_setSocket (own : OwnershipInv w) (own' : OwnershipInv (w.setSocket d k))
    (known : c < w.accepted) {b : Connection.Action}
    (socket : ∀ x : Connection, x.stream = w.stream d →
      Connection.next P server (some x) b = some (some (x.setSocket k))) :
    Follows (Connection.next P server) (w.view c) (if c = d then some b else none)
      ((w.setSocket d k).view c) := by
  obtain ⟨stage, staged⟩ := own.staged known
  have after : (w.setSocket d k).Staged c stage := staged.congr rfl rfl rfl rfl rfl rfl
  by_cases isD : c = d
  · subst isD
    rw [if_pos rfl]
    apply follows_of_next staged own own' stage after
    rw [socket _ rfl]
    simp only [Connection.setSocket, setSocket, setStream_self]
  · rw [if_neg isD]
    exact follows_of_staged staged own own' after (setStream_of_ne isD)

theorem follows_accept (own : OwnershipInv w) (own' : OwnershipInv w') {transport : Transport}
    (accepted : w'.accepted = w.accepted + 1)
    (stream : w'.stream = Function.update w.stream w.accepted { transport := transport })
    (closed : w'.closed = Function.update w.closed w.accepted false)
    (newQueue : w'.newFdChannel.queue = w.newFdChannel.queue ++ [w.accepted])
    (connections : w'.connections = w.connections) (tasks : w'.tasks = w.tasks)
    (running : w'.running = w.running)
    (returnQueue : w'.returnChannel.queue = w.returnChannel.queue) :
    Follows (Connection.next P server) (w.view c)
      (if c = w.accepted then some (.accept transport) else none) (w'.view c) := by
  rcases Nat.lt_trichotomy c w.accepted with known | rfl | unknown
  · rw [if_neg (Nat.ne_of_lt known)]
    obtain ⟨stage, staged⟩ := own.staged known
    apply follows_of_staged staged own own'
    · cases stage with
      | queued =>
        rw [Staged, newQueue]
        exact List.mem_append_left _ staged
      | watched => rwa [Staged, connections]
      | handled requestBuffer => rwa [Staged, Holds, tasks, running]
      | returned keepAlive => rwa [Staged, returnQueue]
      | closed => rwa [Staged, closed, Function.update_of_ne (Nat.ne_of_lt known)]
    · rw [stream, Function.update_of_ne (Nat.ne_of_lt known)]
  · have staged : w'.Staged w.accepted .queued := by
      rw [Staged, newQueue]
      exact List.mem_append_right _ List.mem_cons_self
    rw [if_pos rfl, follows_some, staged.view_eq own', view, if_neg (Nat.lt_irrefl _), stream,
      Function.update_self]
    rfl
  · have before : w.view c = none := if_neg (Nat.lt_asymm unknown)
    rw [if_neg (Nat.ne_of_gt unknown), follows_none, before, view, accepted]
    exact if_neg (Nat.not_lt.mpr unknown)

theorem follows_take (own : OwnershipInv w) (known : c < w.accepted) {i : ℕ} {task : Task}
    {tasks : List Task} (free : w.running.lookup i = none) (first : w.tasks = task :: tasks)
    (own' : OwnershipInv { w with tasks := tasks, running := w.running.insert i task }) :
    Follows (Connection.next P server) (w.view c) none
      (view c { w with tasks := tasks, running := w.running.insert i task }) := by
  obtain ⟨stage, staged⟩ := own.staged known
  apply follows_of_staged staged own own' _ rfl
  cases stage with
  | handled requestBuffer =>
    rcases staged with member | ⟨j, running⟩
    · rw [first] at member
      rcases List.mem_cons.mp member with same | later
      · exact Or.inr ⟨i, by rw [AList.lookup_insert, same]⟩
      · exact Or.inl later
    · right
      refine ⟨j, ?_⟩
      have other : j ≠ i := by
        rintro rfl
        rw [free] at running
        cases running
      rwa [AList.lookup_insert_ne other]
  | queued => exact staged
  | watched => exact staged
  | returned keepAlive => exact staged
  | closed => exact staged

theorem lookup_emplace_of_tracked {connections : UnorderedMap ℕ ClientId} {key : ℕ}
    (free : key ∉ connections) (tracked : connections.lookup fd = some d) :
    (connections.emplace key c).lookup fd = some d := by
  have other : fd ≠ key := by
    rintro rfl
    exact free (AList.lookup_isSome.mp (by rw [tracked]; rfl))
  rw [UnorderedMap.emplace_of_notMem free, AList.lookup_insert_ne other, tracked]

theorem follows_drainNew (own : OwnershipInv w) (own' : OwnershipInv (drainNewFdChannel w))
    (known : c < w.accepted) :
    Follows (Connection.next P server) (w.view c)
      (if w.newFdChannel.queue.head? = some c then some .register else none)
      ((drainNewFdChannel w).view c) := by
  obtain ⟨stage, staged⟩ := own.staged known
  have stream := congrFun (drainNewFdChannel_stream w) c
  cases hq : w.newFdChannel.queue with
  | nil =>
    rw [if_neg (by simp)]
    apply follows_of_staged staged own own' _ stream
    rw [drainNewFdChannel_of_nil hq]
    exact staged.congr rfl rfl rfl rfl rfl rfl
  | cons client queue =>
    obtain ⟨interest, after⟩ := drainNewFdChannel_of_cons hq
    have queued : w.Staged client .queued := by
      rw [Staged, hq]
      exact List.mem_cons_self
    have free : w.getFd client ∉ w.connections :=
      own.getFd_notMem ((in_iff_occurrences_pos w client _).mp queued.place) nofun nofun
    rw [List.head?_cons]
    by_cases isC : client = c
    · subst isC
      rw [if_pos rfl]
      obtain rfl : stage = .queued := by rw [← staged.stage_eq own, queued.stage_eq own]
      apply follows_of_next staged own own' .watched
      · rw [after]
        refine ⟨w.getFd client, ?_⟩
        show AList.lookup _ (w.connections.emplace _ _) = _
        rw [UnorderedMap.emplace_of_notMem free, AList.lookup_insert]
      · rw [stream]
        rfl
    · rw [if_neg (fun same => isC (Option.some.inj same))]
      apply follows_of_staged staged own own' _ stream
      rw [after]
      cases stage with
      | queued =>
        have member : c ∈ client :: queue := hq ▸ staged
        exact (List.mem_cons.mp member).resolve_left (Ne.symm isC)
      | watched =>
        obtain ⟨fd, tracked⟩ := staged
        exact ⟨fd, lookup_emplace_of_tracked free tracked⟩
      | handled requestBuffer => exact staged
      | returned keepAlive => exact staged
      | closed => exact staged

/-- A client that was closed is in no other place. -/
theorem staged_close (h : w.Staged c stage) (other : c ≠ d) : (w.close d).Staged c stage := by
  obtain ⟨fdOpen, interest, closed, -⟩ := World.close_eq d w
  rw [closed]
  cases stage with
  | closed =>
    show Function.update w.closed d true c = true
    rwa [Function.update_of_ne other]
  | queued => exact h
  | watched => exact h
  | handled requestBuffer => exact h
  | returned keepAlive => exact h

theorem follows_drainReturn (own : OwnershipInv w) (own' : OwnershipInv (drainReturnChannel w))
    (known : c < w.accepted) :
    Follows (Connection.next P server) (w.view c)
      (if w.returnChannel.queue.head?.map (·.client) = some c then some .resume else none)
      ((drainReturnChannel w).view c) := by
  obtain ⟨stage, staged⟩ := own.staged known
  have stream := congrFun (drainReturnChannel_stream w) c
  cases hq : w.returnChannel.queue with
  | nil =>
    rw [if_neg (by simp)]
    apply follows_of_staged staged own own' _ stream
    rw [drainReturnChannel_of_nil hq]
    exact staged.congr rfl rfl rfl rfl rfl rfl
  | cons rc queue =>
    obtain ⟨client, keepAlive⟩ := rc
    have first : w.Staged client (.returned keepAlive) := by
      rw [Staged, hq]
      exact List.mem_cons_self
    have free : w.getFd client ∉ w.connections :=
      own.getFd_notMem ((in_iff_occurrences_pos w client _).mp first.place) nofun nofun
    rw [List.head?_cons, Option.map_some]
    by_cases isC : client = c
    · subst isC
      rw [if_pos rfl]
      obtain rfl : stage = .returned keepAlive := by rw [← staged.stage_eq own, first.stage_eq own]
      cases keepAlive with
      | true =>
        obtain ⟨interest, after⟩ := drainReturnChannel_of_kept hq
        apply follows_of_next staged own own' .watched
        · rw [after]
          refine ⟨w.getFd client, ?_⟩
          show AList.lookup _ (w.connections.emplace _ _) = _
          rw [UnorderedMap.emplace_of_notMem free, AList.lookup_insert]
        · rw [stream]
          rfl
      | false =>
        apply follows_of_next staged own own' .closed
        · obtain ⟨fdOpen, interest, closed, -⟩ := World.close_eq client
            { w with returnChannel := { w.returnChannel with queue := queue } }
          rw [drainReturnChannel_of_closed hq, closed]
          exact Function.update_self _ _ _
        · rw [stream]
          rfl
    · rw [if_neg (fun same => isC (Option.some.inj same))]
      apply follows_of_staged staged own own' _ stream
      have shorter : World.Staged { w with
          returnChannel := { w.returnChannel with queue := queue } } c stage := by
        cases stage with
        | returned kept =>
          have member : (⟨c, kept⟩ : ReturnedConnection) ∈ ⟨client, keepAlive⟩ :: queue :=
            hq ▸ staged
          apply (List.mem_cons.mp member).resolve_left
          rintro ⟨⟩
          exact isC rfl
        | queued => exact staged
        | watched => exact staged
        | handled requestBuffer => exact staged
        | closed => exact staged
      cases keepAlive with
      | true =>
        obtain ⟨interest, after⟩ := drainReturnChannel_of_kept hq
        rw [after]
        cases stage with
        | watched =>
          obtain ⟨fd, tracked⟩ := staged
          exact ⟨fd, lookup_emplace_of_tracked free tracked⟩
        | queued => exact shorter
        | handled requestBuffer => exact shorter
        | returned kept => exact shorter
        | closed => exact shorter
      | false =>
        rw [drainReturnChannel_of_closed hq]
        exact staged_close shorter (Ne.symm isC)

/-- An event of a client that is tracked is an event of its connection. -/
theorem handleClientEvent_eq (tracked : w.connections.lookup fd = some c)
    (handled : handleClientEvent P fd false w = .ok w') :
    (∃ s, Connection.handleEvent P (w.stream c) = some ⟨.watched, s⟩ ∧
        w' = rearmFd fd (w.setStream c s)) ∨
      ∃ requestBuffer s,
        Connection.handleEvent P (w.stream c) = some ⟨.handled requestBuffer, s⟩ ∧
        w' = { w.setStream c s with
          connections := w.connections.erase fd, tasks := w.tasks ++ [⟨c, requestBuffer⟩] } := by
  simp only [handleClientEvent, tracked, Bool.false_eq_true, if_false] at handled
  unfold Connection.handleEvent
  cases found : findFirst DOUBLE_CRLF (IStream.peek P MAX_HEADER_BYTES (w.stream c)).1 with
  | none =>
    simp only [found] at handled ⊢
    exact Or.inl ⟨_, rfl, (Except.ok.inj handled).symm⟩
  | some pos =>
    simp only [found] at handled ⊢
    rcases hread : IStream.read P (pos + 4) (IStream.peek P MAX_HEADER_BYTES (w.stream c)).2 with
      ⟨e | consumed, s⟩
    · rw [hread] at handled
      cases handled
    · simp only [hread] at handled ⊢
      refine Or.inr ⟨_, s, rfl, ?_⟩
      rw [← Except.ok.inj handled]
      simp only [setStream, Function.update_idem]

theorem follows_tracked (own : OwnershipInv w) (own' : OwnershipInv w') {hangup : Bool}
    (tracked : w.connections.lookup fd = some c)
    (handled : handleClientEvent P fd hangup w = .ok w') :
    Follows (Connection.next P server) (w.view c) (some (.event hangup)) (w'.view c) := by
  have staged : w.Staged c .watched := ⟨fd, tracked⟩
  cases hangup with
  | true =>
    simp only [handleClientEvent, tracked, if_true] at handled
    cases handled
    obtain ⟨fdOpen, interest, closed, -⟩ := World.close_eq c w
    apply follows_of_next staged own own' .closed
    · rw [closed]
      exact Function.update_self _ _ _
    · rw [closed]
      rfl
  | false =>
    obtain ⟨s, event, rfl⟩ | ⟨requestBuffer, s, event, rfl⟩ := handleClientEvent_eq tracked handled
    · obtain ⟨interest, armed⟩ := rearmFd_eq fd (w.setStream c s)
      rw [armed] at own' ⊢
      apply follows_of_next staged own own' .watched
      · exact ⟨fd, tracked⟩
      · show (Connection.handleEvent P (w.stream c)).map some = _
        rw [event]
        exact congrArg (fun t => some (some (Connection.mk .watched t))) setStream_self.symm
    · apply follows_of_next staged own own' (.handled requestBuffer)
      · exact Or.inl (List.mem_append_right _ List.mem_cons_self)
      · show (Connection.handleEvent P (w.stream c)).map some = _
        rw [event]
        exact congrArg (fun t => some (some (Connection.mk _ t))) setStream_self.symm

/-- Another key than this client's is erased. -/
theorem tracked_erase (other : w.connections.lookup fd ≠ some c)
    (h : ∃ key, w.connections.lookup key = some c) :
    ∃ key, (w.connections.erase fd).lookup key = some c := by
  obtain ⟨key, tracked⟩ := h
  have apart : key ≠ fd := by
    rintro rfl
    exact other tracked
  exact ⟨key, by rw [AList.lookup_erase_ne apart, tracked]⟩

/-- An event of another client. -/
theorem follows_untracked (own : OwnershipInv w) (own' : OwnershipInv w') (known : c < w.accepted)
    {hangup : Bool} (other : w.connections.lookup fd ≠ some c)
    (handled : handleClientEvent P fd hangup w = .ok w') :
    Follows (Connection.next P server) (w.view c) none (w'.view c) := by
  obtain ⟨stage, staged⟩ := own.staged known
  obtain ⟨-, rfl⟩ | ⟨client, tracked, outcome⟩ := handleClientEvent_cases handled
  · exact follows_of_staged staged own own' staged rfl
  have apart : c ≠ client := by
    rintro rfl
    exact other tracked
  obtain ⟨-, fdOpen, interest, rfl, -⟩ | ⟨-, -, interest, rfl⟩ | ⟨-, pos, head, rfl⟩ := outcome
  · apply follows_of_staged staged own own' _ rfl
    cases stage with
    | watched => exact tracked_erase other staged
    | closed =>
      show Function.update w.closed client true c = true
      rwa [Function.update_of_ne apart]
    | queued => exact staged
    | handled requestBuffer => exact staged
    | returned keepAlive => exact staged
  · apply follows_of_staged staged own own' _ (setStream_of_ne apart)
    exact staged.congr rfl rfl rfl rfl rfl rfl
  · apply follows_of_staged staged own own' _ (setStream_of_ne apart)
    cases stage with
    | watched => exact tracked_erase other staged
    | handled requestBuffer => exact staged.imp_left (List.mem_append_left _)
    | queued => exact staged
    | returned keepAlive => exact staged
    | closed => exact staged

/-! ## The handler -/

end World

namespace ClientRequestHandler

variable {ρ : Type} [RegexEngine ρ] {P : Platform} {server : HttpServer ρ}

theorem writeAndReturn_client (c d : ClientId) (bytes : Bytes) (s : Stream) :
    writeAndReturn d bytes s = { writeAndReturn c bytes s with
      enqueued := (writeAndReturn c bytes s).enqueued.map fun rc => ⟨d, rc.keepAlive⟩ } := by
  unfold writeAndReturn
  rcases writeAll bytes s with ⟨e | count, t⟩ <;> rfl

/-- The handler does not look at the number of its client. -/
theorem call_client (c d : ClientId) (requestBuffer : Bytes) (s : Stream) :
    call P server d requestBuffer s = { call P server c requestBuffer s with
      enqueued := (call P server c requestBuffer s).enqueued.map fun rc => ⟨d, rc.keepAlive⟩ } := by
  cases parsed : HttpRequest.createRequest requestBuffer with
  | none =>
    rw [call_of_malformed parsed, call_of_malformed parsed]
    exact writeAndReturn_client c d _ s
  | some request =>
    cases replied : (respond P server request (wantsKeepAlive request) s).1 with
    | error e =>
      rw [call_of_respond_error parsed replied, call_of_respond_error parsed replied]
      exact writeAndReturn_client c d _ _
    | ok done =>
      rw [call_of_respond_ok parsed replied, call_of_respond_ok parsed replied]
      rfl

end ClientRequestHandler

namespace World

open Search NonblockingClientManagerTask Transition

variable {ρ : Type} [RegexEngine ρ] {P : Platform} {server : HttpServer ρ} {capacity : ℕ}
  {w w' : World} {a : Action} {c d : ClientId}

theorem follows_call (own : OwnershipInv w) (known : c < w.accepted) {i : ℕ} {task : Task}
    {keepAlive : Bool} (busy : w.running.lookup i = some task)
    (enqueued : (ClientRequestHandler.call P server task.client task.requestBuffer
      (w.stream task.client)).enqueued = [⟨task.client, keepAlive⟩])
    (after : w' = { w.setStream task.client (ClientRequestHandler.call P server task.client
        task.requestBuffer (w.stream task.client)).stream with
      running := w.running.erase i
      returnChannel := w.returnChannel.enqueue i ⟨task.client, keepAlive⟩ })
    (own' : OwnershipInv w') :
    Follows (Connection.next P server) (w.view c)
      (if task.client = c then some .call else none) (w'.view c) := by
  subst after
  obtain ⟨stage, staged⟩ := own.staged known
  by_cases isC : task.client = c
  · subst isC
    rw [if_pos rfl]
    have holds : w.Staged task.client (.handled task.requestBuffer) := Or.inr ⟨i, busy⟩
    apply follows_of_next holds own own' (.returned keepAlive)
    · exact List.mem_append_right _ List.mem_cons_self
    · show (Connection.handle P server task.requestBuffer (w.stream task.client)).map some = _
      rw [Connection.handle, ClientRequestHandler.call_client task.client 0]
      simp only [enqueued, List.map_cons, List.map_nil, Option.map_some]
      exact congrArg (fun t => some (some (Connection.mk (.returned keepAlive) t)))
        setStream_self.symm
  · rw [if_neg isC]
    apply follows_of_staged staged own own' _ (setStream_of_ne (Ne.symm isC))
    cases stage with
    | handled requestBuffer =>
      refine staged.imp_right ?_
      rintro ⟨j, running⟩
      refine ⟨j, ?_⟩
      have apart : j ≠ i := by
        rintro rfl
        rw [busy] at running
        cases running
        exact isC rfl
      show (w.running.erase i).lookup j = _
      rw [AList.lookup_erase_ne apart, running]
    | returned kept => exact List.mem_append_left _ staged
    | queued => exact staged
    | watched => exact staged
    | closed => exact staged

/-! ## Runs -/

/-- Only the acceptor adds clients. -/
theorem accepted_of_takes (step : Takes P server capacity w a w') :
    (∃ fd transport, a = .accept fd transport) ∨ w'.accepted = w.accepted := by
  cases step with
  | accept fd transport idle isOpen unused => exact Or.inl ⟨fd, transport, rfl⟩
  | client fd hangup batch w' idle first handled =>
    exact Or.inr (handleClientEvent_keeps handled).1
  | drainNew draining =>
    obtain ⟨interest, connections, after⟩ := drainNewFdChannel_frame w
    exact Or.inr (by rw [after])
  | drainReturn draining =>
    obtain ⟨interest, connections, closed, fdOpen, after⟩ := drainReturnChannel_frame w
    exact Or.inr (by rw [after])
  | notifyNew | shutdown | arrive | foresee | ciphertext | outcome | epollWait | newPipe |
    returnPipe | take | call | notifyReturn => exact Or.inr rfl

/-- A step is a step of a client that was accepted, or accepts it. -/
theorem known_of_project (own : OwnershipInv w) (step : Takes P server capacity w a w')
    {b : Connection.Action} (h : w.project c a = some b) :
    (∃ fd transport, a = .accept fd transport) ∨ c < w.accepted := by
  cases step with
  | accept fd transport idle isOpen unused => exact Or.inl ⟨fd, transport, rfl⟩
  | arrive d arrival known | foresee d arrival known | outcome d r known =>
    simp only [project] at h
    split_ifs at h with isD
    exact Or.inr (isD ▸ known)
  | client fd hangup batch w' idle first handled =>
    simp only [project, first] at h
    split_ifs at h with tracked
    exact Or.inr (own.tracked tracked).1
  | drainNew draining =>
    simp only [project, if_pos draining] at h
    split_ifs at h with first
    exact Or.inr (own.known (p := .newQueue) (List.mem_of_mem_head? first))
  | drainReturn draining =>
    simp only [project] at h
    split_ifs at h with draining' first returned
    · exact Or.inr (own.known (p := .newQueue) (List.mem_of_mem_head? first))
    · obtain ⟨rc, isFirst, isC⟩ := Option.map_eq_some_iff.mp returned
      exact Or.inr (own.known (p := .returnQueue) ⟨rc, List.mem_of_mem_head? isFirst, isC⟩)
  | call i task keepAlive busy enqueued =>
    simp only [project, busy, Option.map_some, Option.some.injEq] at h
    split_ifs at h with isC
    exact Or.inr (own.known (p := .handler) (Or.inr ⟨i, task, busy, isC⟩))
  | newPipe batch idle first | returnPipe batch idle first =>
    simp only [project, first] at h
    cases h
  | notifyNew | shutdown | ciphertext | epollWait | take | notifyReturn => cases h

theorem drain_of_next (h : w.next P server capacity .drain = some w') :
    w.newFdChannel.reader = .draining ∧ w' = drainNewFdChannel w ∨
      w.newFdChannel.reader ≠ .draining ∧ w' = drainReturnChannel w := by
  unfold next at h
  dsimp only at h
  split_ifs at h with returned draining draining'
  · exact Or.inl ⟨draining, (Option.some.inj h).symm⟩
  · exact Or.inr ⟨draining, (Option.some.inj h).symm⟩

/-- A step of the server is a step of the connection it is for, and of no other. -/
theorem follows_of_step (own : OwnershipInv w) (step : w.next P server capacity a = some w') :
    Follows (Connection.next P server) (w.view c) (w.project c a) (w'.view c) := by
  have takes := takes_of_next step
  have own' : OwnershipInv w' := ownershipInv_step own takes
  by_cases known : c < w.accepted
  · cases takes with
    | accept fd transport idle isOpen unused =>
      exact follows_accept own own' rfl rfl rfl rfl rfl rfl rfl rfl
    | arrive d arrival isKnown =>
      exact follows_setSocket own own' known fun x same => by rw [← same]; rfl
    | foresee d arrival isKnown =>
      exact follows_setSocket own own' known fun x same => by rw [← same]; rfl
    | outcome d r isKnown =>
      exact follows_setSocket own own' known fun x same => by rw [← same]; rfl
    | client fd hangup batch w' idle first handled =>
      have own₀ : OwnershipInv (w.turnTo fd batch) :=
        ⟨own.counted, own.keyed, own.distinct, own.opened⟩
      simp only [project, first]
      by_cases tracked : w.connections.lookup fd = some c
      · rw [if_pos tracked]
        exact follows_tracked own₀ own' tracked handled
      · rw [if_neg tracked]
        exact @follows_untracked _ _ P server (w.turnTo fd batch) w' c fd own₀ own' known
          hangup tracked handled
    | drainNew | drainReturn =>
      obtain ⟨draining, after⟩ | ⟨draining, after⟩ := drain_of_next step
      · rw [after] at own' ⊢
        simp only [project, if_pos draining]
        exact follows_drainNew own own' known
      · rw [after] at own' ⊢
        simp only [project, if_neg draining]
        exact follows_drainReturn own own' known
    | take i task tasks free idle first => exact follows_take own known free first own'
    | call i task keepAlive busy enqueued =>
      simp only [project, busy, Option.map_some, Option.some.injEq]
      exact follows_call own known busy enqueued rfl own'
    | newPipe batch idle first =>
      obtain ⟨stage, staged⟩ := own.staged known
      simp only [project, first]
      apply follows_of_staged staged own own' _ rfl
      exact staged.congr (onReadable_queue true w.newFdChannel) rfl rfl rfl rfl rfl
    | returnPipe batch idle first =>
      obtain ⟨stage, staged⟩ := own.staged known
      simp only [project, first]
      apply follows_of_staged staged own own' _ rfl
      exact staged.congr rfl rfl rfl rfl (onReadable_queue false w.returnChannel) rfl
    | notifyNew | shutdown | ciphertext | epollWait | notifyReturn =>
      obtain ⟨stage, staged⟩ := own.staged known
      exact follows_of_staged staged own own' (staged.congr rfl rfl rfl rfl rfl rfl) rfl
  · obtain ⟨fd, transport, rfl⟩ | same := accepted_of_takes takes
    · cases takes with
      | accept _ _ idle isOpen unused =>
        exact follows_accept own own' rfl rfl rfl rfl rfl rfl rfl rfl
    · have nothing : w.project c a = none := by
        rw [Option.eq_none_iff_forall_ne_some]
        intro b projected
        obtain ⟨fd, transport, rfl⟩ | isKnown := known_of_project own takes projected
        · cases takes with
          | accept => exact absurd same (Nat.succ_ne_self _)
        · exact known isKnown
      rw [nothing, follows_none, view, view, if_neg known, if_neg (same.symm ▸ known)]

/-- What the server is for a client is always a state of its connection alone. -/
theorem refines_connection (c : ClientId) (h : Reachable Initial (Step P server capacity) w) :
    Reachable Connection.Initial (Connection.Step P server) (w.view c) := by
  apply h.of_follows
  · rintro w rfl
    rfl
  · exact fun s a t reachable step => follows_of_step (ownershipInv_reachable reachable) step

/-- A worker has the first request of the client, and there is another client. -/
theorem refines_connection_handled :
    ∃ w, Reachable Initial (Step Platform.newestFirst HttpServer.emptyServer 65536) w ∧
      w.accepted = 2 ∧ w.stage 0 = .handled (chars "GET / HTTP/1.1") ∧
      Reachable Connection.Initial
        (Connection.Step Platform.newestFirst HttpServer.emptyServer) (w.view 0) := by
  obtain ⟨w, reachable, state⟩ := @exists_reachable_of_run World Action Initial
    (next Platform.newestFirst HttpServer.emptyServer 65536) {}
    [.accept 5 .plain, .arrive 0 ⟨chars "GET / HTTP/1.1\r\n\r\n", false, none⟩, .notifyNew,
      .epollWait [.newPipe], .handle, .drain, .drain, .epollWait [.client 5 false],
      .accept 7 .plain, .handle, .take 0]
    (fun w => w.accepted = 2 ∧ w.stage 0 = .handled (chars "GET / HTTP/1.1")) rfl
    (by decide +kernel)
  obtain ⟨accepted, stage⟩ := of_decide_eq_true state
  exact ⟨w, reachable, accepted, stage, refines_connection 0 reachable⟩

/-- The number of workers is nothing to a connection. -/
theorem next_threadCount (n : ℤ) :
    Connection.next P { server with threadCount := n } = Connection.next P server := rfl

/-- Two clients whose connections took the same steps are in the same state and were sent the same,
whatever else happened on the two servers, which have the same routes and may differ in the number
of their workers and in the capacity of their pipes. -/
theorem isolated {threads threads' : ℤ} {capacity' : ℕ} {as as' : List Action}
    (h : run (next P { server with threadCount := threads } capacity) {} as = some w)
    (h' : run (next P { server with threadCount := threads' } capacity') {} as' = some w')
    (same : trace (next P { server with threadCount := threads } capacity) (project c) {} as =
      trace (next P { server with threadCount := threads' } capacity') (project d) {} as') :
    w.view c = w'.view d := by
  have alone {n : ℤ} {capacity : ℕ} {c : ClientId} {as : List Action} {w : World}
      (h : run (next P { server with threadCount := n } capacity) {} as = some w) :
      run (Connection.next P server) none
        (trace (next P { server with threadCount := n } capacity) (project c) {} as) =
        some (w.view c) := by
    rw [← next_threadCount n]
    apply @run_trace World (Option Connection) Action Connection.Action _ _ _ (view c) OwnershipInv
      {} w as _ _ ownershipInv_initial h
    · exact fun s a t own step => ownershipInv_step own (takes_of_next step)
    · exact fun s a t own step => follows_of_step own step
  have mine := alone (c := c) h
  rw [same, alone h'] at mine
  exact (Option.some.inj mine).symm

/-- The steps of a client that sends `bytes` on descriptor 5, up to its reply. -/
def oneRequest (c : ClientId) (bytes : Bytes) : List Action :=
  [.accept 5 .plain, .arrive c ⟨bytes, false, none⟩, .notifyNew, .epollWait [.newPipe], .handle,
    .drain, .drain, .epollWait [.client 5 false], .handle, .take 0, .call 0]

/-- The second client of a server with more workers and other pipes gets what the only client of
another server gets. -/
theorem isolated_second :
    ∃ w w', run (next Platform.newestFirst { HttpServer.emptyServer with threadCount := 1 } 1) {}
        (oneRequest 0 (chars "GET / HTTP/1.1\r\n\r\n")) = some w ∧
      run (next Platform.newestFirst { HttpServer.emptyServer with threadCount := 3 } 65536) {}
        ([.accept 7 .ssl, .notifyNew, .epollWait [.newPipe], .handle, .drain, .drain] ++
          oneRequest 1 (chars "GET / HTTP/1.1\r\n\r\n")) = some w' ∧
      w.view 0 ≠ none ∧ w.view 0 = w'.view 1 := by
  have first : (run (next Platform.newestFirst
      { HttpServer.emptyServer with threadCount := 1 } 1) {}
      (oneRequest 0 (chars "GET / HTTP/1.1\r\n\r\n"))).any (fun w => w.accepted = 1) = true := by
    decide +kernel
  have second : (run (next Platform.newestFirst
      { HttpServer.emptyServer with threadCount := 3 } 65536) {}
      ([.accept 7 .ssl, .notifyNew, .epollWait [.newPipe], .handle, .drain, .drain] ++
        oneRequest 1 (chars "GET / HTTP/1.1\r\n\r\n"))).isSome = true := by
    decide +kernel
  obtain ⟨w, h, accepted⟩ := (Option.any_eq_true _ _).mp first
  obtain ⟨w', h'⟩ := Option.isSome_iff_exists.mp second
  refine ⟨w, w', h, h', ?_, isolated h h' (by decide +kernel)⟩
  rw [view, if_pos (by simp [of_decide_eq_true accepted])]
  nofun

end World

end Lightning
