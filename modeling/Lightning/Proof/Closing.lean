import Lightning.Process
import Lightning.Proof.Registration

/-!
# Closing descriptors

No destructor closes a descriptor, so a client that is destroyed has been closed once exactly when
the step that drops it calls `PlainStream::close` (`ClosesFirst`). `SSLStream::close` leaves the
descriptor open, and its `SSL_shutdown` keeps the deleter from freeing the SSL object; what is in
`connections` or in the return channel when these are destroyed is dropped without any call. What a
step of the process does is derived from `next` once (`Moves`).
-/

namespace Lightning

namespace World

open NonblockingClientManagerTask Transition

variable {ρ : Type} [RegexEngine ρ] {P : Platform} {server : HttpServer ρ} {capacity : ℕ}
  {w w' : World} {a : Action} {c d : ClientId} {fd : ℕ}

/-- A hangup closes, any other event of a client does not. -/
theorem handleClientEvent_closed {hangup : Bool} (h : handleClientEvent P fd hangup w = .ok w') :
    w'.closed = (if hangup then w.connections.lookup fd else none).elim w.closed fun c =>
      Function.update w.closed c true := by
  obtain ⟨untracked, rfl⟩ | ⟨client, tracked, ⟨rfl, fdOpen, interest, rfl, -⟩ |
    ⟨rfl, -, interest, rfl⟩ | ⟨rfl, pos, head, rfl⟩⟩ := handleClientEvent_cases h
  · rw [untracked, ite_self]
    rfl
  · rw [tracked]
    rfl
  · rfl
  · rfl

/-- The two channels are drained one after the other. -/
theorem next_drain (h : w.next P server capacity .drain = some w') :
    (w.newFdChannel.reader = .draining ∧ w' = drainNewFdChannel w) ∨
      (w.newFdChannel.reader ≠ .draining ∧ w' = drainReturnChannel w) := by
  unfold next at h
  by_cases returned : w.newFdChannel.reader = .returned
  · rw [if_pos returned] at h
    cases h
  · rw [if_neg returned] at h
    dsimp only at h
    split_ifs at h with drainsNew drainsReturn
    · cases h
      exact Or.inl ⟨drainsNew, rfl⟩
    · cases h
      exact Or.inr ⟨drainsNew, rfl⟩

/-- A number that no client has yet is not closed. -/
theorem OwnershipInv.closed_accepted (own : OwnershipInv w) : w.closed w.accepted = false := by
  apply closed_eq_false_of_occurrences
  have nowhere := own.counted w.accepted
  rw [if_neg (Nat.lt_irrefl _)] at nowhere
  unfold total at nowhere
  omega

/-- The clients that are closed, before and after a step. -/
theorem next_closed (own : OwnershipInv w) (step : w.next P server capacity a = some w') :
    w'.closed = (w.droppedBy a).elim w.closed fun c => Function.update w.closed c true := by
  by_cases isDrain : a = .drain
  · subst isDrain
    obtain ⟨draining, rfl⟩ | ⟨notNew, rfl⟩ := next_drain step
    · rw [droppedBy, if_pos draining]
      cases hq : w.newFdChannel.queue with
      | nil =>
        rw [drainNewFdChannel_of_nil hq]
        rfl
      | cons client queue =>
        obtain ⟨interest, after⟩ := drainNewFdChannel_of_cons hq
        rw [after]
        rfl
    · rw [droppedBy, if_neg notNew]
      cases hq : w.returnChannel.queue with
      | nil =>
        rw [drainReturnChannel_of_nil hq]
        rfl
      | cons rc queue =>
        obtain ⟨client, _ | _⟩ := rc
        · obtain ⟨fdOpen, interest, after, -⟩ := close_eq client
            { w with returnChannel := { w.returnChannel with queue := queue } }
          rw [drainReturnChannel_of_closed hq, after]
          rfl
        · obtain ⟨interest, after⟩ := drainReturnChannel_of_kept hq
          rw [after]
          rfl
  · cases takes_of_next step with
    | accept fd transport idle isOpen unused =>
      exact Function.update_eq_self_iff.mpr own.closed_accepted.symm
    | client fd hangup batch w' idle first handled =>
      rw [handleClientEvent_closed handled, droppedBy, first]
      cases hangup <;> rfl
    | newPipe batch idle first =>
      rw [droppedBy, first]
      rfl
    | returnPipe batch idle first =>
      rw [droppedBy, first]
      rfl
    | drainNew draining => exact absurd rfl isDrain
    | drainReturn draining => exact absurd rfl isDrain
    | notifyNew | shutdown | arrive | foresee | ciphertext | outcome | epollWait | take | call |
      notifyReturn =>
      rfl

/-- The client that a step drops was not closed before. -/
theorem OwnershipInv.of_droppedBy (own : OwnershipInv w) (h : w.droppedBy a = some c) :
    c < w.accepted ∧ w.closed c = false := by
  unfold droppedBy at h
  split at h
  · split at h
    · have tracked := own.tracked h
      exact ⟨tracked.1, tracked.2.2⟩
    · cases h
  · split_ifs at h with draining
    split at h
    · rename_i client queue first
      cases h
      have found : w.In c .returnQueue := ⟨⟨c, false⟩, by rw [first]; exact List.mem_cons_self, rfl⟩
      exact ⟨own.known found, Bool.eq_false_iff.mpr (own.not_in (q := .closed) found (by decide))⟩
    · cases h
  · cases h

/-- The class of the stream of a client never changes. -/
theorem next_transport (known : c < w.accepted) (step : w.next P server capacity a = some w') :
    (w'.stream c).transport = (w.stream c).transport := by
  have other (d : ClientId) (s : Stream) (same : s.transport = (w.stream d).transport) :
      ((w.setStream d s).stream c).transport = (w.stream c).transport := by
    by_cases isD : c = d
    · rw [isD, setStream_self, same]
    · rw [setStream_of_ne isD]
  cases takes_of_next step with
  | accept fd transport idle isOpen unused =>
    exact congrArg Stream.transport (Function.update_of_ne (Nat.ne_of_lt known) _ _)
  | arrive d arrival isKnown => exact other d _ rfl
  | foresee d arrival isKnown => exact other d _ rfl
  | outcome d r isKnown => exact other d _ rfl
  | client fd hangup batch w' idle first handled =>
    have peeked (d : ClientId) : (IStream.peek P MAX_HEADER_BYTES (w.stream d)).2.transport =
        (w.stream d).transport := by
      rw [IStream.peek_eq]
      rfl
    obtain ⟨-, rfl⟩ | ⟨client, -, ⟨-, fdOpen, interest, rfl, -⟩ | ⟨-, -, interest, rfl⟩ |
      ⟨-, pos, head, rfl⟩⟩ := handleClientEvent_cases handled
    · rfl
    · rfl
    · exact other client _ (peeked client)
    · exact other client _ (IStream.read_transport.trans (peeked client))
  | drainNew draining => rw [drainNewFdChannel_stream]
  | drainReturn draining => rw [drainReturnChannel_stream]
  | call i task keepAlive busy enqueued =>
    apply other task.client
    apply ClientRequestHandler.call_keeps
      (motive := fun t => t.transport = (w.stream task.client).transport)
    · exact fun amount t same => IStream.read_transport.trans same
    · intro bytes t same
      obtain ⟨sent, after⟩ := IStream.write_stream bytes (intOfSize bytes.length) t
      rw [ClientRequestHandler.writeAll, after]
      exact same
    · rfl
  | notifyNew | shutdown | ciphertext | epollWait | newPipe | returnPipe | take | notifyReturn => rfl

end World

/-! ## Steps of the process -/

namespace Process

open World NonblockingClientManagerTask Transition

variable {ρ : Type} [RegexEngine ρ] {P : Platform} {server : HttpServer ρ} {capacity : ℕ}
  {p p' : Process} {a : Action} {c d : ClientId} {w : World}

/-- The steps that outlive the manager leave its channel alone and drop nobody. -/
theorem newFdChannel_of_outlives {a : Lightning.Action} (outlives : outlivesManager a = true)
    {w w' : World} (step : w.next P server capacity a = some w') :
    w'.newFdChannel = w.newFdChannel ∧ ∀ v : World, v.droppedBy a = none := by
  cases takes_of_next step with
  | arrive | foresee | ciphertext | outcome | take | call | notifyReturn =>
    exact ⟨rfl, fun _ => rfl⟩
  | accept | notifyNew | shutdown | epollWait | newPipe | returnPipe | client | drainNew |
    drainReturn => cases outlives

/-- What a step of the server does, whether or not the manager has returned. -/
theorem nextWorld_spec (own : OwnershipInv p.world) {a : Lightning.Action}
    (step : p.nextWorld P server capacity a = some w) :
    OwnershipInv w ∧
    w.closed = (p.world.droppedBy a).elim p.world.closed
      (fun c => Function.update p.world.closed c true) ∧
    ∀ c, p.world.closed c = true ∨ p.world.droppedBy a = some c →
      (w.stream c).transport = (p.world.stream c).transport := by
  unfold nextWorld at step
  by_cases returned : p.world.newFdChannel.reader = .returned
  · rw [if_pos returned] at step
    by_cases outlives : outlivesManager a = true
    · rw [if_pos outlives] at step
      obtain ⟨w', taken, rfl⟩ := Option.map_eq_some_iff.mp step
      have own' : OwnershipInv (resumed p.world) :=
        own.congr rfl rfl rfl rfl rfl fun c p => by cases p <;> rfl
      obtain ⟨channel, nobody⟩ := newFdChannel_of_outlives outlives taken
      have after := ownershipInv_step own' (takes_of_next taken)
      refine ⟨after.congr rfl rfl rfl rfl rfl fun c p => ?_, ?_, fun c gone => ?_⟩
      · cases p with
        | newQueue =>
          have queue : p.world.newFdChannel.queue = w'.newFdChannel.queue := by
            rw [channel]
            rfl
          simp only [occurrences, queue]
        | connections | handler | returnQueue | closed => rfl
      · have closed := next_closed own' taken
        rw [nobody] at closed ⊢
        exact closed
      · have closed : (resumed p.world).closed c = true := gone.resolve_right fun dropped => by
          rw [nobody] at dropped
          cases dropped
        have kept := next_transport (own'.known (p := .closed) closed) taken
        exact kept
    · rw [if_neg outlives] at step
      cases step
  · rw [if_neg returned] at step
    exact ⟨ownershipInv_step own (takes_of_next step), next_closed own step,
      fun c gone => next_transport (gone.elim (fun closed => own.known (p := .closed) closed)
        fun dropped => (own.of_droppedBy dropped).1) step⟩

/-! ### Closing and destroying -/

theorem close_frame (c : ClientId) (p : Process) :
    (p.close c).world = p.world ∧ (p.close c).destroyed = p.destroyed ∧
      (p.close c).closeCalls = if (p.world.stream c).transport = .plain then
        Function.update p.closeCalls c (p.closeCalls c + 1) else p.closeCalls := by
  unfold close
  cases (p.world.stream c).transport with
  | plain => exact ⟨rfl, rfl, rfl⟩
  | ssl =>
    dsimp only
    rw [if_neg (show ¬ Transport.ssl = Transport.plain by decide)]
    split_ifs <;> exact ⟨rfl, rfl, rfl⟩

theorem sslObjectDeleter_frame (c : ClientId) (p : Process) :
    (p.sslObjectDeleter c).world = p.world ∧ (p.sslObjectDeleter c).closeCalls = p.closeCalls ∧
      (p.sslObjectDeleter c).destroyed = p.destroyed := by
  unfold sslObjectDeleter
  split_ifs <;> exact ⟨rfl, rfl, rfl⟩

theorem destroy_frame (c : ClientId) (p : Process) :
    (p.destroy c).world = p.world ∧ (p.destroy c).closeCalls = p.closeCalls ∧
      (p.destroy c).destroyed = Function.update p.destroyed c true := by
  unfold destroy
  dsimp only
  cases (p.world.stream c).transport with
  | plain => exact ⟨rfl, rfl, rfl⟩
  | ssl =>
    exact sslObjectDeleter_frame c { p with destroyed := Function.update p.destroyed c true }

theorem destroyAll_frame (clients : List ClientId) (p : Process) :
    (p.destroyAll clients).world = p.world ∧ (p.destroyAll clients).closeCalls = p.closeCalls ∧
      ∀ c, (p.destroyAll clients).destroyed c = true ↔ c ∈ clients ∨ p.destroyed c = true := by
  unfold destroyAll
  induction clients generalizing p with
  | nil => exact ⟨rfl, rfl, fun c => (or_iff_right List.not_mem_nil).symm⟩
  | cons client clients ih =>
    obtain ⟨world, closeCalls, destroyed⟩ := destroy_frame client p
    obtain ⟨world', closeCalls', destroyed'⟩ := ih (p.destroy client)
    refine ⟨world'.trans world, closeCalls'.trans closeCalls, fun c => ?_⟩
    rw [List.foldl_cons, destroyed', destroyed, List.mem_cons, Function.update_apply]
    split_ifs with same
    · simp [same]
    · simp [same]

/-! ### The property and its condition -/

/-- Every accepted client that is destroyed had its descriptor closed once, and its SSL object
freed once. -/
def ClosedOnce (p : Process) : Prop :=
  ∀ c, c < p.world.accepted → p.destroyed c = true →
    p.closeCalls c = 1 ∧ ((p.world.stream c).transport = .ssl → p.freed c = 1)

/-- The step drops a client only after `PlainStream::close`: what the loop gives up is a
`PlainClient`, and the map and the queues are empty when they are destroyed. -/
def ClosesFirst (p : Process) : Action → Prop
  | .serve a => ∀ c ∈ p.world.droppedBy a, (p.world.stream c).transport = .plain
  | .destroyConnections => p.world.connections = ∅
  | .destroyChannels => p.world.newFdChannel.queue = [] ∧ p.world.returnChannel.queue = []
  | .handshake _ | .alert _ | .joinWorkers => True

/-- The steps that meet the condition. -/
def ClosingStep (P : Platform) (server : HttpServer ρ) (capacity : ℕ) (p : Process) (a : Action)
    (p' : Process) : Prop :=
  Step P server capacity p a p' ∧ p.ClosesFirst a

structure ClosingInv (p : Process) : Prop where
  own : OwnershipInv p.world
  destroyed : p.destroyed = p.world.closed
  calls : ∀ c, p.closeCalls c = if p.destroyed c then 1 else 0
  plain : ∀ c, p.destroyed c = true → (p.world.stream c).transport = .plain

theorem ClosingInv.closedOnce (h : ClosingInv p) : ClosedOnce p := by
  intro c _ destroyed
  have plain := h.plain c destroyed
  refine ⟨by rw [h.calls, if_pos destroyed], fun ssl => ?_⟩
  rw [plain] at ssl
  cases ssl

/-- A client that has not been closed and is destroyed by this step. -/
theorem not_closedOnce (h : ClosingInv p) (live : p.world.closed c = false)
    (known : c < p'.world.accepted) (calls : p'.closeCalls c = p.closeCalls c)
    (destroyed : p'.destroyed c = true) : ¬ ClosedOnce p' := by
  intro once
  have called := (once c known destroyed).1
  rw [calls, h.calls, h.destroyed, live] at called
  cases called

/-! ### Runs -/

theorem ClosingInv.congr (h : ClosingInv p) (world : p'.world = p.world)
    (destroyed : p'.destroyed = p.destroyed) (calls : p'.closeCalls = p.closeCalls) :
    ClosingInv p' where
  own := by
    rw [world]
    exact h.own
  destroyed := by
    rw [destroyed, world]
    exact h.destroyed
  calls := by
    rw [calls, destroyed]
    exact h.calls
  plain := by
    rw [destroyed, world]
    exact h.plain

theorem closingInv_initial : ClosingInv {} where
  own := ownershipInv_initial
  destroyed := rfl
  calls _ := rfl
  plain := nofun

/-- The effects of the steps, with what holds before them. -/
inductive Moves (P : Platform) (server : HttpServer ρ) (capacity : ℕ) (p : Process) :
    Action → Process → Prop
  | serve (a : Lightning.Action) (w : World) (live : p.phase = .running ∨ p.phase = .stopping)
      (taken : p.nextWorld P server capacity a = some w) (nobody : p.world.droppedBy a = none) :
      Moves P server capacity p (.serve a) { p with world := w }
  | drop (a : Lightning.Action) (w : World) (c : ClientId)
      (live : p.phase = .running ∨ p.phase = .stopping)
      (taken : p.nextWorld P server capacity a = some w) (dropped : p.world.droppedBy a = some c) :
      Moves P server capacity p (.serve a) ((({ p with world := w } : Process).close c).destroy c)
  | handshake (c : ClientId) : Moves P server capacity p (.handshake c)
      { p with initFinished := Function.update p.initFinished c true }
  | alert (c : ClientId) : Moves P server capacity p (.alert c)
      { p with shutdownState := Function.update p.shutdownState c true }
  | destroyConnections (running : p.phase = .running) :
      Moves P server capacity p .destroyConnections
        { p.destroyAll (p.world.connections.entries.map Sigma.snd) with
          world := { (p.destroyAll (p.world.connections.entries.map Sigma.snd)).world with
            connections := ∅ }
          phase := .stopping }
  | joinWorkers (stopping : p.phase = .stopping) :
      Moves P server capacity p .joinWorkers { p with phase := .joined }
  | destroyChannels (q : Process)
      (destroys : q = p.destroyAll
        (p.world.newFdChannel.queue ++ p.world.returnChannel.queue.map (·.client))) :
      Moves P server capacity p .destroyChannels { q with
        world := { q.world with
          newFdChannel := { q.world.newFdChannel with queue := [] }
          returnChannel := { q.world.returnChannel with queue := [] } }
        phase := .destroyed }

theorem moves_of_next (step : p.next P server capacity a = some p') :
    Moves P server capacity p a p' := by
  cases a with
  | serve a =>
    simp only [next] at step
    split_ifs at step with live
    obtain ⟨w, taken, rfl⟩ := Option.map_eq_some_iff.mp step
    cases dropped : p.world.droppedBy a with
    | none => exact .serve a w live taken dropped
    | some c => exact .drop a w c live taken dropped
  | handshake c =>
    simp only [next] at step
    split_ifs at step
    cases step
    exact .handshake c
  | alert c =>
    simp only [next] at step
    split_ifs at step
    cases step
    exact .alert c
  | destroyConnections =>
    simp only [next] at step
    split_ifs at step with ready
    cases step
    exact .destroyConnections ready.1
  | joinWorkers =>
    simp only [next] at step
    split_ifs at step with ready
    cases step
    exact .joinWorkers ready.1
  | destroyChannels =>
    simp only [next] at step
    split_ifs at step
    cases step
    exact .destroyChannels _ rfl

theorem closingInv_drop (h : ClosingInv p) {a : Lightning.Action}
    (taken : p.nextWorld P server capacity a = some w) (dropped : p.world.droppedBy a = some c)
    (plain : (p.world.stream c).transport = .plain) :
    ClosingInv ((({ p with world := w } : Process).close c).destroy c) := by
  obtain ⟨own, closed, transport⟩ := nextWorld_spec h.own taken
  rw [dropped] at closed
  have closed : w.closed = Function.update p.world.closed c true := closed
  have plain : (w.stream c).transport = .plain := (transport c (Or.inr dropped)).trans plain
  have live := (h.own.of_droppedBy dropped).2
  obtain ⟨world', destroyed', calls'⟩ := close_frame c { p with world := w }
  obtain ⟨world, calls, destroyed⟩ := destroy_frame c (({ p with world := w } : Process).close c)
  rw [world'] at world
  rw [destroyed'] at destroyed
  rw [calls', if_pos plain] at calls
  constructor
  · rw [world]
    exact own
  · rw [destroyed, world, closed, ← h.destroyed]
  · intro d
    rw [calls, destroyed]
    by_cases same : d = c
    · rw [same, Function.update_self, Function.update_self, h.calls, h.destroyed, live]
      rfl
    · rw [Function.update_of_ne same, Function.update_of_ne same]
      exact h.calls d
  · intro d isDestroyed
    rw [world]
    by_cases same : d = c
    · rw [same]
      exact plain
    · rw [destroyed, Function.update_of_ne same] at isDestroyed
      rw [← h.plain d isDestroyed]
      exact transport d (Or.inl (h.destroyed ▸ isDestroyed))

theorem closingInv_step (h : ClosingInv p) (step : ClosingStep P server capacity p a p') :
    ClosingInv p' := by
  obtain ⟨step, first⟩ := step
  cases moves_of_next step with
  | serve a w live taken nobody =>
    obtain ⟨own, closed, transport⟩ := nextWorld_spec h.own taken
    rw [nobody] at closed
    refine ⟨own, h.destroyed.trans closed.symm, h.calls, fun d destroyed => ?_⟩
    rw [← h.plain d destroyed]
    exact transport d (Or.inl (h.destroyed ▸ destroyed))
  | drop a w c live taken dropped => exact closingInv_drop h taken dropped (first c dropped)
  | handshake c => exact h.congr rfl rfl rfl
  | alert c => exact h.congr rfl rfl rfl
  | destroyConnections running =>
    have first : p.world.connections = ∅ := first
    rw [first]
    exact h.congr (congrArg (fun connections => { p.world with connections := connections })
      first.symm) rfl rfl
  | joinWorkers stopping => exact h.congr rfl rfl rfl
  | destroyChannels q destroys =>
    obtain ⟨new, returned⟩ := first
    rw [new, returned] at destroys
    rw [destroys]
    refine h.congr ?_ rfl rfl
    have same : ({ p.world with
        newFdChannel := { p.world.newFdChannel with queue := p.world.newFdChannel.queue }
        returnChannel := { p.world.returnChannel with queue := p.world.returnChannel.queue } } :
        World) = p.world := rfl
    rwa [new, returned] at same

theorem closingInv_reachable (h : Reachable Initial (ClosingStep P server capacity) p) :
    ClosingInv p := by
  refine h.invariant ?_ fun _ _ _ => closingInv_step
  rintro _ rfl
  exact closingInv_initial

/-- The loop drops a client that is not a `PlainClient`. -/
theorem not_closedOnce_drop (h : ClosingInv p) {a : Lightning.Action}
    (taken : p.nextWorld P server capacity a = some w) (dropped : p.world.droppedBy a = some c)
    (notPlain : (p.world.stream c).transport ≠ .plain) :
    ¬ ClosedOnce ((({ p with world := w } : Process).close c).destroy c) := by
  obtain ⟨known, live⟩ := h.own.of_droppedBy dropped
  obtain ⟨own, closed, transport⟩ := nextWorld_spec h.own taken
  rw [dropped] at closed
  obtain ⟨world', destroyed', calls'⟩ := close_frame c { p with world := w }
  obtain ⟨world, calls, destroyed⟩ := destroy_frame c (({ p with world := w } : Process).close c)
  apply not_closedOnce h live
  · rw [world, world']
    apply own.known (p := .closed)
    show w.closed c = true
    rw [closed]
    exact Function.update_self _ _ _
  · rw [calls, calls', if_neg]
    dsimp only
    rw [transport c (Or.inr dropped)]
    exact notPlain
  · rw [destroyed]
    exact Function.update_self _ _ _

/-- A client that is destroyed with what holds it. -/
theorem not_closedOnce_destroyAll (h : ClosingInv p) {clients : List ClientId}
    (member : c ∈ clients) (known : c < p.world.accepted) (live : p.world.closed c = false)
    (accepted : p'.world.accepted = (p.destroyAll clients).world.accepted)
    (calls : p'.closeCalls = (p.destroyAll clients).closeCalls)
    (destroyed : p'.destroyed = (p.destroyAll clients).destroyed) : ¬ ClosedOnce p' := by
  obtain ⟨world, calls', destroyed'⟩ := destroyAll_frame clients p
  apply not_closedOnce h live
  · rw [accepted, world]
    exact known
  · rw [calls, calls']
  · rw [destroyed]
    exact (destroyed' c).mpr (Or.inl member)

/-- A step that does not meet the condition destroys a client whose descriptor stays open. -/
theorem not_closedOnce_of_step (h : ClosingInv p) (step : Step P server capacity p a p')
    (bad : ¬ p.ClosesFirst a) : ¬ ClosedOnce p' := by
  cases moves_of_next step with
  | serve a w live taken nobody =>
    exact absurd (fun c dropped => by rw [nobody] at dropped; cases dropped) bad
  | drop a w c live taken dropped =>
    apply not_closedOnce_drop h taken dropped
    intro plain
    apply bad
    intro d droppedD
    obtain rfl : c = d := Option.some.inj (dropped.symm.trans droppedD)
    exact plain
  | destroyConnections running =>
    obtain ⟨⟨fd, c⟩, member⟩ : ∃ entry, entry ∈ p.world.connections.entries := by
      apply List.exists_mem_of_ne_nil
      exact fun empty => bad (AList.ext empty)
    have tracked := h.own.tracked (AList.mem_lookup_iff.mpr member)
    have held : c ∈ p.world.connections.entries.map Sigma.snd := List.mem_map.mpr ⟨_, member, rfl⟩
    exact not_closedOnce_destroyAll h held tracked.1 tracked.2.2 rfl rfl rfl
  | destroyChannels q destroys =>
    obtain ⟨c, queued⟩ : ∃ c, p.world.In c .newQueue ∨ p.world.In c .returnQueue := by
      by_cases new : p.world.newFdChannel.queue = []
      · obtain ⟨rc, member⟩ := List.exists_mem_of_ne_nil _ fun returned => bad ⟨new, returned⟩
        exact ⟨rc.client, Or.inr ⟨rc, member, rfl⟩⟩
      · obtain ⟨c, member⟩ := List.exists_mem_of_ne_nil _ new
        exact ⟨c, Or.inl member⟩
    have live : c < p.world.accepted ∧ ¬ p.world.In c .closed := by
      obtain new | returned := queued
      · exact ⟨h.own.known new, h.own.not_in new (by decide)⟩
      · exact ⟨h.own.known returned, h.own.not_in returned (by decide)⟩
    have held : c ∈ p.world.newFdChannel.queue ++ p.world.returnChannel.queue.map (·.client) :=
      List.mem_append.mpr (queued.imp id List.mem_map.mpr)
    subst destroys
    exact not_closedOnce_destroyAll h held live.1 (Bool.eq_false_iff.mpr live.2) rfl rfl rfl
  | handshake c => exact absurd trivial bad
  | alert c => exact absurd trivial bad
  | joinWorkers stopping => exact absurd trivial bad

/-- In every run whose steps meet the condition, every client that is destroyed was closed once;
and the next step of such a run keeps this exactly when it meets the condition too. -/
theorem closedOnce_of_closing (h : Reachable Initial (ClosingStep P server capacity) p) :
    ClosedOnce p ∧
      ∀ a p', Step P server capacity p a p' → (ClosedOnce p' ↔ p.ClosesFirst a) := by
  have inv := closingInv_reachable h
  refine ⟨inv.closedOnce, fun a p' step => ⟨fun once => ?_, fun first => ?_⟩⟩
  · by_contra bad
    exact not_closedOnce_of_step inv step bad once
  · exact (closingInv_step inv ⟨step, first⟩).closedOnce

instance (p : Process) (a : Action) : Decidable (p.ClosesFirst a) :=
  match a with
  | .serve a =>
      inferInstanceAs (Decidable
        (∀ c ∈ p.world.droppedBy a, (p.world.stream c).transport = .plain))
  | .destroyConnections =>
      decidable_of_iff (p.world.connections.entries.isEmpty = true)
        ⟨fun empty => AList.ext (List.isEmpty_iff.mp empty), fun empty => congrArg
          (fun m : UnorderedMap ℕ ClientId => m.entries.isEmpty) empty⟩
  | .destroyChannels =>
      inferInstanceAs (Decidable
        (p.world.newFdChannel.queue = [] ∧ p.world.returnChannel.queue = []))
  | .handshake _ | .alert _ | .joinWorkers => .isTrue trivial

/-- `next`, when the step meets the condition. -/
def nextClosing (P : Platform) (server : HttpServer ρ) (capacity : ℕ) (p : Process) (a : Action) :
    Option Process :=
  if p.ClosesFirst a then p.next P server capacity a else none

theorem closingStep_of_nextClosing (h : p.nextClosing P server capacity a = some p') :
    ClosingStep P server capacity p a p' := by
  unfold nextClosing at h
  split_ifs at h with first
  exact ⟨h, first⟩

/-- A client that is accepted and tracked. -/
def tracking (transport : Transport) : List Lightning.Action :=
  [.accept 5 transport, .notifyNew, .epollWait [.newPipe], .handle, .drain, .drain]

/-- Its request is answered, and the loop reads the return channel. -/
def answering (bytes : Bytes) : List Lightning.Action :=
  [.arrive 0 ⟨bytes, false, none⟩, .epollWait [.client 5 false], .handle, .take 0, .call 0,
    .notifyReturn 0, .epollWait [.returnPipe], .handle]

/-- The acceptor closes its pipe, and everything is destroyed. -/
def shuttingDown : List Action :=
  [.serve .shutdown, .serve (.epollWait [.newPipe]), .serve .handle, .destroyConnections,
    .joinWorkers, .destroyChannels]

/-- The server ends after its only client, whose request did not ask to keep the connection. -/
theorem closedOnce_of_closing_served :
    ∃ p, p.phase = .destroyed ∧ p.destroyed 0 = true ∧ ClosedOnce p ∧
      ∀ a p', Step Platform.newestFirst HttpServer.emptyServer 65536 p a p' →
        (ClosedOnce p' ↔ p.ClosesFirst a) := by
  obtain ⟨p, reachable, state⟩ := @exists_reachable_of_run Process Action Initial
    (nextClosing Platform.newestFirst HttpServer.emptyServer 65536) {}
    ((tracking .plain ++ answering (chars "GET /a HTTP/1.1\r\n\r\n") ++
      [Lightning.Action.drain, .drain]).map .serve ++ shuttingDown)
    (fun p => p.phase = .destroyed ∧ p.destroyed 0 = true) rfl (by decide +kernel)
  obtain ⟨phase, destroyed⟩ := of_decide_eq_true state
  exact ⟨p, phase, destroyed,
    closedOnce_of_closing (reachable.mono fun _ _ _ step => closingStep_of_nextClosing step)⟩

theorem not_closedOnce_of_calls (known : c < p.world.accepted) (destroyed : p.destroyed c = true)
    (calls : p.closeCalls c = 0) : ¬ ClosedOnce p := by
  intro once
  have called := (once c known destroyed).1
  rw [calls] at called
  cases called

/-- A `PlainClient` that is tracked when the server shuts down, and an `SSLClient` whose handshake
and only request went well: nobody closes the descriptors, and the SSL object is not freed. -/
theorem not_closedOnce_shutdown :
    (∃ p, Reachable Initial (Step Platform.newestFirst HttpServer.emptyServer 65536) p ∧
      (p.world.stream 0).transport = .plain ∧ ¬ ClosedOnce p) ∧
    ∃ p, Reachable Initial (Step Platform.newestFirst HttpServer.emptyServer 65536) p ∧
      (p.world.stream 0).transport = .ssl ∧ p.freed 0 = 0 ∧ ¬ ClosedOnce p := by
  constructor
  · obtain ⟨p, reachable, state⟩ := @exists_reachable_of_run Process Action Initial
      (next Platform.newestFirst HttpServer.emptyServer 65536) {}
      ((tracking .plain).map .serve ++ shuttingDown)
      (fun p => (p.world.stream 0).transport = .plain ∧ 0 < p.world.accepted ∧
        p.destroyed 0 = true ∧ p.closeCalls 0 = 0) rfl (by decide +kernel)
    obtain ⟨plain, known, destroyed, calls⟩ := of_decide_eq_true state
    exact ⟨p, reachable, plain, not_closedOnce_of_calls known destroyed calls⟩
  · obtain ⟨p, reachable, state⟩ := @exists_reachable_of_run Process Action Initial
      (next Platform.newestFirst HttpServer.emptyServer 65536) {}
      ((tracking .ssl).map .serve ++ .handshake 0 ::
        (.ciphertext 0 :: answering (chars "GET /a HTTP/1.1\r\n\r\n") ++
          [Lightning.Action.drain]).map .serve)
      (fun p => (p.world.stream 0).transport = .ssl ∧ p.freed 0 = 0 ∧ 0 < p.world.accepted ∧
        p.destroyed 0 = true ∧ p.closeCalls 0 = 0) rfl (by decide +kernel)
    obtain ⟨ssl, freed, known, destroyed, calls⟩ := of_decide_eq_true state
    exact ⟨p, reachable, ssl, freed, not_closedOnce_of_calls known destroyed calls⟩

end Process

end Lightning
