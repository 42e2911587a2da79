import Lightning.Proof.Shutdown

/-!
# The lifetimes of the clients

Every client object has one owner until its destructor runs, also while the server shuts down: the
destructors of a run together with the clients that are still held are exactly the clients that were
accepted, each once (`lifetimes`). So nothing is destroyed twice or used afterwards, and nothing is
left when the `HttpServer` has gone. What may be missing is the call of `::close` or `SSL_free`
(`ClosedOnce`); neither is ever made twice.
-/

namespace Lightning

open Transition

namespace World

variable {w w' : World} {c : ClientId}

/-- The clients that a queue, the map or a handler owns. -/
def held (w : World) : List ClientId :=
  w.newFdChannel.queue ++ w.connections.entries.map Sigma.snd ++ w.tasks.map (·.client) ++
    w.running.entries.map (·.2.client) ++ w.returnChannel.queue.map (·.client)

theorem count_held (w : World) (c : ClientId) :
    w.held.count c + (w.closed c).toNat = w.total c := by
  simp only [held, total, occurrences, UnorderedMap.countValues, List.count, List.countP_append,
    List.countP_map, Function.comp_def]
  omega

theorem OwnershipInv.of_closed (h : OwnershipInv w) (accepted : w'.accepted = w.accepted)
    (getFd : w'.getFd = w.getFd) (fdOpen : w'.fdOpen = w.fdOpen)
    (connections : w'.connections = w.connections ∨ w'.connections = ∅)
    (closed : ∀ c, w'.closed c = false → w.closed c = false)
    (total : ∀ c, w'.total c = w.total c) : OwnershipInv w' where
  counted c := by
    rw [total, accepted]
    exact h.counted c
  keyed fd c tracked := by
    rw [getFd]
    rcases connections with same | empty
    · rw [same] at tracked
      exact h.keyed fd c tracked
    · rw [empty, AList.lookup_empty] at tracked
      cases tracked
  distinct c d := by
    rw [accepted, getFd]
    exact fun known knownD live liveD =>
      h.distinct c d known knownD (closed c live) (closed d liveD)
  opened c := by
    rw [accepted, getFd, fdOpen]
    exact fun known live => h.opened c known (closed c live)

/-- The steps that go on without the manager do not look at what is closed. -/
theorem takes_of_closed {ρ : Type} [RegexEngine ρ] {P : Platform} {server : HttpServer ρ}
    {capacity : ℕ} {a : Action} (outlives : Process.outlivesManager a = true)
    (step : Takes P server capacity w a w') (closed : ClientId → Bool) :
    Takes P server capacity { w with closed := closed } a { w' with closed := closed } ∧
      w'.closed = w.closed := by
  cases step with
  | arrive c arrival known => exact ⟨.arrive c arrival known, rfl⟩
  | foresee c arrival known => exact ⟨.foresee c arrival known, rfl⟩
  | ciphertext c known => exact ⟨.ciphertext c known, rfl⟩
  | outcome c r known => exact ⟨.outcome c r known, rfl⟩
  | take i task tasks free idle first => exact ⟨.take i task tasks free idle first, rfl⟩
  | call i task keepAlive busy enqueued => exact ⟨.call i task keepAlive busy enqueued, rfl⟩
  | notifyReturn i pending => exact ⟨.notifyReturn i pending, rfl⟩
  | accept | notifyNew | shutdown | epollWait | newPipe | returnPipe | client | drainNew |
    drainReturn => cases outlives

end World

namespace Process

open World

variable {ρ : Type} [RegexEngine ρ] {P : Platform} {server : HttpServer ρ} {capacity : ℕ}
  {p p' : Process} {a : Action} {c d : ClientId}

/-- The clients whose destructors a step runs. -/
def destroys (p : Process) : Action → List ClientId
  | .serve a => (p.world.droppedBy a).toList
  | .destroyConnections => p.world.connections.entries.map Sigma.snd
  | .destroyChannels => p.world.newFdChannel.queue ++ p.world.returnChannel.queue.map (·.client)
  | .handshake _ | .alert _ | .joinWorkers => []

/-- The clients whose destructors a run runs, in order. -/
def destructors (P : Platform) (server : HttpServer ρ) (capacity : ℕ) :
    Process → List Action → List ClientId
  | _, [] => []
  | p, a :: as => p.destroys a ++
      (p.next P server capacity a).elim [] fun p' => destructors P server capacity p' as

/-- The world in which the clients that are closed are those that are destroyed. -/
def owners (p : Process) : World := { p.world with closed := p.destroyed }

/-- Every client has one owner until it is destroyed, and what has been destroyed owns nothing. -/
structure LifetimeInv (p : Process) : Prop where
  own : OwnershipInv p.owners
  running : p.phase = .running → p.world.closed = p.destroyed
  returned : p.phase ≠ .running →
    p.world.newFdChannel.reader = .returned ∧ p.world.connections = ∅
  joined : p.phase = .joined ∨ p.phase = .destroyed →
    p.world.tasks = [] ∧ p.world.running.entries = []
  drained : p.phase = .destroyed →
    p.world.newFdChannel.queue = [] ∧ p.world.returnChannel.queue = []

theorem lifetimeInv_initial : LifetimeInv {} where
  own := ownershipInv_initial
  running _ := rfl
  returned h := absurd rfl h
  joined h := by simp at h
  drained h := nomatch h

/-- A client that something owns has not been destroyed. -/
theorem LifetimeInv.live (h : LifetimeInv p) {place : Place} (found : p.world.In c place)
    (elsewhere : place ≠ .closed) : c < p.world.accepted ∧ p.destroyed c = false := by
  have owned : p.owners.In c place := by
    cases place with
    | newQueue | connections | handler | returnQueue => exact found
    | closed => exact absurd rfl elsewhere
  have live : ¬ p.owners.In c .closed := h.own.not_in owned elsewhere.symm
  exact ⟨h.own.known owned, Bool.eq_false_iff.mpr live⟩

/-- A client is held or has been destroyed, and not both. -/
theorem LifetimeInv.counted (h : LifetimeInv p) (c : ClientId) :
    p.world.held.count c + (p.destroyed c).toNat = if c < p.world.accepted then 1 else 0 :=
  (count_held p.owners c).trans (h.own.counted c)

theorem LifetimeInv.single (h : LifetimeInv p) (c : ClientId) :
    p.world.held.count c + (p.destroyed c).toNat ≤ 1 := by
  rw [h.counted]
  split_ifs
  · exact Nat.le_refl 1
  · exact Nat.zero_le 1

theorem toNat_destroyAll (clients : List ClientId) (p : Process)
    (single : clients.count c + (p.destroyed c).toNat ≤ 1) :
    ((p.destroyAll clients).destroyed c).toNat = clients.count c + (p.destroyed c).toNat := by
  have split : (p.destroyAll clients).destroyed c = true ↔
      0 < clients.count c ∨ p.destroyed c = true := by
    rw [(destroyAll_frame clients p).2.2, List.count_pos_iff]
  cases here : (p.destroyAll clients).destroyed c with
  | false =>
    have neither := mt split.mpr (by simp [here])
    simp only [not_or, Bool.not_eq_true] at neither
    rw [neither.2, Bool.toNat_false]
    omega
  | true =>
    rw [Bool.toNat_true]
    rcases split.mp here with held | old
    · omega
    · rw [old, Bool.toNat_true] at single ⊢
      omega

/-! ## Steps -/

/-- While the manager runs nothing has been destroyed but what it dropped. -/
theorem LifetimeInv.owners_of_running (h : LifetimeInv p) (running : p.phase = .running) :
    p.owners = p.world := by
  rw [owners, ← h.running running]

/-- A client that the loop drops is destroyed while the manager runs. -/
theorem running_of_dropped (h : LifetimeInv p) (live : p.phase = .running ∨ p.phase = .stopping)
    {a : Lightning.Action} {w : World} (taken : p.nextWorld P server capacity a = some w)
    (dropped : p.world.droppedBy a = some c) : p.phase = .running := by
  refine live.resolve_right fun stopping => ?_
  have returned := (h.returned (by simp [stopping])).1
  rcases nextWorld_cases taken with ⟨runs, -⟩ | ⟨-, outlives, w', step, -⟩
  · exact runs returned
  · rw [(newFdChannel_of_outlives outlives step).2] at dropped
    cases dropped

theorem lifetimeInv_drop (h : LifetimeInv p) (running : p.phase = .running)
    {a : Lightning.Action} {w : World} (taken : p.nextWorld P server capacity a = some w)
    (dropped : p.world.droppedBy a = some c) :
    LifetimeInv ((({ p with world := w } : Process).close c).destroy c) := by
  obtain ⟨own, closed, -⟩ := nextWorld_spec (h.owners_of_running running ▸ h.own) taken
  obtain ⟨world', destroyed', -⟩ := close_frame c { p with world := w }
  obtain ⟨world, -, destroyed⟩ := destroy_frame c (({ p with world := w } : Process).close c)
  have phase : ((({ p with world := w } : Process).close c).destroy c).phase = .running := by
    rw [destroy_phase, close_phase]
    exact running
  rw [dropped, Option.elim_some, h.running running] at closed
  rw [world'] at world
  rw [destroyed'] at destroyed
  have same : w.closed = ((({ p with world := w } : Process).close c).destroy c).destroyed :=
    closed.trans destroyed.symm
  refine ⟨?_, fun _ => ?_, ?_, ?_, ?_⟩
  · rw [owners, world, ← same]
    exact own
  · rw [world]
    exact same
  · exact fun ends => absurd phase ends
  · simp [phase]
  · simp [phase]

theorem lifetimeInv_serve (h : LifetimeInv p) (live : p.phase = .running ∨ p.phase = .stopping)
    {a : Lightning.Action} {w : World} (taken : p.nextWorld P server capacity a = some w)
    (nobody : p.world.droppedBy a = none) : LifetimeInv { p with world := w } := by
  rcases live with running | stopping
  · obtain ⟨own, closed, -⟩ := nextWorld_spec (h.owners_of_running running ▸ h.own) taken
    rw [nobody, Option.elim_none, h.running running] at closed
    refine ⟨?_, fun _ => closed, fun ends => absurd running ends, by simp [running],
      by simp [running]⟩
    rw [owners, ← closed]
    exact own
  · obtain ⟨returned, empty⟩ := h.returned (by simp [stopping])
    rcases nextWorld_cases taken with ⟨runs, -⟩ | ⟨-, outlives, w', step, rfl⟩
    · exact absurd returned runs
    have channel := (newFdChannel_of_outlives outlives step).1
    have step' := (takes_of_closed outlives (takes_of_next step) p.destroyed).1
    have before : OwnershipInv { resumed p.world with closed := p.destroyed } :=
      h.own.congr rfl rfl rfl rfl rfl fun c place => by cases place <;> rfl
    have queue : p.world.newFdChannel.queue = w'.newFdChannel.queue := by
      rw [channel]
      rfl
    have tracked : w'.connections = ∅ := by
      rw [← empty]
      cases takes_of_next step with
      | arrive | foresee | ciphertext | outcome | take | call | notifyReturn => rfl
      | accept | notifyNew | shutdown | epollWait | newPipe | returnPipe | client | drainNew |
        drainReturn => cases outlives
    refine ⟨?_, by simp [stopping], fun _ => ⟨returned, tracked⟩, by simp [stopping],
      by simp [stopping]⟩
    refine (ownershipInv_step before step').congr rfl rfl rfl rfl rfl fun c place => ?_
    cases place with
    | newQueue => simp only [occurrences, owners, queue]
    | connections | handler | returnQueue | closed => rfl

/-- What holds clients goes with them. -/
theorem lifetimeInv_destroyAll (h : LifetimeInv p) {clients : List ClientId} {w : World}
    {phase : Phase} (accepted : w.accepted = p.world.accepted) (getFd : w.getFd = p.world.getFd)
    (fdOpen : w.fdOpen = p.world.fdOpen) (reader : w.newFdChannel.reader = .returned)
    (connections : w.connections = ∅)
    (counts : ∀ c, w.held.count c + clients.count c = p.world.held.count c)
    (stops : phase ≠ .running)
    (joined : phase = .joined ∨ phase = .destroyed → w.tasks = [] ∧ w.running.entries = [])
    (drained : phase = .destroyed → w.newFdChannel.queue = [] ∧ w.returnChannel.queue = []) :
    LifetimeInv { p.destroyAll clients with world := w, phase := phase } := by
  obtain ⟨-, -, destroyed⟩ := destroyAll_frame clients p
  refine ⟨?_, fun runs => absurd runs stops, fun _ => ⟨reader, connections⟩, joined, drained⟩
  refine h.own.of_closed accepted getFd fdOpen (Or.inr connections) (fun c => ?_) (fun c => ?_)
  · rw [owners, owners, ← Bool.not_eq_true, ← Bool.not_eq_true, destroyed]
    exact fun live gone => live (Or.inr gone)
  · have before := count_held p.owners c
    have after := count_held (owners { p.destroyAll clients with world := w, phase := phase }) c
    have sum := counts c
    have gone := toNat_destroyAll clients p (c := c) (by have := h.single c; omega)
    rw [← after, ← before]
    change w.held.count c + ((p.destroyAll clients).destroyed c).toNat =
      p.world.held.count c + (p.destroyed c).toNat
    omega

theorem lifetimeInv_step (h : LifetimeInv p) (step : p.next P server capacity a = some p') :
    LifetimeInv p' := by
  have moves := moves_of_next step
  cases moves with
  | serve a w live taken nobody => exact lifetimeInv_serve h live taken nobody
  | drop a w c live taken dropped =>
    exact lifetimeInv_drop h (running_of_dropped h live taken dropped) taken dropped
  | handshake c => exact ⟨h.own, h.running, h.returned, h.joined, h.drained⟩
  | alert c => exact ⟨h.own, h.running, h.returned, h.joined, h.drained⟩
  | destroyConnections running =>
    have returned := (destroyConnections_effect step).2.1
    obtain ⟨world, -, -⟩ :=
      destroyAll_frame (p.world.connections.entries.map Sigma.snd) p
    refine lifetimeInv_destroyAll h ?_ ?_ ?_ ?_ rfl (fun c => ?_) (by simp) (by simp) (by simp)
    · rw [world]
    · rw [world]
    · rw [world]
    · rw [world]
      exact returned
    · have none : (∅ : UnorderedMap ℕ ClientId).entries = [] := rfl
      simp only [world, held, none, List.map_nil, List.append_nil, List.count_append]
      omega
  | joinWorkers stopping =>
    have done := (joinWorkers_effect step).2.1
    simp only [workersDone, Bool.and_eq_true, List.isEmpty_iff] at done
    exact ⟨h.own, by simp, fun _ => h.returned (by simp [stopping]), fun _ => done.1, by simp⟩
  | destroyChannels q destroys =>
    have joined : p.phase = .joined := by
      simp only [next] at step
      split_ifs at step with joined
      exact joined
    obtain ⟨returned, empty⟩ := h.returned (by simp [joined])
    obtain ⟨world, -, -⟩ := destroyAll_frame
      (p.world.newFdChannel.queue ++ p.world.returnChannel.queue.map (·.client)) p
    subst destroys
    refine lifetimeInv_destroyAll h ?_ ?_ ?_ ?_ ?_ (fun c => ?_) (by simp) (fun _ => ?_)
      (fun _ => ⟨rfl, rfl⟩)
    · rw [world]
    · rw [world]
    · rw [world]
    · rw [world]
      exact returned
    · rw [world]
      exact empty
    · simp only [world, held, List.map_nil, List.append_nil, List.nil_append, List.count_append]
      omega
    · rw [world]
      exact h.joined (Or.inl joined)

/-! ## What a step destroys, closes and frees -/

theorem toNat_update (f : ClientId → Bool) (c d : ClientId) (live : f d = false) :
    (Function.update f d true c).toNat = [d].count c + (f c).toNat := by
  by_cases same : c = d
  · rw [same, Function.update_self, live]
    simp
  · rw [Function.update_of_ne same, List.count_singleton, if_neg (by simpa using Ne.symm same)]
    omega

/-- A step destroys each client that it destroys once, and none that was destroyed before. -/
theorem count_destroys (h : LifetimeInv p) (step : p.next P server capacity a = some p')
    (c : ClientId) :
    (p.destroys a).count c + (p.destroyed c).toNat = (p'.destroyed c).toNat := by
  have single := h.single c
  have moves := moves_of_next step
  cases moves with
  | serve a w live taken nobody =>
    rw [destroys, nobody]
    simp
  | drop a w d live taken dropped =>
    have running := running_of_dropped h live taken dropped
    have alive : p.destroyed d = false := by
      rw [← h.running running]
      exact ((h.owners_of_running running ▸ h.own).of_droppedBy dropped).2
    rw [(destroy_frame d _).2.2, (close_frame d _).2.1, destroys, dropped]
    exact (toNat_update p.destroyed c d alive).symm
  | handshake d => simp [destroys]
  | alert d => simp [destroys]
  | joinWorkers stopping => simp [destroys]
  | destroyConnections running =>
    simp only [held, List.count_append] at single
    exact (toNat_destroyAll (c := c) (p.world.connections.entries.map Sigma.snd) p (by omega)).symm
  | destroyChannels q destroys' =>
    subst destroys'
    simp only [held, List.count_append] at single
    refine (toNat_destroyAll
      (p.world.newFdChannel.queue ++ p.world.returnChannel.queue.map (·.client)) p ?_).symm
    rw [List.count_append]
    omega

theorem destroy_freed (c d : ClientId) (p : Process) :
    (p.destroy c).freed d ≤ p.freed d + [c].count d := by
  unfold destroy
  dsimp only
  cases (p.world.stream c).transport with
  | plain => exact Nat.le_add_right _ _
  | ssl =>
    simp only [sslObjectDeleter]
    split_ifs with quiet
    · by_cases same : d = c
      · simp [same]
      · simp [same]
    · exact Nat.le_add_right _ _

theorem destroyAll_freed (clients : List ClientId) (d : ClientId) (p : Process) :
    (p.destroyAll clients).freed d ≤ p.freed d + clients.count d := by
  induction clients generalizing p with
  | nil => exact Nat.le_add_right _ _
  | cons c clients ih =>
    have first := destroy_freed c d p
    have rest : (p.destroyAll (c :: clients)).freed d ≤ (p.destroy c).freed d + clients.count d :=
      ih (p.destroy c)
    have split : (c :: clients).count d = [c].count d + clients.count d := by
      rw [← List.singleton_append, List.count_append]
    omega

theorem close_freed (c : ClientId) (p : Process) : (p.close c).freed = p.freed := by
  unfold close
  cases (p.world.stream c).transport with
  | plain => rfl
  | ssl =>
    dsimp only
    split_ifs <;> rfl

theorem close_calls (c d : ClientId) (p : Process) :
    (p.close c).closeCalls d ≤ p.closeCalls d + [c].count d := by
  rw [(close_frame c p).2.2]
  split_ifs
  · by_cases same : d = c
    · rw [same, Function.update_self]
      simp
    · rw [Function.update_of_ne same]
      exact Nat.le_add_right _ _
  · exact Nat.le_add_right _ _

/-- The descriptor and the SSL object go with the client at most. -/
theorem releases_of_step (step : p.next P server capacity a = some p') (c : ClientId) :
    p'.closeCalls c ≤ p.closeCalls c + (p.destroys a).count c ∧
      p'.freed c ≤ p.freed c + (p.destroys a).count c := by
  have moves := moves_of_next step
  cases moves with
  | serve | handshake | alert | joinWorkers => exact ⟨Nat.le_add_right _ _, Nat.le_add_right _ _⟩
  | drop a w d live taken dropped =>
    have freed := destroy_freed d c (({ p with world := w } : Process).close d)
    rw [close_freed] at freed
    rw [(destroy_frame d _).2.1, destroys, dropped]
    exact ⟨close_calls d c { p with world := w }, freed⟩
  | destroyConnections running =>
    refine ⟨?_, destroyAll_freed _ c p⟩
    rw [(destroyAll_frame (p.world.connections.entries.map Sigma.snd) p).2.1]
    exact Nat.le_add_right _ _
  | destroyChannels q destroys' =>
    subst destroys'
    refine ⟨?_, destroyAll_freed _ c p⟩
    rw [(destroyAll_frame
      (p.world.newFdChannel.queue ++ p.world.returnChannel.queue.map (·.client)) p).2.1]
    exact Nat.le_add_right _ _

/-! ## Runs -/

theorem destructors_run {actions : List Action} (h : LifetimeInv p)
    (hrun : run (next P server capacity) p actions = some p') :
    LifetimeInv p' ∧ ∀ c,
      (destructors P server capacity p actions).count c + (p.destroyed c).toNat =
        (p'.destroyed c).toNat ∧
      p'.closeCalls c ≤ p.closeCalls c + (destructors P server capacity p actions).count c ∧
      p'.freed c ≤ p.freed c + (destructors P server capacity p actions).count c := by
  induction actions generalizing p with
  | nil =>
    obtain rfl : p = p' := Option.some.inj hrun
    exact ⟨h, fun c => ⟨Nat.zero_add _, Nat.le_add_right _ _, Nat.le_add_right _ _⟩⟩
  | cons a actions ih =>
    obtain ⟨q, step, rest⟩ := Option.bind_eq_some_iff.mp hrun
    obtain ⟨h', later⟩ := ih (lifetimeInv_step h step) rest
    refine ⟨h', fun c => ?_⟩
    have first := count_destroys h step c
    have releases := releases_of_step step c
    have later := later c
    rw [destructors, step, Option.elim_some, List.count_append]
    omega

/-- The destructors that have run and the clients that are held are the clients that were accepted,
each once; `::close` and `SSL_free` are called at most as often as the destructor, and nothing is
held once the `HttpServer` is destroyed. -/
theorem lifetimes {actions : List Action}
    (hrun : run (next P server capacity) {} actions = some p) :
    (destructors P server capacity {} actions ++ p.world.held).Perm
        (List.range p.world.accepted) ∧
      (∀ c, (p.destroyed c = true ↔ c ∈ destructors P server capacity {} actions) ∧
        p.closeCalls c ≤ (destructors P server capacity {} actions).count c ∧
        p.freed c ≤ (destructors P server capacity {} actions).count c) ∧
      (p.phase = .destroyed → p.world.held = []) := by
  obtain ⟨h, counts⟩ := destructors_run lifetimeInv_initial hrun
  have old (c : ClientId) : (({} : Process).destroyed c).toNat = 0 := rfl
  refine ⟨List.perm_iff_count.mpr fun c => ?_, fun c => ⟨?_, ?_⟩, fun gone => ?_⟩
  · have counted := h.counted c
    have ran := (counts c).1
    rw [old] at ran
    rw [List.count_append, List.nodup_range.count]
    simp only [List.mem_range]
    omega
  · have ran := (counts c).1
    rw [← List.count_pos_iff]
    cases gone : p.destroyed c with
    | true =>
      rw [old, gone, Bool.toNat_true] at ran
      exact iff_of_true rfl (by omega)
    | false =>
      rw [old, gone, Bool.toNat_false] at ran
      exact iff_of_false (by decide) (by omega)
  · have releases := (counts c).2
    simpa using releases
  · obtain ⟨new, returned⟩ := h.drained gone
    obtain ⟨tasks, running⟩ := h.joined (Or.inr gone)
    have connections := (h.returned (by simp [gone])).2
    have none : (∅ : UnorderedMap ℕ ClientId).entries = [] := rfl
    simp [held, new, returned, tasks, running, connections, none]

/-- One client is answered and dropped, and another is tracked when everything is destroyed. -/
def twoClients : List Action :=
  (tracking .plain ++ answering (chars "GET /a HTTP/1.1\r\n\r\n") ++
    [Lightning.Action.drain, .drain, .accept 7 .ssl, .notifyNew, .epollWait [.newPipe], .handle,
      .drain, .drain]).map .serve ++ shuttingDown

theorem lifetimes_twoClients :
    ∃ p : Process, p.phase = .destroyed ∧ p.world.accepted = 2 ∧
      (destructors Platform.newestFirst HttpServer.emptyServer 65536 {} twoClients ++
        p.world.held).Perm (List.range p.world.accepted) ∧
      (∀ c, (p.destroyed c = true ↔
          c ∈ destructors Platform.newestFirst HttpServer.emptyServer 65536 {} twoClients) ∧
        p.closeCalls c ≤
          (destructors Platform.newestFirst HttpServer.emptyServer 65536 {} twoClients).count c ∧
        p.freed c ≤
          (destructors Platform.newestFirst HttpServer.emptyServer 65536 {} twoClients).count c) ∧
      (p.phase = .destroyed → p.world.held = []) := by
  obtain ⟨p, hrun, state⟩ := (Option.any_eq_true _ _).mp
    (show (run (next Platform.newestFirst HttpServer.emptyServer 65536) {} twoClients).any
      (fun p => p.phase = .destroyed ∧ p.world.accepted = 2) = true by decide +kernel)
  obtain ⟨phase, accepted⟩ := of_decide_eq_true state
  exact ⟨p, phase, accepted, lifetimes hrun⟩

end Process

end Lightning
