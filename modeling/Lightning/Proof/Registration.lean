import Lightning.Proof.Ownership

/-!
# What is registered with epoll

A registration is one-shot, so the loop sees at most one event of a client until it arms the
descriptor again. `RegistrationInv` says for each place a client can be in what the kernel knows of
its descriptor: nothing while it is queued, a disarmed registration while a worker has it, and an
armed one or an event of the batch exactly while it is tracked. A step is about one descriptor, and
the rule `RegistrationInv.at_fd` reduces it to that descriptor.
-/

namespace Lightning.World

open NonblockingClientManagerTask Transition

variable {ρ : Type} [RegexEngine ρ] {P : Platform} {server : HttpServer ρ} {capacity : ℕ}
  {w w' : World} {a : Action} {c d : ClientId} {fd : ℕ}

/-- The batch holds an event of the descriptor that is not handled yet. -/
def Pending (w : World) (fd : ℕ) : Prop := ∃ hangup, Event.client fd hangup ∈ w.batch

/-- A worker has the client, or has returned it. -/
def Away (w : World) (c : ClientId) : Prop := w.In c .handler ∨ w.In c .returnQueue

structure RegistrationInv (w : World) : Prop where
  opened : ∀ fd, w.interest fd ≠ none → w.fdOpen fd = true
  queued : ∀ c, w.In c .newQueue → w.interest (w.getFd c) = none
  away : ∀ c, w.Away c → w.interest (w.getFd c) = some false
  tracked : ∀ fd ∈ w.connections, w.interest fd = some true ∧ ¬ w.Pending fd ∨
    w.interest fd = some false ∧ w.Pending fd
  untracked : ∀ fd, fd ∉ w.connections → w.interest fd ≠ some true ∧ ¬ w.Pending fd
  distinct : (w.batch.map eventFd).Nodup

/-! ## Consequences -/

theorem RegistrationInv.mem_iff (h : RegistrationInv w) (fd : ℕ) :
    w.interest fd = some true ∨ w.Pending fd ↔ fd ∈ w.connections := by
  constructor
  · intro known
    by_contra unknown
    obtain ⟨disarmed, nothing⟩ := h.untracked fd unknown
    exact known.elim disarmed nothing
  · intro member
    exact (h.tracked fd member).imp And.left And.right

theorem RegistrationInv.of_pending (h : RegistrationInv w) (pending : w.Pending fd) :
    fd ∈ w.connections ∧ w.interest fd = some false := by
  have member := (h.mem_iff fd).mp (Or.inr pending)
  exact ⟨member, ((h.tracked fd member).resolve_left fun armed => armed.2 pending).1⟩

/-- Two clients that are not closed have different descriptors. -/
theorem OwnershipInv.getFd_ne (h : OwnershipInv w) {p q : Place} (hc : w.In c p) (hd : w.In d q)
    (liveC : p ≠ .closed) (liveD : q ≠ .closed) (other : c ≠ d) : w.getFd c ≠ w.getFd d := by
  obtain ⟨knownC, -, restC⟩ := h.exclusive ((in_iff_occurrences_pos w c p).mp hc)
  obtain ⟨knownD, -, restD⟩ := h.exclusive ((in_iff_occurrences_pos w d q).mp hd)
  intro same
  exact other (h.distinct c d knownC knownD
    (closed_eq_false_of_occurrences (restC .closed liveC.symm))
    (closed_eq_false_of_occurrences (restD .closed liveD.symm)) same)

theorem OwnershipInv.getFd_untracked (h : OwnershipInv w) {p : Place} (found : w.In c p)
    (live : p ≠ .closed) (elsewhere : p ≠ .connections) : w.getFd c ∉ w.connections :=
  h.getFd_notMem ((in_iff_occurrences_pos w c p).mp found) live elsewhere

theorem Away.getFd_untracked (h : w.Away c) (own : OwnershipInv w) :
    w.getFd c ∉ w.connections := by
  obtain held | returned := h
  · exact own.getFd_untracked held (by decide) (by decide)
  · exact own.getFd_untracked returned (by decide) (by decide)

/-- The client that `epoll_wait` reports is the one that is tracked. -/
theorem owner_of_tracked (own : OwnershipInv w) (hc : w.connections.lookup fd = some c) :
    w.owner fd = some c := by
  obtain ⟨known, fdOf, live⟩ := own.tracked hc
  unfold owner
  cases found : (List.range w.accepted).find? fun c => w.getFd c = fd && !w.closed c with
  | none =>
    have nobody := List.find?_eq_none.mp found c (List.mem_range.mpr known)
    simp [fdOf, live] at nobody
  | some d =>
    have isD := List.find?_some found
    simp only [Bool.and_eq_true, decide_eq_true_eq, Bool.not_eq_true'] at isD
    have knownD := List.mem_range.mp (List.mem_of_find?_eq_some found)
    rw [own.distinct d c knownD known isD.2 live (isD.1.trans fdOf.symm)]

/-! ## Steps -/

/-- A step that is about one descriptor. -/
theorem RegistrationInv.at_fd (h : RegistrationInv w) (fd : ℕ)
    (interest : ∀ d, d ≠ fd → w'.interest d = w.interest d)
    (fdOpen : ∀ d, d ≠ fd → w'.fdOpen d = w.fdOpen d)
    (pending : ∀ d, d ≠ fd → (w'.Pending d ↔ w.Pending d))
    (connections : ∀ d, d ≠ fd → (d ∈ w'.connections ↔ d ∈ w.connections))
    (opened : w'.interest fd ≠ none → w'.fdOpen fd = true)
    (queued : ∀ c, w'.In c .newQueue → w.In c .newQueue ∧ w'.getFd c = w.getFd c ∧
      w.getFd c ≠ fd)
    (away : ∀ c, w'.Away c → w'.getFd c = fd ∧ w'.interest fd = some false ∨
      w.Away c ∧ w'.getFd c = w.getFd c ∧ w.getFd c ≠ fd)
    (status : fd ∈ w'.connections ∧ (w'.interest fd = some true ∧ ¬ w'.Pending fd ∨
        w'.interest fd = some false ∧ w'.Pending fd) ∨
      fd ∉ w'.connections ∧ w'.interest fd ≠ some true ∧ ¬ w'.Pending fd)
    (distinct : (w'.batch.map eventFd).Nodup) : RegistrationInv w' where
  opened d hd := by
    by_cases same : d = fd
    · rw [same] at hd ⊢
      exact opened hd
    · rw [interest d same] at hd
      rw [fdOpen d same]
      exact h.opened d hd
  queued c hc := by
    obtain ⟨before, getFd, other⟩ := queued c hc
    rw [getFd, interest _ other]
    exact h.queued c before
  away c hc := by
    obtain ⟨getFd, disarmed⟩ | ⟨before, getFd, other⟩ := away c hc
    · rw [getFd]
      exact disarmed
    · rw [getFd, interest _ other]
      exact h.away c before
  tracked d hd := by
    by_cases same : d = fd
    · rw [same] at hd ⊢
      exact (status.resolve_right fun no => no.1 hd).2
    · rw [interest d same, pending d same]
      exact h.tracked d ((connections d same).mp hd)
  untracked d hd := by
    by_cases same : d = fd
    · rw [same] at hd ⊢
      exact (status.resolve_left fun yes => hd yes.1).2
    · rw [interest d same, pending d same]
      exact h.untracked d (mt (connections d same).mpr hd)
  distinct := distinct

/-- A step that changes nothing of what the kernel and the loop know, and moves clients at most
from one worker to the next. -/
theorem RegistrationInv.congr (h : RegistrationInv w) (interest : w'.interest = w.interest)
    (fdOpen : w'.fdOpen = w.fdOpen) (getFd : w'.getFd = w.getFd)
    (connections : w'.connections = w.connections)
    (pending : ∀ fd, w'.Pending fd ↔ w.Pending fd)
    (queued : ∀ c, w'.In c .newQueue → w.In c .newQueue) (away : ∀ c, w'.Away c → w.Away c)
    (distinct : (w'.batch.map eventFd).Nodup) : RegistrationInv w' where
  opened := by
    rw [interest, fdOpen]
    exact h.opened
  queued c hc := by
    rw [interest, getFd]
    exact h.queued c (queued c hc)
  away c hc := by
    rw [interest, getFd]
    exact h.away c (away c hc)
  tracked fd hfd := by
    rw [interest, pending]
    exact h.tracked fd (connections ▸ hfd)
  untracked fd hfd := by
    rw [interest, pending]
    exact h.untracked fd (connections ▸ hfd)
  distinct := distinct

theorem registrationInv_initial : RegistrationInv {} where
  opened fd hfd := absurd rfl hfd
  queued c hc := absurd hc List.not_mem_nil
  away c hc := by
    obtain (⟨task, member, -⟩ | ⟨i, task, running, -⟩) | ⟨rc, member, -⟩ := hc
    · exact absurd member List.not_mem_nil
    · cases running
    · exact absurd member List.not_mem_nil
  tracked fd hfd := absurd hfd (AList.notMem_empty fd)
  untracked fd _ := ⟨nofun, nofun⟩
  distinct := List.nodup_nil

theorem OwnershipInv.known (own : OwnershipInv w) {p : Place} (found : w.In c p) : c < w.accepted :=
  (own.exclusive ((in_iff_occurrences_pos w c p).mp found)).1

theorem Away.known (h : w.Away c) (own : OwnershipInv w) : c < w.accepted :=
  h.elim own.known own.known

/-- The descriptor that `accept` returns is not registered. -/
theorem registrationInv_accept (h : RegistrationInv w) (own : OwnershipInv w)
    {transport : Transport} (unused : w.fdOpen fd = false) :
    RegistrationInv { w with
      accepted := w.accepted + 1
      getFd := Function.update w.getFd w.accepted fd
      stream := Function.update w.stream w.accepted { transport := transport }
      closed := Function.update w.closed w.accepted false
      fdOpen := Function.update w.fdOpen fd true
      newFdChannel := w.newFdChannel.enqueue () w.accepted } where
  opened d hd := by
    dsimp only
    rw [Function.update_apply]
    split_ifs
    · rfl
    · exact h.opened d hd
  queued c hc := by
    dsimp only
    by_cases new : c = w.accepted
    · rw [new, Function.update_self]
      by_contra registered
      rw [h.opened fd registered] at unused
      cases unused
    · rw [Function.update_of_ne new]
      have member : c ∈ w.newFdChannel.queue ++ [w.accepted] := hc
      have older : c ∈ w.newFdChannel.queue := by simpa [new] using member
      exact h.queued c older
  away c hc := by
    have before : w.Away c := hc
    dsimp only
    rw [Function.update_of_ne (Nat.ne_of_lt (before.known own))]
    exact h.away c before
  tracked := h.tracked
  untracked := h.untracked
  distinct := h.distinct

theorem disarm_of_mem {events : List Event} {hangup : Bool} (h : .client fd hangup ∈ events) :
    w.disarm events fd = some false := by
  induction events with
  | nil => cases h
  | cons event events ih =>
    obtain rfl | later := List.mem_cons.mp h
    · exact Function.update_self _ _ _
    · cases event with
      | newPipe => exact ih later
      | returnPipe => exact ih later
      | client fd' hangup' =>
        show Function.update (w.disarm events) fd' (some false) fd = some false
        rw [Function.update_apply]
        split_ifs
        · rfl
        · exact ih later

theorem disarm_of_notMem {events : List Event} (h : ∀ hangup, .client fd hangup ∉ events) :
    w.disarm events fd = w.interest fd := by
  induction events with
  | nil => rfl
  | cons event events ih =>
    have rest := ih fun hangup member => h hangup (List.mem_cons_of_mem _ member)
    cases event with
    | newPipe => exact rest
    | returnPipe => exact rest
    | client fd' hangup' =>
      have other : fd ≠ fd' := by
        rintro rfl
        exact h hangup' List.mem_cons_self
      show Function.update (w.disarm events) fd' (some false) fd = w.interest fd
      rw [Function.update_of_ne other, rest]

/-- Only armed registrations are reported. -/
theorem armed_of_ready {hangup : Bool} (h : w.ready (.client fd hangup) = true) :
    w.interest fd = some true := by
  unfold ready at h
  simp only [Bool.and_eq_true, decide_eq_true_eq] at h
  exact h.1

theorem registrationInv_epollWait (h : RegistrationInv w) {events : List Event}
    (empty : w.batch = []) (distinct : (events.map eventFd).Nodup)
    (reported : events.all w.ready = true) :
    RegistrationInv { w with batch := events, interest := w.disarm events } := by
  have armed {fd : ℕ} {hangup : Bool} (member : .client fd hangup ∈ events) :
      w.interest fd = some true :=
    armed_of_ready (List.all_eq_true.mp reported _ member)
  have nothing (fd : ℕ) : ¬ w.Pending fd := by
    rintro ⟨hangup, member⟩
    rw [empty] at member
    cases member
  have unreported {fd : ℕ} (disarmed : w.interest fd ≠ some true) (hangup : Bool) :
      .client fd hangup ∉ events := fun member => disarmed (armed member)
  constructor
  · intro fd hfd
    by_cases member : ∃ hangup, .client fd hangup ∈ events
    · obtain ⟨hangup, member⟩ := member
      apply h.opened fd
      simp [armed member]
    · dsimp only at hfd
      rw [disarm_of_notMem (not_exists.mp member)] at hfd
      exact h.opened fd hfd
  · intro c hc
    have unregistered := h.queued c hc
    dsimp only
    rw [disarm_of_notMem (unreported (by simp [unregistered])), unregistered]
  · intro c hc
    have disarmed := h.away c hc
    dsimp only
    rw [disarm_of_notMem (unreported (by simp [disarmed])), disarmed]
  · intro fd hfd
    by_cases member : ∃ hangup, .client fd hangup ∈ events
    · exact Or.inr ⟨disarm_of_mem member.choose_spec, member⟩
    · refine Or.inl ⟨?_, member⟩
      dsimp only
      rw [disarm_of_notMem (not_exists.mp member)]
      exact ((h.tracked fd hfd).resolve_right fun pending => nothing fd pending.2).1
  · intro fd hfd
    have disarmed := (h.untracked fd hfd).1
    dsimp only
    rw [disarm_of_notMem (unreported disarmed)]
    exact ⟨disarmed, fun pending => unreported disarmed _ pending.choose_spec⟩
  · exact distinct

theorem nodup_of_epollWait {events : List Event}
    (h : w.next P server capacity (.epollWait events) = some w') : (events.map eventFd).Nodup := by
  unfold next at h
  by_cases returned : w.newFdChannel.reader = .returned
  · rw [if_pos returned] at h
    cases h
  · rw [if_neg returned] at h
    dsimp only at h
    split_ifs at h with ready
    exact ready.2.2.2.1

/-! ### The steps about one client -/

theorem addFd_registration (w : World) (unregistered : w.interest fd = none) :
    addFd fd w = { w with interest := Function.update w.interest fd (some true) } := by
  rw [addFd, if_pos unregistered]

theorem rearmFd_registration (w : World) (registered : w.interest fd ≠ none) :
    rearmFd fd w = { w with interest := Function.update w.interest fd (some true) } := by
  rw [rearmFd, if_neg registered]

/-- A client that is not the one of the event does not have its descriptor. -/
theorem getFd_ne_of_tracked (hd : w.connections.lookup fd = some d)
    (untracked : w.getFd c ∉ w.connections) : w.getFd c ≠ fd := by
  rintro rfl
  exact untracked (AList.lookup_isSome.mp (by rw [hd]; rfl))

theorem mem_erase_of_ne {connections : UnorderedMap ℕ ClientId} (other : d ≠ fd) :
    d ∈ connections.erase fd ↔ d ∈ connections := by
  rw [AList.mem_erase]
  exact and_iff_right other

/-- An event of a tracked client, which is the only one of its descriptor in the batch. -/
theorem registrationInv_handleClientEvent (h : RegistrationInv w) (own : OwnershipInv w)
    {hangup : Bool} {batch : List Event} (first : w.batch = .client fd hangup :: batch)
    (handled : handleClientEvent P fd hangup (w.turnTo fd batch) = .ok w') :
    RegistrationInv w' := by
  have member : Event.client fd hangup ∈ w.batch := by rw [first]; exact List.mem_cons_self
  obtain ⟨isTracked, disarmed⟩ := h.of_pending ⟨hangup, member⟩
  have registered : w.interest fd ≠ none := by simp [disarmed]
  have notArmed : w.interest fd ≠ some true := by simp [disarmed]
  have nodup := h.distinct
  rw [first, List.map_cons, List.nodup_cons] at nodup
  obtain ⟨once, distinct⟩ := nodup
  have last (hangup' : Bool) : .client fd hangup' ∉ batch := fun again =>
    once (List.mem_map.mpr ⟨_, again, rfl⟩)
  have noMore : ¬ ∃ hangup', .client fd hangup' ∈ batch := not_exists.mpr last
  have pending (d : ℕ) (other : d ≠ fd) :
      (∃ hangup', .client d hangup' ∈ batch) ↔ w.Pending d := by
    unfold Pending
    simp only [first, List.mem_cons, Event.client.injEq, other, false_and, false_or]
  obtain ⟨gone, -⟩ | ⟨client, hclient, outcome⟩ := handleClientEvent_outcome handled
  · rw [AList.lookup_eq_none] at gone
    exact absurd isTracked gone
  · have getFd := own.keyed fd client hclient
    have others (c : ClientId) (untracked : w.getFd c ∉ w.connections) : w.getFd c ≠ fd :=
      getFd_ne_of_tracked hclient untracked
    have queued (c : ClientId) (hc : w.In c .newQueue) : w.getFd c ≠ fd :=
      others c (own.getFd_untracked hc (by decide) (by decide))
    have away (c : ClientId) (hc : w.Away c) : w.getFd c ≠ fd :=
      others c (hc.getFd_untracked own)
    obtain ⟨-, rfl⟩ | ⟨-, -, rfl⟩ | ⟨-, pos, head, rfl⟩ := outcome
    · obtain ⟨fdOpen, interest, after, rest, ended⟩ :=
        close_eq client (w.turnTo fd batch)
      rw [after]
      dsimp only at rest ended
      rw [getFd] at rest ended
      refine h.at_fd fd (fun d other => (rest d other).2) (fun d other => (rest d other).1) pending
        (fun d other => mem_erase_of_ne other) ?_ (fun c hc => ⟨hc, rfl, queued c hc⟩)
        (fun c hc => Or.inr ⟨hc, rfl, away c hc⟩) (Or.inr ⟨?_, ?_, noMore⟩) distinct
      · intro stays
        obtain unregistered | ⟨sameOpen, -⟩ := ended
        · exact absurd unregistered stays
        · exact sameOpen.trans (h.opened fd registered)
      · exact fun stays => (AList.mem_erase.mp stays).1 rfl
      · show interest fd ≠ some true
        obtain unregistered | ⟨-, sameInterest⟩ := ended
        · simp [unregistered]
        · rw [sameInterest]
          exact notArmed
    · rw [rearmFd_registration]
      swap
      · exact registered
      refine h.at_fd fd (fun d other => Function.update_of_ne other _ _) (fun _ _ => rfl) pending
        (fun _ _ => Iff.rfl) (fun _ => h.opened fd registered)
        (fun c hc => ⟨hc, rfl, queued c hc⟩) (fun c hc => Or.inr ⟨hc, rfl, away c hc⟩)
        (Or.inl ⟨isTracked, Or.inl ⟨Function.update_self _ _ _, noMore⟩⟩) distinct
    · refine h.at_fd fd (fun _ _ => rfl) (fun _ _ => rfl) pending
        (fun d other => mem_erase_of_ne other) (fun _ => h.opened fd registered)
        (fun c hc => ⟨hc, rfl, queued c hc⟩) ?_ (Or.inr ⟨?_, ?_, noMore⟩) distinct
      · intro c hc
        obtain (⟨task, inTasks, rfl⟩ | running) | returned := hc
        · obtain older | new := List.mem_append.mp inTasks
          · have before : w.Away task.client := Or.inl (Or.inl ⟨task, older, rfl⟩)
            exact Or.inr ⟨before, rfl, away _ before⟩
          · rw [List.mem_singleton.mp new]
            exact Or.inl ⟨getFd, disarmed⟩
        · have before : w.Away c := Or.inl (Or.inr running)
          exact Or.inr ⟨before, rfl, away c before⟩
        · have before : w.Away c := Or.inr returned
          exact Or.inr ⟨before, rfl, away c before⟩
      · exact fun stays => (AList.mem_erase.mp stays).1 rfl
      · exact notArmed

theorem mem_emplace_of_ne {connections : UnorderedMap ℕ ClientId} (free : fd ∉ connections)
    (other : d ≠ fd) : d ∈ connections.emplace fd c ↔ d ∈ connections := by
  rw [UnorderedMap.emplace_of_notMem free, AList.mem_insert]
  exact or_iff_right other

theorem mem_emplace_self {connections : UnorderedMap ℕ ClientId} (free : fd ∉ connections) :
    fd ∈ connections.emplace fd c := by
  rw [UnorderedMap.emplace_of_notMem free, AList.mem_insert]
  exact Or.inl rfl

theorem Away.not_newQueue (h : w.Away c) (own : OwnershipInv w) : ¬ w.In c .newQueue :=
  h.elim (own.not_in · (by decide)) (own.not_in · (by decide))

theorem Away.getFd_ne (h : w.Away c) (own : OwnershipInv w) {p : Place} (found : w.In d p)
    (live : p ≠ .closed) (other : c ≠ d) : w.getFd c ≠ w.getFd d := by
  obtain held | returned := h
  · exact own.getFd_ne held found (by decide) live other
  · exact own.getFd_ne returned found (by decide) live other

theorem registrationInv_drainNew (h : RegistrationInv w) (own : OwnershipInv w) :
    RegistrationInv (drainNewFdChannel w) := by
  have own' := ownershipInv_drainNew own
  cases hq : w.newFdChannel.queue with
  | nil =>
    rw [drainNewFdChannel_of_nil hq]
    exact ⟨h.opened, h.queued, h.away, h.tracked, h.untracked, h.distinct⟩
  | cons client queue =>
    have found : w.In client .newQueue := by
      show client ∈ w.newFdChannel.queue
      rw [hq]
      exact List.mem_cons_self
    have unregistered := h.queued client found
    have free := own.getFd_untracked found (by decide) (by decide)
    have after : drainNewFdChannel w = { w with
        newFdChannel := { w.newFdChannel with queue := queue }
        interest := Function.update w.interest (w.getFd client) (some true)
        connections := w.connections.emplace (w.getFd client) client } := by
      rw [drainNewFdChannel, FdChannel.tryDequeue_of_cons hq]
      dsimp only
      rw [addFd_registration]
      exact unregistered
    rw [after] at own' ⊢
    have nowTracked : In { w with
        newFdChannel := { w.newFdChannel with queue := queue }
        interest := Function.update w.interest (w.getFd client) (some true)
        connections := w.connections.emplace (w.getFd client) client } client .connections := by
      refine ⟨w.getFd client, ?_⟩
      show (w.connections.emplace (w.getFd client) client).lookup (w.getFd client) = some client
      rw [UnorderedMap.emplace_of_notMem free, AList.lookup_insert]
    refine h.at_fd (w.getFd client) (fun d other => Function.update_of_ne other _ _)
      (fun _ _ => rfl) (fun _ _ => Iff.rfl) (fun d other => mem_emplace_of_ne free other)
      (fun _ => own.opened client (own.known found) ?_) ?_ ?_
      (Or.inl ⟨mem_emplace_self free, Or.inl ⟨Function.update_self _ _ _,
        (h.untracked _ free).2⟩⟩) h.distinct
    · exact Bool.eq_false_iff.mpr (own.not_in (q := .closed) found (by decide))
    · intro c hc
      have before : w.In c .newQueue := by
        show c ∈ w.newFdChannel.queue
        rw [hq]
        exact List.mem_cons_of_mem client hc
      refine ⟨before, rfl, own.getFd_ne before found (by decide) (by decide) ?_⟩
      rintro rfl
      exact own'.not_in (q := .newQueue) nowTracked (by decide) hc
    · intro c hc
      have before : w.Away c := hc
      refine Or.inr ⟨before, rfl, before.getFd_ne own found (by decide) ?_⟩
      rintro rfl
      exact before.not_newQueue own found

theorem registrationInv_drainReturn (h : RegistrationInv w) (own : OwnershipInv w) :
    RegistrationInv (drainReturnChannel w) := by
  have own' := ownershipInv_drainReturn own
  cases hq : w.returnChannel.queue with
  | nil =>
    rw [drainReturnChannel_of_nil hq]
    exact ⟨h.opened, h.queued, h.away, h.tracked, h.untracked, h.distinct⟩
  | cons rc queue =>
    obtain ⟨client, keepAlive⟩ := rc
    have found : w.In client .returnQueue := ⟨⟨client, keepAlive⟩, by simp [hq], rfl⟩
    have disarmed := h.away client (Or.inr found)
    have registered : w.interest (w.getFd client) ≠ none := by simp [disarmed]
    have notArmed : w.interest (w.getFd client) ≠ some true := by simp [disarmed]
    have free := own.getFd_untracked found (by decide) (by decide)
    have notPending := (h.untracked _ free).2
    have opened := h.opened _ registered
    have queued (c : ClientId) (hc : w.In c .newQueue) : w.getFd c ≠ w.getFd client := by
      refine own.getFd_ne hc found (by decide) (by decide) ?_
      rintro rfl
      exact own.not_in (q := .newQueue) found (by decide) hc
    -- of the clients that are away only the first one of the queue is back
    have away (c : ClientId) (other : c ≠ client) (hc : w.In c .handler ∨
        ∃ rc ∈ queue, rc.client = c) : w.Away c ∧ w.getFd c ≠ w.getFd client := by
      have before : w.Away c := by
        refine hc.imp_right fun ⟨rc, member, isC⟩ => ⟨rc, ?_, isC⟩
        rw [hq]
        exact List.mem_cons_of_mem _ member
      exact ⟨before, before.getFd_ne own found (by decide) other⟩
    cases keepAlive with
    | true =>
      have after : drainReturnChannel w = { w with
          returnChannel := { w.returnChannel with queue := queue }
          interest := Function.update w.interest (w.getFd client) (some true)
          connections := w.connections.emplace (w.getFd client) client } := by
        rw [drainReturnChannel, FdChannel.tryDequeue_of_cons hq]
        dsimp only
        rw [if_pos rfl, rearmFd_registration]
        exact registered
      rw [after] at own' ⊢
      refine h.at_fd (w.getFd client) (fun d other => Function.update_of_ne other _ _)
        (fun _ _ => rfl) (fun _ _ => Iff.rfl) (fun d other => mem_emplace_of_ne free other)
        (fun _ => opened) (fun c hc => ⟨hc, rfl, queued c hc⟩) ?_
        (Or.inl ⟨mem_emplace_self free, Or.inl ⟨Function.update_self _ _ _, notPending⟩⟩)
        h.distinct
      intro c hc
      have other : c ≠ client := by
        rintro rfl
        refine Away.getFd_untracked hc own' (mem_emplace_self free)
      obtain ⟨before, apart⟩ := away c other hc
      exact Or.inr ⟨before, rfl, apart⟩
    | false =>
      rw [drainReturnChannel_of_closed hq] at own' ⊢
      obtain ⟨fdOpen, interest, after, rest, ended⟩ := close_eq client
        { w with returnChannel := { w.returnChannel with queue := queue } }
      rw [after] at own' ⊢
      dsimp only at rest ended
      refine h.at_fd (w.getFd client) (fun d other => (rest d other).2)
        (fun d other => (rest d other).1) (fun _ _ => Iff.rfl) (fun _ _ => Iff.rfl) ?_
        (fun c hc => ⟨hc, rfl, queued c hc⟩) ?_ (Or.inr ⟨free, ?_, notPending⟩) h.distinct
      · intro stays
        obtain unregistered | ⟨sameOpen, -⟩ := ended
        · exact absurd unregistered stays
        · exact sameOpen.trans opened
      · intro c hc
        have other : c ≠ client := by
          rintro rfl
          have closed : Function.update w.closed c true c = true := Function.update_self _ _ _
          obtain held | returned := hc
          · exact own'.not_in (q := .closed) held (by decide) closed
          · exact own'.not_in (q := .closed) returned (by decide) closed
        obtain ⟨before, apart⟩ := away c other hc
        exact Or.inr ⟨before, rfl, apart⟩
      · show interest (w.getFd client) ≠ some true
        obtain unregistered | ⟨-, sameInterest⟩ := ended
        · simp [unregistered]
        · rw [sameInterest]
          exact notArmed

/-! ### The other steps -/

/-- The events of the pipes are about no client. -/
theorem registrationInv_pipe (h : RegistrationInv w) {event : Event} {batch : List Event}
    (first : w.batch = event :: batch) (isPipe : ∀ fd hangup, event ≠ .client fd hangup)
    (batch' : w'.batch = batch) (interest : w'.interest = w.interest)
    (fdOpen : w'.fdOpen = w.fdOpen) (getFd : w'.getFd = w.getFd)
    (connections : w'.connections = w.connections) (places : ∀ c p, w'.In c p ↔ w.In c p) :
    RegistrationInv w' := by
  have nodup := h.distinct
  rw [first, List.map_cons, List.nodup_cons] at nodup
  refine h.congr interest fdOpen getFd connections (fun fd => ?_) (fun c => (places c _).mp)
    (fun c => Or.imp (places c _).mp (places c _).mp) (by rw [batch']; exact nodup.2)
  unfold Pending
  rw [batch', first]
  refine exists_congr fun hangup => ?_
  rw [List.mem_cons]
  exact (or_iff_right (isPipe fd hangup).symm).symm

theorem registrationInv_step (h : RegistrationInv w) (own : OwnershipInv w)
    (step : w.next P server capacity a = some w') : RegistrationInv w' := by
  have taken := takes_of_next step
  cases taken with
  | accept fd transport idle isOpen unused => exact registrationInv_accept h own unused
  | epollWait events idle empty reported =>
    exact registrationInv_epollWait h empty (nodup_of_epollWait step) reported
  | client fd hangup batch w' idle first handled =>
    exact registrationInv_handleClientEvent h own first handled
  | drainNew draining => exact registrationInv_drainNew h own
  | drainReturn draining => exact registrationInv_drainReturn h own
  | newPipe batch idle first =>
    refine registrationInv_pipe h first (by simp) rfl rfl rfl rfl rfl fun c p => ?_
    cases p with
    | newQueue => simp only [In, onReadable_queue]
    | connections | handler | returnQueue | closed => exact Iff.rfl
  | returnPipe batch idle first =>
    refine registrationInv_pipe h first (by simp) rfl rfl rfl rfl rfl fun c p => ?_
    cases p with
    | returnQueue => simp only [In, onReadable_queue]
    | newQueue | connections | handler | closed => exact Iff.rfl
  | take i task tasks free idle first =>
    refine h.congr rfl rfl rfl rfl (fun _ => Iff.rfl) (fun _ => id) (fun c => ?_) h.distinct
    refine Or.imp_left ?_
    rintro (⟨other, member, isC⟩ | ⟨j, other, running, isC⟩)
    · refine Or.inl ⟨other, ?_, isC⟩
      rw [first]
      exact List.mem_cons_of_mem _ member
    · by_cases same : j = i
      · rw [same, AList.lookup_insert, Option.some.injEq] at running
        refine Or.inl ⟨task, ?_, running ▸ isC⟩
        rw [first]
        exact List.mem_cons_self
      · exact Or.inr ⟨j, other, by rwa [AList.lookup_insert_ne same] at running, isC⟩
  | call i task keepAlive busy enqueued =>
    refine h.congr rfl rfl rfl rfl (fun _ => Iff.rfl) (fun _ => id) (fun c => ?_) h.distinct
    rintro ((⟨other, member, isC⟩ | ⟨j, other, running, isC⟩) | ⟨rc, member, isC⟩)
    · exact Or.inl (Or.inl ⟨other, member, isC⟩)
    · refine Or.inl (Or.inr ⟨j, other, ?_, isC⟩)
      by_cases same : j = i
      · rw [same, AList.lookup_erase] at running
        cases running
      · rwa [AList.lookup_erase_ne same] at running
    · obtain older | new := List.mem_append.mp member
      · exact Or.inr ⟨rc, older, isC⟩
      · rw [List.mem_singleton.mp new] at isC
        exact Or.inl (Or.inr ⟨i, task, busy, isC⟩)
  | notifyNew | shutdown | arrive | foresee | ciphertext | outcome | notifyReturn =>
    exact ⟨h.opened, h.queued, h.away, h.tracked, h.untracked, h.distinct⟩

theorem registrationInv_reachable (h : Reachable Initial (Step P server capacity) w) :
    RegistrationInv w := by
  refine h.invariant_of ?_ fun w a w' reached inv step => ?_
  · rintro _ rfl
    exact registrationInv_initial
  · exact registrationInv_step inv (ownershipInv_reachable reached) step

end Lightning.World
