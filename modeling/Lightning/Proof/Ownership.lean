import Lightning.Proof.Steps

/-!
# Every client has one owner

A client that was accepted is in exactly one of five places, and each step moves at most one client
from one place to another. Together with the descriptors being distinct among the clients that are
not closed, this is what keeps `emplace` from ever meeting an existing key.
-/

namespace Lightning.World

open NonblockingClientManagerTask Transition

/-- The places a client can be in. -/
inductive Place where
  | newQueue
  | connections
  | handler
  | returnQueue
  | closed
  deriving DecidableEq

/-- The client is in that place. -/
def In (w : World) (c : ClientId) : Place → Prop
  | .newQueue => c ∈ w.newFdChannel.queue
  | .connections => ∃ fd, w.connections.lookup fd = some c
  | .handler => (∃ task ∈ w.tasks, task.client = c) ∨
      ∃ i task, w.running.lookup i = some task ∧ task.client = c
  | .returnQueue => ∃ rc ∈ w.returnChannel.queue, rc.client = c
  | .closed => w.closed c = true

/-- How often the client is in that place. -/
def occurrences (w : World) (c : ClientId) : Place → ℕ
  | .newQueue => w.newFdChannel.queue.count c
  | .connections => w.connections.countValues (· == c)
  | .handler => w.tasks.countP (·.client == c) + w.running.countValues (·.client == c)
  | .returnQueue => w.returnChannel.queue.countP (·.client == c)
  | .closed => (w.closed c).toNat

def total (w : World) (c : ClientId) : ℕ :=
  w.occurrences c .newQueue + w.occurrences c .connections + w.occurrences c .handler +
    w.occurrences c .returnQueue + w.occurrences c .closed

theorem in_iff_occurrences_pos (w : World) (c : ClientId) (p : Place) :
    w.In c p ↔ 0 < w.occurrences c p := by
  cases p with
  | newQueue => exact List.count_pos_iff.symm
  | connections => simp [In, occurrences, UnorderedMap.countValues_pos_iff]
  | handler =>
    simp only [In, occurrences, Nat.add_pos_iff_pos_or_pos, List.countP_pos_iff,
      UnorderedMap.countValues_pos_iff, beq_iff_eq]
  | returnQueue => simp [In, occurrences, List.countP_pos_iff]
  | closed =>
    show w.closed c = true ↔ 0 < (w.closed c).toNat
    cases w.closed c <;> decide

/-- The invariant of ownership. -/
structure OwnershipInv (w : World) : Prop where
  counted : ∀ c, w.total c = if c < w.accepted then 1 else 0
  keyed : ∀ fd c, w.connections.lookup fd = some c → w.getFd c = fd
  distinct : ∀ c d, c < w.accepted → d < w.accepted → w.closed c = false → w.closed d = false →
    w.getFd c = w.getFd d → c = d
  opened : ∀ c, c < w.accepted → w.closed c = false → w.fdOpen (w.getFd c) = true

variable {ρ : Type} [RegexEngine ρ] {P : Platform} {server : HttpServer ρ} {capacity : ℕ}
  {w w' : World} {a : Action} {c d : ClientId}

/-! ## Consequences -/

/-- A client that is in one place was accepted and is nowhere else. -/
theorem OwnershipInv.exclusive (h : OwnershipInv w) {p : Place} (found : 0 < w.occurrences c p) :
    c < w.accepted ∧ w.occurrences c p = 1 ∧ ∀ q, q ≠ p → w.occurrences c q = 0 := by
  have counted := h.counted c
  have known : c < w.accepted := by
    by_contra unknown
    rw [if_neg unknown] at counted
    unfold total at counted
    cases p <;> omega
  rw [if_pos known] at counted
  unfold total at counted
  refine ⟨known, ?_, fun q other => ?_⟩
  · cases p <;> omega
  · cases p <;> cases q <;> first | exact absurd rfl other | omega

/-- A client that is in one place is in no other. -/
theorem OwnershipInv.not_in (h : OwnershipInv w) {p q : Place} (found : w.In c p) (other : q ≠ p) :
    ¬ w.In c q := by
  intro elsewhere
  have counted := (in_iff_occurrences_pos w c q).mp elsewhere
  rw [(h.exclusive ((in_iff_occurrences_pos w c p).mp found)).2.2 q other] at counted
  exact absurd counted (Nat.lt_irrefl 0)

theorem closed_eq_false_of_occurrences (h : w.occurrences c .closed = 0) : w.closed c = false := by
  simpa [occurrences] using h

/-- The key that a client outside of `connections` would get there is free. -/
theorem OwnershipInv.getFd_notMem (h : OwnershipInv w) {p : Place} (found : 0 < w.occurrences c p)
    (live : p ≠ .closed) (elsewhere : p ≠ .connections) : w.getFd c ∉ w.connections := by
  intro present
  obtain ⟨d, hd⟩ := Option.isSome_iff_exists.mp (AList.lookup_isSome.mpr present)
  have tracked : 0 < w.occurrences d .connections :=
    (in_iff_occurrences_pos w d .connections).mp ⟨_, hd⟩
  obtain ⟨knownC, -, restC⟩ := h.exclusive found
  obtain ⟨knownD, -, restD⟩ := h.exclusive tracked
  have liveC := closed_eq_false_of_occurrences (restC .closed live.symm)
  have liveD := closed_eq_false_of_occurrences (restD .closed (by decide))
  have same := h.distinct d c knownD knownC liveD liveC (h.keyed _ _ hd)
  rw [same, restC .connections elsewhere.symm] at tracked
  exact absurd tracked (Nat.lt_irrefl 0)

/-- A client that is tracked is in `connections` under its own descriptor, and is not closed. -/
theorem OwnershipInv.tracked (h : OwnershipInv w) {fd : ℕ} (hc : w.connections.lookup fd = some c) :
    c < w.accepted ∧ w.getFd c = fd ∧ w.closed c = false := by
  have found : 0 < w.occurrences c .connections :=
    (in_iff_occurrences_pos w c .connections).mp ⟨fd, hc⟩
  obtain ⟨known, -, rest⟩ := h.exclusive found
  exact ⟨known, h.keyed _ _ hc, closed_eq_false_of_occurrences (rest .closed (by decide))⟩

/-! ## Steps -/

theorem ownershipInv_initial : OwnershipInv {} where
  counted _ := rfl
  keyed := nofun
  distinct := nofun
  opened := nofun

/-- The invariant looks only at the owners, the descriptors and what is open. -/
theorem OwnershipInv.congr (h : OwnershipInv w) (accepted : w'.accepted = w.accepted)
    (getFd : w'.getFd = w.getFd) (closed : w'.closed = w.closed) (fdOpen : w'.fdOpen = w.fdOpen)
    (connections : w'.connections = w.connections)
    (occurrences : ∀ c p, w'.occurrences c p = w.occurrences c p) : OwnershipInv w' where
  counted c := by
    rw [accepted, ← h.counted c]
    simp only [total, occurrences]
  keyed := by
    rw [connections, getFd]
    exact h.keyed
  distinct := by
    rw [accepted, closed, getFd]
    exact h.distinct
  opened := by
    rw [accepted, closed, getFd, fdOpen]
    exact h.opened

theorem ownershipInv_accept (h : OwnershipInv w) {fd : ℕ} {transport : Transport}
    (unused : w.fdOpen fd = false) :
    OwnershipInv { w with
      accepted := w.accepted + 1
      getFd := Function.update w.getFd w.accepted fd
      stream := Function.update w.stream w.accepted { transport := transport }
      closed := Function.update w.closed w.accepted false
      fdOpen := Function.update w.fdOpen fd true
      newFdChannel := w.newFdChannel.enqueue () w.accepted } := by
  have nowhere : w.total w.accepted = 0 := by
    rw [h.counted, if_neg (Nat.lt_irrefl _)]
  have fresh : w.closed w.accepted = false := by
    apply closed_eq_false_of_occurrences
    unfold total at nowhere
    omega
  have closed : Function.update w.closed w.accepted false = w.closed := by
    rw [← fresh, Function.update_eq_self]
  have older {e : ClientId} (he : e < w.accepted + 1) (hne : e ≠ w.accepted) : e < w.accepted :=
    Nat.lt_of_le_of_ne (Nat.le_of_lt_succ he) hne
  constructor
  · intro e
    have counted := h.counted e
    simp only [total, occurrences, closed, FdChannel.enqueue, List.count_append,
      List.count_singleton] at counted ⊢
    by_cases same : w.accepted = e
    · subst same
      simp only [beq_self_eq_true, if_true, Nat.lt_succ_self, Nat.lt_irrefl, if_false] at counted ⊢
      omega
    · have bound : e < w.accepted + 1 ↔ e < w.accepted :=
        ⟨fun lt => older lt (Ne.symm same), Nat.lt_succ_of_lt⟩
      simp only [beq_eq_false_iff_ne.mpr same, Bool.false_eq_true, if_false, bound] at counted ⊢
      omega
  · intro fd' e he
    have tracked := h.tracked he
    show Function.update w.getFd w.accepted fd e = fd'
    rw [Function.update_of_ne (Nat.ne_of_lt tracked.1)]
    exact tracked.2.1
  · intro e e' he he' hlive hlive' same
    dsimp only at he he' hlive hlive' same
    rw [closed] at hlive hlive'
    by_cases hnew : e = w.accepted <;> by_cases hnew' : e' = w.accepted
    · rw [hnew, hnew']
    · rw [hnew, Function.update_self, Function.update_of_ne hnew'] at same
      have opened := h.opened e' (older he' hnew') hlive'
      rw [← same, unused] at opened
      cases opened
    · rw [hnew', Function.update_self, Function.update_of_ne hnew] at same
      have opened := h.opened e (older he hnew) hlive
      rw [same, unused] at opened
      cases opened
    · rw [Function.update_of_ne hnew, Function.update_of_ne hnew'] at same
      exact h.distinct e e' (older he hnew) (older he' hnew') hlive hlive' same
  · intro e he hlive
    dsimp only at he hlive ⊢
    rw [closed] at hlive
    by_cases hnew : e = w.accepted
    · rw [hnew, Function.update_self, Function.update_self]
    · rw [Function.update_of_ne hnew, Function.update_apply]
      split_ifs
      · rfl
      · exact h.opened e (older he hnew) hlive

/-- A client that leaves a queue for `connections` finds its key free. -/
theorem ownershipInv_emplace (h : OwnershipInv w) {fd : ℕ} (free : fd ∉ w.connections)
    (own : w.getFd c = fd) (accepted : w'.accepted = w.accepted) (getFd : w'.getFd = w.getFd)
    (closed : w'.closed = w.closed) (fdOpen : w'.fdOpen = w.fdOpen)
    (connections : w'.connections = w.connections.emplace fd c)
    (moved : ∀ d, w'.total d = w.total d) : OwnershipInv w' where
  counted d := by
    rw [moved, accepted]
    exact h.counted d
  keyed fd' d hd := by
    rw [connections, UnorderedMap.emplace_of_notMem free] at hd
    rw [getFd]
    by_cases same : fd' = fd
    · rw [same, AList.lookup_insert, Option.some.injEq] at hd
      rw [← hd, same, own]
    · rw [AList.lookup_insert_ne same] at hd
      exact h.keyed fd' d hd
  distinct := by
    rw [accepted, closed, getFd]
    exact h.distinct
  opened := by
    rw [accepted, closed, getFd, fdOpen]
    exact h.opened

theorem ownershipInv_drainNew (h : OwnershipInv w) : OwnershipInv (drainNewFdChannel w) := by
  cases hq : w.newFdChannel.queue with
  | nil =>
    rw [drainNewFdChannel_of_nil hq]
    refine h.congr rfl rfl rfl rfl rfl fun c p => ?_
    cases p <;> rfl
  | cons client queue =>
    have found : 0 < w.occurrences client .newQueue := by
      simp [occurrences, hq]
    have free := h.getFd_notMem found (by decide) (by decide)
    obtain ⟨interest, after⟩ := drainNewFdChannel_of_cons hq
    rw [after]
    refine ownershipInv_emplace h free rfl rfl rfl rfl rfl rfl fun d => ?_
    simp only [total, occurrences, UnorderedMap.emplace_of_notMem free,
      UnorderedMap.countValues_insert free, hq, List.count_cons]
    omega

/-- Closing moves the client from where it was to `closed`, and frees no other descriptor. -/
theorem ownershipInv_close (h : OwnershipInv w) (known : c < w.accepted)
    (live : w.closed c = false) {fdOpen : ℕ → Bool}
    (others : ∀ fd, fd ≠ w.getFd c → fdOpen fd = w.fdOpen fd)
    (accepted : w'.accepted = w.accepted) (getFd : w'.getFd = w.getFd)
    (closed : w'.closed = Function.update w.closed c true) (open' : w'.fdOpen = fdOpen)
    (connections : ∀ fd d, w'.connections.lookup fd = some d → w.connections.lookup fd = some d)
    (moved : ∀ d, w'.total d = w.total d) : OwnershipInv w' := by
  have stillLive {d : ClientId} (hd : w'.closed d = false) : d ≠ c ∧ w.closed d = false := by
    rw [closed, Function.update_apply] at hd
    split_ifs at hd with same
    exact ⟨same, hd⟩
  constructor
  · intro d
    rw [moved, accepted]
    exact h.counted d
  · intro fd d hd
    rw [getFd]
    exact h.keyed fd d (connections fd d hd)
  · intro d e hd he hlive hlive' same
    rw [accepted] at hd he
    rw [getFd] at same
    exact h.distinct d e hd he (stillLive hlive).2 (stillLive hlive').2 same
  · intro d hd hlive
    rw [accepted] at hd
    obtain ⟨other, wasLive⟩ := stillLive hlive
    have apart : w.getFd d ≠ w.getFd c := fun same =>
      other (h.distinct d c hd known wasLive live same)
    rw [getFd, open', others _ apart]
    exact h.opened d hd wasLive

theorem ownershipInv_drainReturn (h : OwnershipInv w) : OwnershipInv (drainReturnChannel w) := by
  cases hq : w.returnChannel.queue with
  | nil =>
    rw [drainReturnChannel_of_nil hq]
    refine h.congr rfl rfl rfl rfl rfl fun c p => ?_
    cases p <;> rfl
  | cons rc queue =>
    obtain ⟨client, keepAlive⟩ := rc
    have found : 0 < w.occurrences client .returnQueue := by
      simp [occurrences, hq]
    cases keepAlive with
    | true =>
      have free := h.getFd_notMem found (by decide) (by decide)
      obtain ⟨interest, after⟩ := drainReturnChannel_of_kept hq
      rw [after]
      refine ownershipInv_emplace h free rfl rfl rfl rfl rfl rfl fun d => ?_
      simp only [total, occurrences, UnorderedMap.emplace_of_notMem free,
        UnorderedMap.countValues_insert free, hq, List.countP_cons]
      omega
    | false =>
      obtain ⟨known, -, rest⟩ := h.exclusive found
      have live := closed_eq_false_of_occurrences (rest .closed (by decide))
      rw [drainReturnChannel_of_closed hq]
      obtain ⟨fdOpen, interest, after, others, -⟩ := close_eq client
        { w with returnChannel := { w.returnChannel with queue := queue } }
      rw [after]
      refine ownershipInv_close h known live (fun d other => (others d other).1) rfl rfl rfl rfl
        (fun _ _ hd => hd) fun d => ?_
      simp only [total, occurrences, hq, List.countP_cons, Function.update_apply, beq_iff_eq]
      by_cases same : d = client
      · subst same
        simp only [live, if_true, Bool.toNat_true, Bool.toNat_false]
        omega
      · simp only [same, Ne.symm same, if_false, Nat.add_zero]

theorem ownershipInv_handleClientEvent (h : OwnershipInv w) {fd : ℕ} {hangup : Bool}
    (handled : handleClientEvent P fd hangup w = .ok w') : OwnershipInv w' := by
  obtain ⟨-, rfl⟩ | ⟨client, tracked, outcome⟩ := handleClientEvent_cases handled
  · exact h
  · obtain ⟨known, own, live⟩ := h.tracked tracked
    have erased (d e : ℕ) (hd : (w.connections.erase fd).lookup d = some e) :
        w.connections.lookup d = some e := by
      by_cases same : d = fd
      · rw [same, AList.lookup_erase] at hd
        cases hd
      · rwa [AList.lookup_erase_ne same] at hd
    have counted (d : ClientId) :=
      UnorderedMap.countValues_erase (p := (· == d)) tracked
    obtain ⟨-, fdOpen, interest, rfl, others⟩ | ⟨-, -, interest, rfl⟩ |
      ⟨-, pos, head, rfl⟩ := outcome
    · refine ownershipInv_close h known live others rfl rfl rfl rfl erased fun d => ?_
      have moved := counted d
      simp only [total, occurrences, Function.update_apply]
      by_cases same : d = client
      · subst same
        simp only [beq_self_eq_true, if_true, live, Bool.toNat_true, Bool.toNat_false] at moved ⊢
        omega
      · simp only [beq_eq_false_iff_ne.mpr (Ne.symm same), same, Bool.false_eq_true,
          if_false] at moved ⊢
        omega
    · refine h.congr rfl rfl rfl rfl rfl fun c p => ?_
      cases p <;> rfl
    · constructor
      · intro d
        have moved := counted d
        show total _ d = if d < w.accepted then 1 else 0
        rw [← h.counted d]
        simp only [total, occurrences, setStream, List.countP_append, List.countP_singleton]
        omega
      · exact fun d e hd => h.keyed d e (erased d e hd)
      · exact h.distinct
      · exact h.opened

theorem ownershipInv_take (h : OwnershipInv w) {i : ℕ} {task : Task} {tasks : List Task}
    (free : w.running.lookup i = none) (first : w.tasks = task :: tasks) :
    OwnershipInv { w with tasks := tasks, running := w.running.insert i task } := by
  have fresh : i ∉ w.running := AList.lookup_eq_none.mp free
  refine h.congr rfl rfl rfl rfl rfl fun c p => ?_
  cases p with
  | handler =>
    simp only [occurrences, first, List.countP_cons, UnorderedMap.countValues_insert fresh]
    omega
  | newQueue | connections | returnQueue | closed => rfl

theorem ownershipInv_call (h : OwnershipInv w) {i : ℕ} {task : Task} {keepAlive : Bool} {s : Stream}
    (busy : w.running.lookup i = some task) :
    OwnershipInv { w.setStream task.client s with
      running := w.running.erase i
      returnChannel := w.returnChannel.enqueue i ⟨task.client, keepAlive⟩ } := by
  constructor
  · intro c
    have moved := UnorderedMap.countValues_erase (p := (·.client == c)) busy
    show total _ c = if c < w.accepted then 1 else 0
    rw [← h.counted c]
    simp only [total, occurrences, setStream, FdChannel.enqueue, List.countP_append,
      List.countP_singleton]
    omega
  · exact h.keyed
  · exact h.distinct
  · exact h.opened

theorem ownershipInv_step (h : OwnershipInv w) (step : Takes P server capacity w a w') :
    OwnershipInv w' := by
  cases step with
  | accept fd transport idle isOpen unused => exact ownershipInv_accept h unused
  | client fd hangup batch w' idle first handled =>
    have before : OwnershipInv (w.turnTo fd batch) :=
      ⟨h.counted, h.keyed, h.distinct, h.opened⟩
    exact ownershipInv_handleClientEvent before handled
  | drainNew draining => exact ownershipInv_drainNew h
  | drainReturn draining => exact ownershipInv_drainReturn h
  | take i task tasks free idle first => exact ownershipInv_take h free first
  | call i task keepAlive busy enqueued => exact ownershipInv_call h busy
  | newPipe batch idle first =>
    refine h.congr rfl rfl rfl rfl rfl fun c p => ?_
    cases p with
    | newQueue => simp only [occurrences, onReadable_queue]
    | connections | handler | returnQueue | closed => rfl
  | returnPipe batch idle first =>
    refine h.congr rfl rfl rfl rfl rfl fun c p => ?_
    cases p with
    | returnQueue => simp only [occurrences, onReadable_queue]
    | newQueue | connections | handler | closed => rfl
  | notifyNew | shutdown | arrive | foresee | ciphertext | outcome | epollWait | notifyReturn =>
    exact ⟨h.counted, h.keyed, h.distinct, h.opened⟩

theorem ownershipInv_reachable (h : Reachable Initial (Step P server capacity) w) :
    OwnershipInv w :=
  h.invariant (fun _ h => h ▸ ownershipInv_initial) fun _ _ _ h step =>
    ownershipInv_step h (takes_of_next step)

/-- In every reachable state every accepted client is in exactly one place, no two clients that are
not closed share a descriptor, the keys of `connections` are the descriptors of its clients, and
the key under which a queued or returned client would be emplaced is free. -/
theorem one_owner (h : Reachable Initial (Step P server capacity) w) :
    (∀ c, c < w.accepted → ∃! p, w.In c p) ∧
    (∀ c d, c < w.accepted → d < w.accepted → ¬ w.In c .closed → ¬ w.In d .closed →
      w.getFd c = w.getFd d → c = d) ∧
    (∀ fd c, w.connections.lookup fd = some c → fd = w.getFd c) ∧
    (∀ c, w.In c .newQueue ∨ w.In c .returnQueue → w.getFd c ∉ w.connections) := by
  have inv := ownershipInv_reachable h
  refine ⟨fun c known => ?_, fun c d hc hd hlive hlive' => ?_,
    fun fd c hc => (inv.keyed fd c hc).symm, fun c queued => ?_⟩
  · have counted := inv.counted c
    rw [if_pos known] at counted
    have somewhere : ∃ p, 0 < w.occurrences c p := by
      by_contra nowhere
      have none (p : Place) : w.occurrences c p = 0 := by
        by_contra positive
        exact nowhere ⟨p, Nat.pos_of_ne_zero positive⟩
      simp [total, none] at counted
    obtain ⟨p, found⟩ := somewhere
    refine ⟨p, (in_iff_occurrences_pos w c p).mpr found, fun q hq => ?_⟩
    by_contra other
    exact inv.not_in ((in_iff_occurrences_pos w c p).mpr found) other hq
  · exact inv.distinct c d hc hd (Bool.eq_false_iff.mpr hlive) (Bool.eq_false_iff.mpr hlive')
  · obtain queued | queued := queued
    · exact inv.getFd_notMem ((in_iff_occurrences_pos w c _).mp queued) (by decide) (by decide)
    · exact inv.getFd_notMem ((in_iff_occurrences_pos w c _).mp queued) (by decide) (by decide)

/-- A client that was accepted, announced and drained is tracked. -/
theorem one_owner_tracked :
    ∃ w, Reachable Initial (Step Platform.newestFirst HttpServer.emptyServer 65536) w ∧
      w.connections.lookup 5 = some 0 ∧
      (∀ c, c < w.accepted → ∃! p, w.In c p) ∧
      (∀ c d, c < w.accepted → d < w.accepted → ¬ w.In c .closed → ¬ w.In d .closed →
        w.getFd c = w.getFd d → c = d) ∧
      (∀ fd c, w.connections.lookup fd = some c → fd = w.getFd c) ∧
      (∀ c, w.In c .newQueue ∨ w.In c .returnQueue → w.getFd c ∉ w.connections) := by
  obtain ⟨w, reachable, tracked⟩ := @exists_reachable_of_run World Action Initial
    (next Platform.newestFirst HttpServer.emptyServer 65536) {}
    [.accept 5 .plain, .notifyNew, .epollWait [.newPipe], .handle, .drain]
    (fun w => w.connections.lookup 5 == some 0) rfl (by decide +kernel)
  exact ⟨w, reachable, by simpa using tracked, one_owner reachable⟩

end Lightning.World
