import Lightning.Proof.Ownership

/-!
# Pipelined requests

`peek` reads past the current head, so after a request has been dispatched the next one may be
complete in `leftoverBuffer`. A tracked connection is safe as long as that buffer holds no complete
head unless the kernel still has bytes to report. Handling an event establishes this, since the
connection is re-armed only when the search found nothing; `drainReturnChannel` re-arms without
looking.
-/

namespace Lightning.World

open Search NonblockingClientManagerTask Transition

variable {ρ : Type} [RegexEngine ρ] {P : Platform} {server : HttpServer ρ} {capacity : ℕ}
  {w w' : World} {a : Action} {fd : ℕ} {c : ClientId}

/-- Nothing of the client is unread in the kernel. What OpenSSL has decrypted is not there, so that
the bytes received from a TLS client do not tell. -/
def NothingUnread (w : World) (c : ClientId) : Prop :=
  match (w.stream c).transport with
  | .plain => (w.stream c).socket.received = []
  | .ssl => w.ciphertext c = false

instance (w : World) (c : ClientId) : Decidable (w.NothingUnread c) := by
  unfold NothingUnread
  cases (w.stream c).transport <;> infer_instance

theorem NothingUnread.congr (h : w'.NothingUnread c) (stream : w'.stream c = w.stream c)
    (ciphertext : w'.ciphertext c = w.ciphertext c) : w.NothingUnread c := by
  unfold NothingUnread at *
  rwa [stream, ciphertext] at h

/-- The connection waits for a future `EPOLLIN` although a complete head is in `leftoverBuffer`: it
is armed, has no event in the batch, and nothing is unread in the kernel. -/
structure Stranded (w : World) (fd : ℕ) (c : ClientId) : Prop where
  tracked : w.connections.lookup fd = some c
  armed : w.interest fd = some true
  noEvent : ∀ hangup, Event.client fd hangup ∉ w.batch
  nothingUnread : w.NothingUnread c
  head : DOUBLE_CRLF <:+: (w.stream c).leftoverBuffer

/-- When the loop is about to put back a kept connection: its `leftoverBuffer` holds no complete
head, or the kernel has bytes to report. -/
def RearmSafe (w : World) : Prop :=
  ∀ rc ∈ w.returnChannel.queue.head?, rc.keepAlive = true →
    w.NothingUnread rc.client →
    ¬ DOUBLE_CRLF <:+: (w.stream rc.client).leftoverBuffer

instance (w : World) : Decidable (RearmSafe w) :=
  inferInstanceAs (Decidable (∀ rc ∈ w.returnChannel.queue.head?, rc.keepAlive = true →
    w.NothingUnread rc.client →
    ¬ DOUBLE_CRLF <:+: (w.stream rc.client).leftoverBuffer))

/-- The steps that meet the condition. -/
def SafeStep (P : Platform) (server : HttpServer ρ) (capacity : ℕ) (w : World) (a : Action)
    (w' : World) : Prop :=
  Step P server capacity w a w' ∧
    (a = .drain → w.returnChannel.reader = .draining → RearmSafe w)

/-- The buffers of tracked and of queued clients. -/
structure LeftoverInv (w : World) : Prop where
  tracked : ∀ fd c, w.connections.lookup fd = some c → w.NothingUnread c →
    ¬ DOUBLE_CRLF <:+: (w.stream c).leftoverBuffer
  queued : ∀ c ∈ w.newFdChannel.queue, (w.stream c).leftoverBuffer = []

theorem not_terminator_nil : ¬ DOUBLE_CRLF <:+: ([] : Bytes) := by decide

/-! ## Steps -/

/-- A step that changes only a client that is neither tracked nor queued. -/
theorem LeftoverInv.of_others (h : LeftoverInv w)
    (connections : ∀ fd c, w'.connections.lookup fd = some c → w.connections.lookup fd = some c ∧
      w'.stream c = w.stream c ∧ w'.ciphertext c = w.ciphertext c)
    (queue : ∀ c ∈ w'.newFdChannel.queue, c ∈ w.newFdChannel.queue ∧ w'.stream c = w.stream c) :
    LeftoverInv w' where
  tracked fd c hc := by
    obtain ⟨before, same, fetched⟩ := connections fd c hc
    intro nothing
    rw [same]
    exact h.tracked fd c before (nothing.congr same fetched)
  queued c hc := by
    obtain ⟨before, same⟩ := queue c hc
    rw [same]
    exact h.queued c before

/-- What the environment does to a socket never empties the receive buffer. -/
theorem leftoverInv_setSocket (h : LeftoverInv w) {c : ClientId} {k : Socket}
    (grows : k.received = [] → (w.stream c).socket.received = []) :
    LeftoverInv (w.setSocket c k) where
  tracked fd d hd := by
    by_cases same : d = c
    · subst same
      intro nothing
      have stream : (w.setSocket d k).stream d = { w.stream d with socket := k } := setStream_self
      have before : w.NothingUnread d := by
        unfold NothingUnread at nothing ⊢
        rw [stream] at nothing
        cases transport : (w.stream d).transport with
        | plain =>
          simp only [transport] at nothing
          exact grows nothing
        | ssl =>
          simp only [transport] at nothing
          exact nothing
      rw [stream]
      exact h.tracked fd d hd before
    · intro nothing
      have stream : (w.setSocket c k).stream d = w.stream d := setStream_of_ne same
      rw [stream]
      exact h.tracked fd d hd (nothing.congr stream rfl)
  queued d hd := by
    by_cases same : d = c
    · subst same
      rw [setSocket, setStream_self]
      exact h.queued d hd
    · rw [setSocket, setStream_of_ne same]
      exact h.queued d hd

/-- A client that enters `connections` under a free key. -/
theorem LeftoverInv.of_emplace (h : LeftoverInv w) {client : ClientId} (free : fd ∉ w.connections)
    (noHead : w.NothingUnread client →
      ¬ DOUBLE_CRLF <:+: (w.stream client).leftoverBuffer)
    (stream : w'.stream = w.stream) (ciphertext : w'.ciphertext = w.ciphertext)
    (connections : w'.connections = w.connections.emplace fd client)
    (queue : ∀ c ∈ w'.newFdChannel.queue, c ∈ w.newFdChannel.queue) : LeftoverInv w' where
  tracked d c hc := by
    intro nothing
    have before := nothing.congr (congrFun stream c) (congrFun ciphertext c)
    rw [stream]
    rw [connections, UnorderedMap.emplace_of_notMem free] at hc
    by_cases same : d = fd
    · rw [same, AList.lookup_insert, Option.some.injEq] at hc
      subst hc
      exact noHead before
    · rw [AList.lookup_insert_ne same] at hc
      exact h.tracked d c hc before
  queued c hc := by
    rw [stream]
    exact h.queued c (queue c hc)

theorem leftoverInv_accept (h : LeftoverInv w) (own : OwnershipInv w) {fd : ℕ}
    {transport : Transport} :
    LeftoverInv { w with
      accepted := w.accepted + 1
      getFd := Function.update w.getFd w.accepted fd
      stream := Function.update w.stream w.accepted { transport := transport }
      closed := Function.update w.closed w.accepted false
      fdOpen := Function.update w.fdOpen fd true
      newFdChannel := w.newFdChannel.enqueue () w.accepted } where
  tracked fd' c hc := by
    have known := (own.tracked hc).1
    intro nothing
    have stream : Function.update w.stream w.accepted { transport := transport } c = w.stream c :=
      Function.update_of_ne (Nat.ne_of_lt known) _ _
    dsimp only
    rw [stream]
    exact h.tracked fd' c hc (nothing.congr stream rfl)
  queued c hc := by
    dsimp only
    by_cases new : c = w.accepted
    · rw [new, Function.update_self]
    · rw [Function.update_of_ne new]
      have older : c ∈ w.newFdChannel.queue := by
        have member : c ∈ w.newFdChannel.queue ++ [w.accepted] := hc
        simpa [new] using member
      exact h.queued c older

theorem leftoverInv_handleClientEvent (h : LeftoverInv w) (own : OwnershipInv w) {fd : ℕ}
    {hangup : Bool} {batch : List Event}
    (handled : handleClientEvent P fd hangup (w.turnTo fd batch) = .ok w') : LeftoverInv w' := by
  -- Only the client of the event has its ciphertext fetched.
  have kept (e : ClientId) (other : w.connections.lookup fd ≠ some e) :
      (w.turnTo fd batch).ciphertext e = w.ciphertext e := by simp [other]
  obtain ⟨untracked, rfl⟩ | ⟨client, hclient, outcome⟩ := handleClientEvent_cases handled
  · have none : w.connections.lookup fd = none := untracked
    exact h.of_others (fun d e hd => ⟨hd, rfl, kept e (by rw [none]; nofun)⟩) fun e he => ⟨he, rfl⟩
  · have isClient : w.connections.lookup fd = some client := hclient
    have notQueued (e : ClientId) (he : e ∈ w.newFdChannel.queue) : e ≠ client := by
      rintro rfl
      exact own.not_in (p := .connections) (q := .newQueue) ⟨fd, hclient⟩ (by decide) he
    have erased (d : ℕ) (e : ClientId) (hd : (w.connections.erase fd).lookup d = some e) :
        w.connections.lookup d = some e ∧ e ≠ client := by
      have other : d ≠ fd := by
        rintro rfl
        rw [AList.lookup_erase] at hd
        cases hd
      rw [AList.lookup_erase_ne other] at hd
      refine ⟨hd, ?_⟩
      rintro rfl
      exact other ((own.keyed d e hd).symm.trans (own.keyed fd e hclient))
    have fetched (e : ClientId) (other : e ≠ client) :
        (w.turnTo fd batch).ciphertext e = w.ciphertext e := by
      apply kept e
      rw [isClient]
      exact fun same => other (Option.some.inj same).symm
    obtain ⟨-, fdOpen, interest, rfl, -⟩ | ⟨-, notFound, interest, rfl⟩ |
      ⟨-, pos, head, rfl⟩ := outcome
    · exact h.of_others (fun d e hd =>
        ⟨(erased d e hd).1, rfl, fetched e (erased d e hd).2⟩) fun e he => ⟨he, rfl⟩
    · have noHead : ¬ DOUBLE_CRLF <:+:
          (IStream.peek P MAX_HEADER_BYTES (w.stream client)).2.leftoverBuffer := by
        rw [← findFirst_eq_none_iff, ← notFound, IStream.peek_eq]
        rfl
      constructor
      · intro d e hd
        dsimp only
        by_cases same : e = client
        · rw [same, setStream_self]
          exact fun _ => noHead
        · intro nothing
          rw [setStream_of_ne same]
          exact h.tracked d e hd (nothing.congr (setStream_of_ne same) (fetched e same))
      · intro e he
        dsimp only
        rw [setStream_of_ne (notQueued e he)]
        exact h.queued e he
    · refine h.of_others (fun d e hd => ?_) fun e he => ?_
      · exact ⟨(erased d e hd).1, setStream_of_ne (erased d e hd).2, fetched e (erased d e hd).2⟩
      · exact ⟨he, setStream_of_ne (notQueued e he)⟩

theorem leftoverInv_drainNew (h : LeftoverInv w) (own : OwnershipInv w) :
    LeftoverInv (drainNewFdChannel w) := by
  cases hq : w.newFdChannel.queue with
  | nil =>
    rw [drainNewFdChannel_of_nil hq]
    exact ⟨h.tracked, h.queued⟩
  | cons client queue =>
    have queued : client ∈ w.newFdChannel.queue := by simp [hq]
    have found : 0 < w.occurrences client .newQueue :=
      (in_iff_occurrences_pos w client .newQueue).mp queued
    obtain ⟨interest, after⟩ := drainNewFdChannel_of_cons hq
    rw [after]
    refine LeftoverInv.of_emplace h (own.getFd_notMem found (by decide) (by decide)) ?_ rfl rfl rfl
      ?_
    · rw [h.queued client queued]
      exact fun _ => not_terminator_nil
    · intro d hd
      rw [hq]
      exact List.mem_cons_of_mem client hd

/-- The step that the condition is about. -/
theorem leftoverInv_drainReturn (h : LeftoverInv w) (own : OwnershipInv w)
    (safe : RearmSafe w) : LeftoverInv (drainReturnChannel w) := by
  cases hq : w.returnChannel.queue with
  | nil =>
    rw [drainReturnChannel_of_nil hq]
    exact ⟨h.tracked, h.queued⟩
  | cons rc queue =>
    obtain ⟨client, keepAlive⟩ := rc
    cases keepAlive with
    | true =>
      have found : 0 < w.occurrences client .returnQueue :=
        (in_iff_occurrences_pos w client .returnQueue).mp ⟨⟨client, true⟩, by simp [hq], rfl⟩
      obtain ⟨interest, after⟩ := drainReturnChannel_of_kept hq
      rw [after]
      exact LeftoverInv.of_emplace h (own.getFd_notMem found (by decide) (by decide))
        (safe ⟨client, true⟩ (by rw [hq]; rfl) rfl) rfl rfl rfl fun _ hd => hd
    | false =>
      rw [drainReturnChannel_of_closed hq]
      obtain ⟨fdOpen, interest, after, -⟩ := close_eq client
        { w with returnChannel := { w.returnChannel with queue := queue } }
      rw [after]
      exact ⟨h.tracked, h.queued⟩

theorem leftoverInv_call (h : LeftoverInv w) (own : OwnershipInv w) {i : ℕ} {task : Task}
    {keepAlive : Bool} {s : Stream} (busy : w.running.lookup i = some task) :
    LeftoverInv { w.setStream task.client s with
      running := w.running.erase i
      returnChannel := w.returnChannel.enqueue i ⟨task.client, keepAlive⟩ } := by
  have found : w.In task.client .handler := Or.inr ⟨i, task, busy, rfl⟩
  refine h.of_others (fun fd c hc => ⟨hc, setStream_of_ne ?_, rfl⟩) fun c hc =>
    ⟨hc, setStream_of_ne ?_⟩
  · rintro rfl
    exact own.not_in (q := .connections) found (by decide) ⟨fd, hc⟩
  · rintro rfl
    exact own.not_in (q := .newQueue) found (by decide) hc

theorem leftoverInv_step (h : LeftoverInv w) (own : OwnershipInv w)
    (step : Takes P server capacity w a w')
    (safe : a = .drain → w.returnChannel.reader = .draining → RearmSafe w) : LeftoverInv w' := by
  cases step with
  | accept fd transport idle isOpen unused => exact leftoverInv_accept h own
  | arrive c arrival known =>
    apply leftoverInv_setSocket h
    exact fun empty => (List.append_eq_nil_iff.mp empty).1
  | foresee c arrival known => exact leftoverInv_setSocket h id
  | outcome c r known => exact leftoverInv_setSocket h id
  | client fd hangup batch w' idle first handled =>
    exact leftoverInv_handleClientEvent h own handled
  | drainNew draining => exact leftoverInv_drainNew h own
  | drainReturn draining => exact leftoverInv_drainReturn h own (safe rfl draining)
  | call i task keepAlive busy enqueued => exact leftoverInv_call h own busy
  | newPipe batch idle first =>
    refine ⟨h.tracked, fun c hc => h.queued c ?_⟩
    rwa [show (w.newFdChannel.onReadable true).queue = w.newFdChannel.queue from
      onReadable_queue true w.newFdChannel] at hc
  | ciphertext d known =>
    refine ⟨fun fd c hc nothing => h.tracked fd c hc ?_, h.queued⟩
    by_cases same : c = d
    · subst same
      unfold NothingUnread at nothing ⊢
      cases transport : (w.stream c).transport with
      | plain => simpa [transport] using nothing
      | ssl => simp [transport] at nothing
    · exact nothing.congr rfl (Function.update_of_ne same _ _)
  | notifyNew | shutdown | epollWait | returnPipe | take | notifyReturn =>
    exact ⟨h.tracked, h.queued⟩

/-! ## Runs -/

theorem leftoverInv_reachable (h : Reachable Initial (SafeStep P server capacity) w) :
    LeftoverInv w := by
  refine h.invariant_of ?_ fun w a w' reached inv step => ?_
  · rintro _ rfl
    exact ⟨nofun, nofun⟩
  · have own := ownershipInv_reachable (reached.mono fun _ _ _ step => step.1)
    exact leftoverInv_step inv own (takes_of_next step.1) step.2

/-- In every run that puts a kept connection back only when its `leftoverBuffer` holds no complete
head or the kernel has bytes of it, no connection waits for bytes that need never come. -/
theorem not_stranded (h : Reachable Initial (SafeStep P server capacity) w) (fd : ℕ)
    (c : ClientId) : ¬ Stranded w fd c := by
  intro stranded
  have inv := leftoverInv_reachable h
  exact inv.tracked fd c stranded.tracked stranded.nothingUnread stranded.head

/-- The steps by which a client gets its first request answered and comes back. -/
def roundTrip (bytes : Bytes) : List Action :=
  [.accept 5 .plain, .arrive 0 ⟨bytes, false, none⟩, .notifyNew, .epollWait [.newPipe], .handle,
    .drain, .drain, .epollWait [.client 5 false], .handle, .take 0, .call 0, .notifyReturn 0,
    .epollWait [.returnPipe], .handle, .drain, .drain]

/-- `next`, when the step meets the condition. -/
def nextSafe (P : Platform) (server : HttpServer ρ) (capacity : ℕ) (w : World) (a : Action) :
    Option World :=
  if a = .drain ∧ w.returnChannel.reader = .draining ∧ ¬ RearmSafe w then none
  else w.next P server capacity a

theorem safeStep_of_nextSafe (h : w.nextSafe P server capacity a = some w') :
    SafeStep P server capacity w a w' := by
  unfold nextSafe at h
  split_ifs at h with unsafeStep
  refine ⟨h, fun isDrain draining => ?_⟩
  by_contra notSafe
  exact unsafeStep ⟨isDrain, draining, notSafe⟩

/-- A client whose only request was answered is back in `connections`, armed, and not stranded. -/
theorem not_stranded_served :
    ∃ w, w.connections.lookup 5 = some 0 ∧ w.interest 5 = some true ∧
      (w.stream 0).socket.sent ≠ [] ∧ ¬ Stranded w 5 0 := by
  obtain ⟨w, reachable, served⟩ := @exists_reachable_of_run World Action Initial
    (nextSafe Platform.newestFirst HttpServer.emptyServer 65536) {}
    (roundTrip (chars "GET /a HTTP/1.1\r\nConnection: keep-alive\r\n\r\n"))
    (fun w => w.connections.lookup 5 = some 0 ∧ w.interest 5 = some true ∧
      (w.stream 0).socket.sent ≠ []) rfl (by decide +kernel)
  obtain ⟨tracked, armed, sent⟩ := of_decide_eq_true served
  exact ⟨w, tracked, armed, sent,
    not_stranded (reachable.mono fun _ _ _ step => safeStep_of_nextSafe step) 5 0⟩

/-- The test that the counterexample below evaluates. -/
def strandedBool (w : World) (fd : ℕ) (c : ClientId) : Bool :=
  w.connections.lookup fd = some c && w.interest fd = some true && w.batch.isEmpty &&
    decide (w.NothingUnread c) &&
    (findFirst DOUBLE_CRLF (w.stream c).leftoverBuffer).isSome

theorem stranded_of_strandedBool (h : strandedBool w fd c = true) : Stranded w fd c := by
  simp only [strandedBool, Bool.and_eq_true, decide_eq_true_eq, List.isEmpty_iff] at h
  obtain ⟨⟨⟨⟨tracked, armed⟩, noEvent⟩, nothingUnread⟩, found⟩ := h
  refine ⟨tracked, armed, fun hangup => ?_, nothingUnread, (findFirst_isSome_iff _ _).mp found⟩
  rw [noEvent]
  exact List.not_mem_nil

/-- Two pipelined requests in one segment: after the first is answered the second is in
`leftoverBuffer`, and the connection waits. -/
theorem stranded_pipelined :
    ∃ w, Reachable Initial (Step Platform.newestFirst HttpServer.emptyServer 65536) w ∧
      Stranded w 5 0 := by
  obtain ⟨w, reachable, stranded⟩ := @exists_reachable_of_run World Action Initial
    (next Platform.newestFirst HttpServer.emptyServer 65536) {}
    (roundTrip (chars "GET /a HTTP/1.1\r\nConnection: keep-alive\r\n\r\nGET /b HTTP/1.1\r\n\r\n"))
    (fun w => strandedBool w 5 0) rfl (by decide +kernel)
  exact ⟨w, reachable, stranded_of_strandedBool stranded⟩

end Lightning.World
