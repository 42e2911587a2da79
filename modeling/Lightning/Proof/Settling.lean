import Lightning.Lib.Settling
import Lightning.Lib.Threads
import Lightning.Proof.Isolation
import Lightning.Proof.Progress

/-!
# The server settles

While nothing more arrives, every step that the server takes by itself uses up some of its `work`:
a byte that waits in a socket or in a `leftoverBuffer`, ciphertext to report, an element of a queue,
a byte of a pipe, a client on its way (`Proceeds.work_lt`). So it settles, whatever the order of the
steps, in a state where there is nothing to do (`settles`). That needs the peers to be `Calm`: a
client that has ended its side without a complete head, or has filled the buffer, is reported again
and again.
-/

namespace Lightning

open Search NonblockingClientManagerTask

/-! ## Streams -/

/-- Nothing more reaches the socket, and what is written to it does not fail. -/
structure Socket.Calm (k : Socket) : Prop where
  schedule : k.schedule = []
  fin : k.fin = false
  error : k.error = none
  sends : ∀ r ∈ k.sends, ∃ count, r = .accepts count

/-- What is unread does not fill the buffer that is searched for a head. -/
structure Stream.Calm (s : Stream) : Prop where
  socket : s.socket.Calm
  short : s.unread.length < MAX_HEADER_BYTES

/-- What the unread bytes of a stream may still cause. -/
def Stream.work (s : Stream) : ℕ := 2 * s.leftoverBuffer.length + 3 * s.socket.received.length

namespace Socket

variable {k : Socket}

theorem Calm.recv_eq (calm : k.Calm) (len : ℕ) :
    (k.recv len).2 = { k with received := k.received.drop len } := by
  have poll : k.poll = k := by simp only [Socket.poll, calm.schedule]
  by_cases empty : k.received = []
  · have kept : (k.recv len).2 = k := by
      simp [recv, poll, empty, calm.error, calm.fin]
    rw [kept, empty, List.drop_nil, ← empty]
  · rw [recv_of_ne (by rwa [poll]), poll]

theorem Calm.recv (calm : k.Calm) (len : ℕ) : (k.recv len).2.Calm := by
  rw [calm.recv_eq len]
  exact ⟨calm.schedule, calm.fin, calm.error, calm.sends⟩

theorem Calm.not_sendFails (calm : k.Calm) : ¬ k.SendFails := by
  rintro ⟨errno, first⟩
  obtain ⟨count, accepts⟩ := calm.sends _ (List.mem_of_mem_head? first)
  cases accepts

theorem Calm.incoming_eq (calm : k.Calm) : k.incoming = k.received := by
  rw [incoming, calm.schedule, List.flatMap_nil, List.append_nil]

end Socket

namespace IStream

variable {P : Platform} {amount : ℕ} {s : Stream} {bound : ℕ}

/-- `peek` moves bytes from the socket to `leftoverBuffer`, all of them when there is room. -/
theorem peek_moves (calm : s.socket.Calm) : ∃ moved,
    (peek P amount s).2.leftoverBuffer.length = s.leftoverBuffer.length + moved ∧
      (peek P amount s).2.socket.received.length + moved = s.socket.received.length ∧
      (s.unread.length < amount → (peek P amount s).2.socket.received = []) := by
  rw [peek_eq]
  obtain ⟨-, ⟨taken, leftover, -⟩, incoming, empty⟩ := PlainStream.peek_spec amount s
  have calm' : (PlainStream.peek amount s).2.socket.Calm :=
    PlainStream.peekLoop_keeps (fun len k h => h.recv len) calm
  rw [Stream.incoming, Stream.incoming, calm.incoming_eq, calm'.incoming_eq] at incoming
  have total := congrArg List.length incoming
  rw [List.length_append, List.length_append, leftover, List.length_append] at total
  refine ⟨taken.length, ?_, ?_, ?_⟩
  · rw [leftover, List.length_append]
  · omega
  · intro room
    apply empty
    rw [Stream.unread, List.length_append] at room
    rw [leftover, List.length_append]
    omega

theorem calm_peek (calm : s.Calm) : (peek P amount s).2.Calm where
  socket := by
    rw [peek_eq]
    exact PlainStream.peekLoop_keeps (fun len k h => h.recv len) calm.socket
  short := by
    obtain ⟨moved, leftover, received, -⟩ := @peek_moves P amount s calm.socket
    have short := calm.short
    rw [Stream.unread, List.length_append] at short ⊢
    omega

theorem work_peek_le (calm : s.Calm) : (peek P amount s).2.work ≤ s.work := by
  obtain ⟨moved, leftover, received, -⟩ := @peek_moves P amount s calm.socket
  unfold Stream.work
  omega

/-- A `peek` that finds bytes makes progress. -/
theorem work_peek_lt (calm : s.Calm) (arrived : s.socket.received ≠ []) :
    (peek P MAX_HEADER_BYTES s).2.work < s.work := by
  obtain ⟨moved, leftover, received, all⟩ := @peek_moves P MAX_HEADER_BYTES s calm.socket
  have some := List.length_pos_iff.mpr arrived
  rw [all calm.short, List.length_nil] at received
  unfold Stream.work
  rw [all calm.short, List.length_nil]
  omega

/-- `read` only takes bytes away. -/
theorem read_socket_calm (calm : s.socket.Calm) : (read P amount s).2.socket.Calm ∧
    (read P amount s).2.socket.received.length ≤ s.socket.received.length := by
  apply @read_keeps P amount s
    (fun k => k.Calm ∧ k.received.length ≤ s.socket.received.length)
  · rintro len k ⟨calmK, fewer⟩
    refine ⟨calmK.recv len, ?_⟩
    rw [calmK.recv_eq len]
    rw [List.length_drop]
    omega
  · exact ⟨calm, Nat.le_refl _⟩

theorem calm_read (calm : s.Calm) : (read P amount s).2.Calm where
  socket := (read_socket_calm calm.socket).1
  short := by
    have fewer := (@read_socket_calm P amount s calm.socket).2
    have short := calm.short
    rw [Stream.unread, List.length_append] at short ⊢
    rw [read_leftoverBuffer, List.length_drop]
    omega

theorem work_read_le (calm : s.Calm) : (read P amount s).2.work ≤ s.work := by
  have fewer := (@read_socket_calm P amount s calm.socket).2
  unfold Stream.work
  rw [read_leftoverBuffer, List.length_drop]
  omega

theorem calm_write {buffer : Bytes} {size : ℤ} (calm : s.Calm) :
    (write buffer size s).2.Calm := by
  obtain ⟨sent, after⟩ := write_stream buffer size s
  rw [after]
  exact ⟨⟨calm.socket.schedule, calm.socket.fin, calm.socket.error,
    fun r member => calm.socket.sends r (List.mem_of_mem_tail member)⟩, calm.short⟩

theorem work_write {buffer : Bytes} {size : ℤ} : (write buffer size s).2.work = s.work := by
  obtain ⟨sent, after⟩ := write_stream buffer size s
  rw [after]
  rfl

end IStream

namespace Connection

variable {P : Platform} {s t : Stream} {requestBuffer : Bytes}

/-- Without a head the bytes are where the manager looks for one; a head and its terminator are
taken from there. -/
theorem handleEvent_cases {x : Connection} (h : handleEvent P s = some x) :
    findFirst DOUBLE_CRLF (IStream.peek P MAX_HEADER_BYTES s).1 = none ∧
        x = ⟨.watched, (IStream.peek P MAX_HEADER_BYTES s).2⟩ ∨
      ∃ pos, findFirst DOUBLE_CRLF (IStream.peek P MAX_HEADER_BYTES s).1 = some pos ∧
        x = ⟨.handled ((IStream.peek P MAX_HEADER_BYTES s).1.take pos),
          { (IStream.peek P MAX_HEADER_BYTES s).2 with leftoverBuffer :=
            (IStream.peek P MAX_HEADER_BYTES s).2.leftoverBuffer.drop (pos + 4) }⟩ := by
  have view : (IStream.peek P MAX_HEADER_BYTES s).1 =
      (IStream.peek P MAX_HEADER_BYTES s).2.leftoverBuffer := by
    rw [IStream.peek_eq]
    rfl
  unfold handleEvent at h
  cases found : findFirst DOUBLE_CRLF (IStream.peek P MAX_HEADER_BYTES s).1 with
  | none =>
    simp only [found] at h
    exact Or.inl ⟨rfl, (Option.some.inj h).symm⟩
  | some pos =>
    have complete : pos + 4 ≤ (IStream.peek P MAX_HEADER_BYTES s).2.leftoverBuffer.length := by
      rw [← view]
      exact length_le_of_findFirst found
    simp only [found, IStream.read_of_le_leftover complete] at h
    refine Or.inr ⟨pos, rfl, ?_⟩
    rw [← Option.some.inj h, List.take_take, view, Nat.min_eq_left (Nat.le_add_right pos 4)]

theorem handleEvent_watched (h : handleEvent P s = some ⟨.watched, t⟩) :
    t = (IStream.peek P MAX_HEADER_BYTES s).2 := by
  obtain ⟨-, same⟩ | ⟨pos, -, other⟩ := handleEvent_cases h
  · exact (Connection.mk.inj same).2
  · cases (Connection.mk.inj other).1

theorem work_handleEvent_handled (calm : s.Calm)
    (h : handleEvent P s = some ⟨.handled requestBuffer, t⟩) : t.Calm ∧ t.work + 8 ≤ s.work := by
  obtain ⟨-, other⟩ | ⟨pos, found, same⟩ := handleEvent_cases h
  · cases (Connection.mk.inj other).1
  obtain ⟨-, rfl⟩ := Connection.mk.inj same
  have calm' := @IStream.calm_peek P MAX_HEADER_BYTES s calm
  have fewer := @IStream.work_peek_le P MAX_HEADER_BYTES s calm
  have complete : pos + 4 ≤ (IStream.peek P MAX_HEADER_BYTES s).2.leftoverBuffer.length := by
    have within := length_le_of_findFirst found
    rw [IStream.peek_eq] at within ⊢
    exact within
  constructor
  · refine ⟨calm'.socket, ?_⟩
    have short := calm'.short
    simp only [Stream.unread, List.length_append, List.length_drop] at short ⊢
    omega
  · simp only [Stream.work, List.length_drop] at fewer ⊢
    omega

end Connection

namespace ClientRequestHandler

variable {ρ : Type} [RegexEngine ρ] {P : Platform} {server : HttpServer ρ} {client : ClientId}
  {requestBuffer : Bytes} {s : Stream}

/-- A handler takes bytes from its stream at most. -/
theorem call_calm (calm : s.Calm) :
    (call P server client requestBuffer s).stream.Calm ∧
      (call P server client requestBuffer s).stream.work ≤ s.work := by
  apply call_keeps (motive := fun t => t.Calm ∧ t.work ≤ s.work)
  · rintro amount t ⟨calmT, fewer⟩
    exact ⟨IStream.calm_read calmT, (IStream.work_read_le calmT).trans fewer⟩
  · rintro bytes t ⟨calmT, fewer⟩
    exact ⟨IStream.calm_write calmT, IStream.work_write.trans_le fewer⟩
  · exact ⟨calm, Nat.le_refl _⟩

theorem call_returns (calm : s.Calm) :
    (call P server client requestBuffer s).result = .ok () := by
  have fine := calm.socket.not_sendFails
  apply And.left
  apply (call_returnsOnce_iff P server client requestBuffer s).mpr
  unfold WritesSucceed
  cases HttpRequest.createRequest requestBuffer with
  | none => exact fine
  | some request =>
    dsimp only
    cases (runRequestResolver P server request P.now s).1 with
    | error e => exact fine
    | ok response => exact fun both => fine both.1

end ClientRequestHandler

namespace World

open Search Transition

variable {ρ : Type} [RegexEngine ρ] {P : Platform} {server : HttpServer ρ} {capacity : ℕ}
  {w w' : World} {a : Action} {c d : ClientId} {fd workers : ℕ} {s : Stream}

/-! ## What is in a batch is still there -/

/-- What an event was reported for has not been read by anybody else. -/
def Fresh (w : World) : Event → Prop
  | .newPipe => w.newFdChannel.readable = true
  | .returnPipe => w.returnChannel.readable = true
  | .client fd hangup => hangup = true ∨
      ∃ c, w.connections.lookup fd = some c ∧ w.reports c = true

structure BatchInv (w : World) : Prop where
  short : w.batch.length ≤ 64
  fresh : ∀ event ∈ w.batch, w.Fresh event

theorem Fresh.congr {event : Event} (h : w.Fresh event)
    (newReadable : w.newFdChannel.readable = true → w'.newFdChannel.readable = true)
    (returnReadable : w.returnChannel.readable = true → w'.returnChannel.readable = true)
    (tracked : ∀ fd c, event = .client fd false → w.connections.lookup fd = some c →
      w.reports c = true → w'.connections.lookup fd = some c ∧ w'.reports c = true) :
    w'.Fresh event := by
  cases event with
  | newPipe => exact newReadable h
  | returnPipe => exact returnReadable h
  | client fd hangup =>
    rcases h with isHangup | ⟨c, isC, reports⟩
    · exact Or.inl isHangup
    · cases hangup with
      | true => exact Or.inl rfl
      | false => exact Or.inr ⟨c, tracked fd c rfl isC reports⟩

theorem readable_writeByte {α ι : Type} [DecidableEq ι] {ch : FdChannel α ι} (i : ι)
    (h : ch.readable = true) : (ch.writeByte capacity i).readable = true := by
  unfold FdChannel.readable FdChannel.writeByte at *
  simp only [gt_iff_lt, Bool.or_eq_true, decide_eq_true_eq] at h ⊢
  apply h.imp_left
  intro positive
  split_ifs <;> omega

/-- What a client reports depends on its stream and its ciphertext. -/
theorem reports_keeps (reported : w.reports c = true) (stream : w'.stream c = w.stream c)
    (ciphertext : w'.ciphertext c = w.ciphertext c) : w'.reports c = true := by
  rw [reports] at reported ⊢
  rwa [stream, ciphertext]

/-- A plain client reports what its socket has. -/
theorem reports_iff_of_plain (plain : (w.stream c).transport = .plain) :
    w.reports c = true ↔ ¬ (w.stream c).socket.Silent := by
  constructor
  · intro reported silent
    simp [reports, plain, silent.received, silent.fin, silent.error] at reported
  · intro reports
    by_contra unreported
    exact reports (silent_of_unreported plain (Bool.eq_false_iff.mpr unreported))

/-- What arrives does not silence a socket. -/
theorem not_silent_arrive {k : Socket} (arrival : Arrival) (h : ¬ k.Silent) :
    ¬ (k.arrive arrival).Silent := by
  intro silent
  apply h
  have received := silent.received
  have fin := silent.fin
  have error := silent.error
  simp only [Socket.arrive, List.append_eq_nil_iff, Bool.or_eq_false_iff,
    Option.or_eq_none_iff] at received fin error
  exact ⟨received.1, fin.1, error.2⟩

theorem short_of_epollWait {events : List Event}
    (h : w.next P server capacity (.epollWait events) = some w') : events.length ≤ 64 := by
  unfold next at h
  by_cases returned : w.newFdChannel.reader = .returned
  · rw [if_pos returned] at h
    cases h
  · rw [if_neg returned] at h
    dsimp only at h
    split_ifs at h with ready
    exact ready.2.2.1

theorem fresh_of_ready (own : OwnershipInv w) (reg : RegistrationInv w) {event : Event}
    (h : w.ready event = true) : w.Fresh event := by
  cases event with
  | newPipe => exact h
  | returnPipe => exact h
  | client fd hangup =>
    have member : fd ∈ w.connections := (reg.mem_iff fd).mp (Or.inl (armed_of_ready h))
    obtain ⟨c, tracked⟩ := Option.isSome_iff_exists.mp (AList.lookup_isSome.mpr member)
    simp only [ready, owner_of_tracked own tracked, Bool.and_eq_true, Bool.or_eq_true,
      decide_eq_true_eq] at h
    by_cases isHangup : hangup = true
    · exact Or.inl isHangup
    · exact Or.inr ⟨c, tracked, h.2.resolve_right isHangup⟩

/-- The events behind one that is handled are about other descriptors. -/
theorem fresh_handleClientEvent (own : OwnershipInv w) {hangup : Bool} {event : Event}
    {batch : List Event} (other : eventFd event ≠ .inl fd) (h : w.Fresh event)
    (handled : handleClientEvent P fd hangup (w.turnTo fd batch) = .ok w') : w'.Fresh event := by
  obtain ⟨newSame, returnSame⟩ := handleClientEvent_channels handled
  apply h.congr (by rw [newSame]; exact id) (by rw [returnSame]; exact id)
  rintro fd' c rfl isC reports
  have apart : fd' ≠ fd := by
    rintro rfl
    exact other rfl
  have untold : w.connections.lookup fd ≠ some c := fun isFd =>
    apart ((own.keyed fd' c isC).symm.trans (own.keyed fd c isFd))
  have kept : (w.turnTo fd batch).ciphertext c = w.ciphertext c := by simp [untold]
  obtain ⟨-, rfl⟩ | ⟨client, isClient, outcome⟩ := handleClientEvent_cases handled
  · exact ⟨isC, reports_keeps reports rfl kept⟩
  have others : c ≠ client := by
    rintro rfl
    exact untold isClient
  obtain ⟨-, fdOpen, interest, rfl, -⟩ | ⟨-, -, interest, rfl⟩ | ⟨-, pos, head, rfl⟩ := outcome
  · exact ⟨by rwa [AList.lookup_erase_ne apart], reports_keeps reports rfl kept⟩
  · exact ⟨isC, reports_keeps reports (setStream_of_ne others) kept⟩
  · exact ⟨by rwa [AList.lookup_erase_ne apart],
      reports_keeps reports (setStream_of_ne others) kept⟩

/-- Clients are added under free keys. -/
theorem fresh_emplace {client : ClientId} {event : Event} (h : w.Fresh event)
    (free : fd ∉ w.connections)
    (newReadable : w'.newFdChannel.readable = w.newFdChannel.readable)
    (returnReadable : w'.returnChannel.readable = w.returnChannel.readable)
    (connections : w'.connections = w.connections.emplace fd client)
    (stream : w'.stream = w.stream) (ciphertext : w'.ciphertext = w.ciphertext) :
    w'.Fresh event := by
  apply h.congr (by rw [newReadable]; exact id) (by rw [returnReadable]; exact id)
  intro fd' c _ isC reports
  rw [connections]
  exact ⟨lookup_emplace_of_tracked free isC,
    reports_keeps reports (congrFun stream c) (congrFun ciphertext c)⟩

theorem fresh_drainNew (own : OwnershipInv w) {event : Event} (h : w.Fresh event) :
    (drainNewFdChannel w).Fresh event := by
  cases hq : w.newFdChannel.queue with
  | nil =>
    rw [drainNewFdChannel_of_nil hq]
    exact h.congr id id fun fd c _ isC reports => ⟨isC, reports⟩
  | cons client queue =>
    have queued : w.In client .newQueue := by
      show client ∈ w.newFdChannel.queue
      rw [hq]
      exact List.mem_cons_self
    obtain ⟨interest, after⟩ := drainNewFdChannel_of_cons hq
    rw [after]
    exact fresh_emplace h (own.getFd_untracked queued (by decide) (by decide)) rfl rfl rfl rfl rfl

theorem fresh_drainReturn (own : OwnershipInv w) {event : Event} (h : w.Fresh event) :
    (drainReturnChannel w).Fresh event := by
  cases hq : w.returnChannel.queue with
  | nil =>
    rw [drainReturnChannel_of_nil hq]
    exact h.congr id id fun fd c _ isC reports => ⟨isC, reports⟩
  | cons rc queue =>
    obtain ⟨client, keepAlive⟩ := rc
    have returned : w.In client .returnQueue :=
      ⟨⟨client, keepAlive⟩, by rw [hq]; exact List.mem_cons_self, rfl⟩
    cases keepAlive with
    | true =>
      obtain ⟨interest, after⟩ := drainReturnChannel_of_kept hq
      rw [after]
      exact fresh_emplace h (own.getFd_untracked returned (by decide) (by decide)) rfl rfl rfl rfl
        rfl
    | false =>
      obtain ⟨fdOpen, interest, closed, -⟩ := close_eq client
        { w with returnChannel := { w.returnChannel with queue := queue } }
      rw [drainReturnChannel_of_closed hq, closed]
      exact h.congr id id fun fd c _ isC reports => ⟨isC, reports⟩

theorem fresh_setSocket {event : Event} {k : Socket} (h : w.Fresh event)
    (reports : ¬ (w.stream d).socket.Silent → ¬ k.Silent) : (w.setSocket d k).Fresh event := by
  apply @Fresh.congr w (w.setSocket d k) event h id id
  intro fd c _ isC reported
  refine ⟨isC, ?_⟩
  by_cases same : c = d
  · subst same
    have stream : (w.setSocket c k).stream c = { w.stream c with socket := k } := setStream_self
    cases transport : (w.stream c).transport with
    | plain =>
      apply (reports_iff_of_plain (by rw [stream]; exact transport)).mpr
      rw [stream]
      exact reports ((reports_iff_of_plain transport).mp reported)
    | ssl =>
      rw [World.reports, transport] at reported
      rw [World.reports, stream, transport]
      exact reported
  · exact reports_keeps reported (setStream_of_ne same) rfl

/-- The rest of a batch, when an event of a pipe was handled. -/
theorem batchInv_pipe (inv : BatchInv w) {event : Event} {batch : List Event}
    (first : w.batch = event :: batch) (distinct : (w.batch.map eventFd).Nodup)
    (fresh : ∀ other ∈ batch, eventFd other ≠ eventFd event → w.Fresh other → w'.Fresh other)
    (rest : w'.batch = batch) : BatchInv w' := by
  rw [first, List.map_cons, List.nodup_cons] at distinct
  have short := inv.short
  rw [first, List.length_cons] at short
  constructor
  · rw [rest]
    omega
  · rw [rest]
    intro other member
    have apart : eventFd other ≠ eventFd event := by
      intro same
      exact distinct.1 (same ▸ List.mem_map_of_mem member)
    exact fresh other member apart
      (inv.fresh other (by rw [first]; exact List.mem_cons_of_mem _ member))

theorem batchInv_step (inv : BatchInv w) (own : OwnershipInv w) (reg : RegistrationInv w)
    (step : w.next P server capacity a = some w') : BatchInv w' := by
  cases takes_of_next step with
  | epollWait events idle empty reported =>
    refine ⟨short_of_epollWait step, fun event member => ?_⟩
    exact (fresh_of_ready own reg (List.all_eq_true.mp reported event member)).congr id id
      fun fd c _ isC reports => ⟨isC, reports⟩
  | newPipe batch idle first =>
    apply batchInv_pipe inv first reg.distinct _ rfl
    intro other member apart fresh
    cases other with
    | newPipe => exact absurd rfl apart
    | returnPipe => exact fresh
    | client fd hangup => exact fresh
  | returnPipe batch idle first =>
    apply batchInv_pipe inv first reg.distinct _ rfl
    intro other member apart fresh
    cases other with
    | newPipe => exact fresh
    | returnPipe => exact absurd rfl apart
    | client fd hangup => exact fresh
  | client fd hangup batch w' idle first handled =>
    have rest : w'.batch = batch := (handleClientEvent_keeps handled).2
    apply batchInv_pipe inv first reg.distinct _ rest
    intro other member apart fresh
    exact fresh_handleClientEvent own apart fresh handled
  | drainNew draining =>
    obtain ⟨interest, connections, after⟩ := drainNewFdChannel_frame w
    have rest : (drainNewFdChannel w).batch = w.batch := by rw [after]
    exact ⟨rest ▸ inv.short,
      fun event member => fresh_drainNew own (inv.fresh event (rest ▸ member))⟩
  | drainReturn draining =>
    obtain ⟨interest, connections, closed, fdOpen, after⟩ := drainReturnChannel_frame w
    have rest : (drainReturnChannel w).batch = w.batch := by rw [after]
    exact ⟨rest ▸ inv.short,
      fun event member => fresh_drainReturn own (inv.fresh event (rest ▸ member))⟩
  | accept fd transport idle isOpen unused =>
    refine ⟨inv.short, fun event member => (inv.fresh event member).congr id id ?_⟩
    intro fd' c _ isC reports
    exact ⟨isC, reports_keeps reports
      (Function.update_of_ne (Nat.ne_of_lt (own.tracked isC).1) _ _) rfl⟩
  | arrive d arrival known =>
    exact ⟨inv.short, fun event member => fresh_setSocket (inv.fresh event member)
      (not_silent_arrive arrival)⟩
  | foresee d arrival known =>
    exact ⟨inv.short, fun event member => fresh_setSocket (inv.fresh event member)
      fun reports silent => reports ⟨silent.received, silent.fin, silent.error⟩⟩
  | outcome d r known =>
    exact ⟨inv.short, fun event member => fresh_setSocket (inv.fresh event member)
      fun reports silent => reports ⟨silent.received, silent.fin, silent.error⟩⟩
  | ciphertext d known =>
    refine ⟨inv.short, fun event member => (inv.fresh event member).congr id id ?_⟩
    intro fd c _ isC reported
    refine ⟨isC, ?_⟩
    by_cases same : c = d
    · subst same
      rw [World.reports] at reported ⊢
      cases transport : (w.stream c).transport with
      | plain => simpa [transport] using reported
      | ssl => simp
    · exact reports_keeps reported rfl (Function.update_of_ne same _ _)
  | notifyNew pending =>
    exact ⟨inv.short, fun event member => (inv.fresh event member).congr (readable_writeByte ()) id
      fun fd c _ isC reports => ⟨isC, reports⟩⟩
  | notifyReturn i pending =>
    exact ⟨inv.short, fun event member => (inv.fresh event member).congr id (readable_writeByte i)
      fun fd c _ isC reports => ⟨isC, reports⟩⟩
  | shutdown idle =>
    refine ⟨inv.short, fun event member => (inv.fresh event member).congr ?_ id
      fun fd c _ isC reports => ⟨isC, reports⟩⟩
    intro _
    simp [FdChannel.readable, FdChannel.closeWrite]
  | take i task tasks free idle first =>
    exact ⟨inv.short, fun event member => (inv.fresh event member).congr id id
      fun fd c _ isC reports => ⟨isC, reports⟩⟩
  | call i task keepAlive busy enqueued =>
    refine ⟨inv.short, fun event member => (inv.fresh event member).congr id id ?_⟩
    intro fd c _ isC reports
    have others : c ≠ task.client := by
      rintro rfl
      exact own.not_in (q := .connections) (in_handler_iff.mpr ⟨task, Or.inr ⟨i, busy⟩, rfl⟩)
        (by decide) ⟨fd, isC⟩
    exact ⟨isC, reports_keeps reports (setStream_of_ne others) rfl⟩

theorem batchInv_reachable (h : Reachable Initial (Step P server capacity) w) : BatchInv w := by
  apply h.invariant_of
  · rintro w rfl
    exact ⟨Nat.zero_le _, nofun⟩
  · intro w a w' reachable inv step
    exact batchInv_step inv (ownershipInv_reachable reachable) (registrationInv_reachable reachable)
      step

/-! ## Work -/

/-- A loop that drains looks into the queue once more. -/
def readerLoad : ReaderState → ℕ
  | .draining => 1
  | .idle | .returned => 0

/-- What a channel may still cause; `writers` are those who can write to its pipe. -/
def load {α ι : Type} (writers : Finset ι) (ch : FdChannel α ι) : ℕ :=
  2 * ch.queue.length + 2 * ch.pipe + 3 * ∑ i ∈ writers, (ch.writing i).toNat +
    readerLoad ch.reader

/-- What can still happen to what there is: a client on its way takes some more steps, a head that is
extracted costs at least four bytes, and ciphertext is reported once. -/
def chores (workers : ℕ) (w : World) : ℕ :=
  load {()} w.newFdChannel + load (Finset.range workers) w.returnChannel +
    w.connections.countValues (fun _ => true) + 7 * w.tasks.length +
    6 * w.running.countValues (fun _ => true) + ∑ c ∈ Finset.range w.accepted, (w.stream c).work +
    ∑ c ∈ Finset.range w.accepted, (w.ciphertext c).toNat

/-- What the server can still do; between two of its chores it handles a batch and waits for the
next one. -/
def work (workers : ℕ) (w : World) : ℕ :=
  66 * w.chores workers + if w.batch = [] then 65 else w.batch.length

section Load

variable {α ι : Type} {ch : FdChannel α ι} {writers : Finset ι}

theorem load_tryDequeue_of_nil (draining : ch.reader = .draining) (empty : ch.queue = []) :
    load writers ch.tryDequeue.2 + 1 = load writers ch := by
  rw [FdChannel.tryDequeue_of_nil empty]
  simp only [load, draining, readerLoad]

theorem load_tryDequeue_of_cons {x : α} {queue : List α} (first : ch.queue = x :: queue) :
    load writers ch.tryDequeue.2 + 2 = load writers ch := by
  rw [FdChannel.tryDequeue_of_cons first]
  simp only [load, first, List.length_cons]
  omega

theorem load_onReadable {returnOnEof : Bool} (idle : ch.reader = .idle) (pipe : 0 < ch.pipe) :
    load writers (ch.onReadable returnOnEof) < load writers ch := by
  have notEof : ¬ (PipeRead.bytes (min 256 ch.pipe) = .eof ∧ returnOnEof = true) := nofun
  simp only [FdChannel.onReadable, FdChannel.readPipe, if_pos pipe, if_neg notEof, load, idle,
    readerLoad]
  omega

variable [DecidableEq ι] {i : ι}

theorem load_enqueue (x : α) (member : i ∈ writers) (idle : ch.writing i = false) :
    load writers (ch.enqueue i x) = load writers ch + 5 := by
  have updated := Threads.sum_update Bool.toNat ch.writing member true
  rw [idle] at updated
  simp only [Bool.toNat_false, Bool.toNat_true] at updated
  simp only [load, FdChannel.enqueue, List.length_append, List.length_singleton]
  omega

theorem load_writeByte (member : i ∈ writers) (pending : ch.writing i = true) :
    load writers (ch.writeByte capacity i) < load writers ch := by
  have updated := Threads.sum_update Bool.toNat ch.writing member false
  rw [pending] at updated
  simp only [Bool.toNat_false, Bool.toNat_true] at updated
  simp only [load, FdChannel.writeByte]
  split_ifs <;> omega

end Load

/-- A step that leaves all but one client's stream alone. -/
theorem sum_work_setStream (known : c < w.accepted) :
    ∑ d ∈ Finset.range w.accepted, ((w.setStream c s).stream d).work + (w.stream c).work =
      ∑ d ∈ Finset.range w.accepted, (w.stream d).work + s.work :=
  Threads.sum_update Stream.work w.stream (Finset.mem_range.mpr known) s

/-! ## Steps -/

/-- The peers of all clients are calm. -/
def Calm (w : World) : Prop := ∀ c < w.accepted, (w.stream c).Calm

theorem calm_setStream (calm : w.Calm) (calmS : s.Calm) :
    ∀ d < w.accepted, ((w.setStream c s).stream d).Calm := by
  intro d known
  by_cases same : d = c
  · rwa [same, setStream_self]
  · rw [setStream_of_ne same]
    exact calm d known

/-- The ciphertext of the client is fetched. -/
theorem sum_ciphertext_turnTo {batch : List Event} (tracked : w.connections.lookup fd = some c)
    (known : c < w.accepted) :
    ∑ d ∈ Finset.range w.accepted, ((w.turnTo fd batch).ciphertext d).toNat +
        (w.ciphertext c).toNat = ∑ d ∈ Finset.range w.accepted, (w.ciphertext d).toNat := by
  have fetched : (w.turnTo fd batch).ciphertext = Function.update w.ciphertext c false := by
    funext d
    by_cases same : d = c
    · simp [same, tracked]
    · simp [Function.update_of_ne same, tracked, Ne.symm same]
  rw [fetched]
  exact Threads.sum_update Bool.toNat w.ciphertext (Finset.mem_range.mpr known) false

/-- An event of a client that reports something uses up what it reports. -/
theorem chores_handleClientEvent (own : OwnershipInv w) (calm : w.Calm) {hangup : Bool}
    {batch : List Event} (fresh : w.Fresh (.client fd hangup))
    (tracked : w.connections.lookup fd = some c)
    (handled : handleClientEvent P fd hangup (w.turnTo fd batch) = .ok w') :
    w'.Calm ∧ w'.chores workers < w.chores workers := by
  have known := (own.tracked tracked).1
  have calmC := calm c known
  have fetched := @sum_ciphertext_turnTo w c fd batch tracked known
  dsimp only [turnTo] at fetched
  have erased := UnorderedMap.countValues_erase (p := fun _ => true) tracked
  simp only [if_true] at erased
  have tracked' : (w.turnTo fd batch).connections.lookup fd = some c := tracked
  cases hangup with
  | true =>
    simp only [handleClientEvent, tracked', if_true] at handled
    cases handled
    obtain ⟨fdOpen, interest, closed, -⟩ := close_eq c (w.turnTo fd batch)
    rw [closed]
    refine ⟨calm, ?_⟩
    simp only [chores]
    omega
  | false =>
    obtain ⟨t, event, rfl⟩ | ⟨requestBuffer, t, event, rfl⟩ :=
      handleClientEvent_eq tracked' handled
    · obtain rfl := Connection.handleEvent_watched event
      obtain ⟨interest, armed⟩ := rearmFd_eq fd
        ((w.turnTo fd batch).setStream c (IStream.peek P MAX_HEADER_BYTES (w.stream c)).2)
      rw [armed]
      refine ⟨calm_setStream calm (IStream.calm_peek calmC), ?_⟩
      have reported : w.reports c = true := by
        rcases fresh with isHangup | ⟨d, isD, reports⟩
        · cases isHangup
        · obtain rfl : c = d := Option.some.inj (tracked.symm.trans isD)
          exact reports
      -- A plain client has bytes that are moved, a TLS client has ciphertext that is fetched.
      have less : (IStream.peek P MAX_HEADER_BYTES (w.stream c)).2.work <
          (w.stream c).work + (w.ciphertext c).toNat := by
        cases transport : (w.stream c).transport with
        | plain =>
          have arrived : (w.stream c).socket.received ≠ [] := fun none =>
            (reports_iff_of_plain transport).mp reported
              ⟨none, calmC.socket.fin, calmC.socket.error⟩
          exact Nat.lt_add_right _ (IStream.work_peek_lt calmC arrived)
        | ssl =>
          rw [World.reports, transport] at reported
          rw [show w.ciphertext c = true from reported]
          exact Nat.lt_succ_of_le (IStream.work_peek_le calmC)
      have moved := @sum_work_setStream w c (IStream.peek P MAX_HEADER_BYTES (w.stream c)).2 known
      simp only [chores, setStream] at moved ⊢
      omega
    · obtain ⟨calmT, less⟩ := Connection.work_handleEvent_handled calmC event
      refine ⟨calm_setStream calm calmT, ?_⟩
      have moved := @sum_work_setStream w c t known
      simp only [chores, setStream, List.length_append, List.length_singleton] at moved ⊢
      omega

theorem chores_drainNew (own : OwnershipInv w) (draining : w.newFdChannel.reader = .draining) :
    (drainNewFdChannel w).chores workers < w.chores workers := by
  cases hq : w.newFdChannel.queue with
  | nil =>
    have used := @load_tryDequeue_of_nil _ _ _ {()} draining hq
    rw [FdChannel.tryDequeue_of_nil hq] at used
    rw [drainNewFdChannel_of_nil hq]
    simp only [chores] at used ⊢
    omega
  | cons client queue =>
    have used := @load_tryDequeue_of_cons _ _ _ {()} _ _ hq
    rw [FdChannel.tryDequeue_of_cons hq] at used
    obtain ⟨interest, after⟩ := drainNewFdChannel_of_cons hq
    have queued : w.In client .newQueue := by
      show client ∈ w.newFdChannel.queue
      rw [hq]
      exact List.mem_cons_self
    have free := own.getFd_untracked queued (by decide) (by decide)
    rw [after]
    simp only [chores, UnorderedMap.emplace_of_notMem free, UnorderedMap.countValues_insert free,
      if_true] at used ⊢
    omega

theorem chores_drainReturn (own : OwnershipInv w) (draining : w.returnChannel.reader = .draining) :
    (drainReturnChannel w).chores workers < w.chores workers := by
  cases hq : w.returnChannel.queue with
  | nil =>
    have used := @load_tryDequeue_of_nil _ _ _ (Finset.range workers) draining hq
    rw [FdChannel.tryDequeue_of_nil hq] at used
    rw [drainReturnChannel_of_nil hq]
    simp only [chores] at used ⊢
    omega
  | cons rc queue =>
    obtain ⟨client, keepAlive⟩ := rc
    have used := @load_tryDequeue_of_cons _ _ _ (Finset.range workers) _ _ hq
    rw [FdChannel.tryDequeue_of_cons hq] at used
    cases keepAlive with
    | true =>
      obtain ⟨interest, after⟩ := drainReturnChannel_of_kept hq
      have returned : w.In client .returnQueue :=
        ⟨⟨client, true⟩, by rw [hq]; exact List.mem_cons_self, rfl⟩
      have free := own.getFd_untracked returned (by decide) (by decide)
      rw [after]
      simp only [chores, UnorderedMap.emplace_of_notMem free,
        UnorderedMap.countValues_insert free, if_true] at used ⊢
      omega
    | false =>
      obtain ⟨fdOpen, interest, closed, -⟩ := close_eq client
        { w with returnChannel := { w.returnChannel with queue := queue } }
      rw [drainReturnChannel_of_closed hq, closed]
      simp only [chores] at used ⊢
      omega

/-- A handler is left for a client on its way back, with a byte to write. -/
theorem chores_call (calm : w.Calm) {i : ℕ} {task : Task} {keepAlive : Bool}
    (known : task.client < w.accepted) (worker : i < workers) (idle : w.returnChannel.writing i = false)
    (busy : w.running.lookup i = some task) (calmS : s.Calm)
    (less : s.work ≤ (w.stream task.client).work)
    (after : w' = { w.setStream task.client s with
      running := w.running.erase i
      returnChannel := w.returnChannel.enqueue i ⟨task.client, keepAlive⟩ }) :
    w'.Calm ∧ w'.chores workers < w.chores workers := by
  have erased := UnorderedMap.countValues_erase (p := fun _ => true) busy
  have moved := @sum_work_setStream w task.client s known
  have enqueued := load_enqueue (⟨task.client, keepAlive⟩ : ReturnedConnection)
    (Finset.mem_range.mpr worker) idle
  rw [after]
  refine ⟨calm_setStream calm calmS, ?_⟩
  simp only [chores, setStream, if_true] at moved erased ⊢
  omega

/-- The server has its workers and its acceptor, and its peers are calm. -/
structure Undisturbed (P : Platform) (server : HttpServer ρ) (capacity : ℕ) (w : World) : Prop where
  reachable : Reachable Initial (Step P server capacity) w
  isOpen : w.newFdChannel.writeOpen = true
  calm : w.Calm

/-- A step does one of the chores, or with the next event of the batch, or begins a batch. -/
inductive Proceeds (workers : ℕ) (w w' : World) : Prop
  | chore (batch : w'.batch = w.batch) (less : w'.chores workers < w.chores workers)
  | handled (event : Event) (batch : w.batch = event :: w'.batch)
      (less : w'.chores workers < w.chores workers)
  | waited (empty : w.batch = []) (filled : w'.batch ≠ []) (short : w'.batch.length ≤ 64)
      (same : w'.chores workers = w.chores workers)

theorem Proceeds.work_lt (h : Proceeds workers w w') : w'.work workers < w.work workers := by
  unfold work
  cases h with
  | chore batch less =>
    rw [batch]
    omega
  | handled event batch less =>
    rw [batch, if_neg (List.cons_ne_nil _ _), List.length_cons]
    split_ifs <;> omega
  | waited empty filled short same =>
    rw [if_pos empty, if_neg filled, same]
    omega

/-- What the workers rely on: they have tasks of clients that there are, each worker one at most, and
none that does not exist. -/
structure WorkInv (server : HttpServer ρ) (w : World) : Prop where
  waiting : ∀ task ∈ w.tasks, task.client < w.accepted
  running : ∀ i task, w.running.lookup i = some task → task.client < w.accepted
  idle : ∀ i task, w.running.lookup i = some task → w.returnChannel.writing i = false
  worker : WorkerInv server w

theorem workInv_reachable (h : Reachable Initial (Step P server capacity) w) : WorkInv server w where
  waiting task member :=
    (ownershipInv_reachable h).known (in_handler_iff.mpr ⟨task, Or.inl member, rfl⟩)
  running i task busy :=
    (ownershipInv_reachable h).known (in_handler_iff.mpr ⟨task, Or.inr ⟨i, busy⟩, rfl⟩)
  idle := (workersInv_reachable h).busy
  worker := workerInv_reachable h

/-- A worker does one of the chores. -/
theorem chores_worker (inv : WorkInv server w) (calm : w.Calm) (byWorker : ofWorker a = true)
    (step : w.next P server capacity a = some w') :
    w'.Calm ∧ w'.batch = w.batch ∧
      w'.chores server.threadCount.toNat < w.chores server.threadCount.toNat := by
  cases takes_of_next step with
  | notifyReturn i pending =>
    have worker := inv.worker.writing i pending
    have less := @load_writeByte capacity _ _ w.returnChannel
      (Finset.range server.threadCount.toNat) _ i (Finset.mem_range.mpr (by omega)) pending
    refine ⟨calm, rfl, ?_⟩
    simp only [chores]
    omega
  | take i task tasks free idle first =>
    have fresh : i ∉ w.running := AList.lookup_eq_none.mp free
    refine ⟨calm, rfl, ?_⟩
    simp only [chores, UnorderedMap.countValues_insert fresh, first, List.length_cons, if_true]
    omega
  | call i task keepAlive busy enqueued =>
    have worker := inv.worker.busy i task busy
    have known := inv.running i task busy
    obtain ⟨calmS, less⟩ := @ClientRequestHandler.call_calm ρ _ P server task.client
      task.requestBuffer (w.stream task.client) (calm _ known)
    obtain ⟨calm', fewer⟩ := chores_call calm known (Int.lt_toNat.mpr worker)
      (inv.idle i task busy) busy calmS less rfl
    exact ⟨calm', rfl, fewer⟩
  | accept | notifyNew | shutdown | arrive | foresee | ciphertext | outcome | epollWait | newPipe |
    returnPipe |
    client | drainNew | drainReturn => cases byWorker

/-- The manager finds its pipe closed and returns. -/
structure Returns (workers : ℕ) (w w' : World) : Prop where
  closed : w.newFdChannel.writeOpen = false
  reader : w'.newFdChannel.reader = .returned
  batch : w.batch = .newPipe :: w'.batch
  same : w'.chores workers = w.chores workers

/-- With calm peers nothing that the server does by itself is in vain. -/
theorem advances_of_internal (h : Reachable Initial (Step P server capacity) w) (calm : w.Calm)
    (internal : a.internal = true) (step : w.next P server capacity a = some w') :
    w'.Calm ∧ w'.newFdChannel.writeOpen = w.newFdChannel.writeOpen ∧
      (Proceeds server.threadCount.toNat w w' ∨ Returns server.threadCount.toNat w w') := by
  have own := ownershipInv_reachable h
  have reg := registrationInv_reachable h
  have fresh := (batchInv_reachable h).fresh
  cases takes_of_next step with
  | accept | shutdown | arrive | foresee | ciphertext | outcome => cases internal
  | notifyNew pending =>
    have less := @load_writeByte capacity _ _ w.newFdChannel {()} _ () (Finset.mem_singleton_self _)
      pending
    refine ⟨calm, rfl, Or.inl (.chore rfl ?_)⟩
    simp only [chores]
    omega
  | epollWait events idle empty reported =>
    refine ⟨calm, rfl, Or.inl (.waited empty ?_ (short_of_epollWait step) rfl)⟩
    rintro rfl
    cases internal
  | newPipe batch idle first =>
    simp only [loopIdle, Bool.and_eq_true, decide_eq_true_eq] at idle
    refine ⟨calm, (onReadable_writing true w.newFdChannel).2, ?_⟩
    by_cases bytes : 0 < w.newFdChannel.pipe
    · have less := @load_onReadable _ _ w.newFdChannel {()} true idle.1 bytes
      refine Or.inl (.handled .newPipe first ?_)
      simp only [chores]
      omega
    · have readable : w.newFdChannel.readable = true :=
        fresh .newPipe (by rw [first]; exact List.mem_cons_self)
      have closed : w.newFdChannel.writeOpen = false := by
        simpa [FdChannel.readable, bytes] using readable
      have after : w.newFdChannel.onReadable true = { w.newFdChannel with reader := .returned } := by
        simp [FdChannel.onReadable, FdChannel.readPipe, bytes, closed]
      refine Or.inr ⟨closed, by rw [after], first, ?_⟩
      simp only [chores, after, load, idle.1, readerLoad]
  | returnPipe batch idle first =>
    have readable : w.returnChannel.readable = true :=
      fresh .returnPipe (by rw [first]; exact List.mem_cons_self)
    simp only [FdChannel.readable, (workersInv_reachable h).isOpen, Bool.not_true,
      Bool.or_false, decide_eq_true_eq] at readable
    simp only [loopIdle, Bool.and_eq_true, decide_eq_true_eq] at idle
    have less := @load_onReadable _ _ w.returnChannel (Finset.range server.threadCount.toNat)
      false idle.2 readable
    refine ⟨calm, rfl, Or.inl (.handled .returnPipe first ?_)⟩
    simp only [chores]
    omega
  | client fd hangup batch w' idle first handled =>
    have pending : w.Pending fd := ⟨hangup, by rw [first]; exact List.mem_cons_self⟩
    obtain ⟨c, tracked⟩ :=
      Option.isSome_iff_exists.mp (AList.lookup_isSome.mpr (reg.of_pending pending).1)
    have reported : w.Fresh (.client fd hangup) :=
      fresh _ (by rw [first]; exact List.mem_cons_self)
    have rest : w'.batch = batch := (handleClientEvent_keeps handled).2
    obtain ⟨calm', less⟩ := @chores_handleClientEvent P w w' c fd server.threadCount.toNat own calm
      hangup batch reported tracked handled
    refine ⟨calm', by rw [(handleClientEvent_channels handled).1],
      Or.inl (.handled (.client fd hangup) ?_ less)⟩
    rw [first, rest]
  | drainNew draining =>
    obtain ⟨interest, connections, after⟩ := drainNewFdChannel_frame w
    have less := @chores_drainNew w server.threadCount.toNat own draining
    refine ⟨?_, ?_, Or.inl (.chore ?_ less)⟩
    · rw [after]
      exact calm
    · rw [after]
      exact (tryDequeue_writing w.newFdChannel).2
    · rw [after]
  | drainReturn draining =>
    obtain ⟨interest, connections, closed, fdOpen, after⟩ := drainReturnChannel_frame w
    have less := @chores_drainReturn w server.threadCount.toNat own draining
    refine ⟨?_, ?_, Or.inl (.chore ?_ less)⟩
    · rw [after]
      exact calm
    · rw [after]
    · rw [after]
  | take i task tasks free idle first =>
    obtain ⟨calm', batch, less⟩ := chores_worker (workInv_reachable h) calm rfl step
    exact ⟨calm', rfl, Or.inl (.chore batch less)⟩
  | call i task keepAlive busy enqueued =>
    obtain ⟨calm', batch, less⟩ := chores_worker (workInv_reachable h) calm rfl step
    exact ⟨calm', rfl, Or.inl (.chore batch less)⟩
  | notifyReturn i pending =>
    obtain ⟨calm', batch, less⟩ := chores_worker (workInv_reachable h) calm rfl step
    exact ⟨calm', rfl, Or.inl (.chore batch less)⟩

/-- What an undisturbed server does by itself keeps it undisturbed and is never in vain. -/
theorem proceeds_of_internal (h : Undisturbed P server capacity w)
    (internal : a.internal = true) (step : w.next P server capacity a = some w') :
    Undisturbed P server capacity w' ∧ Proceeds server.threadCount.toNat w w' := by
  obtain ⟨calm, sameOpen, advances⟩ := advances_of_internal h.reachable h.calm internal step
  refine ⟨⟨h.reachable.next step, sameOpen.trans h.isOpen, calm⟩, ?_⟩
  rcases advances with proceeds | returns
  · exact proceeds
  · have closed := returns.closed
    rw [h.isOpen] at closed
    cases closed

/-! ## Runs -/

theorem lowers_work : Lowers (next P server capacity) (fun a => a.internal = true)
    (Undisturbed P server capacity) (work server.threadCount.toNat) where
  keeps _ _ _ h internal step := (proceeds_of_internal h internal step).1
  lowers _ _ _ h internal step := (proceeds_of_internal h internal step).2.work_lt

theorem WorkInv.handlersReturn (inv : WorkInv server w) (calm : w.Calm) :
    HandlersReturn P server w := fun i task busy =>
  ClientRequestHandler.call_returns (calm _ (inv.running i task busy))

/-- Where an undisturbed server has no step left there is nothing to do. -/
theorem Undisturbed.settled_of_stuck (h : Undisturbed P server capacity w) (pos : 0 < capacity)
    (workers : 0 < server.threadCount) (stuck : Stuck P server capacity w) : Settled w :=
  World.settled_of_stuck pos workers h.reachable h.isOpen
    ((workInv_reachable h.reachable).handlersReturn h.calm) stuck

/-- While nothing disturbs it the server can take as many steps as it has `work`, in any order, and
when no step is left there is nothing to do; so it gets there. -/
theorem settles (pos : 0 < capacity) (workers : 0 < server.threadCount)
    (h : Reachable Initial (Step P server capacity) w) (isOpen : w.newFdChannel.writeOpen = true)
    (calm : w.Calm) :
    (∀ as w', (∀ a ∈ as, a.internal = true) → run (next P server capacity) w as = some w' →
      as.length ≤ w.work server.threadCount.toNat ∧
        (Stuck P server capacity w' ↔ Settled w')) ∧
    ∃ as w', (∀ a ∈ as, a.internal = true) ∧ run (next P server capacity) w as = some w' ∧
      Settled w' := by
  have undisturbed : Undisturbed P server capacity w := ⟨h, isOpen, calm⟩
  constructor
  · intro as w' all hrun
    have bounded := lowers_work.length_le undisturbed all hrun
    have later := lowers_work.run_keeps undisturbed all hrun
    exact ⟨by omega, later.settled_of_stuck pos workers,
      stuck_of_settled pos later.reachable later.isOpen⟩
  · obtain ⟨as, w', all, hrun, stuck⟩ := lowers_work.exists_settled undisturbed
    have later := lowers_work.run_keeps undisturbed all hrun
    exact ⟨as, w', all, hrun, later.settled_of_stuck pos workers stuck⟩

/-- A client was accepted and has sent a request. -/
theorem settles_request :
    ∃ w, Reachable Initial (Step Platform.newestFirst HttpServer.emptyServer 65536) w ∧
      (w.stream 0).socket.received ≠ [] ∧
      (∀ as w', (∀ a ∈ as, a.internal = true) →
        run (next Platform.newestFirst HttpServer.emptyServer 65536) w as = some w' →
        as.length ≤ w.work 1 ∧
          (Stuck Platform.newestFirst HttpServer.emptyServer 65536 w' ↔ Settled w')) ∧
      ∃ as w', (∀ a ∈ as, a.internal = true) ∧
        run (next Platform.newestFirst HttpServer.emptyServer 65536) w as = some w' ∧
        Settled w' := by
  obtain ⟨w, reachable, state⟩ := @exists_reachable_of_run World Action Initial
    (next Platform.newestFirst HttpServer.emptyServer 65536) {}
    [.accept 5 .plain, .arrive 0 ⟨chars "GET / HTTP/1.1\r\n\r\n", false, none⟩]
    (fun w => w.accepted = 1 ∧ w.newFdChannel.writeOpen = true ∧
      w.stream 0 = { socket := { received := chars "GET / HTTP/1.1\r\n\r\n" } }) rfl
    (by decide +kernel)
  obtain ⟨accepted, isOpen, stream⟩ := of_decide_eq_true state
  refine ⟨w, reachable, by rw [stream]; decide, ?_⟩
  refine settles (by decide) (by decide) reachable isOpen fun c known => ?_
  obtain rfl : c = 0 := by omega
  rw [stream]
  exact ⟨⟨rfl, rfl, rfl, nofun⟩, by decide⟩

end World

end Lightning
