import Lightning.FdChannels
import Lightning.Lib.Transition

/-!
# No wake-up is lost

Enqueueing before writing, and reading before draining, is what makes the channel safe: an element
in the queue is announced by a byte in the pipe, or its producer is about to write one, or the loop
is about to look into the queue. A byte that is dropped because the pipe is full leaves a pipe that
is not empty.
-/

namespace Lightning.FdChannel

open Transition

variable {α ι : Type}

/-- Somebody is about to look into the queue, or will be made to. -/
def Announced (ch : FdChannel α ι) : Prop :=
  0 < ch.pipe ∨ (∃ i, ch.writing i = true) ∨ ch.reader = .draining

/-- The invariant of the channel. -/
structure Inv (ch : FdChannel α ι) : Prop where
  announced : ch.queue ≠ [] → ch.Announced
  closed : ch.writeOpen = false → ∀ i, ch.writing i = false
  returned : ch.reader = .returned → ch.writeOpen = false ∧ ch.queue = []

theorem inv_initial : Inv ({} : FdChannel α ι) where
  announced h := absurd rfl h
  closed _ _ := rfl
  returned h := nomatch h

/-! ## The steps of the loop -/

section Reader

variable {returnOnEof : Bool} {ch : FdChannel α ι}

theorem inv_closeWrite (h : Inv ch) (idle : ∀ i, ch.writing i = false) : Inv ch.closeWrite where
  announced := h.announced
  closed _ := idle
  returned hr := ⟨rfl, (h.returned hr).2⟩

/-- The read of the pipe gives `0` only when the queue is empty. -/
theorem queue_eq_nil_of_eof (h : Inv ch) (idle : ch.reader = .idle)
    (eof : ch.readPipe.1 = .eof) : ch.writeOpen = false ∧ ch.queue = [] := by
  unfold readPipe at eof
  split_ifs at eof with hpipe hopen
  have shut : ch.writeOpen = false := by simpa using hopen
  refine ⟨shut, ?_⟩
  by_contra nonempty
  obtain pending | ⟨i, writing⟩ | draining := h.announced nonempty
  · exact hpipe pending
  · rw [h.closed shut i] at writing
    cases writing
  · rw [idle] at draining
    cases draining

theorem readPipe_frame (ch : FdChannel α ι) :
    ∃ pipe, ch.readPipe.2 = { ch with pipe := pipe } := by
  unfold readPipe
  split_ifs
  · exact ⟨_, rfl⟩
  · exact ⟨ch.pipe, rfl⟩
  · exact ⟨ch.pipe, rfl⟩

theorem inv_onReadable (h : Inv ch) (idle : ch.reader = .idle) :
    Inv (ch.onReadable returnOnEof) := by
  obtain ⟨pipe, after⟩ := readPipe_frame ch
  simp only [onReadable, after]
  split_ifs with eof
  · obtain ⟨shut, empty⟩ := queue_eq_nil_of_eof h idle eof.1
    exact ⟨fun nonempty => absurd empty nonempty, h.closed, fun _ => ⟨shut, empty⟩⟩
  · exact ⟨fun _ => Or.inr (Or.inr rfl), h.closed, nofun⟩

theorem inv_tryDequeue (h : Inv ch) (draining : ch.reader = .draining) :
    Inv ch.tryDequeue.2 := by
  unfold tryDequeue
  cases hq : ch.queue with
  | nil => exact ⟨fun nonempty => absurd rfl nonempty, h.closed, nofun⟩
  | cons x queue =>
    exact ⟨fun _ => Or.inr (Or.inr draining), h.closed,
      fun hr => absurd (draining.symm.trans hr) (by decide)⟩

end Reader

/-! ## The steps of a producer -/

variable [DecidableEq ι]

section Producer

variable {capacity : ℕ} {ch : FdChannel α ι} {i : ι} {x : α}

theorem inv_enqueue (h : Inv ch) (isOpen : ch.writeOpen = true) : Inv (ch.enqueue i x) where
  announced _ := by
    refine Or.inr (Or.inl ⟨i, ?_⟩)
    show Function.update ch.writing i true i = true
    rw [Function.update_self]
  closed shut := absurd (isOpen.symm.trans shut) (by decide)
  returned hr := absurd (isOpen.symm.trans (h.returned hr).1) (by decide)

/-- A write into a full pipe is dropped, but then the pipe holds a byte. -/
theorem writeByte_pipe_pos (pos : 0 < capacity) : 0 < (ch.writeByte capacity i).pipe := by
  show 0 < if ch.pipe < capacity then ch.pipe + 1 else ch.pipe
  split_ifs <;> omega

theorem inv_writeByte (pos : 0 < capacity) (h : Inv ch) : Inv (ch.writeByte capacity i) where
  announced _ := Or.inl (writeByte_pipe_pos pos)
  closed shut j := by
    show Function.update ch.writing i false j = false
    rw [Function.update_apply]
    split_ifs
    · rfl
    · exact h.closed shut j
  returned := h.returned

end Producer

/-! ## Runs -/

theorem inv_step {capacity : ℕ} (pos : 0 < capacity) {returnOnEof : Bool} {ch ch' : FdChannel α ι}
    {a : Action α ι} (h : Inv ch) (step : Step capacity returnOnEof ch a ch') : Inv ch' := by
  cases step with
  | enqueue i x idle isOpen => exact inv_enqueue h isOpen
  | writeByte i pending => exact inv_writeByte pos h
  | closeWrite idle => exact inv_closeWrite h idle
  | read idle => exact inv_onReadable h idle
  | dequeue draining => exact inv_tryDequeue h draining

theorem inv_reachable {capacity : ℕ} (pos : 0 < capacity) {returnOnEof : Bool}
    {ch : FdChannel α ι} (reachable : Reachable Initial (Step capacity returnOnEof) ch) : Inv ch :=
  reachable.invariant (fun _ h => h ▸ inv_initial) fun _ _ _ h step => inv_step pos h step

/-- For every number of producers and every interleaving no wake-up is lost, and the manager
returns only with an empty queue. -/
theorem no_lost_wakeup {capacity : ℕ} (pos : 1 ≤ capacity) {returnOnEof : Bool}
    {ch : FdChannel α ι} (reachable : Reachable Initial (Step capacity returnOnEof) ch) :
    (ch.queue ≠ [] →
      0 < ch.pipe ∨ (∃ i, ch.writing i = true) ∨ ch.reader = .draining) ∧
    (ch.reader = .returned → ch.queue = []) :=
  ⟨(inv_reachable pos reachable).announced, fun hr => ((inv_reachable pos reachable).returned hr).2⟩

/-- Two producers on a pipe of one byte: the second write is dropped. -/
theorem no_lost_wakeup_full :
    let step : FdChannel ℕ Bool → Action ℕ Bool → FdChannel ℕ Bool → Prop := Step 1 true
    ∃ ch, Reachable Initial step ch ∧ ch.queue = [7, 8] ∧ ch.pipe = 1 ∧
      ((ch.queue ≠ [] →
        0 < ch.pipe ∨ (∃ i, ch.writing i = true) ∨ ch.reader = .draining) ∧
      (ch.reader = .returned → ch.queue = [])) := by
  intro step
  have start : Reachable Initial step ({} : FdChannel ℕ Bool) := .start rfl
  have first := start.next (Step.enqueue true 7 rfl rfl)
  have second := first.next (Step.enqueue false 8 rfl rfl)
  have third := second.next (Step.writeByte true rfl)
  have fourth := third.next (Step.writeByte false rfl)
  exact ⟨_, fourth, rfl, rfl, no_lost_wakeup (le_refl 1) fourth⟩

end Lightning.FdChannel
