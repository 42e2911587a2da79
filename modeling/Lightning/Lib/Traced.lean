import Mathlib.Data.Option.Basic
import Mathlib.Logic.Basic

/-!
# Computations that keep a trace

A `Traced` computation lists what it did, and may fail; what it did before it failed stays in the
trace. `Ensures ok x post` says that everything `x` does is `ok`, and that it has a result, which
satisfies `post`. The rules below follow the syntax of a program, so that a program is proved safe
along its own lines. `result_bind` forgets the trace again.
-/

structure Traced (ι α : Type) where
  events : List ι
  result : Option α

namespace Traced

variable {ι α β : Type} {ok : ι → Prop} {x : Traced ι α} {p q : α → Prop}

/-- A computation that has failed does nothing more. -/
def andThen (x : Traced ι α) (f : α → Traced ι β) : Traced ι β :=
  match x.result with
  | none => ⟨x.events, none⟩
  | some a => ⟨x.events ++ (f a).events, (f a).result⟩

instance : Monad (Traced ι) where
  pure a := ⟨[], some a⟩
  bind := andThen

/-- Add one event to the trace. -/
def note (event : ι) : Traced ι Unit := ⟨[event], some ()⟩

/-- A partial function that leaves no trace. -/
def ofOption (a : Option α) : Traced ι α := ⟨[], a⟩

@[simp] theorem result_pure (a : α) : (pure a : Traced ι α).result = some a := rfl

@[simp] theorem result_note (event : ι) : (note event).result = some () := rfl

@[simp] theorem result_ofOption (a : Option α) : (ofOption a : Traced ι α).result = a := rfl

@[simp] theorem result_bind (x : Traced ι α) (f : α → Traced ι β) :
    (x >>= f).result = x.result.bind fun a => (f a).result := by
  change (x.andThen f).result = _
  unfold andThen
  cases x.result with
  | none => rfl
  | some a => rfl

@[simp] theorem events_pure (a : α) : (pure a : Traced ι α).events = [] := rfl

@[simp] theorem events_note (event : ι) : (note event).events = [event] := rfl

@[simp] theorem events_ofOption (a : Option α) : (ofOption a : Traced ι α).events = [] := rfl

theorem events_bind (x : Traced ι α) (f : α → Traced ι β) :
    (x >>= f).events = x.events ++ x.result.elim [] fun a => (f a).events := by
  change (x.andThen f).events = _
  unfold andThen
  cases x.result with
  | none => exact (List.append_nil _).symm
  | some a => rfl

@[simp] theorem result_ite (c : Prop) [Decidable c] (x y : Traced ι α) :
    (if c then x else y).result = if c then x.result else y.result :=
  apply_ite result c x y

/-- Every event is `ok` and there is a result, which satisfies `post`. -/
def Ensures (ok : ι → Prop) (x : Traced ι α) (post : α → Prop) : Prop :=
  (∀ event ∈ x.events, ok event) ∧ ∃ a, x.result = some a ∧ post a

namespace Ensures

theorem pure {a : α} (h : p a) : Ensures ok (pure a : Traced ι α) p :=
  ⟨fun _ hmem => absurd hmem List.not_mem_nil, a, rfl, h⟩

theorem note {event : ι} (h : ok event) : Ensures ok (note event) fun _ => True :=
  ⟨fun _ hmem => List.mem_singleton.mp hmem ▸ h, (), rfl, trivial⟩

theorem ofOption {a : α} {o : Option α} (h : o = some a) (hp : p a) :
    Ensures ok (ofOption o : Traced ι α) p :=
  ⟨fun _ hmem => absurd hmem List.not_mem_nil, a, h, hp⟩

theorem bind {f : α → Traced ι β} {post : β → Prop} (hx : Ensures ok x p)
    (hf : ∀ a, p a → Ensures ok (f a) post) : Ensures ok (x >>= f) post := by
  obtain ⟨fine, a, hresult, ha⟩ := hx
  obtain ⟨fine', b, hresult', hb⟩ := hf a ha
  constructor
  · intro event hmem
    rw [events_bind, hresult] at hmem
    cases List.mem_append.mp hmem with
    | inl before => exact fine event before
    | inr after => exact fine' event after
  · refine ⟨b, ?_, hb⟩
    rw [result_bind, hresult]
    exact hresult'

theorem mono (h : Ensures ok x p) (weaker : ∀ a, p a → q a) : Ensures ok x q := by
  obtain ⟨fine, a, hresult, ha⟩ := h
  exact ⟨fine, a, hresult, weaker a ha⟩

/-- A postcondition that leaves one value gives the result. -/
theorem result_eq {a : α} (h : Ensures ok x (· = a)) : x.result = some a := by
  obtain ⟨-, b, hresult, rfl⟩ := h
  exact hresult

end Ensures

end Traced
