import Mathlib.Data.Option.Basic

/-!
# Outcomes

A reader finds a value or rejects its input.  Apart from that one of its actions may go wrong, whatever is
read behind it: a fault does not tell whether the input would have been accepted.

* `Outcome`: whether something has gone wrong, and the value.
* `Outcome.bind`: one reader behind another; behind a rejection nothing is read.
* `bind_eq_accepted`: both readers have accepted, and nothing has gone wrong in either.
-/

/-- Whether something has gone wrong, and the value unless the input has been rejected. -/
@[ext] structure Outcome (α : Type) where
  faults : Bool
  value : Option α
  deriving DecidableEq, Repr

namespace Outcome

variable {α β γ : Type}

/-- A value is found and nothing goes wrong. -/
abbrev accepted (a : α) : Outcome α := ⟨false, some a⟩

/-- Nothing is found, and nothing goes wrong before that is seen. -/
abbrev rejected : Outcome α := ⟨false, none⟩

/-- A reader goes on behind another one. -/
def bind (x : Outcome α) (f : α → Outcome β) : Outcome β :=
  match x.value with
  | some a => ⟨x.faults || (f a).faults, (f a).value⟩
  | none => ⟨x.faults, none⟩

/-- Something is made of the value. -/
def map (f : α → β) (x : Outcome α) : Outcome β := ⟨x.faults, x.value.map f⟩

instance : Monad Outcome where
  pure := accepted
  bind := bind

@[simp] theorem accepted_bind (a : α) (f : α → Outcome β) : (accepted a).bind f = f a := rfl

@[simp] theorem rejected_bind (f : α → Outcome β) : (rejected : Outcome α).bind f = rejected := rfl

@[simp] theorem map_accepted (f : α → β) (a : α) : (accepted a).map f = accepted (f a) := rfl

@[simp] theorem map_rejected (f : α → β) : (rejected : Outcome α).map f = rejected := rfl

theorem accepted_inj {a b : α} : accepted a = accepted b ↔ a = b := by simp

theorem map_id (x : Outcome α) : x.map id = x := by
  obtain ⟨faults, _ | a⟩ := x <;> rfl

theorem map_map (x : Outcome α) (f : α → β) (g : β → γ) : (x.map f).map g = x.map (g ∘ f) := by
  unfold map
  rw [Option.map_map]

theorem map_bind (x : Outcome α) (f : α → β) (g : β → Outcome γ) :
    (x.map f).bind g = x.bind fun a => g (f a) := by
  obtain ⟨faults, _ | a⟩ := x <;> rfl

theorem bind_map (x : Outcome α) (f : α → Outcome β) (g : β → γ) :
    (x.bind f).map g = x.bind fun a => (f a).map g := by
  obtain ⟨faults, _ | a⟩ := x <;> rfl

/-- What follows accepts the value that has been found. -/
theorem bind_eq_map {x : Outcome α} {f : α → Outcome β} {g : α → β}
    (h : ∀ a, x.value = some a → f a = accepted (g a)) : x.bind f = x.map g := by
  obtain ⟨faults, _ | a⟩ := x
  · rfl
  · simp [bind, map, h a rfl]

theorem bind_accepted (x : Outcome α) (f : α → β) : (x.bind fun a => accepted (f a)) = x.map f :=
  bind_eq_map fun _ _ => rfl

theorem bind_assoc (x : Outcome α) (f : α → Outcome β) (g : β → Outcome γ) :
    (x.bind f).bind g = x.bind fun a => (f a).bind g := by
  obtain ⟨faults, _ | a⟩ := x
  · rfl
  · unfold bind
    dsimp only
    cases (f a).value with
    | none => rfl
    | some b => exact Outcome.ext (Bool.or_assoc _ _ _) rfl

/-- Both readers have found a value. -/
theorem value_bind_eq_some {x : Outcome α} {f : α → Outcome β} {b : β} :
    (x.bind f).value = some b ↔ ∃ a, x.value = some a ∧ (f a).value = some b := by
  obtain ⟨faults, _ | a⟩ := x <;> simp [bind]

/-- What has been made has been made of a value. -/
theorem value_map_eq_some {x : Outcome α} {f : α → β} {b : β} :
    (x.map f).value = some b ↔ ∃ a, x.value = some a ∧ f a = b := Option.map_eq_some_iff

end Outcome
