import Mathlib

/-! # Outcomes of fallible programs

`Outcome r Q E` says of a fallible result that its value meets `Q` if there is one, and that its
error meets `E` otherwise. It is the postcondition of a program that may raise errors; the rules
below follow the constructs such a program is built from.

* `Outcome.bind`: the rule for sequencing.
* `Outcome.imp`: weakening.
* `bind_eq_ok`: when a sequence returns a value.
-/

namespace Infinity.Foundations

/-- The value of `r` meets `Q`, or the error of `r` meets `E`. -/
def Outcome {ε α : Type*} (r : Except ε α) (Q : α → Prop) (E : ε → Prop) : Prop :=
  match r with
  | .ok a => Q a
  | .error e => E e

namespace Outcome

variable {ε : Type*} {α β : Type} {Q Q' : α → Prop} {E E' : ε → Prop} {r : Except ε α}

section

variable (h : Outcome r Q E)
include h

theorem of_eq_ok {a : α} (hr : r = .ok a) : Q a := by
  rw [hr] at h
  exact h

theorem of_eq_error {e : ε} (hr : r = .error e) : E e := by
  rw [hr] at h
  exact h

theorem imp (hQ : ∀ a, Q a → Q' a) (hE : ∀ e, E e → E' e) : Outcome r Q' E' := by
  cases r with
  | ok a => exact hQ a h
  | error e => exact hE e h

/-- **The rule for sequencing.** -/
theorem bind {f : α → Except ε β} {R : β → Prop}
    (hf : ∀ a, Q a → Outcome (f a) R E) : Outcome (r >>= f) R E := by
  cases r with
  | ok a => exact hf a h
  | error e => exact h

end

theorem ite {p : Prop} [Decidable p] {r' : Except ε α} (h : p → Outcome r Q E)
    (h' : ¬ p → Outcome r' Q E) : Outcome (if p then r else r') Q E := by
  split
  next hp => exact h hp
  next hp => exact h' hp

end Outcome

/-- A sequence returns a value exactly if its two parts do. -/
theorem bind_eq_ok.{u} {ε : Type*} {α β : Type u} {r : Except ε α} {f : α → Except ε β} {b : β} :
    r >>= f = .ok b ↔ ∃ a, r = .ok a ∧ f a = .ok b := by
  cases r with
  | ok a =>
    constructor
    · exact fun h => ⟨a, rfl, h⟩
    · rintro ⟨_, ⟨⟩, h⟩
      exact h
  | error e =>
    constructor
    · exact nofun
    · rintro ⟨_, ⟨⟩, -⟩

end Infinity.Foundations
