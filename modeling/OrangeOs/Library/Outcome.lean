import Mathlib.Tactic.Common

/-! # Outcomes of computations that can end early

A computation meets a postcondition and keeps to a class of errors. The rules follow the computation
from one bind to the next.
-/

namespace OrangeOs

variable {ε α β : Type} {E : ε → Prop} {P Q : α → Prop} {R : β → Prop} {x y : Except ε α} {a : α} {e : ε}

/-- The result has `Q`; an early end has `E`. -/
structure Outcome (E : ε → Prop) (Q : α → Prop) (x : Except ε α) : Prop where
  result : ∀ a, x = .ok a → Q a
  early : ∀ e, x = .error e → E e

namespace Outcome

theorem ok (h : Q a) : Outcome E Q (.ok a) where
  result _ hb := Except.ok.inj hb ▸ h
  early _ he := by cases he

theorem error (h : E e) : Outcome E Q (.error e) where
  result _ ha := by cases ha
  early _ he := Except.error.inj he ▸ h

theorem bind {f : α → Except ε β} (h : Outcome E P x) (hf : ∀ a, P a → Outcome E R (f a)) :
    Outcome E R (x >>= f) := by
  cases x with
  | ok a => exact hf a (h.result a rfl)
  | error e => exact .error (h.early e rfl)

/-- A step with only errors of `E` that says no more about its result than that it is one. -/
theorem self (h : ∀ e, x = .error e → E e) : Outcome E (fun a => x = .ok a) x := ⟨fun _ h => h, h⟩

theorem mono (h : Outcome E P x) (hPQ : ∀ a, P a → Q a) : Outcome E Q x :=
  ⟨fun a ha => hPQ a (h.result a ha), h.early⟩

theorem ite {c : Prop} [Decidable c] (hx : c → Outcome E Q x) (hy : ¬ c → Outcome E Q y) :
    Outcome E Q (if c then x else y) := by
  split
  · exact hx ‹c›
  · exact hy ‹¬ c›

end Outcome

end OrangeOs
