import Mathlib.Data.Nat.Notation
import Mathlib.Tactic.Common

/-! # Cursors

A cursor into a list is moved to a position and read from there on. A position may be past the end, where
nothing is left to read.
-/

namespace OrangeOs.Cursor

/-- The calls on a cursor. -/
inductive Op where
  | seek (pos : ℕ)
  | read (n : ℕ)
  deriving DecidableEq, Repr

variable {α : Type*}

/-- What the reads of a sequence of calls return. -/
def outputs (s : List α) (pos : ℕ) : List Op → List (List α)
  | [] => []
  | .seek p :: ops => outputs s p ops
  | .read n :: ops => (s.drop pos).take n :: outputs s (pos + min n (s.length - pos)) ops

/-- After a move to the end or past it, which `outside` records, nothing is read up to the next move. -/
def Within (size : ℕ) (outside : Bool) : List Op → Prop
  | [] => True
  | .seek p :: ops => Within size (decide (size ≤ p)) ops
  | .read n :: ops => (outside = true → n = 0) ∧ Within size outside ops

/-- The positions that a cursor has before calls of which `outside` is recorded. -/
def At (size : ℕ) (outside : Bool) (pos : ℕ) : Prop := if outside then size ≤ pos else pos ≤ size

theorem at_seek (size p : ℕ) : At size (decide (size ≤ p)) p := by
  by_cases h : size ≤ p
  · simp [At, h]
  · simp only [At, h, decide_false, Bool.false_eq_true, if_false]
    omega

theorem At.read {size pos : ℕ} {outside : Bool} (h : At size outside pos) (n : ℕ) :
    At size outside (pos + min n (size - pos)) := by
  cases outside <;> simp only [At, if_true, Bool.false_eq_true, if_false] at h ⊢ <;> omega

/-- What is left of `m` after `n`, as machine integers compute it. -/
theorem wrap_sub {m n w : ℕ} (hle : n ≤ m) (hlt : m < w) : (m + w - n) % w = m - n := by
  have hadd : m + w - n = m - n + w := by omega
  rw [hadd, Nat.add_mod_right, Nat.mod_eq_of_lt (by omega)]

end OrangeOs.Cursor
