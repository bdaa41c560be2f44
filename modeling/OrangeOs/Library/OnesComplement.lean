import Mathlib.Algebra.BigOperators.Group.List.Basic
import Mathlib.Algebra.GroupWithZero.Nat
import Mathlib.Tactic.Common

/-! # One's-complement sums

Addition of numbers up to `M` with end-around carry. A sum of a list is its ordinary sum modulo `M`,
with `M` in place of 0 unless all numbers are 0.
-/

namespace OrangeOs

variable {M a b x y : ℕ} {l : List ℕ}

/-- Addition with end-around carry. -/
def addCarry (M a b : ℕ) : ℕ := if a + b ≤ M then a + b else a + b - M

/-- The sum with end-around carry. -/
def onesSum (M : ℕ) (l : List ℕ) : ℕ := l.foldl (addCarry M) 0

/-- A number in the range from 1 to `M`, or 0. -/
def reduceOnes (M t : ℕ) : ℕ := if t = 0 then 0 else (t - 1) % M + 1

theorem reduceOnes_le (hM : 0 < M) (t : ℕ) : reduceOnes M t ≤ M := by
  unfold reduceOnes
  split
  · exact Nat.zero_le M
  · exact Nat.mod_lt _ hM

theorem reduceOnes_add (hM : 0 < M) (hb : b ≤ M) (t : ℕ) :
    addCarry M (reduceOnes M t) b = reduceOnes M (t + b) := by
  unfold addCarry reduceOnes
  by_cases ht : t = 0
  · rw [if_pos ht, ht, Nat.zero_add, if_pos hb]
    split
    · assumption
    · rw [Nat.mod_eq_of_lt (by omega)]
      omega
  · have hlt := Nat.mod_lt (t - 1) hM
    have hdiv := Nat.mod_add_div (t - 1) M
    generalize (t - 1) % M = r at hlt hdiv ⊢
    have hsplit : t + b - 1 = r + b + M * ((t - 1) / M) := by
      omega
    rw [if_neg ht, if_neg (by omega : ¬ t + b = 0), hsplit, Nat.add_mul_mod_self_left]
    by_cases hle : r + 1 + b ≤ M
    · rw [if_pos hle, Nat.mod_eq_of_lt (by omega : r + b < M)]
      omega
    · rw [if_neg hle, Nat.mod_eq_sub_mod (by omega), Nat.mod_eq_of_lt (by omega : r + b - M < M)]
      omega

theorem foldl_addCarry (hM : 0 < M) (t : ℕ) (hl : ∀ x ∈ l, x ≤ M) :
    l.foldl (addCarry M) (reduceOnes M t) = reduceOnes M (t + l.sum) := by
  induction l generalizing t with
  | nil => rfl
  | cons x l ih =>
    rw [List.foldl_cons, reduceOnes_add hM (hl x List.mem_cons_self),
      ih (t + x) fun y hy => hl y (List.mem_cons_of_mem x hy), List.sum_cons, Nat.add_assoc]

theorem onesSum_eq (hM : 0 < M) (hl : ∀ x ∈ l, x ≤ M) : onesSum M l = reduceOnes M l.sum := by
  have h := foldl_addCarry hM 0 hl
  rw [Nat.zero_add] at h
  exact h

/-- What is missing from a sum completes it. -/
theorem reduceOnes_complement (hM : 0 < M) (t : ℕ) : reduceOnes M (t + (M - reduceOnes M t)) = M := by
  have hle := reduceOnes_le hM t
  rw [← reduceOnes_add hM (Nat.sub_le ..), addCarry, if_pos (by omega)]
  omega

end OrangeOs
