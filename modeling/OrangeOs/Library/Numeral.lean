import Mathlib.Data.List.DropRight
import Mathlib.Data.Nat.Digits.Defs
import Mathlib.Data.Nat.Digits.Lemmas

/-! # Numerals

The numeral of a number over an alphabet of digits, most significant digit first. It has no leading
zeros, so that it is what remains of a padded numeral when these are taken off.
-/

namespace OrangeOs

variable {α : Type} {digit : ℕ → α} {b n k : ℕ}

/-- The canonical numeral of `n` in base `b`. -/
def numeral (digit : ℕ → α) (b n : ℕ) : List α :=
  if n = 0 then [digit 0] else ((Nat.digits b n).map digit).reverse

theorem numeral_ne_nil (digit : ℕ → α) (b n : ℕ) : numeral digit b n ≠ [] := by
  unfold numeral
  split
  · exact List.cons_ne_nil _ _
  · next hn => simp [Nat.digits_ne_nil_iff_ne_zero.mpr hn]

/-- The last step of a division by the base gives the first digits. -/
theorem digits_step (hb : 1 < b) (hn : n ≠ 0) (l : List α) :
    ((Nat.digits b n).map digit).reverse ++ l =
      ((Nat.digits b (n / b)).map digit).reverse ++ digit (n % b) :: l := by
  rw [Nat.digits_def' hb (Nat.pos_of_ne_zero hn)]
  simp

theorem length_numeral_le (hb : 1 < b) (hn : n < b ^ k) (hk : 0 < k) :
    (numeral digit b n).length ≤ k := by
  unfold numeral
  split
  · exact hk
  · rw [List.length_reverse, List.length_map]
    exact (Nat.digits_length_le_iff hb n).mpr hn

/-- Only the numeral of zero starts with a zero. -/
theorem head?_numeral_ne (hb : 1 < b) (hdigit : ∀ d, 0 < d → d < b → digit d ≠ digit 0) (hn : n ≠ 0) :
    (numeral digit b n).head? ≠ some (digit 0) := by
  have hd : Nat.digits b n ≠ [] := Nat.digits_ne_nil_iff_ne_zero.mpr hn
  rw [numeral, if_neg hn, List.head?_reverse, List.getLast?_map,
    List.getLast?_eq_some_getLast hd, Option.map_some]
  intro h
  exact hdigit _ (Nat.pos_of_ne_zero (Nat.getLast_digit_ne_zero b hn))
    (Nat.digits_lt_base hb (List.getLast_mem hd)) (Option.some.inj h)

/-- What is left of a list without the leading `z`, of which the last element is kept. -/
def trimLeading [DecidableEq α] (z : α) : List α → List α
  | [] => []
  | [c] => [c]
  | c :: d :: l => if c = z then trimLeading z (d :: l) else c :: d :: l

section Trim

variable [DecidableEq α] {z : α} {l : List α}

theorem trimLeading_cons (hl : l ≠ []) : trimLeading z (z :: l) = trimLeading z l := by
  cases l with
  | nil => exact absurd rfl hl
  | cons d l => rw [trimLeading, if_pos rfl]

theorem trimLeading_replicate (hl : l ≠ []) : ∀ k,
    trimLeading z (List.replicate k z ++ l) = trimLeading z l
  | 0 => rfl
  | k + 1 => by
    rw [List.replicate_succ, List.cons_append, trimLeading_cons (by simp [hl]),
      trimLeading_replicate hl k]

theorem trimLeading_of_head (hl : l.head? ≠ some z) : trimLeading z l = l := by
  match l with
  | [] => rfl
  | [c] => rfl
  | c :: d :: l => rw [trimLeading, if_neg fun h => hl (congrArg some h)]

/-- The numeral of a number is what the leading zeros leave. -/
theorem trimLeading_numeral (hb : 1 < b) (hdigit : ∀ d, 0 < d → d < b → digit d ≠ digit 0) (k : ℕ) :
    trimLeading (digit 0) (List.replicate k (digit 0) ++ numeral digit b n) = numeral digit b n := by
  rw [trimLeading_replicate (numeral_ne_nil digit b n)]
  by_cases hn : n = 0
  · rw [hn, numeral, if_pos rfl, trimLeading]
  · exact trimLeading_of_head (head?_numeral_ne hb hdigit hn)

theorem dropWhile_replicate (hl : l.head? ≠ some z) : ∀ k,
    (List.replicate k z ++ l).dropWhile (· = z) = l
  | 0 => by
    cases l with
    | nil => rfl
    | cons c l => exact List.dropWhile_cons_of_neg (by simpa using hl)
  | k + 1 => by
    rw [List.replicate_succ, List.cons_append, List.dropWhile_cons_of_pos (by simp),
      dropWhile_replicate hl k]

/-- A text between two paddings. -/
theorem dropWhile_rdropWhile_replicate (hl : ∀ c ∈ l, c ≠ z) (hne : l ≠ []) (a b : ℕ) :
    ((List.replicate a z ++ l ++ List.replicate b z).dropWhile (· = z)).rdropWhile (· = z) = l := by
  have hhead : (l ++ List.replicate b z).head? ≠ some z := by
    obtain ⟨c, l', rfl⟩ := List.exists_cons_of_ne_nil hne
    exact fun h => hl c List.mem_cons_self (Option.some.inj h)
  have hlast : l.reverse.head? ≠ some z := fun h => hl z (List.mem_reverse.mp (List.mem_of_head? h)) rfl
  rw [List.append_assoc, dropWhile_replicate hhead, List.rdropWhile, List.reverse_append,
    List.reverse_replicate,
    dropWhile_replicate hlast, List.reverse_reverse]

end Trim

end OrangeOs
