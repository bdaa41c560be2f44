import Mathlib.Data.List.Nodup
import Mathlib.Data.List.Perm.Basic
import Mathlib.Data.Finset.Card
import Mathlib.Data.Fintype.Basic
import Mathlib.Tactic.Common

/-! # Rings

A ring of `n` slots between two counters that only go up. The counters are natural numbers; a program
keeps them modulo a multiple of `n`, which names the same slots.
-/

namespace OrangeOs

variable {α : Type*} {n lo hi k : ℕ} {ring ring' : ℕ → α} {x : α}

/-- The entries from `lo` up to `hi`. -/
def ringWindow (n : ℕ) (ring : ℕ → α) (lo hi : ℕ) : List α :=
  (List.range' lo (hi - lo)).map fun k => ring (k % n)

@[simp] theorem length_ringWindow : (ringWindow n ring lo hi).length = hi - lo := by
  simp [ringWindow]

@[simp] theorem ringWindow_self : ringWindow n ring lo lo = [] := by
  simp [ringWindow]

theorem mem_ringWindow : x ∈ ringWindow n ring lo hi ↔ ∃ k, lo ≤ k ∧ k < hi ∧ ring (k % n) = x := by
  simp only [ringWindow, List.mem_map, List.mem_range'_1]
  constructor
  · rintro ⟨k, ⟨h₁, h₂⟩, rfl⟩
    exact ⟨k, h₁, by omega, rfl⟩
  · rintro ⟨k, h₁, h₂, rfl⟩
    exact ⟨k, ⟨h₁, by omega⟩, rfl⟩

/-- An entry after the last one. -/
theorem ringWindow_push (h : lo ≤ hi) :
    ringWindow n ring lo (hi + 1) = ringWindow n ring lo hi ++ [ring (hi % n)] := by
  rw [ringWindow, show hi + 1 - lo = (hi - lo) + 1 by omega, List.range'_1_concat, List.map_append,
    show lo + (hi - lo) = hi by omega]
  rfl

/-- The first entry. -/
theorem ringWindow_pop (h : lo < hi) :
    ringWindow n ring lo hi = ring (lo % n) :: ringWindow n ring (lo + 1) hi := by
  rw [ringWindow, show hi - lo = (hi - (lo + 1)) + 1 by omega, List.range'_succ, List.map_cons]
  rfl

theorem ringWindow_congr (h : ∀ k, lo ≤ k → k < hi → ring (k % n) = ring' (k % n)) :
    ringWindow n ring lo hi = ringWindow n ring' lo hi := by
  refine List.map_congr_left fun k hk => ?_
  rw [List.mem_range'_1] at hk
  exact h k hk.1 (by omega)

/-- The entries without the last one. -/
theorem ringWindow_dropLast (h : lo < hi) :
    (ringWindow n ring lo hi).dropLast = ringWindow n ring lo (hi - 1) := by
  obtain ⟨k, rfl⟩ : ∃ k, hi = k + 1 := ⟨hi - 1, by omega⟩
  rw [ringWindow_push (by omega), List.dropLast_concat, Nat.add_sub_cancel]

/-- A counter modulo `n` names the same slots. -/
theorem ringWindow_mod : ringWindow n ring (lo % n) (lo % n + k) = ringWindow n ring lo (lo + k) := by
  induction k with
  | zero => simp
  | succ k ih =>
    rw [← Nat.add_assoc, ← Nat.add_assoc, ringWindow_push (Nat.le_add_right _ _),
      ringWindow_push (Nat.le_add_right _ _), ih, Nat.mod_add_mod]

/-- Two entries that are less than `n` apart have different slots. -/
theorem ring_slot_ne {i j : ℕ} (hij : i < j) (hj : j < i + n) : i % n ≠ j % n := by
  intro h
  have hmod : (j - i) % n = 0 := Nat.sub_mod_eq_zero_of_mod_eq h.symm
  rw [Nat.mod_eq_of_lt (by omega)] at hmod
  omega

/-- The slot after the last entry is not in the window unless the ring is full. -/
theorem ringWindow_update (h : hi < lo + n) :
    ringWindow n (Function.update ring (hi % n) x) lo hi = ringWindow n ring lo hi := by
  refine ringWindow_congr fun k hk hk' => ?_
  rw [Function.update_of_ne (ring_slot_ne hk' (by omega))]

/-- A new entry, with its slot written. -/
theorem ringWindow_update_push (h : lo ≤ hi) (hroom : hi < lo + n) :
    ringWindow n (Function.update ring (hi % n) x) lo (hi + 1) =
      ringWindow n ring lo hi ++ [x] := by
  rw [ringWindow_push h, ringWindow_update hroom, Function.update_self]

/-- A list without repetition of numbers less than `n` has at most `n` members. -/
theorem length_le_of_nodup_lt {l : List ℕ} (h : l.Nodup) (hlt : ∀ a ∈ l, a < n) :
    l.length ≤ n := by
  rw [← List.toFinset_card_of_nodup h, ← Finset.card_range n]
  exact Finset.card_le_card fun a ha => Finset.mem_range.mpr (hlt a (List.mem_toFinset.mp ha))

/-- With `n` members it has them all. -/
theorem mem_of_nodup_lt {l : List ℕ} (h : l.Nodup) (hlt : ∀ a ∈ l, a < n) (hlen : n ≤ l.length)
    {a : ℕ} (ha : a < n) : a ∈ l := by
  have hsub : l.toFinset ⊆ Finset.range n :=
    fun b hb => Finset.mem_range.mpr (hlt b (List.mem_toFinset.mp hb))
  have heq := Finset.eq_of_subset_of_card_le hsub
    (by rwa [Finset.card_range, List.toFinset_card_of_nodup h])
  exact List.mem_toFinset.mp (heq ▸ Finset.mem_range.mpr ha)

end OrangeOs
