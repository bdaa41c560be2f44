import Mathlib

/-! # Sweeps of a cycle

A cursor goes round the elements of `Fin n`, from each one to the next. Until it comes to a given element
it meets each of the others once at most.
-/

namespace OrangeOs

variable {n : ℕ} {c i p q : Fin n} {v : List (Fin n)}

/-- How far `q` lies ahead of `i`. -/
def ahead (i q : Fin n) : ℕ := if i.val ≤ q.val then q.val - i.val else q.val + n - i.val

theorem ahead_self (i : Fin n) : ahead i i = 0 := by
  rw [ahead, if_pos le_rfl, Nat.sub_self]

theorem ahead_lt (i q : Fin n) : ahead i q < n := by
  have := q.isLt
  unfold ahead
  split <;> omega

theorem ahead_inj (h : ahead i p = ahead i q) : p = q := by
  have := p.isLt
  have := q.isLt
  apply Fin.ext
  unfold ahead at h
  split at h <;> split at h <;> omega

theorem ahead_succ [NeZero n] (h : ahead i c + 1 < n) : ahead i (c + 1) = ahead i c + 1 := by
  have hlt := c.isLt
  have hone : (1 : Fin n).val = 1 := by
    rw [Fin.val_one', Nat.mod_eq_of_lt (by omega)]
  unfold ahead at h ⊢
  rw [Fin.val_add, hone]
  by_cases hwrap : c.val + 1 = n
  · rw [hwrap, Nat.mod_self]
    split at h <;> split <;> omega
  · rw [Nat.mod_eq_of_lt (by omega)]
    split at h <;> split <;> omega

/-- A cursor that started at `i` has been at the elements of `v` and is at `c`. -/
structure Swept (i : Fin n) (v : List (Fin n)) (c : Fin n) : Prop where
  order : v.map (ahead i) = List.range v.length
  cursor : ahead i c = v.length

namespace Swept

theorem nil (i : Fin n) : Swept i [] i := ⟨rfl, ahead_self i⟩

theorem nodup (h : Swept i v c) : v.Nodup := by
  apply List.Nodup.of_map (ahead i)
  rw [h.order]
  exact List.nodup_range

/-- What the cursor has not met lies at the cursor or ahead of it. -/
theorem length_le (h : Swept i v c) (hq : q ∉ v) : v.length ≤ ahead i q := by
  by_contra hlt
  have hmem : ahead i q ∈ v.map (ahead i) := by
    rw [h.order]
    exact List.mem_range.mpr (by omega)
  obtain ⟨p, hp, he⟩ := List.mem_map.mp hmem
  exact hq (ahead_inj he ▸ hp)

/-- The cursor goes on. -/
theorem next [NeZero n] (h : Swept i v c) (hq : q ∉ v) (hc : c ≠ q) : Swept i (v ++ [c]) (c + 1) := by
  have hle := h.length_le hq
  have hne : ahead i q ≠ v.length := fun he => hc (ahead_inj (h.cursor.trans he.symm))
  have hlt := ahead_lt i q
  constructor
  · rw [List.map_append, h.order, List.map_singleton, h.cursor, List.length_append,
      List.length_singleton, List.range_succ]
  · rw [ahead_succ (by rw [h.cursor]; omega), h.cursor, List.length_append, List.length_singleton]

end Swept

end OrangeOs
