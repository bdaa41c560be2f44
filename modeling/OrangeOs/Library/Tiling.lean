import Mathlib.Algebra.BigOperators.Group.Finset.Basic
import Mathlib.Algebra.Order.BigOperators.Group.Finset

/-! # Tilings

A set of addresses that is cut into blocks. Blocks can be joined, split and added; the set and the sum of
the sizes follow.
-/

namespace OrangeOs

open Finset

variable {B : Finset ℕ} {sz sz' : ℕ → ℕ} {O O' : ℕ → Prop} {S : Finset ℕ} {a b k l n x y : ℕ}

/-- The blocks of `B`, with their sizes, do not overlap, are not empty and fill the set `O` of `n`
addresses. -/
structure Tiling (B : Finset ℕ) (sz : ℕ → ℕ) (O : ℕ → Prop) (n : ℕ) : Prop where
  pos : ∀ a ∈ B, 0 < sz a
  apart : ∀ a ∈ B, ∀ b ∈ B, a ≠ b → a + sz a ≤ b ∨ b + sz b ≤ a
  fill : ∀ y, O y ↔ ∃ a ∈ B, a ≤ y ∧ y < a + sz a
  total : ∑ a ∈ B, sz a = n

namespace Tiling

theorem empty (sz : ℕ → ℕ) : Tiling ∅ sz (fun _ => False) 0 :=
  ⟨by simp, by simp, by simp, by simp⟩

theorem congr (h : Tiling B sz O n) (hsz : ∀ a ∈ B, sz' a = sz a) (hO : ∀ y, O' y ↔ O y) :
    Tiling B sz' O' n where
  pos a ha := hsz a ha ▸ h.pos a ha
  apart a ha b hb hne := by
    rw [hsz a ha, hsz b hb]
    exact h.apart a ha b hb hne
  fill y := by
    rw [hO, h.fill]
    exact exists_congr fun a => and_congr_right fun ha => by rw [hsz a ha]
  total := (sum_congr rfl hsz).trans h.total

theorem mem_set (h : Tiling B sz O n) (ha : a ∈ B) (hx : a ≤ x) (hx' : x < a + sz a) : O x :=
  (h.fill x).mpr ⟨a, ha, hx, hx'⟩

/-- A block of addresses that are not in the set yet. -/
theorem add (h : Tiling B sz O n) (hk : 0 < k) (hnew : ∀ y, a ≤ y → y < a + k → ¬ O y)
    (ha : sz' a = k) (hsz : ∀ b ∈ B, sz' b = sz b)
    (hO : ∀ y, O' y ↔ O y ∨ a ≤ y ∧ y < a + k) : Tiling (insert a B) sz' O' (n + k) := by
  have haB : a ∉ B := fun hB => hnew a le_rfl (by omega) (h.mem_set hB le_rfl (by
    have := h.pos a hB
    omega))
  have hsep : ∀ b ∈ B, a + k ≤ b ∨ b + sz b ≤ a := by
    intro b hb
    by_contra hover
    have := h.pos b hb
    exact hnew (max a b) (le_max_left ..) (by omega) (h.mem_set hb (le_max_right ..) (by omega))
  refine ⟨fun b hb => ?_, fun b hb c hc hne => ?_, fun y => ?_, ?_⟩
  · rcases mem_insert.mp hb with rfl | hb
    · omega
    · rw [hsz b hb]
      exact h.pos b hb
  · rcases mem_insert.mp hb with rfl | hbB <;> rcases mem_insert.mp hc with rfl | hcB
    · exact absurd rfl hne
    · rw [ha, hsz c hcB]
      exact hsep c hcB
    · rw [ha, hsz b hbB]
      exact (hsep b hbB).symm
    · rw [hsz b hbB, hsz c hcB]
      exact h.apart b hbB c hcB hne
  · rw [hO, h.fill, exists_mem_insert, ha, or_comm]
    refine or_congr_right (exists_congr fun b => and_congr_right fun hb => ?_)
    rw [hsz b hb]
  · rw [sum_insert haB, ha, sum_congr rfl hsz, h.total, Nat.add_comm]

/-- A block takes in the one behind it. -/
theorem join (h : Tiling B sz O n) (ha : a ∈ B) (hb : b ∈ B) (hab : a + sz a = b)
    (hsa : sz' a = sz a + sz b) (hsz : ∀ c ∈ B, c ≠ a → c ≠ b → sz' c = sz c) :
    Tiling (B.erase b) sz' O n := by
  have hpa := h.pos a ha
  have hpb := h.pos b hb
  have hne : a ≠ b := by omega
  have hsep : ∀ c ∈ B, c ≠ a → c ≠ b → a + sz' a ≤ c ∨ c + sz' c ≤ a := by
    intro c hc hca hcb
    have hpc := h.pos c hc
    rcases h.apart a ha c hc hca.symm with h₁ | h₁ <;> rcases h.apart b hb c hc hcb.symm with h₂ | h₂
    all_goals
      rw [hsz c hc hca hcb, hsa]
      omega
  refine ⟨fun c hc => ?_, fun c hc d hd hcd => ?_, fun y => ?_, ?_⟩
  · obtain ⟨hcb, hc⟩ := mem_erase.mp hc
    by_cases hca : c = a
    · rw [hca]
      omega
    · rw [hsz c hc hca hcb]
      exact h.pos c hc
  · obtain ⟨hcb, hc⟩ := mem_erase.mp hc
    obtain ⟨hdb, hd⟩ := mem_erase.mp hd
    by_cases hca : c = a
    · subst hca
      exact hsep d hd (Ne.symm hcd) hdb
    · by_cases hda : d = a
      · subst hda
        exact (hsep c hc hca hcb).symm
      · rw [hsz c hc hca hcb, hsz d hd hda hdb]
        exact h.apart c hc d hd hcd
  · rw [h.fill]
    constructor
    · rintro ⟨c, hc, hy, hy'⟩
      by_cases hca : c = a
      · exact ⟨a, mem_erase.mpr ⟨hne, ha⟩, by omega, by rw [hsa]; rw [hca] at hy'; omega⟩
      · by_cases hcb : c = b
        · exact ⟨a, mem_erase.mpr ⟨hne, ha⟩, by omega, by rw [hsa]; rw [hcb] at hy'; omega⟩
        · exact ⟨c, mem_erase.mpr ⟨hcb, hc⟩, hy, by rw [hsz c hc hca hcb]; exact hy'⟩
    · rintro ⟨c, hc, hy, hy'⟩
      obtain ⟨hcb, hc⟩ := mem_erase.mp hc
      by_cases hca : c = a
      · rw [hca, hsa] at hy'
        by_cases hlt : y < b
        · exact ⟨a, ha, hca ▸ hy, by omega⟩
        · exact ⟨b, hb, by omega, by omega⟩
      · exact ⟨c, hc, hy, by rw [hsz c hc hca hcb] at hy'; exact hy'⟩
  · have hrest : ∑ c ∈ (B.erase b).erase a, sz' c = ∑ c ∈ (B.erase b).erase a, sz c := by
      refine sum_congr rfl fun c hc => ?_
      obtain ⟨hca, hc⟩ := mem_erase.mp hc
      obtain ⟨hcb, hc⟩ := mem_erase.mp hc
      exact hsz c hc hca hcb
    have hall := h.total
    rw [← add_sum_erase B sz hb, ← add_sum_erase _ sz (mem_erase.mpr ⟨hne, ha⟩)] at hall
    rw [← add_sum_erase _ sz' (mem_erase.mpr ⟨hne, ha⟩), hsa, hrest]
    omega

/-- The end of a block becomes a block. -/
theorem split (h : Tiling B sz O n) (ha : a ∈ B) (hsum : sz a = k + l) (hk : 0 < k) (hl : 0 < l)
    (hsa : sz' a = k) (hsl : sz' (a + k) = l) (hsz : ∀ c ∈ B, c ≠ a → sz' c = sz c) :
    a + k ∉ B ∧ Tiling (insert (a + k) B) sz' O n := by
  have hout : a + k ∉ B := by
    intro hB
    have := h.pos _ hB
    have := h.apart a ha _ hB (by omega)
    omega
  refine ⟨hout, fun c hc => ?_, fun c hc d hd hcd => ?_, fun y => ?_, ?_⟩
  · rcases mem_insert.mp hc with rfl | hc
    · omega
    · by_cases hca : c = a
      · rw [hca]
        omega
      · rw [hsz c hc hca]
        exact h.pos c hc
  · have hfar : ∀ c ∈ B, c ≠ a → (a + k + l ≤ c ∨ c + sz' c ≤ a) := by
      intro c hc hca
      rw [hsz c hc hca]
      have := h.apart a ha c hc hca.symm
      omega
    rcases mem_insert.mp hc with rfl | hcB <;> rcases mem_insert.mp hd with rfl | hdB
    · exact absurd rfl hcd
    · by_cases hda : d = a
      · subst hda
        omega
      · have := hfar d hdB hda
        omega
    · by_cases hca : c = a
      · subst hca
        omega
      · have := hfar c hcB hca
        omega
    · by_cases hca : c = a
      · subst hca
        have := hfar d hdB (Ne.symm hcd)
        omega
      · by_cases hda : d = a
        · subst hda
          have := hfar c hcB hcd
          omega
        · rw [hsz c hcB hca, hsz d hdB hda]
          exact h.apart c hcB d hdB hcd
  · rw [h.fill]
    constructor
    · rintro ⟨c, hc, hy, hy'⟩
      by_cases hca : c = a
      · rw [hca, hsum] at hy'
        by_cases hlt : y < a + k
        · exact ⟨a, mem_insert_of_mem ha, hca ▸ hy, by omega⟩
        · exact ⟨a + k, mem_insert_self .., by omega, by omega⟩
      · exact ⟨c, mem_insert_of_mem hc, hy, by rw [hsz c hc hca]; exact hy'⟩
    · rintro ⟨c, hc, hy, hy'⟩
      rcases mem_insert.mp hc with rfl | hcB
      · exact ⟨a, ha, by omega, by omega⟩
      · by_cases hca : c = a
        · subst hca
          exact ⟨c, hcB, hy, by omega⟩
        · exact ⟨c, hcB, hy, by rw [hsz c hcB hca] at hy'; exact hy'⟩
  · rw [sum_insert hout, hsl]
    have hrest : ∑ c ∈ B.erase a, sz' c = ∑ c ∈ B.erase a, sz c :=
      sum_congr rfl fun c hc => hsz c (mem_of_mem_erase hc) (ne_of_mem_erase hc)
    have hall := h.total
    rw [← add_sum_erase B sz ha] at hall
    rw [← add_sum_erase B sz' ha, hsa, hrest]
    omega

/-- Some of the blocks are no larger than all of them. -/
theorem le_total (h : Tiling B sz O n) (hS : S ⊆ B) : ∑ c ∈ S, sz c ≤ n := by
  rw [← h.total]
  exact sum_le_sum_of_subset hS

end Tiling

end OrangeOs
