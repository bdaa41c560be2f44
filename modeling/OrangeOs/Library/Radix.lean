import Mathlib.Data.List.Induction
import Mathlib.Tactic.Common

/-! # Radix trees

A table at `a` has at most one child for each index, `child a i`. The tree of depth `n` below a root is
a partial function on the paths of indices. It is determined by the children of its own tables;
entries are attached and detached one at a time.
-/

namespace OrangeOs

variable {α ι : Type*} {child child' : α → ι → Option α} {n : ℕ} {root a b : α}
  {T T' : List ι → Option α} {p q : List ι} {i j : ι}

/-- `T` is the tree of depth `n` below `root`. -/
structure IsTree (child : α → ι → Option α) (n : ℕ) (root : α) (T : List ι → Option α) : Prop where
  root : T [] = some root
  child : ∀ p a i, p.length < n → T p = some a → T (p ++ [i]) = child a i
  parent : ∀ p i, T p = none → T (p ++ [i]) = none
  depth : ∀ p, n < p.length → T p = none

/-- The tree of depth `n` below a root. -/
def tree (child : α → ι → Option α) (n : ℕ) (root : α) (p : List ι) : Option α :=
  if p.length ≤ n then p.foldlM child root else none

theorem foldlM_concat (p : List ι) (a : α) (i : ι) :
    (p ++ [i]).foldlM child a = (p.foldlM child a).bind fun b => child b i := by
  rw [List.foldlM_append]
  simp only [List.foldlM_cons, List.foldlM_nil]
  cases p.foldlM child a with
  | none => rfl
  | some b => exact bind_pure (m := Option) (child b i)

theorem isTree_tree (child : α → ι → Option α) (n : ℕ) (root : α) :
    IsTree child n root (tree child n root) where
  root := by simp [tree]
  child p a i hlt hp := by
    rw [tree, if_pos (Nat.le_of_lt hlt)] at hp
    have hle : (p ++ [i]).length ≤ n := by simpa using Nat.succ_le_of_lt hlt
    rw [tree, if_pos hle, foldlM_concat, hp]
    rfl
  parent p i hp := by
    unfold tree at hp ⊢
    split at hp
    · split
      · rw [foldlM_concat, hp]
        rfl
      · rfl
    · next hlt =>
      rw [if_neg]
      simp only [List.length_append, List.length_singleton]
      omega
  depth p hlt := if_neg (by omega)

/-- The tree without the nodes at `p` and below it. -/
def prune [DecidableEq ι] (T : List ι → Option α) (p q : List ι) : Option α :=
  if p <+: q then none else T q

theorem prune_eq_some [DecidableEq ι] : prune T p q = some a ↔ ¬ p <+: q ∧ T q = some a := by
  unfold prune
  split
  · next hpre => exact ⟨nofun, fun h => absurd hpre h.1⟩
  · next hpre => exact ⟨fun h => ⟨hpre, h⟩, fun h => h.2⟩

namespace IsTree

theorem eq_tree (h : IsTree child n root T) : T = tree child n root := by
  funext p
  have ht := isTree_tree child n root
  induction p using List.reverseRecOn with
  | nil => rw [h.root, ht.root]
  | append_singleton p i ih =>
    cases hp : T p with
    | none => rw [h.parent p i hp, ht.parent p i (ih ▸ hp)]
    | some a =>
      rcases Nat.lt_or_ge p.length n with hlt | hge
      · rw [h.child p a i hlt hp, ht.child p a i hlt (ih ▸ hp)]
      · have hlen : n < (p ++ [i]).length := by
          simp only [List.length_append, List.length_singleton]
          omega
        rw [h.depth _ hlen, ht.depth _ hlen]

theorem length_le (h : IsTree child n root T) (hp : T p = some a) : p.length ≤ n := by
  by_contra hlt
  rw [h.depth p (by omega)] at hp
  simp at hp

/-- A node of the tree has its prefixes in the tree. -/
theorem isSome_of_append (h : IsTree child n root T) (hp : (T (p ++ q)).isSome) : (T p).isSome := by
  induction q using List.reverseRecOn with
  | nil => simpa using hp
  | append_singleton q i ih =>
    refine ih ?_
    by_contra hn
    rw [Bool.not_eq_true, Option.isSome_eq_false_iff, Option.isNone_iff_eq_none] at hn
    rw [← List.append_assoc, h.parent _ i hn] at hp
    exact Bool.noConfusion hp

/-- Only the children of the tables of the tree matter. -/
theorem congr (h : IsTree child n root T)
    (hc : ∀ p a i, p.length < n → T p = some a → child' a i = child a i) : IsTree child' n root T where
  root := h.root
  child p a i hlt hp := by rw [h.child p a i hlt hp, hc p a i hlt hp]
  parent := h.parent
  depth := h.depth

/-- The upper levels of a tree. -/
theorem truncate {k : ℕ} (h : IsTree child n root T) (hk : k ≤ n) :
    IsTree child k root fun p => if p.length ≤ k then T p else none where
  root := by simp [h.root]
  child p a i hlt hp := by
    rw [if_pos (Nat.le_of_lt hlt)] at hp
    rw [if_pos (by simpa using Nat.succ_le_of_lt hlt), h.child p a i (Nat.lt_of_lt_of_le hlt hk) hp]
  parent p i hp := by
    simp only [List.length_append, List.length_singleton]
    split
    · next hlen =>
      rw [if_pos (Nat.le_of_succ_le hlen)] at hp
      exact h.parent p i hp
    · rfl
  depth p hlt := if_neg (Nat.not_le.mpr hlt)

variable [DecidableEq ι]

/-- An entry is cleared, and what was below it is no longer in the tree. -/
theorem detach (h : IsTree child n root T)
    (hc : ∀ q a j, q.length < n → T q = some a → ¬ p ++ [i] <+: q →
      child' a j = if q = p ∧ j = i then none else child a j) :
    IsTree child' n root (prune T (p ++ [i])) where
  root := by
    rw [prune, if_neg (by simp)]
    exact h.root
  child q a j hlt hq := by
    obtain ⟨hn, hq⟩ := prune_eq_some.mp hq
    rw [hc q a j hlt hq hn]
    split
    · next hji =>
      rw [hji.1, hji.2, prune, if_pos (List.prefix_refl _)]
    · next hji =>
      rw [prune, if_neg, h.child q a j hlt hq]
      intro hpre
      rcases List.prefix_concat_iff.mp hpre with he | hpre
      · exact hji (List.append_singleton_inj.mp he.symm)
      · exact hn hpre
  parent q j hq := by
    rw [prune] at hq ⊢
    split
    · rfl
    · next hn =>
      rw [if_neg fun hpre => hn (hpre.trans (List.prefix_append q [j]))] at hq
      exact h.parent q j hq
  depth q hlt := by
    rw [prune, h.depth q hlt, ite_self]

/-- Where nothing is below the entry, only its own node goes. -/
theorem prune_leaf (h : IsTree child n root T) (hleaf : ∀ j, T (p ++ [j]) = none) :
    prune T p = Function.update T p none := by
  funext q
  by_cases hpre : p <+: q
  · rw [prune, if_pos hpre]
    obtain ⟨r, rfl⟩ := hpre
    cases r with
    | nil => rw [List.append_nil, Function.update_self]
    | cons j r =>
      rw [Function.update_of_ne (by simp)]
      by_contra hne
      have hsome := h.isSome_of_append (p := p ++ [j]) (q := r) (by
        rw [List.append_assoc, List.singleton_append]
        exact Option.isSome_iff_ne_none.mpr (Ne.symm hne))
      rw [hleaf j] at hsome
      exact Bool.noConfusion hsome
  · rw [prune, if_neg hpre, Function.update_of_ne]
    rintro rfl
    exact hpre (List.prefix_refl _)

/-- A new entry, with nothing below it. -/
theorem attach (h : IsTree child n root T) (hp : T p = some a) (hlen : p.length < n)
    (hnew : T (p ++ [i]) = none)
    (hc : ∀ q c j, q.length < n → T q = some c →
      child' c j = if q = p ∧ j = i then some b else child c j)
    (hempty : p.length + 1 < n → ∀ j, child' b j = none) :
    IsTree child' n root (Function.update T (p ++ [i]) (some b)) where
  root := by
    rw [Function.update_of_ne (by simp)]
    exact h.root
  child q c j hlt hq := by
    by_cases hne : q = p ++ [i]
    · subst hne
      rw [Function.update_self] at hq
      obtain rfl := Option.some.inj hq
      rw [Function.update_of_ne (by simp), h.parent _ j hnew, hempty (by simpa using hlt)]
    · rw [Function.update_of_ne hne] at hq
      rw [hc q c j hlt hq]
      split
      · next hji => rw [hji.1, hji.2, Function.update_self]
      · next hji =>
        rw [Function.update_of_ne fun he => hji (List.append_singleton_inj.mp he), h.child q c j hlt hq]
  parent q j hq := by
    have hne : q ≠ p ++ [i] := by
      rintro rfl
      rw [Function.update_self] at hq
      simp at hq
    rw [Function.update_of_ne hne] at hq
    have hqp : q ≠ p := by
      rintro rfl
      rw [hp] at hq
      simp at hq
    rw [Function.update_of_ne fun he => hqp (List.append_singleton_inj.mp he).1]
    exact h.parent q j hq
  depth q hlt := by
    have hne : q ≠ p ++ [i] := by
      rintro rfl
      simp only [List.length_append, List.length_singleton] at hlt
      omega
    rw [Function.update_of_ne hne]
    exact h.depth q hlt

end IsTree

end OrangeOs
