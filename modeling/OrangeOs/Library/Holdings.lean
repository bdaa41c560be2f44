import Mathlib.Data.Set.Lattice
import Mathlib.Order.CompletePartialOrder
import OrangeOs.Library.Runs

/-! # Holdings

Parties that hold disjoint sets of cells, and cells that are free. A party that acts takes free cells
and gives cells back, and it writes nothing but what it holds and what is free. So the others keep
what they hold and what is in it, over every run in which they do not act.
-/

namespace OrangeOs

variable {ι α β : Type*}

/-- The cells of each party, and those of none of them that can be taken. -/
structure Holdings (ι α : Type*) where
  own : ι → Set α
  free : Set α
  apart : ∀ i j, i ≠ j → Disjoint (own i) (own j)
  apart_free : ∀ i, Disjoint (own i) free

namespace Holdings

variable {h h' : Holdings ι α} {v v' : α → β} {i j : ι} {is : List ι}

/-- What a party may use. -/
def reach (h : Holdings ι α) (i : ι) : Set α := h.own i ∪ h.free

theorem apart_reach (h : Holdings ι α) (hne : j ≠ i) : Disjoint (h.own j) (h.reach i) :=
  Set.disjoint_union_right.mpr ⟨h.apart j i hne, h.apart_free j⟩

/-- Party `i` acts; `v` and `v'` are what is in the cells. -/
structure Acts (i : ι) (h : Holdings ι α) (v : α → β) (h' : Holdings ι α) (v' : α → β) : Prop where
  other : ∀ j, j ≠ i → h'.own j = h.own j
  within : h'.reach i ⊆ h.reach i
  same : ∀ a, a ∉ h.reach i → v' a = v a

/-- The others do not notice. -/
theorem Acts.kept (hact : Acts i h v h' v') (hne : j ≠ i) :
    h'.own j = h.own j ∧ ∀ a ∈ h.own j, v' a = v a :=
  ⟨hact.other j hne, fun a ha => hact.same a (Set.disjoint_left.mp (h.apart_reach hne) ha)⟩

/-- Party `i` has the cells `own` now, and `free` are the free ones. -/
def exchange [DecidableEq ι] (h : Holdings ι α) (i : ι) (own free : Set α) (hdisj : Disjoint own free)
    (hwithin : own ∪ free ⊆ h.reach i) : Holdings ι α where
  own := Function.update h.own i own
  free := free
  apart j k hne := by
    have hother : ∀ j, j ≠ i → Disjoint (h.own j) own := fun j hj =>
      (h.apart_reach hj).mono_right (Set.subset_union_left.trans hwithin)
    by_cases hj : j = i
    · subst hj
      rw [Function.update_self, Function.update_of_ne hne.symm]
      exact (hother k hne.symm).symm
    · rw [Function.update_of_ne hj]
      by_cases hk : k = i
      · subst hk
        rw [Function.update_self]
        exact hother j hj
      · rw [Function.update_of_ne hk]
        exact h.apart j k hne
  apart_free j := by
    by_cases hj : j = i
    · subst hj
      rwa [Function.update_self]
    · rw [Function.update_of_ne hj]
      exact (h.apart_reach hj).mono_right (Set.subset_union_right.trans hwithin)

/-- An exchange is what an act does. -/
theorem acts_exchange [DecidableEq ι] {own free : Set α} (hdisj : Disjoint own free)
    (hwithin : own ∪ free ⊆ h.reach i) (hsame : ∀ a, a ∉ h.reach i → v' a = v a) :
    Acts i h v (h.exchange i own free hdisj hwithin) v' where
  other j hj := Function.update_of_ne hj _ _
  within := by
    rw [reach, exchange]
    simpa only [Function.update_self] using hwithin
  same := hsame

end Holdings

end OrangeOs
