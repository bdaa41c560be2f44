import Mathlib.Data.List.Infix
import Mathlib.Order.Basic
import OrangeOs.Library.Runs

/-! # Trees of names

A tree of names says which node a path leads to. Every node has one path, and no path leads through a
node that is not there. A tree grows when names are added on the way to a path; whatever has grown that
way has all the names that it had, for the same nodes.
-/

namespace OrangeOs

variable {α β ι : Type*}

/-- The nodes that paths over `α` lead to. -/
@[ext]
structure NameTree (α β : Type*) where
  find : List α → Option β
  parent : ∀ q a, find q = none → find (q ++ [a]) = none
  inj : ∀ q q' b, find q = some b → find q' = some b → q = q'

namespace NameTree

variable {T T' T'' : NameTree α β} {p q q' : List α} {b : β}

/-- A tree with more names. -/
instance : PartialOrder (NameTree α β) where
  le T T' := ∀ q b, T.find q = some b → T'.find q = some b
  le_refl _ _ _ := id
  le_trans _ _ _ h h' q b hb := h' q b (h q b hb)
  le_antisymm T T' h h' := by
    ext q b
    exact ⟨h q b, h' q b⟩

/-- Names were added, all on the way to `p`. -/
structure Grows (T : NameTree α β) (p : List α) (T' : NameTree α β) : Prop where
  le : T ≤ T'
  on_path : ∀ q, T.find q = none → T'.find q ≠ none → q <+: p

/-- Event `i` adds names on the way to its target, if it has one, and else it adds none. -/
def Adds (target : ι → Option (List α)) (T : NameTree α β) (i : ι) (T' : NameTree α β) : Prop :=
  match target i with
  | none => T' = T
  | some p => T.Grows p T'

variable {target : ι → Option (List α)} {i : ι} {is : List ι}

theorem Adds.of_eq (h : T' = T) : Adds target T i T' := by
  unfold Adds
  split
  · exact h
  · exact ⟨h ▸ le_rfl, fun q hn hs => absurd (h ▸ hn) hs⟩

theorem Adds.of_grows (hp : target i = some p) (h : T.Grows p T') : Adds target T i T' := by
  rw [Adds, hp]
  exact h

theorem Adds.le (h : Adds target T i T') : T ≤ T' := by
  unfold Adds at h
  split at h
  · exact h ▸ le_rfl
  · exact h.le

theorem Adds.on_path (h : Adds target T i T') (hn : T.find q = none) (hs : T'.find q ≠ none) :
    ∃ p, target i = some p ∧ q <+: p := by
  unfold Adds at h
  split at h
  · exact absurd (h ▸ hn) hs
  · next p hp => exact ⟨p, hp, h.on_path q hn hs⟩

end NameTree

end OrangeOs
