import Mathlib.Data.List.Basic
import Mathlib.Tactic.Common

/-! # Layers

A layer writes a value at some indices and leaves the others. Where layers lie over one another the
last one that writes is seen; a layer that writes a blank around what it is for hides what lies
below.
-/

namespace OrangeOs

/-- What a layer is for, and what it writes. -/
structure Layer (ι β : Type*) where
  own : ι → Option β
  write : ι → Option β
  own_write : ∀ x y, own x = some y → write x = some y

namespace Layer

variable {ι β : Type*} {l l' : Layer ι β} {ls : List (Layer ι β)} {f : ι → β} {x : ι} {y blank : β}

/-- The layer over a picture. -/
def onto (l : Layer ι β) (f : ι → β) (x : ι) : β := (l.write x).getD (f x)

/-- Layers over a picture, the lowest one first. -/
def overlay (ls : List (Layer ι β)) (f : ι → β) : ι → β := ls.foldl (fun f l => l.onto f) f

@[simp] theorem overlay_nil (f : ι → β) : overlay [] f = f := rfl

@[simp] theorem overlay_cons (l : Layer ι β) (ls : List (Layer ι β)) (f : ι → β) :
    overlay (l :: ls) f = overlay ls (l.onto f) := rfl

/-- What is seen at an index depends on the picture there. -/
theorem overlay_congr {g : ι → β} (h : f x = g x) : overlay ls f x = overlay ls g x := by
  induction ls generalizing f g with
  | nil => exact h
  | cons l ls ih => exact ih (by simp only [onto, h])

theorem onto_of_own (h : l.own x = some y) : l.onto f x = y := by
  rw [onto, l.own_write x y h, Option.getD_some]

/-- Layers that write nothing but the blank at an index. -/
theorem overlay_blank (h : ∀ l ∈ ls, l.write x = none ∨ l.write x = some blank) :
    overlay ls f x = f x ∧ (∀ l ∈ ls, l.write x = none) ∨
      overlay ls f x = blank ∧ ∃ l ∈ ls, l.write x = some blank := by
  induction ls generalizing f with
  | nil => exact .inl ⟨rfl, by simp⟩
  | cons l ls ih =>
    obtain ⟨hl, hls⟩ := List.forall_mem_cons.mp h
    rw [overlay_cons]
    rcases ih hls (f := l.onto f) with ⟨hsee, hnone⟩ | ⟨hsee, l', hl', hw⟩
    · rcases hl with hl | hl
      · refine .inl ⟨by rw [hsee, onto, hl, Option.getD_none], ?_⟩
        exact List.forall_mem_cons.mpr ⟨hl, hnone⟩
      · refine .inr ⟨by rw [hsee, onto, hl, Option.getD_some], l, by simp, hl⟩
    · exact .inr ⟨hsee, l', List.mem_cons_of_mem l hl', hw⟩

/-- The upper layer writes at most blanks where the lower one has something of its own. -/
def Spares (blank : β) (l l' : Layer ι β) : Prop :=
  ∀ x y, l.own x = some y → l'.write x = none ∨ l'.write x = some blank

/-- Where the upper layer writes a blank, the lower one has one. -/
def Agrees (blank : β) (l l' : Layer ι β) : Prop :=
  ∀ x y, l.own x = some y → l'.write x = some blank → y = blank

/-- Every layer is seen just when no layer hides one below it. -/
theorem overlay_shows_iff (h : ls.Pairwise (Spares blank)) :
    (∀ l ∈ ls, ∀ x y, l.own x = some y → overlay ls f x = y) ↔ ls.Pairwise (Agrees blank) := by
  induction ls generalizing f with
  | nil => simp
  | cons l ls ih =>
    obtain ⟨hl, hls⟩ := List.pairwise_cons.mp h
    rw [List.pairwise_cons, List.forall_mem_cons, overlay_cons, ih hls]
    refine and_congr_left fun _ => ⟨fun hsee l' hl' x y hxy hw => ?_, fun hagree x y hxy => ?_⟩
    · rw [← hsee x y hxy]
      rcases overlay_blank (f := l.onto f) fun l' hl' => hl l' hl' x y hxy with ⟨-, hnone⟩ | ⟨hblank, -⟩
      · rw [hnone l' hl'] at hw
        cases hw
      · exact hblank
    · rcases overlay_blank (f := l.onto f) fun l' hl' =>
        hl l' hl' x y hxy with ⟨hsame, -⟩ | ⟨hblank, l', hl', hw⟩
      · rw [hsame, onto_of_own hxy]
      · rw [hblank, hagree l' hl' x y hxy hw]

end Layer

end OrangeOs
