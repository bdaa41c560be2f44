import Mathlib.Data.List.Basic
import Mathlib.Order.Lattice
import Mathlib.Order.Nat
import Mathlib.Tactic.Common

/-! # Heaps of blocks

A heap whose blocks are lists of cells. A pointer is null or names a block; an access outside a block
or to a block that has been freed has no result.
-/

namespace OrangeOs

/-- The blocks that are allocated; the next one gets the name `next`. -/
structure Blocks (α : Type*) where
  block : ℕ → Option (List α)
  next : ℕ

namespace Blocks

variable {α : Type*} {h h' h'' : Blocks α} {p p' p'' q : Option ℕ} {a b n i : ℕ} {x : α}
  {xs ys zs : List α}

def empty : Blocks α := ⟨fun _ => none, 0⟩

def set (h : Blocks α) (b : ℕ) (cells : Option (List α)) : Blocks α :=
  { h with block := Function.update h.block b cells }

def new (h : Blocks α) (cells : List α) : Blocks α :=
  { h.set h.next (some cells) with next := h.next + 1 }

/-- Nothing happens at the null pointer. -/
def delete (h : Blocks α) : Option ℕ → Option (Blocks α)
  | none => some h
  | some b => (h.block b).map fun _ => h.set b none

def load (h : Blocks α) (p : Option ℕ) (i : ℕ) : Option α :=
  p.bind fun b => (h.block b).bind fun cells => cells[i]?

def store (h : Blocks α) (p : Option ℕ) (i : ℕ) (x : α) : Option (Blocks α) :=
  p.bind fun b => (h.block b).bind fun cells =>
    if i < cells.length then some (h.set b (some (cells.set i x))) else none

/-- Writes the cells `0` to `n - 1`, in this order; `get` may read the heap. -/
def storeAll (p : Option ℕ) (get : Blocks α → ℕ → Option α) : ℕ → Blocks α → Option (Blocks α)
  | 0, h => some h
  | n + 1, h => (storeAll p get n h).bind fun h => (get h n).bind fun x => h.store p n x

/-- The cells of a block, none at the null pointer. -/
def cells (h : Blocks α) : Option ℕ → List α
  | none => []
  | some b => (h.block b).getD []

/-- A pointer that is null or names a block that is allocated. -/
def Live (h : Blocks α) (p : Option ℕ) : Prop := ∀ b, p = some b → (h.block b).isSome

/-- Only blocks that have a name are allocated. -/
def Named (h : Blocks α) : Prop := ∀ b, h.next ≤ b → h.block b = none

/-! ## Access -/

@[simp] theorem set_block_self (h : Blocks α) (b : ℕ) (cells : Option (List α)) :
    (h.set b cells).block b = cells :=
  Function.update_self ..

theorem set_block_ne (h : Blocks α) (cells : Option (List α)) (hab : a ≠ b) :
    (h.set b cells).block a = h.block a :=
  Function.update_of_ne hab ..

@[simp] theorem set_next (h : Blocks α) (b : ℕ) (cells : Option (List α)) :
    (h.set b cells).next = h.next := rfl

@[simp] theorem set_set (h : Blocks α) (b : ℕ) (cells cells' : Option (List α)) :
    (h.set b cells).set b cells' = h.set b cells' := by
  simp [set]

theorem set_eq_self (hb : h.block b = some xs) : h.set b (some xs) = h := by
  simp [set, ← hb]

theorem load_of_block (hb : h.block b = some xs) : h.load (some b) i = xs[i]? := by
  simp [load, hb]

theorem store_of_block (hb : h.block b = some xs) (hi : i < xs.length) (x : α) :
    h.store (some b) i x = some (h.set b (some (xs.set i x))) := by
  simp [store, hb, hi]

theorem delete_of_block (hb : h.block b = some xs) : h.delete (some b) = some (h.set b none) := by
  simp [delete, hb]

theorem load_congr (hp : ∀ b, p = some b → h'.block b = h.block b) : h'.load p i = h.load p i := by
  cases p with
  | none => rfl
  | some b => simp [load, hp b rfl]

theorem cells_congr (hp : ∀ b, p = some b → h'.block b = h.block b) : h'.cells p = h.cells p := by
  cases p with
  | none => rfl
  | some b => simp [cells, hp b rfl]

theorem Live.congr (hp : h.Live p) (he : ∀ b, p = some b → h'.block b = h.block b) : h'.Live p :=
  fun b hb => he b hb ▸ hp b hb

theorem Live.of_block (hb : h.block b = some xs) : h.Live (some b) := by
  intro a ha
  rw [← Option.some.inj ha, hb]
  rfl

theorem cells_of_block (hb : h.block b = some xs) : h.cells (some b) = xs := by
  rw [cells, hb, Option.getD_some]

theorem Live.block (hp : h.Live p) (he : p = some b) : h.block b = some (h.cells p) := by
  obtain ⟨xs, hxs⟩ := Option.isSome_iff_exists.mp (hp b he)
  rw [hxs, he, cells, hxs, Option.getD_some]

/-- A pointer with cells is not null. -/
theorem exists_of_cells (hi : i < (h.cells p).length) : ∃ b, p = some b := by
  cases p with
  | none => exact absurd hi (Nat.not_lt_zero _)
  | some b => exact ⟨b, rfl⟩

theorem Live.load (hp : h.Live p) : h.load p i = (h.cells p)[i]? := by
  cases p with
  | none => rfl
  | some b => exact load_of_block (hp.block rfl)

theorem Live.delete (hp : h.Live p) : ∃ h', h.delete p = some h' ∧ h'.next = h.next ∧
    (∀ b, p ≠ some b → h'.block b = h.block b) ∧ ∀ b, p = some b → h'.block b = none := by
  cases p with
  | none => exact ⟨h, rfl, rfl, fun _ _ => rfl, by simp⟩
  | some b =>
    refine ⟨_, delete_of_block (hp.block rfl), rfl, fun a ha => ?_, fun a ha => ?_⟩
    · exact set_block_ne _ _ fun he => ha (by rw [he])
    · obtain rfl := Option.some.inj ha
      exact set_block_self ..

/-- A loop that writes what is in a list as long as only its own block changes. -/
theorem storeAll_eq {get : Blocks α → ℕ → Option α} (hb : h.block b = some ys)
    (hy : n ≤ ys.length) (hx : n ≤ xs.length)
    (hget : ∀ i, i < n → ∀ zs, get (h.set b (some zs)) i = xs[i]?) :
    storeAll (some b) get n h = some (h.set b (some (xs.take n ++ ys.drop n))) := by
  induction n with
  | zero => simp [storeAll, set_eq_self hb]
  | succ n ih =>
    rw [storeAll, ih (by omega) (by omega) fun i hi => hget i (by omega), Option.bind_some,
      hget n (Nat.lt_succ_self n), List.getElem?_eq_getElem hx, Option.bind_some,
      store_of_block (set_block_self ..) (by simp; omega), set_set]
    congr 3
    rw [List.set_append_right _ _ (List.length_take_le _ _), List.length_take, min_eq_left (by omega),
      Nat.sub_self, List.drop_eq_getElem_cons hy, List.set_cons_zero, List.take_add_one,
      List.getElem?_eq_getElem hx, Option.toList_some, List.append_assoc, List.singleton_append]

/-! ## Changes of one pointer

An operation frees or writes the block of `p` and leaves `q` in its place, which is `p` or a new
block.
-/

structure Changes (h : Blocks α) (p : Option ℕ) (h' : Blocks α) (q : Option ℕ) : Prop where
  named : h.Named → h'.Named
  next_le : h.next ≤ h'.next
  other : ∀ b, p ≠ some b → b < h.next → h'.block b = h.block b
  new : ∀ b, q = some b → p = some b ∨ h.next ≤ b ∧ b < h'.next

namespace Changes

theorem refl (h : Blocks α) (p : Option ℕ) : Changes h p h p :=
  ⟨id, le_rfl, fun _ _ _ => rfl, fun _ => .inl⟩

theorem trans (c : Changes h p h' p') (c' : Changes h' p' h'' p'') : Changes h p h'' p'' where
  named hn := c'.named (c.named hn)
  next_le := c.next_le.trans c'.next_le
  other b hb hlt := by
    have hp' : p' ≠ some b := fun he => (c.new b he).elim hb fun hn => absurd hn.1 (not_le.mpr hlt)
    rw [c'.other b hp' (hlt.trans_le c.next_le), c.other b hb hlt]
  new b hb := by
    rcases c'.new b hb with he | ⟨h₁, h₂⟩
    · exact (c.new b he).imp_right fun ⟨h₃, h₄⟩ => ⟨h₃, h₄.trans_le c'.next_le⟩
    · exact .inr ⟨c.next_le.trans h₁, h₂⟩

theorem lt (c : Changes h p h' q) (hp : ∀ b, p = some b → b < h.next) :
    ∀ b, q = some b → b < h'.next := fun b hb =>
  (c.new b hb).elim (fun he => (hp b he).trans_le c.next_le) And.right

theorem set (hb : b < h.next) (cells : Option (List α)) :
    Changes h (some b) (h.set b cells) (some b) where
  named hn a ha := by
    rw [set_block_ne _ _ (fun he => by rw [set_next] at ha; omega)]
    exact hn a ha
  next_le := le_rfl
  other a ha _ := set_block_ne _ _ fun he => ha (by rw [he])
  new _ := .inl

theorem fresh (h : Blocks α) (p : Option ℕ) (xs : List α) : Changes h p (h.new xs) (some h.next) where
  named hn a ha := by
    have hne : a ≠ h.next := fun he => by
      simp only [Blocks.new, he] at ha
      omega
    exact (set_block_ne _ _ hne).trans (hn a (Nat.le_of_succ_le ha))
  next_le := Nat.le_succ _
  other a _ ha := set_block_ne _ _ ha.ne
  new a ha := by
    obtain rfl := Option.some.inj ha
    exact .inr ⟨le_rfl, Nat.lt_succ_self _⟩

/-- The old block is freed last. -/
theorem free (c : Changes h p h' q) (hnext : h''.next = h'.next)
    (hother : ∀ b, p ≠ some b → h''.block b = h'.block b)
    (hfree : ∀ b, p = some b → h''.block b = none) : Changes h p h'' q where
  named hn b hb := by
    by_cases hp : p = some b
    · exact hfree b hp
    · rw [hother b hp]
      exact c.named hn b (hnext ▸ hb)
  next_le := hnext ▸ c.next_le
  other b hb hlt := (hother b hb).trans (c.other b hb hlt)
  new b hb := hnext ▸ c.new b hb

/-- Another operation puts a new block in the place of the one that has been freed. -/
theorem replace (c : Changes h p h' p) (c' : Changes h' none h'' q) : Changes h p h'' q where
  named hn := c'.named (c.named hn)
  next_le := c.next_le.trans c'.next_le
  other b hb hlt :=
    (c'.other b (by simp) (hlt.trans_le c.next_le)).trans (c.other b hb hlt)
  new b hb := by
    rcases c'.new b hb with he | ⟨h₁, h₂⟩
    · exact absurd he (by simp)
    · exact .inr ⟨c.next_le.trans h₁, h₂⟩

theorem null (c : Changes h p h' q) : Changes h p h' none :=
  ⟨c.named, c.next_le, c.other, by simp⟩

end Changes

end Blocks

end OrangeOs
