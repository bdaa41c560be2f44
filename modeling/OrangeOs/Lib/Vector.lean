import Mathlib.Tactic.Ring
import OrangeOs.Library.Blocks

/-! # `lib::vector`

The operations of `lib/stl/vector.h` on a heap of blocks. An operation has no result when it reads
or writes outside a block that is allocated. A vector is empty, or its buffer is a block whose first
cells are the elements.
-/

namespace OrangeOs.Lib

/-- What `new T[n]` needs to know of the type: the size of an element and the bytes in front of an
array. -/
structure ElemType where
  size : ℕ
  cookie : ℕ
  pos : 0 < size

namespace ElemType

/-- The elements that `new T[n]` gets. The parameter of `malloc` is a `uint32_t`. -/
def elems (E : ElemType) (n : ℕ) : ℕ := ((n * E.size + E.cookie) % 2 ^ 32 - E.cookie) / E.size

/-- The bytes of an array can be counted. -/
def Fits (E : ElemType) (n : ℕ) : Prop := n * E.size + E.cookie < 2 ^ 32

instance (E : ElemType) (n : ℕ) : Decidable (E.Fits n) := inferInstanceAs (Decidable (_ < _))

variable {E : ElemType} {n : ℕ}

theorem elems_eq (h : E.Fits n) : E.elems n = n := by
  rw [elems, Nat.mod_eq_of_lt h, Nat.add_sub_cancel, Nat.mul_div_cancel _ E.pos]

theorem elems_lt (E : ElemType) (n : ℕ) : E.elems n < 2 ^ 32 := by
  have hmod : (n * E.size + E.cookie) % 2 ^ 32 < 2 ^ 32 := Nat.mod_lt _ (by decide)
  exact (Nat.div_le_self _ _).trans_lt ((Nat.sub_le _ _).trans_lt hmod)

/-- `char`. -/
def char : ElemType := ⟨1, 0, Nat.one_pos⟩

theorem fits_char : char.Fits n ↔ n < 2 ^ 32 := by
  simp [Fits, char]

theorem Fits.lt (h : E.Fits n) : n < 2 ^ 32 := by
  have := elems_lt E n
  rwa [elems_eq h] at this

end ElemType

/-- What the heap does when it is asked for an array: whether it has the memory, and what the elements
are. -/
structure Answer (α : Type*) where
  room : Bool
  junk : ℕ → α

/-- A parameter `const T&`: a value that is in no vector, or an element of a block. -/
inductive Ref (α : Type*) where
  | value (x : α)
  | element (p : Option ℕ) (i : ℕ)

structure Vector where
  size_ : ℕ
  capacity_ : ℕ
  buffer_ : Option ℕ
  deriving DecidableEq

variable {α : Type*}

def Ref.load (h : Blocks α) : Ref α → Option α
  | value x => some x
  | element p i => h.load p i

/-- `new T[n]`. -/
def newArray (E : ElemType) (m : Answer α) (n : ℕ) (h : Blocks α) : Option ℕ × Blocks α :=
  if m.room then (some h.next, h.new ((List.range (E.elems n)).map m.junk)) else (none, h)

namespace Vector

def empty : Vector := ⟨0, 0, none⟩

def construct (E : ElemType) (m : Answer α) (size : ℕ) (h : Blocks α) : Vector × Blocks α :=
  (⟨size, size, (newArray E m size h).1⟩, (newArray E m size h).2)

def constructFill (E : ElemType) (m : Answer α) (size : ℕ) (initial : α) (h : Blocks α) :
    Option (Vector × Blocks α) :=
  (Blocks.storeAll (newArray E m size h).1 (fun _ _ => some initial) size
    (newArray E m size h).2).map fun h' => (⟨size, size, (newArray E m size h).1⟩, h')

/-- The copy of `v` that the copy constructor and `operator=` make, from the elements at `p`. -/
def copyFrom (E : ElemType) (m : Answer α) (v : Vector) (p : Option ℕ → Option ℕ) (h : Blocks α) :
    Option (Vector × Blocks α) :=
  (Blocks.storeAll (newArray E m v.size_ h).1 (fun h' => h'.load (p (newArray E m v.size_ h).1))
    v.size_ (newArray E m v.size_ h).2).map
      fun h' => (⟨v.size_, v.capacity_, (newArray E m v.size_ h).1⟩, h')

def constructCopy (E : ElemType) (m : Answer α) (v : Vector) (h : Blocks α) :
    Option (Vector × Blocks α) :=
  copyFrom E m v (fun _ => v.buffer_) h

/-- `operator=`; `self` says that the two operands are one vector, whose buffer is then the new one. -/
def assign (E : ElemType) (m : Answer α) (x v : Vector) (self : Bool) (h : Blocks α) :
    Option (Vector × Blocks α) :=
  (h.delete x.buffer_).bind (copyFrom E m v fun p => if self then p else v.buffer_)

/-- What `reserve` does to a vector without a buffer first. -/
def reset (x : Vector) : Vector :=
  if x.buffer_ = none then { x with size_ := 0, capacity_ := 0 } else x

def reserve (E : ElemType) (m : Answer α) (capacity : ℕ) (x : Vector) (h : Blocks α) :
    Option (Vector × Blocks α) :=
  if capacity ≤ x.reset.capacity_ then some (x.reset, h)
  else
    (Blocks.storeAll (newArray E m capacity h).1 (fun h' => h'.load x.reset.buffer_) x.reset.size_
      (newArray E m capacity h).2).bind fun h' =>
        (h'.delete x.reset.buffer_).map fun h'' =>
          ({ x.reset with capacity_ := capacity, buffer_ := (newArray E m capacity h).1 }, h'')

/-- `new_capacity` in `push_back`. -/
def grown (capacity : ℕ) : ℕ :=
  if capacity * 2 % 2 ^ 32 < 8 then 8 else capacity * 2 % 2 ^ 32

def pushBack (E : ElemType) (m : Answer α) (value : Ref α) (x : Vector) (h : Blocks α) :
    Option (Vector × Blocks α) :=
  (if x.capacity_ ≤ x.size_ then reserve E m (grown x.capacity_) x h else some (x, h)).bind
    fun (x, h) => (value.load h).bind fun c => (h.store x.buffer_ x.size_ c).map
      fun h => ({ x with size_ := (x.size_ + 1) % 2 ^ 32 }, h)

/-- `size_--` of a `uint32_t`. -/
def popBack (x : Vector) : Vector :=
  { x with size_ := if x.size_ = 0 then 2 ^ 32 - 1 else x.size_ - 1 }

@[simp] theorem popBack_capacity (x : Vector) : x.popBack.capacity_ = x.capacity_ := rfl
@[simp] theorem popBack_buffer (x : Vector) : x.popBack.buffer_ = x.buffer_ := rfl

def resize (E : ElemType) (m : Answer α) (size : ℕ) (x : Vector) (h : Blocks α) :
    Option (Vector × Blocks α) :=
  (reserve E m size x h).map fun (x, h) => ({ x with size_ := size }, h)

def clear (x : Vector) : Vector := { x with capacity_ := 0, size_ := 0, buffer_ := none }

end Vector

variable {E : ElemType} {m : Answer α} {h h' : Blocks α} {x y : Vector} {l k : List α} {n i : ℕ} {c : α}
  {p : Option ℕ}

theorem newArray_eq (hn : E.Fits n) (hm : m.room = true) (h : Blocks α) :
    ∃ cells, newArray E m n h = (some h.next, h.new cells) ∧ cells.length = n :=
  ⟨_, by rw [newArray, if_pos hm], by simp [ElemType.elems_eq hn]⟩

/-- What a parameter of `push_back` refers to. An element of the vector itself moves when the vector
grows. -/
def Ref.Is (h : Blocks α) (x : Vector) (c : α) : Ref α → Prop
  | .value c' => c' = c
  | .element p i => h.load p i = some c ∧ (∀ b, p = some b → b < h.next) ∧
      (p = x.buffer_ → x.size_ < x.capacity_)

namespace Vector

/-! ## Elements -/

/-- The elements of a vector are the list, and the vector believes to have room for them. -/
structure Holds (h : Blocks α) (x : Vector) (l : List α) : Prop where
  live : h.Live x.buffer_
  size : x.size_ = l.length
  le : x.size_ ≤ x.capacity_
  elements : l <+: h.cells x.buffer_
  lt : (h.cells x.buffer_).length < 2 ^ 32
  null : x.buffer_ = none → x.capacity_ = 0

/-- The number of elements that the buffer really has. -/
def allocated (h : Blocks α) (x : Vector) : ℕ := (h.cells x.buffer_).length

/-- The buffer has a name already. -/
def Old (h : Blocks α) (x : Vector) : Prop := ∀ b, x.buffer_ = some b → b < h.next

theorem holds_empty (h : Blocks α) : Holds h empty [] where
  live := by simp [Blocks.Live, empty]
  size := rfl
  le := le_rfl
  elements := List.nil_prefix
  lt := by simp [empty, Blocks.cells]
  null _ := rfl

namespace Holds

theorem congr (hx : Holds h x l) (he : ∀ b, x.buffer_ = some b → h'.block b = h.block b) :
    Holds h' x l where
  live := hx.live.congr he
  size := hx.size
  le := hx.le
  elements := by
    rw [Blocks.cells_congr he]
    exact hx.elements
  lt := by
    rw [Blocks.cells_congr he]
    exact hx.lt
  null := hx.null

theorem le_allocated (hx : Holds h x l) : x.size_ ≤ x.allocated h :=
  hx.size ▸ hx.elements.length_le

theorem getElem? (hx : Holds h x l) (hi : i < x.size_) : (h.cells x.buffer_)[i]? = l[i]? := by
  rw [hx.size] at hi
  obtain ⟨t, ht⟩ := hx.elements
  rw [← ht, List.getElem?_append_left hi]

theorem load (hx : Holds h x l) (hi : i < x.size_) : h.load x.buffer_ i = l[i]? := by
  rw [hx.live.load, hx.getElem? hi]

/-- The first elements of the cells. -/
theorem take (hx : Holds h x l) : (h.cells x.buffer_).take x.size_ = l := by
  rw [hx.size]
  exact (List.prefix_iff_eq_take.mp hx.elements).symm

theorem reset_eq (hx : Holds h x l) : x.reset = x := by
  unfold reset
  split
  · next hp =>
    have hcap := hx.null hp
    have hsize := hx.le
    obtain ⟨size, capacity, buffer⟩ := x
    simp only at hcap hsize
    simp [hcap, show size = 0 by omega]
  · rfl

end Holds

/-! ## What the operations do -/

/-- A new buffer with a list in front of what else it holds. -/
theorem holds_new {cells : List α} {b n capacity : ℕ} (hb : h.block b = some (l ++ cells))
    (hlen : (l ++ cells).length < 2 ^ 32) (hn : n = l.length) (hle : n ≤ capacity) :
    Holds h ⟨n, capacity, some b⟩ l where
  live := .of_block hb
  size := hn
  le := hle
  elements := by
    rw [Blocks.cells_of_block hb]
    exact List.prefix_append ..
  lt := by rwa [Blocks.cells_of_block hb]
  null := by simp

/-- The elements of a vector go to the front of a new array. -/
theorem copy_eq (hx : Holds h x l) (hold : x.Old h) {cells : List α} (hlen : x.size_ ≤ cells.length) :
    Blocks.storeAll (some h.next) (fun h' => h'.load x.buffer_) x.size_ (h.new cells) =
      some ((h.new cells).set h.next (some (l ++ cells.drop x.size_))) := by
  have hnew : (h.new cells).block h.next = some cells := Blocks.set_block_self ..
  have hget : ∀ i, i < x.size_ → ∀ zs, ((h.new cells).set h.next (some zs)).load x.buffer_ i =
      (h.cells x.buffer_)[i]? := by
    intro i _ zs
    rw [← hx.live.load]
    refine Blocks.load_congr fun b hb => ?_
    have hne : b ≠ h.next := (hold b hb).ne
    rw [Blocks.set_block_ne _ _ hne]
    exact Blocks.set_block_ne _ _ hne
  rw [Blocks.storeAll_eq hnew hlen hx.le_allocated hget, hx.take]

theorem Holds.reserve (hx : Holds h x l) (hold : x.Old h)
    (hreq : x.capacity_ < n → E.Fits n ∧ m.room = true) :
    ∃ x' h', Vector.reserve E m n x h = some (x', h') ∧ Holds h' x' l ∧
      h.Changes x.buffer_ h' x'.buffer_ ∧ (n ≤ x.capacity_ → x' = x ∧ h' = h) ∧
      (x.capacity_ < n → x'.capacity_ = n ∧ x'.allocated h' = n) := by
  unfold Vector.reserve
  rw [hx.reset_eq]
  split
  · next hle => exact ⟨x, h, rfl, hx, .refl h _, fun _ => ⟨rfl, rfl⟩, fun hlt => by omega⟩
  · next hlt =>
    rw [not_le] at hlt
    obtain ⟨hn, hm⟩ := hreq hlt
    obtain ⟨cells, hnew, hlen⟩ := newArray_eq hn hm h
    have hsize : x.size_ ≤ cells.length := by
      have := hx.le
      omega
    rw [hnew, copy_eq hx hold hsize, Option.bind_some]
    -- the old buffer is untouched until it is freed
    have hne : ∀ b, x.buffer_ = some b → b ≠ h.next := fun b hb => (hold b hb).ne
    have hkeep : ∀ b, x.buffer_ = some b →
        ((h.new cells).set h.next (some (l ++ cells.drop x.size_))).block b = h.block b :=
      fun b hb => by
        rw [Blocks.set_block_ne _ _ (hne b hb)]
        exact Blocks.set_block_ne _ _ (hne b hb)
    obtain ⟨h', hdel, hnext, hother, hfree⟩ := (hx.live.congr hkeep).delete
    rw [hdel]
    have hblock : h'.block h.next = some (l ++ cells.drop x.size_) := by
      rw [hother _ fun he => hne _ he rfl, Blocks.set_block_self]
    have hlen' : (l ++ cells.drop x.size_).length = n := by
      rw [List.length_append, List.length_drop, ← hx.size, Nat.add_sub_cancel' hsize, hlen]
    refine ⟨_, h', rfl, holds_new hblock (hlen' ▸ hn.lt) hx.size (hx.le.trans hlt.le), ?_,
      fun hle => by omega, fun _ => ⟨rfl, ?_⟩⟩
    · exact ((Blocks.Changes.fresh h x.buffer_ cells).trans
        (.set (Nat.lt_succ_self _) _)).free hnext hother hfree
    · rw [allocated, Blocks.cells_of_block hblock, hlen']

theorem grown_eq (h : E.Fits (max 8 (2 * n))) : grown n = max 8 (2 * n) := by
  have hlt : 2 * n < 2 ^ 32 := (le_max_right 8 _).trans_lt h.lt
  rw [grown, Nat.mul_comm, Nat.mod_eq_of_lt hlt]
  split <;> omega

theorem Holds.store (hx : Holds h x l) (hold : x.Old h) (hroom : x.size_ < x.allocated h)
    (hle : x.size_ < x.capacity_) (c : α) :
    ∃ h', h.store x.buffer_ x.size_ c = some h' ∧
      Holds h' { x with size_ := (x.size_ + 1) % 2 ^ 32 } (l ++ [c]) ∧
      h.Changes x.buffer_ h' x.buffer_ ∧ x.allocated h' = x.allocated h := by
  obtain ⟨b, hb⟩ := Blocks.exists_of_cells hroom
  have hblock := hx.live.block hb
  have hsize : (x.size_ + 1) % 2 ^ 32 = x.size_ + 1 :=
    Nat.mod_eq_of_lt (Nat.lt_of_le_of_lt hroom hx.lt)
  have hcells : (h.set b (some ((h.cells x.buffer_).set x.size_ c))).cells x.buffer_ =
      (h.cells x.buffer_).set x.size_ c := by
    rw [hb, Blocks.cells_of_block (Blocks.set_block_self ..)]
  refine ⟨h.set b (some ((h.cells x.buffer_).set x.size_ c)), ?_, ?_, ?_, ?_⟩
  · rw [hb, Blocks.store_of_block (hb ▸ hblock) (hb ▸ hroom), ← hb]
  · refine ⟨?_, ?_, ?_, ?_, ?_, ?_⟩
    · simp only [hb]
      exact .of_block (Blocks.set_block_self ..)
    · rw [hsize, hx.size, List.length_append, List.length_singleton]
    · simp only [hsize]
      omega
    · simp only [hcells]
      obtain ⟨t, ht⟩ := hx.elements
      have hlen := congrArg List.length ht
      rw [List.length_append] at hlen
      rw [allocated, hx.size] at hroom
      rw [← ht, hx.size, List.set_append_right _ _ le_rfl, Nat.sub_self,
        List.prefix_append_right_inj]
      cases t with
      | nil => simp at hlen; omega
      | cons y ys => exact ⟨ys, rfl⟩
    · simp only [hcells, List.length_set]
      exact hx.lt
    · simp [hb]
  · rw [hb]
    exact .set (hold b hb) _
  · rw [allocated, hcells, List.length_set]
    rfl

theorem Holds.pushBack (hx : Holds h x l) (hold : x.Old h) {r : Ref α} (hr : r.Is h x c)
    (hreq : x.capacity_ ≤ x.size_ → E.Fits (max 8 (2 * x.capacity_)) ∧ m.room = true)
    (hroom : x.size_ < x.capacity_ → x.size_ < x.allocated h) :
    ∃ x' h', Vector.pushBack E m r x h = some (x', h') ∧ Holds h' x' (l ++ [c]) ∧
      h.Changes x.buffer_ h' x'.buffer_ ∧
      (x.size_ < x.capacity_ → x'.buffer_ = x.buffer_ ∧ x'.capacity_ = x.capacity_ ∧
        x'.allocated h' = x.allocated h) ∧
      (x.capacity_ ≤ x.size_ → x'.capacity_ = x'.allocated h') := by
  unfold Vector.pushBack
  by_cases hfull : x.capacity_ ≤ x.size_
  · obtain ⟨hfits, hm⟩ := hreq hfull
    have hgrow := grown_eq hfits
    have hlt : x.capacity_ < max 8 (2 * x.capacity_) := by omega
    obtain ⟨x₁, h₁, heq, hx₁, hch₁, -, hnew⟩ :=
      hx.reserve (n := grown x.capacity_) hold fun _ => ⟨hgrow ▸ hfits, hm⟩
    obtain ⟨hcap, halloc⟩ := hnew (hgrow ▸ hlt)
    rw [if_pos hfull, heq, Option.bind_some]
    have hsize : x₁.size_ = x.size_ := hx₁.size.trans hx.size.symm
    have hload : r.load h₁ = some c := by
      cases r with
      | value c' => exact congrArg some hr
      | element p i =>
        obtain ⟨hp, hname, hself⟩ := hr
        refine (Blocks.load_congr fun b hb => hch₁.other b (fun he => ?_) (hname b hb)).trans hp
        exact absurd (hself (hb.trans he.symm)) (not_lt.mpr hfull)
    have hle := hx.le
    obtain ⟨h₂, hst, hx₂, hch₂, halloc₂⟩ :=
      hx₁.store (hch₁.lt hold) (by omega) (by omega) c
    simp only [hload, hst, Option.bind_some, Option.map_some]
    refine ⟨_, h₂, rfl, hx₂, hch₁.trans hch₂, fun hlt => absurd hfull (not_le.mpr hlt), fun _ => ?_⟩
    exact hcap.trans (halloc.symm.trans halloc₂.symm)
  · rw [not_le] at hfull
    have hload : r.load h = some c := by
      cases r with
      | value c' => exact congrArg some hr
      | element p i => exact hr.1
    obtain ⟨h', hst, hx', hch, halloc⟩ := hx.store hold (hroom hfull) hfull c
    rw [if_neg (not_le.mpr hfull), Option.bind_some]
    simp only [hload, hst, Option.bind_some, Option.map_some]
    exact ⟨_, h', rfl, hx', hch, fun _ => ⟨rfl, rfl, halloc⟩, fun hle => absurd hle (not_le.mpr hfull)⟩

theorem Holds.popBack (hx : Holds h x l) (hpos : 0 < x.size_) : Holds h x.popBack l.dropLast := by
  rw [Vector.popBack, if_neg hpos.ne']
  refine ⟨hx.live, ?_, (Nat.sub_le _ _).trans hx.le, (List.dropLast_prefix l).trans hx.elements,
    hx.lt, hx.null⟩
  rw [List.length_dropLast, hx.size]

/-- A vector that has the room it believes to have can take any size up to it. -/
theorem Holds.cut (hx : Holds h x l) (hn : n ≤ x.capacity_) (halloc : n ≤ x.allocated h) :
    Holds h { x with size_ := n } ((h.cells x.buffer_).take n) where
  live := hx.live
  size := (List.length_take_of_le halloc).symm
  le := hn
  elements := List.take_prefix ..
  lt := hx.lt
  null := hx.null

theorem copyFrom_eq (hy : Holds h y k) (hold : y.Old h) (hn : E.Fits y.size_) (hm : m.room = true) :
    ∃ x' h', copyFrom E m y (fun _ => y.buffer_) h = some (x', h') ∧ Holds h' x' k ∧
      h.Changes none h' x'.buffer_ ∧ x'.capacity_ = y.capacity_ ∧ x'.allocated h' = y.size_ := by
  obtain ⟨cells, hnew, hlen⟩ := newArray_eq hn hm h
  unfold copyFrom
  rw [hnew, copy_eq hy hold hlen.ge, Option.map_some, List.drop_eq_nil_of_le hlen.le]
  have hblock : ((h.new cells).set h.next (some (k ++ []))).block h.next = some (k ++ []) :=
    Blocks.set_block_self ..
  have hsize : (k ++ []).length = y.size_ := by rw [List.append_nil, hy.size]
  refine ⟨_, _, rfl, holds_new hblock (hsize ▸ hn.lt) hy.size hy.le, ?_, rfl, ?_⟩
  · exact (Blocks.Changes.fresh h none cells).trans (.set (Nat.lt_succ_self _) _)
  · rw [allocated, Blocks.cells_of_block hblock, hsize]

/-- An assignment from another vector. -/
theorem assign_eq (hx : Holds h x l) (hy : Holds h y k) (hold : y.Old h)
    (hapart : ∀ b, x.buffer_ = some b → y.buffer_ ≠ some b) (hn : E.Fits y.size_)
    (hm : m.room = true) :
    ∃ x' h', assign E m x y false h = some (x', h') ∧ Holds h' x' k ∧
      h.Changes x.buffer_ h' x'.buffer_ ∧ x'.capacity_ = y.capacity_ ∧
      x'.allocated h' = y.size_ := by
  obtain ⟨h₁, hdel, hnext, hother, hfree⟩ := hx.live.delete
  have hy₁ : Holds h₁ y k := hy.congr fun b hb => hother b fun he => hapart b he hb
  have hold₁ : y.Old h₁ := fun b hb => hnext ▸ hold b hb
  obtain ⟨x', h', heq, hx', hch, hcap, halloc⟩ := copyFrom_eq hy₁ hold₁ hn hm
  refine ⟨x', h', ?_, hx', ?_, hcap, halloc⟩
  · rw [assign, hdel]
    exact heq
  · exact ((Blocks.Changes.refl h x.buffer_).free hnext hother hfree).replace hch

/-- An assignment of an empty vector to itself. -/
theorem assign_self (hx : Holds h x []) (hn : E.Fits 0) (hm : m.room = true) :
    ∃ x' h', assign E m x x true h = some (x', h') ∧ Holds h' x' [] ∧
      h.Changes x.buffer_ h' x'.buffer_ ∧ x'.capacity_ = x.capacity_ := by
  obtain ⟨h₁, hdel, hnext, hother, hfree⟩ := hx.live.delete
  obtain ⟨cells, hnew, hlen⟩ := newArray_eq hn hm h₁
  have hzero : x.size_ = 0 := hx.size
  rw [assign, hdel, Option.bind_some, copyFrom, hzero, hnew]
  have hblock : (h₁.new cells).block h₁.next = some ([] ++ cells) := Blocks.set_block_self ..
  refine ⟨_, _, rfl, holds_new hblock ?_ rfl (Nat.zero_le _), ?_, rfl⟩
  · rw [List.nil_append, hlen]
    decide
  · exact ((Blocks.Changes.refl h x.buffer_).free hnext hother hfree).replace (.fresh h₁ none cells)

theorem construct_eq (hn : E.Fits n) (hm : m.room = true) (h : Blocks α) :
    ∃ l x' h', construct E m n h = (x', h') ∧ Holds h' x' l ∧ l.length = n ∧
      h.Changes none h' x'.buffer_ ∧ x'.capacity_ = x'.allocated h' := by
  obtain ⟨cells, hnew, hlen⟩ := newArray_eq hn hm h
  have hblock : (h.new cells).block h.next = some (cells ++ []) := by
    rw [List.append_nil]
    exact Blocks.set_block_self ..
  rw [construct, hnew]
  refine ⟨cells, _, _, rfl, holds_new hblock ?_ hlen.symm le_rfl, hlen, .fresh h none cells, ?_⟩
  · rw [List.append_nil, hlen]
    exact hn.lt
  · rw [allocated, Blocks.cells_of_block hblock, List.append_nil, hlen]

theorem constructFill_eq (hn : E.Fits n) (hm : m.room = true) (c : α) (h : Blocks α) :
    ∃ x' h', constructFill E m n c h = some (x', h') ∧ Holds h' x' (List.replicate n c) ∧
      h.Changes none h' x'.buffer_ ∧ x'.capacity_ = x'.allocated h' := by
  obtain ⟨cells, hnew, hlen⟩ := newArray_eq hn hm h
  have hstore : Blocks.storeAll (some h.next) (fun _ _ => some c) n (h.new cells) =
      some ((h.new cells).set h.next (some ((List.replicate n c).take n ++ cells.drop n))) :=
    Blocks.storeAll_eq (Blocks.set_block_self ..) hlen.ge (by simp) fun i hi _ => by simp [hi]
  rw [constructFill, hnew, hstore, Option.map_some, List.take_of_length_le (by simp),
    List.drop_eq_nil_of_le hlen.le]
  have hblock := Blocks.set_block_self (h.new cells) h.next (some (List.replicate n c ++ []))
  have hsize : (List.replicate n c ++ []).length = n := by simp
  refine ⟨_, _, rfl, holds_new hblock (by rw [hsize]; exact hn.lt) (by simp) le_rfl, ?_, ?_⟩
  · exact (Blocks.Changes.fresh h none cells).trans (.set (Nat.lt_succ_self _) _)
  · rw [allocated, Blocks.cells_of_block hblock, hsize]

end Vector

end OrangeOs.Lib
