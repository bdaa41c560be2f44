import OrangeOs.Lib.Vector
import OrangeOs.Library.Runs

/-! # Programs with vectors

Any number of vectors on one heap. `lib::vector` refines the mathematical list as long as a program
copies only full vectors, assigns no vector to itself, appends no element of a full vector to that
vector, and gets the memory that it asks for.
-/

namespace OrangeOs.Lib

variable {α : Type*}

/-- The vectors of a program; `faulted` says that an access has gone wrong. -/
structure Store (α : Type*) where
  heap : Blocks α
  vector : ℕ → Option Vector
  faulted : Bool

namespace Store

def init : Store α := ⟨.empty, fun _ => none, false⟩

def set (s : Store α) (v : ℕ) (r : Vector × Blocks α) : Store α :=
  { s with heap := r.2, vector := Function.update s.vector v (some r.1) }

def erase (s : Store α) (v : ℕ) (h : Blocks α) : Store α :=
  { s with heap := h, vector := Function.update s.vector v none }

/-- The buffer of a vector, null if there is no such vector. -/
def own (s : Store α) (v : ℕ) : Option ℕ := (s.vector v).bind Vector.buffer_

/-! ## Refinement

The vectors hold the lists `L`, and each has a block of its own. `P` says what holding a list means.
-/

variable {P : Blocks α → Vector → List α → Prop} {s t : Store α} {L : ℕ → Option (List α)} {v w : ℕ}
  {x y : Vector} {l : List α} {h : Blocks α}

structure Rel (P : Blocks α → Vector → List α → Prop) (s : Store α) (L : ℕ → Option (List α)) :
    Prop where
  named : s.heap.Named
  old : ∀ v x, s.vector v = some x → x.Old s.heap
  apart : ∀ v w x y, v ≠ w → s.vector v = some x → s.vector w = some y →
    ∀ b, x.buffer_ = some b → y.buffer_ ≠ some b
  present : ∀ v x, s.vector v = some x → ∃ l, L v = some l ∧ P s.heap x l
  absent : ∀ v, s.vector v = none → L v = none

/-- A property that depends only on the block of the vector. -/
def Local (P : Blocks α → Vector → List α → Prop) : Prop :=
  ∀ h h' x l, (∀ b, x.buffer_ = some b → h'.block b = h.block b) → P h x l → P h' x l

theorem own_eq (hv : s.vector v = some x) : s.own v = x.buffer_ := by
  rw [own, hv, Option.bind_some]

theorem own_none (hv : s.vector v = none) : s.own v = none := by
  rw [own, hv, Option.bind_none]

namespace Rel

theorem init : Rel P init fun _ => none where
  named _ _ := rfl
  old _ _ h := by simp [Store.init] at h
  apart _ _ _ _ _ h := by simp [Store.init] at h
  present _ _ h := by simp [Store.init] at h
  absent _ _ := rfl

theorem own_lt (hr : Rel P s L) : ∀ b, s.own v = some b → b < s.heap.next := by
  intro b hb
  obtain ⟨x, hx, hxb⟩ := Option.bind_eq_some_iff.mp hb
  exact hr.old v x hx b hxb

/-- An operation on one vector leaves the blocks of the others alone. -/
theorem other (hr : Rel P s L) {q : Option ℕ} (hc : s.heap.Changes (s.own v) h q) (hne : w ≠ v)
    (hw : s.vector w = some y) :
    ∀ b, y.buffer_ = some b → h.block b = s.heap.block b := by
  intro b hb
  refine hc.other b (fun he => ?_) (hr.old w y hw b hb)
  obtain ⟨x, hx, hxb⟩ := Option.bind_eq_some_iff.mp he
  exact hr.apart w v y x hne hw hx b hb hxb

theorem set (hP : Local P) (hr : Rel P s L) (hc : s.heap.Changes (s.own v) h x.buffer_)
    (hx : P h x l) : Rel P (s.set v (x, h)) (Function.update L v (some l)) := by
  have hcases : ∀ w y, (s.set v (x, h)).vector w = some y →
      (w = v ∧ y = x) ∨ (w ≠ v ∧ s.vector w = some y) := by
    intro w y hw
    by_cases he : w = v
    · subst he
      obtain rfl : x = y := by simpa [Store.set] using hw
      exact .inl ⟨rfl, rfl⟩
    · exact .inr ⟨he, (Function.update_of_ne he ..).symm.trans hw⟩
  -- a block that the operation leaves is its own or new, so no other vector has it
  have hnew : ∀ w y, w ≠ v → s.vector w = some y → ∀ b, x.buffer_ = some b → y.buffer_ ≠ some b := by
    intro w y hne hw b hb hyb
    rcases hc.new b hb with he | ⟨hle, -⟩
    · obtain ⟨x', hx', hxb⟩ := Option.bind_eq_some_iff.mp he
      exact hr.apart w v y x' hne hw hx' b hyb hxb
    · exact absurd (hr.old w y hw b hyb) (not_lt.mpr hle)
  refine ⟨hc.named hr.named, fun w y hw b hb => ?_, fun w w' y y' hne hw hw' b hb => ?_,
    fun w y hw => ?_, fun w hw => ?_⟩
  · rcases hcases w y hw with ⟨rfl, rfl⟩ | ⟨-, hw⟩
    · exact hc.lt hr.own_lt b hb
    · exact (hr.old w y hw b hb).trans_le hc.next_le
  · rcases hcases w y hw with ⟨rfl, rfl⟩ | ⟨hwv, hold⟩ <;>
      rcases hcases w' y' hw' with ⟨rfl, rfl⟩ | ⟨hwv', hold'⟩
    · exact absurd rfl hne
    · exact hnew w' y' hwv' hold' b hb
    · exact fun hb' => hnew w y hwv hold b hb' hb
    · exact hr.apart w w' y y' hne hold hold' b hb
  · rcases hcases w y hw with ⟨rfl, rfl⟩ | ⟨hwv, hw⟩
    · exact ⟨l, Function.update_self .., hx⟩
    · obtain ⟨k, hk, hp⟩ := hr.present w y hw
      exact ⟨k, (Function.update_of_ne hwv ..).trans hk, hP _ _ _ _ (hr.other hc hwv hw) hp⟩
  · have hwv : w ≠ v := by
      rintro rfl
      simp [Store.set] at hw
    rw [Function.update_of_ne hwv]
    exact hr.absent w ((Function.update_of_ne hwv ..).symm.trans hw)

theorem erase (hP : Local P) (hr : Rel P s L) (hc : s.heap.Changes (s.own v) h none) :
    Rel P (s.erase v h) (Function.update L v none) := by
  have hcases : ∀ w y, (s.erase v h).vector w = some y → w ≠ v ∧ s.vector w = some y := by
    intro w y hw
    have hne : w ≠ v := by
      rintro rfl
      simp [Store.erase] at hw
    exact ⟨hne, (Function.update_of_ne hne ..).symm.trans hw⟩
  refine ⟨hc.named hr.named, fun w y hw b hb => ?_, fun w w' y y' hne hw hw' b hb => ?_,
    fun w y hw => ?_, fun w hw => ?_⟩
  · exact (hr.old w y (hcases w y hw).2 b hb).trans_le hc.next_le
  · exact hr.apart w w' y y' hne (hcases w y hw).2 (hcases w' y' hw').2 b hb
  · obtain ⟨hwv, hw⟩ := hcases w y hw
    obtain ⟨k, hk, hp⟩ := hr.present w y hw
    exact ⟨k, (Function.update_of_ne hwv ..).trans hk, hP _ _ _ _ (hr.other hc hwv hw) hp⟩
  · by_cases hwv : w = v
    · rw [hwv, Function.update_self]
    · rw [Function.update_of_ne hwv]
      exact hr.absent w ((Function.update_of_ne hwv ..).symm.trans hw)

end Rel

end Store

/-! ## Programs -/

inductive Op (α : Type*) where
  | construct (v : ℕ)
  | constructSize (v size : ℕ)
  | constructFill (v size : ℕ) (initial : α)
  | constructCopy (v w : ℕ)
  | destruct (v : ℕ)
  | assign (v w : ℕ)
  | pushBack (v : ℕ) (value : α)
  | pushElement (v w i : ℕ)
  | popBack (v : ℕ)
  | reserve (v capacity : ℕ)
  | resize (v size : ℕ)
  | clear (v : ℕ)

namespace Store

/-- What an operation does; it has no result when an access goes wrong. -/
def exec (E : ElemType) (m : Answer α) (s : Store α) : Op α → Option (Store α)
  | .construct v => some (s.set v (.empty, s.heap))
  | .constructSize v size => some (s.set v (Vector.construct E m size s.heap))
  | .constructFill v size c => (Vector.constructFill E m size c s.heap).map (s.set v)
  | .constructCopy v w =>
    (s.vector w).bind fun y => (y.constructCopy E m s.heap).map (s.set v)
  | .destruct v => (s.vector v).bind fun x => (s.heap.delete x.buffer_).map (s.erase v)
  | .assign v w => (s.vector v).bind fun x => (s.vector w).bind fun y =>
    (x.assign E m y (v = w) s.heap).map (s.set v)
  | .pushBack v c =>
    (s.vector v).bind fun x => (x.pushBack E m (.value c) s.heap).map (s.set v)
  | .pushElement v w i => (s.vector v).bind fun x => (s.vector w).bind fun y =>
    (x.pushBack E m (.element y.buffer_ i) s.heap).map (s.set v)
  | .popBack v => (s.vector v).map fun x => s.set v (x.popBack, s.heap)
  | .reserve v n => (s.vector v).bind fun x => (x.reserve E m n s.heap).map (s.set v)
  | .resize v n => (s.vector v).bind fun x => (x.resize E m n s.heap).map (s.set v)
  | .clear v => (s.vector v).map fun x => s.set v (x.clear, s.heap)

/-- An operation is on vectors that exist, and a constructor makes a new one. -/
def Applies (s : Store α) : Op α → Prop
  | .construct v => s.vector v = none
  | .constructSize v _ => s.vector v = none
  | .constructFill v _ _ => s.vector v = none
  | .constructCopy v w => s.vector v = none ∧ ∃ y, s.vector w = some y
  | .assign v w => (∃ x, s.vector v = some x) ∧ ∃ y, s.vector w = some y
  | .pushElement v w i => (∃ x, s.vector v = some x) ∧ ∃ y, s.vector w = some y ∧ i < y.size_
  | .popBack v => ∃ x, s.vector v = some x ∧ 0 < x.size_
  | .destruct v | .pushBack v _ | .reserve v _ | .resize v _ | .clear v => ∃ x, s.vector v = some x

inductive Step (E : ElemType) (m : Answer α) (s : Store α) (op : Op α) : Store α → Prop
  | run {t : Store α} : s.Applies op → s.exec E m op = some t → Step E m s op t
  | fault : s.Applies op → s.exec E m op = none → Step E m s op { s with faulted := true }

/-- The number of elements of the array that an operation asks the heap for. -/
def request (s : Store α) : Op α → Option ℕ
  | .constructSize _ n | .constructFill _ n _ => some n
  | .constructCopy _ w | .assign _ w => (s.vector w).map Vector.size_
  | .pushBack v _ | .pushElement v _ _ => (s.vector v).bind fun x =>
    if x.capacity_ ≤ x.size_ then some (max 8 (2 * x.capacity_)) else none
  | .reserve v n | .resize v n => (s.vector v).bind fun x =>
    if x.capacity_ < n then some n else none
  | _ => none

/-- The condition on operations. -/
structure Orderly (E : ElemType) (m : Answer α) (s : Store α) (op : Op α) : Prop where
  request : ∀ n, s.request op = some n → E.Fits n ∧ m.room = true
  full : ∀ v w y, op = .constructCopy v w ∨ op = .assign v w → s.vector w = some y →
    y.size_ = y.capacity_
  self : ∀ v x, op = .assign v v → s.vector v = some x → x.size_ = 0
  element : ∀ v i x, op = .pushElement v v i → s.vector v = some x → x.size_ < x.capacity_

/-- The operations on lists. Elements that are not given are arbitrary. -/
inductive Spec (L : ℕ → Option (List α)) : Op α → (ℕ → Option (List α)) → Prop
  | construct {v : ℕ} : Spec L (.construct v) (Function.update L v (some []))
  | constructSize {v : ℕ} (l : List α) :
      Spec L (.constructSize v l.length) (Function.update L v (some l))
  | constructFill {v n : ℕ} {c : α} :
      Spec L (.constructFill v n c) (Function.update L v (some (List.replicate n c)))
  | constructCopy {v w : ℕ} : Spec L (.constructCopy v w) (Function.update L v (L w))
  | destruct {v : ℕ} : Spec L (.destruct v) (Function.update L v none)
  | assign {v w : ℕ} : Spec L (.assign v w) (Function.update L v (L w))
  | pushBack {v : ℕ} {c : α} {l : List α} : L v = some l →
      Spec L (.pushBack v c) (Function.update L v (some (l ++ [c])))
  | pushElement {v w i : ℕ} {c : α} {l k : List α} : L v = some l → L w = some k → k[i]? = some c →
      Spec L (.pushElement v w i) (Function.update L v (some (l ++ [c])))
  | popBack {v : ℕ} {l : List α} : L v = some l →
      Spec L (.popBack v) (Function.update L v (some l.dropLast))
  | reserve {v n : ℕ} : Spec L (.reserve v n) L
  | resize {v : ℕ} {l k : List α} : L v = some l → l.take k.length <+: k →
      Spec L (.resize v k.length) (Function.update L v (some k))
  | clear {v : ℕ} : Spec L (.clear v) (Function.update L v (some []))

/-! ## Vectors are lists -/

/-- The vector has the room that it believes to have. -/
def Sound (h : Blocks α) (x : Vector) (l : List α) : Prop :=
  x.Holds h l ∧ x.capacity_ ≤ x.allocated h

theorem local_sound : Local (@Sound α) := by
  intro h h' x l he hs
  refine ⟨hs.1.congr he, ?_⟩
  rw [Vector.allocated, Blocks.cells_congr he]
  exact hs.2

variable {E : ElemType} {m : Answer α} {op : Op α}

/-- An operation that meets the condition has a result, which the operation on lists follows. -/
theorem Rel.exec (hr : Rel Sound s L) (ha : s.Applies op) (ho : s.Orderly E m op) :
    ∃ t L', s.exec E m op = some t ∧ Spec L op L' ∧ Rel Sound t L' ∧ t.faulted = s.faulted := by
  have hpush : ∀ v x l c (r : Ref α), s.vector v = some x → L v = some l → Sound s.heap x l →
      r.Is s.heap x c → (x.capacity_ ≤ x.size_ → E.Fits (max 8 (2 * x.capacity_)) ∧ m.room = true) →
      ∃ t, (x.pushBack E m r s.heap).map (s.set v) = some t ∧
        Rel Sound t (Function.update L v (some (l ++ [c]))) ∧ t.faulted = s.faulted := by
    intro v x l c r hv hl hx hc hreq
    obtain ⟨x', h', heq, hx', hch, hkeep, hgrow⟩ := hx.1.pushBack (hr.old v x hv) hc hreq
      fun hlt => hlt.trans_le hx.2
    refine ⟨s.set v (x', h'), by rw [heq, Option.map_some],
      hr.set local_sound (own_eq hv ▸ hch) ⟨hx', ?_⟩, rfl⟩
    rcases Nat.lt_or_ge x.size_ x.capacity_ with hlt | hge
    · obtain ⟨-, hcap, halloc⟩ := hkeep hlt
      rw [hcap, halloc]
      exact hx.2
    · exact (hgrow hge).le
  cases op with
  | construct v =>
    have hh : s.heap.Changes (s.own v) s.heap none := own_none ha ▸ .refl s.heap none
    exact ⟨_, _, rfl, .construct, hr.set local_sound hh ⟨Vector.holds_empty _, Nat.zero_le _⟩, rfl⟩
  | constructSize v n =>
    obtain ⟨hn, hm⟩ := ho.request n rfl
    obtain ⟨l, x', h', heq, hx', rfl, hch, hcap⟩ := Vector.construct_eq hn hm s.heap
    refine ⟨s.set v (x', h'), _, by rw [Store.exec, heq], .constructSize l, ?_, rfl⟩
    exact hr.set local_sound (own_none ha ▸ hch) ⟨hx', hcap.le⟩
  | constructFill v n c =>
    obtain ⟨hn, hm⟩ := ho.request n rfl
    obtain ⟨x', h', heq, hx', hch, hcap⟩ := Vector.constructFill_eq hn hm c s.heap
    refine ⟨s.set v (x', h'), _, by rw [Store.exec, heq, Option.map_some], .constructFill, ?_, rfl⟩
    exact hr.set local_sound (own_none ha ▸ hch) ⟨hx', hcap.le⟩
  | constructCopy v w =>
    obtain ⟨hv, y, hw⟩ := ha
    obtain ⟨k, hk, hy⟩ := hr.present w y hw
    obtain ⟨hn, hm⟩ := ho.request y.size_ (by rw [request, hw, Option.map_some])
    obtain ⟨x', h', heq, hx', hch, hcap, halloc⟩ := Vector.copyFrom_eq hy.1 (hr.old w y hw) hn hm
    refine ⟨s.set v (x', h'), Function.update L v (L w), by
      rw [Store.exec, hw, Option.bind_some, Vector.constructCopy, heq, Option.map_some],
      .constructCopy, hk ▸ hr.set local_sound (own_none hv ▸ hch) ⟨hx', ?_⟩, rfl⟩
    rw [hcap, halloc, ho.full v w y (.inl rfl) hw]
  | destruct v =>
    obtain ⟨x, hv⟩ := ha
    obtain ⟨l, -, hx⟩ := hr.present v x hv
    obtain ⟨h', hdel, hnext, hother, hfree⟩ := hx.1.live.delete
    refine ⟨s.erase v h', _, by rw [Store.exec, hv, Option.bind_some, hdel, Option.map_some], .destruct,
      hr.erase local_sound ?_, rfl⟩
    rw [own_eq hv]
    exact ((Blocks.Changes.refl s.heap x.buffer_).free hnext hother hfree).null
  | assign v w =>
    obtain ⟨⟨x, hv⟩, y, hw⟩ := ha
    obtain ⟨l, -, hx⟩ := hr.present v x hv
    obtain ⟨k, hk, hy⟩ := hr.present w y hw
    obtain ⟨hn, hm⟩ := ho.request y.size_ (by rw [request, hw, Option.map_some])
    have hfull := ho.full v w y (.inr rfl) hw
    have hres : ∃ x' h', x.assign E m y (decide (v = w)) s.heap = some (x', h') ∧ x'.Holds h' k ∧
        s.heap.Changes x.buffer_ h' x'.buffer_ ∧ x'.capacity_ ≤ x'.allocated h' := by
      by_cases hvw : v = w
      · subst hvw
        obtain rfl := Option.some.inj (hv.symm.trans hw)
        have hzero := ho.self v x rfl hv
        obtain rfl : k = [] := List.eq_nil_of_length_eq_zero (hy.1.size.symm.trans hzero)
        obtain ⟨x', h', heq, hx', hch, hcap⟩ := Vector.assign_self hy.1 (hzero ▸ hn) hm
        exact ⟨x', h', by simpa using heq, hx', hch, by omega⟩
      · obtain ⟨x', h', heq, hx', hch, hcap, halloc⟩ := Vector.assign_eq hx.1 hy.1 (hr.old w y hw)
          (fun b => hr.apart v w x y hvw hv hw b) hn hm
        exact ⟨x', h', by simpa [hvw] using heq, hx', hch, by omega⟩
    obtain ⟨x', h', heq, hx', hch, hcap⟩ := hres
    refine ⟨s.set v (x', h'), Function.update L v (L w), by
      rw [Store.exec, hv, Option.bind_some, hw, Option.bind_some, heq, Option.map_some], .assign,
      hk ▸ hr.set local_sound (own_eq hv ▸ hch) ⟨hx', hcap⟩, rfl⟩
  | pushBack v c =>
    obtain ⟨x, hv⟩ := ha
    obtain ⟨l, hl, hx⟩ := hr.present v x hv
    obtain ⟨t, heq, hrel, hf⟩ := hpush v x l c (.value c) hv hl hx rfl fun hle =>
      ho.request _ (by rw [request, hv, Option.bind_some, if_pos hle])
    exact ⟨t, _, by rw [Store.exec, hv, Option.bind_some, heq], .pushBack hl, hrel, hf⟩
  | pushElement v w i =>
    obtain ⟨⟨x, hv⟩, y, hw, hi⟩ := ha
    obtain ⟨l, hl, hx⟩ := hr.present v x hv
    obtain ⟨k, hk, hy⟩ := hr.present w y hw
    have hlt : i < k.length := hy.1.size ▸ hi
    have his : (Ref.element y.buffer_ i).Is s.heap x k[i] := by
      refine ⟨?_, hr.old w y hw, fun he => ?_⟩
      · rw [hy.1.load hi, List.getElem?_eq_getElem hlt]
      · by_cases hvw : v = w
        · subst hvw
          exact ho.element v i x rfl hv
        · obtain ⟨b, hb⟩ := Blocks.exists_of_cells (hi.trans_le hy.1.le_allocated)
          exact absurd hb (hr.apart v w x y hvw hv hw b (he ▸ hb))
    obtain ⟨t, heq, hrel, hf⟩ := hpush v x l k[i] _ hv hl hx his fun hle =>
      ho.request _ (by rw [request, hv, Option.bind_some, if_pos hle])
    exact ⟨t, _, by rw [Store.exec, hv, Option.bind_some, hw, Option.bind_some, heq],
      .pushElement hl hk (List.getElem?_eq_getElem hlt), hrel, hf⟩
  | popBack v =>
    obtain ⟨x, hv, hpos⟩ := ha
    obtain ⟨l, hl, hx⟩ := hr.present v x hv
    refine ⟨s.set v (x.popBack, s.heap), _, by rw [Store.exec, hv, Option.map_some], .popBack hl,
      hr.set local_sound ?_ ⟨hx.1.popBack hpos, ?_⟩, rfl⟩
    · rw [own_eq hv, Vector.popBack_buffer]
      exact .refl ..
    · rw [Vector.allocated, Vector.popBack_capacity, Vector.popBack_buffer]
      exact hx.2
  | reserve v n =>
    obtain ⟨x, hv⟩ := ha
    obtain ⟨l, hl, hx⟩ := hr.present v x hv
    obtain ⟨x', h', heq, hx', hch, hkeep, hgrow⟩ := hx.1.reserve (hr.old v x hv) fun hlt =>
      ho.request n (by rw [request, hv, Option.bind_some, if_pos hlt])
    refine ⟨s.set v (x', h'),
      L, by rw [Store.exec, hv, Option.bind_some, heq, Option.map_some], .reserve, ?_, rfl⟩
    have hrel := hr.set local_sound (own_eq hv ▸ hch) (show Sound h' x' l from ⟨hx', ?_⟩)
    · rwa [← hl, Function.update_eq_self] at hrel
    · rcases Nat.lt_or_ge x.capacity_ n with hlt | hge
      · obtain ⟨hcap, halloc⟩ := hgrow hlt
        omega
      · obtain ⟨rfl, rfl⟩ := hkeep hge
        exact hx.2
  | resize v n =>
    obtain ⟨x, hv⟩ := ha
    obtain ⟨l, hl, hx⟩ := hr.present v x hv
    obtain ⟨x', h', heq, hx', hch, hkeep, hgrow⟩ := hx.1.reserve (hr.old v x hv) fun hlt =>
      ho.request n (by rw [request, hv, Option.bind_some, if_pos hlt])
    have hroom : n ≤ x'.capacity_ ∧ x'.capacity_ ≤ x'.allocated h' := by
      rcases Nat.lt_or_ge x.capacity_ n with hlt | hge
      · obtain ⟨hcap, halloc⟩ := hgrow hlt
        omega
      · obtain ⟨rfl, rfl⟩ := hkeep hge
        exact ⟨hge, hx.2⟩
    have hlen := List.length_take_of_le (hroom.1.trans hroom.2)
    have hspec := Spec.resize (k := (h'.cells x'.buffer_).take n) hl (by
      rw [hlen]
      exact List.prefix_take_iff.mpr
        ⟨(List.take_prefix n l).trans hx'.elements, List.length_take_le ..⟩)
    rw [hlen] at hspec
    refine ⟨s.set v ({ x' with size_ := n }, h'), _, by
      rw [Store.exec, hv, Option.bind_some, Vector.resize, heq, Option.map_some, Option.map_some],
      hspec, hr.set local_sound (own_eq hv ▸ hch) ?_, rfl⟩
    exact ⟨hx'.cut hroom.1 (hroom.1.trans hroom.2), hroom.2⟩
  | clear v =>
    obtain ⟨x, hv⟩ := ha
    refine ⟨s.set v (x.clear, s.heap), _, by rw [Store.exec, hv, Option.map_some], .clear,
      hr.set local_sound (Blocks.Changes.refl s.heap (s.own v)).null
        ⟨Vector.holds_empty _, Nat.zero_le _⟩, rfl⟩

abbrev Reached (E : ElemType) (ops : List (Op α)) (s : Store α) : Prop :=
  Trace (· = init) (fun s op t => ∃ m, Step E m s op t) ops s

abbrev ReachedOrderly (E : ElemType) (ops : List (Op α)) (s : Store α) : Prop :=
  Trace (· = init) (fun s op t => ∃ m, Step E m s op t ∧ s.Orderly E m op) ops s

/-- The lists that operations lead to from none. -/
abbrev Lists (ops : List (Op α)) (L : ℕ → Option (List α)) : Prop :=
  Trace (· = fun _ => none) Spec ops L

/-- In a program whose operations meet the condition no access goes wrong, each vector has at least
as much room as it believes and a buffer that is allocated, and its elements are those of the list.
-/
theorem vector_invariant {ops : List (Op α)} (h : ReachedOrderly E ops s) :
    s.faulted = false ∧ ∃ L, Lists ops L ∧ (∀ v, s.vector v = none → L v = none) ∧
      ∀ v x, s.vector v = some x → x.size_ ≤ x.capacity_ ∧ x.capacity_ ≤ x.allocated s.heap ∧
        s.heap.Live x.buffer_ ∧ L v = some ((s.heap.cells x.buffer_).take x.size_) := by
  have hsim : ∃ L, Lists ops L ∧ s.faulted = false ∧ Rel Sound s L := by
    refine h.simulates (R := fun s L => s.faulted = false ∧ Rel Sound s L) ?_ ?_
    · rintro _ rfl
      exact ⟨_, rfl, rfl, Rel.init⟩
    · rintro s op t L ⟨m, hst, ho⟩ ⟨hf, hr⟩
      have ha : s.Applies op := by cases hst <;> assumption
      obtain ⟨t', L', heq, hspec, hr', hf'⟩ := hr.exec ha ho
      cases hst with
      | run _ ht =>
        obtain rfl := Option.some.inj (heq.symm.trans ht)
        exact ⟨L', hspec, hf'.trans hf, hr'⟩
      | fault _ ht => simp [heq] at ht
  obtain ⟨L, hL, hf, hr⟩ := hsim
  refine ⟨hf, L, hL, hr.absent, fun v x hv => ?_⟩
  obtain ⟨l, hl, hx, hcap⟩ := hr.present v x hv
  exact ⟨hx.le, hcap, hx.live, by rw [hl, hx.take]⟩

/-- A heap that has the memory. -/
def answer : Answer ℕ := ⟨true, fun _ => 0⟩

/-- A full vector is copied, and the copy grows. -/
theorem vector_invariant_copy : ∃ (s : Store ℕ) (x : Vector), s.vector 1 = some x ∧
    x.capacity_ = 8 ∧ x.capacity_ ≤ x.allocated s.heap ∧
    (s.heap.cells x.buffer_).take x.size_ = [7, 7, 5] := by
  have h₁ : ReachedOrderly .char ([] ++ [.constructFill 0 2 7]) _ :=
    .step (.start rfl) ⟨answer, .run rfl rfl,
      ⟨fun n hn => Option.some.inj hn ▸ ⟨by decide, rfl⟩, by simp, by simp, by simp⟩⟩
  have h₂ : ReachedOrderly .char ([.constructFill 0 2 7] ++ [.constructCopy 1 0]) _ :=
    .step h₁ ⟨answer, .run ⟨rfl, _, rfl⟩ rfl,
      ⟨fun n hn => Option.some.inj hn ▸ ⟨by decide, rfl⟩, fun v w y hop hw => by
        obtain ⟨rfl, rfl⟩ : 1 = v ∧ 0 = w := by simpa using hop
        rw [← Option.some.inj hw], by simp, by simp⟩⟩
  have h₃ : ReachedOrderly .char
      ([.constructFill 0 2 7] ++ [.constructCopy 1 0] ++ [.pushBack 1 5]) _ :=
    .step h₂ ⟨answer, .run ⟨_, rfl⟩ rfl,
      ⟨fun n hn => Option.some.inj hn ▸ ⟨by decide, rfl⟩, by simp, by simp, by simp⟩⟩
  obtain ⟨-, L, hL, -, hall⟩ := vector_invariant h₃
  obtain ⟨-, hcap, -, -⟩ := hall 1 _ rfl
  exact ⟨_, _, rfl, rfl, hcap, rfl⟩

/-- A vector with one element has room for eight. The copy has room for one and believes to have room for
eight, and the next `push_back` writes behind the buffer. -/
theorem copy_overruns : ∃ (s t : Store ℕ) (x : Vector),
    Reached .char [.construct 0, .pushBack 0 7, .constructCopy 1 0] s ∧
    s.vector 1 = some x ∧ x.capacity_ = 8 ∧ x.allocated s.heap = 1 ∧
    Step .char answer s (.pushBack 1 9) t ∧ t.faulted = true := by
  have h₁ : Reached .char ([] ++ [.construct 0]) _ := .step (.start rfl) ⟨answer, .run rfl rfl⟩
  have h₂ : Reached .char ([.construct 0] ++ [.pushBack 0 7]) _ :=
    .step h₁ ⟨answer, .run ⟨_, rfl⟩ rfl⟩
  have h₃ : Reached .char ([.construct 0] ++ [.pushBack 0 7] ++ [.constructCopy 1 0]) _ :=
    .step h₂ ⟨answer, .run ⟨rfl, _, rfl⟩ rfl⟩
  exact ⟨_, _, _, h₃, rfl, rfl, rfl, .fault ⟨_, rfl⟩ rfl, rfl⟩

end Store

end OrangeOs.Lib
