import OrangeOs.Lib.StringPP

/-! # Programs with strings

Any number of strings on one heap. `lib::string` refines the list of characters as long as `substr`
starts at the beginning, and no string that has been copied is taken to have the room of its
original.
-/

namespace OrangeOs.Lib

namespace StringPP

/-- A C string: a literal, or what `c_str` of a string returns. -/
inductive Text where
  | literal (s : List UInt8)
  | cStr (w : ℕ)
  deriving DecidableEq

inductive Op where
  | construct (v : ℕ)
  | constructStr (v : ℕ) (str : Text)
  | constructCopy (v w : ℕ)
  | destruct (v : ℕ)
  | assign (v w : ℕ)
  | append (v w : ℕ)
  | appendStr (v : ℕ) (str : Text)
  | appendChar (v : ℕ) (c : UInt8)
  | plus (v w u : ℕ)
  | plusStr (v w : ℕ) (str : Text)
  | cStr (v : ℕ)
  | substr (v w pos len : ℕ)

/-- Calls `c_str` for an argument, and goes on with the pointer. -/
def withText (m : ℕ → Answer UInt8) (s : Store UInt8) (str : Text)
    (next : CStr → Store UInt8 → Option (Store UInt8)) : Option (Store UInt8) :=
  match str with
  | .literal cs => next (.literal cs) s
  | .cStr w => (s.vector w).bind fun y => (StringPP.cStr m y s.heap).bind fun r =>
    next (.front r.1.buffer_) (s.set w r)

/-- What an operation does. The results of `plus`, `plusStr` and `substr` are new strings. -/
def exec (m : ℕ → Answer UInt8) (s : Store UInt8) : Op → Option (Store UInt8)
  | .construct v => some (s.set v (.empty, s.heap))
  | .constructStr v str => withText m s str fun c s =>
    (StringPP.construct m c s.heap).map (s.set v)
  | .constructCopy v w =>
    (s.vector w).bind fun y => (StringPP.constructCopy m y s.heap).map (s.set v)
  | .destruct v => (s.vector v).bind fun x => (s.heap.delete x.buffer_).map (s.erase v)
  | .assign v w => (s.vector v).bind fun x => (s.vector w).bind fun y =>
    (x.assign .char (m s.heap.next) y (v = w) s.heap).map (s.set v)
  | .append v w => (s.vector v).bind fun x => (s.vector w).bind fun y =>
    (StringPP.append m x y (v = w) s.heap).map (s.set v)
  | .appendStr v str => withText m s str fun c s => (s.vector v).bind fun x =>
    (StringPP.appendStr m x c s.heap).map (s.set v)
  | .appendChar v c =>
    (s.vector v).bind fun x => (StringPP.appendChar m x c s.heap).map (s.set v)
  | .plus v w u => (s.vector w).bind fun x => (s.vector u).bind fun y =>
    (StringPP.plus m x y s.heap).map (s.set v)
  | .plusStr v w str => withText m s str fun c s => (s.vector w).bind fun x =>
    (StringPP.plusStr m x c s.heap).map (s.set v)
  | .cStr v => (s.vector v).bind fun x => (StringPP.cStr m x s.heap).map (s.set v)
  | .substr v w pos len =>
    (s.vector w).bind fun x => (StringPP.substr m x pos len s.heap).map (s.set v)

/-- The strings that a C string needs. -/
def Text.Exists (s : Store UInt8) : Text → Prop
  | literal _ => True
  | cStr w => ∃ y, s.vector w = some y

/-- An operation is on strings that exist, and its result is a new one. -/
def Applies (s : Store UInt8) : Op → Prop
  | .construct v => s.vector v = none
  | .constructStr v str => s.vector v = none ∧ str.Exists s
  | .constructCopy v w => s.vector v = none ∧ ∃ y, s.vector w = some y
  | .destruct v => ∃ x, s.vector v = some x
  | .assign v w => (∃ x, s.vector v = some x) ∧ ∃ y, s.vector w = some y
  | .append v w => (∃ x, s.vector v = some x) ∧ ∃ y, s.vector w = some y
  | .appendStr v str => (∃ x, s.vector v = some x) ∧ str.Exists s
  | .appendChar v _ => ∃ x, s.vector v = some x
  | .plus v w u => s.vector v = none ∧ (∃ x, s.vector w = some x) ∧ ∃ y, s.vector u = some y
  | .plusStr v w str => s.vector v = none ∧ (∃ x, s.vector w = some x) ∧ str.Exists s
  | .cStr v => ∃ x, s.vector v = some x
  | .substr v w pos len =>
    s.vector v = none ∧ len < 2 ^ 64 ∧ ∃ x, s.vector w = some x ∧ pos ≤ x.size_

inductive Step (m : ℕ → Answer UInt8) (s : Store UInt8) (op : Op) : Store UInt8 → Prop
  | run {t : Store UInt8} : Applies s op → exec m s op = some t → Step m s op t
  | fault : Applies s op → exec m s op = none → Step m s op { s with faulted := true }

/-! ## The condition -/

/-- The characters of a string. -/
def chars (s : Store UInt8) (v : ℕ) : List UInt8 :=
  ((s.vector v).map fun x => (s.heap.cells x.buffer_).take x.size_).getD []

/-- The characters of a C string. -/
def Text.chars (s : Store UInt8) : Text → List UInt8
  | literal cs => cs.takeWhile (· ≠ 0)
  | cStr w => (StringPP.chars s w).takeWhile (· ≠ 0)

/-- The room of a string for `n` more characters is what it believes. -/
def HasRoom (s : Store UInt8) (v n : ℕ) : Prop := ∀ x, s.vector v = some x → Room s.heap x n

def Text.Ready (s : Store UInt8) : Text → Prop
  | literal _ => True
  | cStr w => HasRoom s w 1

/-- The capacity of a string when `c_str` may have been called for the argument. -/
def Text.capacity (str : Text) (w : ℕ) (x : Vector) : ℕ :=
  if str = cStr w then max x.capacity_ (x.size_ + 1) else x.capacity_

/-- A copy of a string with this capacity and size can take `n` more characters. -/
def Grows (capacity size n : ℕ) : Prop :=
  (n = 0 ∨ capacity < size + n) ∧ (capacity < size + n → size + n < 2 ^ 32)

def Meets (s : Store UInt8) : Op → Prop
  | .construct _ | .constructCopy _ _ | .destruct _ => True
  | .constructStr _ str => str.Ready s ∧ (str.chars s).length ≤ 2 ^ 31
  | .assign v w => v = w → chars s v = []
  | .append v w => HasRoom s v (chars s w).length
  | .appendStr v str =>
    str.Ready s ∧ (str = .cStr v → chars s v = []) ∧ HasRoom s v (str.chars s).length
  | .appendChar v _ => ∀ x, s.vector v = some x →
    (x.capacity_ ≤ x.size_ → 2 * x.capacity_ < 2 ^ 32) ∧
      (x.size_ < x.capacity_ → x.size_ < x.allocated s.heap)
  | .plus _ w u => ∀ x, s.vector w = some x → Grows x.capacity_ x.size_ (chars s u).length
  | .plusStr _ w str => str.Ready s ∧ ∀ x, s.vector w = some x →
    Grows (str.capacity w x) x.size_ (str.chars s).length
  | .cStr v => HasRoom s v 1
  | .substr _ w pos len => ∀ x, s.vector w = some x →
    (pos = 0 ∨ len = 0 ∨ pos = x.size_ ∧ len + pos < 2 ^ 64) ∧ min len (x.size_ - pos) ≤ 2 ^ 31

/-- The condition on operations; the heap has the memory. -/
structure Orderly (m : ℕ → Answer UInt8) (s : Store UInt8) (op : Op) : Prop where
  room : ∀ a, (m a).room = true
  meets : Meets s op

/-! ## Lists of characters -/

def Text.list (L : ℕ → Option (List UInt8)) : Text → List UInt8
  | literal cs => cs.takeWhile (· ≠ 0)
  | cStr w => ((L w).getD []).takeWhile (· ≠ 0)

/-- The operations on lists. -/
def spec (L : ℕ → Option (List UInt8)) : Op → ℕ → Option (List UInt8)
  | .construct v => Function.update L v (some [])
  | .constructStr v str => Function.update L v (some (str.list L))
  | .constructCopy v w => Function.update L v (L w)
  | .destruct v => Function.update L v none
  | .assign v w => Function.update L v (L w)
  | .append v w => Function.update L v ((L v).bind fun l => (L w).map (l ++ ·))
  | .appendStr v str => Function.update L v ((L v).map (· ++ str.list L))
  | .appendChar v c => Function.update L v ((L v).map (· ++ [c]))
  | .plus v w u => Function.update L v ((L w).bind fun l => (L u).map (l ++ ·))
  | .plusStr v w str => Function.update L v ((L w).map (· ++ str.list L))
  | .cStr _ => L
  | .substr v w pos len => Function.update L v ((L w).map fun l => (l.drop pos).take len)

/-- The lists that operations lead to from none. -/
def lists (ops : List Op) : ℕ → Option (List UInt8) := ops.foldl spec fun _ => none

/-! ## Strings are lists -/

variable {m : ℕ → Answer UInt8} {s t : Store UInt8} {L : ℕ → Option (List UInt8)} {op : Op} {str : Text}
  {v w : ℕ} {x x' : Vector} {h : Blocks UInt8} {l : List UInt8} {ops : List Op}

/-- The strings hold the lists. -/
abbrev Rel (s : Store UInt8) (L : ℕ → Option (List UInt8)) : Prop := s.Rel Vector.Holds L

theorem local_holds : Store.Local (@Vector.Holds UInt8) :=
  fun _ _ _ _ he hx => hx.congr he

theorem chars_eq (hv : s.vector v = some x) (hx : x.Holds s.heap l) : chars s v = l := by
  rw [chars, hv, Option.map_some, Option.getD_some, hx.take]

namespace Rel

theorem init : Rel Store.init fun _ => none := Store.Rel.init

/-- An operation on a string that exists. -/
theorem put (hr : Rel s L) (hv : s.vector v = some x) (hx : x'.Holds h l)
    (hch : s.heap.Changes x.buffer_ h x'.buffer_) :
    Rel (s.set v (x', h)) (Function.update L v (some l)) :=
  Store.Rel.set local_holds hr (Store.own_eq hv ▸ hch) hx

/-- An operation whose result is a new string. -/
theorem build (hr : Rel s L) (hv : s.vector v = none) (hx : x'.Holds h l)
    (hch : s.heap.Changes none h x'.buffer_) :
    Rel (s.set v (x', h)) (Function.update L v (some l)) :=
  Store.Rel.set local_holds hr (Store.own_none hv ▸ hch) hx

theorem has_chars (hr : Rel s L) (hv : s.vector v = some x) :
    ∃ l, L v = some l ∧ x.Holds s.heap l ∧ chars s v = l := by
  obtain ⟨l, hl, hx⟩ := hr.present v x hv
  exact ⟨l, hl, hx, chars_eq hv hx⟩

theorem text_chars (hr : Rel s L) (he : str.Exists s) : str.chars s = str.list L := by
  cases str with
  | literal cs => rfl
  | cStr w =>
    obtain ⟨y, hw⟩ := he
    obtain ⟨l, hl, -, hc⟩ := hr.has_chars hw
    rw [Text.chars, Text.list, hc, hl, Option.getD_some]

end Rel

/-- The C string `c` that an operation is given, and the strings that it finds then. -/
structure Given (m : ℕ → Answer UInt8) (s s' : Store UInt8) (L : ℕ → Option (List UInt8)) (str : Text)
    (c : CStr) : Prop where
  next : ∀ next, withText m s str next = next c s'
  rel : Rel s' L
  faulted : s'.faulted = s.faulted
  text : c.text s'.heap = str.list L
  zero : 0 ∈ c.cells s'.heap
  fresh : c.Outside s'.heap .empty
  absent : ∀ v, s.vector v = none → s'.vector v = none
  present : ∀ v x, s.vector v = some x → ∃ x', s'.vector v = some x' ∧ x'.size_ = x.size_ ∧
    x'.capacity_ = str.capacity v x
  same : ∀ v x, s.vector v = some x → str ≠ .cStr v → s'.vector v = some x ∧
    x.allocated s'.heap = x.allocated s.heap ∧ c.Outside s'.heap x

theorem Rel.given (hr : Rel s L) (hm : ∀ a, (m a).room = true) (he : str.Exists s)
    (hready : str.Ready s) : ∃ c s', Given m s s' L str c := by
  cases str with
  | literal cs =>
    have hcells : cs ++ [0] <+: (CStr.literal cs).cells s.heap := List.prefix_refl _
    obtain ⟨htext, h0⟩ := CStr.text_eq hcells
    exact ⟨.literal cs, s, fun _ => rfl, hr, rfl, htext, h0, trivial, fun _ => id,
      fun v x hv => ⟨x, hv, rfl, rfl⟩, fun v x hv _ => ⟨hv, rfl, trivial⟩⟩
  | cStr w =>
    obtain ⟨y, hw⟩ := he
    obtain ⟨k, hk, hy⟩ := hr.present w y hw
    obtain ⟨y', h', heq, hy', hch, hcap, hnul⟩ := cStr_eq (hready y hw) hy (hr.old w y hw) hm
    have hcells : k ++ [0] <+: (CStr.front y'.buffer_).cells h' := hnul ▸ List.take_prefix ..
    obtain ⟨htext, h0⟩ := CStr.text_eq hcells
    have hrel := hr.put hw hy' hch
    rw [← hk, Function.update_eq_self] at hrel
    have hself : (s.set w (y', h')).vector w = some y' := Function.update_self ..
    have hother : ∀ v, v ≠ w → (s.set w (y', h')).vector v = s.vector v := fun v hv =>
      Function.update_of_ne hv ..
    refine ⟨.front y'.buffer_, s.set w (y', h'), fun next => ?_, hrel, rfl, ?_, h0, ?_, fun v hv => ?_,
      fun v x hv => ?_, fun v x hv hne => ?_⟩
    · rw [withText, hw, Option.bind_some, heq, Option.bind_some]
    · rw [Text.list, hk, Option.getD_some]
      exact htext
    · exact ⟨hy'.live, fun b hb => ⟨hrel.old w y' hself b hb, by simp [Vector.empty]⟩⟩
    · have hvw : v ≠ w := by
        rintro rfl
        simp [hw] at hv
      rw [hother v hvw, hv]
    · by_cases hvw : v = w
      · subst hvw
        obtain rfl := Option.some.inj (hw.symm.trans hv)
        refine ⟨y', hself, hy'.size.trans hy.size.symm, ?_⟩
        rw [hcap, Text.capacity, if_pos rfl]
      · refine ⟨x, (hother v hvw).trans hv, rfl, ?_⟩
        rw [Text.capacity, if_neg fun heq => hvw (Text.cStr.inj heq).symm]
    · have hvw : v ≠ w := fun he => hne (by rw [he])
      have hv' := (hother v hvw).trans hv
      refine ⟨hv', ?_, hy'.live, fun b hb => ⟨hrel.old w y' hself b hb, ?_⟩⟩
      · rw [Vector.allocated, Vector.allocated,
          Blocks.cells_congr (hr.other (Store.own_eq hw ▸ hch) hvw hv)]
      · exact hrel.apart w v y' x hvw.symm hself hv' b hb

/-- The string has the room for characters also when `c_str` has been called for them. -/
theorem Given.room {s' : Store UInt8} {c : CStr} {n : ℕ} (hg : Given m s s' L str c)
    (hv : s.vector v = some x) (hne : str ≠ .cStr v) (hr : HasRoom s v n) : Room s'.heap x n := by
  obtain ⟨-, halloc, -⟩ := hg.same v x hv hne
  obtain ⟨hfits, hstay⟩ := hr x hv
  exact ⟨hfits, fun hle => halloc ▸ hstay hle⟩

/-- An operation that meets the condition does what it does on lists. -/
theorem Rel.exec (hr : Rel s L) (ha : Applies s op) (ho : Orderly m s op) :
    ∃ t, StringPP.exec m s op = some t ∧ Rel t (spec L op) ∧ t.faulted = s.faulted := by
  have hm := ho.room
  have hmeets := ho.meets
  cases op with
  | construct v => exact ⟨_, rfl, hr.build ha (Vector.holds_empty _) (.refl s.heap none), rfl⟩
  | constructStr v str =>
    obtain ⟨hv, he⟩ := ha
    obtain ⟨hready, hlen⟩ := hmeets
    obtain ⟨c, s', hg⟩ := hr.given hm he hready
    rw [hr.text_chars he, ← hg.text] at hlen
    obtain ⟨x', h', heq, hx', hch⟩ := construct_eq hm hg.fresh hg.zero hlen
    refine ⟨s'.set v (x', h'), ?_, ?_, hg.faulted⟩
    · rw [StringPP.exec, hg.next, heq, Option.map_some]
    · rw [spec, ← hg.text]
      exact hg.rel.build (hg.absent v hv) hx' hch
  | constructCopy v w =>
    obtain ⟨hv, y, hw⟩ := ha
    obtain ⟨k, hk, hy⟩ := hr.present w y hw
    obtain ⟨x', h', heq, hx', hch, -, -⟩ := constructCopy_eq hy (hr.old w y hw) hm
    refine ⟨s.set v (x', h'), ?_, ?_, rfl⟩
    · rw [StringPP.exec, hw, Option.bind_some, heq, Option.map_some]
    · rw [spec, hk]
      exact hr.build hv hx' hch
  | destruct v =>
    obtain ⟨x, hv⟩ := ha
    obtain ⟨l, -, hx⟩ := hr.present v x hv
    obtain ⟨h', hdel, hnext, hother, hfree⟩ := hx.live.delete
    refine ⟨s.erase v h', ?_, Store.Rel.erase local_holds hr ?_, rfl⟩
    · rw [StringPP.exec, hv, Option.bind_some, hdel, Option.map_some]
    · exact Store.own_eq hv ▸
        ((Blocks.Changes.refl s.heap x.buffer_).free hnext hother hfree).null
  | assign v w =>
    obtain ⟨⟨x, hv⟩, y, hw⟩ := ha
    obtain ⟨l, -, hx⟩ := hr.present v x hv
    obtain ⟨k, hk, hy⟩ := hr.present w y hw
    have hres : ∃ x' h', x.assign .char (m s.heap.next) y (decide (v = w)) s.heap = some (x', h') ∧
        x'.Holds h' k ∧ s.heap.Changes x.buffer_ h' x'.buffer_ := by
      by_cases hvw : v = w
      · subst hvw
        obtain rfl := Option.some.inj (hv.symm.trans hw)
        obtain rfl : k = [] := (chars_eq hv hy).symm.trans (hmeets rfl)
        obtain ⟨x', h', heq, hx', hch, -⟩ := Vector.assign_self hy
          (ElemType.fits_char.mpr (by decide)) (hm s.heap.next)
        exact ⟨x', h', by simpa using heq, hx', hch⟩
      · obtain ⟨x', h', heq, hx', hch, -, -⟩ := Vector.assign_eq hx hy (hr.old w y hw)
          (fun b => hr.apart v w x y hvw hv hw b)
          (ElemType.fits_char.mpr (hy.le_allocated.trans_lt hy.lt)) (hm s.heap.next)
        exact ⟨x', h', by simpa [hvw] using heq, hx', hch⟩
    obtain ⟨x', h', heq, hx', hch⟩ := hres
    refine ⟨s.set v (x', h'), ?_, ?_, rfl⟩
    · rw [StringPP.exec, hv, Option.bind_some, hw, Option.bind_some, heq, Option.map_some]
    · rw [spec, hk]
      exact hr.put hv hx' hch
  | append v w =>
    obtain ⟨⟨x, hv⟩, y, hw⟩ := ha
    obtain ⟨l, hl, hx⟩ := hr.present v x hv
    obtain ⟨k, hk, hy⟩ := hr.present w y hw
    have hroom := hmeets x hv
    rw [chars_eq hw hy, ← hy.size] at hroom
    have hres : ∃ x' h', StringPP.append m x y (decide (v = w)) s.heap = some (x', h') ∧
        x'.Holds h' (l ++ k) ∧ s.heap.Changes x.buffer_ h' x'.buffer_ := by
      by_cases hvw : v = w
      · subst hvw
        obtain rfl := Option.some.inj (hv.symm.trans hw)
        obtain rfl := Option.some.inj (hl.symm.trans hk)
        simpa using append_self hroom hx (hr.old v x hv) hm
      · simpa [hvw] using append_eq hroom hx (hr.old v x hv) hy (hr.old w y hw)
          (fun b => hr.apart w v y x (Ne.symm hvw) hw hv b) hm
    obtain ⟨x', h', heq, hx', hch⟩ := hres
    refine ⟨s.set v (x', h'), ?_, ?_, rfl⟩
    · rw [StringPP.exec, hv, Option.bind_some, hw, Option.bind_some, heq, Option.map_some]
    · rw [spec, hl, hk]
      exact hr.put hv hx' hch
  | appendStr v str =>
    obtain ⟨⟨x, hv⟩, he⟩ := ha
    obtain ⟨hready, hown, hroom⟩ := hmeets
    obtain ⟨c, s', hg⟩ := hr.given hm he hready
    rw [hr.text_chars he, ← hg.text] at hroom
    obtain ⟨x₀, hv₀, -, -⟩ := hg.present v x hv
    obtain ⟨l, hl, hx₀⟩ := hg.rel.present v x₀ hv₀
    have hold := hg.rel.old v x₀ hv₀
    have hres : ∃ x' h', StringPP.appendStr m x₀ c s'.heap = some (x', h') ∧
        x'.Holds h' (l ++ c.text s'.heap) ∧ s'.heap.Changes x₀.buffer_ h' x'.buffer_ := by
      by_cases hs : str = .cStr v
      · have hnil : c.text s'.heap = [] := by
          rw [hg.text, ← hr.text_chars he, hs, Text.chars, hown hs, List.takeWhile_nil]
        rw [hnil, List.append_nil]
        exact ⟨x₀, s'.heap, appendStr_nil hx₀ hold hnil hg.zero, hx₀, .refl ..⟩
      · obtain ⟨hv', -, hout⟩ := hg.same v x hv hs
        obtain rfl := Option.some.inj (hv'.symm.trans hv₀)
        exact appendStr_eq (hg.room hv hs hroom) hx₀ hold hout hg.zero hm
    obtain ⟨x', h', heq, hx', hch⟩ := hres
    refine ⟨s'.set v (x', h'), ?_, ?_, hg.faulted⟩
    · rw [StringPP.exec, hg.next, hv₀, Option.bind_some, heq, Option.map_some]
    · rw [spec, hl, Option.map_some, ← hg.text]
      exact hg.rel.put hv₀ hx' hch
  | appendChar v ch =>
    obtain ⟨x, hv⟩ := ha
    obtain ⟨l, hl, hx⟩ := hr.present v x hv
    obtain ⟨hfits, hstay⟩ := hmeets x hv
    obtain ⟨x', h', heq, hx', hch⟩ := appendChar_eq (c := ch) hx (hr.old v x hv) hfits hstay hm
    refine ⟨s.set v (x', h'), ?_, ?_, rfl⟩
    · rw [StringPP.exec, hv, Option.bind_some, heq, Option.map_some]
    · rw [spec, hl, Option.map_some]
      exact hr.put hv hx' hch
  | plus v w u =>
    obtain ⟨hv, ⟨x, hw⟩, y, hu⟩ := ha
    obtain ⟨l, hl, hx⟩ := hr.present w x hw
    obtain ⟨k, hk, hy⟩ := hr.present u y hu
    have hgrows := hmeets x hw
    rw [chars_eq hu hy, ← hy.size] at hgrows
    obtain ⟨x', h', heq, hx', hch⟩ := plus_eq hx (hr.old w x hw) hy (hr.old u y hu) hgrows.1 hgrows.2 hm
    refine ⟨s.set v (x', h'), ?_, ?_, rfl⟩
    · rw [StringPP.exec, hw, Option.bind_some, hu, Option.bind_some, heq, Option.map_some]
    · rw [spec, hl, hk]
      exact hr.build hv hx' hch
  | plusStr v w str =>
    obtain ⟨hv, ⟨x, hw⟩, he⟩ := ha
    obtain ⟨hready, hgrows⟩ := hmeets
    obtain ⟨c, s', hg⟩ := hr.given hm he hready
    obtain ⟨x₀, hw₀, hsize, hcap⟩ := hg.present w x hw
    obtain ⟨l, hl, hx₀⟩ := hg.rel.present w x₀ hw₀
    have hgrow := hgrows x hw
    rw [hr.text_chars he, ← hg.text, ← hsize, ← hcap] at hgrow
    obtain ⟨x', h', heq, hx', hch⟩ := plusStr_eq hx₀ (hg.rel.old w x₀ hw₀) hg.fresh hg.zero hgrow.1
      hgrow.2 hm
    refine ⟨s'.set v (x', h'), ?_, ?_, hg.faulted⟩
    · rw [StringPP.exec, hg.next, hw₀, Option.bind_some, heq, Option.map_some]
    · rw [spec, hl, Option.map_some, ← hg.text]
      exact hg.rel.build (hg.absent v hv) hx' hch
  | cStr v =>
    obtain ⟨x, hv⟩ := ha
    obtain ⟨l, hl, hx⟩ := hr.present v x hv
    obtain ⟨x', h', heq, hx', hch, -, -⟩ := cStr_eq (hmeets x hv) hx (hr.old v x hv) hm
    refine ⟨s.set v (x', h'), ?_, ?_, rfl⟩
    · rw [StringPP.exec, hv, Option.bind_some, heq, Option.map_some]
    · have hrel := hr.put hv hx' hch
      rwa [← hl, Function.update_eq_self] at hrel
  | substr v w pos len =>
    obtain ⟨hv, hbound, x, hw, hpos⟩ := ha
    obtain ⟨l, hl, hx⟩ := hr.present w x hw
    obtain ⟨hfrom, hlen⟩ := hmeets x hw
    obtain ⟨x', h', heq, hx', hch⟩ := substr_eq hx (hr.old w x hw) hm hpos hbound hfrom hlen
    refine ⟨s.set v (x', h'), ?_, ?_, rfl⟩
    · rw [StringPP.exec, hw, Option.bind_some, heq, Option.map_some]
    · rw [spec, hl, Option.map_some]
      exact hr.build hv hx' hch

/-- The NUL that `c_str` puts behind the characters. -/
theorem Rel.cStr_nul (hr : Rel s L) (ho : Orderly m s (.cStr v)) (hst : Step m s (.cStr v) t) :
    ∃ x l, t.vector v = some x ∧ L v = some l ∧
      (t.heap.cells x.buffer_).take (l.length + 1) = l ++ [0] := by
  obtain ⟨x, hv⟩ : ∃ x, s.vector v = some x := by cases hst <;> assumption
  obtain ⟨l, hl, hx⟩ := hr.present v x hv
  obtain ⟨x', h', heq, hx', -, -, hnul⟩ := cStr_eq (ho.meets x hv) hx (hr.old v x hv) ho.room
  have hexec : StringPP.exec m s (.cStr v) = some (s.set v (x', h')) := by
    rw [StringPP.exec, hv, Option.bind_some, heq, Option.map_some]
  cases hst with
  | run _ ht =>
    obtain rfl := Option.some.inj (hexec.symm.trans ht)
    exact ⟨x', l, Function.update_self .., hl, hx'.size ▸ hnul⟩
  | fault _ ht => simp [hexec] at ht

theorem Rel.step (hr : Rel s L) (ho : Orderly m s op) (hst : Step m s op t) :
    Rel t (spec L op) ∧ t.faulted = s.faulted := by
  have ha : Applies s op := by cases hst <;> assumption
  obtain ⟨t', heq, hr', hf⟩ := hr.exec ha ho
  cases hst with
  | run _ ht =>
    obtain rfl := Option.some.inj (heq.symm.trans ht)
    exact ⟨hr', hf⟩
  | fault _ ht => simp [heq] at ht

abbrev Reached (ops : List Op) (s : Store UInt8) : Prop :=
  Trace (· = Store.init) (fun s op t => ∃ m, Step m s op t) ops s

abbrev ReachedOrderly (ops : List Op) (s : Store UInt8) : Prop :=
  Trace (· = Store.init) (fun s op t => ∃ m, Step m s op t ∧ Orderly m s op) ops s

theorem ReachedOrderly.rel (h : ReachedOrderly ops s) : Rel s (lists ops) ∧ s.faulted = false := by
  induction h with
  | start hs =>
    subst hs
    exact ⟨Rel.init, rfl⟩
  | step _ hst ih =>
    obtain ⟨m, hst, ho⟩ := hst
    obtain ⟨hr, hf⟩ := ih
    obtain ⟨hr', hf'⟩ := hr.step ho hst
    refine ⟨?_, hf'.trans hf⟩
    rw [lists, List.foldl_append]
    exact hr'

/-- In a program whose operations meet the condition no access goes wrong, each string has the
characters of its list, and `c_str` leaves them with a NUL behind them. -/
theorem string_refines_list (h : ReachedOrderly ops s) :
    s.faulted = false ∧ (∀ v, s.vector v = none → lists ops v = none) ∧
      (∀ v x, s.vector v = some x → lists ops v = some (chars s v)) ∧
      ∀ m v t, Orderly m s (.cStr v) → Step m s (.cStr v) t → ∃ x l, t.vector v = some x ∧
        lists ops v = some l ∧ (t.heap.cells x.buffer_).take (l.length + 1) = l ++ [0] ∧
        chars t v = l := by
  obtain ⟨hr, hf⟩ := h.rel
  refine ⟨hf, hr.absent, fun v x hv => ?_, fun m v t ho hst => ?_⟩
  · obtain ⟨l, hl, -, hc⟩ := hr.has_chars hv
    rw [hl, hc]
  · obtain ⟨x, l, hv, hl, hnul⟩ := hr.cStr_nul ho hst
    obtain ⟨l', hl', -, hc⟩ := (hr.step ho hst).1.has_chars hv
    obtain rfl := Option.some.inj (hl.symm.trans hl')
    exact ⟨x, l, hv, hl, hnul, hc⟩

/-- A heap that has the memory. -/
def answer : ℕ → Answer UInt8 := fun _ => ⟨true, fun _ => 0⟩

/-- A string is appended to itself. -/
theorem string_refines_list_self : ∃ s x, s.vector 0 = some x ∧ x.size_ = 4 ∧
    chars s 0 = [97, 98, 97, 98] ∧ chars s 1 = [97, 98, 97] := by
  have h₁ : ReachedOrderly ([] ++ [.constructStr 0 (.literal [97, 98])]) _ :=
    .step (.start rfl) ⟨answer, .run ⟨rfl, trivial⟩ rfl, fun _ => rfl, trivial, by decide⟩
  have h₂ : ReachedOrderly ([.constructStr 0 (.literal [97, 98])] ++ [.append 0 0]) _ :=
    .step h₁ ⟨answer, .run ⟨⟨_, rfl⟩, _, rfl⟩ rfl, fun _ => rfl, fun x hx => by
      obtain rfl := Option.some.inj hx
      exact ⟨fun hlt => absurd hlt (by decide), fun _ => by decide⟩⟩
  have h₃ : ReachedOrderly ([.constructStr 0 (.literal [97, 98]), .append 0 0] ++
      [.substr 1 0 0 3]) _ :=
    .step h₂ ⟨answer, .run ⟨rfl, by decide, _, rfl, by decide⟩ rfl, fun _ => rfl, fun x hx => by
      obtain rfl := Option.some.inj hx
      exact ⟨.inl rfl, by decide⟩⟩
  obtain ⟨-, -, hchars, -⟩ := string_refines_list h₃
  exact ⟨_, _, rfl, rfl, (Option.some.inj (hchars 0 _ rfl)).symm,
    (Option.some.inj (hchars 1 _ rfl)).symm⟩

/-- The characters 1 and 2 of a string of three are not both in the substring. -/
theorem substr_loses : ∃ s, Reached [.constructStr 0 (.literal [97, 98, 99]), .substr 1 0 1 2] s ∧
    lists [.constructStr 0 (.literal [97, 98, 99]), .substr 1 0 1 2] 1 = some [98, 99] ∧
    chars s 1 = [98] := by
  have h₁ : Reached ([] ++ [.constructStr 0 (.literal [97, 98, 99])]) _ :=
    .step (.start rfl) ⟨answer, .run ⟨rfl, trivial⟩ rfl⟩
  have h₂ : Reached ([.constructStr 0 (.literal [97, 98, 99])] ++ [.substr 1 0 1 2]) _ :=
    .step h₁ ⟨answer, .run ⟨rfl, by decide, _, rfl, by decide⟩ rfl⟩
  exact ⟨_, h₂, rfl, rfl⟩

end StringPP

end OrangeOs.Lib
