import OrangeOs.Lib.VectorStore

/-! # `lib::string`

The operations of `lib/stringpp.cc`. A string is its `vector<char>`; an operation can allocate
several times, and `m` is what the heap does each time, by the name of the next block. It has no
result when an access goes wrong or the process exits. `substr` and `operator+` build their result
in its place.
-/

namespace OrangeOs.Lib

namespace StringPP

/-- A parameter `const char*`: the characters of a literal, or a pointer to the front of a block. -/
inductive CStr where
  | literal (s : List UInt8)
  | front (p : Option ℕ)

/-- The memory from the pointer on. -/
def CStr.cells (h : Blocks UInt8) : CStr → List UInt8
  | literal s => s ++ [0]
  | front p => h.cells p

/-- The reference that `*str` is when the pointer has gone `i` characters further. -/
def CStr.ref (i : ℕ) (c : UInt8) : CStr → Ref UInt8
  | literal _ => .value c
  | front p => .element p i

/-- `strlen`, without result if it leaves the block. -/
def CStr.strlen (h : Blocks UInt8) (c : CStr) : Option ℕ := (c.cells h).findIdx? (· = 0)

/-- The loop `while (*str) { push_back(*str); ++str; }` from character `i` on. It takes no more
steps than the block has characters. -/
def pushStr (m : ℕ → Answer UInt8) (c : CStr) : ℕ → ℕ → Vector → Blocks UInt8 →
    Option (Vector × Blocks UInt8)
  | 0, _, _, _ => none
  | fuel + 1, i, x, h =>
    (c.cells h)[i]?.bind fun ch =>
      if ch = 0 then some (x, h)
      else (x.pushBack .char (m h.next) (c.ref i ch) h).bind fun r =>
        pushStr m c fuel (i + 1) r.1 r.2

/-- The loop over the `n` characters at `p` of another string or of this one. -/
def pushRange (m : ℕ → Answer UInt8) (p : Option ℕ) : ℕ → Vector → Blocks UInt8 →
    Option (Vector × Blocks UInt8)
  | 0, x, h => some (x, h)
  | n + 1, x, h => (pushRange m p n x h).bind fun r =>
    r.1.pushBack .char (m r.2.next) (.element p n) r.2

def construct (m : ℕ → Answer UInt8) (str : CStr) (h : Blocks UInt8) :
    Option (Vector × Blocks UInt8) :=
  pushStr m str ((str.cells h).length + 1) 0 .empty h

def constructCopy (m : ℕ → Answer UInt8) (str : Vector) (h : Blocks UInt8) :
    Option (Vector × Blocks UInt8) :=
  Vector.empty.assign .char (m h.next) str false h

/-- `append(const string&)`; `self` says that the argument is the string itself. -/
def append (m : ℕ → Answer UInt8) (x str : Vector) (self : Bool) (h : Blocks UInt8) :
    Option (Vector × Blocks UInt8) :=
  (x.reserve .char (m h.next) ((x.size_ + str.size_) % 2 ^ 32) h).bind fun r =>
    pushRange m (if self then r.1 else str).buffer_ (if self then r.1 else str).size_ r.1 r.2

def appendStr (m : ℕ → Answer UInt8) (x : Vector) (str : CStr) (h : Blocks UInt8) :
    Option (Vector × Blocks UInt8) :=
  (str.strlen h).bind fun len =>
    (x.reserve .char (m h.next) ((x.size_ + len) % 2 ^ 32) h).bind fun r =>
      pushStr m str ((str.cells r.2).length + 1) 0 r.1 r.2

def appendChar (m : ℕ → Answer UInt8) (x : Vector) (c : UInt8) (h : Blocks UInt8) :
    Option (Vector × Blocks UInt8) :=
  x.pushBack .char (m h.next) (.value c) h

/-- `operator+` with a string; the arguments are not the result. -/
def plus (m : ℕ → Answer UInt8) (x str : Vector) (h : Blocks UInt8) :
    Option (Vector × Blocks UInt8) :=
  (constructCopy m x h).bind fun r => append m r.1 str false r.2

def plusStr (m : ℕ → Answer UInt8) (x : Vector) (str : CStr) (h : Blocks UInt8) :
    Option (Vector × Blocks UInt8) :=
  (constructCopy m x h).bind fun r => appendStr m r.1 str r.2

def cStr (m : ℕ → Answer UInt8) (x : Vector) (h : Blocks UInt8) : Option (Vector × Blocks UInt8) :=
  (x.reserve .char (m h.next) ((x.size_ + 1) % 2 ^ 32) h).bind fun r =>
    (r.2.store r.1.buffer_ r.1.size_ 0).map fun h => (r.1, h)

/-- `operator[]` of the vector, which exits when the index is out of range. -/
def at_ (x : Vector) (index : ℕ) (h : Blocks UInt8) : Option UInt8 :=
  if x.size_ ≤ index then none else h.load x.buffer_ index

/-- The loop of `substr` over `n` characters from `pos` on. -/
def slice (m : ℕ → Answer UInt8) (x : Vector) (pos : ℕ) : ℕ → Blocks UInt8 →
    Option (Vector × Blocks UInt8)
  | 0, h => some (.empty, h)
  | n + 1, h => (slice m x pos n h).bind fun r =>
    (at_ x ((pos + n) % 2 ^ 32) r.2).bind fun c => appendChar m r.1 c r.2

def substr (m : ℕ → Answer UInt8) (x : Vector) (pos len : ℕ) (h : Blocks UInt8) :
    Option (Vector × Blocks UInt8) :=
  slice m x pos
    ((if (len + pos) % 2 ^ 64 > x.size_ then (x.size_ + (2 ^ 64 - pos)) % 2 ^ 64 else len) - pos) h

/-! ## Room for characters -/

variable {m : ℕ → Answer UInt8} {h h' : Blocks UInt8} {x x' y : Vector} {l k cs : List UInt8}
  {c : UInt8} {n i j pos len fuel : ℕ} {p : Option ℕ} {str : CStr}

/-- `n` characters can be pushed one after the other: the vector has the room that it believes to
have for them, or it has all of it and grows. -/
structure Ready (h : Blocks UInt8) (x : Vector) (n : ℕ) : Prop where
  grow : x.capacity_ < x.size_ + n → x.capacity_ ≤ x.allocated h ∧ x.size_ + n ≤ 2 ^ 31
  stay : x.size_ + n ≤ x.capacity_ → x.size_ + n ≤ x.allocated h

/-- `n` characters can be pushed after a call of `reserve` for them. -/
structure Room (h : Blocks UInt8) (x : Vector) (n : ℕ) : Prop where
  fits : x.capacity_ < x.size_ + n → x.size_ + n < 2 ^ 32
  stay : x.size_ + n ≤ x.capacity_ → x.size_ + n ≤ x.allocated h

theorem Room.reserve (hr : Room h x n) (hx : x.Holds h l) (hold : x.Old h)
    (hm : ∀ a, (m a).room = true) :
    ∃ x' h', x.reserve .char (m h.next) ((x.size_ + n) % 2 ^ 32) h = some (x', h') ∧
      x'.Holds h' l ∧ h.Changes x.buffer_ h' x'.buffer_ ∧
      x'.capacity_ = max x.capacity_ (x.size_ + n) ∧ x'.size_ + n ≤ x'.allocated h' := by
  have hmod := Nat.mod_le (x.size_ + n) (2 ^ 32)
  rcases Nat.lt_or_ge x.capacity_ (x.size_ + n) with hlt | hge
  · have hfits := hr.fits hlt
    rw [Nat.mod_eq_of_lt hfits]
    obtain ⟨x', h', heq, hx', hch, -, hnew⟩ := hx.reserve (n := x.size_ + n) hold fun _ =>
      ⟨ElemType.fits_char.mpr hfits, hm h.next⟩
    obtain ⟨hcap, halloc⟩ := hnew hlt
    have hsize : x'.size_ = x.size_ := hx'.size.trans hx.size.symm
    exact ⟨x', h', heq, hx', hch, by omega, by omega⟩
  · obtain ⟨x', h', heq, hx', hch, hkeep, -⟩ := hx.reserve (E := .char) (m := m h.next)
      (n := (x.size_ + n) % 2 ^ 32) hold fun hlt => absurd hlt (by omega)
    obtain ⟨rfl, rfl⟩ := hkeep (by omega)
    exact ⟨x', h', heq, hx', hch, (max_eq_left hge).symm, hr.stay hge⟩

theorem Ready.push (hr : Ready h x (n + 1)) (hx : x.Holds h l) (hold : x.Old h)
    (hm : ∀ a, (m a).room = true) {r : Ref UInt8} (hc : r.Is h x c) :
    ∃ x' h', x.pushBack .char (m h.next) r h = some (x', h') ∧ x'.Holds h' (l ++ [c]) ∧
      h.Changes x.buffer_ h' x'.buffer_ ∧ Ready h' x' n ∧
      (x.size_ < x.capacity_ → x'.buffer_ = x.buffer_ ∧ x'.capacity_ = x.capacity_) := by
  have hle := hx.le
  have hfit : x.capacity_ ≤ x.size_ → max 8 (2 * x.capacity_) < 2 ^ 32 := fun hfull => by
    have := (hr.grow (by omega)).2
    omega
  have hroom : x.size_ < x.capacity_ → x.size_ < x.allocated h := fun hlt => by
    rcases Nat.lt_or_ge x.capacity_ (x.size_ + (n + 1)) with hc | hc
    · exact hlt.trans_le (hr.grow hc).1
    · have := hr.stay hc
      omega
  obtain ⟨x', h', heq, hx', hch, hkeep, hgrow⟩ := hx.pushBack (E := .char) (m := m h.next) hold hc
    (fun hfull => ⟨ElemType.fits_char.mpr (hfit hfull), hm h.next⟩) hroom
  have hsize : x'.size_ = x.size_ + 1 := by
    rw [hx'.size, List.length_append, List.length_singleton, hx.size]
  refine ⟨x', h', heq, hx', hch, ?_, fun hlt => ⟨(hkeep hlt).1, (hkeep hlt).2.1⟩⟩
  rcases Nat.lt_or_ge x.size_ x.capacity_ with hlt | hfull
  · obtain ⟨-, hcap, halloc⟩ := hkeep hlt
    have hg := hr.grow
    have hs := hr.stay
    exact ⟨fun hc => by have := hg (by omega); omega, fun hc => by have := hs (by omega); omega⟩
  · have hcap := hgrow hfull
    have := (hr.grow (by omega)).2
    exact ⟨fun _ => ⟨hcap.le, by omega⟩, fun hc => by omega⟩

/-! ## C strings -/

/-- The pointer does not lead into the string `x`. -/
def CStr.Outside (h : Blocks UInt8) (x : Vector) : CStr → Prop
  | literal _ => True
  | front p => h.Live p ∧ ∀ b, p = some b → b < h.next ∧ x.buffer_ ≠ some b

/-- What changes a string leaves the characters of a C string outside of it alone. -/
theorem CStr.Outside.changes (hs : str.Outside h x) (hch : h.Changes x.buffer_ h' x'.buffer_) :
    str.Outside h' x' ∧ str.cells h' = str.cells h := by
  cases str with
  | literal s => exact ⟨trivial, rfl⟩
  | front p =>
    have hsame : ∀ b, p = some b → h'.block b = h.block b := fun b hb =>
      hch.other b (hs.2 b hb).2 (hs.2 b hb).1
    refine ⟨⟨hs.1.congr hsame, fun b hb => ⟨(hs.2 b hb).1.trans_le hch.next_le, fun he => ?_⟩⟩,
      Blocks.cells_congr hsame⟩
    rcases hch.new b he with h₁ | ⟨h₁, -⟩
    · exact (hs.2 b hb).2 h₁
    · exact absurd (hs.2 b hb).1 (not_lt.mpr h₁)

theorem CStr.Outside.ref (hs : str.Outside h x) (hi : (str.cells h)[i]? = some c) :
    (str.ref i c).Is h x c := by
  cases str with
  | literal s => rfl
  | front p =>
    obtain ⟨b, rfl⟩ := Blocks.exists_of_cells (List.getElem?_eq_some_iff.mp hi).1
    exact ⟨hs.1.load.trans hi, fun b' hb => (hs.2 b' hb).1, fun he => absurd he.symm (hs.2 b rfl).2⟩

/-- The characters `cs` up to the NUL are pushed. -/
theorem pushStr_eq {rest : List UInt8} (hr : Ready h x cs.length) (hx : x.Holds h l) (hold : x.Old h)
    (hm : ∀ a, (m a).room = true) (hs : str.Outside h x)
    (hcells : (str.cells h).drop i = cs ++ 0 :: rest) (hcs : 0 ∉ cs) (hf : cs.length < fuel) :
    ∃ x' h', pushStr m str fuel i x h = some (x', h') ∧ x'.Holds h' (l ++ cs) ∧
      h.Changes x.buffer_ h' x'.buffer_ := by
  induction cs generalizing h x l i fuel with
  | nil =>
    obtain ⟨fuel, rfl⟩ : ∃ n, fuel = n + 1 := ⟨fuel - 1, by omega⟩
    have hi : (str.cells h)[i]? = some 0 := by
      have := congrArg (·[0]?) hcells
      simpa using this
    refine ⟨x, h, ?_, by rwa [List.append_nil], .refl h _⟩
    rw [pushStr, hi, Option.bind_some, if_pos rfl]
  | cons c cs ih =>
    obtain ⟨fuel, rfl⟩ : ∃ n, fuel = n + 1 := ⟨fuel - 1, by omega⟩
    have hi : (str.cells h)[i]? = some c := by
      have := congrArg (·[0]?) hcells
      simpa using this
    obtain ⟨hc, hcs⟩ := not_or.mp (List.mem_cons.not.mp hcs)
    obtain ⟨x₁, h₁, heq, hx₁, hch₁, hr₁, -⟩ := hr.push hx hold hm (hs.ref hi)
    obtain ⟨hs₁, hsame⟩ := hs.changes hch₁
    have hnext : (str.cells h₁).drop (i + 1) = cs ++ 0 :: rest := by
      rw [hsame, ← List.tail_drop, hcells, List.cons_append, List.tail_cons]
    have hf' : cs.length < fuel := Nat.lt_of_succ_lt_succ hf
    obtain ⟨x', h', heq', hx', hch'⟩ := ih hr₁ hx₁ (hch₁.lt hold) hs₁ hnext hcs hf'
    refine ⟨x', h', ?_, ?_, hch₁.trans hch'⟩
    · rw [pushStr, hi, Option.bind_some, if_neg (Ne.symm hc), heq, Option.bind_some]
      exact heq'
    · rwa [List.append_assoc, List.singleton_append] at hx'

/-- Characters at `p`, which is outside the string or its own buffer with room for them. -/
theorem pushRange_eq (hr : Ready h x (n + j)) (hx : x.Holds h l) (hold : x.Old h)
    (hm : ∀ a, (m a).room = true) (hn : n ≤ (h.cells p).length)
    (hp : (CStr.front p).Outside h x ∨ p = x.buffer_ ∧ n ≤ x.size_ ∧ x.size_ + n ≤ x.capacity_) :
    ∃ x' h', pushRange m p n x h = some (x', h') ∧ x'.Holds h' (l ++ (h.cells p).take n) ∧
      h.Changes x.buffer_ h' x'.buffer_ ∧ Ready h' x' j ∧
      (x.size_ + n ≤ x.capacity_ → x'.buffer_ = x.buffer_ ∧ x'.capacity_ = x.capacity_) := by
  induction n generalizing j with
  | zero =>
    rw [Nat.zero_add] at hr
    exact ⟨x, h, rfl, by simpa using hx, .refl h _, hr, fun _ => ⟨rfl, rfl⟩⟩
  | succ n ih =>
    obtain ⟨x₁, h₁, heq, hx₁, hch₁, hr₁, hkeep⟩ := ih (j := j + 1)
      (by rwa [Nat.add_assoc, Nat.add_comm 1] at hr) (by omega)
      (hp.imp_right fun ⟨he, h₁, h₂⟩ => ⟨he, by omega, by omega⟩)
    have hlen : x₁.size_ = x.size_ + n := by
      rw [hx₁.size, List.length_append, List.length_take_of_le (by omega), hx.size]
    have hc : (h.cells p)[n]? = some (h.cells p)[n] := List.getElem?_eq_getElem hn
    have href : (Ref.element p n).Is h₁ x₁ (h.cells p)[n] := by
      rcases hp with hout | ⟨rfl, hle, hcap⟩
      · obtain ⟨hs, hsame⟩ := hout.changes hch₁
        exact hs.ref (hsame ▸ hc)
      · obtain ⟨hbuf, hcap₁⟩ := hkeep (by omega)
        have hload : h₁.load x₁.buffer_ n = some (h.cells x.buffer_)[n] := by
          rw [hx₁.load (by omega), List.getElem?_append_left (by rw [← hx.size]; omega),
            ← hx.getElem? (by omega), hc]
        rw [hbuf] at hload
        exact ⟨hload, hbuf ▸ hch₁.lt hold, fun _ => by omega⟩
    obtain ⟨x', h', heq', hx', hch', hr', hkeep'⟩ := hr₁.push hx₁ (hch₁.lt hold) hm href
    refine ⟨x', h', ?_, ?_, hch₁.trans hch', hr', fun hle => ?_⟩
    · rw [pushRange, heq, Option.bind_some]
      exact heq'
    · rwa [List.append_assoc, ← List.take_succ_eq_append_getElem hn] at hx'
    · obtain ⟨hb, hcap⟩ := hkeep (by omega)
      obtain ⟨hb', hcap'⟩ := hkeep' (by omega)
      exact ⟨hb'.trans hb, hcap'.trans hcap⟩

/-! ## The operations -/

/-- The characters of a C string. -/
def CStr.text (h : Blocks UInt8) (c : CStr) : List UInt8 := (c.cells h).takeWhile (· ≠ 0)

theorem CStr.cells_eq (h0 : 0 ∈ str.cells h) : ∃ rest, str.cells h = str.text h ++ 0 :: rest := by
  unfold text
  generalize str.cells h = cells at h0
  induction cells with
  | nil => simp at h0
  | cons c cells ih =>
    by_cases hc : c = 0
    · exact ⟨cells, by simp [hc]⟩
    · obtain ⟨rest, hrest⟩ := ih ((List.mem_cons.mp h0).resolve_left (Ne.symm hc))
      refine ⟨rest, ?_⟩
      rw [List.takeWhile_cons_of_pos (by simpa using hc), List.cons_append, ← hrest]

/-- The characters end at the first NUL. -/
theorem CStr.text_eq (hc : l ++ [0] <+: str.cells h) :
    str.text h = l.takeWhile (· ≠ 0) ∧ 0 ∈ str.cells h := by
  obtain ⟨rest, hrest⟩ := hc
  rw [text, ← hrest]
  refine ⟨?_, by simp⟩
  clear hrest
  induction l with
  | nil => simp
  | cons c l ih =>
    by_cases hz : c = 0
    · simp [hz]
    · rw [List.cons_append, List.cons_append, List.takeWhile_cons_of_pos (by simpa using hz), ih,
        List.takeWhile_cons_of_pos (by simpa using hz)]

theorem CStr.not_mem_text : 0 ∉ str.text h := fun hmem => by
  have := List.all_eq_true.mp List.all_takeWhile 0 hmem
  simp at this

theorem CStr.strlen_eq (h0 : 0 ∈ str.cells h) : str.strlen h = some (str.text h).length := by
  obtain ⟨rest, hrest⟩ := cells_eq h0
  have hnot := @not_mem_text h str
  rw [strlen, hrest]
  generalize str.text h = cs at hnot
  induction cs with
  | nil => simp [List.findIdx?_cons]
  | cons c cs ih =>
    obtain ⟨hc, hcs⟩ := not_or.mp (List.mem_cons.not.mp hnot)
    rw [List.cons_append, List.findIdx?_cons, if_neg (by simpa using Ne.symm hc), ih hcs]
    rfl

/-- A vector to which nothing has happened can take any characters that it has the room for. -/
theorem ready_of_room (hcap : x.size_ + n ≤ x.capacity_) (halloc : x.size_ + n ≤ x.allocated h) :
    Ready h x n :=
  ⟨fun hlt => absurd hcap (not_le.mpr hlt), fun _ => halloc⟩

theorem ready_empty (hn : n ≤ 2 ^ 31) : Ready h .empty n :=
  ⟨fun _ => ⟨Nat.zero_le _, by simpa [Vector.empty] using hn⟩, fun hle => by
    simp only [Vector.empty] at hle ⊢
    omega⟩

theorem construct_eq (hm : ∀ a, (m a).room = true) (hs : str.Outside h .empty)
    (h0 : 0 ∈ str.cells h) (hlen : (str.text h).length ≤ 2 ^ 31) :
    ∃ x' h', construct m str h = some (x', h') ∧ x'.Holds h' (str.text h) ∧
      h.Changes none h' x'.buffer_ := by
  obtain ⟨rest, hrest⟩ := CStr.cells_eq h0
  have hf : (str.text h).length < (str.cells h).length + 1 := by
    rw [hrest, List.length_append]
    omega
  exact pushStr_eq (ready_empty hlen) (Vector.holds_empty h) (by simp [Vector.Old, Vector.empty]) hm
    hs hrest CStr.not_mem_text hf

theorem constructCopy_eq (hy : y.Holds h k) (hold : y.Old h) (hm : ∀ a, (m a).room = true) :
    ∃ x' h', constructCopy m y h = some (x', h') ∧ x'.Holds h' k ∧ h.Changes none h' x'.buffer_ ∧
      x'.capacity_ = y.capacity_ ∧ x'.allocated h' = y.size_ :=
  Vector.assign_eq (Vector.holds_empty h) hy hold (by simp [Vector.empty])
    (ElemType.fits_char.mpr (hy.le_allocated.trans_lt hy.lt)) (hm h.next)

/-- Another string is outside. -/
theorem outside_of_apart (hy : y.Holds h k) (hold : y.Old h)
    (hapart : ∀ b, y.buffer_ = some b → x.buffer_ ≠ some b) :
    (CStr.front y.buffer_).Outside h x :=
  ⟨hy.live, fun b hb => ⟨hold b hb, hapart b hb⟩⟩

theorem append_eq (hr : Room h x y.size_) (hx : x.Holds h l) (hxold : x.Old h) (hy : y.Holds h k)
    (hold : y.Old h) (hapart : ∀ b, y.buffer_ = some b → x.buffer_ ≠ some b)
    (hm : ∀ a, (m a).room = true) :
    ∃ x' h', append m x y false h = some (x', h') ∧ x'.Holds h' (l ++ k) ∧
      h.Changes x.buffer_ h' x'.buffer_ := by
  obtain ⟨x₁, h₁, heq, hx₁, hch₁, hcap, halloc⟩ := hr.reserve hx hxold hm
  have hsize : x₁.size_ = x.size_ := hx₁.size.trans hx.size.symm
  obtain ⟨hout, hsame⟩ := (outside_of_apart hy hold hapart).changes hch₁
  have hcells : h₁.cells y.buffer_ = h.cells y.buffer_ := hsame
  obtain ⟨x', h', heq', hx', hch', -, -⟩ := pushRange_eq (n := y.size_) (j := 0)
    (ready_of_room (by omega) halloc) hx₁ (hch₁.lt hxold) hm (hcells ▸ hy.le_allocated) (.inl hout)
  rw [hcells, hy.take] at hx'
  refine ⟨x', h', ?_, hx', hch₁.trans hch'⟩
  rw [append, heq, Option.bind_some]
  exact heq'

theorem append_self (hr : Room h x x.size_) (hx : x.Holds h l) (hold : x.Old h)
    (hm : ∀ a, (m a).room = true) :
    ∃ x' h', append m x x true h = some (x', h') ∧ x'.Holds h' (l ++ l) ∧
      h.Changes x.buffer_ h' x'.buffer_ := by
  obtain ⟨x₁, h₁, heq, hx₁, hch₁, hcap, halloc⟩ := hr.reserve hx hold hm
  have hsize : x₁.size_ = x.size_ := hx₁.size.trans hx.size.symm
  obtain ⟨x', h', heq', hx', hch', -, -⟩ := pushRange_eq (n := x₁.size_) (j := 0)
    (ready_of_room (by omega) (by omega)) hx₁ (hch₁.lt hold) hm hx₁.le_allocated
    (.inr ⟨rfl, le_rfl, by omega⟩)
  rw [hx₁.take] at hx'
  refine ⟨x', h', ?_, hx', hch₁.trans hch'⟩
  rw [append, heq, Option.bind_some]
  exact heq'

theorem appendStr_eq (hr : Room h x (str.text h).length) (hx : x.Holds h l) (hold : x.Old h)
    (hs : str.Outside h x) (h0 : 0 ∈ str.cells h) (hm : ∀ a, (m a).room = true) :
    ∃ x' h', appendStr m x str h = some (x', h') ∧ x'.Holds h' (l ++ str.text h) ∧
      h.Changes x.buffer_ h' x'.buffer_ := by
  obtain ⟨x₁, h₁, heq, hx₁, hch₁, hcap, halloc⟩ := hr.reserve hx hold hm
  have hsize : x₁.size_ = x.size_ := hx₁.size.trans hx.size.symm
  obtain ⟨hout, hsame⟩ := hs.changes hch₁
  obtain ⟨rest, hrest⟩ := CStr.cells_eq h0
  have hf : (str.text h).length < (str.cells h).length + 1 := by
    rw [hrest, List.length_append]
    omega
  obtain ⟨x', h', heq', hx', hch'⟩ := pushStr_eq (i := 0) (ready_of_room (by omega) halloc) hx₁
    (hch₁.lt hold) hm hout (by rw [hsame]; exact hrest) CStr.not_mem_text hf
  refine ⟨x', h', ?_, hx', hch₁.trans hch'⟩
  rw [appendStr, CStr.strlen_eq h0, Option.bind_some, heq, Option.bind_some, hsame]
  exact heq'

/-- No characters can be appended from anywhere, the string's own buffer included. -/
theorem appendStr_nil (hx : x.Holds h l) (hold : x.Old h) (htext : str.text h = [])
    (h0 : 0 ∈ str.cells h) : appendStr m x str h = some (x, h) := by
  have hstay : (x.size_ + 0) % 2 ^ 32 ≤ x.capacity_ := (Nat.mod_le _ _).trans hx.le
  obtain ⟨x', h', heq, -, -, hkeep, -⟩ := hx.reserve (E := .char) (m := m h.next)
    (n := (x.size_ + 0) % 2 ^ 32) hold fun hlt => absurd hlt (not_lt.mpr hstay)
  obtain ⟨rfl, rfl⟩ := hkeep hstay
  obtain ⟨rest, hrest⟩ := CStr.cells_eq h0
  rw [appendStr, CStr.strlen_eq h0, htext, Option.bind_some, List.length_nil, heq, Option.bind_some,
    pushStr, hrest, htext]
  rfl

theorem appendChar_eq (hx : x.Holds h l) (hold : x.Old h)
    (hfits : x.capacity_ ≤ x.size_ → 2 * x.capacity_ < 2 ^ 32)
    (hstay : x.size_ < x.capacity_ → x.size_ < x.allocated h) (hm : ∀ a, (m a).room = true) :
    ∃ x' h', appendChar m x c h = some (x', h') ∧ x'.Holds h' (l ++ [c]) ∧
      h.Changes x.buffer_ h' x'.buffer_ := by
  obtain ⟨x', h', heq, hx', hch, -, -⟩ := hx.pushBack (E := .char) (m := m h.next)
    (r := .value c) hold rfl (fun hfull => ⟨ElemType.fits_char.mpr (by
      have := hfits hfull
      omega), hm h.next⟩) hstay
  exact ⟨x', h', heq, hx', hch⟩

/-- A copy has room for more characters if there are none, or if it has to grow for them. -/
theorem room_copy (hx' : x'.Holds h' l) (hx : x.Holds h l) (hcap : x'.capacity_ = x.capacity_)
    (halloc : x'.allocated h' = x.size_) (hn : n = 0 ∨ x.capacity_ < x.size_ + n)
    (hfits : x.capacity_ < x.size_ + n → x.size_ + n < 2 ^ 32) : Room h' x' n := by
  have hsize : x'.size_ = x.size_ := hx'.size.trans hx.size.symm
  exact ⟨fun hlt => by have := hfits (by omega); omega, fun hle => by omega⟩

theorem plus_eq (hx : x.Holds h l) (hxold : x.Old h) (hy : y.Holds h k) (hold : y.Old h)
    (hn : y.size_ = 0 ∨ x.capacity_ < x.size_ + y.size_)
    (hfits : x.capacity_ < x.size_ + y.size_ → x.size_ + y.size_ < 2 ^ 32)
    (hm : ∀ a, (m a).room = true) :
    ∃ x' h', plus m x y h = some (x', h') ∧ x'.Holds h' (l ++ k) ∧
      h.Changes none h' x'.buffer_ := by
  obtain ⟨x₁, h₁, heq, hx₁, hch₁, hcap, halloc⟩ := constructCopy_eq hx hxold hm
  have hsame : ∀ b, y.buffer_ = some b → h₁.block b = h.block b := fun b hb =>
    hch₁.other b (by simp) (hold b hb)
  have hold₁ : y.Old h₁ := fun b hb => (hold b hb).trans_le hch₁.next_le
  have hapart : ∀ b, y.buffer_ = some b → x₁.buffer_ ≠ some b := fun b hb he => by
    rcases hch₁.new b he with h₂ | ⟨h₂, -⟩
    · simp at h₂
    · exact absurd (hold b hb) (not_lt.mpr h₂)
  obtain ⟨x', h', heq', hx', hch'⟩ := append_eq (room_copy hx₁ hx hcap halloc hn hfits) hx₁
    (hch₁.lt (by simp)) (hy.congr hsame) hold₁ hapart hm
  refine ⟨x', h', ?_, hx', hch₁.trans hch'⟩
  rw [plus, heq, Option.bind_some]
  exact heq'

theorem plusStr_eq (hx : x.Holds h l) (hxold : x.Old h) (hs : str.Outside h .empty)
    (h0 : 0 ∈ str.cells h)
    (hn : (str.text h).length = 0 ∨ x.capacity_ < x.size_ + (str.text h).length)
    (hfits : x.capacity_ < x.size_ + (str.text h).length →
      x.size_ + (str.text h).length < 2 ^ 32)
    (hm : ∀ a, (m a).room = true) :
    ∃ x' h', plusStr m x str h = some (x', h') ∧ x'.Holds h' (l ++ str.text h) ∧
      h.Changes none h' x'.buffer_ := by
  obtain ⟨x₁, h₁, heq, hx₁, hch₁, hcap, halloc⟩ := constructCopy_eq hx hxold hm
  obtain ⟨hout, hsame⟩ := hs.changes hch₁
  have htext : str.text h₁ = str.text h := by rw [CStr.text, hsame, CStr.text]
  obtain ⟨x', h', heq', hx', hch'⟩ := appendStr_eq
    (htext ▸ room_copy hx₁ hx hcap halloc hn hfits) hx₁ (hch₁.lt (by simp)) hout (hsame ▸ h0) hm
  refine ⟨x', h', ?_, htext ▸ hx', hch₁.trans hch'⟩
  rw [plusStr, heq, Option.bind_some]
  exact heq'

/-- `c_str` puts the NUL behind the characters. -/
theorem cStr_eq (hr : Room h x 1) (hx : x.Holds h l) (hold : x.Old h)
    (hm : ∀ a, (m a).room = true) :
    ∃ x' h', cStr m x h = some (x', h') ∧ x'.Holds h' l ∧ h.Changes x.buffer_ h' x'.buffer_ ∧
      x'.capacity_ = max x.capacity_ (x.size_ + 1) ∧
      (h'.cells x'.buffer_).take (x'.size_ + 1) = l ++ [0] := by
  obtain ⟨x₁, h₁, heq, hx₁, hch₁, hcap, halloc⟩ := hr.reserve hx hold hm
  have hsize : x₁.size_ = x.size_ := hx₁.size.trans hx.size.symm
  obtain ⟨h', hst, hx', hch', -⟩ := hx₁.store (hch₁.lt hold) (by omega) (by omega) 0
  have htake := hx'.take
  rw [hx'.size, List.length_append, List.length_singleton, ← hx₁.size] at htake
  refine ⟨x₁, h', ?_, ?_, hch₁.trans hch', hcap, htake⟩
  · rw [cStr, heq, Option.bind_some, hst, Option.map_some]
  · exact ⟨hx'.live, hx₁.size, hx₁.le, (List.prefix_append l [0]).trans hx'.elements, hx'.lt,
      hx₁.null⟩

theorem slice_eq (hx : x.Holds h l) (hold : x.Old h) (hm : ∀ a, (m a).room = true)
    (hn : pos + n ≤ x.size_) (hlen : n + j ≤ 2 ^ 31) :
    ∃ x' h', slice m x pos n h = some (x', h') ∧ x'.Holds h' ((l.drop pos).take n) ∧
      h.Changes none h' x'.buffer_ ∧ Ready h' x' j := by
  induction n generalizing j with
  | zero =>
    refine ⟨.empty, h, rfl, ?_, .refl h none, ready_empty (by omega)⟩
    rw [List.take_zero]
    exact Vector.holds_empty h
  | succ n ih =>
    obtain ⟨x₁, h₁, heq, hx₁, hch₁, hr₁⟩ := ih (j := j + 1) (by omega) (by omega)
    have hmod : (pos + n) % 2 ^ 32 = pos + n := by
      have := hx.le_allocated.trans_lt hx.lt
      exact Nat.mod_eq_of_lt (by omega)
    have hlt : pos + n < l.length := by
      rw [← hx.size]
      omega
    have hdrop : n < (l.drop pos).length := by
      rw [List.length_drop]
      omega
    have hc : at_ x ((pos + n) % 2 ^ 32) h₁ = some (l.drop pos)[n] := by
      have hsame : h₁.load x.buffer_ (pos + n) = h.load x.buffer_ (pos + n) :=
        Blocks.load_congr fun b hb => hch₁.other b (by simp) (hold b hb)
      rw [hmod, at_, if_neg (by omega), hsame, hx.load (by omega), List.getElem?_eq_getElem hlt,
        List.getElem_drop]
    obtain ⟨x', h', heq', hx', hch', hr', -⟩ := hr₁.push hx₁ (hch₁.lt (by simp)) hm
      (r := .value (l.drop pos)[n]) rfl
    refine ⟨x', h', ?_, ?_, hch₁.trans hch', hr'⟩
    · rw [slice, heq, Option.bind_some, hc, Option.bind_some]
      exact heq'
    · rwa [List.take_succ_eq_append_getElem hdrop]

/-- `substr` from the beginning, or of no characters. -/
theorem substr_eq (hx : x.Holds h l) (hold : x.Old h) (hm : ∀ a, (m a).room = true)
    (hpos : pos ≤ x.size_) (hbound : len < 2 ^ 64)
    (hfrom : pos = 0 ∨ len = 0 ∨ pos = x.size_ ∧ len + pos < 2 ^ 64)
    (hlen : min len (x.size_ - pos) ≤ 2 ^ 31) :
    ∃ x' h', substr m x pos len h = some (x', h') ∧ x'.Holds h' ((l.drop pos).take len) ∧
      h.Changes none h' x'.buffer_ := by
  have hsize := hx.le_allocated.trans_lt hx.lt
  have hcount : (if (len + pos) % 2 ^ 64 > x.size_ then (x.size_ + (2 ^ 64 - pos)) % 2 ^ 64 else len) -
      pos = min len (x.size_ - pos) := by
    have hsum : len + pos < 2 ^ 64 := by omega
    have hdiff : (x.size_ + (2 ^ 64 - pos)) % 2 ^ 64 = x.size_ - pos := by omega
    rw [Nat.mod_eq_of_lt hsum, hdiff]
    split <;> omega
  have hend : pos + min len (x.size_ - pos) ≤ x.size_ := by omega
  obtain ⟨x', h', heq, hx', hch, -⟩ := slice_eq (j := 0) hx hold hm hend hlen
  refine ⟨x', h', ?_, ?_, hch⟩
  · rw [substr, hcount]
    exact heq
  · have htake : (l.drop pos).take (min len (x.size_ - pos)) = (l.drop pos).take len := by
      rw [hx.size, ← List.length_drop, ← List.take_take, List.take_length]
    rwa [htake] at hx'

end StringPP

end OrangeOs.Lib
