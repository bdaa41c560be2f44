import OrangeOs.Kernel.Streams

/-! # Lines

`GetLine` of `lib/streambase.cc` reads byte after byte into a buffer until it finds a 0 there. It
does not know how long the buffer is, and it does not look at what `Read` returns: where the stream
has nothing left, the byte that it tests is the one that was in the buffer before.
-/

namespace OrangeOs.Kernel

open Memory

variable {σ : Type} {S : StreamBase σ} {R : σ → List UInt8 → Prop} {st : σ}
    {m : Memory} {bs : List UInt8}
  {buf fuel j k x : ℕ} {s : StringStream}

namespace StreamBase

/-- `GetLine`, which has no result after `fuel` rounds. -/
def getLine (S : StreamBase σ) (st : σ) (m : Memory) (buf : ℕ) : ℕ → Option (Memory × σ)
  | 0 => none
  | fuel + 1 =>
    let (bytes, st) := S.read st 1
    let m := m.put buf bytes.length bytes
    if m buf ≠ 0 then getLine S st m (buf + 1) fuel else some (m, st)

/-- The addresses that the first rounds of `GetLine` write. -/
def getLineWrites (S : StreamBase σ) (st : σ) (m : Memory) (buf : ℕ) : ℕ → List ℕ
  | 0 => []
  | fuel + 1 =>
    let (bytes, st) := S.read st 1
    let m := m.put buf bytes.length bytes
    List.range' buf bytes.length ++ if m buf ≠ 0 then getLineWrites S st m (buf + 1) fuel else []

/-- The size of the buffers of `iterate_symtab` and `LoadDynamicInfo`. -/
def lineSize : ℕ := 64

/-- `GetLine` ends, and it writes only to a buffer of `lineSize` bytes. -/
def LineFits (S : StreamBase σ) (st : σ) (m : Memory) (buf : ℕ) : Prop :=
  (∃ fuel r, S.getLine st m buf fuel = some r) ∧
    ∀ fuel, ∀ x ∈ S.getLineWrites st m buf fuel, x < buf + lineSize

/-- A call of `Read` for one byte puts at most one in the buffer. -/
def ReadsOne (S : StreamBase σ) : Prop := ∀ st, (S.read st 1).1.length ≤ 1

/-- What the call of `Read` with number `k` delivers, if it delivers a byte. -/
def delivered (S : StreamBase σ) (st : σ) : ℕ → Option UInt8
  | 0 => (S.read st 1).1.head?
  | k + 1 => delivered S (S.read st 1).2 k

/-- The byte that round `k` tests: what the stream delivers, or else what is in the buffer. -/
def tested (S : StreamBase σ) (st : σ) (m : Memory) (buf k : ℕ) : UInt8 :=
  (S.delivered st k).getD (m (buf + k))

end StreamBase

open StreamBase

/-! ## The rounds -/

/-- The first round. -/
theorem tested_zero (hS : S.ReadsOne) (st : σ) (m : Memory) (buf : ℕ) :
    m.put buf (S.read st 1).1.length (S.read st 1).1 buf = S.tested st m buf 0 := by
  have hone := hS st
  rw [tested, delivered]
  cases hbytes : (S.read st 1).1 with
  | nil => exact if_neg (by simp)
  | cons b bytes =>
    rw [put, if_pos (by simp), Nat.sub_self]
    rfl

/-- The others are the rounds of a shorter call. -/
theorem tested_succ (hS : S.ReadsOne) (st : σ) (m : Memory) (buf k : ℕ) :
    S.tested (S.read st 1).2 (m.put buf (S.read st 1).1.length (S.read st 1).1) (buf + 1) k =
      S.tested st m buf (k + 1) := by
  have hone := hS st
  rw [tested, tested, delivered, put, if_neg (by omega), Nat.add_assoc, Nat.add_comm 1 k]

theorem getLine_eq_some_iff (hS : S.ReadsOne) :
    (∃ r, S.getLine st m buf fuel = some r) ↔ ∃ k < fuel, S.tested st m buf k = 0 := by
  induction fuel generalizing st m buf with
  | zero => simp [getLine]
  | succ fuel ih =>
    simp only [getLine, tested_zero hS]
    split
    · next hne =>
      rw [ih]
      simp only [tested_succ hS]
      constructor
      · rintro ⟨k, hk, hzero⟩
        exact ⟨k + 1, Nat.succ_lt_succ hk, hzero⟩
      · rintro ⟨k, hk, hzero⟩
        cases k with
        | zero => exact absurd hzero hne
        | succ k => exact ⟨k, Nat.lt_of_succ_lt_succ hk, hzero⟩
    · next heq => exact iff_of_true ⟨_, rfl⟩ ⟨0, Nat.succ_pos _, not_not.mp heq⟩

theorem mem_getLineWrites (hS : S.ReadsOne) : x ∈ S.getLineWrites st m buf fuel ↔
    ∃ k < fuel, x = buf + k ∧ S.delivered st k ≠ none ∧ ∀ j < k, S.tested st m buf j ≠ 0 := by
  induction fuel generalizing st m buf with
  | zero => simp [getLineWrites]
  | succ fuel ih =>
    have hone := hS st
    have hfirst : x ∈ List.range' buf (S.read st 1).1.length ↔ x = buf ∧ S.delivered st 0 ≠ none := by
      rw [List.mem_range'_1, delivered, Ne, List.head?_eq_none_iff, ← List.length_eq_zero_iff]
      omega
    simp only [getLineWrites, tested_zero hS, List.mem_append, hfirst]
    constructor
    · rintro (⟨rfl, hsome⟩ | hx)
      · exact ⟨0, Nat.succ_pos _, rfl, hsome, fun j hj => absurd hj (Nat.not_lt_zero j)⟩
      · split at hx
        · next hne =>
          obtain ⟨k, hk, rfl, hsome, hbefore⟩ := ih.mp hx
          refine ⟨k + 1, Nat.succ_lt_succ hk, by omega, hsome, fun j hj => ?_⟩
          cases j with
          | zero => exact hne
          | succ j =>
            rw [← tested_succ hS]
            exact hbefore j (Nat.lt_of_succ_lt_succ hj)
        · cases hx
    · rintro ⟨k, hk, rfl, hsome, hbefore⟩
      cases k with
      | zero => exact .inl ⟨rfl, hsome⟩
      | succ k =>
        refine .inr ?_
        rw [if_pos (hbefore 0 (Nat.succ_pos k))]
        refine ih.mpr ⟨k, Nat.lt_of_succ_lt_succ hk, by omega, hsome, fun j hj => ?_⟩
        rw [tested_succ hS]
        exact hbefore (j + 1) (Nat.succ_lt_succ hj)

/-! ## The buffer -/

theorem tested_of_lineFits (hS : S.ReadsOne) (h : S.LineFits st m buf) :
    ∃ k, S.tested st m buf k = 0 ∧ ∀ j ≤ k, lineSize ≤ j → S.delivered st j = none := by
  obtain ⟨⟨fuel, hresult⟩, hwrites⟩ := h
  obtain ⟨n, -, hn⟩ := (getLine_eq_some_iff hS).mp hresult
  -- the first byte that is 0
  have hzero : ∃ n, S.tested st m buf n = 0 := ⟨n, hn⟩
  refine ⟨Nat.find hzero, Nat.find_spec hzero, fun j hj hle => ?_⟩
  by_contra hsome
  have hlt := hwrites (j + 1) (buf + j) ((mem_getLineWrites hS).mpr
    ⟨j, Nat.lt_succ_self j, rfl, hsome, fun i hi => Nat.find_min hzero (hi.trans_le hj)⟩)
  omega

theorem lineFits_of_tested (hS : S.ReadsOne) (hzero : S.tested st m buf k = 0)
    (hnone : ∀ j ≤ k, lineSize ≤ j → S.delivered st j = none) : S.LineFits st m buf := by
  constructor
  · obtain ⟨r, hr⟩ := (getLine_eq_some_iff hS).mpr ⟨k, Nat.lt_succ_self k, hzero⟩
    exact ⟨k + 1, r, hr⟩
  · intro fuel x hx
    obtain ⟨j, -, rfl, hsome, hbefore⟩ := (mem_getLineWrites hS).mp hx
    have hj : j ≤ k := by
      by_contra hlt
      exact hbefore k (not_le.mp hlt) hzero
    by_contra hge
    exact hsome (hnone j hj (by omega))

/-- `GetLine` ends inside a buffer of 64 bytes just when a byte that it would test is 0 and no call
of `Read` from the one with number 64 up to that one delivers a byte. -/
theorem getLine_fits_iff (hS : S.ReadsOne) : S.LineFits st m buf ↔
    ∃ k, S.tested st m buf k = 0 ∧ ∀ j ≤ k, lineSize ≤ j → S.delivered st j = none := by
  constructor
  · exact tested_of_lineFits hS
  · rintro ⟨k, hzero, hnone⟩
    exact lineFits_of_tested hS hzero hnone

/-! ## Strings -/

theorem readsOne_string : StringStream.base.ReadsOne := fun st => by
  show (((st.buf_.drop st.position_).take
    (min ((st.buf_.length + 2 ^ 64 - st.position_) % 2 ^ 64) 1))).length ≤ 1
  rw [List.length_take]
  omega

/-- A string stream delivers what is left of the string. -/
theorem delivered_string (hpos : s.position_ ≤ s.buf_.length) (hlen : s.buf_.length < 2 ^ 64) (k : ℕ) :
    StringStream.base.delivered s k = (s.buf_.drop s.position_)[k]? := by
  induction k generalizing s with
  | zero =>
    have hread : (StringStream.base.read s 1).1 = _ := (StringStream.read_eq hpos hlen 1).1
    rw [delivered, hread, List.head?_take, if_neg one_ne_zero, List.head?_eq_getElem?]
  | succ k ih =>
    obtain ⟨-, hnext⟩ := StringStream.read_eq hpos hlen 1
    have hbuf : (StringStream.base.read s 1).2.buf_ = s.buf_ := StringStream.read_buf s 1
    have hposition : (StringStream.base.read s 1).2.position_ = _ := hnext
    rw [delivered, ih (by rw [hposition, hbuf]; omega) (by rwa [hbuf]), hposition,
      hbuf, List.getElem?_drop,
      List.getElem?_drop]
    rcases Nat.lt_or_ge s.position_ s.buf_.length with hlt | hge
    · rw [Nat.min_eq_left (by omega), Nat.add_assoc, Nat.add_comm 1 k]
    · rw [List.getElem?_eq_none (by omega), List.getElem?_eq_none (by omega)]

/-- A line of a string fits when the string has a 0 in its next 64 bytes, or when it ends within
them and the memory has one after that. -/
theorem lineFits_string_iff (hpos : s.position_ ≤ s.buf_.length) (hlen : s.buf_.length < 2 ^ 64) :
    StringStream.base.LineFits s m buf ↔ 0 ∈ (s.buf_.drop s.position_).take lineSize ∨
      (s.buf_.drop s.position_).length ≤ lineSize ∧ ∃ k,
      (s.buf_.drop s.position_).length ≤ k ∧ m (buf + k) = 0 := by
  have hdelivered := delivered_string hpos hlen
  generalize s.buf_.drop s.position_ = bs at hdelivered ⊢
  have hsize : lineSize = 64 := rfl
  constructor
  · intro h
    obtain ⟨k, hzero, hnone⟩ := tested_of_lineFits readsOne_string h
    rw [tested, hdelivered] at hzero
    by_cases hk : k < bs.length
    · have hlt : k < lineSize := by
        by_contra hge
        have hend := hnone k le_rfl (not_lt.mp hge)
        rw [hdelivered, List.getElem?_eq_none_iff] at hend
        omega
      rw [List.getElem?_eq_getElem hk, Option.getD_some] at hzero
      refine .inl (List.mem_iff_getElem.mpr ⟨k, ?_, ?_⟩)
      · rw [List.length_take]
        omega
      · rw [List.getElem_take, hzero]
    · rw [List.getElem?_eq_none (not_lt.mp hk), Option.getD_none] at hzero
      refine .inr ⟨?_, k, not_lt.mp hk, hzero⟩
      by_contra hlong
      have hend := hnone lineSize (by omega) le_rfl
      rw [hdelivered, List.getElem?_eq_none_iff] at hend
      omega
  · rintro (hmem | ⟨hle, k, hk, hzero⟩)
    · obtain ⟨k, hk, hzero⟩ := List.mem_iff_getElem.mp hmem
      rw [List.length_take] at hk
      rw [List.getElem_take] at hzero
      refine lineFits_of_tested readsOne_string (k := k) ?_ fun j hj hge => by omega
      rw [tested, hdelivered, List.getElem?_eq_getElem (by omega), Option.getD_some, hzero]
    · refine lineFits_of_tested readsOne_string (k := k) ?_ fun j _ hge => ?_
      · rw [tested, hdelivered, List.getElem?_eq_none hk, Option.getD_none, hzero]
      · rw [hdelivered, List.getElem?_eq_none (by omega)]

/-- A name of two characters. -/
theorem getLine_fits_name : StringStream.base.LineFits ⟨[104, 105, 0], 0⟩ (fun _ => 7) 1000 :=
  (getLine_fits_iff readsOne_string).mpr ⟨2, rfl, fun j hj hle => by
    have hsize : lineSize = 64 := rfl
    omega⟩

/-- A name of 64 characters. -/
theorem getLine_past_buffer : ¬ ∀ (s : StringStream) (m : Memory) (buf : ℕ),
    s.position_ ≤ s.buf_.length →
    s.buf_.length < 2 ^ 64 → StringStream.base.LineFits s m buf := by
  intro hall
  have hline := hall ⟨List.replicate 64 97 ++ [0], 0⟩ (fun _ => 0) 0 (Nat.zero_le _) (by simp)
  rw [lineFits_string_iff (Nat.zero_le _) (by simp)] at hline
  rcases hline with hmem | hle
  · rw [List.drop_zero, List.take_append_of_le_length (by simp [lineSize])] at hmem
    have hbyte := List.eq_of_mem_replicate (List.mem_of_mem_take hmem)
    cases hbyte
  · exact absurd hle.1 (by simp [lineSize])

end OrangeOs.Kernel
