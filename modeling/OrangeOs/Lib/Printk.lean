import Mathlib.Data.List.DropRight
import OrangeOs.Library.Numeral

/-! # Printed numbers

`prints` and `printk_write_num` of `lib/printk.cc`. A `char` is the character with its code, and the
output is the list of the characters that `simple_outputchar` got.
-/

namespace OrangeOs.Lib

variable {out string text : List Char} {c letbase : Char} {base n u : ℕ} {i : BitVec 64} {width : ℤ}

structure Flags where
  PAD_ZERO : Bool := false
  PAD_RIGHT : Bool := false
  PREFIX : Bool := false
  deriving DecidableEq, Repr

def PRINT_BUF_LEN : ℕ := 64

/-- An `int` keeps 32 bits. -/
def wrapInt (n : ℤ) : ℤ := n.bmod (2 ^ 32)

def simpleOutputchar (out : List Char) (c : Char) : List Char := out ++ [c]

/-- A loop that puts out `c` until `width` is 0. -/
def outputPad (c : Char) : ℕ → List Char → ℤ → List Char × ℤ
  | 0, out, pc => (out, pc)
  | width + 1, out, pc => outputPad c width (simpleOutputchar out c) (pc + 1)

/-- The loop that puts out a string. -/
def outputString : List Char → List Char → ℤ → List Char × ℤ
  | [], out, pc => (out, pc)
  | c :: string, out, pc => outputString string (simpleOutputchar out c) (pc + 1)

def prints (out string : List Char) (width : ℤ) (flags : Flags) : List Char × ℤ :=
  let padchar := if 0 < width ∧ flags.PAD_ZERO ∧ ¬ flags.PAD_RIGHT then '0' else ' '
  let width := if 0 < width then if width ≤ string.length then 0 else width - string.length else width
  let (out, pc) := if flags.PAD_RIGHT then (out, 0) else outputPad padchar width.toNat out 0
  let width := if flags.PAD_RIGHT then width else min width 0
  let (out, pc) := outputString string out pc
  let (out, pc) := outputPad padchar width.toNat out pc
  (out, wrapInt pc)

/-- The character of a digit. -/
def digitChar (letbase : Char) (t : ℕ) : Char :=
  if t < 10 then Char.ofNat ('0'.toNat + t) else Char.ofNat (letbase.toNat + (t - 10))

/-- `print_buf` from the position `s` on, up to the 0 in its last place. -/
structure PrintBuf where
  s : ℕ
  text : List Char
  full : s + text.length + 1 = PRINT_BUF_LEN

namespace PrintBuf

def empty : PrintBuf := ⟨PRINT_BUF_LEN - 1, [], rfl⟩

/-- `*--s = c`, which has no result where it leaves the buffer. -/
def push (b : PrintBuf) (c : Char) : Option PrintBuf :=
  if h : 0 < b.s then some
    ⟨b.s - 1, c :: b.text, by have := b.full; rw [List.length_cons]; omega⟩ else none

end PrintBuf

/-- The loop that produces the digits. A turn takes a place of the buffer, so that there are fewer than
`PRINT_BUF_LEN`. -/
def writeDigits (base : ℕ) (letbase : Char) : ℕ → PrintBuf → ℕ → Option PrintBuf
  | 0, _, _ => none
  | n + 1, b, u =>
    if u = 0 then some b
    else (b.push (digitChar letbase (u % base))).bind fun b => writeDigits base letbase n b (u / base)

/-- The local variables of `printk_write_num` after the digits. -/
structure NumState where
  out : List Char
  pc : ℤ
  width : ℤ
  s : PrintBuf

namespace NumState

/-- A character of the sign or of the prefix: put out at once or pushed. -/
def emit (n : NumState) (pad_zero : Bool) (c : Char) : Option NumState :=
  if pad_zero then some { n with out := simpleOutputchar n.out c, pc := n.pc + 1 }
  else (n.s.push c).map fun s => { n with s := s }

def writeSign (n : NumState) (neg pad_zero : Bool) : Option NumState :=
  if neg then (n.emit pad_zero '-').map fun n => if pad_zero then { n with width := n.width - 1 } else n
  else some n

/-- The prefix. In the buffer its characters are pushed from the last on. -/
def writePrefix (n : NumState) (flags : Flags) (pad_zero : Bool) (base : ℕ)
    (letbase : Char) : Option NumState :=
  if flags.PREFIX then
    if base = 8 then n.emit pad_zero '0'
    else if base = 16 then
      let sub_c := if letbase = 'a' then 'x' else 'X'
      if pad_zero then (n.emit pad_zero '0').bind fun n => n.emit pad_zero sub_c
      else (n.emit pad_zero sub_c).bind fun n => n.emit pad_zero '0'
    else some n
  else some n

end NumState

/-- `printk_write_num`: the output and what it returns, or `none` where the buffer does not suffice. -/
def printkWriteNum (out : List Char) (i : BitVec 64) (base : ℕ) (sign : Bool) (width : ℤ) (flags : Flags)
    (letbase : Char) : Option (List Char × ℤ) :=
  if i = 0 then some (prints out ['0'] width flags)
  else do
    let neg : Bool := sign ∧ base = 10 ∧ i.toInt < 0
    let u := if neg then (-i).toNat else i.toNat
    let s ← writeDigits base letbase PRINT_BUF_LEN .empty u
    let pad_zero : Bool := width ≠ 0 ∧ flags.PAD_ZERO ∧ ¬ flags.PAD_RIGHT
    let n : NumState := ⟨out, 0, width, s⟩
    let n ← n.writeSign neg pad_zero
    let n ← n.writePrefix flags pad_zero base letbase
    let (out, pc) := prints n.out n.s.text n.width flags
    return (out, wrapInt (n.pc + pc))

/-! ## The text -/

theorem outputPad_eq (c : Char) : ∀ n out pc, outputPad c n out pc = (out ++ List.replicate n c, pc + n)
  | 0, out, pc => by simp [outputPad]
  | n + 1, out, pc => by
    rw [outputPad, outputPad_eq c n, simpleOutputchar, List.append_assoc, List.replicate_succ]
    exact Prod.ext rfl (by push_cast; ring)

theorem outputString_eq : ∀ string out pc,
    outputString string out pc = (out ++ string, pc + string.length)
  | [], out, pc => by simp [outputString]
  | c :: string, out, pc => by
    rw [outputString, outputString_eq string, simpleOutputchar, List.append_assoc, List.length_cons]
    exact Prod.ext rfl (by push_cast; ring)

/-- What `prints` puts out. -/
def printsText (string : List Char) (width : ℤ) (flags : Flags) : List Char :=
  let pad := (width - string.length).toNat
  if flags.PAD_RIGHT then string ++ List.replicate pad ' '
  else List.replicate pad (if flags.PAD_ZERO then '0' else ' ') ++ string

theorem length_printsText (string : List Char) (width : ℤ) (flags : Flags) :
    (printsText string width flags).length = max width.toNat string.length := by
  unfold printsText
  dsimp only
  split <;> rw [List.length_append, List.length_replicate] <;> omega

theorem prints_eq (out string : List Char) (width : ℤ) (flags : Flags) :
    prints out string width flags =
      (out ++ printsText string width flags, wrapInt (printsText string width flags).length) := by
  have hlen := length_printsText string width flags
  have hpad : (if 0 < width then if width ≤
      string.length then 0 else width - string.length else width).toNat =
      (width - string.length).toNat := by
    split
    · split <;> omega
    · omega
  rw [hlen]
  unfold prints printsText
  dsimp only
  by_cases hright : flags.PAD_RIGHT = true
  · have hcount : (0 : ℤ) + string.length + (width - string.length).toNat =
        (max width.toNat string.length : ℕ) := by
      omega
    simp only [hright, if_true, not_true, and_false, if_false, outputString_eq,
      outputPad_eq, hpad, hcount,
      List.append_assoc]
  · have hnone : (min (if 0 < width then if width ≤
        string.length then 0 else width - string.length else width)
        0).toNat = 0 := by omega
    have hcount : (0 : ℤ) + (width - string.length).toNat + string.length + (0 : ℕ) =
        (max width.toNat string.length : ℕ) := by omega
    have hchar : List.replicate (width - string.length).toNat
          (if 0 < width ∧ flags.PAD_ZERO ∧ ¬ flags.PAD_RIGHT then '0' else ' ') =
        List.replicate (width - string.length).toNat (if flags.PAD_ZERO then '0' else ' ') := by
      by_cases hw : 0 < width
      · simp only [hw, hright, true_and, Bool.false_eq_true, not_false_iff, and_true]
      · rw [show (width - string.length).toNat = 0 by omega]
        rfl
    simp only [Bool.not_eq_true] at hright
    simp only [hright, Bool.false_eq_true, if_false] at hchar ⊢
    simp only [outputString_eq, outputPad_eq, hpad, hnone, hcount, hchar,
      List.replicate_zero, List.append_nil,
      List.append_assoc]

/-! ## The digits -/

namespace PrintBuf

theorem push_of_lt {b : PrintBuf} (hb : b.text.length + 1 < PRINT_BUF_LEN) (c : Char) :
    ∃ b', b.push c = some b' ∧ b'.text = c :: b.text := by
  have hs : 0 < b.s := by have := b.full; omega
  exact ⟨_, dif_pos hs, rfl⟩

end PrintBuf

/-- A turn for each digit, as long as the buffer has room for them. -/
theorem writeDigits_eq (hb : 1 < base) (letbase : Char) : ∀ n (b : PrintBuf) u,
    (Nat.digits base u).length < n →
    b.text.length + (Nat.digits base u).length < PRINT_BUF_LEN →
    ∃ b', writeDigits base letbase n b u = some b' ∧
      b'.text = ((Nat.digits base u).map (digitChar letbase)).reverse ++ b.text
  | 0, _, _, hn, _ => absurd hn (Nat.not_lt_zero _)
  | n + 1, b, u, hn, hroom => by
    rw [writeDigits]
    by_cases hu : u = 0
    · exact ⟨b, if_pos hu, by rw [hu, Nat.digits_zero]; rfl⟩
    · have hlen : (Nat.digits base u).length = (Nat.digits base (u / base)).length + 1 := by
        rw [Nat.digits_def' hb (Nat.pos_of_ne_zero hu), List.length_cons]
      obtain ⟨b₁, hb₁, htext₁⟩ := PrintBuf.push_of_lt (b := b) (by omega) (digitChar letbase (u % base))
      obtain ⟨b₂, hb₂, htext₂⟩ := writeDigits_eq hb letbase n b₁ (u / base) (by omega)
        (by rw [htext₁, List.length_cons]; omega)
      refine ⟨b₂, by rw [if_neg hu, hb₁, Option.bind_some, hb₂], ?_⟩
      rw [htext₂, htext₁, digits_step hb hu]

/-- The base is one that `simple_vsprintf` passes. -/
def PrintBase (base : ℕ) : Prop := base = 8 ∨ base = 10 ∨ base = 16

instance (base : ℕ) : Decidable (PrintBase base) := inferInstanceAs (Decidable (_ ∨ _))

/-- A number of 64 bits has at most 22 digits. -/
theorem length_digits_le (hbase : PrintBase base) (hu : u < 2 ^ 64) :
    (Nat.digits base u).length ≤ 22 := by
  have hb : 8 ≤ base := by rcases hbase with rfl | rfl | rfl <;> decide
  refine (Nat.digits_length_le_iff (by omega) u).mpr (hu.trans_le ?_)
  exact le_trans (by decide) (Nat.pow_le_pow_left hb 22)

/-! ## Numbers -/

def IsNegative (i : BitVec 64) (base : ℕ) (sign : Bool) : Prop := sign ∧ base = 10 ∧ i.toInt < 0

instance (i : BitVec 64) (base : ℕ) (sign : Bool) : Decidable (IsNegative i base sign) :=
  inferInstanceAs (Decidable (_ ∧ _ ∧ _))

/-- The number that is printed after the sign. -/
def magnitude (i : BitVec 64) (base : ℕ) (sign : Bool) : ℕ :=
  if sign ∧ base = 10 then i.toInt.natAbs else i.toNat

theorem magnitude_eq (i : BitVec 64) (base : ℕ) (sign : Bool) :
    magnitude i base sign = if IsNegative i base sign then (-i).toNat else i.toNat := by
  have hi := i.isLt
  unfold magnitude
  by_cases h : sign ∧ base = 10
  · rw [if_pos h]
    by_cases hneg : i.toInt < 0
    · rw [if_pos (show IsNegative i base sign from ⟨h.1, h.2, hneg⟩), BitVec.toNat_neg]
      rw [BitVec.toInt_eq_toNat_cond] at hneg ⊢
      omega
    · rw [if_neg (show ¬ IsNegative i base sign from fun h => hneg h.2.2)]
      rw [BitVec.toInt_eq_toNat_cond] at hneg ⊢
      omega
  · rw [if_neg h, if_neg (show ¬ IsNegative i base sign from fun h' => h ⟨h'.1, h'.2.1⟩)]

theorem magnitude_lt (i : BitVec 64) (base : ℕ) (sign : Bool) : magnitude i base sign < 2 ^ 64 := by
  rw [magnitude_eq]
  split <;> exact BitVec.isLt _

theorem magnitude_ne_zero (hi : i ≠ 0) (base : ℕ) (sign : Bool) : magnitude i base sign ≠ 0 := by
  unfold magnitude
  split
  · exact fun h => hi (BitVec.eq_of_toInt_eq (Int.natAbs_eq_zero.mp h))
  · exact fun h => hi (BitVec.eq_of_toNat_eq h)

def signText (i : BitVec 64) (base : ℕ) (sign : Bool) : List Char :=
  if IsNegative i base sign then ['-'] else []

/-- What marks the base of a number other than 0. -/
def prefixText (flags : Flags) (base : ℕ) (letbase : Char) : List Char :=
  if flags.PREFIX then
    if base = 8 then ['0'] else if base = 16 then ['0', if letbase = 'a' then 'x' else 'X'] else []
  else []

/-- What `printk_write_num` puts out. -/
def numText (i : BitVec 64) (base : ℕ) (sign : Bool) (width : ℤ) (flags : Flags)
    (letbase : Char) : List Char :=
  let digits := numeral (digitChar letbase) base (magnitude i base sign)
  if i = 0 then printsText ['0'] width flags
  else if width ≠ 0 ∧ flags.PAD_ZERO ∧ ¬ flags.PAD_RIGHT then
    signText i base sign ++ prefixText flags base letbase ++
      printsText digits (width - (signText i base sign).length) flags
  else printsText (prefixText flags base letbase ++ signText i base sign ++ digits) width flags

namespace NumState

/-- The state after the characters `early` have been put out and `pushed` is in front of the text. -/
structure After (n : NumState) (early pushed : List Char) (width : ℤ) (n' : NumState) : Prop where
  out : n'.out = n.out ++ early
  pc : n'.pc = n.pc + early.length
  text : n'.s.text = pushed ++ n.s.text
  width : n'.width = width

variable {m m' m'' : NumState} {e₁ e₂ p₁ p₂ : List Char} {w : ℤ}

theorem After.refl (m : NumState) : m.After [] [] m.width m :=
  ⟨(List.append_nil _).symm, (Int.add_zero _).symm, rfl, rfl⟩

theorem After.trans (h₁ : m.After e₁ p₁ width m') (h₂ : m'.After e₂ p₂ w m'') :
    m.After (e₁ ++ e₂) (p₂ ++ p₁) w m'' where
  out := by rw [h₂.out, h₁.out, List.append_assoc]
  pc := by rw [h₂.pc, h₁.pc, List.length_append]; push_cast; ring
  text := by rw [h₂.text, h₁.text, List.append_assoc]
  width := h₂.width

theorem emit_spec (m : NumState) (hroom : m.s.text.length + 1 < PRINT_BUF_LEN)
    (pad_zero : Bool) (c : Char) :
    ∃ m', m.emit pad_zero c = some m' ∧
      m.After (if pad_zero then [c] else []) (if pad_zero then [] else [c]) m.width m' := by
  unfold emit
  cases pad_zero with
  | true => exact ⟨_, rfl, rfl, rfl, rfl, rfl⟩
  | false =>
    obtain ⟨s, hs, htext⟩ := PrintBuf.push_of_lt hroom c
    exact ⟨{ m with s := s }, by rw [hs]; rfl, (List.append_nil _).symm,
      (Int.add_zero _).symm, htext, rfl⟩

theorem writeSign_spec (m : NumState) (hroom : m.s.text.length + 1 < PRINT_BUF_LEN) (pad_zero : Bool)
    (i : BitVec 64) (base : ℕ) (sign : Bool) :
    ∃ m', m.writeSign (decide (IsNegative i base sign)) pad_zero = some m' ∧
      m.After (if pad_zero then signText i base sign else [])
      (if pad_zero then [] else signText i base sign)
        (if pad_zero then m.width - (signText i base sign).length else m.width) m' := by
  unfold signText
  by_cases hneg : IsNegative i base sign
  · obtain ⟨m', hm', h⟩ := emit_spec m hroom pad_zero '-'
    simp only [writeSign, hneg, decide_true, if_true, hm']
    cases pad_zero with
    | true => exact ⟨_, rfl, h.out, h.pc, h.text, congrArg (· - 1) h.width⟩
    | false => exact ⟨_, rfl, h⟩
  · simp only [writeSign, hneg, decide_false, Bool.false_eq_true, if_false, List.length_nil, ite_self]
    exact ⟨m, rfl, (After.refl m).out, (After.refl m).pc, rfl, by cases pad_zero <;> simp⟩

/-- The prefix of a number in one of the bases of `printf`. -/
theorem writePrefix_spec (m : NumState) (hroom : m.s.text.length + 2 < PRINT_BUF_LEN) (pad_zero : Bool)
    (base : ℕ) (letbase : Char) (flags : Flags) :
    ∃ m', m.writePrefix flags pad_zero base letbase = some m' ∧
      m.After (if pad_zero then prefixText flags base letbase else [])
        (if pad_zero then [] else prefixText flags base letbase) m.width m' := by
  have hroom₁ : m.s.text.length + 1 < PRINT_BUF_LEN := by omega
  have hnone : m.After (if pad_zero then [] else []) (if pad_zero then [] else []) m.width m := by
    rw [ite_self]
    exact After.refl m
  unfold writePrefix prefixText
  by_cases hpre : flags.PREFIX = true
  · simp only [hpre, if_true]
    by_cases h8 : base = 8
    · simp only [h8, if_true]
      exact emit_spec m hroom₁ pad_zero '0'
    · simp only [h8, if_false]
      by_cases h16 : base = 16
      · simp only [h16, if_true]
        generalize (if letbase = 'a' then 'x' else 'X') = c
        cases pad_zero with
        | true =>
          obtain ⟨m₁, hm₁, h₁⟩ := emit_spec m hroom₁ true '0'
          obtain ⟨m₂, hm₂, h₂⟩ := emit_spec m₁ (by rw [h₁.text]; exact hroom₁) true c
          exact ⟨m₂, by simp only [if_true, hm₁, Option.bind_some, hm₂], h₁.width ▸ h₁.trans h₂⟩
        | false =>
          obtain ⟨m₁, hm₁, h₁⟩ := emit_spec m hroom₁ false c
          obtain ⟨m₂, hm₂, h₂⟩ := emit_spec m₁ (by rw [h₁.text]; exact hroom) false '0'
          exact ⟨m₂, by simp only [Bool.false_eq_true, if_false, hm₁, Option.bind_some, hm₂],
            h₁.width ▸ h₁.trans h₂⟩
      · simp only [h16, if_false]
        exact ⟨m, rfl, hnone⟩
  · simp only [hpre, Bool.false_eq_true, if_false]
    exact ⟨m, rfl, hnone⟩

end NumState

/-- `printk_write_num` has a result: the buffer suffices. -/
theorem printkWriteNum_eq (hbase : PrintBase base) (out : List Char) (i : BitVec 64)
    (sign : Bool) (width : ℤ)
    (flags : Flags) (letbase : Char) :
    printkWriteNum out i base sign width flags letbase =
      some (out ++ numText i base sign width flags letbase,
        wrapInt (numText i base sign width flags letbase).length) := by
  have hb : 1 < base := by rcases hbase with rfl | rfl | rfl <;> decide
  have hlen := length_digits_le hbase (magnitude_lt i base sign)
  unfold printkWriteNum numText
  by_cases hi : i = 0
  · simp only [hi, if_true, prints_eq]
  obtain ⟨s, hs, htext⟩ := writeDigits_eq hb letbase PRINT_BUF_LEN .empty (magnitude i base sign)
    (hlen.trans_lt (by decide)) (by exact Nat.lt_of_le_of_lt (Nat.add_le_add_left hlen 0) (by decide))
  have htext : s.text = numeral (digitChar letbase) base (magnitude i base sign) := by
    rw [htext, numeral, if_neg (magnitude_ne_zero hi base sign)]
    exact List.append_nil _
  have hroom : s.text.length ≤ 22 := by
    rw [htext]
    exact length_numeral_le hb ((Nat.digits_length_le_iff hb _).mp hlen) (by decide)
  rw [if_neg hi, if_neg hi]
  dsimp only
  rw [magnitude_eq] at hs
  generalize hpad : decide (width ≠ 0 ∧ flags.PAD_ZERO = true ∧ ¬ flags.PAD_RIGHT = true) = pad_zero
  have hsign : (signText i base sign).length ≤ 1 := by
    unfold signText
    split <;> decide
  obtain ⟨m₁, hm₁, h₁⟩ := NumState.writeSign_spec ⟨out, 0, width, s⟩
    (by have : PRINT_BUF_LEN = 64 := rfl; dsimp only; omega) pad_zero i base sign
  have hroom₁ : m₁.s.text.length + 2 < PRINT_BUF_LEN := by
    have : PRINT_BUF_LEN = 64 := rfl
    rw [h₁.text, List.length_append]
    cases pad_zero <;> simp only [if_true, Bool.false_eq_true, if_false, List.length_nil] <;> omega
  obtain ⟨m₂, hm₂, h₂⟩ := NumState.writePrefix_spec m₁ hroom₁ pad_zero base letbase flags
  have h := h₁.trans h₂
  have hdec : decide (sign = true ∧ base = 10 ∧ i.toInt < 0) = decide (IsNegative i base sign) := rfl
  simp only [hdec, decide_eq_true_eq, hs, hm₁, hm₂, Option.bind_eq_bind, Option.bind_some, prints_eq]
  have hwrap : ∀ a b : ℤ, wrapInt (a + wrapInt b) = wrapInt (a + b) := fun a b => Int.add_bmod_bmod
  rw [hwrap, h.out, h.pc, h.text, h.width, h₁.width, htext]
  cases pad_zero with
  | true =>
    rw [if_pos (of_decide_eq_true hpad)]
    simp only [if_true, List.length_append, List.append_assoc, List.nil_append,
      Nat.cast_add, zero_add, add_assoc,
      Option.pure_def]
  | false =>
    rw [if_neg (of_decide_eq_false hpad)]
    simp only [Bool.false_eq_true, if_false, List.append_nil, List.length_nil,
      List.append_assoc, Nat.cast_zero,
      zero_add, Option.pure_def]

/-! ## The shape of a number -/

/-- The case of the digits is one that `simple_vsprintf` passes. -/
def PrintLetter (letbase : Char) : Prop := letbase = 'a' ∨ letbase = 'A'

instance (letbase : Char) : Decidable (PrintLetter letbase) := inferInstanceAs (Decidable (_ ∨ _))

theorem digitChar_zero (letbase : Char) : digitChar letbase 0 = '0' := rfl

/-- The characters that padding, sign and prefix use besides `0`. -/
theorem digitChar_ne (hletter : PrintLetter letbase) (hbase : PrintBase base) :
    ∀ d < base, digitChar letbase d ≠ ' ' ∧ digitChar letbase d ≠ '-' ∧ digitChar letbase d ≠ 'x' ∧
      digitChar letbase d ≠ 'X' ∧ (0 < d → digitChar letbase d ≠ '0') := by
  rcases hletter with rfl | rfl <;> rcases hbase with rfl | rfl | rfl <;> decide

/-- The characters of a numeral are those of digits. -/
theorem of_mem_numeral {P : Char → Prop} (hb : 1 < base) (h : ∀ d < base, P (digitChar letbase d)) :
    ∀ c ∈ numeral (digitChar letbase) base n, P c := by
  intro c hc
  unfold numeral at hc
  split at hc
  · rw [List.mem_singleton.mp hc]
    exact h 0 (by omega)
  · obtain ⟨d, hd, rfl⟩ := List.mem_map.mp (List.mem_reverse.mp hc)
    exact h d (Nat.digits_lt_base hb hd)

/-- The prefix, sign, zeros and digits of a number; only zeros may stand between. -/
def numCore (i : BitVec 64) (base : ℕ) (sign : Bool) (flags : Flags) (letbase : Char)
    (zeros : ℕ) : List Char :=
  signText i base sign ++
  ((if i = 0 then [] else prefixText flags base letbase) ++ (List.replicate zeros '0' ++
    numeral (digitChar letbase) base (magnitude i base sign)))

theorem signText_zero (base : ℕ) (sign : Bool) : signText 0 base sign = [] :=
  if_neg fun h => absurd h.2.2 (by decide)

theorem magnitude_zero (base : ℕ) (sign : Bool) : magnitude 0 base sign = 0 := by
  unfold magnitude
  split <;> rfl

/-- The sign and the prefix do not meet. -/
theorem signText_append_comm (i : BitVec 64) (base : ℕ) (sign : Bool) (flags : Flags) (letbase : Char) :
    prefixText flags base letbase ++ signText i base sign = signText i base sign ++
      prefixText flags base letbase := by
  by_cases h : base = 10
  · have hnone : prefixText flags base letbase = [] := by
      unfold prefixText
      rw [if_neg (show base ≠ 8 by omega), if_neg (show base ≠ 16 by omega), ite_self]
    rw [hnone, List.append_nil, List.nil_append]
  · have hnone : signText i base sign = [] := if_neg fun hneg => h hneg.2.1
    rw [hnone, List.append_nil, List.nil_append]

/-- The sign and the prefix are put out before the padding. -/
def PadsEarly (width : ℤ) (flags : Flags) : Prop := width ≠ 0 ∧ flags.PAD_ZERO ∧ ¬ flags.PAD_RIGHT

theorem printsText_zeros {flags : Flags} (string : List Char) (hpad : PadsEarly width flags) (w : ℤ) :
    printsText string w flags = List.replicate (w - string.length).toNat '0' ++ string := by
  rw [printsText, if_neg hpad.2.2, if_pos hpad.2.1]

theorem printsText_blanks {flags : Flags} (string : List Char) (hpad : ¬ PadsEarly width flags) :
    ∃ a b, printsText string width flags = List.replicate a ' ' ++ string ++ List.replicate b ' ' := by
  unfold printsText
  dsimp only
  split
  · exact ⟨0, _, rfl⟩
  · next hright =>
    refine ⟨(width - string.length).toNat, 0, ?_⟩
    rw [List.replicate_zero, List.append_nil]
    split
    · next hzero =>
      have hw : width = 0 := by_contra fun hw => hpad ⟨hw, hzero, hright⟩
      rw [show (width - string.length).toNat = 0 by omega]
      rfl
    · rfl

theorem numText_shape (i : BitVec 64) (base : ℕ) (sign : Bool) (width : ℤ)
    (flags : Flags) (letbase : Char) :
    ∃ a z b, numText i base sign width flags letbase =
      List.replicate a ' ' ++ numCore i base sign flags letbase z ++ List.replicate b ' ' := by
  unfold numText numCore
  dsimp only
  by_cases hi : i = 0
  · subst hi
    have hzero : numeral (digitChar letbase) base (magnitude 0 base sign) = ['0'] := by
      rw [magnitude_zero, numeral, if_pos rfl, digitChar_zero]
    rw [if_pos rfl, if_pos rfl, signText_zero, hzero]
    by_cases hpad : PadsEarly width flags
    · exact ⟨0, (width - 1).toNat, 0, by rw [printsText_zeros ['0'] hpad]; simp⟩
    · obtain ⟨a, b, h⟩ := printsText_blanks ['0'] hpad
      exact ⟨a, 0, b, h⟩
  rw [if_neg hi, if_neg hi]
  split
  · next hpad =>
    refine ⟨0, (width - (signText i base sign).length -
      (numeral (digitChar letbase) base (magnitude i base sign)).length).toNat, 0, ?_⟩
    rw [printsText_zeros _ hpad]
    simp
  · next hpad =>
    obtain ⟨a, b, h⟩ := printsText_blanks (prefixText flags base letbase ++ signText i base sign ++
      numeral (digitChar letbase) base (magnitude i base sign)) hpad
    refine ⟨a, 0, b, ?_⟩
    rw [h, signText_append_comm]
    simp

/-! ## Reading a number back -/

def unsigned (text : List Char) : List Char := if text.head? = some '-' then text.tail else text

def unprefixed (base : ℕ) (text : List Char) : List Char :=
  if base = 16 ∧ (text.take 2 = ['0', 'x'] ∨ text.take 2 = ['0', 'X']) then text.drop 2 else text

/-- What is left of a printed number without blanks, sign, prefix and leading zeros. -/
def unpadded (base : ℕ) (text : List Char) : List Char :=
  trimLeading '0' (unprefixed base (unsigned ((text.dropWhile (· = ' ')).rdropWhile (· = ' '))))

theorem unsigned_of_notMem (h : '-' ∉ text) : unsigned text = text :=
  if_neg fun hhead => h (List.mem_of_head? hhead)

theorem unprefixed_of_notMem (hx : 'x' ∉ text) (hX : 'X' ∉ text) (base : ℕ) :
    unprefixed base text = text := by
  have hnone : ∀ c ∉ text, text.take 2 ≠ ['0', c] := fun c hc htake =>
    hc (List.mem_of_mem_take (htake ▸ by simp : c ∈ text.take 2))
  exact if_neg fun h => h.2.elim (hnone _ hx) (hnone _ hX)

/-- The characters of a number are no blanks. -/
theorem numCore_ne_blank (hbase : PrintBase base) (hletter : PrintLetter letbase)
    (i : BitVec 64) (sign : Bool)
    (flags : Flags) (zeros : ℕ) : ∀ c ∈ numCore i base sign flags letbase zeros, c ≠ ' ' := by
  have hb : 1 < base := by rcases hbase with rfl | rfl | rfl <;> decide
  have hsign : ∀ c ∈ signText i base sign, c ≠ ' ' := by
    unfold signText
    split <;> simp
  have hpre : ∀ c ∈ (if i = 0 then [] else prefixText flags base letbase), c ≠ ' ' := by
    unfold prefixText
    rcases hletter with rfl | rfl <;> split_ifs <;> simp
  intro c hc
  simp only [numCore, List.mem_append] at hc
  rcases hc with hc | hc | hc | hc
  · exact hsign c hc
  · exact hpre c hc
  · rw [List.eq_of_mem_replicate hc]
    decide
  · exact of_mem_numeral (P := (· ≠ ' ')) hb (fun d hd => (digitChar_ne hletter hbase d hd).1) c hc

/-- The prefix and the zeros are not part of the numeral. -/
theorem unprefixed_digits (hbase : PrintBase base) (hletter : PrintLetter letbase)
    (i : BitVec 64) (flags : Flags)
    (z n : ℕ) :
    '-' ∉ (if i = 0 then [] else prefixText flags base letbase) ++ (List.replicate z '0' ++
      numeral (digitChar letbase) base n) ∧
    trimLeading '0' (unprefixed base ((if i = 0 then [] else prefixText flags base letbase) ++
      (List.replicate z '0' ++ numeral (digitChar letbase) base n))) =
      numeral (digitChar letbase) base n := by
  have hb : 1 < base := by rcases hbase with rfl | rfl | rfl <;> decide
  have htrim : ∀ z, trimLeading '0' (List.replicate z '0' ++ numeral (digitChar letbase) base n) =
      numeral (digitChar letbase) base n :=
    trimLeading_numeral hb fun d hd hlt => (digitChar_ne hletter hbase d hlt).2.2.2.2 hd
  have hdigits : ∀ c ∈ List.replicate z '0' ++ numeral (digitChar letbase) base n, c ≠ '-' ∧
      c ≠ 'x' ∧ c ≠ 'X' := by
    intro c hc
    rcases List.mem_append.mp hc with hc | hc
    · rw [List.eq_of_mem_replicate hc]
      decide
    · exact of_mem_numeral (P := fun c => c ≠ '-' ∧ c ≠ 'x' ∧ c ≠ 'X') hb (fun d hd =>
        ⟨(digitChar_ne hletter hbase d hd).2.1, (digitChar_ne hletter hbase d hd).2.2.1,
          (digitChar_ne hletter hbase d hd).2.2.2.1⟩) c hc
  have hminus : '-' ∉ (if i = 0 then [] else prefixText flags base letbase) := by
    unfold prefixText
    rcases hletter with rfl | rfl <;> split_ifs <;> decide
  have hplain := htrim z
  rw [← unprefixed_of_notMem (fun h => (hdigits _ h).2.1 rfl)
    (fun h => (hdigits _ h).2.2 rfl) base] at hplain
  refine ⟨fun h => (List.mem_append.mp h).elim hminus fun h => (hdigits _ h).1 rfl, ?_⟩
  generalize hbody : List.replicate z '0' ++ numeral (digitChar letbase) base n = body at hplain ⊢
  by_cases hi : i = 0
  · rw [if_pos hi, List.nil_append, hplain]
  rw [if_neg hi]
  unfold prefixText
  by_cases hpre : flags.PREFIX = true
  · rw [if_pos hpre]
    rcases hbase with rfl | rfl | rfl
    · rw [if_pos rfl, unprefixed, if_neg fun h => absurd h.1 (by decide), ← hbody]
      exact htrim (z + 1)
    · exact hplain
    · have hdrop : ∀ c, c = 'x' ∨ c = 'X' → unprefixed 16 (['0', c] ++ body) = body := by
        rintro c (rfl | rfl)
        · exact if_pos ⟨rfl, .inl rfl⟩
        · exact if_pos ⟨rfl, .inr rfl⟩
      rw [if_neg (by decide), if_pos rfl, hdrop _ (by split <;> simp), ← hbody, htrim]
  · rw [if_neg hpre, List.nil_append, hplain]

theorem unpadded_numText (hbase : PrintBase base) (hletter : PrintLetter letbase)
    (i : BitVec 64) (sign : Bool)
    (width : ℤ) (flags : Flags) :
    unpadded base (numText i base sign width flags letbase) =
      numeral (digitChar letbase) base (magnitude i base sign) := by
  obtain ⟨a, z, b, h⟩ := numText_shape i base sign width flags letbase
  have hne := numeral_ne_nil (digitChar letbase) base (magnitude i base sign)
  have hcore : numCore i base sign flags letbase z ≠ [] := by simp [numCore, hne]
  rw [unpadded, h, dropWhile_rdropWhile_replicate (numCore_ne_blank hbase hletter i sign flags z) hcore]
  obtain ⟨hminus, hdigits⟩ :=
    unprefixed_digits hbase hletter i flags z (magnitude i base sign)
  unfold numCore signText
  split
  · exact hdigits
  · rw [List.nil_append, unsigned_of_notMem hminus, hdigits]

/-- A `-` comes after blanks only, and only in front of a negative number. -/
theorem minus_numText (hbase : PrintBase base) (hletter : PrintLetter letbase)
    (i : BitVec 64) (sign : Bool)
    (width : ℤ) (flags : Flags) :
    ('-' ∈ numText i base sign width flags letbase ↔ IsNegative i base sign) ∧
    (IsNegative i base sign → ∃ a rest,
    numText i base sign width flags letbase = List.replicate a ' ' ++ '-' :: rest) := by
  obtain ⟨a, z, b, h⟩ := numText_shape i base sign width flags letbase
  obtain ⟨hminus, -⟩ := unprefixed_digits hbase hletter i flags z (magnitude i base sign)
  have hblank : ∀ k, '-' ∉ List.replicate k ' ' :=
    fun k h => absurd (List.eq_of_mem_replicate h) (by decide)
  rw [h, numCore]
  generalize (if i = 0 then [] else prefixText flags base letbase) ++ (List.replicate z '0' ++
    numeral (digitChar letbase) base (magnitude i base sign)) = digits at hminus ⊢
  unfold signText
  by_cases hneg : IsNegative i base sign
  · rw [if_pos hneg]
    exact ⟨by simp [hneg], fun _ => ⟨a, digits ++ List.replicate b ' ', by simp⟩⟩
  · rw [if_neg hneg]
    exact ⟨by simp [hneg, hminus, hblank], fun h => absurd h hneg⟩

theorem le_length_numText (i : BitVec 64) (base : ℕ) (sign : Bool) (width : ℤ)
    (flags : Flags) (letbase : Char) :
    width ≤ (numText i base sign width flags letbase).length := by
  unfold numText
  dsimp only
  split
  · rw [length_printsText]
    omega
  · split
    · simp only [List.length_append, length_printsText]
      omega
    · rw [length_printsText]
      omega

theorem wrapInt_of_lt (hn : n < 2 ^ 31) : wrapInt n = n :=
  Int.bmod_eq_of_le_mul_two (by omega) (by omega)

/-- `printk_write_num` prints the number, and it returns the length of the text if an `int` holds it. -/
theorem printkWriteNum_spec (hbase : PrintBase base) (hletter : PrintLetter letbase) (out : List Char)
    (i : BitVec 64) (sign : Bool) (width : ℤ) (flags : Flags) :
    ∃ text ret, printkWriteNum out i base sign width flags letbase = some (out ++ text, ret) ∧
      unpadded base text = numeral (digitChar letbase) base (magnitude i base sign) ∧
      ('-' ∈ text ↔ IsNegative i base sign) ∧
      (IsNegative i base sign → ∃ a rest, text = List.replicate a ' ' ++ '-' :: rest) ∧
      width ≤ text.length ∧ (text.length < 2 ^ 31 → ret = text.length) :=
  have hminus := minus_numText hbase hletter i sign width flags
  ⟨_, _, printkWriteNum_eq hbase out i sign width flags letbase,
    unpadded_numText hbase hletter i sign width flags, hminus.1, hminus.2,
    le_length_numText i base sign width flags letbase, wrapInt_of_lt⟩

theorem printkWriteNum_spec_min :
    (PrintBase 10 ∧ PrintLetter 'a') ∧
    ∃ text ret, printkWriteNum [] (BitVec.ofInt 64 (-2 ^ 63)) 10 true 25 { PAD_ZERO := true } 'a' =
        some ([] ++ text, ret) ∧
      unpadded 10 text = numeral (digitChar 'a') 10 (magnitude (BitVec.ofInt 64 (-2 ^ 63)) 10 true) ∧
      ('-' ∈ text ↔ IsNegative (BitVec.ofInt 64 (-2 ^ 63)) 10 true) ∧
      (IsNegative (BitVec.ofInt 64 (-2 ^ 63)) 10 true → ∃ a rest,
      text = List.replicate a ' ' ++ '-' :: rest) ∧
      25 ≤ text.length ∧ (text.length < 2 ^ 31 → ret = text.length) := by
  refine ⟨⟨.inr (.inl rfl), .inl rfl⟩, ?_⟩
  obtain ⟨text, ret, h, hnum, hmem, hneg, hlen, hret⟩ :=
    printkWriteNum_spec (.inr (.inl rfl)) (.inl rfl) []
      (BitVec.ofInt 64 (-2 ^ 63)) true 25 { PAD_ZERO := true }
  exact ⟨text, ret, h, hnum, hmem, hneg, by omega, hret⟩

/-- A prefix in front of zeros does not count for the width, so that an `int` does not hold the
length of the text of `%#02147483647x`. -/
theorem printkWriteNum_overflow :
    ¬ ∃ text, printkWriteNum [] 1 16 false 2147483647 { PAD_ZERO := true, PREFIX := true } 'a' =
      some (text, text.length) := by
  rintro ⟨text, h⟩
  rw [printkWriteNum_eq (.inr (.inr rfl)), List.nil_append, Option.some.injEq, Prod.mk.injEq] at h
  obtain ⟨htext, hret⟩ := h
  have hlen : (2147483649 : ℤ) ≤ text.length := by
    rw [← htext, numText]
    dsimp only
    rw [if_neg (by decide), if_pos ⟨by decide, rfl, by decide⟩, List.length_append, List.length_append,
      length_printsText]
    have hpre : (prefixText { PAD_ZERO := true, PREFIX := true } 16 'a').length = 2 := rfl
    have hsign : (signText 1 16 false).length = 0 := rfl
    rw [hpre, hsign]
    push_cast
    omega
  have hlt : wrapInt text.length < 2 ^ 31 := by
    have := Int.bmod_lt (x := (text.length : ℤ)) (m := 2 ^ 32) (by decide)
    unfold wrapInt
    omega
  rw [htext] at hret
  omega

end OrangeOs.Lib
