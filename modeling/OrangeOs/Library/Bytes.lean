import Mathlib.Data.FinEnum
import Mathlib.Data.Fintype.Pi
import Mathlib.Tactic.Common
import Mathlib.Tactic.Ring

/-! # Byte buffers, little-endian numbers and bit maps

A buffer of `n` bytes is read through `Buffer.byte`, which is total in the offset, and
changed through `Buffer.patch`, which replaces one range of bytes. Numbers are
stored in little-endian order, and a bit map packs bit `k` as bit `k % 8` of byte `k / 8`.
-/

namespace OrangeOs

/-- An array of `n` bytes. -/
def Buffer (n : ℕ) := Fin n → UInt8

namespace Buffer

variable {n : ℕ} {s t : Buffer n} {f g : ℕ → UInt8} {i o len : ℕ}

instance : DecidableEq (Buffer n) := inferInstanceAs (DecidableEq (Fin n → UInt8))

/-- The byte at an offset, zero past the end. -/
def byte (s : Buffer n) (o : ℕ) : UInt8 := if h : o < n then s ⟨o, h⟩ else 0

/-- The buffer that holds `f o` at offset `o`. -/
def ofFn (f : ℕ → UInt8) : Buffer n := fun i => f i

/-- Replace the `len` bytes from offset `o` on. -/
def patch (s : Buffer n) (o len : ℕ) (f : ℕ → UInt8) : Buffer n :=
  ofFn fun i => if o ≤ i ∧ i < o + len then f (i - o) else s.byte i

theorem byte_ofFn (h : o < n) : (ofFn f : Buffer n).byte o = f o := dif_pos h

theorem ext_byte (h : ∀ o < n, s.byte o = t.byte o) : s = t := by
  funext i
  simpa [byte] using h i i.isLt

theorem byte_patch (hi : i < n) :
    (s.patch o len f).byte i = if o ≤ i ∧ i < o + len then f (i - o) else s.byte i :=
  byte_ofFn hi

theorem byte_patch_of_mem (hi : i < n) (h : o ≤ i) (h' : i < o + len) :
    (s.patch o len f).byte i = f (i - o) := by
  rw [byte_patch hi, if_pos ⟨h, h'⟩]

theorem byte_patch_add (h : i < len) (hn : o + i < n) : (s.patch o len f).byte (o + i) = f i := by
  rw [byte_patch_of_mem hn (by omega) (by omega), Nat.add_sub_cancel_left]

theorem byte_patch_of_not_mem (h : i < o ∨ o + len ≤ i) :
    (s.patch o len f).byte i = s.byte i := by
  by_cases hi : i < n
  · rw [byte_patch hi, if_neg (by omega)]
  · simp [byte, hi]

/-- The bytes before the first zero byte. -/
def cstr (s : Buffer n) : List UInt8 := ((List.range n).map s.byte).takeWhile (· ≠ 0)

end Buffer

/-- The byte at an index of a string, zero (the terminator) past its end. -/
def charAt (s : List UInt8) (k : ℕ) : UInt8 := s.getD k 0

section CharAt

variable {s t : List UInt8} {k m : ℕ}

theorem charAt_eq_getElem (hk : k < s.length) : charAt s k = s[k] := by
  simp [charAt, List.getElem?_eq_getElem hk]

theorem charAt_of_le (hk : s.length ≤ k) : charAt s k = 0 := by
  simp [charAt, List.getElem?_eq_none hk]

theorem charAt_append_left (hk : k < s.length) : charAt (s ++ t) k = charAt s k := by
  simp [charAt, List.getElem?_append_left hk]

theorem charAt_append_right (hk : s.length ≤ k) :
    charAt (s ++ t) k = charAt t (k - s.length) := by
  simp [charAt, List.getElem?_append_right hk]

theorem charAt_take (hk : k < m) : charAt (s.take m) k = charAt s k := by
  simp [charAt, hk]

theorem charAt_drop : charAt (s.drop m) k = charAt s (m + k) := by
  simp [charAt]

theorem charAt_map_range {f : ℕ → UInt8} (hk : k < m) :
    charAt ((List.range m).map f) k = f k := by
  simp [charAt, hk]

/-- Strings of one length with the same bytes are equal. -/
theorem ext_charAt (hl : s.length = t.length) (h : ∀ k < s.length, charAt s k = charAt t k) :
    s = t := by
  apply List.ext_getElem hl
  intro k hs ht
  simpa [charAt_eq_getElem, hs, ht] using h k hs

end CharAt

/-- The number held in little-endian order by the `n` bytes of `m` from `o` on. -/
def leNat (m : ℕ → UInt8) (o : ℕ) : ℕ → ℕ
  | 0 => 0
  | n + 1 => (m o).toNat + 256 * leNat m (o + 1) n

/-- Byte `k` of a number in little-endian order. -/
def leByte (v k : ℕ) : UInt8 := UInt8.ofNat (v / 256 ^ k)

section LittleEndian

variable {m m' : ℕ → UInt8} {o o' n v : ℕ}

theorem leNat_lt (m : ℕ → UInt8) (o n : ℕ) : leNat m o n < 256 ^ n := by
  induction n generalizing o with
  | zero => simp [leNat]
  | succ n ih =>
    have hb := (m o).toNat_lt
    have hr := ih (o + 1)
    rw [leNat, pow_succ]
    omega

theorem leNat_congr (h : ∀ k < n, m (o + k) = m' (o' + k)) : leNat m o n = leNat m' o' n := by
  induction n generalizing o o' with
  | zero => rfl
  | succ n ih =>
    have h₀ : m o = m' o' := h 0 (by omega)
    have hr : leNat m (o + 1) n = leNat m' (o' + 1) n := ih fun k hk => by
      simpa [Nat.add_assoc, Nat.add_comm, Nat.add_left_comm] using h (k + 1) (by omega)
    rw [leNat, leNat, h₀, hr]

theorem leByte_succ (v k : ℕ) : leByte v (k + 1) = leByte (v / 256) k := by
  rw [leByte, leByte, pow_succ', Nat.div_div_eq_div_mul]

/-- Reading back a stored number keeps its value modulo the width of the field. -/
theorem leNat_of_leByte (h : ∀ k < n, m (o + k) = leByte v k) : leNat m o n = v % 256 ^ n := by
  induction n generalizing o v with
  | zero => simp [leNat, Nat.mod_one]
  | succ n ih =>
    have h₀ : (m o).toNat = v % 256 := by
      have hm : m o = leByte v 0 := h 0 (by omega)
      simp [hm, leByte]
    have hr : leNat m (o + 1) n = v / 256 % 256 ^ n := ih fun k hk => by
      rw [← leByte_succ, ← h (k + 1) (by omega)]
      congr 1; omega
    rw [leNat, h₀, hr, pow_succ', Nat.mod_mul]

end LittleEndian

/-- The mask of one bit of a byte. -/
def bitMask (k : ℕ) : UInt8 := 1 <<< UInt8.ofNat k

/-- Bit `k` of a bit map. -/
def bitAt (m : ℕ → UInt8) (k : ℕ) : Bool := (m (k / 8)).toNat.testBit (k % 8)

section Bits

variable {v : UInt8} {j k : ℕ}

theorem and_bitMask_eq_zero_iff (v : UInt8) (hk : k < 8) :
    bitMask k &&& v = 0 ↔ v.toNat.testBit k = false := by
  have h : ∀ v : UInt8, ∀ k < 8, bitMask k &&& v = 0 ↔ v.toNat.testBit k = false := by
    decide +kernel
  exact h v k hk

theorem toNat_bitMask (hk : k < 8) : (bitMask k).toNat = 2 ^ k := by
  have h : ∀ k < 8, (bitMask k).toNat = 2 ^ k := by decide
  exact h k hk

theorem testBit_or_bitMask (v : UInt8) (hj : j < 8) :
    (v ||| bitMask j).toNat.testBit k = (v.toNat.testBit k || decide (j = k)) := by
  rw [UInt8.toNat_or, Nat.testBit_or, toNat_bitMask hj, Nat.testBit_two_pow]

theorem testBit_and_not_bitMask (v : UInt8) (hj : j < 8) (hk : k < 8) :
    (v &&& ~~~ bitMask j).toNat.testBit k = (v.toNat.testBit k && decide (j ≠ k)) := by
  have hnot : (~~~ bitMask j).toNat = 2 ^ 8 - (2 ^ j + 1) := by
    rw [UInt8.toNat_not, toNat_bitMask hj, UInt8.size]
    omega
  rw [UInt8.toNat_and, Nat.testBit_and, hnot,
    Nat.testBit_two_pow_sub_succ (Nat.pow_lt_pow_right (by omega) hj), Nat.testBit_two_pow]
  simp [hk]

theorem exists_testBit_false (h : v ≠ 0xff) : ∃ k < 8, v.toNat.testBit k = false := by
  by_contra hall
  simp only [not_exists, not_and, Bool.not_eq_false] at hall
  refine h (UInt8.toNat_inj.mp (Nat.eq_of_testBit_eq fun k => ?_))
  rw [show (0xff : UInt8).toNat = 2 ^ 8 - 1 from rfl, Nat.testBit_two_pow_sub_one]
  by_cases hk : k < 8
  · simp [hall k hk, hk]
  · rw [Nat.testBit_lt_two_pow (v.toNat_lt.trans_le (Nat.pow_le_pow_right (by omega) (not_lt.mp hk)))]
    simp [hk]

theorem testBit_of_and_eq_zero {x m : ℕ} (h : x &&& m = 0) (hm : m.testBit k = true) :
    x.testBit k = false := by
  have hand : (x &&& m).testBit k = false := by rw [h, Nat.zero_testBit]
  rwa [Nat.testBit_and, hm, Bool.and_true] at hand

theorem testBit_full (hk : k < 8) : (0xff : UInt8).toNat.testBit k = true := by
  have h : ∀ k < 8, (0xff : UInt8).toNat.testBit k = true := by decide
  exact h k hk

end Bits

end OrangeOs
