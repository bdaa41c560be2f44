import OrangeOs.Library.Memory

/-! # `memmove`

The function of `lib/string.cc` copies from the last byte down and counts in an `int`. It moves the bytes
just when the counter can hold the last index and the destination does not begin below a source that
it reaches into.
-/

namespace OrangeOs.Lib

open Memory

/-- The loop of `memmove` from a value of its counter on. -/
def memmoveFrom (m : Memory) (dest src : ℕ) (i : ℤ) : Memory :=
  if _h : i ≥ 0 then
    memmoveFrom (m.set (dest + i.toNat) (m (src + i.toNat))) dest src (i - 1)
  else m
termination_by (i + 1).toNat

/-- The first value of the counter: `size - 1`, converted to `int`. -/
def counter (size : UInt64) : ℤ := (size - 1).toUInt32.toInt32.toInt

def memmove (m : Memory) (dest src : ℕ) (size : UInt64) : Memory :=
  memmoveFrom m dest src (counter size)

/-- The bytes of the source, as they were, are at the destination, and nothing else has changed. -/
structure Moved (m m' : Memory) (dest src size : ℕ) : Prop where
  bytes : ∀ k < size, m' (dest + k) = m (src + k)
  outside : Same m m' fun i => i < dest ∨ dest + size ≤ i

/-- The number of rounds of the loop. -/
def rounds (size : UInt64) : ℕ := (counter size + 1).toNat

variable {m : Memory} {dest src : ℕ} {size : UInt64}

theorem memmoveFrom_eq (m : Memory) (dest src : ℕ) (i : ℤ) :
    memmoveFrom m dest src i = m.copyDown dest src (i + 1).toNat := by
  fun_induction memmoveFrom m dest src i with
  | case1 m i h ih =>
    obtain ⟨k, rfl⟩ := Int.eq_ofNat_of_zero_le h
    rw [ih, Int.sub_add_cancel]
    rfl
  | case2 m i h =>
    rw [show (i + 1).toNat = 0 by omega]
    rfl

theorem memmove_eq (m : Memory) (dest src : ℕ) (size : UInt64) :
    memmove m dest src size = m.copyDown dest src (rounds size) :=
  memmoveFrom_eq m dest src (counter size)

theorem counter_eq (size : UInt64) : counter size =
    if (size.toNat + (2 ^ 64 - 1)) % 2 ^ 32 < 2 ^ 31 then
      (((size.toNat + (2 ^ 64 - 1)) % 2 ^ 32 : ℕ) : ℤ)
    else (((size.toNat + (2 ^ 64 - 1)) % 2 ^ 32 : ℕ) : ℤ) - 2 ^ 32 := by
  have hnat : (size - 1).toUInt32.toNat = (size.toNat + (2 ^ 64 - 1)) % 2 ^ 32 := by
    have h1 : (1 : UInt64).toNat = 1 := rfl
    rw [UInt64.toNat_toUInt32, UInt64.toNat_sub, h1]
    omega
  have hint : counter size = (size - 1).toUInt32.toBitVec.toInt := rfl
  rw [hint, BitVec.toInt_eq_toNat_cond, UInt32.toNat_toBitVec, hnat]
  split <;> split <;> omega

/-- The loop covers at most the range, and all of it as long as an `int` can count it. -/
theorem rounds_le (size : UInt64) : rounds size ≤ size.toNat := by
  have := size.toNat_lt
  rw [rounds, counter_eq]
  split <;> omega

theorem rounds_eq_iff : rounds size = size.toNat ↔ size.toNat ≤ 2 ^ 31 := by
  have := size.toNat_lt
  rw [rounds, counter_eq]
  split <;> omega

/-- What a call moves on one memory: the bytes that it overwrites before it reads them must repeat the
others, and the bytes past the last round must be there already. -/
theorem moved_memmove_iff : Moved m (memmove m dest src size) dest src size.toNat ↔
    (dest < src → ∀ k, src + k < dest + rounds size → m (src + k) = m (src + (k + (src - dest)))) ∧
      ∀ k, rounds size ≤ k → k < size.toNat → m (dest + k) = m (src + k) := by
  have hle := rounds_le size
  have hsame := copyDown_same m dest src (rounds size)
  rw [← copyDown_copies_iff, memmove_eq]
  constructor
  · intro h
    refine ⟨fun k hk => h.bytes k (by omega), fun k hk hlt => ?_⟩
    rw [← h.bytes k hlt, hsame _ (by omega)]
  · rintro ⟨hlow, hhigh⟩
    refine ⟨fun k hk => ?_, hsame.mono fun i hi => by omega⟩
    by_cases hround : k < rounds size
    · exact hlow k hround
    · rw [hsame _ (by omega), hhigh k (by omega) hk]

/-- A memory with one byte set tells the addresses of the source and of the destination apart. -/
theorem mark_ne {x y : ℕ} (h : x ≠ y) :
    (fun i => if i = x then 1 else 0 : Memory) x ≠ (fun i => if i = x then 1 else 0 : Memory) y := by
  simp [h.symm]

/-- `memmove` moves the bytes in every memory if the ranges are one, or if `size` is at most `2 ^ 31`
and the destination does not begin below a source that it reaches into, and not otherwise. -/
theorem memmove_moves (dest src : ℕ) (size : UInt64) :
    ((∀ m, Moved m (memmove m dest src size) dest src size.toNat) ↔
      dest = src ∨ size.toNat ≤ 2 ^ 31 ∧ (src < dest ∨ dest + size.toNat ≤ src)) ∧
    ∀ m, Moved m (memmove m dest src size) dest src size.toNat ↔
      (dest < src → ∀ k, src + k < dest + rounds size →
        m (src + k) = m (src + (k + (src - dest)))) ∧
      ∀ k, rounds size ≤ k → k < size.toNat → m (dest + k) = m (src + k) := by
  refine ⟨?_, fun m => moved_memmove_iff⟩
  simp only [moved_memmove_iff]
  constructor
  · intro h
    by_contra hne
    rw [not_or] at hne
    obtain ⟨hneq, hrange⟩ := hne
    by_cases hsize : size.toNat ≤ 2 ^ 31
    · have hrounds := rounds_eq_iff.mpr hsize
      refine mark_ne (x := src) (y := src + (0 + (src - dest))) (by omega) ?_
      exact (h fun i => if i = src then 1 else 0).1 (by omega) 0 (by omega)
    · have hle := rounds_le size
      have hrounds := mt rounds_eq_iff.mp hsize
      refine mark_ne (x := src + (size.toNat - 1)) (y := dest + (size.toNat - 1)) (by omega) ?_
      exact ((h fun i => if i = src + (size.toNat - 1) then 1 else 0).2 _ (by omega) (by omega)).symm
  · rintro (rfl | ⟨hsize, hrange⟩) m
    · exact ⟨fun hlt => absurd hlt (lt_irrefl _), fun k _ _ => rfl⟩
    · have hrounds := rounds_eq_iff.mpr hsize
      exact ⟨fun hlt k hk => by omega, fun k hk hlt => by omega⟩

/-- Two bytes moved down by one address: the first of them is lost. -/
theorem memmove_loses_first : ¬ ∀ (m : Memory) (dest src : ℕ) (size : UInt64),
    Moved m (memmove m dest src size) dest src size.toNat := by
  intro h
  have hbyte := (h (fun i => UInt8.ofNat i) 0 1 2).bytes 0 (by decide)
  rw [memmove_eq] at hbyte
  revert hbyte
  decide

end OrangeOs.Lib
