import OrangeOs.Kernel.VirtualMemory

/-! # The search for free pages

`AllocContinuousPage` slides a window of `n` bits over the bit map, from the last page down. The
test of a window looks at all of its pages in the byte of the last page. Of the pages in the byte
before it looks at the first page of the window only.
-/

namespace OrangeOs.Kernel

open VirtualMemory

variable {b i k n t : ℕ} {m : ℕ → UInt8} {bm : Buffer 4096}

/-- The mask of `AllocContinuousPage`. -/
def windowMask (n : ℕ) : ℕ := (((1 <<< n) - 1) <<< (16 - n)) % 2 ^ 16

/-- The pages of the window that ends with page `t` are free. -/
def RunFree (m : ℕ → UInt8) (n t : ℕ) : Prop := ∀ k ≤ t, t < k + n → bitAt m k = false

/-- The window that ends with page `t` passes the test. -/
def Passes (m : ℕ → UInt8) (n t : ℕ) : Prop :=
  (∀ k ≤ t, t < k + n → k / 8 = t / 8 → bitAt m k = false) ∧
    (t % 8 + 1 < n → bitAt m (t + 1 - n) = false)

theorem RunFree.passes (h : RunFree m n t) (hn : n ≤ t + 1) : Passes m n t :=
  ⟨fun k hk hkn _ => h k hk hkn, fun _ => h _ (by omega) (by omega)⟩

/-- The test is exact for windows of one or two pages. -/
theorem Passes.runFree (h : Passes m n t) (hn : n ≤ 2) : RunFree m n t := by
  intro k hk hkn
  by_cases hbyte : k / 8 = t / 8
  · exact h.1 k hk hkn hbyte
  · obtain rfl : k = t + 1 - n := by omega
    exact h.2 (by omega)

/-- A window that passes does not end in the first byte if that is full. -/
theorem Passes.start_le (h : Passes m n t) (hfull : m 0 = 0xff) (hn : 1 ≤ n)
    (hn' : n ≤ 8) : n ≤ t + 1 := by
  by_contra hlt
  have hbit := h.1 t le_rfl (by omega) rfl
  rw [bitAt, show t / 8 = 0 by omega, hfull, testBit_full (by omega)] at hbit
  exact Bool.noConfusion hbit

theorem testBit_windowMask_high (hn : 1 ≤ n) (hn' : n ≤ 8) (hi : i < 8) (hk : k < 8) :
    (windowMask n >>> i >>> 8).testBit k = true ↔ 8 ≤ k + n + i ∧ k + i < 8 := by
  have h : ∀ n < 9, 1 ≤ n → ∀ i < 8, ∀ k < 8,
      ((windowMask n >>> i >>> 8).testBit k = true ↔ 8 ≤ k + n + i ∧ k + i < 8) := by
    decide +kernel
  exact h n (by omega) hn i hi k hk

theorem windowMask_low (hn : 1 ≤ n) (hn' : n ≤ 8) (hi : i < 8) :
    (windowMask n >>> i) &&& 0xff = 0 ↔ n + i ≤ 8 := by
  have h : ∀ n < 9, 1 ≤ n → ∀ i < 8, ((windowMask n >>> i) &&& 0xff = 0 ↔ n + i ≤ 8) := by
    decide +kernel
  exact h n (by omega) hn i hi

/-- The product in the test has one bit of the low byte, where the mask has all bits from there on. -/
theorem testBit_windowMask_product (hn : 1 ≤ n) (hn' : n ≤ 8) (hi : i < 8)
    (hlt : 8 < n + i) (hk : k < 8) :
    ((windowMask n >>> i) * 0xff).testBit k = true ↔ k = 16 - n - i := by
  have h : ∀ n < 9, ∀ i < 8, ∀ k < 8, 1 ≤ n ∧ 8 < n + i →
      (((windowMask n >>> i) * 0xff).testBit k = true ↔ k = 16 - n - i) := by
    decide +kernel
  exact h n (by omega) i hi k hk ⟨hn, hlt⟩

/-- A byte and a mask have no bit in common. -/
theorem and_eq_zero_iff (x : UInt8) (w : ℕ) :
    x.toNat &&& w = 0 ↔ ∀ k < 8, w.testBit k = true → x.toNat.testBit k = false := by
  constructor
  · intro h k _ hk
    exact testBit_of_and_eq_zero h hk
  · intro h
    refine Nat.eq_of_testBit_eq fun k => ?_
    rw [Nat.testBit_and, Nat.zero_testBit]
    by_cases hk : k < 8
    · cases hw : w.testBit k with
      | false => rw [Bool.and_false]
      | true => rw [h k hk hw, Bool.false_and]
    · have hx : x.toNat.testBit k = false :=
        Nat.testBit_lt_two_pow (x.toNat_lt.trans_le (Nat.pow_le_pow_right (by omega) (not_lt.mp hk)))
      rw [hx, Bool.false_and]

/-- The test of a window reads no byte in front of a map whose first byte is full. -/
theorem windowFree_iff (hfull : bm.byte 0 = 0xff) (hn : 1 ≤ n) (hn' : n ≤ 8) (hi : i < 8) :
    ∃ r, windowFree bm (windowMask n >>> i) b = .ok r ∧
    (r = true ↔ Passes bm.byte n (b * 8 + 7 - i)) := by
  have hhigh : (bm.byte b).toNat &&& (windowMask n >>> i >>> 8) = 0 ↔
      ∀ k ≤ b * 8 + 7 - i, b * 8 + 7 - i < k + n → k / 8 = (b * 8 + 7 - i) / 8 →
        bitAt bm.byte k = false := by
    rw [and_eq_zero_iff]
    constructor
    · intro h k hk hkn hbyte
      have hb : k / 8 = b := by omega
      rw [bitAt, hb]
      exact h (k % 8) (by omega) ((testBit_windowMask_high hn hn' hi (by omega)).mpr (by omega))
    · intro h k hk hbit
      obtain ⟨hle, hlt⟩ := (testBit_windowMask_high hn hn' hi hk).mp hbit
      have := h (b * 8 + k) (by omega) (by omega) (by omega)
      rwa [bitAt, show (b * 8 + k) / 8 = b by omega, show (b * 8 + k) % 8 = k by omega] at this
  have hstraddle : (b * 8 + 7 - i) % 8 + 1 < n ↔ 8 < n + i := by omega
  rw [windowFree, Passes, hstraddle]
  by_cases hclear : (bm.byte b).toNat &&& (windowMask n >>> i >>> 8) = 0
  · rw [if_neg (not_not.mpr hclear)]
    by_cases hin : n + i ≤ 8
    · rw [if_pos ((windowMask_low hn hn' hi).mpr hin)]
      exact ⟨true, rfl, iff_of_true rfl ⟨hhigh.mp hclear, fun hlt => absurd hlt (by omega)⟩⟩
    · have hb : b ≠ 0 := by
        rintro rfl
        have hbit := (testBit_windowMask_high hn hn' hi (show 7 - i < 8 by omega)).mpr (by omega)
        rw [hfull] at hclear
        have := testBit_of_and_eq_zero hclear hbit
        rw [testBit_full (by omega)] at this
        exact Bool.noConfusion this
      rw [if_neg fun h => hin ((windowMask_low hn hn' hi).mp h), if_neg hb]
      refine ⟨_, rfl, ?_⟩
      have hpage : bitAt bm.byte (b * 8 + 7 - i + 1 - n) =
          (bm.byte (b - 1)).toNat.testBit (16 - n - i) := by
        rw [bitAt, show (b * 8 + 7 - i + 1 - n) / 8 = b - 1 by omega,
          show (b * 8 + 7 - i + 1 - n) % 8 = 16 - n - i by omega]
      rw [decide_eq_true_iff, and_eq_zero_iff, hpage]
      constructor
      · intro h
        exact ⟨hhigh.mp hclear, fun hlt => h _ (by omega)
          ((testBit_windowMask_product hn hn' hi hlt (by omega)).mpr rfl)⟩
      · rintro ⟨-, h⟩ k hk hbit
        rw [(testBit_windowMask_product hn hn' hi (by omega) hk).mp hbit]
        exact h (by omega)
  · rw [if_pos hclear]
    exact ⟨false, rfl, iff_of_false Bool.false_ne_true fun h => hclear (hhigh.mpr h.1)⟩

/-- The result of the search over the windows that end before page `hi`: the last of them that passes. -/
structure LastPassing (m : ℕ → UInt8) (n lo hi : ℕ) (r : Option ℕ) : Prop where
  none : r = none → ∀ t, lo ≤ t → t < hi → ¬ Passes m n t
  some : ∀ t, r = some t → lo ≤ t ∧ t < hi ∧ Passes m n t ∧ ∀ t', t < t' → t' < hi → ¬ Passes m n t'

theorem findInByte_spec (hfull : bm.byte 0 = 0xff) (hn : 1 ≤ n) (hn' : n ≤ 8) (b : ℕ) (hk : i + k = 8) :
    ∃ r, findInByte bm (windowMask n) b i k = .ok r ∧ (∀ j, r = some j → i ≤ j ∧ j < 8) ∧
      LastPassing bm.byte n (b * 8) (b * 8 + 8 - i) (r.map fun j => b * 8 + 7 - j) := by
  induction k generalizing i with
  | zero =>
    refine ⟨none, rfl, fun j hj => by simp at hj, fun _ t ht ht' => ?_, fun t ht => by simp at ht⟩
    omega
  | succ k ih =>
    obtain ⟨r, hr, hpass⟩ := windowFree_iff (b := b) hfull hn hn' (show i < 8 by omega)
    rw [findInByte, hr]
    cases r with
    | true =>
      refine ⟨some i, rfl, fun j hj => ?_, fun h => by simp at h, fun t ht => ?_⟩
      · obtain rfl := Option.some.inj hj
        omega
      · obtain rfl : b * 8 + 7 - i = t := Option.some.inj ht
        exact ⟨by omega, by omega, hpass.mp rfl, fun t' ht' ht'' => by omega⟩
    | false =>
      have hfail : ¬ Passes bm.byte n (b * 8 + 7 - i) := fun h => Bool.noConfusion (hpass.mpr h)
      obtain ⟨r', hr', hlt, hlast⟩ := ih (i := i + 1) (by omega)
      refine ⟨r', hr', fun j hj => ?_, fun hnone t ht ht' => ?_, fun t ht => ?_⟩
      · have := hlt j hj
        omega
      · by_cases htop : t = b * 8 + 7 - i
        · exact htop ▸ hfail
        · exact hlast.none hnone t ht (by omega)
      · obtain ⟨hle, hlt', hp, hmax⟩ := hlast.some t ht
        refine ⟨hle, by omega, hp, fun t' ht' ht'' => ?_⟩
        by_cases htop : t' = b * 8 + 7 - i
        · exact htop ▸ hfail
        · exact hmax t' ht' (by omega)

/-- The search finds the last window that passes the test. -/
theorem findWindow_spec (hfull : bm.byte 0 = 0xff) (hn : 1 ≤ n) (hn' : n ≤ 8) (b : ℕ) :
    ∃ r, findWindow bm (windowMask n) b = .ok r ∧ (∀ w, r = some w → w.1 < b ∧ w.2 < 8) ∧
      LastPassing bm.byte n 0 (b * 8) (r.map fun w => w.1 * 8 + 7 - w.2) := by
  induction b with
  | zero =>
    exact ⟨none, rfl, fun w hw => by simp at hw, fun _ t _ ht => absurd ht (by omega),
      fun t ht => by simp at ht⟩
  | succ b ih =>
    obtain ⟨r, hr, hlt, hlast⟩ := findInByte_spec hfull hn hn' b (i := 0) (k := 8) rfl
    rw [findWindow, hr]
    cases r with
    | some j =>
      refine ⟨some (b, j), rfl, fun w hw => ?_, fun h => by simp at h, fun t ht => ?_⟩
      · obtain rfl := Option.some.inj hw
        exact ⟨Nat.lt_succ_self b, (hlt j rfl).2⟩
      · obtain ⟨-, hlt', hp, hmax⟩ := hlast.some t ht
        exact ⟨Nat.zero_le t, by omega, hp, fun t' ht' ht'' => hmax t' ht' (by omega)⟩
    | none =>
      obtain ⟨r', hr', hlt', hlast'⟩ := ih
      have hnone := hlast.none rfl
      refine ⟨r', hr', fun w hw => ?_, fun h t ht ht' => ?_, fun t ht => ?_⟩
      · have := hlt' w hw
        exact ⟨by omega, this.2⟩
      · rcases Nat.lt_or_ge t (b * 8) with hb | hb
        · exact hlast'.none h t ht hb
        · exact hnone t hb (by omega)
      · obtain ⟨hle, hlt'', hp, hmax⟩ := hlast'.some t ht
        refine ⟨hle, by omega, hp, fun t' ht' ht'' => ?_⟩
        rcases Nat.lt_or_ge t' (b * 8) with hb | hb
        · exact hmax t' ht' hb
        · exact hnone t' hb (by omega)

end OrangeOs.Kernel
