import Mathlib.Algebra.Order.BigOperators.Group.List
import Mathlib.Data.Nat.Cast.Basic
import OrangeOs.Library.Memory
import OrangeOs.Library.OnesComplement

/-! # The checksum

`in_cksum` of `lib/math_utils.cc`. The accumulator has 32 bits; it is folded twice at the end.
-/

namespace OrangeOs.Lib

open Memory

variable {m m' : Memory} {addr w len k n x : ℕ}

/-- The loop of `in_cksum`: the pointer, the bytes that are left and the sum. -/
def cksumLoop (m : Memory) : ℕ → ℕ → ℕ → ℕ × ℕ × ℕ
  | nleft + 2, w, sum => cksumLoop m nleft (w + 2) ((sum + m.load w 2) % 2 ^ 32)
  | nleft, w, sum => (w, nleft, sum)

def inCksum (m : Memory) (addr len : ℕ) : ℕ :=
  let (w, nleft, sum) := cksumLoop m len addr 0
  let sum := if nleft = 1 then (sum + (m w).toNat) % 2 ^ 32 else sum
  let sum := ((sum &&& 0xffff) + (sum >>> 16)) % 2 ^ 32
  let sum := (sum + (sum >>> 16)) % 2 ^ 32
  (2 ^ 32 - 1 - sum) % 2 ^ 16

/-- The words of a message. An odd last byte is one with a zero. -/
def words (m : Memory) : ℕ → ℕ → List ℕ
  | n + 2, w => m.load w 2 :: words m n (w + 2)
  | 1, w => [(m w).toNat]
  | 0, _ => []

theorem words_le : ∀ n w, ∀ x ∈ words m n w, x ≤ 65535
  | 0, _, _, hx => by cases hx
  | 1, w, x, hx => by
    rw [List.mem_singleton.mp hx]
    exact (UInt8.toNat_lt (m w)).le.trans (by decide)
  | n + 2, w, x, hx => by
    rcases List.mem_cons.mp hx with rfl | hx
    · exact Nat.le_of_lt_succ (load_lt m w 2)
    · exact words_le n (w + 2) x hx

theorem length_words : ∀ n w, (words m n w).length = (n + 1) / 2
  | 0, _ => rfl
  | 1, _ => rfl
  | n + 2, w => by
    rw [words, List.length_cons, length_words n (w + 2)]
    omega

/-- The sum of a message of up to 128 KiB fits in 32 bits, and so does the sum of its first words. -/
theorem sum_take_lt (m : Memory) (addr : ℕ) (hlen : len ≤ 131072) (k : ℕ) :
    ((words m len addr).take k).sum < 2 ^ 32 := by
  have hle : ∀ x ∈ (words m len addr).take k, x ≤ 65535 := fun x hx =>
    words_le len addr x (List.mem_of_mem_take hx)
  have hsum := List.sum_le_card_nsmul _ _ hle
  have hcount : ((words m len addr).take k).length ≤ 65536 := by
    rw [List.length_take, length_words]
    omega
  rw [nsmul_eq_mul, Nat.cast_id] at hsum
  calc ((words m len addr).take k).sum ≤ ((words m len addr).take k).length * 65535 := hsum
    _ ≤ 65536 * 65535 := Nat.mul_le_mul_right _ hcount
    _ < 2 ^ 32 := by decide

/-- The loop with the last byte. -/
theorem cksumLoop_sum : ∀ n w sum, sum + (words m n w).sum < 2 ^ 32 →
    (if (cksumLoop m n w sum).2.1 = 1 then
      ((cksumLoop m n w sum).2.2 + (m (cksumLoop m n w sum).1).toNat) % 2 ^ 32
    else (cksumLoop m n w sum).2.2) = sum + (words m n w).sum
  | 0, _, _, _ => rfl
  | 1, w, sum, h => by
    rw [words, List.sum_singleton] at h ⊢
    exact Nat.mod_eq_of_lt h
  | n + 2, w, sum, h => by
    rw [words, List.sum_cons, ← Nat.add_assoc] at h ⊢
    rw [cksumLoop, Nat.mod_eq_of_lt ((Nat.le_add_right ..).trans_lt h)]
    exact cksumLoop_sum n (w + 2) _ h

/-- Two folds suffice for a sum of 32 bits. -/
theorem fold_twice {t : ℕ} (ht : t < 2 ^ 32) :
    (t % 2 ^ 16 + t / 2 ^ 16 + (t % 2 ^ 16 + t / 2 ^ 16) / 2 ^ 16) % 2 ^ 16 = reduceOnes 65535 t := by
  have hsplit := Nat.mod_add_div t (2 ^ 16)
  have hr := Nat.mod_lt t (Nat.two_pow_pos 16)
  have hq : t / 2 ^ 16 < 2 ^ 16 := by omega
  generalize t % 2 ^ 16 = r at hsplit hr ⊢
  generalize t / 2 ^ 16 = q at hsplit hq ⊢
  unfold reduceOnes
  by_cases h0 : t = 0
  · rw [if_pos h0]
    omega
  · rw [if_neg h0]
    by_cases hs : r + q < 2 ^ 16
    · have ht' : t - 1 = r + q - 1 + 65535 * q := by omega
      rw [ht', Nat.add_mul_mod_self_left, Nat.mod_eq_of_lt (by omega : r + q - 1 < 65535)]
      omega
    · have ht' : t - 1 = r + q - 2 ^ 16 + 65535 * (q + 1) := by omega
      have hdiv : (r + q) / 2 ^ 16 = 1 := by omega
      rw [hdiv, ht', Nat.add_mul_mod_self_left, Nat.mod_eq_of_lt (by omega : r + q - 2 ^ 16 < 65535)]
      omega

theorem inCksum_eq (hlen : len ≤ 131072) :
    inCksum m addr len = 65535 - reduceOnes 65535 (words m len addr).sum := by
  have hlt : (words m len addr).sum < 2 ^ 32 := by
    have h := sum_take_lt m addr hlen (words m len addr).length
    rwa [List.take_length] at h
  have hloop := cksumLoop_sum (m := m) len addr 0 (by rwa [Nat.zero_add])
  rw [Nat.zero_add] at hloop
  unfold inCksum
  generalize cksumLoop m len addr 0 = r at hloop ⊢
  obtain ⟨w, nleft, sum⟩ := r
  dsimp only at hloop ⊢
  rw [hloop, ← fold_twice hlt]
  generalize (words m len addr).sum = t at hlt ⊢
  have hand : ∀ x, x &&& 0xffff = x % 2 ^ 16 := fun x => Nat.and_two_pow_sub_one_eq_mod x 16
  rw [hand, Nat.shiftRight_eq_div_pow, Nat.shiftRight_eq_div_pow]
  omega

/-- The word of the message that lies in a field. -/
theorem sum_store {v : ℕ} (hv : v < 2 ^ 16) : ∀ n w k, 2 * k + 2 ≤ n → n % 2 = 0 →
    m.load (w + 2 * k) 2 = 0 → (words (m.store (w + 2 * k) 2 v) n w).sum = (words m n w).sum + v
  | 0, _, _, h, _, _ => by omega
  | 1, _, _, _, h, _ => by omega
  | n + 2, w, 0, hk, hn, h0 => by
    have hrest : ∀ n u, w + 2 ≤ u → words (m.store w 2 v) n u = words m n u := by
      intro n
      induction n using Nat.twoStepInduction with
      | zero => intro _ _; rfl
      | one =>
        intro u hu
        rw [words, words, store_same m w 2 v u (.inr hu)]
      | more n ih _ =>
        intro u hu
        rw [words, words, load_store_of_disjoint _ _ (.inr hu), ih (u + 2) (by omega)]
    rw [Nat.mul_zero, Nat.add_zero] at h0 ⊢
    rw [words, words, List.sum_cons, List.sum_cons, load_store_of_lt _ _ hv, hrest n (w + 2) le_rfl, h0,
      Nat.zero_add, Nat.add_comm]
  | n + 2, w, k + 1, hk, hn, h0 => by
    have hoff : w + 2 * (k + 1) = w + 2 + 2 * k := by omega
    rw [hoff] at h0 ⊢
    rw [words, words, List.sum_cons, List.sum_cons, load_store_of_disjoint _ _ (.inl (by omega)),
      sum_store hv n (w + 2) k (by omega) (by omega) h0, Nat.add_assoc]

/-- `in_cksum` is the complement of the sum of the words with end-around carry, and the accumulator
does not overflow. Stored in a field that was 0, it makes the checksum of the message 0. -/
theorem inCksum_spec (m : Memory) (addr len : ℕ) (hlen : len ≤ 131072) :
    (∀ k, ((words m len addr).take k).sum < 2 ^ 32) ∧
    inCksum m addr len = 65535 - onesSum 65535 (words m len addr) ∧
    ∀ k, len % 2 = 0 → 2 * k + 2 ≤ len → m.load (addr + 2 * k) 2 = 0 →
      inCksum (m.store (addr + 2 * k) 2 (inCksum m addr len)) addr len = 0 := by
  refine ⟨sum_take_lt m addr hlen, ?_, fun k heven hk h0 => ?_⟩
  · rw [inCksum_eq hlen, onesSum_eq (by decide) (words_le len addr)]
  · have hlt : inCksum m addr len < 2 ^ 16 := Nat.mod_lt _ (by decide)
    rw [inCksum_eq hlen, sum_store hlt len addr k hk heven h0, inCksum_eq hlen,
      reduceOnes_complement (by decide)]

/-- A message of three words whose second word is the field. -/
theorem inCksum_spec_three :
    inCksum (store (store (fun _ => 7) 2 2 0) 2 2 (inCksum (store (fun _ => 7) 2 2 0) 0 6)) 0 6 = 0 :=
  (inCksum_spec (store (fun _ => 7) 2 2 0) 0 6 (by decide)).2.2 1 (by decide) (by decide)
    (load_store (fun _ => 7) 2 2 0)

end OrangeOs.Lib
