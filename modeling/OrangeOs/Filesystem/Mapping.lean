import OrangeOs.Filesystem.Disk

/-! # The blocks of a file

`slot d x k` is the block that holds block index `k` of the file with inode `x`: a direct slot
below 12, a word of the indirect block from 12 on. `Mapped d x n` states that the first `n`
slots hold distinct marked data blocks, apart from the indirect block, and `Vacant d x n`
that the slots from `n` on are zero.
-/

namespace OrangeOs.Fs

open Prog

/-- The number of blocks that hold `s` bytes. -/
def blocks (s : ℕ) : ℕ := (s + 511) / 512

def slot (d : Disk) (x : InodeDef) (k : ℕ) : ℕ :=
  if k < 12 then x.addrAt k else indirectWord (d x.indirect_addr.toNat) (k - 12)

/-- A marked block of the data area. -/
def InArea (d : Disk) (b : ℕ) : Prop := b < fsSize d ∧ Marked d b

/-- The first `n` slots hold distinct blocks of the data area. -/
structure Mapped (d : Disk) (x : InodeDef) (n : ℕ) : Prop where
  le : n ≤ 140
  area : ∀ k < n, InArea d (slot d x k)
  indirect_ne : 12 < n → x.indirect_addr.toNat ≠ 0
  indirect_area : x.indirect_addr.toNat ≠ 0 → InArea d x.indirect_addr.toNat
  inj : ∀ j < n, ∀ k < n, slot d x j = slot d x k → j = k
  ne_indirect : x.indirect_addr.toNat ≠ 0 → ∀ k < n, slot d x k ≠ x.indirect_addr.toNat

/-- The slots from `n` on are zero. -/
structure Vacant (d : Disk) (x : InodeDef) (n : ℕ) : Prop where
  direct : ∀ k, n ≤ k → k < 12 → x.addrAt k = 0
  indirect : x.indirect_addr.toNat ≠ 0 → ∀ k, n ≤ k → 12 ≤ k → k < 140 → slot d x k = 0

/-- The blocks that a file with `n` mapped slots refers to. -/
def Owns (d : Disk) (x : InodeDef) (n b : ℕ) : Prop :=
  (∃ k < n, slot d x k = b) ∨ x.indirect_addr.toNat ≠ 0 ∧ x.indirect_addr.toNat = b

/-- The byte at a position of a file. -/
def fileByte (d : Disk) (x : InodeDef) (p : ℕ) : UInt8 := (d (slot d x (p / 512))).byte (p % 512)

/-- Replace bytes of one sector. -/
def putData (d : Disk) (b o : ℕ) (buf : List UInt8) : Disk :=
  Function.update d b ((d b).patch o buf.length (charAt buf))

variable {d d' : Disk} {x y : InodeDef} {n k b o pos : ℕ} {junk : Sector} {buf : List UInt8}

theorem slot_of_lt (hk : k < 12) : slot d x k = x.addrAt k := if_pos hk

theorem slot_of_ge (hk : 12 ≤ k) :
    slot d x k = indirectWord (d x.indirect_addr.toNat) (k - 12) := if_neg (by omega)

theorem slot_congr (h : k < 12 ∨ d' x.indirect_addr.toNat = d x.indirect_addr.toNat) :
    slot d' x k = slot d x k := by
  unfold slot
  split
  · rfl
  · rcases h with h | h
    · omega
    · rw [h]

theorem slot_pointers (ha : y.addr = x.addr) (hi : y.indirect_addr = x.indirect_addr) :
    slot d y k = slot d x k := by
  simp only [slot, InodeDef.addrAt, ha, hi]

theorem indirectWord_set_self {s : Sector} (hk : k < 128) (hb : b < 2 ^ 32) :
    indirectWord (setIndirectWord s k b) k = b := by
  have hv : (UInt32.ofNat b).toNat = b := by rw [UInt32.toNat_ofNat', Nat.mod_eq_of_lt hb]
  have hw : wordAt (setIndirectWord s k b).byte (4 * k) = UInt32.ofNat b := by
    apply wordAt_of_leByte
    intro j hj
    rw [setIndirectWord, Buffer.byte_patch_add hj (by omega), hv]
  rw [indirectWord, hw, hv]

theorem indirectWord_set_of_ne {s : Sector} {j : ℕ} (h : j ≠ k) :
    indirectWord (setIndirectWord s k b) j = indirectWord s j := by
  rw [indirectWord, indirectWord]
  congr 1
  apply wordAt_congr
  intro i hi
  rw [setIndirectWord, Buffer.byte_patch_of_not_mem (by omega)]

theorem InArea.le (h : InArea d b) : 42 ≤ b := h.2.1

theorem marked_congr (h : d' 41 = d 41) : Marked d' b ↔ Marked d b := by
  rw [Marked, Marked, h]

theorem inArea_congr (h₀ : d' 0 = d 0) (h₄₁ : d' 41 = d 41) : InArea d' b ↔ InArea d b := by
  rw [InArea, InArea, fsSize_congr h₀, marked_congr h₄₁]

theorem InArea.congr (h : InArea d b) (h₀ : d' 0 = d 0) (hm : ∀ b, Marked d b → Marked d' b) :
    InArea d' b := ⟨by rw [fsSize_congr h₀]; exact h.1, hm _ h.2⟩

namespace Mapped

theorem slot_ne_zero (h : Mapped d x n) (hk : k < n) : slot d x k ≠ 0 := by
  have := (h.area k hk).le
  omega

theorem owns_area (h : Mapped d x n) (hb : Owns d x n b) : InArea d b := by
  rcases hb with ⟨k, hk, rfl⟩ | ⟨hi, rfl⟩
  · exact h.area k hk
  · exact h.indirect_area hi

/-- Only the indirect block, the super block and the marks of the blocks matter. -/
theorem congr (h : Mapped d x n) (h₀ : d' 0 = d 0) (hm : ∀ b, Marked d b → Marked d' b)
    (hi : x.indirect_addr.toNat ≠ 0 → d' x.indirect_addr.toNat = d x.indirect_addr.toNat) :
    Mapped d' x n := by
  have hs : ∀ k < n, slot d' x k = slot d x k := by
    intro k hk
    apply slot_congr
    by_cases h12 : k < 12
    · exact .inl h12
    · exact .inr (hi (h.indirect_ne (by omega)))
  refine ⟨h.le, fun k hk => ?_, h.indirect_ne, fun hne => (h.indirect_area hne).congr h₀ hm,
    fun j hj k hk he => ?_, fun hne k hk => ?_⟩
  · rw [hs k hk]
    exact (h.area k hk).congr h₀ hm
  · rw [hs j hj, hs k hk] at he
    exact h.inj j hj k hk he
  · rw [hs k hk]
    exact h.ne_indirect hne k hk

theorem pointers (h : Mapped d x n) (ha : y.addr = x.addr)
    (hi : y.indirect_addr = x.indirect_addr) : Mapped d y n := by
  have hs : ∀ k, slot d y k = slot d x k := fun k => slot_pointers ha hi
  refine ⟨h.le, fun k hk => hs k ▸ h.area k hk, ?_, ?_, fun j hj k hk => ?_, ?_⟩
  · rw [hi]; exact h.indirect_ne
  · rw [hi]; exact h.indirect_area
  · rw [hs, hs]; exact h.inj j hj k hk
  · simp only [hs, hi]; exact h.ne_indirect

theorem mono {m : ℕ} (h : Mapped d x n) (hm : m ≤ n) : Mapped d x m where
  le := hm.trans h.le
  area k hk := h.area k (hk.trans_le hm)
  indirect_ne h12 := h.indirect_ne (by omega)
  indirect_area := h.indirect_area
  inj j hj k hk := h.inj j (hj.trans_le hm) k (hk.trans_le hm)
  ne_indirect hi k hk := h.ne_indirect hi k (hk.trans_le hm)

end Mapped

theorem Vacant.congr (h : Vacant d x n)
    (hi : x.indirect_addr.toNat ≠ 0 → d' x.indirect_addr.toNat = d x.indirect_addr.toNat) :
    Vacant d' x n where
  direct := h.direct
  indirect hne k hk h12 h140 := by
    rw [slot_congr (.inr (hi hne))]
    exact h.indirect hne k hk h12 h140

theorem Vacant.pointers (h : Vacant d x n) (ha : y.addr = x.addr)
    (hi : y.indirect_addr = x.indirect_addr) : Vacant d y n := by
  refine ⟨fun k hk h12 => ?_, ?_⟩
  · have := h.direct k hk h12
    simpa only [InodeDef.addrAt, ha] using this
  · simp only [slot_pointers ha hi, hi]
    exact h.indirect

theorem Vacant.slot_eq_zero (h : Vacant d x n) (hn : n < 140)
    (hind : n < 12 ∨ x.indirect_addr.toNat ≠ 0) : slot d x n = 0 := by
  by_cases h12 : n < 12
  · rw [slot_of_lt h12]
    exact h.direct n le_rfl h12
  · exact h.indirect (hind.resolve_left h12) n le_rfl (by omega) hn

/-! ## Adding a block to a file -/

/-- The inode after block `b` became block index `k` of the file. -/
def assignInode (x : InodeDef) (k b : ℕ) : InodeDef := if k < 12 then x.setAddr k b else x

/-- The disk after block `b` became block index `k` of the file. -/
def assignDisk (d : Disk) (x : InodeDef) (k b : ℕ) : Disk :=
  if k < 12 then d
  else Function.update d x.indirect_addr.toNat
    (setIndirectWord (d x.indirect_addr.toNat) (k - 12) b)

theorem assignInode_indirect (x : InodeDef) (k b : ℕ) :
    (assignInode x k b).indirect_addr = x.indirect_addr := by
  unfold assignInode; split <;> rfl

theorem assignDisk_of_ne (h : o ≠ x.indirect_addr.toNat) : assignDisk d x k b o = d o := by
  unfold assignDisk
  split
  · rfl
  · exact Function.update_of_ne h _ _

theorem slot_assign (hk : k < 140) (hb : b < 2 ^ 32) (j : ℕ) :
    slot (assignDisk d x k b) (assignInode x k b) j = if j = k then b else slot d x j := by
  by_cases h12 : k < 12
  · by_cases hj : j < 12
    · simp only [slot, assignDisk, assignInode, if_pos h12, if_pos hj, InodeDef.addrAt_setAddr h12 hb]
    · have hne : j ≠ k := by omega
      simp only [slot, assignDisk, assignInode, if_pos h12, if_neg hj, if_neg hne]
      rfl
  · by_cases hj : j < 12
    · have hne : j ≠ k := by omega
      simp only [slot, assignInode, if_neg h12, if_pos hj, if_neg hne]
    · simp only [slot, assignDisk, assignInode, if_neg h12, if_neg hj, Function.update_self]
      split
      · next he => subst he; exact indirectWord_set_self (by omega) hb
      · next hne => exact indirectWord_set_of_ne (by omega)

theorem Mapped.assignDisk_low (h : Mapped d x n) (hind : k < 12 ∨ x.indirect_addr.toNat ≠ 0)
    (ho : o < 42) : assignDisk d x k b o = d o := by
  by_cases h12 : k < 12
  · simp [assignDisk, h12]
  · have := (h.indirect_area (hind.resolve_left h12)).le
    exact assignDisk_of_ne (by omega)

theorem Mapped.assign (h : Mapped d x n) (hn : n < 140) (hb : InArea d b)
    (hfresh : ¬ Owns d x n b) (hind : n < 12 ∨ x.indirect_addr.toNat ≠ 0) :
    Mapped (assignDisk d x n b) (assignInode x n b) (n + 1) := by
  have hs := slot_assign (d := d) (x := x) hn (hb.1.trans (fsSize_lt d))
  have harea : ∀ c, InArea d c → InArea (assignDisk d x n b) c := fun c hc =>
    (inArea_congr (h.assignDisk_low hind (by omega)) (h.assignDisk_low hind (by omega))).mpr hc
  have hne : ∀ k < n, slot d x k ≠ b := fun k hk he => hfresh (.inl ⟨k, hk, he⟩)
  refine ⟨hn, fun k hk => ?_, fun h12 => ?_, ?_, fun j hj k hk => ?_, ?_⟩
  · rw [hs]
    split
    · exact harea _ hb
    · exact harea _ (h.area k (by omega))
  · rw [assignInode_indirect]
    exact hind.resolve_left (by omega)
  · rw [assignInode_indirect]
    exact fun hi => harea _ (h.indirect_area hi)
  · rw [hs, hs]
    split <;> split <;> intro he
    · omega
    · exact (hne k (by omega) he.symm).elim
    · exact (hne j (by omega) he).elim
    · exact h.inj j (by omega) k (by omega) he
  · rw [assignInode_indirect]
    intro hi k hk
    rw [hs]
    split
    · exact fun he => hfresh (.inr ⟨hi, he.symm⟩)
    · exact h.ne_indirect hi k (by omega)

theorem Vacant.assign (h : Vacant d x n) (hn : n < 140) (hb : b < 2 ^ 32) :
    Vacant (assignDisk d x n b) (assignInode x n b) (n + 1) := by
  have hs := slot_assign (d := d) (x := x) hn hb
  constructor
  · intro k hk h12
    have := hs k
    rw [slot_of_lt h12, slot_of_lt h12, if_neg (by omega)] at this
    rw [this]
    exact h.direct k (by omega) h12
  · rw [assignInode_indirect]
    intro hi k hk h12 h140
    rw [hs, if_neg (by omega)]
    exact h.indirect hi k (by omega) h12 h140

/-! ## Finding the block to write to -/

theorem run_writeBlock_mapped (h : Mapped d x n) (hk : k < n) :
    (writeBlock junk x k).run d = (.ok (some (slot d x k), x), d) := by
  have hne := h.slot_ne_zero hk
  by_cases h12 : k < 12
  · rw [slot_of_lt h12] at hne ⊢
    simp [writeBlock, h12, hne]
  · have hi := h.indirect_ne (by omega)
    have h128 : k - 12 < 128 := by have := h.le; omega
    rw [slot_of_ge (by omega)] at hne ⊢
    simp [writeBlock, h12, hi, run_bind, h128, hne]

/-- The next slot is vacant: the block index gets a new block, or there is none. -/
theorem run_writeBlock_vacant (junk : Sector) (hf : Formatted d) (h : Mapped d x n) (hv : Vacant d x n)
    (hn : n < 140) (hind : n < 12 ∨ x.indirect_addr.toNat ≠ 0) :
    (writeBlock junk x n).run d = match nextFree d with
      | none => (.ok (none, x), d)
      | some b => (.ok (some b, assignInode x n b), assignDisk (mark d b) x n b) := by
  have hz := hv.slot_eq_zero hn hind
  by_cases h12 : n < 12
  · rw [slot_of_lt h12] at hz
    cases hfree : nextFree d <;>
      simp [writeBlock, assignInode, assignDisk, h12, hz, run_bind, run_allocDataBlock hf, hfree]
  · have hi := hind.resolve_left h12
    have h128 : n - 12 < 128 := by omega
    have h41 : x.indirect_addr.toNat ≠ 41 := by have := (h.indirect_area hi).le; omega
    rw [slot_of_ge (by omega)] at hz
    cases hfree : nextFree d <;>
      simp [writeBlock, assignInode, assignDisk, h12, hi, h128, hz, run_bind,
        run_allocDataBlock hf, hfree, mark_of_ne h41]

theorem run_writeData (hb : pos % 512 + buf.length ≤ 512) :
    (writeData b buf pos).run d = (.ok (), putData d b (pos % 512) buf) := by
  unfold writeData
  by_cases hl : buf.length = 512
  · have hp : pos % 512 = 0 := by omega
    have he : (Buffer.ofFn (charAt buf) : Sector) =
        (d b).patch 0 512 (charAt buf) := by
      apply Buffer.ext_byte
      intro o ho
      rw [Buffer.byte_ofFn ho, Buffer.byte_patch_of_mem ho (by omega) (by omega), Nat.sub_zero]
    simp [hl, putData, hp, he]
  · simp [hl, run_bind, putData]

end OrangeOs.Fs
