import Mathlib.Algebra.Order.BigOperators.Group.Finset
import OrangeOs.Filesystem.Common

/-! # What the sectors of a disk hold

Views of a disk that was laid out by `mkfs`: the super block, the inode records and the
marks of the bit map, and the effect of the elementary programs on them. The layout is sector 0 for
the super block, sectors 1 to 40 for the 320 inode records, sector 41 for the bit map and the
data area from sector 42 on.
-/

namespace OrangeOs.Fs

open Prog

variable {d d' : Disk} {i j b c : ℕ} {x : InodeDef} {s : Sector}

def superOf (d : Disk) : SuperBlock := .ofBytes (d 0).byte

/-- The number of data blocks that the super block records. -/
def dataCount (d : Disk) : ℕ := (superOf d).datablocks_count.toNat

/-- The size of the file system in blocks. -/
def fsSize (d : Disk) : ℕ := (superOf d).size.toNat

/-- The super block describes the layout of `mkfs`. -/
structure Formatted (d : Disk) : Prop where
  inode_start : (superOf d).inode_start.toNat = 1
  inodes_count : (superOf d).inodes_count.toNat = 320
  bmap_start : (superOf d).bmap_start.toNat = 41
  dataCount_add : dataCount d + 42 = fsSize d

theorem Formatted.congr (h : Formatted d) (h₀ : d' 0 = d 0) : Formatted d' := by
  have hs : superOf d' = superOf d := by rw [superOf, superOf, h₀]
  obtain ⟨h₁, h₂, h₃, h₄⟩ := h
  constructor <;> simp only [dataCount, fsSize, hs] at * <;> assumption

theorem fsSize_lt (d : Disk) : fsSize d < 2 ^ 32 := UInt32.toNat_lt _

theorem dataCount_congr (h₀ : d' 0 = d 0) : dataCount d' = dataCount d := by
  rw [dataCount, dataCount, superOf, superOf, h₀]

theorem fsSize_congr (h₀ : d' 0 = d 0) : fsSize d' = fsSize d := by
  rw [fsSize, fsSize, superOf, superOf, h₀]

/-! ## Inode records -/

/-- The inode record with a given index. -/
def inodeAt (d : Disk) (i : ℕ) : InodeDef := .load (d (i / 8 + 1)) (i % 8 * 64)

/-- Replace an inode record. -/
def setInode (d : Disk) (i : ℕ) (x : InodeDef) : Disk :=
  Function.update d (i / 8 + 1) ((d (i / 8 + 1)).patch (i % 8 * 64) 64 x.byte)

theorem inodeOffset_eq (hi : i < 320) : inodeOffset i = i * 64 := by
  simp only [inodeOffset, INODE_ELEMENT_SIZE]; omega

@[simp] theorem run_getInode (hi : i < 320) (d : Disk) :
    (getInode i).run d = (.ok (inodeAt d i), d) := by
  have hb : i * 64 / 512 + 1 = i / 8 + 1 := by omega
  have ho : i * 64 % 512 = i % 8 * 64 := by omega
  simp [getInode, run_bind, inodeOffset_eq hi, inodeAt, hb, ho]

@[simp] theorem run_updateInode (hi : i < 320) (x : InodeDef) (d : Disk) :
    (updateInode i x).run d = (.ok (), setInode d i x) := by
  have hb : i * 64 / 512 + 1 = i / 8 + 1 := by omega
  have ho : i * 64 % 512 = i % 8 * 64 := by omega
  simp [updateInode, run_bind, inodeOffset_eq hi, setInode, hb, ho]

theorem setInode_of_ne (h : b ≠ i / 8 + 1) : setInode d i x b = d b :=
  Function.update_of_ne h _ _

/-- Updating an inode record touches no sector outside the inode table. -/
theorem setInode_outside (hi : i < 320) (h : b = 0 ∨ 41 ≤ b) : setInode d i x b = d b :=
  setInode_of_ne (by omega)

theorem inodeAt_congr (h : d' (i / 8 + 1) = d (i / 8 + 1)) : inodeAt d' i = inodeAt d i := by
  rw [inodeAt, inodeAt, h]

/-- An inode record that is put into a sector. -/
theorem load_patch_self (s : Sector) (x : InodeDef) (hj : j < 8) :
    InodeDef.load (s.patch (j * 64) 64 x.byte) (j * 64) = x :=
  InodeDef.ofBytes_byte fun _ ho => Buffer.byte_patch_add ho (by omega)

theorem load_patch_of_ne (s : Sector) (x : InodeDef) (h : j ≠ i) :
    InodeDef.load (s.patch (i * 64) 64 x.byte) (j * 64) = InodeDef.load s (j * 64) :=
  InodeDef.ofBytes_congr fun _ _ => Buffer.byte_patch_of_not_mem (by omega)

@[simp] theorem inodeAt_setInode_self (d : Disk) (i : ℕ) (x : InodeDef) :
    inodeAt (setInode d i x) i = x := by
  rw [inodeAt, setInode, Function.update_self, load_patch_self _ _ (Nat.mod_lt _ (by omega))]

theorem inodeAt_setInode_of_ne (h : j ≠ i) : inodeAt (setInode d i x) j = inodeAt d j := by
  by_cases hs : j / 8 + 1 = i / 8 + 1
  · rw [inodeAt, inodeAt, setInode, hs, Function.update_self, load_patch_of_ne _ _ (by omega)]
  · exact inodeAt_congr (setInode_of_ne hs)

/-! ## The bit map -/

/-- Set one bit. -/
def setBit (s : Sector) (k : ℕ) : Sector := s.patch (k / 8) 1 fun _ => s.byte (k / 8) ||| bitMask (k % 8)

/-- A block is marked as used. -/
def Marked (d : Disk) (b : ℕ) : Prop := 42 ≤ b ∧ bitAt (d 41).byte (b - 42) = true

/-- A block that can be allocated. -/
def Free (d : Disk) (b : ℕ) : Prop :=
  42 ≤ b ∧ b - 42 < min 4096 (dataCount d) ∧ bitAt (d 41).byte (b - 42) = false

/-- Mark a block as used. -/
def mark (d : Disk) (b : ℕ) : Disk :=
  Function.update d 41 ((d 41).patch ((b - 42) / 8) 1
    fun _ => (d 41).byte ((b - 42) / 8) ||| bitMask ((b - 42) % 8))

/-- The block that the next allocation takes. -/
def nextFree (d : Disk) : Option ℕ :=
  ((List.range (min 4096 (dataCount d))).find? fun k => !bitAt (d 41).byte k).map (· + 42)

/-- The number of blocks that can be allocated. -/
def freeCount (d : Disk) : ℕ :=
  ((Finset.range (min 4096 (dataCount d))).filter fun k => bitAt (d 41).byte k = false).card

theorem Free.not_marked (h : Free d b) : ¬ Marked d b := by
  rintro ⟨_, hm⟩
  simp [h.2.2] at hm

theorem Free.lt_fsSize (h : Free d b) (hf : Formatted d) : b < fsSize d := by
  have := h.1; have := h.2.1; have := hf.dataCount_add
  omega

theorem Free.le (h : Free d b) : 42 ≤ b := h.1

theorem mark_of_ne (h : c ≠ 41) : mark d b c = d c := Function.update_of_ne h _ _

theorem bitAt_setBit (s : Sector) (hk : k < 4096) (j : ℕ) :
    bitAt (setBit s k).byte j = (bitAt s.byte j || decide (j = k)) := by
  rw [bitAt, bitAt, setBit]
  by_cases hj : j / 8 = k / 8
  · rw [hj, Buffer.byte_patch_of_mem (by omega) le_rfl (by omega),
      testBit_or_bitMask _ (Nat.mod_lt _ (by omega))]
    congr 1
    rw [decide_eq_decide]
    omega
  · rw [Buffer.byte_patch_of_not_mem (by omega), decide_eq_false (by rintro rfl; exact hj rfl),
      Bool.or_false]

theorem bitAt_mark (hb : Free d b) (k : ℕ) :
    bitAt (mark d b 41).byte k = (bitAt (d 41).byte k || decide (b - 42 = k)) := by
  have hlt : b - 42 < 4096 := by have := hb.2.1; omega
  have hmark : mark d b 41 = setBit (d 41) (b - 42) := Function.update_self ..
  rw [hmark, bitAt_setBit _ hlt]
  simp only [eq_comm]

theorem marked_mark_iff (hb : Free d b) : Marked (mark d b) c ↔ c = b ∨ Marked d c := by
  have h42 := hb.1
  simp only [Marked, bitAt_mark hb, Bool.or_eq_true, decide_eq_true_eq]
  constructor
  · rintro ⟨hc, h | h⟩
    · exact .inr ⟨hc, h⟩
    · exact .inl (by omega)
  · rintro (rfl | ⟨hc, h⟩)
    · exact ⟨h42, .inr rfl⟩
    · exact ⟨hc, .inl h⟩

theorem nextFree_eq_none_iff : nextFree d = none ↔ ∀ b, ¬ Free d b := by
  simp only [nextFree, Option.map_eq_none_iff, List.find?_eq_none, List.mem_range, Free]
  constructor
  · rintro h b ⟨-, hlt, hb⟩
    simpa [hb] using h _ hlt
  · intro h k hk
    have := h (k + 42)
    simp only [Nat.add_sub_cancel, not_and] at this
    simpa using this (by omega) hk

theorem free_of_nextFree (h : nextFree d = some b) : Free d b := by
  simp only [nextFree, Option.map_eq_some_iff] at h
  obtain ⟨k, hk, rfl⟩ := h
  have hm := List.mem_range.mp (List.mem_of_find?_eq_some hk)
  have hp := List.find?_some hk
  exact ⟨by omega, by simpa using hm, by simpa using hp⟩

theorem freeCount_eq_zero_iff : freeCount d = 0 ↔ nextFree d = none := by
  rw [nextFree_eq_none_iff, freeCount, Finset.card_eq_zero, Finset.filter_eq_empty_iff]
  constructor
  · rintro h b ⟨-, hlt, hb⟩
    exact h (Finset.mem_range.mpr hlt) hb
  · intro h k hk hb
    exact h (k + 42) ⟨by omega, by simpa using hk, by simpa using hb⟩

theorem freeCount_congr (h₀ : d' 0 = d 0) (h₄₁ : d' 41 = d 41) : freeCount d' = freeCount d := by
  rw [freeCount, freeCount, dataCount_congr h₀, h₄₁]

theorem dataCount_mark : dataCount (mark d b) = dataCount d := dataCount_congr (mark_of_ne (by omega))

/-- An allocation takes one of the free blocks. -/
theorem freeCount_mark (hb : Free d b) : freeCount (mark d b) + 1 = freeCount d := by
  have hm : b - 42 ∈ (Finset.range (min 4096 (dataCount d))).filter
      fun k => bitAt (d 41).byte k = false := by
    simpa using ⟨by have := hb.2.1; omega, hb.2.2⟩
  rw [freeCount, freeCount, dataCount_mark, ← Finset.card_erase_add_one hm]
  congr 2
  ext k
  simp only [Finset.mem_filter, Finset.mem_range, Finset.mem_erase, bitAt_mark hb]
  constructor
  · rintro ⟨hk, h⟩
    simp only [Bool.or_eq_false_iff, decide_eq_false_iff_not] at h
    exact ⟨fun he => h.2 he.symm, hk, h.1⟩
  · rintro ⟨hne, hk, h⟩
    simp [hk, h, Ne.symm hne]

/-! ## Allocating a data block -/

theorem clearBit_eq_none_iff (v : UInt8) : clearBit v = none ↔ v = 0xff := by
  simp only [clearBit, List.find?_eq_none, List.mem_range, decide_eq_true_eq]
  constructor
  · intro h
    by_contra hne
    obtain ⟨k, hk, hc⟩ := exists_testBit_false hne
    exact h k hk ((and_bitMask_eq_zero_iff v hk).mpr hc)
  · rintro rfl k hk h
    rw [and_bitMask_eq_zero_iff _ hk, testBit_full hk] at h
    cases h

theorem clearBit_eq_some {v : UInt8} {k : ℕ} (h : clearBit v = some k) :
    k < 8 ∧ v.toNat.testBit k = false ∧ ∀ j < k, v.toNat.testBit j = true := by
  obtain ⟨hk, hm, hj⟩ := List.find?_range_eq_some.mp h
  have hk8 := List.mem_range.mp hm
  refine ⟨hk8, (and_bitMask_eq_zero_iff v hk8).mp (by simpa using hk), fun j hjk => ?_⟩
  have hz := hj j hjk
  simp only [Bool.not_eq_true', decide_eq_false_iff_not] at hz
  rw [and_bitMask_eq_zero_iff v (by omega)] at hz
  simpa using hz

/-- The byte loop finds the first byte with a clear bit and the first such bit of it. -/
theorem scanBitmap_eq_some {n k m : ℕ} (h : scanBitmap s c i n = some (k, m)) :
    k < i + n ∧ m < 8 ∧ k * 8 < c ∧ bitAt s.byte (k * 8 + m) = false ∧
      ∀ j, i * 8 ≤ j → j < k * 8 + m → bitAt s.byte j = true := by
  induction n generalizing i with
  | zero => simp [scanBitmap] at h
  | succ n ih =>
    rw [scanBitmap] at h
    by_cases hc : i * 8 ≥ c
    · simp [hc] at h
    rw [if_neg hc] at h
    by_cases hfull : s.byte i = 0xff
    · rw [if_neg (by simpa using hfull)] at h
      obtain ⟨hk, hm, hkc, hbit, hset⟩ := ih h
      refine ⟨by omega, hm, hkc, hbit, fun j hj hjk => ?_⟩
      by_cases hji : j / 8 = i
      · rw [bitAt, hji, hfull, testBit_full (Nat.mod_lt _ (by omega))]
      · exact hset j (by omega) hjk
    · rw [if_pos hfull] at h
      cases hcb : clearBit (s.byte i) with
      | none => exact (hfull ((clearBit_eq_none_iff _).mp hcb)).elim
      | some bit =>
        simp only [hcb, Option.some.injEq, Prod.mk.injEq] at h
        obtain ⟨rfl, rfl⟩ := h
        obtain ⟨hb8, hb, hlow⟩ := clearBit_eq_some hcb
        refine ⟨by omega, hb8, by omega, ?_, fun j hj hjk => ?_⟩
        · rw [bitAt, show (i * 8 + bit) / 8 = i by omega, show (i * 8 + bit) % 8 = bit by omega, hb]
        · rw [bitAt, show j / 8 = i by omega]
          exact hlow _ (by omega)

theorem scanBitmap_eq_none {n : ℕ} (h : scanBitmap s c i n = none) :
    ∀ j, i * 8 ≤ j → j < (i + n) * 8 → j < c → bitAt s.byte j = true := by
  induction n generalizing i with
  | zero => intro j _ _; omega
  | succ n ih =>
    intro j hj hjn hjc
    rw [scanBitmap, if_neg (by omega)] at h
    by_cases hfull : s.byte i = 0xff
    · rw [if_neg (by simpa using hfull)] at h
      by_cases hji : j / 8 = i
      · rw [bitAt, hji, hfull, testBit_full (Nat.mod_lt _ (by omega))]
      · exact ih h j (by omega) (by omega) hjc
    · rw [if_pos hfull] at h
      cases hcb : clearBit (s.byte i) with
      | none => exact (hfull ((clearBit_eq_none_iff _).mp hcb)).elim
      | some bit => simp [hcb] at h

theorem run_getSuperNode (d : Disk) : getSuperNode.run d = (.ok (superOf d), d) := by
  simp [getSuperNode, run_bind, superOf]

/-- The lowest of the first `c` bits that is clear. -/
def lowestClear (s : Sector) (c : ℕ) : Option ℕ :=
  (List.range (min 4096 c)).find? fun k => !bitAt s.byte k

/-- The block of the bit map. -/
def bmapStart (d : Disk) : ℕ := (superOf d).bmap_start.toNat

theorem lowestClear_eq_some :
    lowestClear s c = some k ↔ IsLeast {k | k < min 4096 c ∧ bitAt s.byte k = false} k := by
  rw [lowestClear, List.find?_range_eq_some, List.mem_range]
  constructor
  · rintro ⟨hbit, hk, hlow⟩
    refine ⟨⟨hk, by simpa using hbit⟩, fun j hj => ?_⟩
    by_contra hlt
    simpa [hj.2] using hlow j (not_le.mp hlt)
  · rintro ⟨⟨hk, hbit⟩, hlow⟩
    refine ⟨by simp [hbit], hk, fun j hj => ?_⟩
    by_contra hclear
    exact absurd (hlow ⟨by omega, by simpa using hclear⟩) (not_le.mpr hj)

theorem lowestClear_eq_none :
    lowestClear s c = none ↔ ∀ k, k < min 4096 c → bitAt s.byte k = true := by
  simp [lowestClear, List.find?_eq_none]

/-- The scan and the check after it find the lowest clear bit. -/
theorem scanBitmap_eq (s : Sector) (c : ℕ) : lowestClear s c =
    (scanBitmap s c 0 BLOCK_SIZE).bind fun r =>
    if r.1 * 8 + r.2 ≥ c then none else some (r.1 * 8 + r.2) := by
  cases hs : scanBitmap s c 0 BLOCK_SIZE with
  | none =>
    have hset := scanBitmap_eq_none hs
    simp only [BLOCK_SIZE] at hset
    exact lowestClear_eq_none.mpr fun k hk => hset k (by omega) (by omega) (by omega)
  | some r =>
    obtain ⟨i, m⟩ := r
    obtain ⟨hi, hm, -, hbit, hset⟩ := scanBitmap_eq_some hs
    simp only [BLOCK_SIZE] at hi
    rw [Option.bind_some]
    by_cases hge : i * 8 + m ≥ c
    · rw [if_pos hge]
      exact lowestClear_eq_none.mpr fun k hk => hset k (by omega) (by omega)
    · rw [if_neg hge]
      refine lowestClear_eq_some.mpr ⟨⟨by omega, hbit⟩, fun j hj => ?_⟩
      by_contra hlt
      have := hset j (by omega) (not_le.mp hlt)
      simp [hj.2] at this

/-- `AllocDataBlock` on any disk. -/
theorem run_allocDataBlock_eq (d : Disk) : allocDataBlock.run d =
    match lowestClear (d (bmapStart d)) (dataCount d) with
      | none => (.ok (false, 0), d)
      | some k => (.ok (true, (k + bmapStart d + 1) % 2 ^ 32),
          Function.update d (bmapStart d) (setBit (d (bmapStart d)) k)) := by
  rw [allocDataBlock, run_bind_ok (run_getSuperNode d), run_bind_ok (run_readSector ..), scanBitmap_eq,
    ← bmapStart, ← dataCount]
  cases hs : scanBitmap (d (bmapStart d)) (dataCount d) 0 BLOCK_SIZE with
  | none => rfl
  | some r =>
    obtain ⟨i, m⟩ := r
    have hm : m < 8 := (scanBitmap_eq_some hs).2.1
    simp only [Option.bind_some]
    by_cases hge : i * 8 + m ≥ dataCount d
    · simp [hge]
    · have hset : setBit (d (bmapStart d)) (i * 8 + m) =
          (d (bmapStart d)).patch i 1 fun _ => (d (bmapStart d)).byte i ||| bitMask m := by
        rw [setBit, show (i * 8 + m) / 8 = i by omega, show (i * 8 + m) % 8 = m by omega]
      simp only [hge, hset, if_false, run_bind, run_writeSector, run_emit, run_pure]

/-- `AllocDataBlock` takes the first free block and marks it, or changes nothing. -/
theorem run_allocDataBlock (hf : Formatted d) :
    allocDataBlock.run d = match nextFree d with
      | none => (.ok (false, 0), d)
      | some b => (.ok (true, b), mark d b) := by
  have hbmap : bmapStart d = 41 := hf.bmap_start
  have hnext : nextFree d = (lowestClear (d 41) (dataCount d)).map (· + 42) := rfl
  rw [run_allocDataBlock_eq, hbmap, hnext]
  cases hk : lowestClear (d 41) (dataCount d) with
  | none => rfl
  | some k =>
    have hlt := (lowestClear_eq_some.mp hk).1.1
    have := fsSize_lt d
    have := hf.dataCount_add
    simp only [Option.map_some, mark, Nat.add_sub_cancel, Nat.add_assoc]
    rw [Nat.mod_eq_of_lt (by omega)]
    rfl

/-- Whatever the sector of the bit map and the super block hold, `AllocDataBlock` takes the lowest
clear bit below the number of data blocks and sets it, or reports that there is none and changes
nothing. -/
theorem allocDataBlock_exact (d : Disk) : ∃ ok b d', allocDataBlock.run d = (.ok (ok, b), d') ∧
    (ok = true ↔ ∃ k < min 4096 (dataCount d), bitAt (d (bmapStart d)).byte k = false) ∧
    (ok = true → ∃ k,
      IsLeast {k | k < min 4096 (dataCount d) ∧ bitAt (d (bmapStart d)).byte k = false} k ∧
      b = (k + bmapStart d + 1) % 2 ^ 32 ∧
      (UInt32.ofNat b - (superOf d).bmap_start - 1).toNat = k ∧
      (∀ o, o ≠ bmapStart d → d' o = d o) ∧
      ∀ j, bitAt (d' (bmapStart d)).byte j = (bitAt (d (bmapStart d)).byte j || decide (j = k))) ∧
    (ok = false → b = 0 ∧ d' = d) := by
  rw [run_allocDataBlock_eq]
  cases hk : lowestClear (d (bmapStart d)) (dataCount d) with
  | none =>
    refine ⟨false, 0, d, rfl, ?_, by simp, fun _ => ⟨rfl, rfl⟩⟩
    have hset := lowestClear_eq_none.mp hk
    constructor
    · simp
    · rintro ⟨k, hlt, hbit⟩
      rw [hset k hlt] at hbit
      exact absurd hbit (by simp)
  | some k =>
    have hleast := lowestClear_eq_some.mp hk
    have hlt : k < 4096 := by have := hleast.1.1; omega
    refine ⟨true, _, _, rfl, ?_, fun _ => ⟨k, hleast, rfl, ?_, fun o ho => Function.update_of_ne ho ..,
      fun j => ?_⟩, by simp⟩
    · exact iff_of_true rfl ⟨k, hleast.1⟩
    · have hstart : (superOf d).bmap_start.toNat = bmapStart d := rfl
      have := (superOf d).bmap_start.toNat_lt
      simp only [UInt32.toNat_sub, UInt32.toNat_ofNat', hstart, UInt32.reduceToNat]
      omega
    · rw [Function.update_self, bitAt_setBit _ hlt]

end OrangeOs.Fs
