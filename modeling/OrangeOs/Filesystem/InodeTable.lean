import OrangeOs.Filesystem.MkfsLayout

/-! # The inode table

On a disk with a super block of `mkfs` the 320 records are an array: `GetInode`, `UpdateInode` and
`AllocInode` compute the sector and the offset of a record in two ways and mean the same bytes.
-/

namespace OrangeOs.Fs

open Prog

variable {d : Disk} {size i k : ℕ}

/-- The sectors from which and up to which the inode table reaches. -/
def InTable (super_block : SuperBlock) (b : ℕ) : Prop :=
  super_block.inode_start.toNat ≤ b ∧
    b < super_block.inode_start.toNat +
      super_block.inodes_count.toNat * INODE_ELEMENT_SIZE / BLOCK_SIZE

/-- The records that `GetInode` shows to be unused. -/
def unused (d : Disk) : Set ℕ :=
  {k | k < INODE_TABLE_SIZE ∧ ∃ y, (getInode k).run d = (.ok y, d) ∧ y.type = .none}

theorem mem_unused : k ∈ unused d ↔ k < 320 ∧ (inodeAt d k).type = .none := by
  refine and_congr_right fun hk => ?_
  rw [run_getInode hk]
  simp

theorem nextInode_eq_some : nextInode d = some k ↔ IsLeast (unused d) k := by
  rw [nextInode, List.find?_range_eq_some, List.mem_range]
  constructor
  · rintro ⟨hnone, hk, hlow⟩
    refine ⟨mem_unused.mpr ⟨hk, by simpa using hnone⟩, fun j hj => ?_⟩
    by_contra hlt
    simpa [(mem_unused.mp hj).2] using hlow j (not_le.mp hlt)
  · rintro ⟨hmem, hlow⟩
    obtain ⟨hk, hnone⟩ := mem_unused.mp hmem
    refine ⟨by simpa using hnone, hk, fun j hj => ?_⟩
    by_contra hunused
    exact absurd (hlow (mem_unused.mpr ⟨by omega, by simpa using hunused⟩)) (not_le.mpr hj)

theorem nextInode_eq_none : nextInode d = none ↔ unused d = ∅ := by
  rw [nextInode_eq_none_iff, Set.eq_empty_iff_forall_notMem]
  simp only [mem_unused, not_and]

/-- On a disk with the super block of `mkfs` the inode records are an array of 320 elements: an update
is read back, the other records and the other sectors are as they were, and `AllocInode` finds the
first record that is unused, or reports that there is none. -/
theorem inode_table_array (h : superOf d = superBlock size) :
    (∀ i < INODE_TABLE_SIZE, ∀ x, ∃ d', (updateInode i x).run d = (.ok (), d') ∧
      (getInode i).run d' = (.ok x, d') ∧
      (∀ j < INODE_TABLE_SIZE, j ≠ i → ∃ y, (getInode j).run d = (.ok y, d) ∧
        (getInode j).run d' = (.ok y, d')) ∧
      ∀ b, ¬ InTable (superOf d) b → d' b = d b) ∧
    (∀ k, allocInode.run d = (.ok (true, k), d) ↔ IsLeast (unused d) k) ∧
    (allocInode.run d = (.ok (false, 0), d) ↔ unused d = ∅) := by
  have hstart : (superOf d).inode_start.toNat = 1 := by rw [h]; rfl
  have hcount : (superOf d).inodes_count.toNat = 320 := by rw [h]; rfl
  refine ⟨fun i hi x => ⟨setInode d i x, run_updateInode hi x d, ?_, fun j hj hne => ?_,
    fun b hb => ?_⟩, fun k => ?_, ?_⟩
  · rw [run_getInode hi, inodeAt_setInode_self]
  · exact ⟨inodeAt d j, run_getInode hj d, by rw [run_getInode hj, inodeAt_setInode_of_ne hne]⟩
  · refine setInode_outside hi ?_
    rw [InTable, hstart, hcount, INODE_ELEMENT_SIZE, BLOCK_SIZE] at hb
    omega
  · rw [run_allocInode_of_start hstart hcount, ← nextInode_eq_some]
    cases nextInode d <;> simp
  · rw [run_allocInode_of_start hstart hcount, ← nextInode_eq_none]
    cases nextInode d <;> simp

theorem superOf_mkfsDisk {files : List HostFile} (h42 : 42 < size) (hsize : size < 2 ^ 31)
    (hlen : files.length ≤ 319) (hacc : ∀ f ∈ files, f.Accepted)
    (hnames : (files.map HostFile.fileName).Nodup)
    (hroom : blocksNeeded files < min 4096 (size - 42)) :
    superOf (mkfsDisk size files) = superBlock size := by
  obtain ⟨s, hlaid, hdisk⟩ := laid_mkfs h42 hsize hlen hacc hnames hroom
  rw [hdisk, superOf, Mkfs.final_outside (.inl rfl)]
  exact hlaid.super

/-- A record of an image with one file. -/
theorem inode_table_array_sample :
    ∃ d', (updateInode 7 { inode_index := 7, type := .regular_file }).run
        (mkfsDisk 100 [sampleFile 2]) = (.ok (), d') ∧
      (getInode 7).run d' = (.ok { inode_index := 7, type := .regular_file }, d') := by
  have hneed : blocksNeeded [sampleFile 2] < min 4096 (100 - 42) := by
    simp [blocksNeeded, need_sampleFile, dataNeed, blocks]
  have hsuper : superOf (mkfsDisk 100 [sampleFile 2]) = superBlock 100 :=
    superOf_mkfsDisk (by omega) (by omega) (by simp)
      (by simpa using accepted_sampleFile (by omega)) (by simp) hneed
  obtain ⟨d', hrun, hget, -, -⟩ := (inode_table_array hsuper).1 7 (by decide)
    { inode_index := 7, type := .regular_file }
  exact ⟨d', hrun, hget⟩

end OrangeOs.Fs
