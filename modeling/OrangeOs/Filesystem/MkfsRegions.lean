import OrangeOs.Filesystem.Mkfs
import OrangeOs.Filesystem.Mapping

/-! # The regions of an image

How many blocks and inode records `mkfs` takes, and exactly when all of them lie in the regions
that the super block describes. The one check of capacity is made before a file, so that
the file itself can run past the end.
-/

namespace OrangeOs.Fs

/-- A file that passes the checks of the loop. -/
def HostFile.Accepted (file : HostFile) : Prop :=
  ∃ contents, file.contents = some contents ∧ contents.length ≤ 512 * 140 ∧
    file.fileName.length ≤ 13

instance (file : HostFile) : Decidable file.Accepted :=
  match h : file.contents with
  | none => .isFalse fun ⟨_, hc, _⟩ => by simp [h] at hc
  | some contents =>
    decidable_of_iff (contents.length ≤ 512 * 140 ∧ file.fileName.length ≤ 13)
      ⟨fun hc => ⟨contents, h, hc⟩, fun ⟨c, hc, hle⟩ => by
        obtain rfl : contents = c := by simpa [h] using hc
        exact hle⟩

/-- The number of blocks for a file of the given length: its data blocks, and the indirect block if
there are more than twelve. -/
def dataNeed (len : ℕ) : ℕ := blocks len + if 12 < blocks len then 1 else 0

def HostFile.need (file : HostFile) : ℕ := dataNeed ((file.contents.getD []).length)

/-- The number of blocks for the given files, with the blocks of the root directory. -/
def blocksNeeded (files : List HostFile) : ℕ :=
  (files.length + 31) / 32 + (files.map HostFile.need).sum

/-- The files that pass the checks fit, as far as they are reached: when the blocks for the first
`j` of them do not fill the data area, there is an inode for the next one, and its blocks end
within the data area and the bit map. -/
def Fits (datablocks_count : ℕ) (files : List HostFile) : Prop :=
  ∀ j < (files.filter fun file => file.Accepted).length,
    blocksNeeded ((files.filter fun file => file.Accepted).take j) < datablocks_count → j < 319 ∧
    blocksNeeded ((files.filter fun file => file.Accepted).take (j + 1)) ≤
      min datablocks_count 4096

/-- The place lies in its region: the inode table, the bit map, the image, the direct slots. -/
def Access.InRegion (super_block : SuperBlock) : Access → Prop
  | inodeRecord pos => super_block.inode_start.toNat * 512 ≤ pos ∧
      pos + 64 ≤ super_block.bmap_start.toNat * 512
  | bitMap byte_index => byte_index < 512
  | block b => b < super_block.size.toNat
  | rootAddr k => k < 12

namespace Mkfs

variable {size : ℕ} {s s' s'' : Mkfs} {x inode : InodeDef} {n m j b k : ℕ} {a : Access}
  {indirect_block indirect_block' buf : Sector} {name file : List UInt8}

@[simp] theorem bmap_start_superBlock : (superBlock size).bmap_start.toNat = 41 := rfl

@[simp] theorem inode_start_superBlock : (superBlock size).inode_start.toNat = 1 := rfl

section Fields

variable (super_block : SuperBlock) (s : Mkfs)

@[simp] theorem access_cur_data_block (a : Access) :
    (s.access a).cur_data_block = s.cur_data_block := rfl

@[simp] theorem access_cur_inode_index (a : Access) :
    (s.access a).cur_inode_index = s.cur_inode_index := rfl

@[simp] theorem nextBlock_cur_data_block :
    (nextBlock super_block s).cur_data_block = s.cur_data_block + 1 := rfl

@[simp] theorem nextBlock_cur_inode_index :
    (nextBlock super_block s).cur_inode_index = s.cur_inode_index := rfl

@[simp] theorem nextBlock_root_inode : (nextBlock super_block s).root_inode = s.root_inode := rfl

theorem nextBlock_accesses : (nextBlock super_block s).accesses =
    .bitMap ((s.cur_data_block - super_block.bmap_start.toNat - 1) / 8) :: s.accesses := rfl

theorem access_accesses (a : Access) : (s.access a).accesses = a :: s.accesses := rfl

@[simp] theorem putInode_cur_data_block (i : ℕ) (x : InodeDef) :
    (putInode super_block s i x).cur_data_block = s.cur_data_block := rfl

@[simp] theorem putInode_root_inode (i : ℕ) (x : InodeDef) :
    (putInode super_block s i x).root_inode = s.root_inode := rfl

@[simp] theorem putIndirect_cur_data_block (x : InodeDef) (t : Sector) :
    (s.putIndirect x t).cur_data_block = s.cur_data_block := by
  unfold putIndirect; split <;> rfl

@[simp] theorem putIndirect_cur_inode_index (x : InodeDef) (t : Sector) :
    (s.putIndirect x t).cur_inode_index = s.cur_inode_index := by
  unfold putIndirect; split <;> rfl

@[simp] theorem putIndirect_root_inode (x : InodeDef) (t : Sector) :
    (s.putIndirect x t).root_inode = s.root_inode := by
  unfold putIndirect; split <;> rfl

@[simp] theorem putIndirect_bit_map (x : InodeDef) (t : Sector) :
    (s.putIndirect x t).bit_map = s.bit_map := by
  unfold putIndirect; split <;> rfl

@[simp] theorem putIndirect_accesses (x : InodeDef) (t : Sector) :
    (s.putIndirect x t).accesses = s.accesses := by
  unfold putIndirect; split <;> rfl

end Fields

/-! ## Taking blocks -/

/-- The builder took the next `n` blocks. -/
structure Took (s s' : Mkfs) (n : ℕ) : Prop where
  block : s'.cur_data_block = s.cur_data_block + n
  inode : s'.cur_inode_index = s.cur_inode_index
  accesses : ∀ a, a ∈ s'.accesses ↔ a ∈ s.accesses ∨
    ∃ b, s.cur_data_block ≤ b ∧ b < s.cur_data_block + n ∧
      (a = .block b ∨ a = .bitMap ((b - 42) / 8))

theorem Took.refl (s : Mkfs) : Took s s 0 := by
  refine ⟨rfl, rfl, fun a => ⟨.inl, ?_⟩⟩
  rintro (h | ⟨b, hb, hb', -⟩)
  · exact h
  · omega

theorem Took.trans (h : Took s s' n) (h' : Took s' s'' m) : Took s s'' (n + m) := by
  refine ⟨by rw [h'.block, h.block, Nat.add_assoc], by rw [h'.inode, h.inode], fun a => ?_⟩
  rw [h'.accesses, h.accesses, h.block, or_assoc]
  refine or_congr_right ⟨?_, ?_⟩
  · rintro (⟨b, hb, hb', ha⟩ | ⟨b, hb, hb', ha⟩)
    · exact ⟨b, hb, by omega, ha⟩
    · exact ⟨b, by omega, by omega, ha⟩
  · rintro ⟨b, hb, hb', ha⟩
    by_cases hlt : b < s.cur_data_block + n
    · exact .inl ⟨b, hb, hlt, ha⟩
    · exact .inr ⟨b, by omega, by omega, ha⟩

theorem took_nextBlock (hblock : s'.cur_data_block = s.cur_data_block)
    (hinode : s'.cur_inode_index = s.cur_inode_index)
    (hacc : s'.accesses = .block s.cur_data_block :: s.accesses) :
    Took s (nextBlock (superBlock size) s') 1 := by
  refine ⟨by rw [nextBlock_cur_data_block, hblock], by rw [nextBlock_cur_inode_index, hinode],
    fun a => ?_⟩
  · have hlist : (nextBlock (superBlock size) s').accesses =
        .bitMap ((s.cur_data_block - 42) / 8) :: .block s.cur_data_block :: s.accesses := by
      rw [nextBlock_accesses, hblock, hacc, bmap_start_superBlock, Nat.sub_sub]
    rw [hlist, List.mem_cons, List.mem_cons]
    constructor
    · rintro (h | h | h)
      · exact .inr ⟨_, le_rfl, by omega, .inr h⟩
      · exact .inr ⟨_, le_rfl, by omega, .inl h⟩
      · exact .inl h
    · rintro (h | ⟨b, hb, hb', h⟩)
      · exact .inr (.inr h)
      · obtain rfl : b = s.cur_data_block := by omega
        tauto

/-! ## The blocks of a file -/

section Equations

variable {super_block : SuperBlock}

theorem assignBlock_direct (hm : m < 12) : assignBlock super_block s inode indirect_block m =
    (s.access (.block s.cur_data_block), inode.setAddr m s.cur_data_block, indirect_block) :=
  if_pos hm

theorem assignBlock_first (hm : 12 ≤ m) (hz : inode.indirect_addr = 0) :
    assignBlock super_block s inode indirect_block m =
      ((nextBlock super_block (s.access (.block s.cur_data_block))).access
          (.block (s.cur_data_block + 1)), { inode with indirect_addr := .ofNat s.cur_data_block },
        setIndirectWord indirect_block (m - 12) (s.cur_data_block + 1)) := by
  refine (if_neg (not_lt.mpr hm)).trans ?_
  rw [if_pos hz]
  rfl

theorem assignBlock_indirect (hm : 12 ≤ m) (hz : inode.indirect_addr ≠ 0) :
    assignBlock super_block s inode indirect_block m =
      (s.access (.block s.cur_data_block), inode,
        setIndirectWord indirect_block (m - 12) s.cur_data_block) := by
  refine (if_neg (not_lt.mpr hm)).trans ?_
  rw [if_neg hz]
  rfl

theorem copyBlocks_nil :
    copyBlocks super_block s inode indirect_block buf n [] = (s, inode, indirect_block) := by
  rw [copyBlocks, dif_neg (by simp)]

/-- One round of the loop over the blocks of a file. -/
theorem copyBlocks_cons (hfile : file ≠ [])
    (ha : assignBlock super_block s inode indirect_block m = (s', x, indirect_block')) :
    copyBlocks super_block s inode indirect_block buf (512 * m) file =
      copyBlocks super_block (nextBlock super_block (s'.put (s'.cur_data_block * 512 % 2 ^ 32) 512
          (buf.patch 0 (min file.length 512) (charAt file)).byte)) x indirect_block'
        (buf.patch 0 (min file.length 512) (charAt file)) (512 * (m + 1)) (file.drop 512) := by
  rw [copyBlocks, dif_pos (List.length_pos_iff.mpr hfile)]
  simp only [BLOCK_SIZE, Nat.mul_div_cancel_left m (show 0 < 512 by omega), ha]
  by_cases hlast : file.length ≤ 512
  · rw [List.drop_eq_nil_of_le hlast, copyBlocks_nil, copyBlocks_nil]
  · rw [min_eq_right (by omega), show 512 * m + 512 = 512 * (m + 1) by omega]

end Equations

/-- The state in which block index `m` of a file gets its block: the indirect block is taken before
the first block it lists. -/
theorem took_assignBlock (size : ℕ) (indirect_block : Sector) (hz : inode.indirect_addr = 0 ↔ m ≤ 12)
    (h0 : 0 < s.cur_data_block) (hlt : s.cur_data_block < 2 ^ 32) :
    ∃ s₁ x indirect_block', Took s s₁ (if m = 12 then 1 else 0) ∧ s₁.root_inode = s.root_inode ∧
      assignBlock (superBlock size) s inode indirect_block m =
        (s₁.access (.block s₁.cur_data_block), x, indirect_block') ∧
      (x.indirect_addr = 0 ↔ m + 1 ≤ 12) := by
  by_cases h12 : m < 12
  · refine ⟨s, _, _, ?_, rfl, assignBlock_direct h12, hz.trans (by omega)⟩
    rw [if_neg (by omega)]
    exact .refl s
  · by_cases hm : m = 12
    · refine ⟨_, _, _, ?_, ?_, assignBlock_first (by omega) (hz.mpr hm.le), ?_⟩
      · rw [if_pos hm]
        exact took_nextBlock rfl rfl rfl
      · rw [nextBlock_root_inode]
        rfl
      · rw [← UInt32.toNat_inj, UInt32.toNat_ofNat', Nat.mod_eq_of_lt hlt, UInt32.toNat_zero]
        omega
    · have hne : inode.indirect_addr ≠ 0 := fun he => by have := hz.mp he; omega
      refine ⟨s, _, _, ?_, rfl, assignBlock_indirect (by omega) hne, hz.trans (by omega)⟩
      rw [if_neg hm]
      exact .refl s

/-- The number of blocks that `n` data blocks take from block index `m` on. -/
def copyNeed (m n : ℕ) : ℕ := n + if m ≤ 12 ∧ 12 < m + n then 1 else 0

theorem copyNeed_zero (m : ℕ) : copyNeed m 0 = 0 := by
  rw [copyNeed, if_neg (by omega)]

theorem copyNeed_succ (m n : ℕ) :
    copyNeed m (n + 1) = (if m = 12 then 1 else 0) + (1 + copyNeed (m + 1) n) := by
  unfold copyNeed
  split_ifs <;> omega

theorem copyNeed_start (len : ℕ) : copyNeed 0 (blocks len) = dataNeed len := by
  simp [copyNeed, dataNeed]

theorem blocks_eq_zero_iff : blocks n = 0 ↔ n = 0 := by
  rw [blocks]
  omega

/-- The loop over the blocks of a file, from block index `m` on. -/
theorem took_copyBlocks (size : ℕ) (indirect_block buf : Sector) (hn : blocks file.length = n)
    (hz : inode.indirect_addr = 0 ↔ m ≤ 12)
    (h0 : 0 < s.cur_data_block) (hlt : s.cur_data_block + copyNeed m n < 2 ^ 32) :
    Took s (copyBlocks (superBlock size) s inode indirect_block buf (512 * m) file).1
        (copyNeed m n) ∧
      (copyBlocks (superBlock size) s inode indirect_block buf (512 * m) file).1.root_inode =
        s.root_inode := by
  induction n generalizing s inode indirect_block buf file m with
  | zero =>
    rw [List.length_eq_zero_iff.mp (blocks_eq_zero_iff.mp hn), copyBlocks_nil, copyNeed_zero]
    exact ⟨.refl s, rfl⟩
  | succ n ih =>
    have hnil : file ≠ [] := by
      rintro rfl
      simp [blocks] at hn
    have hdrop : blocks (file.drop 512).length = n := by
      rw [List.length_drop, blocks]
      rw [blocks] at hn
      omega
    rw [copyNeed_succ] at hlt ⊢
    obtain ⟨s₁, x, indirect_block', ht₁, hr₁, ha, hz₁⟩ :=
      took_assignBlock size indirect_block hz h0 (by omega)
    rw [copyBlocks_cons hnil ha]
    set s₂ := nextBlock (superBlock size) _ with hs₂
    have ht₂ : Took s₁ s₂ 1 := took_nextBlock rfl rfl rfl
    have hr₂ : s₂.root_inode = s₁.root_inode := nextBlock_root_inode _ _
    have hcur : s₂.cur_data_block = s.cur_data_block + (if m = 12 then 1 else 0) + 1 := by
      rw [ht₂.block, ht₁.block]
    obtain ⟨ht₃, hr₃⟩ := ih (s := s₂) _ _ hdrop hz₁ (by omega) (by omega)
    exact ⟨ht₁.trans (ht₂.trans ht₃), hr₃.trans (hr₂.trans hr₁)⟩

/-- The loop over all blocks of a file. -/
theorem took_of_copyBlocks
    (hr : copyBlocks (superBlock size) s inode indirect_block buf (512 * 0) file =
      (s', x, indirect_block')) (hz : inode.indirect_addr = 0) (h0 : 0 < s.cur_data_block)
    (hlt : s.cur_data_block + dataNeed file.length < 2 ^ 32) :
    Took s s' (dataNeed file.length) ∧ s'.root_inode = s.root_inode := by
  have hneed : copyNeed 0 (blocks file.length) = dataNeed file.length := copyNeed_start _
  have := took_copyBlocks size indirect_block buf
    (rfl : blocks file.length = _) (iff_of_true hz (Nat.zero_le 12)) h0 (by rwa [hneed])
  rwa [hr, hneed] at this

/-! ## One file -/

/-- The block numbers and the root directory after `j` files that took `u` blocks. -/
structure Counted (s : Mkfs) (j u : ℕ) : Prop where
  block : s.cur_data_block = 42 + u
  inode : s.cur_inode_index = j + 1
  size : s.root_inode.size.toNat = 16 * j
  addr : ∀ k < 12, s.root_inode.addrAt k = 0 ↔ (j + 31) / 32 ≤ k

/-- The number of blocks that the root directory takes for entry `j`. -/
def rootNeed (j : ℕ) : ℕ := if j % 32 = 0 then 1 else 0

theorem rootNeed_add (j : ℕ) : (j + 31) / 32 + rootNeed j = (j + 1 + 31) / 32 := by
  unfold rootNeed
  split <;> omega

theorem rootBlock_of_zero {super_block : SuperBlock} (hz : s.root_inode.addrAt k = 0) :
    rootBlock super_block s k = nextBlock super_block
      { (s.access (.rootAddr k)).access (.block s.cur_data_block) with
        root_inode := s.root_inode.setAddr k s.cur_data_block } := if_pos hz

theorem rootBlock_of_ne {super_block : SuperBlock} (hz : s.root_inode.addrAt k ≠ 0) :
    rootBlock super_block s k = s.access (.rootAddr k) := if_neg hz

/-- The root directory before the entry of file `j` is written. -/
theorem Counted.rootBlock {u : ℕ} (h : Counted s j u) (size : ℕ) (hj : j < 384) (hu : 42 + u < 2 ^ 32) :
    Took (s.access (.rootAddr (j / 32))) (rootBlock (superBlock size) s (j / 32)) (rootNeed j) ∧
      (rootBlock (superBlock size) s (j / 32)).root_inode.size = s.root_inode.size ∧
      ∀ k < 12, (rootBlock (superBlock size) s (j / 32)).root_inode.addrAt k = 0 ↔
        (j + 1 + 31) / 32 ≤ k := by
  have hblock := h.block
  have hk : j / 32 < 12 := by omega
  have hz := h.addr (j / 32) hk
  by_cases hnew : j % 32 = 0
  · have hz' := hz.mpr (by omega)
    rw [rootNeed, if_pos hnew, rootBlock_of_zero hz']
    refine ⟨took_nextBlock rfl rfl rfl, rfl, fun k hk' => ?_⟩
    rw [nextBlock_root_inode, InodeDef.addrAt_setAddr hk (by omega)]
    by_cases hkj : k = j / 32
    · rw [if_pos hkj]
      omega
    · rw [if_neg hkj, h.addr k hk']
      omega
  · have hz' : s.root_inode.addrAt (j / 32) ≠ 0 := fun he => by have := hz.mp he; omega
    rw [rootNeed, if_neg hnew, rootBlock_of_ne hz']
    refine ⟨.refl _, rfl, fun k hk' => (h.addr k hk').trans (by omega)⟩

theorem dataNeed_le (hlen : n ≤ 512 * 140) : dataNeed n ≤ 141 := by
  unfold dataNeed
  have : blocks n ≤ 140 := by rw [blocks]; omega
  split <;> omega

theorem addDirElement_eq (super_block : SuperBlock) (hs : s.root_inode.size.toNat = 16 * j) :
    addDirElement super_block s name =
      { (rootBlock super_block s (j / 32)).put
          (((rootBlock super_block s (j / 32)).root_inode.addrAt (j / 32) * 512 +
            (rootBlock super_block s (j / 32)).root_inode.size.toNat % 512) % 2 ^ 32) 16
          (charAt (dirElement (rootBlock super_block s (j / 32)).cur_inode_index name)) with
        root_inode := { (rootBlock super_block s (j / 32)).root_inode with
          size := (rootBlock super_block s (j / 32)).root_inode.size + 16 } } := by
  have hk : s.root_inode.size.toNat / BLOCK_SIZE = j / 32 := by
    rw [hs, BLOCK_SIZE]
    omega
  unfold addDirElement
  rw [hk]
  rfl

/-- The state after the entry of file `j` is written. -/
theorem Counted.addDirElement {u : ℕ} (h : Counted s j u) (size : ℕ) (name : List UInt8)
    (hj : j < 384) (hu : 42 + u < 2 ^ 32) :
    Took (s.access (.rootAddr (j / 32))) (addDirElement (superBlock size) s name) (rootNeed j) ∧
      (addDirElement (superBlock size) s name).root_inode.size.toNat = 16 * (j + 1) ∧
      ∀ k < 12, (addDirElement (superBlock size) s name).root_inode.addrAt k = 0 ↔
        (j + 1 + 31) / 32 ≤ k := by
  obtain ⟨ht, hs, ha⟩ := h.rootBlock size hj hu
  rw [addDirElement_eq _ h.size]
  refine ⟨⟨ht.block, ht.inode, ht.accesses⟩, ?_, ha⟩
  have h16 : (16 : UInt32).toNat = 16 := rfl
  rw [hs, UInt32.toNat_add, h.size, h16, Nat.mod_eq_of_lt (by omega)]
  omega

theorem addFile_eq {super_block : SuperBlock}
    (hr : copyBlocks super_block (addDirElement super_block s name)
      (newFile s.cur_inode_index file.length) (.ofFn fun _ => 0) (.ofFn fun _ => 0) (512 * 0) file =
        (s', x, indirect_block)) :
    addFile super_block s name file =
      { (putInode super_block s' s'.cur_inode_index x).putIndirect x indirect_block with
        cur_inode_index := s'.cur_inode_index + 1 } := by
  unfold addFile
  rw [Nat.mul_zero] at hr
  simp only [hr, putIndirect_cur_inode_index]
  rfl

theorem putInode_accesses (inode_index : ℕ) (x : InodeDef) :
    (putInode (superBlock size) s inode_index x).accesses =
      .inodeRecord (64 * inode_index + 512) :: s.accesses := by
  simp only [putInode, access, put, INODE_ELEMENT_SIZE, inode_start_superBlock, BLOCK_SIZE,
    Nat.mul_comm 64]

/-- One file: the blocks and the inode record that it takes. -/
theorem Counted.addFile {u : ℕ} (h : Counted s j u) (size : ℕ) (name : List UInt8) (hj : j < 384)
    (hu : 42 + u + 142 < 2 ^ 32)
    (hlen : file.length ≤ 512 * 140) :
    Counted (addFile (superBlock size) s name file) (j + 1)
        (u + (rootNeed j + dataNeed file.length)) ∧
      ∀ a, a ∈ (addFile (superBlock size) s name file).accesses ↔
        a ∈ s.accesses ∨ a = .rootAddr (j / 32) ∨ a = .inodeRecord (64 * (j + 1) + 512) ∨
          ∃ b, 42 + u ≤ b ∧ b < 42 + u + (rootNeed j + dataNeed file.length) ∧
            (a = .block b ∨ a = .bitMap ((b - 42) / 8)) := by
  obtain ⟨ht, hs, ha⟩ := h.addDirElement size name hj (by omega)
  have hneed := dataNeed_le hlen
  have hroot : rootNeed j ≤ 1 := by unfold rootNeed; split <;> omega
  have hblock : (Mkfs.addDirElement (superBlock size) s name).cur_data_block =
      42 + u + rootNeed j := by
    rw [ht.block, access_cur_data_block, h.block]
  have hinode : (Mkfs.addDirElement (superBlock size) s name).cur_inode_index = j + 1 := by
    rw [ht.inode, access_cur_inode_index, h.inode]
  rcases hr : copyBlocks (superBlock size) (Mkfs.addDirElement (superBlock size) s name)
    (newFile s.cur_inode_index file.length) (.ofFn fun _ => 0) (.ofFn fun _ => 0) (512 * 0) file
    with ⟨s', x, t⟩
  obtain ⟨ht', hr'⟩ : Took (Mkfs.addDirElement (superBlock size) s name) s'
      (dataNeed file.length) ∧
      s'.root_inode = (Mkfs.addDirElement (superBlock size) s name).root_inode :=
    took_of_copyBlocks hr rfl (by omega) (by omega)
  have htook := ht.trans ht'
  rw [addFile_eq hr]
  refine ⟨⟨?_, ?_, ?_, fun k hk => ?_⟩, fun a => ?_⟩
  · simp only [putIndirect_cur_data_block, putInode_cur_data_block]
    rw [htook.block, access_cur_data_block, h.block]
    omega
  · simp only
    rw [htook.inode, access_cur_inode_index, h.inode]
  · simp only [putIndirect_root_inode, putInode_root_inode]
    rw [hr', hs]
  · simp only [putIndirect_root_inode, putInode_root_inode]
    rw [hr', ha k hk]
  · simp only [putIndirect_accesses]
    rw [putInode_accesses, List.mem_cons, htook.accesses, access_accesses, List.mem_cons,
      access_cur_data_block, h.block, ht'.inode, hinode]
    constructor
    · rintro (h | (h | h) | h)
      · exact .inr (.inr (.inl h))
      · exact .inr (.inl h)
      · exact .inl h
      · exact .inr (.inr (.inr h))
    · rintro (h | h | h | h)
      · exact .inr (.inl (.inr h))
      · exact .inr (.inl (.inl h))
      · exact .inl h
      · exact .inr (.inr h)

/-! ## All files -/

section Recorded

variable {super_block : SuperBlock}

theorem subset_assignBlock :
    s.accesses ⊆ (assignBlock super_block s inode indirect_block m).1.accesses := by
  by_cases hm : m < 12
  · rw [assignBlock_direct hm]
    exact List.subset_cons_self _ _
  · by_cases hz : inode.indirect_addr = 0
    · rw [assignBlock_first (not_lt.mp hm) hz, access_accesses, nextBlock_accesses]
      exact fun a ha => by simp [access_accesses, ha]
    · rw [assignBlock_indirect (not_lt.mp hm) hz]
      exact List.subset_cons_self _ _

theorem subset_copyBlocks : s.accesses ⊆
    (copyBlocks super_block s inode indirect_block buf n file).1.accesses := by
  induction hl : file.length using Nat.strong_induction_on generalizing s inode indirect_block buf n
    file with
  | _ len ih =>
  subst hl
  rw [copyBlocks]
  split
  · refine List.Subset.trans ?_ (ih _ ?_ rfl)
    · rw [nextBlock_accesses]
      exact List.subset_cons_of_subset _ subset_assignBlock
    · simp only [List.length_drop, BLOCK_SIZE]
      omega
  · exact List.Subset.refl _

theorem subset_addFile : s.accesses ⊆ (addFile super_block s name file).accesses := by
  rcases hr : copyBlocks super_block (addDirElement super_block s name)
    (newFile s.cur_inode_index file.length) (.ofFn fun _ => 0) (.ofFn fun _ => 0) (512 * 0) file
    with ⟨s', x, t⟩
  have hdir : s.accesses ⊆ (addDirElement super_block s name).accesses := by
    change s.accesses ⊆ (rootBlock super_block s _).accesses
    unfold rootBlock
    simp only
    split
    · rw [nextBlock_accesses]
      exact fun a ha => by simp [access_accesses, ha]
    · exact List.subset_cons_self _ _
  have hcopy : (addDirElement super_block s name).accesses ⊆ s'.accesses := by
    rw [show s' = (s', x, t).1 from rfl, ← hr]
    exact subset_copyBlocks
  rw [addFile_eq hr]
  simp only [putIndirect_accesses]
  exact List.subset_cons_of_subset _ (List.Subset.trans hdir hcopy)

theorem subset_addFiles (files : List HostFile) :
    s.accesses ⊆ (addFiles super_block s files).accesses := by
  induction files generalizing s with
  | nil => exact List.Subset.refl _
  | cons file files ih =>
    rw [addFiles]
    split
    · exact List.Subset.refl _
    · split
      · exact ih
      · split
        · exact ih
        · split
          · exact ih
          · exact List.Subset.trans subset_addFile ih

end Recorded

theorem counted_start (size : ℕ) : Counted (start (superBlock size)) 0 0 := by
  refine ⟨rfl, rfl, rfl, fun k hk => ?_⟩
  simp [start, InodeDef.addrAt]

theorem blocksNeeded_concat (files : List HostFile) (file : HostFile) :
    blocksNeeded (files ++ [file]) = blocksNeeded files + (rootNeed files.length + file.need) := by
  have := rootNeed_add files.length
  simp only [blocksNeeded, List.length_append, List.length_singleton, List.map_append,
    List.map_singleton, List.sum_append, List.sum_singleton]
  omega

theorem blocksNeeded_mono {files files' : List HostFile} (h : files <+: files') :
    blocksNeeded files ≤ blocksNeeded files' := by
  obtain ⟨more, rfl⟩ := h
  simp only [blocksNeeded, List.length_append, List.map_append, List.sum_append]
  omega

theorem toNat_size_superBlock (hlt : size < 2 ^ 31) : (superBlock size).size.toNat = size := by
  change (UInt32.ofNat size).toNat = size
  rw [UInt32.toNat_ofNat', Nat.mod_eq_of_lt (by omega)]

theorem datablocks_count_superBlock (h42 : 42 ≤ size) (hlt : size < 2 ^ 31) :
    (superBlock size).datablocks_count.toNat = size - 42 := by
  change (UInt32.ofNat size - 41 - 1).toNat = size - 42
  have h41 : (41 : UInt32).toNat = 41 := rfl
  have h1 : (1 : UInt32).toNat = 1 := rfl
  have hsize : (UInt32.ofNat size).toNat = size := toNat_size_superBlock hlt
  rw [UInt32.toNat_sub_of_le, UInt32.toNat_sub_of_le, hsize, h41, h1]
  · omega
  · rw [UInt32.le_iff_toNat_le, hsize, h41]
    omega
  · rw [UInt32.le_iff_toNat_le, UInt32.toNat_sub_of_le, hsize, h41, h1]
    · omega
    · rw [UInt32.le_iff_toNat_le, hsize, h41]
      omega

/-- The accesses for one file lie in their regions exactly if the file fits. -/
theorem Counted.inRegion_addFile {u : ℕ} (h : Counted s j u) (name : List UInt8)
    (hlt : size < 2 ^ 31) (h42 : 42 < size)
    (hj : j ≤ 319) (hu : u ≤ min (size - 42) 4096) (hlen : file.length ≤ 512 * 140) :
    (∀ a ∈ (Mkfs.addFile (superBlock size) s name file).accesses, a.InRegion (superBlock size)) ↔
      (∀ a ∈ s.accesses, a.InRegion (superBlock size)) ∧ j < 319 ∧
        u + (rootNeed j + dataNeed file.length) ≤ min (size - 42) 4096 := by
  obtain ⟨-, hacc⟩ := h.addFile size name (by omega) (by omega) hlen
  have hsize := toNat_size_superBlock hlt
  simp only [hacc]
  constructor
  · intro hall
    refine ⟨fun a ha => hall a (.inl ha), ?_, ?_⟩
    · have := (hall _ (.inr (.inr (.inl rfl)))).2
      rw [bmap_start_superBlock] at this
      omega
    · by_contra hgt
      -- the last block that the file takes is the one outside
      set v := u + (rootNeed j + dataNeed file.length) with hv
      have hblock : (Access.block (42 + v - 1)).InRegion (superBlock size) :=
        hall _ (.inr (.inr (.inr ⟨42 + v - 1, by omega, by omega, .inl rfl⟩)))
      have hbit : (Access.bitMap ((42 + v - 1 - 42) / 8)).InRegion (superBlock size) :=
        hall _ (.inr (.inr (.inr ⟨42 + v - 1, by omega, by omega, .inr rfl⟩)))
      have hblock' : 42 + v - 1 < size := hsize ▸ hblock
      have hbit' : (42 + v - 1 - 42) / 8 < 512 := hbit
      omega
  · rintro ⟨hall, hj', hle⟩ a (ha | rfl | rfl | ⟨b, hb, hb', rfl | rfl⟩)
    · exact hall a ha
    · change j / 32 < 12
      omega
    · refine ⟨?_, ?_⟩
      · rw [inode_start_superBlock]
        omega
      · rw [bmap_start_superBlock]
        omega
    · change b < (superBlock size).size.toNat
      omega
    · change (b - 42) / 8 < 512
      omega

/-- The loop over files that are not accepted, and over the first file that is. -/
theorem addFiles_cons {super_block : SuperBlock} {f : HostFile} (files : List HostFile) :
    addFiles super_block s (f :: files) =
      if s.cur_data_block - super_block.bmap_start.toNat > super_block.datablocks_count.toNat then s
      else if f.Accepted then
        addFiles super_block (Mkfs.addFile super_block s f.fileName (f.contents.getD [])) files
      else addFiles super_block s files := by
  rw [addFiles]
  split
  · rfl
  · rcases hc : f.contents with _ | contents
    · have hrej : ¬ f.Accepted := by
        rintro ⟨c, h, -⟩
        simp [hc] at h
      rw [if_neg hrej]
    · have hacc : f.Accepted ↔ ¬ contents.length > maxSupportFileSize ∧
          ¬ f.fileName.length ≥ MAX_FILE_NAME_LEN := by
        have hmax : maxSupportFileSize = 512 * 140 := rfl
        rw [hmax, MAX_FILE_NAME_LEN]
        constructor
        · rintro ⟨c, h, hl, hn⟩
          obtain rfl : contents = c := by simpa [hc] using h
          omega
        · rintro ⟨hl, hn⟩
          exact ⟨contents, hc, by omega, by omega⟩
      simp only [Option.getD_some]
      by_cases hl : contents.length > maxSupportFileSize
      · rw [if_pos hl, if_neg fun h => (hacc.mp h).1 hl]
      · rw [if_neg hl]
        by_cases hn : f.fileName.length ≥ MAX_FILE_NAME_LEN
        · rw [if_pos hn, if_neg fun h => (hacc.mp h).2 hn]
        · rw [if_neg hn, if_pos (hacc.mpr ⟨hl, hn⟩)]

/-- The condition `Fits` from the file after `done` on. -/
def FitsFrom (datablocks_count : ℕ) (done all : List HostFile) : Prop :=
  ∀ j, done.length ≤ j → j < all.length → blocksNeeded (all.take j) < datablocks_count →
    j < 319 ∧ blocksNeeded (all.take (j + 1)) ≤ min datablocks_count 4096

theorem fitsFrom_iff {count : ℕ} {done rest : List HostFile} {f : HostFile}
    (hless : blocksNeeded done < count) :
    FitsFrom count done (done ++ [f] ++ rest) ↔
      (done.length < 319 ∧ blocksNeeded (done ++ [f]) ≤ min count 4096) ∧
        FitsFrom count (done ++ [f]) (done ++ [f] ++ rest) := by
  have htake : (done ++ [f] ++ rest).take done.length = done := by
    rw [List.append_assoc, List.take_left]
  have htake' : (done ++ [f] ++ rest).take (done.length + 1) = done ++ [f] :=
    List.take_left' (by simp)
  have hlen : (done ++ [f]).length = done.length + 1 := by simp
  constructor
  · intro h
    refine ⟨?_, fun j hj => h j (by omega)⟩
    have := h done.length le_rfl (by simp) (by rwa [htake])
    rwa [htake'] at this
  · rintro ⟨hfirst, h⟩ j hj hj' hb
    obtain rfl | hne := eq_or_ne j done.length
    · rwa [htake']
    · exact h j (by omega) hj' hb

/-- The loop over the files, after the files of `done`. -/
theorem inRegion_addFiles (hlt : size < 2 ^ 31) (h42 : 42 < size) (done files : List HostFile)
    (h : Counted s done.length (blocksNeeded done)) (hj : done.length ≤ 319)
    (hu : blocksNeeded done ≤ min (size - 42) 4096) :
    (∀ a ∈ (addFiles (superBlock size) s files).accesses, a.InRegion (superBlock size)) ↔
      (∀ a ∈ s.accesses, a.InRegion (superBlock size)) ∧
        FitsFrom (size - 42) done (done ++ files.filter fun f => f.Accepted) := by
  induction files generalizing s done with
  | nil =>
    refine ⟨fun hall => ⟨hall, fun j hj hj' => ?_⟩, fun hall => hall.1⟩
    simp only [List.filter_nil, List.append_nil] at hj'
    omega
  | cons f files ih =>
    rw [addFiles_cons, bmap_start_superBlock, datablocks_count_superBlock h42.le hlt, h.block]
    by_cases hfull : 42 + blocksNeeded done - 41 > size - 42
    · rw [if_pos hfull]
      refine ⟨fun hall => ⟨hall, fun j hj hj' hless => ?_⟩, fun hall => hall.1⟩
      have hpre : done <+: (done ++ (f :: files).filter fun f => f.Accepted).take j := by
        rw [List.take_append, List.take_of_length_le hj]
        exact List.prefix_append _ _
      have := blocksNeeded_mono hpre
      omega
    · rw [if_neg hfull]
      by_cases hacc : f.Accepted
      · obtain ⟨contents, hc, hlen, -⟩ := id hacc
        rw [if_pos hacc, List.filter_cons_of_pos (by simpa using hacc), List.append_cons,
          fitsFrom_iff (by omega), hc, Option.getD_some]
        have hneed : f.need = dataNeed contents.length := by rw [HostFile.need, hc, Option.getD_some]
        have hcount := (h.addFile size f.fileName (by omega) (by omega) hlen).1
        have hstep := h.inRegion_addFile f.fileName hlt h42 hj hu hlen
        rw [← hneed, ← blocksNeeded_concat] at hstep hcount
        by_cases hfit : done.length < 319 ∧ blocksNeeded (done ++ [f]) ≤ min (size - 42) 4096
        · have hl : (done ++ [f]).length = done.length + 1 := by simp
          rw [ih (done ++ [f]) (by rwa [hl]) (by omega) hfit.2, hstep, and_assoc]
        · refine ⟨fun hall => ?_, fun hall => absurd hall.2.1 hfit⟩
          have := hstep.mp fun a ha => hall a (subset_addFiles files ha)
          exact absurd this.2 hfit
      · rw [if_neg hacc, List.filter_cons_of_neg (by simpa using hacc)]
        exact ih done h hj hu

end Mkfs

open Mkfs

theorem inRegion_mkfs {size : ℕ} (h42 : 42 < size) (hlt : size < 2 ^ 31) (files : List HostFile) :
    (∀ a ∈ (mkfs size files).accesses, a.InRegion (superBlock size)) ↔
      FitsFrom (size - 42) [] (files.filter fun f => f.Accepted) := by
  have hacc : (mkfs size files).accesses = .inodeRecord (64 * 0 + 512) ::
      (addFiles (superBlock size) (start (superBlock size)) files).accesses :=
    putInode_accesses _ _
  have hroot : (Access.inodeRecord (64 * 0 + 512)).InRegion (superBlock size) := by
    refine ⟨?_, ?_⟩
    · rw [inode_start_superBlock]
    · rw [bmap_start_superBlock]
      omega
  have hstart : ∀ a ∈ (start (superBlock size)).accesses, a.InRegion (superBlock size) :=
    fun a ha => by simp [start] at ha
  rw [hacc, List.forall_mem_cons, inRegion_addFiles hlt h42 [] files (counted_start size) (by simp)
    (by simp [blocksNeeded])]
  simp only [hroot, true_and, List.nil_append]
  exact ⟨And.right, fun h => ⟨fun a ha => hstart a ha, h⟩⟩

/-- `mkfs` stays inside the regions of the image exactly if the files fit. -/
theorem mkfs_inRegion_iff {size : ℕ} (h42 : 42 < size) (hlt : size < 2 ^ 31)
    (files : List HostFile) :
    (∀ a ∈ (mkfs size files).accesses, a.InRegion (superBlock size)) ↔ Fits (size - 42) files := by
  rw [inRegion_mkfs h42 hlt]
  exact ⟨fun h j => h j (Nat.zero_le j), fun h j _ => h j⟩

/-- A file of the host with the given length. -/
def sampleFile (len : ℕ) : HostFile := ⟨⟨[97], by decide⟩, some (List.replicate len 0)⟩

theorem accepted_sampleFile {len : ℕ} (h : len ≤ 512 * 140) : (sampleFile len).Accepted :=
  ⟨_, rfl, by simpa using h, by simp [HostFile.fileName, sampleFile, slash]⟩

theorem need_sampleFile (len : ℕ) : (sampleFile len).need = dataNeed len := by
  rw [HostFile.need, sampleFile, Option.getD_some, List.length_replicate]

/-- One short file on a small image. -/
theorem mkfs_inRegion_sample : Fits (100 - 42) [sampleFile 2] ∧
    ∀ a ∈ (mkfs 100 [sampleFile 2]).accesses, a.InRegion (superBlock 100) := by
  have hfits : Fits (100 - 42) [sampleFile 2] := by
    unfold Fits
    rw [List.filter_cons_of_pos (by simpa using accepted_sampleFile (by omega)), List.filter_nil]
    intro j hj _
    obtain rfl : j = 0 := by simpa using hj
    have hle : blocksNeeded [sampleFile 2] ≤ min (100 - 42) 4096 := by
      simp [blocksNeeded, need_sampleFile, dataNeed, blocks]
    exact ⟨by omega, hle⟩
  exact ⟨hfits, (mkfs_inRegion_iff (by omega) (by omega) _).mpr hfits⟩

/-- A file of two blocks on an image with two data blocks, one of which the root directory takes. -/
theorem mkfs_leaves_region : ¬ ∀ (size : ℕ) (files : List HostFile), 42 < size → size < 2 ^ 31 →
    ∀ a ∈ (mkfs size files).accesses, a.InRegion (superBlock size) := by
  intro h
  have hfits := (inRegion_mkfs (by omega) (by omega) _).mp
    (h 44 [sampleFile 513] (by omega) (by omega))
  rw [List.filter_cons_of_pos (by simpa using accepted_sampleFile (by omega)), List.filter_nil]
    at hfits
  have hle : blocksNeeded [sampleFile 513] ≤ min (44 - 42) 4096 :=
    (hfits 0 le_rfl (by simp) (by simp [blocksNeeded])).2
  simp [blocksNeeded, need_sampleFile, dataNeed, blocks] at hle

end OrangeOs.Fs
