import OrangeOs.Filesystem.CreateSpec
import OrangeOs.Filesystem.MkfsRegions

/-! # Copying a file into an image

The loop over the blocks of a file takes consecutive blocks: the first twelve data blocks, then the
indirect block, then the others. Together with the inode record and the indirect block that are
written at the end, it fills an empty file.
-/

namespace OrangeOs.Fs

open Prog

/-! ## Sectors of an image -/

theorem Image.byte_disk (fs_img : Image) (b : ℕ) {o : ℕ} (ho : o < 512) :
    (fs_img.disk b).byte o = fs_img (512 * b + o) := Buffer.byte_ofFn ho

/-- Writing inside one block. -/
theorem Image.disk_put (fs_img : Image) (b o len : ℕ) (buf : ℕ → UInt8) (h : o + len ≤ 512) :
    (fs_img.put (512 * b + o) len buf).disk =
      Function.update fs_img.disk b ((fs_img.disk b).patch o len buf) := by
  funext c
  apply Buffer.ext_byte
  intro p hp
  rw [Image.byte_disk _ _ hp, Image.put]
  by_cases hc : c = b
  · subst hc
    rw [Function.update_self, Buffer.byte_patch hp, Image.byte_disk _ _ hp]
    by_cases hin : o ≤ p ∧ p < o + len
    · rw [if_pos hin, if_pos (by omega), Nat.add_sub_add_left]
    · rw [if_neg hin, if_neg (by omega)]
  · rw [Function.update_of_ne hc, Image.byte_disk _ _ hp, if_neg (by omega)]

/-- The disk that a state of the builder describes. -/
def Mkfs.disk (s : Mkfs) : Disk := s.fs_img.disk

/-- The effect of filling the empty file `j` with bytes: its record becomes `x`, whose blocks were
free. -/
structure Filled (d : Disk) (j : ℕ) (x : InodeDef) (bytes : List UInt8) (d' : Disk) : Prop where
  super : d' 0 = d 0
  record : inodeAt d' j = x
  others : ∀ k < 320, k ≠ j → inodeAt d' k = inodeAt d k
  marked : ∀ b, Marked d b → Marked d' b
  frame : ∀ b, Marked d b → d' b = d b
  mapped : Mapped d' x (fileBlocks x)
  vacant : Vacant d' x (fileBlocks x)
  fresh : ∀ b, Owns d' x (fileBlocks x) b → Free d b
  contents : contents d' x = bytes

namespace Filled

variable {d d' : Disk} {j k : ℕ} {x : InodeDef} {bytes : List UInt8}

theorem kept (h : Filled d j x bytes d') (hw : WellFormed d) (hk : InUse d k) {b : ℕ}
    (hb : OwnedBy d k b) : d' b = d b :=
  h.frame b ((hw.mapped k hk).owns_area hb).2

theorem wellFormed (h : Filled d j x bytes d') (hw : WellFormed d) (hx : x.inode_index.toNat = j) :
    WellFormed d' := by
  have huse : ∀ k, InUse d' k → k ≠ j → InUse d k := fun k hk hne =>
    ⟨hk.1, by rw [← h.others k hk.1 hne]; exact hk.2⟩
  refine .of_apart (hw.formatted.congr h.super) (fun k hk => ?_)
    (hw.apart.step j h.super h.marked ?_ ?_)
  · by_cases hkj : k = j
    · rw [hkj, h.record, hx]
    · rw [h.others k hk.1 hkj]
      exact hw.index k (huse k hk hkj)
  · rintro k _ _ ⟨hk, rfl, rfl⟩ - b hb
    exact h.kept hw hk hb
  · rintro k _ _ ⟨hk, rfl, rfl⟩
    by_cases hkj : k = j
    · subst hkj
      rw [h.record]
      exact .inr ⟨h.mapped, h.vacant, fun b hb => .inr ⟨rfl, h.fresh b hb⟩⟩
    · rw [h.others k hk.1 hkj]
      exact .inl ⟨hkj, huse k hk hkj, rfl, rfl⟩

theorem sameDirs (h : Filled d j x bytes d') (ht : FsTree d) (hd : ¬ IsDir d j)
    (hx : x.type = (inodeAt d j).type) : SameDirs d d' := by
  have htype : ∀ k < 320, (inodeAt d' k).type = (inodeAt d k).type := fun k hk => by
    by_cases hkj : k = j
    · rw [hkj, h.record, hx]
    · rw [h.others k hk hkj]
  refine ⟨h.super, h.marked, fun k hk => ⟨hk.1, by rw [htype k hk.1]; exact hk.2⟩,
    fun k hk => ⟨hk.1, by rw [← htype k hk.1]; exact hk.2⟩, fun k hk => ?_,
    fun k hk b hb => h.kept ht.wf hk.inUse hb⟩
  exact h.others k hk.1 fun he => hd (he ▸ hk)

theorem contents_kept (h : Filled d j x bytes d') (hw : WellFormed d) (hk : InUse d k)
    (hne : k ≠ j) : Fs.contents d' (inodeAt d' k) = Fs.contents d (inodeAt d k) := by
  rw [h.others k hk.1 hne, contents_congr (hw.mapped k hk) fun b hb => h.kept hw hk hb]

end Filled

namespace Mkfs

variable {size : ℕ} {s s' : Mkfs} {d d' : Disk} {x inode : InodeDef} {n m j b k base : ℕ}
  {indirect_block buf : Sector} {name file bytes : List UInt8}

theorem disk_put (s : Mkfs) (b o len : ℕ) (buf : ℕ → UInt8) (h : o + len ≤ 512) :
    (s.put (512 * b + o) len buf).disk =
      Function.update s.disk b ((s.disk b).patch o len buf) :=
  s.fs_img.disk_put b o len buf h

/-- The array `bit_map` agrees with the image. -/
def Synced (s : Mkfs) : Prop := s.disk 41 = s.bit_map

theorem nextBlock_disk (super_block : SuperBlock) (s : Mkfs) : (nextBlock super_block s).disk =
    (s.put (super_block.bmap_start.toNat * 512 +
      (s.cur_data_block - super_block.bmap_start.toNat - 1) / 8) 1 fun _ =>
        s.bit_map.byte ((s.cur_data_block - super_block.bmap_start.toNat - 1) / 8) |||
          bitMask ((s.cur_data_block - super_block.bmap_start.toNat - 1) % 8)).disk := rfl

theorem nextBlock_bit_map (super_block : SuperBlock) (s : Mkfs) :
    (nextBlock super_block s).bit_map =
      s.bit_map.patch ((s.cur_data_block - super_block.bmap_start.toNat - 1) / 8) 1 fun _ =>
        s.bit_map.byte ((s.cur_data_block - super_block.bmap_start.toNat - 1) / 8) |||
          bitMask ((s.cur_data_block - super_block.bmap_start.toNat - 1) % 8) := rfl

/-- Marking the current block. -/
theorem Synced.nextBlock (h : Synced s) (size : ℕ) (hlt : s.cur_data_block < 42 + 4096) :
    (nextBlock (superBlock size) s).disk = mark s.disk s.cur_data_block ∧
      Synced (nextBlock (superBlock size) s) := by
  have hdisk : (Mkfs.nextBlock (superBlock size) s).disk = mark s.disk s.cur_data_block := by
    rw [nextBlock_disk, bmap_start_superBlock, Nat.sub_sub, Nat.mul_comm 41 512,
      disk_put _ _ _ _ _ (by omega), mark, h]
  refine ⟨hdisk, ?_⟩
  rw [Synced, hdisk, nextBlock_bit_map, bmap_start_superBlock, Nat.sub_sub, mark,
    Function.update_self, h]

/-! ## The blocks of a file -/

/-- The block of block index `m` of a file whose blocks start at `base`. -/
def blockOf (base m : ℕ) : ℕ := base + m + if 12 ≤ m then 1 else 0

/-- The state after `m` data blocks and `c` indirect blocks of a file are copied. -/
structure Copying (d : Disk) (base : ℕ) (bytes : List UInt8) (x₀ : InodeDef) (s : Mkfs)
    (x : InodeDef) (t : Sector) (m c : ℕ) : Prop where
  extra : c = 0 ∧ m ≤ 12 ∨ c = 1 ∧ 12 ≤ m
  synced : Synced s
  cur : s.cur_data_block = base + m + c
  inode : x = { x₀ with addr := x.addr, indirect_addr := x.indirect_addr }
  addr : ∀ k < 12, x.addrAt k = if k < m then base + k else 0
  indirect : x.indirect_addr.toNat = if c = 0 then 0 else base + 12
  words : ∀ k < 128, indirectWord t k = if k + 12 < m then base + 13 + k else 0
  marked : ∀ b, Marked s.disk b ↔ Marked d b ∨ base ≤ b ∧ b < s.cur_data_block
  frame : ∀ b, b ≠ 41 → b < base ∨ s.cur_data_block ≤ b → s.disk b = d b
  data : ∀ p < bytes.length, p < 512 * m →
    (s.disk (blockOf base (p / 512))).byte (p % 512) = charAt bytes p

namespace Copying

variable {x₀ : InodeDef} {t : Sector} {c : ℕ}

theorem free (h : Copying d base bytes x₀ s x t m c) (hbase : 42 ≤ base)
    (hfresh : ∀ b, base ≤ b → ¬ Marked d b) (hlt : base + m + c < 42 + min 4096 (dataCount d)) :
    Free s.disk s.cur_data_block := by
  have hcur := h.cur
  have hnot : ¬ Marked s.disk s.cur_data_block := by
    rw [h.marked]
    rintro (hm | hm)
    · exact hfresh _ (by omega) hm
    · omega
  refine ⟨by omega, ?_, ?_⟩
  · rw [dataCount_congr (h.frame 0 (by omega) (by omega))]
    omega
  · by_contra hb
    exact hnot ⟨by omega, by simpa using hb⟩

/-- Taking the indirect block. -/
theorem takeIndirect (h : Copying d base bytes x₀ s x t 12 0) (size : ℕ) (hbase : 42 ≤ base)
    (hfresh : ∀ b, base ≤ b → ¬ Marked d b) (hlt : base + 12 < 42 + min 4096 (dataCount d)) :
    Copying d base bytes x₀ (nextBlock (superBlock size) (s.access (.block s.cur_data_block)))
      { x with indirect_addr := .ofNat s.cur_data_block } t 12 1 := by
  have hcur := h.cur
  have hfree := h.free hbase hfresh (by omega)
  have hsync : Synced (s.access (.block s.cur_data_block)) := h.synced
  obtain ⟨hdisk, hsync'⟩ := hsync.nextBlock size (by rw [access_cur_data_block]; omega)
  have hdisk' : (nextBlock (superBlock size) (s.access (.block s.cur_data_block))).disk =
      mark s.disk s.cur_data_block := hdisk
  have hle : ∀ p, p < 512 * 12 → blockOf base (p / 512) ≠ 41 := fun p hp => by
    rw [blockOf, if_neg (by omega)]
    omega
  refine ⟨.inr ⟨rfl, le_rfl⟩, hsync', ?_, ?_, h.addr, ?_, h.words, fun b => ?_, fun b hb hb' => ?_,
    fun p hp hp' => ?_⟩
  · rw [nextBlock_cur_data_block, access_cur_data_block, hcur]
  · rw [h.inode]
  · rw [if_neg (by omega), UInt32.toNat_ofNat', Nat.mod_eq_of_lt (by omega), hcur]
  · rw [hdisk', marked_mark_iff hfree, h.marked, nextBlock_cur_data_block, access_cur_data_block]
    constructor
    · rintro (rfl | hm | hm)
      · exact .inr ⟨by omega, by omega⟩
      · exact .inl hm
      · exact .inr ⟨hm.1, by omega⟩
    · rintro (hm | hm)
      · exact .inr (.inl hm)
      · by_cases he : b = s.cur_data_block
        · exact .inl he
        · exact .inr (.inr ⟨hm.1, by omega⟩)
  · rw [nextBlock_cur_data_block, access_cur_data_block] at hb'
    rw [hdisk', mark_of_ne hb]
    exact h.frame b hb (by omega)
  · rw [hdisk', mark_of_ne (hle p hp')]
    exact h.data p hp hp'

/-- Writing the data of block index `m` to the current block, and recording the block in `x'` or
`t'`. -/
theorem putBlock (h : Copying d base bytes x₀ s x t m c) (size : ℕ) (hbase : 42 ≤ base)
    (hfresh : ∀ b, base ≤ b → ¬ Marked d b) (hlt : base + m + c < 42 + min 4096 (dataCount d))
    (hc : c = 0 ∧ m < 12 ∨ c = 1 ∧ 12 ≤ m) {x' : InodeDef} {t' buf : Sector}
    (hx : x' = { x with addr := x'.addr })
    (haddr : ∀ k < 12, x'.addrAt k = if k < m + 1 then base + k else 0)
    (hwords : ∀ k < 128, indirectWord t' k = if k + 12 < m + 1 then base + 13 + k else 0)
    (hbuf : ∀ o < 512, 512 * m + o < bytes.length → buf.byte o = charAt bytes (512 * m + o)) :
    Copying d base bytes x₀
      (nextBlock (superBlock size) ((s.access (.block s.cur_data_block)).put
        (s.cur_data_block * 512 % 2 ^ 32) 512 buf.byte)) x' t' (m + 1) c := by
  have hcur := h.cur
  have hfree := h.free hbase hfresh hlt
  set s₁ := (s.access (.block s.cur_data_block)).put (s.cur_data_block * 512 % 2 ^ 32) 512 buf.byte
    with hs₁
  have hcur₁ : s₁.cur_data_block = s.cur_data_block := rfl
  have hdisk₁ : s₁.disk = Function.update s.disk s.cur_data_block buf := by
    have hpos : s.cur_data_block * 512 % 2 ^ 32 = 512 * s.cur_data_block + 0 := by omega
    rw [hs₁, hpos, disk_put _ _ _ _ _ (by omega)]
    congr 1
    apply Buffer.ext_byte
    intro o ho
    rw [Buffer.byte_patch_of_mem ho (by omega) (by omega), Nat.sub_zero]
  have hsync₁ : Synced s₁ := by
    rw [Synced, hdisk₁, Function.update_of_ne (by omega)]
    exact h.synced
  obtain ⟨hdisk₂, hsync₂⟩ := hsync₁.nextBlock size (by rw [hcur₁]; omega)
  rw [hcur₁] at hdisk₂
  have hfree₁ : Free s₁.disk s.cur_data_block := by
    refine ⟨hfree.1, ?_, ?_⟩
    · rw [dataCount_congr (d := s.disk) (by rw [hdisk₁, Function.update_of_ne (by omega)])]
      exact hfree.2.1
    · rw [hdisk₁, Function.update_of_ne (by omega)]
      exact hfree.2.2
  have hmark₁ : ∀ b, Marked s₁.disk b ↔ Marked s.disk b := fun b =>
    marked_congr (by rw [hdisk₁, Function.update_of_ne (by omega)])
  refine ⟨by omega, hsync₂, ?_, ?_, haddr, ?_, hwords, fun b => ?_, fun b hb hb' => ?_,
    fun p hp hp' => ?_⟩
  · rw [nextBlock_cur_data_block, hcur₁, hcur]
    omega
  · rw [hx, h.inode]
  · rw [hx]
    exact h.indirect
  · rw [hdisk₂, marked_mark_iff hfree₁, hmark₁, h.marked, nextBlock_cur_data_block, hcur₁]
    constructor
    · rintro (rfl | hm | hm)
      · exact .inr ⟨by omega, by omega⟩
      · exact .inl hm
      · exact .inr ⟨hm.1, by omega⟩
    · rintro (hm | hm)
      · exact .inr (.inl hm)
      · by_cases he : b = s.cur_data_block
        · exact .inl he
        · exact .inr (.inr ⟨hm.1, by omega⟩)
  · rw [nextBlock_cur_data_block, hcur₁] at hb'
    rw [hdisk₂, mark_of_ne hb, hdisk₁, Function.update_of_ne (by omega)]
    exact h.frame b hb (by omega)
  · by_cases hpm : p / 512 = m
    · have hblock : blockOf base (p / 512) = s.cur_data_block := by
        rw [blockOf, hcur, hpm]
        split <;> omega
      rw [hblock, hdisk₂, mark_of_ne (by omega), hdisk₁, Function.update_self,
        hbuf _ (by omega) (by omega)]
      congr 1
      omega
    · have hblock : 42 ≤ blockOf base (p / 512) ∧ blockOf base (p / 512) < s.cur_data_block := by
        rw [blockOf, hcur]
        split <;> omega
      rw [hdisk₂, mark_of_ne (by omega), hdisk₁, Function.update_of_ne (by omega)]
      exact h.data p hp (by omega)

theorem words_set (h : Copying d base bytes x₀ s x t m 1) (hm : m < 140) (h12 : 12 ≤ m)
    (hlt : s.cur_data_block < 2 ^ 32) : ∀ k < 128,
      indirectWord (setIndirectWord t (m - 12) s.cur_data_block) k =
        if k + 12 < m + 1 then base + 13 + k else 0 := by
  intro k hk
  have hcur := h.cur
  by_cases he : k = m - 12
  · subst he
    rw [indirectWord_set_self (by omega) hlt, if_pos (by omega), hcur]
    omega
  · rw [indirectWord_set_of_ne he, h.words k hk]
    split <;> split <;> omega

/-- One round of the loop. -/
theorem round (h : Copying d base bytes x₀ s x t m c) (size : ℕ) (hbase : 42 ≤ base)
    (hfresh : ∀ b, base ≤ b → ¬ Marked d b) (hm : m < 140)
    (hroom : blockOf base m < 42 + min 4096 (dataCount d)) (hc : c = if 12 < m then 1 else 0) :
    ∃ s₁ x₁ t₁, assignBlock (superBlock size) s x t m = (s₁, x₁, t₁) ∧
      ∀ buf : Sector,
        (∀ o < 512, 512 * m + o < bytes.length → buf.byte o = charAt bytes (512 * m + o)) →
        Copying d base bytes x₀ (nextBlock (superBlock size)
          (s₁.put (s₁.cur_data_block * 512 % 2 ^ 32) 512 buf.byte)) x₁ t₁ (m + 1)
          (if 12 < m + 1 then 1 else 0) := by
  have hcur := h.cur
  unfold blockOf at hroom
  by_cases h12 : m < 12
  · rw [if_neg (by omega)] at hroom hc
    subst hc
    refine ⟨_, _, _, assignBlock_direct h12, fun buf hbuf => ?_⟩
    rw [if_neg (by omega)]
    refine h.putBlock size hbase hfresh hroom (.inl ⟨rfl, h12⟩) rfl (fun k hk => ?_)
      (fun k hk => ?_) hbuf
    · rw [InodeDef.addrAt_setAddr h12 (by omega), h.addr k hk]
      split_ifs <;> omega
    · rw [h.words k hk, if_neg (by omega), if_neg (by omega)]
  · rw [if_pos (by omega)] at hroom
    rw [if_pos (by omega)]
    have haddr : ∀ k < 12, (if k < m then base + k else 0) = if k < m + 1 then base + k else 0 :=
      fun k hk => by rw [if_pos (by omega), if_pos (by omega)]
    by_cases hfirst : m = 12
    · subst hfirst
      obtain rfl : c = 0 := hc
      have hz : x.indirect_addr = 0 := by
        rw [← UInt32.toNat_inj, h.indirect]
        rfl
      have h' := h.takeIndirect size hbase hfresh (by omega)
      refine ⟨_, _, _, assignBlock_first le_rfl hz, fun buf hbuf => ?_⟩
      exact h'.putBlock size hbase hfresh hroom (.inr ⟨rfl, le_rfl⟩) rfl
        (fun k hk => (h.addr k hk).trans (haddr k hk))
        (h'.words_set hm le_rfl (by rw [h'.cur]; omega)) hbuf
    · rw [if_pos (by omega)] at hc
      subst hc
      have hz : x.indirect_addr ≠ 0 := by
        rw [ne_eq, ← UInt32.toNat_inj, h.indirect]
        simp
      refine ⟨_, _, _, assignBlock_indirect (by omega) hz, fun buf hbuf => ?_⟩
      exact h.putBlock size hbase hfresh hroom (.inr ⟨rfl, by omega⟩) rfl
        (fun k hk => (h.addr k hk).trans (haddr k hk)) (h.words_set hm (by omega) (by omega)) hbuf

/-- The loop over the blocks of a file, from block index `m` on. -/
theorem copyBlocks (h : Copying d base bytes x₀ s x t m c) (size : ℕ) (buf : Sector)
    (hbase : 42 ≤ base)
    (hfresh : ∀ b, base ≤ b → ¬ Marked d b) (hn : blocks bytes.length = m + n) (h140 : m + n ≤ 140)
    (hroom : base + copyNeed 0 (m + n) ≤ 42 + min 4096 (dataCount d))
    (hc : c = if 12 < m then 1 else 0) :
    ∃ s' x' t', copyBlocks (superBlock size) s x t buf (512 * m) (bytes.drop (512 * m)) =
        (s', x', t') ∧ Copying d base bytes x₀ s' x' t' (m + n) (if 12 < m + n then 1 else 0) := by
  induction n generalizing s x t m c buf with
  | zero =>
    have hnil : bytes.drop (512 * m) = [] := by
      rw [blocks] at hn
      exact List.drop_eq_nil_of_le (by omega)
    rw [hnil, copyBlocks_nil]
    exact ⟨s, x, t, rfl, hc ▸ h⟩
  | succ n ih =>
    have hlen : 512 * m < bytes.length := by
      rw [blocks] at hn
      omega
    have hnil : bytes.drop (512 * m) ≠ [] := by
      rw [ne_eq, List.drop_eq_nil_iff]
      omega
    have hbuf : ∀ o < 512, 512 * m + o < bytes.length →
        (buf.patch 0 (min (bytes.drop (512 * m)).length 512) (charAt (bytes.drop (512 * m)))).byte o
          = charAt bytes (512 * m + o) := by
      intro o ho hlt
      rw [List.length_drop, Buffer.byte_patch_of_mem ho (by omega) (by omega), charAt_drop,
        Nat.sub_zero]
    have hnext : blockOf base m < 42 + min 4096 (dataCount d) := by
      simp only [copyNeed, Nat.zero_le, true_and, Nat.zero_add] at hroom
      unfold blockOf
      split at hroom <;> split <;> omega
    have hdrop : (bytes.drop (512 * m)).drop 512 = bytes.drop (512 * (m + 1)) := by
      rw [List.drop_drop]
      congr 1
    have hmn : m + (n + 1) = m + 1 + n := by omega
    rw [hmn] at hn h140 hroom ⊢
    obtain ⟨s₁, x₁, t₁, ha, hnew⟩ := h.round size hbase hfresh (by omega) hnext hc
    rw [copyBlocks_cons hnil ha, hdrop]
    exact ih (hnew _ hbuf) _ hn h140 hroom rfl

section Done

variable {D D' : Disk} {N : ℕ} (h : Copying d base bytes x₀ s x t N (if 12 < N then 1 else 0))
  (h140 : N ≤ 140) (hbase : 42 ≤ base)
  (hD' : ∀ o, o = 0 ∨ 41 ≤ o → D' o = if 12 < N ∧ o = base + 12 then t else s.disk o)

include h in
theorem indirect_eq : x.indirect_addr.toNat = if 12 < N then base + 12 else 0 := by
  rw [h.indirect]
  by_cases h12 : 12 < N <;> simp [h12]

include h h140 hbase hD' in
theorem slot_eq (hk : k < N) : slot D' x k = blockOf base k := by
  unfold blockOf
  by_cases h12 : k < 12
  · rw [slot_of_lt h12, h.addr k h12, if_pos hk, if_neg (by omega), Nat.add_zero]
  · rw [slot_of_ge (by omega), h.indirect_eq, if_pos (show 12 < N by omega), hD' _ (by omega),
      if_pos ⟨by omega, rfl⟩, h.words _ (by omega), if_pos (by omega), if_pos (by omega)]
    omega

include h h140 hbase hD' in
theorem owns (hb : Owns D' x N b) : base ≤ b ∧ b < base + copyNeed 0 N := by
  have hneed : copyNeed 0 N = N + if 12 < N then 1 else 0 := by simp [copyNeed]
  rw [hneed]
  rcases hb with ⟨k, hk, rfl⟩ | ⟨hi, rfl⟩
  · rw [h.slot_eq h140 hbase hD' hk, blockOf]
    split_ifs <;> omega
  · rw [h.indirect_eq] at hi ⊢
    split at hi
    · rw [if_pos ‹_›, if_pos ‹_›]
      omega
    · exact absurd rfl hi

include h h140 hbase hD' in
theorem mapped (hf : Formatted D') (hroom : base + copyNeed 0 N ≤ 42 + min 4096 (dataCount D')) :
    Mapped D' x N := by
  have hslot : ∀ k < N, slot D' x k = blockOf base k := fun k hk => h.slot_eq h140 hbase hD' hk
  have hsize := hf.dataCount_add
  have hneed : copyNeed 0 N = N + if 12 < N then 1 else 0 := by simp [copyNeed]
  have hcur := h.cur
  have harea : ∀ b, Owns D' x N b → InArea D' b := by
    intro b hb
    have hlt := h.owns h140 hbase hD' hb
    refine ⟨by omega, (marked_congr ?_).mpr ((h.marked b).mpr (.inr ⟨hlt.1, by omega⟩))⟩
    rw [hD' 41 (by omega), if_neg (by omega)]
  refine ⟨h140, fun k hk => harea _ (.inl ⟨k, hk, rfl⟩), fun h12 => ?_,
    fun hz => harea _ (.inr ⟨hz, rfl⟩), fun j hj k hk he => ?_, fun hz k hk => ?_⟩
  · rw [h.indirect_eq, if_pos h12]
    omega
  · rw [hslot j hj, hslot k hk] at he
    unfold blockOf at he
    split_ifs at he <;> omega
  · rw [hslot k hk, h.indirect_eq, blockOf]
    split_ifs <;> omega

include h hbase hD' in
theorem vacant : Vacant D' x N := by
  constructor
  · intro k hk h12
    rw [h.addr k h12, if_neg (by omega)]
  · intro hz k hk h12 h140
    rw [h.indirect_eq] at hz
    split at hz
    · rw [slot_of_ge h12, h.indirect_eq, if_pos ‹_›, hD' _ (by omega), if_pos ⟨‹_›, rfl⟩,
        h.words _ (by omega), if_neg (by omega)]
    · exact absurd rfl hz

include h h140 hbase hD' in
/-- Copying a file, with the record and the indirect block written, fills it. -/
theorem filled (hN : blocks bytes.length = N) (hsize : x.size.toNat = bytes.length)
    (hD : ∀ o, o = 0 ∨ 41 ≤ o → D o = d o) (hf : Formatted D)
    (hfresh : ∀ b, base ≤ b → ¬ Marked d b)
    (hroom : base + copyNeed 0 N ≤ 42 + min 4096 (dataCount D)) (hrec : inodeAt D' j = x)
    (hothers : ∀ k < 320, k ≠ j → inodeAt D' k = inodeAt D k) : Filled D j x bytes D' := by
  have hblocks : fileBlocks x = N := by rw [fileBlocks, hsize, hN]
  have hsuper : D' 0 = D 0 := by
    rw [hD' 0 (.inl rfl), if_neg (by omega), hD 0 (.inl rfl)]
    exact h.frame 0 (by omega) (.inl (by omega))
  have hmark : ∀ b, Marked D b ↔ Marked d b := fun b => marked_congr (hD 41 (by omega))
  have hmark' : ∀ b, Marked D' b ↔ Marked s.disk b := fun b => marked_congr (by
    rw [hD' 41 (by omega), if_neg (by omega)])
  have hcur := h.cur
  refine ⟨hsuper, hrec, hothers, fun b hb => ?_, fun b hb => ?_, ?_, ?_, fun b hb => ?_, ?_⟩
  · rw [hmark', h.marked]
    exact .inl ((hmark b).mp hb)
  · have h42 : 42 ≤ b := hb.1
    have hlt : b < base := by
      by_contra hge
      exact hfresh b (by omega) ((hmark b).mp hb)
    rw [hD' b (by omega), if_neg (by omega), hD b (by omega)]
    exact h.frame b (by omega) (.inl hlt)
  · rw [hblocks]
    refine h.mapped h140 hbase hD' (hf.congr hsuper) ?_
    rwa [dataCount_congr hsuper]
  · rw [hblocks]
    exact h.vacant hbase hD'
  · rw [hblocks] at hb
    have hlt := h.owns h140 hbase hD' hb
    have hnot := hfresh b hlt.1
    refine ⟨by omega, by omega, ?_⟩
    rw [← hmark] at hnot
    by_contra hbit
    exact hnot ⟨by omega, by simpa using hbit⟩
  · apply ext_charAt
    · rw [length_contents, hsize]
    · intro p hp
      rw [length_contents, hsize] at hp
      have hlt : p / 512 < N := by
        rw [← hN, blocks]
        omega
      have hblock : 42 ≤ blockOf base (p / 512) ∧ blockOf base (p / 512) ≠ base + 12 := by
        rw [blockOf]
        split <;> omega
      rw [charAt_contents (by omega), fileByte, h.slot_eq h140 hbase hD' hlt, hD' _ (by omega),
        if_neg (by omega)]
      exact h.data p hp (by omega)

end Done

end Copying

end Mkfs

end OrangeOs.Fs
