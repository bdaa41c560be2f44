import OrangeOs.Filesystem.MkfsCopy

/-! # The contents of an image

What the kernel finds on an image: a tree whose root directory names the files, with their contents.
The image is compared with the disk that it would be with the root inode written, so that every file
is one creation of an empty file, as `CreateImpl` makes it, and one filling of that file.
-/

namespace OrangeOs.Fs

open Prog

theorem HostFile.zero_notMem_fileName (f : HostFile) : 0 ∉ f.fileName := fun h0 =>
  f.path.2 (List.mem_reverse.mp ((List.takeWhile_sublist _).subset (List.mem_reverse.mp h0)))

theorem HostFile.slash_notMem_fileName (f : HostFile) : slash ∉ f.fileName := fun hs => by
  have := List.mem_takeWhile_imp (List.mem_reverse.mp hs)
  simp at this

namespace Mkfs

variable {size : ℕ} {s s' : Mkfs} {d d' : Disk} {x : InodeDef} {j k b : ℕ} {t : Sector}
  {name bytes : List UInt8}

/-- The disk if the root inode is written now. -/
def final (s : Mkfs) : Disk := setInode s.disk 0 s.root_inode

theorem final_outside {o : ℕ} (h : o = 0 ∨ 41 ≤ o) : s.final o = s.disk o :=
  setInode_outside (by omega) h

theorem inodeAt_final_zero : inodeAt s.final 0 = s.root_inode := inodeAt_setInode_self _ _ _

theorem inodeAt_final_of_ne (h : k ≠ 0) : inodeAt s.final k = inodeAt s.disk k :=
  inodeAt_setInode_of_ne h

theorem disk_putInode (i : ℕ) (x : InodeDef) :
    (putInode (superBlock size) s i x).disk = setInode s.disk i x := by
  have hpos : i * INODE_ELEMENT_SIZE + (superBlock size).inode_start.toNat * BLOCK_SIZE =
      512 * (i / 8 + 1) + i % 8 * 64 := by
    rw [inode_start_superBlock, INODE_ELEMENT_SIZE, BLOCK_SIZE]
    omega
  unfold putInode
  rw [hpos]
  exact disk_put _ _ _ _ _ (by simp only [INODE_ELEMENT_SIZE]; omega)

theorem mark_congr (h₄₁ : d 41 = d' 41) {o : ℕ} (ho : d o = d' o) : mark d b o = mark d' b o := by
  by_cases h : o = 41
  · subst h
    simp only [mark, Function.update_self, h₄₁]
  · rw [mark_of_ne h, mark_of_ne h, ho]

theorem disk_putIndirect (hlt : x.indirect_addr.toNat < 2 ^ 23) (o : ℕ) :
    (s.putIndirect x t).disk o =
      if indirectWord t 0 ≠ 0 ∧ o = x.indirect_addr.toNat then t else s.disk o := by
  unfold putIndirect
  by_cases hz : indirectWord t 0 ≠ 0
  · have hpos : x.indirect_addr.toNat * BLOCK_SIZE % 2 ^ 32 = 512 * x.indirect_addr.toNat + 0 := by
      rw [BLOCK_SIZE]
      omega
    have hpatch : (s.disk x.indirect_addr.toNat).patch 0 512 t.byte = t := by
      apply Buffer.ext_byte
      intro p hp
      rw [Buffer.byte_patch_of_mem hp (by omega) (by omega), Nat.sub_zero]
    rw [if_pos hz, hpos, BLOCK_SIZE, disk_put _ _ _ _ _ (by omega), hpatch]
    by_cases ho : o = x.indirect_addr.toNat
    · rw [if_pos ⟨hz, ho⟩, ho, Function.update_self]
    · rw [if_neg fun h => ho h.2, Function.update_of_ne ho]
  · rw [if_neg hz, if_neg fun h => hz h.1]

/-! ## The entry of a file -/

/-- The files that are on the image so far. -/
structure Laid (size : ℕ) (s : Mkfs) (done : List HostFile) : Prop where
  counted : Counted s done.length (blocksNeeded done)
  synced : Synced s
  super : superOf s.disk = superBlock size
  marked : ∀ b, Marked s.disk b ↔ 42 ≤ b ∧ b < s.cur_data_block
  tree : FsTree s.final
  connected : Connected s.final
  names : (dirEntries s.final s.root_inode).map Prod.fst = done.map HostFile.fileName
  files : ∀ j (hj : j < done.length), (inodeAt s.final (j + 1)).type = .regular_file ∧
    contents s.final (inodeAt s.final (j + 1)) = done[j].contents.getD [] ∧
    resolve s.final [done[j].fileName] 0 = some (j + 1)
  unused : ∀ i, done.length < i → ¬ InUse s.final i

namespace Laid

variable {done : List HostFile}

theorem free (h : Laid size s done) (hlt : s.cur_data_block < 42 + min 4096 (size - 42))
    (h42 : 42 < size) (hsize : size < 2 ^ 31) : Free s.final s.cur_data_block := by
  have hcur := h.counted.block
  have hcount : dataCount s.final = size - 42 := by
    rw [dataCount_congr (final_outside (.inl rfl)), dataCount, h.super,
      datablocks_count_superBlock h42.le hsize]
  have hnot : ¬ Marked s.final s.cur_data_block := by
    rw [marked_congr (final_outside (by omega)), h.marked]
    omega
  refine ⟨by omega, by omega, ?_⟩
  by_contra hbit
  exact hnot ⟨by omega, by simpa using hbit⟩

theorem fileBlocks_root (h : Laid size s done) :
    fileBlocks s.root_inode = (done.length + 31) / 32 := by
  rw [fileBlocks, h.counted.size, blocks]
  omega

/-- The block that gets the entry of the next file. -/
theorem rootBlock (h : Laid size s done) (hj : done.length < 320)
    (hroom : s.cur_data_block + rootNeed done.length ≤ 42 + min 4096 (size - 42)) (h42 : 42 < size)
    (hsize : size < 2 ^ 31) : ∃ b e, Located s.final s.root_inode (fileBlocks s.root_inode) (done.length / 32) e
        (rootBlock (superBlock size) s (done.length / 32)).root_inode b ∧
      Synced (rootBlock (superBlock size) s (done.length / 32)) ∧
      (∀ o, o = 0 ∨ 41 ≤ o → (rootBlock (superBlock size) s (done.length / 32)).disk o = e o) ∧
      (∀ o < 41, (rootBlock (superBlock size) s (done.length / 32)).disk o = s.disk o) ∧
      ∀ c, Marked e c ↔ 42 ≤ c ∧
        c < (rootBlock (superBlock size) s (done.length / 32)).cur_data_block := by
  have hm : Mapped s.final s.root_inode (fileBlocks s.root_inode) := by
    have := h.tree.tree.mapped 0 h.tree.tree.root
    rwa [inodeAt_final_zero] at this
  have hv : Vacant s.final s.root_inode (fileBlocks s.root_inode) := by
    have := h.tree.wf.vacant 0 h.tree.tree.root.inUse
    rwa [inodeAt_final_zero] at this
  have hn := h.fileBlocks_root
  have hz := h.counted.addr (done.length / 32) (by omega)
  have hcur := h.counted.block
  have hmark : ∀ c, Marked s.final c ↔ 42 ≤ c ∧ c < s.cur_data_block := fun c => by
    rw [marked_congr (final_outside (by omega)), h.marked]
  by_cases hnew : done.length % 32 = 0
  · rw [rootNeed, if_pos hnew] at hroom
    have hlt : s.cur_data_block < 42 + min 4096 (size - 42) := by omega
    have hk : done.length / 32 = fileBlocks s.root_inode := by omega
    have hloc := located_of_vacant h.tree.wf.formatted hm hv (by omega) (.inl (by omega))
      (h.free hlt h42 hsize)
    rw [assignDisk, if_pos (by omega), assignInode, if_pos (by omega)] at hloc
    have hsync : Synced { (s.access (.rootAddr (done.length / 32))).access
        (.block s.cur_data_block) with
          root_inode := s.root_inode.setAddr (done.length / 32) s.cur_data_block } := h.synced
    obtain ⟨hdisk, hsync'⟩ := hsync.nextBlock size (by simp only [access_cur_data_block]; omega)
    rw [rootBlock_of_zero (hz.mpr (by omega))]
    refine ⟨s.cur_data_block, mark s.final s.cur_data_block, ?_, hsync', fun o ho => ?_,
      fun o ho => ?_, fun c => ?_⟩
    · rw [nextBlock_root_inode, hk]
      exact hloc
    · rw [hdisk]
      change mark s.disk s.cur_data_block o = _
      exact mark_congr (final_outside (by omega)).symm (final_outside ho).symm
    · rw [hdisk, mark_of_ne (by omega)]
      rfl
    · rw [marked_mark_iff (h.free hlt h42 hsize), hmark, nextBlock_cur_data_block]
      simp only [access_cur_data_block]
      omega
  · have hk : done.length / 32 < fileBlocks s.root_inode := by omega
    rw [rootBlock_of_ne fun he => by have := hz.mp he; omega]
    exact ⟨_, _, located_of_mapped hm hk, h.synced, fun o ho => (final_outside ho).symm,
      fun o _ => rfl, hmark⟩

/-- Adding the entry of the next file appends to the root directory. -/
theorem wrote (h : Laid size s done) (hj : done.length < 320) (name : List UInt8)
    (hroom : s.cur_data_block + rootNeed done.length ≤ 42 + min 4096 (size - 42)) (h42 : 42 < size)
    (hsize : size < 2 ^ 31) :
    ∃ n', Wrote s.final s.root_inode (fileBlocks s.root_inode) s.root_inode.size.toNat
        (dirElement (done.length + 1) name) (addDirElement (superBlock size) s name).final
        (addDirElement (superBlock size) s name).root_inode n' ∧
      Synced (addDirElement (superBlock size) s name) ∧
      (∀ o < 41, (addDirElement (superBlock size) s name).disk o = s.disk o) ∧
      ∀ c, Marked (addDirElement (superBlock size) s name).disk c ↔ 42 ≤ c ∧
        c < (addDirElement (superBlock size) s name).cur_data_block := by
  obtain ⟨b, e, hloc, hsync, hhigh, hlow, hmark⟩ := h.rootBlock hj hroom h42 hsize
  have hcount := h.counted
  have hcur := hcount.block
  have hroot : inodeAt s.final 0 = s.root_inode := inodeAt_final_zero
  have hidx : s.root_inode.inode_index.toNat = 0 := by
    have := h.tree.wf.index 0 h.tree.tree.root.inUse
    rwa [hroot] at this
  have hk : done.length / 32 < 12 := by omega
  obtain ⟨ht, hrsize, -⟩ := hcount.rootBlock size (by omega) (by omega)
  have hnum : (Mkfs.rootBlock (superBlock size) s (done.length / 32)).cur_inode_index =
      done.length + 1 := by
    rw [ht.inode, access_cur_inode_index, hcount.inode]
  rw [addDirElement_eq _ hcount.size]
  set r := Mkfs.rootBlock (superBlock size) s (done.length / 32) with hr
  have haddr : r.root_inode.addrAt (done.length / 32) = b := by
    rw [← hloc.target, slot_of_lt hk]
  have hb : 42 ≤ b ∧ b < 42 + 4096 := by
    rcases hloc.owns_or_fresh with ho | hfree
    · have hm : Marked s.final b := by
        have := h.tree.tree.mapped 0 h.tree.tree.root
        rw [hroot] at this
        exact (this.owns_area ho).2
      rw [marked_congr (final_outside (by omega)), h.marked] at hm
      omega
    · have := hfree.1
      have := hfree.2.1
      omega
  have hsz : r.root_inode.size.toNat = 16 * done.length := by rw [hrsize, hcount.size]
  have hpos : (r.root_inode.addrAt (done.length / 32) * 512 + r.root_inode.size.toNat % 512)
      % 2 ^ 32 = 512 * b + 16 * done.length % 512 := by
    rw [haddr, hsz]
    omega
  rw [hpos, hnum]
  set a := { r.put (512 * b + 16 * done.length % 512) 16
    (charAt (dirElement (done.length + 1) name)) with
      root_inode := { r.root_inode with size := r.root_inode.size + 16 } } with ha
  have hdisk : a.disk = Function.update r.disk b ((r.disk b).patch (16 * done.length % 512) 16
      (charAt (dirElement (done.length + 1) name))) := disk_put r _ _ _ _ (by omega)
  have hold : ∀ o < 41, a.disk o = s.disk o := fun o ho => by
    rw [hdisk, Function.update_of_ne (by omega), hlow o ho]
  have hl := length_dirElement (done.length + 1) name
  have hasize : a.root_inode.size.toNat = 16 * done.length + 16 := by
    have h16 : (16 : UInt32).toNat = 16 := rfl
    rw [ha]
    simp only [UInt32.toNat_add, hsz, h16]
    omega
  have hm : Mapped s.final s.root_inode (fileBlocks s.root_inode) := by
    have := h.tree.tree.mapped 0 h.tree.tree.root
    rwa [hroot] at this
  refine ⟨_, hloc.wrote hm ?_ ?_ ?_ ?_ (fun o ho hne => ?_) ?_ rfl ?_ (fun hle => ?_)
    (fun k hk hne => ?_) ?_, ?_, hold, fun c => ?_⟩
  · rw [hcount.size]
    omega
  · omega
  · rw [hcount.size]
    omega
  · rw [final_outside (by omega), hdisk, Function.update_self, hhigh b (by omega), hcount.size, hl]
  · rw [final_outside (by omega), hdisk, Function.update_of_ne hne, hhigh o (by omega)]
  · rw [final_outside (by omega), hdisk, Function.update_of_ne (by omega), hhigh 0 (by omega)]
  · rw [hasize, hcount.size, hl]
    omega
  · rw [hl] at hle
    omega
  · rw [hidx] at hne
    rw [inodeAt_final_of_ne hne, inodeAt_final_of_ne hne, inodeAt_congr (hold _ (by omega))]
  · rw [hidx, if_pos (by omega), inodeAt_final_zero]
  · rw [Synced, hdisk, Function.update_of_ne (by omega)]
    exact hsync
  · rw [marked_congr (d := e) (by rw [hdisk, Function.update_of_ne (by omega), hhigh 41 (by omega)])]
    exact hmark c

/-- Adding the entry of the next file, with an empty inode, creates the file. -/
theorem creation (h : Laid size s done) (hj : done.length + 1 < 320) (h0 : 0 ∉ name)
    (hlen : name.length ≤ 13) (hnew : name ∉ done.map HostFile.fileName)
    (hroom : s.cur_data_block + rootNeed done.length ≤ 42 + min 4096 (size - 42)) (h42 : 42 < size)
    (hsize : size < 2 ^ 31) :
    Creation s.final 0 (done.length + 1) name (newInode (done.length + 1) .regular_file 0 0)
      (setInode (addDirElement (superBlock size) s name).final (done.length + 1)
        (newInode (done.length + 1) .regular_file 0 0)) := by
  obtain ⟨n', hw, -⟩ := h.wrote (by omega) name hroom h42 hsize
  have hroot : inodeAt s.final 0 = s.root_inode := inodeAt_final_zero
  have hdir := h.tree.tree.root
  rw [← hroot] at hw
  have hlookup : (dirEntries s.final (inodeAt s.final 0)).lookup name = none := by
    rw [List.lookup_eq_none_iff]
    intro p hp
    rw [bne_iff_ne]
    rintro rfl
    refine hnew ?_
    rw [← h.names]
    exact List.mem_map_of_mem (hroot ▸ hp)
  exact
    { toCreated := hw.created (h.tree.wf.index 0 hdir.inUse) (h.tree.tree.dir 0 hdir)
        (h.tree.wf.vacant 0 hdir.inUse) hj (by omega) h0 hlen _
      tree := h.tree.tree
      isDir := hdir
      lt := hj
      unused := h.unused _ (by omega)
      empty := empty_newInode hj
      fresh := hlookup
      apart := fun k hk hne b hb =>
        h.tree.wf.disjoint k 0 hk.inUse hdir.inUse hne b hb }

/-- Before the first block of a file. -/
theorem copying (hs : Synced s) (x₀ : InodeDef)
    (haddr : ∀ k, x₀.addrAt k = 0) (hind : x₀.indirect_addr.toNat = 0) :
    Copying s.disk s.cur_data_block bytes x₀ s x₀ (.ofFn fun _ => 0) 0 0 := by
  refine ⟨.inl ⟨rfl, by omega⟩, hs, rfl, rfl, fun k _ => ?_, by rw [hind]; rfl, fun k _ => ?_,
    fun b => ?_, fun b _ _ => rfl, fun p _ hp => by omega⟩
  · rw [haddr, if_neg (by omega)]
  · rw [indirectWord_zero, if_neg (by omega)]
  · constructor
    · exact .inl
    · rintro (hb | hb)
      · exact hb
      · omega

theorem dataCount_eq (h : Laid size s done) (h42 : 42 < size) (hsize : size < 2 ^ 31) :
    dataCount s.disk = size - 42 := by
  rw [dataCount, h.super, datablocks_count_superBlock h42.le hsize]

/-- The rest of the work for a file fills the empty file that its entry names. -/
theorem filled (h : Laid size s done) (hj : done.length + 1 < 320) (name : List UInt8)
    (hlen : bytes.length ≤ 512 * 140) (h42 : 42 < size) (hsize : size < 2 ^ 31)
    (hroom : s.cur_data_block + (rootNeed done.length + dataNeed bytes.length) ≤
      42 + min 4096 (size - 42)) :
    ∃ x, Filled (setInode (addDirElement (superBlock size) s name).final (done.length + 1)
          (newInode (done.length + 1) .regular_file 0 0)) (done.length + 1) x bytes
        (addFile (superBlock size) s name bytes).final ∧
      x.type = .regular_file ∧ x.inode_index.toNat = done.length + 1 ∧
      Synced (addFile (superBlock size) s name bytes) ∧
      (addFile (superBlock size) s name bytes).disk 0 = s.disk 0 ∧
      ∀ c, Marked (addFile (superBlock size) s name bytes).disk c ↔
        42 ≤ c ∧ c < (addFile (superBlock size) s name bytes).cur_data_block := by
  obtain ⟨n', hw, hsync₁, hlow₁, hmark₁⟩ := h.wrote (by omega) name (by omega) h42 hsize
  have hcount := h.counted
  have hcur := hcount.block
  obtain ⟨ht₁, -, -⟩ := hcount.addDirElement size name (by omega) (by omega)
  set s₁ := addDirElement (superBlock size) s name with hs₁
  have hcur₁ : s₁.cur_data_block = s.cur_data_block + rootNeed done.length := ht₁.block
  have hdata₁ : dataCount s₁.disk = size - 42 := by
    rw [dataCount_congr (hlow₁ 0 (by omega)), h.dataCount_eq h42 hsize]
  have h140 : blocks bytes.length ≤ 140 := by rw [blocks]; omega
  have hneed := copyNeed_start bytes.length
  have hcopy : Copying s₁.disk s₁.cur_data_block bytes (newFile s.cur_inode_index bytes.length) s₁
      (newFile s.cur_inode_index bytes.length) (.ofFn fun _ => 0) 0 0 :=
    copying hsync₁ _ (by simp [newFile, InodeDef.addrAt]) rfl
  obtain ⟨s', x, t, hr, hC⟩ := hcopy.copyBlocks size (.ofFn fun _ => 0) (by omega)
    (fun b hb hm => by have := (hmark₁ b).mp hm; omega) (Nat.zero_add _).symm (by omega)
    (by rw [Nat.zero_add, hneed, hdata₁]; omega) rfl
  rw [Nat.zero_add] at hC
  rw [show bytes.drop (512 * 0) = bytes from rfl] at hr
  obtain ⟨ht', hroot'⟩ := took_of_copyBlocks hr rfl (by omega) (by omega)
  have hindex : s'.cur_inode_index = done.length + 1 := by
    rw [ht'.inode, ht₁.inode, access_cur_inode_index, hcount.inode]
  have hcur' : s'.cur_data_block = s₁.cur_data_block + dataNeed bytes.length := ht'.block
  rw [addFile_eq hr, hindex]
  set e : Mkfs := (putInode (superBlock size) s' (done.length + 1) x).putIndirect x t with he
  set e' : Mkfs := { e with cur_inode_index := done.length + 1 + 1 } with he'
  have hind : x.indirect_addr.toNat = if 12 < blocks bytes.length then s₁.cur_data_block + 12 else 0 :=
    hC.indirect_eq
  have hword : indirectWord t 0 ≠ 0 ↔ 12 < blocks bytes.length := by
    rw [hC.words 0 (by omega)]
    split <;> omega
  have hedisk : ∀ o, e'.disk o = if 12 < blocks bytes.length ∧ o = s₁.cur_data_block + 12 then t
      else setInode s'.disk (done.length + 1) x o := by
    intro o
    change e.disk o = _
    rw [he, disk_putIndirect (by rw [hind]; split <;> omega), disk_putInode]
    by_cases h12 : 12 < blocks bytes.length
    · rw [if_pos h12] at hind
      simp only [hword.mpr h12, ne_eq, not_false_eq_true, h12, hind]
    · rw [if_neg fun hc => h12 (hword.mp hc.1), if_neg fun hc => h12 hc.1]
  have hD' : ∀ o, o = 0 ∨ 41 ≤ o → e'.final o =
      if 12 < blocks bytes.length ∧ o = s₁.cur_data_block + 12 then t else s'.disk o := by
    intro o ho
    rw [final_outside ho, hedisk, setInode_outside hj ho]
  have hlow : ∀ o < 42, e'.disk o = setInode s'.disk (done.length + 1) x o := fun o ho => by
    rw [hedisk, if_neg (by omega)]
  have hsame : ∀ o < 41, s'.disk o = s.disk o := fun o ho => by
    rw [hC.frame o (by omega) (.inl (by omega)), hlow₁ o ho]
  set D := setInode s₁.final (done.length + 1) (newInode (done.length + 1) .regular_file 0 0) with hDdef
  have hD : ∀ o, o = 0 ∨ 41 ≤ o → D o = s₁.disk o := fun o ho => by
    rw [hDdef, setInode_outside hj ho, final_outside ho]
  have hD0 : D 0 = s.final 0 := by
    rw [hD 0 (.inl rfl), hlow₁ 0 (by omega), final_outside (.inl rfl)]
  have hroot : e'.root_inode = s₁.root_inode := by
    rw [he', he]
    simp only [putIndirect_root_inode, putInode_root_inode, hroot']
  refine ⟨x, hC.filled (D := D) h140 (by omega) hD' rfl ?_ hD (h.tree.wf.formatted.congr hD0)
    (fun b hb hm => by have := (hmark₁ b).mp hm; omega) ?_ ?_ (fun k hk hne => ?_), ?_, ?_, ?_, ?_,
    fun c => ?_⟩
  · rw [hC.inode]
    exact Nat.mod_eq_of_lt (by omega)
  · rw [hneed, dataCount_congr (hD 0 (.inl rfl)), hdata₁]
    omega
  · rw [inodeAt_final_of_ne (by omega), inodeAt_congr (hlow _ (by omega)), inodeAt_setInode_self]
  · rw [hDdef, inodeAt_setInode_of_ne hne]
    by_cases hk0 : k = 0
    · rw [hk0, inodeAt_final_zero, inodeAt_final_zero, hroot]
    · rw [inodeAt_final_of_ne hk0, inodeAt_final_of_ne hk0, inodeAt_congr (hlow _ (by omega)),
        inodeAt_setInode_of_ne hne, inodeAt_congr (hC.frame _ (by omega) (.inl (by omega)))]
  · rw [hC.inode]
    rfl
  · rw [hC.inode, ← hcount.inode]
    exact Nat.mod_eq_of_lt (by rw [hcount.inode]; omega)
  · have hbit : e'.bit_map = s'.bit_map := by
      rw [he', he]
      simp only [putIndirect_bit_map]
      rfl
    rw [Synced, hlow 41 (by omega), setInode_outside hj (by omega), hbit]
    exact hC.synced
  · rw [hlow 0 (by omega), setInode_outside hj (.inl rfl), hsame 0 (by omega)]
  · have hecur : e'.cur_data_block = s'.cur_data_block := by
      rw [he', he]
      simp only [putIndirect_cur_data_block, putInode_cur_data_block]
    rw [marked_congr (d := s'.disk) (by rw [hlow 41 (by omega), setInode_outside hj (by omega)]),
      hC.marked, hmark₁, hecur]
    omega

theorem contents_creation {d d' : Disk} {j k : ℕ} {y : InodeDef} (hw : WellFormed d)
    (hc : Creation d 0 j name y d') (hk : InUse d k) (hne : k ≠ 0) :
    contents d' (inodeAt d' k) = contents d (inodeAt d k) := by
  rw [hc.inodeAt_of_inUse hk hne]
  refine contents_congr (hw.mapped k hk) fun b hb => ?_
  have harea := (hw.mapped k hk).owns_area hb
  exact hc.frame b harea.le harea.2 (hw.disjoint k 0 hk hc.isDir.inUse hne b hb)

/-- One more file. -/
theorem addFile (h : Laid size s done) {f : HostFile} (hj : done.length + 1 < 320)
    (hc : f.contents = some bytes) (hlen : bytes.length ≤ 512 * 140) (hname : f.fileName.length ≤ 13)
    (hnew : f.fileName ∉ done.map HostFile.fileName) (h42 : 42 < size) (hsize : size < 2 ^ 31)
    (hroom : blocksNeeded (done ++ [f]) ≤ min 4096 (size - 42)) :
    Laid size (addFile (superBlock size) s f.fileName bytes) (done ++ [f]) := by
  have hcount := h.counted
  have hcur := hcount.block
  have hneed : f.need = dataNeed bytes.length := by rw [HostFile.need, hc, Option.getD_some]
  have hsum := blocksNeeded_concat done f
  have hl : (done ++ [f]).length = done.length + 1 := by simp
  have hcr := h.creation hj f.zero_notMem_fileName hname hnew (by omega) h42 hsize
  have htree₁ := h.tree.created hcr (by simp [newInode])
  obtain ⟨x, hfill, hxt, hxi, hsync, hsuper, hmark⟩ :=
    h.filled hj f.fileName hlen h42 hsize (by omega)
  obtain ⟨hcount', -⟩ := hcount.addFile size f.fileName (by omega) (by omega) hlen
  rw [← hneed, ← hsum] at hcount'
  set e := Mkfs.addFile (superBlock size) s f.fileName bytes
  set D := setInode (addDirElement (superBlock size) s f.fileName).final (done.length + 1)
    (newInode (done.length + 1) .regular_file 0 0) with hD
  have hnot : ¬ IsDir D (done.length + 1) := fun hd => by
    have := hd.2
    rw [hcr.record] at this
    simp [newInode] at this
  have hsame := hfill.sameDirs htree₁ hnot (by rw [hxt, hcr.record]; rfl)
  have hroot₁ : InUse D 0 := htree₁.tree.root.inUse
  have hinUse : InUse D (done.length + 1) := ⟨hj, by rw [hcr.record]; simp [newInode]⟩
  have huse : ∀ k, InUse e.final k → InUse D k := by
    intro k hk
    by_cases hkj : k = done.length + 1
    · exact hkj ▸ hinUse
    · exact ⟨hk.1, by rw [← hfill.others k hk.1 hkj]; exact hk.2⟩
  refine ⟨by rwa [hl], hsync, ?_, hmark, ⟨hfill.wellFormed htree₁.wf hxi, hsame.tree htree₁.tree⟩,
    fun k hk => ?_, ?_, fun k hk => ?_, fun i hi hu => ?_⟩
  · rw [← h.super, superOf, superOf, hsuper]
  · obtain ⟨q, hq⟩ := hcr.connected h.connected k (huse k hk)
    exact ⟨q, by rw [hsame.resolve_eq htree₁.tree hroot₁, hq]⟩
  · rw [← inodeAt_final_zero, hsame.entries htree₁.tree htree₁.tree.root, hcr.entries,
      inodeAt_final_zero, List.map_append, h.names, List.map_append]
    rfl
  · rw [hsame.resolve_eq htree₁.tree hroot₁]
    by_cases hkj : k < done.length
    · obtain ⟨htype, hcont, hres⟩ := h.files k hkj
      have hk' : InUse s.final (k + 1) := ⟨by omega, by rw [htype]; simp⟩
      have hkD : InUse D (k + 1) := hcr.inUse_iff.mpr (.inl hk')
      rw [List.getElem_append_left hkj]
      refine ⟨?_, ?_, hcr.resolve_mono h.tree.tree.root.inUse hres⟩
      · rw [hfill.others _ (by omega) (by omega), hcr.inodeAt_of_inUse hk' (by omega), htype]
      · rw [hfill.contents_kept htree₁.wf hkD (by omega),
          contents_creation h.tree.wf hcr hk' (by omega), hcont]
    · obtain rfl : k = done.length := by omega
      rw [List.getElem_append_right le_rfl]
      simp only [Nat.sub_self, List.getElem_singleton]
      refine ⟨by rw [hfill.record, hxt], by rw [hfill.record, hfill.contents, hc]; rfl, ?_⟩
      exact hcr.resolve_append_name (q := []) h.tree.tree.root.inUse rfl
  · rcases hcr.inUse_iff.mp (huse i hu) with hu | ⟨hu, -⟩
    · exact h.unused i (by omega) hu
    · omega

end Laid

/-! ## All files -/

theorem foldl_put_zero (is : List ℕ) (pos : ℕ → ℕ) :
    is.foldl (fun (fs_img : Image) i => fs_img.put (pos i) 512 fun _ => 0) (fun _ => 0) =
      fun _ => 0 := by
  induction is with
  | nil => rfl
  | cons i is ih =>
    have hput : Image.put (fun _ => 0) (pos i) 512 (fun _ => 0) = fun _ => 0 := by
      funext p
      simp [Image.put]
    rw [List.foldl_cons, hput, ih]

theorem fs_img_start (super_block : SuperBlock) :
    (start super_block).fs_img = Image.put (fun _ => 0) 0 24 super_block.byte := by
  have := foldl_put_zero (List.range super_block.size.toNat) fun i => i * 512 % 2 ^ 32
  exact congrArg (fun fs_img : Image => fs_img.put 0 24 super_block.byte) this

theorem superOf_start (super_block : SuperBlock) : superOf (start super_block).disk = super_block :=
  SuperBlock.ofBytes_byte fun o ho => by
    rw [Mkfs.disk, Image.byte_disk _ _ (by omega), fs_img_start, Image.put, if_pos (by omega)]
    simp

theorem byte_start (super_block : SuperBlock) (hb : b ≠ 0) (o : ℕ) :
    ((start super_block).disk b).byte o = 0 := by
  by_cases ho : o < 512
  · rw [Mkfs.disk, Image.byte_disk _ _ ho, fs_img_start, Image.put, if_neg (by omega)]
  · exact dif_neg ho

theorem formatted_start (h42 : 42 ≤ size) (hsize : size < 2 ^ 31) :
    Formatted (start (superBlock size)).disk := by
  have hs := superOf_start (superBlock size)
  refine ⟨by rw [hs, inode_start_superBlock], by rw [hs]; rfl, by rw [hs, bmap_start_superBlock], ?_⟩
  rw [dataCount, fsSize, hs, datablocks_count_superBlock h42 hsize, toNat_size_superBlock hsize]
  omega

theorem laid_start (h42 : 42 ≤ size) (hsize : size < 2 ^ 31) :
    Laid size (start (superBlock size)) [] := by
  have htype : ∀ i, (inodeAt (start (superBlock size)).disk i).type = .none := fun i => by
    simp [inodeAt, InodeDef.load, InodeDef.ofBytes, byte_start, FileType.ofByte]
  have hnone : ∀ i, ¬ InUse (start (superBlock size)).disk i := fun i hi => hi.2 (htype i)
  have hw : WellFormed (start (superBlock size)).disk :=
    ⟨formatted_start h42 hsize, fun i hi => absurd hi (hnone i), fun i hi => absurd hi (hnone i),
      fun i hi => absurd hi (hnone i), fun i _ hi => absurd hi (hnone i)⟩
  have hempty : Empty (start (superBlock size)).root_inode 0 :=
    ⟨rfl, rfl, by simp [start, InodeDef.addrAt], rfl⟩
  have honly : ∀ j, InUse (start (superBlock size)).final j → j = 0 := fun j hj => by
    by_contra hne
    have := hj.2
    rw [inodeAt_final_of_ne hne] at this
    exact this (htype j)
  obtain ⟨htree, hcon⟩ := fsTree_of_root (hw.setInode_empty (by omega) hempty)
    ⟨by omega, by rw [inodeAt_setInode_self]; rfl⟩ (by rw [inodeAt_setInode_self]; rfl) honly
  refine ⟨counted_start size, ?_, superOf_start _, fun b => ?_, htree, hcon,
    by rw [dirEntries, hempty.size]; rfl, fun j hj => by simp at hj, fun i hi hu => ?_⟩
  · apply Buffer.ext_byte
    intro o ho
    rw [byte_start _ (by omega), start, Buffer.byte_ofFn ho]
  · have hcur : (start (superBlock size)).cur_data_block = 42 := (counted_start size).block
    rw [hcur, Marked, bitAt, byte_start _ (by omega)]
    simp
  · rw [honly i hu] at hi
    simp at hi

/-- The loop over files that fit as far as they are reached, by names that differ. It ends with all of
them, or where the blocks run out. -/
theorem Laid.addFiles {done all : List HostFile} (h : Laid size s done) (h42 : 42 ≤ size)
    (hsize : size < 2 ^ 31) (files : List HostFile)
    (hall : all = done ++ files.filter fun f => f.Accepted)
    (hfits : ∀ j < all.length, blocksNeeded (all.take j) < size - 42 → j < 319 ∧
      blocksNeeded (all.take (j + 1)) ≤ min (size - 42) 4096 ∧
      ((all.take (j + 1)).map HostFile.fileName).Nodup) :
    ∃ k, Laid size (addFiles (superBlock size) s files) (all.take k) ∧
      (k < all.length → size - 42 ≤ blocksNeeded (all.take k)) := by
  induction files generalizing s done with
  | nil =>
    rw [List.filter_nil, List.append_nil] at hall
    subst hall
    exact ⟨all.length, by rwa [List.take_length], fun hlt => absurd hlt (lt_irrefl _)⟩
  | cons f files ih =>
    have hcur := h.counted.block
    rw [addFiles_cons, bmap_start_superBlock, datablocks_count_superBlock h42 hsize]
    by_cases hfull : s.cur_data_block - 41 > size - 42
    · rw [if_pos hfull]
      refine ⟨done.length, ?_, fun _ => ?_⟩ <;> rw [hall, List.take_left]
      · exact h
      · omega
    · rw [if_neg hfull]
      by_cases hacc : f.Accepted
      · obtain ⟨bytes, hc, hle, hname⟩ := id hacc
        rw [List.filter_cons_of_pos (by simpa using hacc), List.append_cons] at hall
        have htake : all.take done.length = done := by
          rw [hall, List.append_assoc, List.take_left]
        have htake' : all.take (done.length + 1) = done ++ [f] := by
          rw [hall, List.take_left' (by simp)]
        obtain ⟨hj, hroom, hnodup⟩ := hfits done.length (by rw [hall]; simp)
          (by rw [htake]; omega)
        rw [htake'] at hroom hnodup
        have hnew : f.fileName ∉ done.map HostFile.fileName := by
          rw [List.map_append] at hnodup
          exact fun hm => List.disjoint_of_nodup_append hnodup hm (by simp)
        rw [if_pos hacc, hc, Option.getD_some]
        exact ih (h.addFile (by omega) hc hle hname hnew (by omega) hsize (by omega)) hall
      · rw [if_neg hacc]
        rw [List.filter_cons_of_neg (by simpa using hacc)] at hall
        exact ih h hall

end Mkfs

open Mkfs

variable {size : ℕ} {files : List HostFile}

/-- The disk of an image. -/
def mkfsDisk (size : ℕ) (files : List HostFile) : Disk := (mkfs size files).fs_img.disk

/-- The files that are reached have names that differ. -/
def DistinctNames (datablocks_count : ℕ) (files : List HostFile) : Prop :=
  ∀ j < (files.filter fun file => file.Accepted).length,
    blocksNeeded ((files.filter fun file => file.Accepted).take j) < datablocks_count →
    (((files.filter fun file => file.Accepted).take (j + 1)).map HostFile.fileName).Nodup

/-- The image of files that fit has all of them, or as many as there are blocks for. -/
theorem laid_of_fits (h42 : 42 ≤ size) (hsize : size < 2 ^ 31) (hfits : Fits (size - 42) files)
    (hnames : DistinctNames (size - 42) files) :
    ∃ s k, Laid size s ((files.filter fun f => f.Accepted).take k) ∧ mkfsDisk size files = s.final ∧
      (k < (files.filter fun f => f.Accepted).length →
        size - 42 ≤ blocksNeeded ((files.filter fun f => f.Accepted).take k)) := by
  obtain ⟨k, hlaid, hk⟩ := (laid_start h42 hsize).addFiles h42 hsize files rfl fun j hj hless =>
    ⟨(hfits j hj hless).1, (hfits j hj hless).2, hnames j hj hless⟩
  exact ⟨_, k, hlaid, disk_putInode _ _, hk⟩

/-- The image of files that all fit. -/
theorem laid_mkfs (h42 : 42 < size) (hsize : size < 2 ^ 31) (hlen : files.length ≤ 319)
    (hacc : ∀ f ∈ files, f.Accepted) (hnames : (files.map HostFile.fileName).Nodup)
    (hroom : blocksNeeded files < min 4096 (size - 42)) :
    ∃ s, Laid size s files ∧ mkfsDisk size files = s.final := by
  have hfilter : (files.filter fun f => f.Accepted) = files :=
    List.filter_eq_self.mpr fun f hf => by simpa using hacc f hf
  have hle : ∀ j, blocksNeeded (files.take j) ≤ blocksNeeded files := fun j =>
    blocksNeeded_mono (List.take_prefix j files)
  obtain ⟨s, k, hlaid, hdisk, hk⟩ := @laid_of_fits size files h42.le hsize
    (fun j hj _ => by
      have := hle (j + 1)
      rw [hfilter] at hj ⊢
      omega)
    (fun j _ _ => by
      rw [hfilter, List.map_take]
      exact hnames.sublist (List.take_sublist _ _))
  rw [hfilter] at hlaid hk
  have hall : files.take k = files := List.take_of_length_le (by
    by_contra hlt
    have := hk (by omega)
    have := hle k
    omega)
  exact ⟨s, hall ▸ hlaid, hdisk⟩

/-- A file in the root directory of a tree opens under its name. -/
theorem run_openPath_root {d : Disk} {name : List UInt8} {j : ℕ} {path : CString} (hw : Walkable d)
    (hpath : path.1 = slash :: name) (hne : name ≠ []) (hs : slash ∉ name) (hlen : name.length ≤ 13)
    (hres : resolve d [name] 0 = some j) (cwd : List UInt8) :
    (openPath cwd (some path)).run d = (.ok (some (j, inodeAt d j)), d) := by
  obtain ⟨p, h0⟩ := path
  obtain rfl : p = slash :: name := hpath
  have hjoin : slash :: name = joinPath [name] ++ [] := by simp [joinPath]
  have hp : parsePath cwd (some ⟨joinPath [name] ++ [], by rwa [← hjoin]⟩) .zero =
      .ok (1, putRows .zero 0 [name]) :=
    parsePath_abs [name] [] (by simpa [IsComponent] using ⟨hne, hs⟩) (.inl rfl)
      (by simpa [Fitting] using hlen) (by simp) (by simp [joinPath]) _
  have hrows : (putRows .zero 0 [name]).rows (1 : ℤ).toNat = [name] :=
    rows_putRows (by simpa [IsName] using ⟨fun hm => h0 (by simp [hm]), hlen⟩)
  simp only [hjoin]
  rw [run_openPath hw hp (by omega), hrows, hres]
  rfl

/-- The kernel finds on an image what `mkfs` was given: every file opens under its name, its stream
has the length and the bytes of the file, and the block that is allocated next belongs to no file. -/
theorem mkfs_readable (size : ℕ) (files : List HostFile) (h42 : 42 < size) (hsize : size < 2 ^ 31)
    (hlen : files.length ≤ 319)
    (hopen : ∀ f ∈ files, ∃ bytes, f.contents = some bytes ∧ bytes.length ≤ 512 * 140)
    (hname : ∀ f ∈ files, 1 ≤ f.fileName.length ∧ f.fileName.length ≤ 13)
    (hnames : (files.map HostFile.fileName).Nodup)
    (hroom : blocksNeeded files < min (size - 42) 4096) :
    (∀ f ∈ files, ∀ bytes, f.contents = some bytes → ∀ (cwd : List UInt8) (path : CString),
      path.1 = slash :: f.fileName →
        ∃ i x, (openPath cwd (some path)).run (mkfsDisk size files) =
            (.ok (some (i, x)), mkfsDisk size files) ∧
          FileStream.size ⟨0, x⟩ = bytes.length ∧ ∀ n, bytes.length ≤ n →
            (FileStream.read ⟨0, x⟩ n).run (mkfsDisk size files) =
              (.ok (bytes, ⟨bytes.length, x⟩), mkfsDisk size files)) ∧
    ∃ b d', allocDataBlock.run (mkfsDisk size files) = (.ok (true, b), d') ∧
      42 ≤ b ∧ b < size ∧
        ∀ i, InUse (mkfsDisk size files) i → ¬ OwnedBy (mkfsDisk size files) i b := by
  obtain ⟨s, h, hd⟩ := laid_mkfs h42 hsize hlen
    (fun f hf => by
      obtain ⟨bytes, hc, hl⟩ := hopen f hf
      exact ⟨bytes, hc, hl, (hname f hf).2⟩)
    hnames (by omega)
  rw [hd]
  constructor
  · intro f hf bytes hc cwd path hpath
    obtain ⟨j, hj, rfl⟩ := List.mem_iff_getElem.mp hf
    obtain ⟨-, hcont, hres⟩ := h.files j hj
    rw [hc, Option.getD_some] at hcont
    have hn := hname _ hf
    have hbytes : bytes.length = (inodeAt s.final (j + 1)).size.toNat := by
      rw [← hcont, length_contents]
    have hmax : bytes.length ≤ 512 * 140 := by
      obtain ⟨bytes', hc', hl⟩ := hopen _ hf
      rw [hc, Option.some.injEq] at hc'
      exact hc' ▸ hl
    refine ⟨j + 1, _, run_openPath_root h.tree.tree.walkable hpath (List.length_pos_iff.mp hn.1)
      (HostFile.slash_notMem_fileName _) hn.2 hres cwd, hbytes.symm, fun n hle => ?_⟩
    rw [run_read_all (by omega) (by omega), hcont, hbytes]
  · have hfree := h.free (by rw [h.counted.block]; omega) h42 hsize
    cases hnext : nextFree s.final with
    | none => exact absurd hfree (nextFree_eq_none_iff.mp hnext _)
    | some b =>
      have hb := free_of_nextFree hnext
      have hfs : fsSize s.final = size := by
        rw [fsSize_congr (final_outside (.inl rfl)), fsSize, h.super, toNat_size_superBlock hsize]
      refine ⟨b, mark s.final b, ?_, hb.1, hfs ▸ hb.lt_fsSize h.tree.wf.formatted, fun i hi ho => ?_⟩
      · rw [run_allocDataBlock h.tree.wf.formatted, hnext]
      · exact hb.not_marked ((h.tree.wf.mapped i hi).owns_area ho).2

/-- One file of two bytes. -/
theorem mkfs_readable_sample : ∃ i x, (openPath [slash] (some ⟨[slash, 97], by decide⟩)).run
      (mkfsDisk 100 [sampleFile 2]) = (.ok (some (i, x)), mkfsDisk 100 [sampleFile 2]) ∧
    (FileStream.read ⟨0, x⟩ 512).run (mkfsDisk 100 [sampleFile 2]) =
      (.ok ([0, 0], ⟨2, x⟩), mkfsDisk 100 [sampleFile 2]) := by
  have hname : (sampleFile 2).fileName = [97] := by decide
  obtain ⟨hfiles, -⟩ := mkfs_readable 100 [sampleFile 2] (by omega) (by omega)
    (by simp) (by simp [sampleFile]) (by simp [hname]) (by simp)
    (by simp [blocksNeeded, need_sampleFile, dataNeed, blocks])
  obtain ⟨i, x, hopen, -, hread⟩ :=
    hfiles (sampleFile 2) (by simp) [0, 0] rfl [slash] ⟨[slash, 97], by decide⟩
    (by rw [hname])
  exact ⟨i, x, hopen, hread 512 (by simp)⟩

end OrangeOs.Fs
