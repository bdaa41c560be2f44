import OrangeOs.Driver.Backing
import OrangeOs.Driver.Descriptors
import OrangeOs.Kernel.ContinuousPages

/-! # Preparing the memory of a resource

Before `GPUDevice::ResourceAttachBacking` notifies the device it fills `indirect_desc_` and the
entries, and its transport takes one descriptor, which refers to `indirect_desc_`. Three limits
apply to what it fills. The flag of that descriptor goes to a fixed index.
-/

namespace OrangeOs.Driver

open Kernel

/-! ## The tables -/

namespace GPUDevice

/-- `memory_size` of `sys_framebuffer`, a product of 32 bits. -/
def memorySize (height width : ℕ) : ℕ := height * width % 2 ^ 32 * 4 % 2 ^ 32

/-- The pages for the entries. -/
def needEntryMem (page_num : ℕ) : ℕ := (16 * page_num + PGSIZE - 1) / PGSIZE % 2 ^ 32

/-- What `ResourceAttachBacking` has used: the descriptors that it wrote to `indirect_desc_`, by
index, the pages that it needs, the argument of `AllocContinuousPage` and its result, and the
addresses of the entries. -/
structure Attached where
  indirect_desc_ : List (ℕ × VirtqDesc) := []
  need_entry_mem : ℕ := 0
  n : ℕ := 0
  entrys : ℕ := 0
  written : List ℕ := []

/-- The descriptor of the entry with a number. -/
def entryDesc (entrys index : ℕ) : VirtqDesc where
  addr := entrys + 16 * index
  len := 16
  flags := VIRTQ_DESC_F_NEXT
  next := (index + 2) % 2 ^ 16

/-- The argument of `AllocContinuousPage` is a `uint8_t`. -/
def attached (page_num entrys backing header : ℕ) : Attached where
  indirect_desc_ := (0, fillDesc ⟨backing, 32, true⟩ VIRTQ_DESC_F_NEXT 1) ::
    (List.range page_num).map (fun index => (1 + index, entryDesc entrys index)) ++
    [(page_num + 1, fillDesc ⟨header, 24, false⟩ VIRTQ_DESC_F_WRITE 0)]
  need_entry_mem := needEntryMem page_num
  n := needEntryMem page_num % 2 ^ 8
  entrys := entrys
  written := (List.range page_num).map fun k => entrys + 16 * k

/-- `ResourceAttachBacking` up to its transport, with the addresses of the command and of the answer. -/
def attachBacking (v : VirtualMemory) (page_table addr size backing header : ℕ) :
    Except Fault (Attached × VirtualMemory) :=
  if size = 0 then .ok ({}, v)
  else do
    let page_num := pageNum addr size
    let (entrys, v) ← v.allocContinuousPage (needEntryMem page_num % 2 ^ 8)
    let v ← fillEntries v page_table addr size entrys
    return (attached page_num entrys backing header, v)

/-- The function stays within its tables: the indices are below 512, the argument is the number that is
needed, and the entries are in the pages that it was given. -/
structure Attached.Within (r : Attached) : Prop where
  index : ∀ i ∈ r.indirect_desc_.map Prod.fst, i < 512
  arg : r.n = r.need_entry_mem
  pages : ∀ p ∈ r.written, r.entrys ≠ 0 ∧ r.entrys ≤ p ∧ p + 16 ≤ r.entrys + r.n * PGSIZE

/-- There are `n` consecutive free pages. -/
def HasRun (v : VirtualMemory) (n : ℕ) : Prop := ∃ k, k + n ≤ 32768 ∧ ∀ j < n, v.bit (k + j) = false

variable {v : VirtualMemory} {n k p size addr height width page_table : ℕ}

/-! ## The calls return -/

theorem allocContinuousPage_returns (hfull : v.bit_map_.byte 0 = 0xff) (n : ℕ) :
    ∃ r, v.allocContinuousPage n = .ok r := by
  by_cases hlarge : n > 8
  · exact ⟨_, if_pos hlarge⟩
  · by_cases hzero : n = 0
    · -- a mask without bits passes at once
      subst hzero
      have hfirst : VirtualMemory.windowFree v.bit_map_ 0 4095 = .ok true := by
        simp [VirtualMemory.windowFree]
      have hbyte : VirtualMemory.findInByte v.bit_map_ 0 4095 0 8 = .ok (some 0) := by
        rw [VirtualMemory.findInByte, Nat.zero_shiftRight, hfirst]
        rfl
      have hfind : VirtualMemory.findWindow v.bit_map_ 0 4096 = .ok (some (4095, 0)) := by
        rw [VirtualMemory.findWindow, hbyte]
        rfl
      have hmask : ((1 <<< 0 - 1) <<< (16 - 0)) % 2 ^ 16 = 0 := rfl
      refine ⟨(32768 * PGSIZE + KERNEL_BASE, v), ?_⟩
      rw [VirtualMemory.allocContinuousPage, if_neg hlarge]
      dsimp only
      rw [hmask, hfind]
      rfl
    · have hpos : 1 ≤ n := by omega
      rcases allocContinuousPage_spec hfull hpos (by omega) with ⟨v', h, -⟩ | ⟨t, v', h, -⟩
      · exact ⟨_, h⟩
      · exact ⟨_, h⟩

theorem nextEntry_returns (v : VirtualMemory) (page_table size addr : ℕ) :
    ∃ r, nextEntry v page_table size addr = .ok r := by
  obtain ⟨o, hpa⟩ := vaToPA_translate v page_table addr
  rw [nextEntry, hpa]
  exact ⟨_, rfl⟩

theorem generate_returns (v : VirtualMemory) (page_table size addr p k : ℕ) :
    ∃ v', generate v page_table size addr p k = .ok v' := by
  induction k generalizing v size addr p with
  | zero => exact ⟨v, rfl⟩
  | succ k ih =>
    obtain ⟨⟨e, size', addr'⟩, hentry⟩ := nextEntry_returns v page_table size addr
    rw [generate, hentry]
    exact ih _ size' addr' (p + 16)

theorem attachBacking_attached (hfull : v.bit_map_.byte 0 = 0xff) (page_table addr backing header : ℕ)
    (hsize : size ≠ 0) : ∃ entrys v₁ v',
      v.allocContinuousPage (needEntryMem (pageNum addr size) % 2 ^ 8) = .ok (entrys, v₁) ∧
      attachBacking v page_table addr size backing header =
        .ok (attached (pageNum addr size) entrys backing header, v') := by
  obtain ⟨⟨entrys, v₁⟩, halloc⟩ :=
    allocContinuousPage_returns hfull (needEntryMem (pageNum addr size) % 2 ^ 8)
  obtain ⟨v', hfill⟩ := generate_returns v₁ page_table size addr entrys (pageNum addr size)
  refine ⟨entrys, v₁, v', halloc, ?_⟩
  rw [attachBacking, if_neg hsize]
  dsimp only
  rw [halloc, ok_bind]
  dsimp only
  rw [fillEntries, hfill]
  rfl

/-! ## The limits -/

theorem memorySize_lt (height width : ℕ) : memorySize height width < 2 ^ 32 := Nat.mod_lt _ (by decide)

theorem pageNum_pos (haddr : addr < 2 ^ 64) (hpos : 0 < size) (hlt : size < 2 ^ 32) :
    1 ≤ pageNum addr size := by
  have hsize : PGSIZE = 4096 := rfl
  have hdown := addrCastDown_eq haddr
  simp only [pageNum, hdown, hsize]
  omega

/-- Up to 510 entries need one page or two. -/
theorem needEntryMem_le (hpos : 1 ≤ n) (hle : n ≤ 510) :
    1 ≤ needEntryMem n ∧ needEntryMem n ≤ 2 ∧ 16 * n ≤ needEntryMem n * PGSIZE := by
  have hsize : PGSIZE = 4096 := rfl
  simp only [needEntryMem, hsize]
  omega

/-- One page or two are handed out just when there is a run of them. -/
theorem allocContinuousPage_run {v' : VirtualMemory} (hfull : v.bit_map_.byte 0 = 0xff) (hn : 1 ≤ n)
    (hn' : n ≤ 2) (h : v.allocContinuousPage n = .ok (p, v')) : p ≠ 0 ↔ HasRun v n := by
  rcases allocContinuousPage_spec hfull hn (by omega) with
    ⟨w, heq, hnone⟩ | ⟨t, w, heq, ht, hle, hpass, -⟩
  · obtain ⟨rfl, -⟩ := Prod.mk.inj (Except.ok.inj (h.symm.trans heq))
    refine iff_of_false (fun hne => hne rfl) ?_
    rintro ⟨k, hk, hfree⟩
    exact hnone _ (by omega) (passes_of_run hn hfree)
  · obtain ⟨rfl, -⟩ := Prod.mk.inj (Except.ok.inj (h.symm.trans heq))
    have hfree := hpass.runFree hn'
    refine iff_of_true (Pages.pageAt_ne_zero _) ⟨t + 1 - n, by omega, fun j hj => ?_⟩
    exact hfree _ (by omega) (by omega)

theorem attached_within {page_num entrys : ℕ} (backing header : ℕ) (hpos : 1 ≤ page_num) :
    (attached page_num entrys backing header).Within ↔ page_num ≤ 510 ∧ entrys ≠ 0 := by
  constructor
  · rintro ⟨hindex, -, hpages⟩
    have hlast : page_num + 1 < 512 := hindex _ (by simp [attached])
    have hfirst := hpages entrys (List.mem_map.mpr ⟨0, List.mem_range.mpr hpos, rfl⟩)
    exact ⟨by omega, hfirst.1⟩
  · rintro ⟨hle, hne⟩
    obtain ⟨-, htwo, hroom⟩ := needEntryMem_le hpos hle
    have harg : needEntryMem page_num % 2 ^ 8 = needEntryMem page_num := Nat.mod_eq_of_lt (by omega)
    refine ⟨fun i hi => ?_, harg, fun p hp => ?_⟩
    · simp only [attached, List.cons_append, List.map_append, List.map_cons, List.map_map, List.map_nil,
        List.mem_append, List.mem_cons, List.mem_map, List.mem_range, List.not_mem_nil, or_false] at hi
      rcases hi with rfl | ⟨j, hj, rfl⟩ | rfl
      · omega
      · dsimp only [Function.comp]
        omega
      · omega
    · obtain ⟨j, hj, rfl⟩ := List.mem_map.mp hp
      have hlast := List.mem_range.mp hj
      dsimp only [attached]
      rw [harg]
      exact ⟨hne, by omega, by omega⟩

/-- A framebuffer is set up within the tables exactly when it reaches into at most 510 pages and
there is a run of free pages for its entries. -/
theorem attachBacking_within (hfull : v.bit_map_.byte 0 = 0xff)
    (height width page_table backing header : ℕ)
    (haddr : addr < 2 ^ 64) :
    ∃ r v', attachBacking v page_table addr (memorySize height width) backing header = .ok (r, v') ∧
      (r.Within ↔ memorySize height width = 0 ∨ pageNum addr (memorySize height width) ≤ 510 ∧
        HasRun v (needEntryMem (pageNum addr (memorySize height width)))) := by
  have hlt := memorySize_lt height width
  generalize memorySize height width = size at hlt ⊢
  by_cases hzero : size = 0
  · exact ⟨{}, v, if_pos hzero, iff_of_true ⟨by simp, rfl, by simp⟩ (.inl hzero)⟩
  · have hpos := pageNum_pos haddr (Nat.pos_of_ne_zero hzero) hlt
    obtain ⟨entrys, v₁, v', halloc, hattach⟩ :=
      attachBacking_attached hfull page_table addr backing header hzero
    refine ⟨_, v', hattach, ?_⟩
    rw [attached_within backing header hpos, or_iff_right hzero]
    refine and_congr_right fun hle => ?_
    obtain ⟨hone, htwo, -⟩ := needEntryMem_le hpos hle
    rw [Nat.mod_eq_of_lt (by omega)] at halloc
    exact allocContinuousPage_run hfull hone htwo halloc

/-- All pages are free but the first eight. -/
def openMap : VirtualMemory := ⟨fun _ => 0, 0, true, 0, 0, 0, .ofFn fun i => if i = 0 then 0xff else 0⟩

theorem openMap_byte (hk : k < 4096) : openMap.bit_map_.byte k = if k = 0 then 0xff else 0 := by
  rw [openMap, OrangeOs.Buffer.byte_ofFn hk]

theorem openMap_run : HasRun openMap 2 := by
  refine ⟨8, by decide, fun j hj => ?_⟩
  rw [VirtualMemory.bit, bitAt, openMap_byte (by omega), if_neg (by omega)]
  exact Nat.zero_testBit _

/-- The entries of a screen of 720 by 480 take two pages. -/
theorem attachBacking_within_small : ∃ r v',
    attachBacking openMap 4096 0 (memorySize 480 720) 8192 12288 = .ok (r, v') ∧ r.Within := by
  have hfull := openMap_byte (show 0 < 4096 by decide)
  obtain ⟨r, v', hattach, hiff⟩ :=
    attachBacking_within hfull 480 720 4096 8192 12288 (show 0 < 2 ^ 64 by decide)
  exact ⟨r, v', hattach, hiff.mpr (.inr ⟨by decide, openMap_run⟩)⟩

/-- A screen of 1024 by 768 needs 770 descriptors. -/
theorem attachBacking_beyond : ¬ ∀ (v : VirtualMemory) (height width page_table addr backing header : ℕ),
    v.bit_map_.byte 0 = 0xff → addr < 2 ^ 64 → ∃ r v', r.Within ∧
      attachBacking v page_table addr (memorySize height width) backing header = .ok (r, v') := by
  intro h
  have hfull := openMap_byte (show 0 < 4096 by decide)
  obtain ⟨r, v', hwithin, hattach⟩ := h openMap 768 1024 4096 0 8192 12288 hfull (by decide)
  obtain ⟨entrys, -, w, -, heq⟩ :=
    attachBacking_attached hfull 4096 0 8192 12288 (show memorySize 768 1024 ≠ 0 by decide)
  obtain ⟨rfl, -⟩ := Prod.mk.inj (Except.ok.inj (heq.symm.trans hattach))
  have hle := ((attached_within 8192 12288 (by decide)).mp hwithin).1
  exact absurd hle (by decide)

end GPUDevice

/-! ## The flag -/

namespace Queue

def setIndirectFlag (q : Queue) (desc_index : ℕ) : Queue :=
  q.setDesc desc_index { q.desc desc_index with
    flags := (q.desc desc_index).flags ||| VIRTQ_DESC_F_INDIRECT }

/-- The request for the 512 descriptors at `indirect_desc_`. -/
def tableRequest (indirect_desc_ : ℕ) : Buffer := ⟨indirect_desc_, 512 * 16, true⟩

/-- `ResourceAttachBacking` constructs its transport and sets the flag of descriptor 0, with or without a
descriptor of its own. -/
def prepareAttach (q : Queue) (indirect_desc_ : ℕ) : Option (Bool × List ℕ × Queue) :=
  (q.mmioTransport [tableRequest indirect_desc_]).map fun (succ, descs, q) =>
    (succ, descs, q.setIndirectFlag 0)

/-- The descriptor that the transport writes. -/
def tableDesc (table : ℕ) : VirtqDesc :=
  fillDesc (tableRequest table) (Device.requestFlag (tableRequest table) true) 0

/-- The transport is prepared: it has its descriptor, which has the flag, and the descriptors of all
other requests are as they were. -/
def PreparedOwn (q : Queue) (indirect_desc_ : ℕ) : Prop :=
  ∃ descs q', q.prepareAttach indirect_desc_ = some (true, descs, q') ∧
    (q'.desc (descs.headD 0)).flags &&& VIRTQ_DESC_F_INDIRECT ≠ 0 ∧
    ∀ d, q.taken d → q'.desc d = q.desc d

variable {q : Queue} {i j d : ℕ}

/-- `AllocDesc` takes the first free descriptor. -/
theorem allocDesc_zero (h : ¬ q.taken 0) : q.allocDesc = (0, q.mark 0) := by
  have hrange : List.range queue_buffer_size =
      0 :: (List.range (queue_buffer_size - 1)).map (· + 1) := rfl
  rw [allocDesc, hrange, List.find?_cons_of_pos (by simpa using h)]

theorem prepareAttach_fail (h : q.allocDesc = (noDesc, q)) (table : ℕ) :
    q.prepareAttach table = some (false, [noDesc], q.setIndirectFlag 0) := by
  have halloc : q.allocMultiDesc 1 = some (false, [noDesc], q) := by
    rw [allocMultiDesc, allocLoop, if_pos (by rw [h]), h]
    rfl
  rw [prepareAttach, mmioTransport, List.length_singleton, halloc]
  rfl

theorem prepareAttach_done (hne : i ≠ noDesc) (h : q.allocDesc = (i, q.mark i)) (table : ℕ) :
    q.prepareAttach table =
    some (true, [i], ((q.mark i).setDesc i (tableDesc table)).setIndirectFlag 0) := by
  have halloc : q.allocMultiDesc 1 = some (true, [i], q.mark i) := by
    rw [allocMultiDesc, allocLoop, h, if_neg hne]
    rfl
  rw [prepareAttach, mmioTransport, List.length_singleton, halloc]
  rfl

theorem setDesc_desc_self (q : Queue) (i : ℕ) (e : VirtqDesc) : (q.setDesc i e).desc i = e :=
  Function.update_self ..

theorem setDesc_desc_of_ne (e : VirtqDesc) (h : d ≠ j) : (q.setDesc j e).desc d = q.desc d :=
  Function.update_of_ne h ..

theorem setIndirectFlag_desc_self (q : Queue) (i : ℕ) :
    ((q.setIndirectFlag i).desc i).flags = (q.desc i).flags ||| VIRTQ_DESC_F_INDIRECT := by
  rw [setIndirectFlag, setDesc_desc_self]

theorem setIndirectFlag_desc_of_ne (h : d ≠ j) : (q.setIndirectFlag j).desc d = q.desc d :=
  setDesc_desc_of_ne _ h

theorem tableDesc_flags (table : ℕ) : (tableDesc table).flags = 0 := by
  simp [tableDesc, tableRequest, fillDesc, Device.requestFlag]

/-- The flag goes to the descriptor of the transport exactly when descriptor 0 is free before. -/
theorem prepareAttach_own (q : Queue) (table : ℕ) : q.PreparedOwn table ↔ ¬ q.taken 0 := by
  constructor
  · rintro ⟨descs, q', hprep, hflag, hsame⟩ htaken
    rcases q.allocDesc_cases with ⟨he, -⟩ | ⟨i, hi, hfree, he⟩
    · rw [prepareAttach_fail he] at hprep
      cases hprep
    · have hne : i ≠ 0 := fun h0 => hfree (h0 ▸ htaken)
      rw [prepareAttach_done (Nat.ne_of_lt (hi.trans (by decide))) he] at hprep
      obtain ⟨rfl, rfl⟩ := Prod.mk.inj (Prod.mk.inj (Option.some.inj hprep)).2
      -- the flags of the new descriptor are 0
      rw [List.headD_cons, setIndirectFlag_desc_of_ne hne, setDesc_desc_self, tableDesc_flags] at hflag
      exact hflag rfl
  · intro hfree
    have hown := prepareAttach_done (by decide) (allocDesc_zero hfree) table
    refine ⟨_, _, hown, ?_, fun d hd => ?_⟩
    · rw [List.headD_cons, setIndirectFlag_desc_self, setDesc_desc_self, tableDesc_flags]
      decide
    · have hne : d ≠ 0 := fun h0 => hfree (h0 ▸ hd)
      rw [setIndirectFlag_desc_of_ne hne, setDesc_desc_of_ne _ hne]
      rfl

/-- With a request at descriptor 0 the transport takes descriptor 1, and the flag goes to the other
request. -/
theorem prepareAttach_other : ¬ ∀ (q : Queue) (table : ℕ), q.PreparedOwn table := by
  intro h
  obtain ⟨descs, q', hprep, hflag, -⟩ := h (Queue.zero.mark 0) 8192
  have hfirst : (Queue.zero.mark 0).allocDesc = (1, (Queue.zero.mark 0).mark 1) := rfl
  rw [prepareAttach_done (by decide) hfirst] at hprep
  obtain ⟨rfl, rfl⟩ := Prod.mk.inj (Prod.mk.inj (Option.some.inj hprep)).2
  rw [List.headD_cons, setIndirectFlag_desc_of_ne (by decide), setDesc_desc_self,
    tableDesc_flags] at hflag
  exact hflag rfl

end Queue

end OrangeOs.Driver
