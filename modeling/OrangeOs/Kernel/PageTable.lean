import OrangeOs.Filesystem.InodeDef
import OrangeOs.Kernel.PageAllocator
import OrangeOs.Library.Radix

/-! # Page tables

The page tables of `kernel/virtual_memory.cc` and the functions of `kernel/process.cc` that build,
copy and free the address space of a process. A page-table entry is a number of 64 bits at an
address of the memory; the three levels of tables form a radix tree.
-/

namespace OrangeOs.Kernel

open Fs (FileType)

namespace PTE

def V : ℕ := 1
def R : ℕ := 2
def W : ℕ := 4
def X : ℕ := 8
def U : ℕ := 16

end PTE

def PTE_MASK : ℕ := 0x1e

def MAX_SUPPORT_VA : ℕ := 0x3fffffffff

/-- `~(PGSIZE - 1)`. -/
def pageMask : ℕ := 2 ^ 64 - PGSIZE

def addrCastUp (addr : ℕ) : ℕ := (addr + PGSIZE - 1) % 2 ^ 64 &&& pageMask

def addrCastDown (addr : ℕ) : ℕ := addr &&& pageMask

def getUserSpVa : ℕ := addrCastDown MAX_SUPPORT_VA

/-- The page that an entry points to. -/
def pteTarget (pte : ℕ) : ℕ := (pte <<< 2) % 2 ^ 64 &&& (0xfffffffffff * PGSIZE)

/-- The index into the table of level `i` (2 for the root) in an address. -/
def vaIndex (va i : ℕ) : ℕ := (va >>> (12 + i * 9)) &&& 0x1ff

namespace VirtualMemory

/-- The loop of `GetPTE`: `k` tables down from the table `pte` of level `i`. -/
def walk (v : VirtualMemory) (va : ℕ) (need_alloc : Bool) (pte i : ℕ) :
    ℕ → Except Fault (Option ℕ × VirtualMemory)
  | 0 => .ok (some pte, v)
  | k + 1 =>
    let sub_pte := pte + 8 * vaIndex va i
    if v.mem.load sub_pte 8 &&& PTE.V = 0 then
      if need_alloc then do
        let (page, v) ← v.alloc
        if page = 0 then return (none, v)
        else
          let v := { v with mem := v.mem.store sub_pte 8 ((page >>> 2) ||| PTE.V) }
          walk v va need_alloc (pteTarget (v.mem.load sub_pte 8)) (i - 1) k
      else .ok (none, v)
    else walk v va need_alloc (pteTarget (v.mem.load sub_pte 8)) (i - 1) k

/-- `GetPTE`; the null pointer is 0. -/
def getPTE (v : VirtualMemory) (root_page va : ℕ) (need_alloc : Bool) (level : ℕ) :
    Except Fault (ℕ × VirtualMemory) :=
  if root_page = 0 then .ok (0, v)
  else if level < 1 ∨ level > 3 then .ok (0, v)
  else do
    let va := if va % PGSIZE ≠ 0 then addrCastDown va else va
    match ← v.walk va need_alloc root_page 2 (level - 1) with
    | (none, v) => return (0, v)
    | (some pte, v) => return (pte + 8 * vaIndex va (3 - level), v)

def mapPage (v : VirtualMemory) (root_page va pa privilege : ℕ) :
    Except Fault (Bool × VirtualMemory) :=
  if root_page = 0 then .ok (false, v)
  else if pa > MEMORY_END then .ok (false, v)
  else if va > MAX_SUPPORT_VA then .ok (false, v)
  else if root_page % PGSIZE ≠ 0 ∨ va % PGSIZE ≠ 0 ∨ pa % PGSIZE ≠ 0 then .ok (false, v)
  else do
    let (pte, v) ← v.getPTE root_page va true 3
    if pte = 0 then return (false, v)
    else return (true, { v with mem := v.mem.store pte 8 ((pa >>> 2) ||| PTE.V ||| privilege) })

/-- `FreePage` of the page that an entry of a page table points to. -/
def freePageAt (v : VirtualMemory) (root_page va level : ℕ) : Except Fault VirtualMemory := do
  let va := if va % PGSIZE ≠ 0 then addrCastDown va else va
  let (pte, v) ← v.getPTE root_page va false level
  if pte ≠ 0 ∧ v.mem.load pte 8 &&& PTE.V ≠ 0 then
    let t := pteTarget (v.mem.load pte 8)
    let v ← (v.push t).updateBitMap t .free
    return { v with mem := v.mem.store pte 8 0 }
  else return v

/-- The loop of `FreeMemory`. -/
def freeFrom (v : VirtualMemory) (root_page i va_end level : ℕ) : Except Fault VirtualMemory :=
  if _h : i < va_end then do
    let v ← v.freePageAt root_page i level
    freeFrom v root_page (i + PGSIZE) va_end level
  else .ok v
termination_by va_end - i
decreasing_by simp only [PGSIZE]; omega

def freeMemory (v : VirtualMemory) (root_page va_beg va_end level : ℕ) :
    Except Fault VirtualMemory :=
  v.freeFrom root_page (addrCastDown va_beg) (addrCastUp va_end) level

/-- The loop of `MapMemory`. -/
def mapFrom (v : VirtualMemory) (root_page va_beg i va_end privilege : ℕ) :
    Except Fault (Bool × VirtualMemory) :=
  if _h : i < va_end then do
    let (page, v) ← v.alloc
    if page = 0 then
      let v ← v.freeMemory root_page va_beg i 3
      return (false, v)
    else
      let (mapped, v) ← v.mapPage root_page i page privilege
      if mapped then mapFrom v root_page va_beg (i + PGSIZE) va_end privilege
      else
        let v ← v.freeMemory root_page va_beg i 3
        return (false, v)
  else .ok (true, v)
termination_by va_end - i
decreasing_by simp only [PGSIZE]; omega

def mapMemory (v : VirtualMemory) (root_page va_beg va_end privilege : ℕ) :
    Except Fault (Bool × VirtualMemory) :=
  v.mapFrom root_page (addrCastDown va_beg) (addrCastDown va_beg) (addrCastUp va_end) privilege

/-- `VAToPA`; `output_privi` is what it points to, and the result has its new value. -/
def vaToPA (v : VirtualMemory) (root_page va output_privi : ℕ) : Except Fault (ℕ × ℕ) := do
  let remain := va % PGSIZE
  let (pte, v) ← v.getPTE root_page va false 3
  if pte = 0 ∨ v.mem.load pte 8 &&& PTE.V = 0 then return (0, output_privi)
  else return (pteTarget (v.mem.load pte 8) + remain, v.mem.load pte 8 &&& PTE_MASK)

/-- `FreePage` of a list of pages. -/
def freePages (v : VirtualMemory) : List ℕ → Except Fault VirtualMemory
  | [] => .ok v
  | pa :: pa_list => do
    let v ← v.freePage pa
    freePages v pa_list

end VirtualMemory

/-- The members of `ProcessTask` that describe its memory. -/
structure TaskMemory where
  frame : ℕ
  page_table : ℕ
  used_address_size : ℕ
  used_address : Fin 16 → UInt64 × UInt64
  kernel_sp : ℕ
  user_sp : ℕ
  saved_sp : ℕ
  console : FileType

namespace TaskMemory

/-- A read of `used_address`. -/
def region (p : TaskMemory) (i : ℕ) : Except Fault (ℕ × ℕ) :=
  if h : i < 16 then .ok ((p.used_address ⟨i, h⟩).1.toNat, (p.used_address ⟨i, h⟩).2.toNat)
  else .error .outOfBounds

def userStackVa : ℕ := getUserSpVa - PGSIZE

/-- The members of `RegFrame` that the kernel writes. -/
def setFrameSp (m : Memory) (frame sp : ℕ) : Memory := m.store (frame + 8) 8 sp

def setFrameKernelSp (m : Memory) (frame kernel_sp : ℕ) : Memory :=
  m.store (frame + 33 * 8) 8 kernel_sp

/-- `sizeof(RegFrame)`. -/
def frameSize : ℕ := 2048

def init (p : TaskMemory) (v : VirtualMemory) (need_init_kernel_info : Bool) :
    Except Fault (Bool × TaskMemory × VirtualMemory) := do
  let (frame_page, v) ← v.alloc
  if frame_page = 0 then return (false, p, v)
  let (root_page_table, v) ← v.alloc
  if root_page_table = 0 then
    return (false, p, ← v.freePages [frame_page])
  let (user_stack_page, v) ← v.alloc
  if user_stack_page = 0 then
    return (false, p, ← v.freePages [frame_page, root_page_table])
  let (mapped, v) ← v.mapPage root_page_table userStackVa user_stack_page
    (PTE.R ||| PTE.W ||| PTE.U)
  if ¬ mapped then
    return (false, p, ← v.freePages [frame_page, root_page_table, user_stack_page])
  let (kernel_sp, saved_sp, v) ← if need_init_kernel_info then do
      let (sp_page, v) ← v.alloc
      pure (sp_page, sp_page + PGSIZE, v)
    else pure (p.kernel_sp, p.saved_sp, v)
  if need_init_kernel_info ∧ kernel_sp = 0 then
    return (false, { p with frame := 0 },
      ← v.freePages [frame_page, root_page_table, user_stack_page])
  let mem := setFrameSp (setFrameKernelSp v.mem frame_page (kernel_sp + PGSIZE)) frame_page
    (userStackVa + PGSIZE)
  let p := { p with
    kernel_sp := kernel_sp
    saved_sp := saved_sp
    page_table := root_page_table
    frame := frame_page
    user_sp := user_stack_page }
  if p.console ≠ .none then return (false, p, { v with mem := mem })
  else return (true, { p with console := .device }, { v with mem := mem })

/-- The loop of `FreePageTable` over the regions, from number `i` on. -/
def freeRegions (p : TaskMemory) (v : VirtualMemory) (level i : ℕ) :
    ℕ → Except Fault VirtualMemory
  | 0 => .ok v
  | k + 1 => do
    let r ← p.region i
    let v ← v.freeMemory p.page_table r.1 r.2 level
    freeRegions p v level (i + 1) k

/-- One round of the outer loop of `FreePageTable`. -/
def freeLevel (p : TaskMemory) (v : VirtualMemory) (level : ℕ) : Except Fault VirtualMemory := do
  let v ← p.freeRegions v level 0 p.used_address_size
  v.freeMemory p.page_table userStackVa getUserSpVa level

def freePageTable (p : TaskMemory) (v : VirtualMemory) (need_free_kernel_page : Bool) :
    Except Fault VirtualMemory := do
  let v ← p.freeLevel v 3
  let v ← p.freeLevel v 2
  let v ← p.freeLevel v 1
  let v ← v.freePage p.frame
  let v ← v.freePage p.page_table
  if need_free_kernel_page then v.freePage p.kernel_sp else return v

/-- The inner loop of `CopyMemory`; `pte` is the last permission that was read. -/
def copyFrom (v : VirtualMemory) (src_root_page dst_root_page va_beg size pte : ℕ) :
    Except Fault (Bool × ℕ × VirtualMemory) :=
  if _h : size > 0 then do
    let (src_pa, pte) ← v.vaToPA src_root_page va_beg pte
    let remain_size := PGSIZE - src_pa % PGSIZE
    let len := if size > remain_size then remain_size else size
    let (mapped, v) ← v.mapMemory dst_root_page va_beg ((va_beg + len) % 2 ^ 64) pte
    if mapped then
      let (dst_pa, _) ← v.vaToPA dst_root_page va_beg 0
      copyFrom { v with mem := v.mem.copy dst_pa src_pa len } src_root_page dst_root_page
        ((addrCastDown va_beg + PGSIZE) % 2 ^ 64) (size - len) pte
    else return (false, pte, v)
  else .ok (true, pte, v)
termination_by size
decreasing_by
  have hrest : src_pa % PGSIZE < PGSIZE := Nat.mod_lt _ (by decide)
  show size - len < size
  have hlen : 0 < len := by
    show 0 < if _ : size > PGSIZE - src_pa % PGSIZE then PGSIZE - src_pa % PGSIZE else size
    split <;> omega
  omega

/-- The outer loop of `CopyMemory`, from region number `i` on. -/
def copyRegions (src : TaskMemory) (v : VirtualMemory) (dst_root_page i : ℕ) :
    ℕ → Except Fault (Bool × VirtualMemory)
  | 0 => .ok (true, v)
  | k + 1 => do
    let r ← src.region i
    let size := (r.2 + 2 ^ 64 - r.1) % 2 ^ 64
    let (copied, _, v) ← copyFrom v src.page_table dst_root_page r.1 size 0
    if copied then copyRegions src v dst_root_page (i + 1) k else return (false, v)

/-- `CopyFrom` from `src`, without the members that are not about memory. -/
def copyMemoryOf (p src : TaskMemory) (v : VirtualMemory) :
    Except Fault (Bool × TaskMemory × VirtualMemory) := do
  let (copied, v) ← copyRegions src v p.page_table 0 src.used_address_size
  if ¬ copied then return (false, p, v)
  else if src.used_address_size > 16 then .error .outOfBounds
  else
    let mem := v.mem.copy p.user_sp src.user_sp PGSIZE
    let mem := mem.copy p.frame src.frame frameSize
    let mem := setFrameKernelSp mem p.frame (p.kernel_sp + PGSIZE)
    return (true,
      { p with
        used_address := fun i =>
          if i < src.used_address_size then src.used_address i else p.used_address i
        used_address_size := src.used_address_size },
      { v with mem := mem })

end TaskMemory

end OrangeOs.Kernel
