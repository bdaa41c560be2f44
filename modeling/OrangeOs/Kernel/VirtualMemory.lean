import OrangeOs.Library.Exchange
import OrangeOs.Library.LinkedList
import OrangeOs.Library.Memory

/-! # Physical pages

The page allocator of `kernel/virtual_memory.cc`. A free page holds a node of `memory_list_`, a doubly
linked list, in its first 24 bytes, and has its bit in `bit_map_` clear. Addresses are numbers, the
null pointer is 0. An access to `bit_map_` outside the array and a call of `kernel::panic` are
faults.
-/

namespace OrangeOs.Kernel

def PGSIZE : ℕ := 4096
def KERNEL_BASE : ℕ := 0x80000000
def MEMORY_END : ℕ := KERNEL_BASE + 128 * 1024 * 1024

/-- The members of `VirtualMemory` and `MemoryList`, with the memory that they manage; `self` is the
address of `memory_list_`. -/
structure VirtualMemory where
  mem : Memory
  self : UInt64
  has_init_ : Bool
  head_ : ℕ
  tail_ : ℕ
  size_ : ℕ
  bit_map_ : Buffer 4096

/-! ## `MemoryChunk` and `MemoryList` -/

/-- The member `next` of a chunk. -/
def next (m : Memory) (chunk : ℕ) : ℕ := m.load chunk 8

/-- The member `previous` of a chunk. -/
def previous (m : Memory) (chunk : ℕ) : ℕ := m.load (chunk + 8) 8

/-- The member `identify` of a chunk. -/
def identify (m : Memory) (chunk : ℕ) : ℕ := m.load (chunk + 16) 8

def setNext (m : Memory) (chunk p : ℕ) : Memory := m.store chunk 8 p

def setPrevious (m : Memory) (chunk p : ℕ) : Memory := m.store (chunk + 8) 8 p

def setIdentify (m : Memory) (chunk p : ℕ) : Memory := m.store (chunk + 16) 8 p

inductive BitMapAction where
  | alloc
  | free
  deriving DecidableEq

namespace VirtualMemory

def push (v : VirtualMemory) (chunk : ℕ) : VirtualMemory :=
  let mem := setIdentify (setPrevious (setNext v.mem chunk v.head_) chunk 0) chunk v.self.toNat
  if v.head_ = 0 then
    { v with mem := mem, tail_ := chunk, head_ := chunk, size_ := v.size_ + 1 }
  else
    { v with mem := setPrevious mem v.head_ chunk, head_ := chunk, size_ := v.size_ + 1 }

def pop (v : VirtualMemory) : ℕ × VirtualMemory :=
  let t := v.head_
  if t = 0 then (0, v)
  else
    let head := next v.mem t
    if head = 0 then (t, { v with head_ := head, size_ := v.size_ - 1, tail_ := 0 })
    else (t, { v with head_ := head, size_ := v.size_ - 1, mem := setPrevious v.mem head 0 })

/-- The first part of `Erase`: unlink the chunk from its successor. -/
def eraseNext (v : VirtualMemory) (chunk : ℕ) : Option VirtualMemory :=
  if next v.mem chunk = 0 then
    if chunk ≠ v.tail_ then none else some { v with tail_ := previous v.mem chunk }
  else some { v with mem := setPrevious v.mem (next v.mem chunk) (previous v.mem chunk) }

/-- The second part of `Erase`: unlink the chunk from its predecessor. -/
def erasePrevious (v : VirtualMemory) (chunk : ℕ) : Option VirtualMemory :=
  if previous v.mem chunk = 0 then
    if chunk ≠ v.head_ then none else some { v with head_ := next v.mem chunk }
  else some { v with mem := setNext v.mem (previous v.mem chunk) (next v.mem chunk) }

def erase (v : VirtualMemory) (chunk : ℕ) : Bool × VirtualMemory :=
  if identify v.mem chunk ≠ v.self.toNat ∨ next v.mem chunk = 0 ∧ previous v.mem chunk = 0 then
    (false, v)
  else match v.eraseNext chunk with
    | none => (false, v)
    | some v => match v.erasePrevious chunk with
      | none => (false, v)
      | some v => (true, { v with size_ := v.size_ - 1 })

/-! ## `VirtualMemory` -/

/-- The index of the page of an address, in 64-bit arithmetic. -/
def pageIndex (pa : ℕ) : ℕ := (pa + 2 ^ 64 - KERNEL_BASE) % 2 ^ 64 / PGSIZE

def updateBitMap (v : VirtualMemory) (pa : ℕ) (action : BitMapAction) :
    Except Fault VirtualMemory :=
  let page_index := pageIndex pa
  let byte := v.bit_map_.byte (page_index / 8)
  if page_index / 8 < 4096 then
    .ok { v with bit_map_ := v.bit_map_.patch (page_index / 8) 1 fun _ => match action with
      | .alloc => byte ||| bitMask (page_index % 8)
      | .free => byte &&& ~~~ bitMask (page_index % 8) }
  else .error .outOfBounds

/-- `memset` of a page. -/
def clear (v : VirtualMemory) (pa : ℕ) : VirtualMemory := { v with mem := v.mem.fill pa 0 PGSIZE }

/-- The loop of `Init` over the free pages. -/
def pushFrom (v : VirtualMemory) (i : ℕ) : VirtualMemory :=
  if _h : i < MEMORY_END then pushFrom (v.push i) (i + PGSIZE) else v
termination_by MEMORY_END - i
decreasing_by simp only [PGSIZE]; omega

/-- The loop of `Init` over the pages of the kernel. -/
def markFrom (v : VirtualMemory) (beg i : ℕ) : Except Fault VirtualMemory :=
  if _h : i < beg then do
    let v ← v.updateBitMap i .alloc
    markFrom v beg (i + PGSIZE)
  else .ok v
termination_by beg - i
decreasing_by simp only [PGSIZE]; omega

/-- `Init`, with the free pages from `beg` on. -/
def init (v : VirtualMemory) (beg : ℕ) : Except Fault (Bool × VirtualMemory) :=
  if v.has_init_ then .ok (false, v)
  else
    let v := { v with has_init_ := true }
    if beg % PGSIZE ≠ 0 then .ok (false, v)
    else do
      let v := v.pushFrom beg
      let v ← markFrom { v with bit_map_ := .ofFn fun _ => 0 } beg KERNEL_BASE
      return (true, v)

def alloc (v : VirtualMemory) : Except Fault (ℕ × VirtualMemory) := do
  let (t, v) := v.pop
  let v ← (v.clear t).updateBitMap t .alloc
  return (t, v)

/-- The test of `AllocContinuousPage` at byte `b`, where the byte after it in the order of the search
is byte `b - 1`. -/
def windowFree (bit_map_ : Buffer 4096) (t_mask b : ℕ) : Except Fault Bool :=
  if (bit_map_.byte b).toNat &&& (t_mask >>> 8) ≠ 0 then .ok false
  else if t_mask &&& 0xff = 0 then .ok true
  else if b = 0 then .error .outOfBounds
  else .ok ((bit_map_.byte (b - 1)).toNat &&& (t_mask * 0xff) = 0)

/-- The inner loop of `AllocContinuousPage`, over `k` shifts from `i` on. -/
def findInByte (bit_map_ : Buffer 4096) (mask b i : ℕ) : ℕ → Except Fault (Option ℕ)
  | 0 => .ok none
  | k + 1 => do
    if ← windowFree bit_map_ (mask >>> i) b then return some i
    else findInByte bit_map_ mask b (i + 1) k

/-- The outer loop of `AllocContinuousPage`, over the first bytes of the map from the last of them
on. -/
def findWindow (bit_map_ : Buffer 4096) (mask : ℕ) : ℕ → Except Fault (Option (ℕ × ℕ))
  | 0 => .ok none
  | b + 1 => do
    match ← findInByte bit_map_ mask b 0 8 with
    | some i => return some (b, i)
    | none => findWindow bit_map_ mask b

/-- The loop of `AllocContinuousPage` over the pages that it has found, `k` of them from number `j`
on. -/
def takePages (v : VirtualMemory) (page_index j : ℕ) : ℕ → Except Fault VirtualMemory
  | 0 => .ok v
  | k + 1 => do
    let m := (page_index + j) * PGSIZE + KERNEL_BASE
    let v ← v.updateBitMap m .alloc
    takePages ((v.erase m).2.clear m) page_index (j + 1) k

def allocContinuousPage (v : VirtualMemory) (n : ℕ) : Except Fault (ℕ × VirtualMemory) :=
  if n > 8 then .ok (0, v)
  else do
    let mask := (((1 <<< n) - 1) <<< (16 - n)) % 2 ^ 16
    match ← findWindow v.bit_map_ mask 4096 with
    | none => return (0, v)
    | some (b, i) =>
      let page_index := b * 8 + 8 - n - i
      let v ← v.takePages page_index 0 n
      return (page_index * PGSIZE + KERNEL_BASE, v)

/-- `FreePage` of one page. -/
def freePage (v : VirtualMemory) (pa : ℕ) : Except Fault VirtualMemory :=
  if pa = 0 then .error .panic else (v.push pa).updateBitMap pa .free

end VirtualMemory

end OrangeOs.Kernel
