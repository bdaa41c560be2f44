import OrangeOs.Library.CyclicOrder
import OrangeOs.Library.Memory

/-! # The heap of a process

The allocator of `lib/memory.cc`. Blocks are counted in units of 24 bytes, the size of a header, and
start with a header. The free ones form a circular list through their headers, with `base` among
them. Both loops of the source are endless; here they have fuel. `sbrk` is a parameter. The log of a
search is not in the source and records what it looks at.
-/

namespace OrangeOs.Lib

namespace Header

/-- The member `next` of a header. -/
def next (m : Memory) (p : ℕ) : ℕ := m.load p 8

/-- The member `size` of a header. -/
def size (m : Memory) (p : ℕ) : ℕ := m.load (p + 8) 4

/-- The member `data` of a header. -/
def data (m : Memory) (p : ℕ) : ℕ := m.load (p + 16) 8

def setNext (m : Memory) (p v : ℕ) : Memory := m.store p 8 v

def setSize (m : Memory) (p v : ℕ) : Memory := m.store (p + 8) 4 v

def setData (m : Memory) (p v : ℕ) : Memory := m.store (p + 16) 8 v

/-- `p + n` for a pointer to a header. -/
def after (p n : ℕ) : ℕ := (p + 24 * n) % 2 ^ 64

def makeHeader (m : Memory) (addr n : ℕ) : Memory := setData (setSize m addr n) addr (after addr 1)

end Header

/-- The members of `MemManager`, with the memory and what `sbrk` works on; `base` is the address of the
member. -/
structure MemManager (σ : Type) where
  mem : Memory
  os : σ
  base : ℕ
  free_list : ℕ

/-- What a search does: it looks at a block, or it calls `GrowHeader`. -/
inductive Event where
  | look (p : ℕ)
  | grow
  deriving DecidableEq

namespace MemManager

open Header

variable {σ : Type}

/-- The constructor, in zeroed memory. -/
def construct (base : ℕ) (os : σ) (m : Memory) : MemManager σ :=
  ⟨setSize (setNext m base base) base 1, os, base, base⟩

/-! ## `FreeBlock` -/

/-- The loop of `FreeBlock`. -/
def freeSearch (m : Memory) (block : ℕ) : ℕ → ℕ → Option ℕ
  | 0, _ => none
  | fuel + 1, p =>
    if p < block ∧ block < next m p then some p
    else if next m p ≤ p ∧ (p < block ∨ block < next m p) then some p
    else freeSearch m block fuel (next m p)

/-- Links a block to what follows it, and takes that in if the block ends there. -/
def linkNext (m : Memory) (p block : ℕ) : Memory :=
  if after block (size m block) = next m p then
    let m := setSize m block (size m block + size m (next m p))
    setNext m block (next m (next m p))
  else setNext m block (next m p)

/-- Links the predecessor to a block, or lets it take in the block if it ends there. -/
def linkPrevious (m : Memory) (p block : ℕ) : Memory :=
  if after p (size m p) = block then
    let m := setSize m p (size m p + size m block)
    setNext m p (next m block)
  else setNext m p block

def freeBlock (h : MemManager σ) (fuel block : ℕ) : Option (MemManager σ) := do
  let p ← freeSearch h.mem block fuel h.free_list
  return { h with mem := linkPrevious (linkNext h.mem p block) p block, free_list := p }

/-! ## `FindFirstFitBlock` -/

variable (sbrk : ℕ → σ → Memory → ℕ × σ × Memory)

def growHeader (h : MemManager σ) (fuel unites : ℕ) : Option (Bool × MemManager σ) := do
  let unites_per_3_page := 3 * 4096 / 24
  let unites := if unites < unites_per_3_page then unites_per_3_page else unites
  let (addr, os, mem) := sbrk (unites * 24 % 2 ^ 32) h.os h.mem
  if addr = 0 then return (false, { h with mem := mem, os := os })
  else
    let h ← freeBlock { h with mem := makeHeader mem addr unites, os := os } fuel addr
    return (true, h)

/-- The end of the search, at a block that is large enough. -/
def takeBlock (h : MemManager σ) (unites pre_p p : ℕ) : ℕ × MemManager σ :=
  if size h.mem p = unites then
    let h := { h with mem := setNext h.mem pre_p (next h.mem p), free_list := pre_p }
    (data h.mem p, h)
  else
    let m := setSize h.mem p (size h.mem p - unites)
    let q := after p (size m p)
    let m := makeHeader m q unites
    (data m q, { h with mem := m, free_list := p })

/-- The loop of `FindFirstFitBlock`; each turn has `grow` for the search that `GrowHeader` makes. -/
def findFrom (unites grow : ℕ) : ℕ → MemManager σ → ℕ → ℕ → Option (ℕ × MemManager σ × List Event)
  | 0, _, _, _ => none
  | fuel + 1, h, pre_p, p =>
    if unites ≤ size h.mem p then
      let (addr, h) := takeBlock h unites pre_p p
      some (addr, h, [.look p])
    else if p = h.free_list then do
      let (grown, h) ← growHeader sbrk h grow unites
      if grown then
        let (addr, h, log) ← findFrom unites grow fuel h h.free_list (next h.mem h.free_list)
        return (addr, h, .look p :: .grow :: log)
      else return (0, h, [.look p, .grow])
    else do
      let (addr, h, log) ← findFrom unites grow fuel h p (next h.mem p)
      return (addr, h, .look p :: log)

def findFirstFitBlock (h : MemManager σ) (fuel unites : ℕ) : Option (ℕ × MemManager σ × List Event) :=
  findFrom sbrk unites fuel fuel h h.free_list (next h.mem h.free_list)

/-! ## `malloc` and `free` -/

/-- The number of units of a request, in 64-bit arithmetic and then in 32 bits. -/
def unitsOf (bytes : ℕ) : ℕ := ((bytes + 24 - 1) / 24 + 1) % 2 ^ 32

def malloc (h : MemManager σ) (fuel bytes : ℕ) : Option (ℕ × MemManager σ × List Event) :=
  findFirstFitBlock sbrk h fuel (unitsOf bytes)

/-- The header of a pointer that `free` is given. -/
def headerOf (addr : ℕ) : ℕ := (addr + 2 ^ 64 - 24) % 2 ^ 64

/-- The test of `free`. -/
def accepts (m : Memory) (addr : ℕ) : Prop :=
  addr ≠ 0 ∧ data m (headerOf addr) = addr ∧ size m (headerOf addr) ≠ 0

instance (m : Memory) (addr : ℕ) : Decidable (accepts m addr) := inferInstanceAs (Decidable (_ ∧ _))

/-- `free`; the inner result is missing when it ends the process. -/
def free (h : MemManager σ) (fuel addr : ℕ) : Option (Option (MemManager σ)) :=
  if accepts h.mem addr then (h.freeBlock fuel (headerOf addr)).map some else some none

end MemManager

end OrangeOs.Lib
