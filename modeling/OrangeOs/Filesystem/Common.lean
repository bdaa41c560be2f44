import OrangeOs.Filesystem.InodeDef

/-! # The file-system functions

The functions of `filesystem/common.cc` as sector-exchange programs. Every call of
`BlockDevice::Operate` is one exchange. An inode that the source passes by pointer is an
argument and part of the result. An access outside an array and a call of
`kernel::panic` are faults. `junk` is what an uninitialised `IndirectBlock` on the stack
happens to hold.
-/

namespace OrangeOs.Fs

open Prog

/-- A string as the code sees it: the bytes before the terminating NUL. -/
abbrev CString := { s : List UInt8 // 0 ∉ s }

/-! ## Inodes and the super block -/

/-- The byte offset of an inode record in the inode table, in 32-bit arithmetic. -/
def inodeOffset (inode_index : ℕ) : ℕ := inode_index * INODE_ELEMENT_SIZE % 2 ^ 32

/-- The inode record at an offset of a sector. -/
def InodeDef.load (buf : Sector) (o : ℕ) : InodeDef := .ofBytes fun k => buf.byte (o + k)

def getInode (inode_index : ℕ) : FsProg InodeDef := do
  let buf ← readSector (inodeOffset inode_index / BLOCK_SIZE + 1)
  return .load buf (inodeOffset inode_index % BLOCK_SIZE)

def updateInode (inode_index : ℕ) (inode : InodeDef) : FsProg Unit := do
  let buf ← readSector (inodeOffset inode_index / BLOCK_SIZE + 1)
  writeSector (inodeOffset inode_index / BLOCK_SIZE + 1)
    (buf.patch (inodeOffset inode_index % BLOCK_SIZE) INODE_ELEMENT_SIZE inode.byte)

def getSuperNode : FsProg SuperBlock := do
  let buf ← readSector 0
  return .ofBytes buf.byte

/-! ## Directories -/

/-- The string at an offset of a sector buffer; none if it runs past the buffer. -/
def cstrAt (buf : Sector) (o : ℕ) : Option (List UInt8) :=
  let bytes := (List.range (512 - o)).map fun k => buf.byte (o + k)
  if 0 ∈ bytes then some (bytes.takeWhile (· ≠ 0)) else none

/-- `strcmp` of `lib/string.cc`: lengths first, then the first difference. -/
def strcmp (s₁ s₂ : List UInt8) : ℤ :=
  if s₁.length > s₂.length then 1
  else if s₁.length < s₂.length then -1
  else match (s₁.zip s₂).find? fun p => p.1 ≠ p.2 with
    | some p => if p.1 > p.2 then 1 else -1
    | none => 0

/-- The inner loop of `IteratorDir`, over the elements of one block. -/
def scanDirBlock (buf : Sector) (target_name : List UInt8) (size p current_offset : ℕ) :
    ℕ → Except Fault (Option ℕ)
  | 0 => .ok none
  | n + 1 =>
    if current_offset < size then
      match cstrAt buf (p + 2) with
      | none => .error .outOfBounds
      | some name =>
        if strcmp target_name name = 0 then .ok (some (leNat buf.byte p 2))
        else scanDirBlock buf target_name size (p + DIR_ELEMENT_SIZE)
          (current_offset + DIR_ELEMENT_SIZE) n
    else .ok none

/-- `IteratorDir` from a block boundary on. The source returns -1 where this returns none.
A block that ends the inner loop early ends the outer one too. -/
def iteratorDirFrom (inode : InodeDef) (target_name : List UInt8) (current_offset : ℕ) :
    FsProg (Option ℕ) :=
  if _h : current_offset < inode.size.toNat then
    let current_addr_index := current_offset / BLOCK_SIZE
    if current_addr_index < DIRECT_ADDR_SIZE then
      if inode.addrAt current_addr_index = 0 then fail .panic
      else do
        let buf ← readSector (inode.addrAt current_addr_index)
        match scanDirBlock buf target_name inode.size.toNat 0 current_offset
            (BLOCK_SIZE / DIR_ELEMENT_SIZE) with
        | .error e => fail e
        | .ok (some inum) => return some inum
        | .ok none => iteratorDirFrom inode target_name (current_offset + BLOCK_SIZE)
    else fail .outOfBounds
  else return none
termination_by inode.size.toNat - current_offset
decreasing_by simp only [BLOCK_SIZE]; omega

def iteratorDir (inode : InodeDef) (target_name : List UInt8) : FsProg (Option ℕ) :=
  iteratorDirFrom inode target_name 0

/-! ## Paths -/

/-- `'/'`. -/
def slash : UInt8 := 47

/-- A table of path components; the callers' tables have sixteen rows. -/
abbrev PathTable := ℕ → Buffer 14

def PathTable.zero : PathTable := fun _ => .ofFn fun _ => 0

/-- The first loop of `ParsePathImpl`: the starts of the components, as suffixes of the path, with
`level` of them found before. None stands for the return value -1. -/
def splitPath (level : ℕ) : List UInt8 → Except Fault (Option (List (List UInt8)))
  | [] => .ok (some [])
  | c :: p =>
    if c ≠ slash then splitPath level p
    else match p with
      | [] => .ok (some [])
      | c' :: _ =>
        if c' = slash then .ok none
        else if level < 16 then
          match splitPath (level + 1) p with
          | .ok (some paths) => .ok (some (p :: paths))
          | r => r
        else .error .outOfBounds

/-- The length that the second loop of `ParsePathImpl` computes for a component, with the starts of
the components after it. -/
def componentLen (p : List UInt8) : List (List UInt8) → ℕ
  | [] => p.length
  | q :: _ => p.length - q.length

/-- The second loop of `ParsePathImpl`: check the length of each component and copy it to its row.
False stands for the return value -1. -/
def copyPath (row : ℤ) (out_paths : PathTable) :
    List (List UInt8) → Except Fault (Bool × PathTable)
  | [] => .ok (true, out_paths)
  | p :: paths =>
    let len := componentLen p paths
    if len ≥ MAX_FILE_NAME_LEN then .ok (false, out_paths)
    else
      let len := if charAt p (len - 1) = slash then len - 1 else len
      if 0 ≤ row ∧ row < 16 then
        copyPath (row + 1) (Function.update out_paths row.toNat
          ((out_paths row.toNat).patch 0 len (charAt p))) paths
      else .error .outOfBounds

/-- `ParsePathImpl`, writing its rows from `row` on. The result is the number of components
or -1. -/
def parsePathImpl (p : List UInt8) (row : ℤ) (out_paths : PathTable) (is_relative : Bool) :
    Except Fault (ℤ × PathTable) := do
  match ← splitPath (if is_relative then 1 else 0) p with
  | none => return (-1, out_paths)
  | some starts =>
    let paths := if is_relative then p :: starts else starts
    match ← copyPath row out_paths paths with
    | (false, out_paths) => return (-1, out_paths)
    | (true, out_paths) => return (paths.length, out_paths)

/-- `ParsePath` in a process with the given current path. -/
def parsePath (current_path : List UInt8) (path_name : Option CString) (out_paths : PathTable) :
    Except Fault (ℤ × PathTable) := do
  match path_name with
  | none => return (-1, out_paths)
  | some ⟨path_name, _⟩ =>
    match path_name with
    | [] => return (-1, out_paths)
    | c :: _ =>
      if c ≠ slash then
        let (level, out_paths) ← parsePathImpl current_path 0 out_paths false
        let (level', out_paths) ← parsePathImpl path_name level out_paths true
        return (level' + level, out_paths)
      else parsePathImpl path_name 0 out_paths false

/-- `OpenImpl` over the components `paths`, from an entry inode on. The source returns -1 where this
returns none. -/
def openImpl (paths : List (List UInt8)) (entry_inode : ℕ) : FsProg (Option (ℕ × InodeDef)) :=
  match paths with
  | [] => do
    let inode ← getInode entry_inode
    return some (entry_inode, inode)
  | name :: paths => do
    let inode ← getInode entry_inode
    if inode.type ≠ .directory then return none
    match ← iteratorDir inode name with
    | none => return none
    | some inum => openImpl paths inum

/-- The first `level` rows of a path table, as strings. -/
def PathTable.rows (paths : PathTable) (level : ℕ) : List (List UInt8) :=
  (List.range level).map fun i => (paths i).cstr

/-- `Open` in a process with the given current path. -/
def openPath (current_path : List UInt8) (path_name : Option CString) :
    FsProg (Option (ℕ × InodeDef)) :=
  match parsePath current_path path_name .zero with
  | .error e => fail e
  | .ok (path_level, paths) =>
    if path_level < 0 then return none
    else openImpl (paths.rows path_level.toNat) ROOT_INODE

/-! ## Allocation -/

/-- The first clear bit of a byte. -/
def clearBit (v : UInt8) : Option ℕ :=
  (List.range 8).find? fun bit_index => bitMask bit_index &&& v = 0

/-- The loop of `AllocDataBlock` over the bytes of the bit map, from byte `i` on. -/
def scanBitmap (buf : Sector) (datablocks_count i : ℕ) : ℕ → Option (ℕ × ℕ)
  | 0 => none
  | n + 1 =>
    if i * 8 ≥ datablocks_count then none
    else if buf.byte i ≠ 0xff then
      match clearBit (buf.byte i) with
      | some bit_index => some (i, bit_index)
      | none => scanBitmap buf datablocks_count (i + 1) n
    else scanBitmap buf datablocks_count (i + 1) n

def allocDataBlock : FsProg (Bool × ℕ) := do
  let super_block ← getSuperNode
  let bmap_start := super_block.bmap_start.toNat
  let buf ← readSector bmap_start
  match scanBitmap buf super_block.datablocks_count.toNat 0 BLOCK_SIZE with
  | none => return (false, 0)
  | some (i, bit_index) =>
    let target_block_index := i * 8 + bit_index
    if target_block_index ≥ super_block.datablocks_count.toNat then return (false, 0)
    writeSector bmap_start (buf.patch i 1 fun _ => buf.byte i ||| bitMask bit_index)
    let block := (target_block_index + bmap_start + 1) % 2 ^ 32
    emit (.allocated block)
    return (true, block)

/-- The first free record of a sector of the inode table. -/
def freeSlot (buf : Sector) : Option ℕ :=
  (List.range (BLOCK_SIZE / INODE_ELEMENT_SIZE)).find? fun j =>
    (InodeDef.load buf (j * INODE_ELEMENT_SIZE)).type = .none

/-- The loop of `AllocInode`, from sector `i` of the inode table on. -/
def allocInodeFrom (inode_start i : ℕ) : ℕ → FsProg (Bool × ℕ)
  | 0 => return (false, 0)
  | n + 1 => do
    let buf ← readSector (inode_start + i)
    match freeSlot buf with
    | some j => return (true, i * (BLOCK_SIZE / INODE_ELEMENT_SIZE) + j)
    | none => allocInodeFrom inode_start (i + 1) n

def allocInode : FsProg (Bool × ℕ) := do
  let super_block ← getSuperNode
  allocInodeFrom super_block.inode_start.toNat 0
    (super_block.inodes_count.toNat * INODE_ELEMENT_SIZE % 2 ^ 32 / BLOCK_SIZE)

/-! ## Writing -/

/-- Word `k` of an indirect block. -/
def indirectWord (buf : Sector) (k : ℕ) : ℕ := (wordAt buf.byte (4 * k)).toNat

/-- Assign word `k` of an indirect block. -/
def setIndirectWord (buf : Sector) (k b : ℕ) : Sector := buf.patch (4 * k) 4 (leByte b)

/-- Write a block that belongs to a file. -/
def writeFileBlock (b : ℕ) (s : Sector) : FsProg Unit := do
  emit (.fileBlock b)
  writeSector b s

@[simp] theorem run_writeFileBlock (b : ℕ) (s : Sector) (d : Disk) :
    (writeFileBlock b s).run d = (.ok (), Function.update d b s) := rfl

/-- The first part of `WriteImpl`: the block that holds block index `addr_index` of the file,
allocated if there is none. The source returns false where this returns none. -/
def writeBlock (junk : Sector) (inode : InodeDef) (addr_index : ℕ) :
    FsProg (Option ℕ × InodeDef) := do
  if addr_index < DIRECT_ADDR_SIZE then
    if inode.addrAt addr_index = 0 then
      match ← allocDataBlock with
      | (false, _) => return (none, inode)
      | (true, new_block) => return (some new_block, inode.setAddr addr_index new_block)
    else return (some (inode.addrAt addr_index), inode)
  else if inode.indirect_addr.toNat = 0 then
    let indirect_block_index ← allocDataBlock
    let data_block_index ← allocDataBlock
    if indirect_block_index.1 ∧ data_block_index.1 then
      let inode := { inode with indirect_addr := .ofNat indirect_block_index.2 }
      -- only word 0 of the new indirect block is assigned
      writeFileBlock indirect_block_index.2 (setIndirectWord junk 0 data_block_index.2)
      return (some data_block_index.2, inode)
    else return (none, inode)
  else
    let indirect_block ← readSector inode.indirect_addr.toNat
    if addr_index - DIRECT_ADDR_SIZE < 128 then
      let target := indirectWord indirect_block (addr_index - DIRECT_ADDR_SIZE)
      if target = 0 then
        match ← allocDataBlock with
        | (false, _) => return (none, inode)
        | (true, new_block) =>
          writeFileBlock inode.indirect_addr.toNat
            (setIndirectWord indirect_block (addr_index - DIRECT_ADDR_SIZE) new_block)
          return (some new_block, inode)
      else return (some target, inode)
    else fail .outOfBounds

/-- The second part of `WriteImpl`: put the bytes into the block. -/
def writeData (target : ℕ) (buf : List UInt8) (pos : ℕ) : FsProg Unit := do
  if buf.length ≠ BLOCK_SIZE then
    let data ← readSector target
    writeFileBlock target (data.patch (pos % BLOCK_SIZE) buf.length (charAt buf))
  else writeFileBlock target (.ofFn (charAt buf))

def writeImpl (junk : Sector) (inode : InodeDef) (buf : List UInt8) (pos : ℕ) :
    FsProg (Bool × InodeDef) := do
  match ← writeBlock junk inode (pos / BLOCK_SIZE % 2 ^ 32) with
  | (none, inode) => return (false, inode)
  | (some target_data_block_index, inode) =>
    writeData target_data_block_index buf pos
    if pos + buf.length > inode.size.toNat then
      let inode := { inode with size := .ofNat (pos + buf.length) }
      updateInode inode.inode_index.toNat inode
      return (true, inode)
    return (true, inode)

/-- The loop of `Write`, with `done` bytes written before. -/
def writeFrom (junk : Sector) (inode : InodeDef) (buf : List UInt8) (pos done : ℕ) :
    FsProg (ℕ × InodeDef) :=
  if _h : buf.length > 0 then do
    let remain_size := min buf.length (BLOCK_SIZE - pos % BLOCK_SIZE)
    match ← writeImpl junk inode (buf.take remain_size) pos with
    | (false, inode) => return (done, inode)
    | (true, inode) =>
      writeFrom junk inode (buf.drop remain_size) (pos + remain_size) (done + remain_size)
  else return (done, inode)
termination_by buf.length
decreasing_by
  have hp : pos % 512 < 512 := Nat.mod_lt _ (by omega)
  simp only [List.length_drop, BLOCK_SIZE]
  omega

def write (junk : Sector) (inode : InodeDef) (buf : List UInt8) (pos : ℕ) :
    FsProg (ℕ × InodeDef) :=
  if pos > inode.size.toNat then return (0, inode) else writeFrom junk inode buf pos 0

/-! ## Creating files -/

/-- The bytes of a directory element with the given number and name. -/
def dirElement (inum : ℕ) (name : List UInt8) : List UInt8 :=
  let dir : DirElement := ⟨.ofNat inum, .ofFn (charAt name)⟩
  (List.range DIR_ELEMENT_SIZE).map dir.byte

def createImpl (junk : Sector) (inode_index : ℕ) (type : FileType) (name : List UInt8)
    (major minor : UInt8) : FsProg (Bool × InodeDef) := do
  if name.length > MAX_FILE_NAME_LEN then return (false, {})
  let inode ← getInode inode_index
  if inode.type ≠ .directory then return (false, {})
  match ← allocInode with
  | (false, _) => return (false, {})
  | (true, new_inode) =>
    let _ ← write junk inode (dirElement new_inode name) inode.size.toNat
    let target_inode : InodeDef :=
      { inode_index := .ofNat new_inode
        type := type
        link_count := 1
        major := if type = .device then major else 0
        minor := if type = .device then minor else 0 }
    updateInode new_inode target_inode
    emit (.created new_inode)
    return (true, target_inode)

/-- The loop of `Create` over the components left, with `inode` the last one opened or created and
`junk i` the stack contents at level `i`. None stands for the return value false. -/
def createFrom (junk : ℕ → Sector) (type : FileType) (major minor : UInt8) (i : ℕ)
    (entry_inode : ℕ) (inode : InodeDef) : List (List UInt8) → FsProg (Option InodeDef)
  | [] => return some inode
  | name :: paths => do
    match ← openImpl [name] entry_inode with
    | none =>
      match ← createImpl (junk i) entry_inode (if paths = [] then type else .directory) name
          major minor with
      | (false, _) => return none
      | (true, inode) =>
        createFrom junk type major minor (i + 1) inode.inode_index.toNat inode paths
    | some (inum, inode) =>
      if paths = [] ∧ inode.type ≠ type then return none
      createFrom junk type major minor (i + 1) inum inode paths

/-- `Create` in a process with the given current path. The result is what it stores to
`target_inode` when it returns true. -/
def create (junk : ℕ → Sector) (current_path : List UInt8) (path_name : Option CString)
    (type : FileType) (major minor : UInt8) : FsProg (Option InodeDef) :=
  match parsePath current_path path_name .zero with
  | .error e => fail e
  | .ok (path_level, paths) =>
    if path_level < 0 then return none
    else createFrom junk type major minor 0 ROOT_INODE {} (paths.rows path_level.toNat)

end OrangeOs.Fs
