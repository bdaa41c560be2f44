import OrangeOs.Filesystem.Disk

/-! # Building an image

The host program `filesystem/mkfs.cc`. The image is a file of bytes, which the program fills with
`seekp` and `write`; positions are computed in 32-bit arithmetic where the source does so. The list
of accesses is not in the program: it records the places that the program assigns or
writes, and nothing reads it. An assignment outside an array is recorded and otherwise ignored.
-/

namespace OrangeOs.Fs

/-- The bytes of the image file; a byte that was never written is zero. -/
abbrev Image := ℕ → UInt8

/-- `seekp` and `write`. -/
def Image.put (fs_img : Image) (pos len : ℕ) (buf : ℕ → UInt8) : Image := fun p =>
  if pos ≤ p ∧ p < pos + len then buf (p - pos) else fs_img p

/-- The device that the kernel finds when it is given the image. -/
def Image.disk (fs_img : Image) : Disk := fun b => .ofFn fun o => fs_img (512 * b + o)

/-- An argument of the command line: the path, and the contents if the file can be opened. -/
structure HostFile where
  path : CString
  contents : Option (List UInt8)

/-- `path.filename()`: what follows the last slash. -/
def HostFile.fileName (file : HostFile) : List UInt8 :=
  (file.path.1.reverse.takeWhile (· ≠ slash)).reverse

/-- What the program assigns or writes: an inode record at a position of the image, a byte of the bit
map, a block, a slot of the root directory. -/
inductive Access where
  | inodeRecord (pos : ℕ)
  | bitMap (byte_index : ℕ)
  | block (b : ℕ)
  | rootAddr (cur_root_data_index : ℕ)
  deriving DecidableEq, Repr

/-- The variables of `main` and the array `bit_map`. -/
structure Mkfs where
  fs_img : Image
  bit_map : Sector
  cur_data_block : ℕ
  cur_inode_index : ℕ
  root_inode : InodeDef
  accesses : List Access

def maxSupportFileSize : ℕ := (DIRECT_ADDR_SIZE + BLOCK_SIZE / 4) * BLOCK_SIZE

/-- `FSMAGIC` as a little-endian word. -/
def fsMagic : UInt32 := 0x6e61726f

/-- The super block of an image of the given size. -/
def superBlock (size : ℕ) : SuperBlock :=
  let inode_start : UInt32 := 1
  let inodes_count : UInt32 := .ofNat INODE_TABLE_SIZE
  let bmap_start : UInt32 :=
    inode_start + inodes_count * .ofNat INODE_ELEMENT_SIZE / .ofNat BLOCK_SIZE
  { magic := fsMagic
    size := .ofNat size
    datablocks_count := .ofNat size - bmap_start - 1
    inodes_count := inodes_count
    inode_start := inode_start
    bmap_start := bmap_start }

namespace Mkfs

variable (super_block : SuperBlock)

def access (s : Mkfs) (a : Access) : Mkfs := { s with accesses := a :: s.accesses }

def put (s : Mkfs) (pos len : ℕ) (buf : ℕ → UInt8) : Mkfs :=
  { s with fs_img := s.fs_img.put pos len buf }

def updateBitMap (s : Mkfs) (cur_data_block : ℕ) : Mkfs :=
  let byte_index := (cur_data_block - super_block.bmap_start.toNat - 1) / 8
  let byte_remain := (cur_data_block - super_block.bmap_start.toNat - 1) % 8
  let s := s.access (.bitMap byte_index)
  let v := s.bit_map.byte byte_index ||| bitMask byte_remain
  let s := { s with bit_map := s.bit_map.patch byte_index 1 fun _ => v }
  s.put (super_block.bmap_start.toNat * BLOCK_SIZE + byte_index) 1 fun _ => v

/-- Mark the current block and go on to the next. -/
def nextBlock (s : Mkfs) : Mkfs :=
  { updateBitMap super_block s s.cur_data_block with cur_data_block := s.cur_data_block + 1 }

/-- Give the root directory a block for its next element, if it has none. -/
def rootBlock (s : Mkfs) (cur_root_data_index : ℕ) : Mkfs :=
  let s := s.access (.rootAddr cur_root_data_index)
  if s.root_inode.addrAt cur_root_data_index = 0 then
    let s := s.access (.block s.cur_data_block)
    nextBlock super_block
      { s with root_inode := s.root_inode.setAddr cur_root_data_index s.cur_data_block }
  else s

/-- Add the directory element of the current inode to the root directory. -/
def addDirElement (s : Mkfs) (file_name : List UInt8) : Mkfs :=
  let cur_root_data_index := s.root_inode.size.toNat / BLOCK_SIZE
  let s := rootBlock super_block s cur_root_data_index
  let cur_inode_data_offset := s.root_inode.size.toNat % BLOCK_SIZE
  let s := s.put ((s.root_inode.addrAt cur_root_data_index * BLOCK_SIZE + cur_inode_data_offset)
    % 2 ^ 32) DIR_ELEMENT_SIZE (charAt (dirElement s.cur_inode_index file_name))
  { s with root_inode :=
      { s.root_inode with size := s.root_inode.size + .ofNat DIR_ELEMENT_SIZE } }

/-- Give the current block to block index `cur_data_index` of a file. -/
def assignBlock (s : Mkfs) (inode : InodeDef) (indirect_block : Sector) (cur_data_index : ℕ) :
    Mkfs × InodeDef × Sector :=
  if cur_data_index < DIRECT_ADDR_SIZE then
    (s.access (.block s.cur_data_block), inode.setAddr cur_data_index s.cur_data_block,
      indirect_block)
  else
    let (s, inode) := if inode.indirect_addr = 0 then
        (nextBlock super_block (s.access (.block s.cur_data_block)),
          { inode with indirect_addr := .ofNat s.cur_data_block })
      else (s, inode)
    (s.access (.block s.cur_data_block), inode,
      setIndirectWord indirect_block (cur_data_index - DIRECT_ADDR_SIZE) s.cur_data_block)

/-- The loop over the blocks of a file, with the bytes that are left to read. The end of the buffer
keeps its bytes when the last block is short. -/
def copyBlocks (s : Mkfs) (inode : InodeDef) (indirect_block buf : Sector)
    (total_processed_size : ℕ) (file : List UInt8) : Mkfs × InodeDef × Sector :=
  if _h : file.length > 0 then
    let cur_size := min file.length BLOCK_SIZE
    let buf := buf.patch 0 cur_size (charAt file)
    let (s, inode, indirect_block) :=
      assignBlock super_block s inode indirect_block (total_processed_size / BLOCK_SIZE)
    let s := s.put (s.cur_data_block * BLOCK_SIZE % 2 ^ 32) BLOCK_SIZE buf.byte
    copyBlocks (nextBlock super_block s) inode indirect_block buf (total_processed_size + cur_size)
      (file.drop BLOCK_SIZE)
  else (s, inode, indirect_block)
termination_by file.length
decreasing_by simp only [List.length_drop, BLOCK_SIZE]; omega

/-- Write the inode record with a given index. -/
def putInode (s : Mkfs) (inode_index : ℕ) (inode : InodeDef) : Mkfs :=
  let pos := inode_index * INODE_ELEMENT_SIZE + super_block.inode_start.toNat * BLOCK_SIZE
  (s.access (.inodeRecord pos)).put pos INODE_ELEMENT_SIZE inode.byte

/-- The inode of a file before it has blocks. -/
def newFile (cur_inode_index file_size : ℕ) : InodeDef where
  type := .regular_file
  size := .ofNat file_size
  link_count := 1
  inode_index := .ofNat cur_inode_index

/-- Write the indirect block of a file that has one. -/
def putIndirect (s : Mkfs) (inode : InodeDef) (indirect_block : Sector) : Mkfs :=
  if indirectWord indirect_block 0 ≠ 0 then
    s.put (inode.indirect_addr.toNat * BLOCK_SIZE % 2 ^ 32) BLOCK_SIZE indirect_block.byte
  else s

/-- The body of the loop over the files, after the checks. -/
def addFile (s : Mkfs) (file_name file : List UInt8) : Mkfs :=
  let inode := newFile s.cur_inode_index file.length
  let s := addDirElement super_block s file_name
  let (s, inode, indirect_block) :=
    copyBlocks super_block s inode (.ofFn fun _ => 0) (.ofFn fun _ => 0) 0 file
  let s := putInode super_block s s.cur_inode_index inode
  let s := s.putIndirect inode indirect_block
  { s with cur_inode_index := s.cur_inode_index + 1 }

/-- The loop over the files. -/
def addFiles (s : Mkfs) : List HostFile → Mkfs
  | [] => s
  | file :: files =>
    if s.cur_data_block - super_block.bmap_start.toNat > super_block.datablocks_count.toNat then s
    else match file.contents with
      | none => addFiles s files
      | some contents =>
        if contents.length > maxSupportFileSize then addFiles s files
        else if file.fileName.length ≥ MAX_FILE_NAME_LEN then addFiles s files
        else addFiles (addFile super_block s file.fileName contents) files

/-- The image before the first file: blocks of zeros and the super block. -/
def start : Mkfs where
  fs_img :=
    let fs_img : Image := (List.range super_block.size.toNat).foldl
      (fun fs_img i => fs_img.put (i * BLOCK_SIZE % 2 ^ 32) BLOCK_SIZE fun _ => 0) fun _ => 0
    fs_img.put 0 24 super_block.byte
  bit_map := .ofFn fun _ => 0
  cur_data_block := super_block.bmap_start.toNat + 1
  cur_inode_index := 1
  root_inode := { type := .directory, link_count := 1, inode_index := .ofNat ROOT_INODE }
  accesses := []

end Mkfs

/-- `main`, with the image size and the files of the command line. -/
def mkfs (size : ℕ) (files : List HostFile) : Mkfs :=
  let super_block := superBlock size
  let s := Mkfs.addFiles super_block (Mkfs.start super_block) files
  s.putInode super_block ROOT_INODE s.root_inode

end OrangeOs.Fs
