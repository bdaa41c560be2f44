import OrangeOs.Library.Bytes
import OrangeOs.Library.Exchange

/-! # The on-disk format

The constants and structures of `filesystem/inode_def.h`. Every structure has a byte
image, which is what `reinterpret_cast` of a sector buffer reads and writes; the packed
inode record takes 64 bytes, a directory element 16 and the super block 24.
-/

namespace OrangeOs.Fs

def BLOCK_SIZE : ℕ := 512
def DIRECT_ADDR_SIZE : ℕ := 12
def DIR_ELEMENT_SIZE : ℕ := 16
def INODE_ELEMENT_SIZE : ℕ := 64
def INODE_TABLE_SIZE : ℕ := 320
def MAX_FILE_NAME_LEN : ℕ := 14
def ROOT_INODE : ℕ := 0

-- Proofs work with the numbers; `simp` replaces the names.
attribute [simp] BLOCK_SIZE DIRECT_ADDR_SIZE DIR_ELEMENT_SIZE INODE_ELEMENT_SIZE
  INODE_TABLE_SIZE MAX_FILE_NAME_LEN ROOT_INODE

/-- The contents of one block of the device. -/
abbrev Sector := Buffer 512

/-- The contents of the device, block by block. -/
abbrev Disk := ℕ → Sector

/-- What a file-system program reports while it runs: the block that `AllocDataBlock` took, the
inode that `CreateImpl` made, the block of a file that is about to be written. -/
inductive Event where
  | allocated (block : ℕ)
  | created (inode_index : ℕ)
  | fileBlock (block : ℕ)
  deriving DecidableEq, Repr

/-- The programs of the file system. -/
abbrev FsProg := Prog Sector Event

/-- `fs::FileType`. The enumeration has a fixed underlying type, so that a byte
which is no enumerator is a value too. -/
inductive FileType where
  | none
  | directory
  | regular_file
  | device
  | other (code : Fin 252)
  deriving DecidableEq, Repr

namespace FileType

def toByte : FileType → UInt8
  | none => 0
  | directory => 1
  | regular_file => 2
  | device => 3
  | other code => UInt8.ofNat (code + 4)

def ofByte (v : UInt8) : FileType :=
  if v = 0 then none
  else if v = 1 then directory
  else if v = 2 then regular_file
  else if h : v.toNat < 4 then device
  else other ⟨v.toNat - 4, by have := v.toNat_lt; omega⟩

theorem ofByte_of_four_le {v : UInt8} {code : Fin 252} (h : v.toNat = code + 4) :
    ofByte v = other code := by
  have hne : ∀ w : UInt8, w.toNat < 4 → v ≠ w := by
    rintro w hw rfl
    omega
  unfold ofByte
  rw [if_neg (hne 0 (by decide)), if_neg (hne 1 (by decide)), if_neg (hne 2 (by decide)),
    dif_neg (by omega)]
  simp only [h, Nat.add_sub_cancel]

@[simp] theorem ofByte_toByte (t : FileType) : ofByte t.toByte = t := by
  cases t with
  | other code =>
    have hc := code.isLt
    apply ofByte_of_four_le
    rw [toByte, UInt8.toNat_ofNat', Nat.mod_eq_of_lt (by omega)]
  | _ => rfl

end FileType

/-- The word of four bytes at offset `o`. -/
def wordAt (m : ℕ → UInt8) (o : ℕ) : UInt32 := UInt32.ofNat (leNat m o 4)

theorem wordAt_of_leByte {m : ℕ → UInt8} {o : ℕ} {v : UInt32}
    (h : ∀ k < 4, m (o + k) = leByte v.toNat k) : wordAt m o = v := by
  have hv := v.toNat_lt
  rw [wordAt, leNat_of_leByte h, Nat.mod_eq_of_lt (by omega), UInt32.ofNat_toNat]

theorem wordAt_congr {m m' : ℕ → UInt8} {o o' : ℕ} (h : ∀ k < 4, m (o + k) = m' (o' + k)) :
    wordAt m o = wordAt m' o' := by
  rw [wordAt, wordAt, leNat_congr h]

/-- `fs::SuperBlock`. -/
structure SuperBlock where
  magic : UInt32
  size : UInt32
  datablocks_count : UInt32
  inodes_count : UInt32
  inode_start : UInt32
  bmap_start : UInt32
  deriving DecidableEq, Repr

namespace SuperBlock

/-- The byte image of a super block. -/
def byte (x : SuperBlock) (o : ℕ) : UInt8 :=
  if o < 4 then leByte x.magic.toNat o
  else if o < 8 then leByte x.size.toNat (o - 4)
  else if o < 12 then leByte x.datablocks_count.toNat (o - 8)
  else if o < 16 then leByte x.inodes_count.toNat (o - 12)
  else if o < 20 then leByte x.inode_start.toNat (o - 16)
  else leByte x.bmap_start.toNat (o - 20)

def ofBytes (m : ℕ → UInt8) : SuperBlock where
  magic := wordAt m 0
  size := wordAt m 4
  datablocks_count := wordAt m 8
  inodes_count := wordAt m 12
  inode_start := wordAt m 16
  bmap_start := wordAt m 20

theorem ofBytes_byte {m : ℕ → UInt8} {x : SuperBlock} (h : ∀ o < 24, m o = x.byte o) :
    ofBytes m = x := by
  have hw : ∀ (o : ℕ) (v : UInt32), o + 4 ≤ 24 → (∀ k < 4, x.byte (o + k) = leByte v.toNat k) →
      wordAt m o = v := by
    intro o v ho hx
    exact wordAt_of_leByte fun k hk => by rw [h _ (by omega), hx k hk]
  cases x
  simp only [ofBytes, mk.injEq]
  refine ⟨hw 0 _ ?_ ?_, hw 4 _ ?_ ?_, hw 8 _ ?_ ?_, hw 12 _ ?_ ?_, hw 16 _ ?_ ?_, hw 20 _ ?_ ?_⟩
    <;> first
    | omega
    | intro k hk; simp (disch := omega) only [byte, if_neg, if_pos, Nat.add_sub_cancel_left,
        Nat.zero_add]

end SuperBlock

/-- `fs::DirElement`. -/
structure DirElement where
  inum : UInt16
  name : Buffer 14
  deriving DecidableEq

/-- The byte image of a directory element. -/
def DirElement.byte (x : DirElement) (o : ℕ) : UInt8 :=
  if o < 2 then leByte x.inum.toNat o else x.name.byte (o - 2)

/-- `fs::InodeDef`. -/
structure InodeDef where
  inode_index : UInt32 := 0
  type : FileType := .none
  link_count : UInt8 := 0
  major : UInt8 := 0
  minor : UInt8 := 0
  size : UInt32 := 0
  addr : Fin 12 → UInt32 := fun _ => 0
  indirect_addr : UInt32 := 0
  deriving DecidableEq

namespace InodeDef

/-- The block number in a direct slot, zero past the last slot. -/
def addrAt (x : InodeDef) (k : ℕ) : ℕ :=
  if h : k < 12 then (x.addr ⟨k, h⟩).toNat else 0

/-- Assign a direct slot. -/
def setAddr (x : InodeDef) (k : ℕ) (b : ℕ) : InodeDef :=
  { x with addr := fun j => if j.val = k then UInt32.ofNat b else x.addr j }

/-- The byte image of an inode. -/
def byte (x : InodeDef) (o : ℕ) : UInt8 :=
  if o < 4 then leByte x.inode_index.toNat o
  else if o = 4 then x.type.toByte
  else if o = 5 then x.link_count
  else if o = 6 then x.major
  else if o = 7 then x.minor
  else if o < 12 then leByte x.size.toNat (o - 8)
  else if o < 60 then leByte (x.addrAt ((o - 12) / 4)) ((o - 12) % 4)
  else leByte x.indirect_addr.toNat (o - 60)

def ofBytes (m : ℕ → UInt8) : InodeDef where
  inode_index := wordAt m 0
  type := .ofByte (m 4)
  link_count := m 5
  major := m 6
  minor := m 7
  size := wordAt m 8
  addr k := wordAt m (12 + 4 * k)
  indirect_addr := wordAt m 60

/-- Reading back the byte image of an inode gives the inode. -/
theorem ofBytes_byte {m : ℕ → UInt8} {x : InodeDef} (h : ∀ o < 64, m o = x.byte o) :
    ofBytes m = x := by
  have hw : ∀ (o : ℕ) (v : UInt32), o + 4 ≤ 64 → (∀ k < 4, x.byte (o + k) = leByte v.toNat k) →
      wordAt m o = v := by
    intro o v ho hx
    exact wordAt_of_leByte fun k hk => by rw [h _ (by omega), hx k hk]
  have haddr : (fun k : Fin 12 => wordAt m (12 + 4 * k)) = x.addr := by
    funext j
    have hj := j.isLt
    refine hw _ _ (by omega) fun k hk => ?_
    simp (disch := omega) only [byte, if_neg, if_pos]
    rw [show (12 + 4 * j.val + k - 12) / 4 = j.val by omega,
      show (12 + 4 * j.val + k - 12) % 4 = k by omega, addrAt, dif_pos hj]
  have hindex : wordAt m 0 = x.inode_index := hw 0 _ (by omega) fun k hk => by
    simp (disch := omega) only [byte, if_pos, Nat.zero_add]
  have hsize : wordAt m 8 = x.size := hw 8 _ (by omega) fun k hk => by
    simp (disch := omega) only [byte, if_neg, if_pos, Nat.add_sub_cancel_left]
  have hind : wordAt m 60 = x.indirect_addr := hw 60 _ (by omega) fun k hk => by
    simp (disch := omega) only [byte, if_neg, Nat.add_sub_cancel_left]
  have h4 : m 4 = x.type.toByte := h 4 (by omega)
  have h5 : m 5 = x.link_count := h 5 (by omega)
  have h6 : m 6 = x.major := h 6 (by omega)
  have h7 : m 7 = x.minor := h 7 (by omega)
  simp only [ofBytes, haddr, hindex, hsize, hind, h4, h5, h6, h7, FileType.ofByte_toByte]

theorem ofBytes_congr {m m' : ℕ → UInt8} (h : ∀ o < 64, m o = m' o) : ofBytes m = ofBytes m' := by
  have hw : ∀ o, o + 4 ≤ 64 → wordAt m o = wordAt m' o :=
    fun o ho => wordAt_congr fun k hk => h _ (by omega)
  have haddr : (fun k : Fin 12 => wordAt m (12 + 4 * k)) =
      fun k : Fin 12 => wordAt m' (12 + 4 * k) := by
    funext j
    have hj := j.isLt
    exact hw _ (by omega)
  simp only [ofBytes, hw 0 (by omega), hw 8 (by omega), hw 60 (by omega), haddr,
    h 4 (by omega), h 5 (by omega), h 6 (by omega), h 7 (by omega)]

variable {x : InodeDef} {j k b : ℕ}

theorem addrAt_setAddr (hk : k < 12) (hb : b < 2 ^ 32) :
    (x.setAddr k b).addrAt j = if j = k then b else x.addrAt j := by
  unfold addrAt setAddr
  by_cases hj : j < 12
  · simp only [dif_pos hj]
    split
    · rw [UInt32.toNat_ofNat', Nat.mod_eq_of_lt hb]
    · rfl
  · have hne : j ≠ k := by omega
    simp [hj, hne]

end InodeDef

end OrangeOs.Fs
