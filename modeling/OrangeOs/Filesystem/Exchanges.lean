import OrangeOs.Library.Pool
import OrangeOs.Filesystem.Ownership

/-! # The exchanges of the file system

What the programs of `filesystem/common.cc` do with the disk, one exchange at a time: they write data
blocks, they set one bit of the bit map as they last read it, and they replace one record of a sector of
the inode table as they last read it. That is a contract which every program keeps, whatever the disk
answers.
-/

namespace OrangeOs.Fs

open Prog

/-- The layout of `mkfs`. -/
structure Layout (x : SuperBlock) : Prop where
  inode_start : x.inode_start.toNat = 1
  inodes_count : x.inodes_count.toNat = 320
  bmap_start : x.bmap_start.toNat = 41

/-- An inode that is in use. -/
structure Usable (x : InodeDef) : Prop where
  type : x.type ≠ .none
  index : x.inode_index.toNat < 320

/-- What a sector is known to hold. -/
structure SectorOk (b : ℕ) (s : Sector) : Prop where
  super : b = 0 → Layout (.ofBytes s.byte)
  records : 1 ≤ b → b ≤ 40 → ∀ j < 8, (InodeDef.load s (j * 64)).type ≠ .none →
    Usable (.load s (j * 64))

/-- File data goes to the data area. -/
def InDataArea : Event → Prop
  | .fileBlock b => 42 ≤ b
  | _ => True

/-- The events that hand out a block or an inode. -/
def handed (es : List Event) : List Event := es.filter fun e => match e with
  | .fileBlock _ => false
  | _ => true

/-- The exchanges that the programs make. -/
inductive Exchange (t : Trail Sector Event) : Prop where
  | read (hw : t.wrote = none) (he : handed t.events = [])
  | data {b : ℕ} {s : Sector} (hw : t.wrote = some (b, s)) (hb : 42 ≤ b)
      (he : handed t.events = [])
  | bit {old : Sector} {k : ℕ} (hw : t.wrote = some (41, setBit old k)) (hs : t.seen 41 = some old)
      (hk : k < 4096) (hbit : bitAt old.byte k = false) (he : handed t.events = [.allocated (k + 42)])
  | record {i : ℕ} {old : Sector} {x : InodeDef} (hi : i < 320)
      (hw : t.wrote = some (i / 8 + 1, old.patch (i % 8 * 64) 64 x.byte))
      (hs : t.seen (i / 8 + 1) = some old) (hold : SectorOk (i / 8 + 1) old) (hx : Usable x)
      (he : handed t.events = [] ∨ handed t.events = [.created i])

/-- The contract of the file system. -/
def fsContract : Contract Sector Event where
  Sector := SectorOk
  Assumed := InDataArea
  Good := Exchange
  good_read _ := .read rfl rfl

variable {t : Trail Sector Event} {b i k : ℕ} {x : InodeDef} {buf : List UInt8} {pos : ℕ}
  {junk : Sector}

end OrangeOs.Fs
