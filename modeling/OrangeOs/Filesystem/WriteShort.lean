import OrangeOs.Filesystem.WriteLimit

/-! # Writes that run out of free blocks

A write that ends early has marked the blocks of its file and no others, and the bytes that it
counts are in the file. The exception is a write that finds one free block when the indirect block
is due: `WriteImpl` allocates it, fails to allocate the data block, and gives the first block back
to nobody.
-/

namespace OrangeOs.Fs

open Prog

/-- The marked blocks of the data area are those of the files. -/
def NoneLost (d : Disk) : Prop := ∀ b, InArea d b ↔ ∃ i, InUse d i ∧ OwnedBy d i b

/-- A write that returns less than the length of its buffer leaves a well-formed disk on which no
block is lost, and the bytes that it counts can be read. -/
def LosesNothing (junk : Sector) (d : Disk) (i : ℕ) (buf : List UInt8) (pos : ℕ) : Prop :=
  ∀ m x' d', (write junk (inodeAt d i) buf pos).run d = (.ok (m, x'), d') → m < buf.length →
    WellFormed d' ∧ NoneLost d' ∧ inodeAt d' i = x' ∧
      (FileStream.read ⟨pos, x'⟩ m).run d' = (.ok (buf.take m, ⟨pos + m, x'⟩), d')

/-- When the first indirect block of the file is due, one block is free. -/
def OneFree (d : Disk) (x : InodeDef) (pos len : ℕ) : Prop :=
  x.indirect_addr.toNat = 0 ∧ 512 * 12 < pos + len ∧ freeCount d = 12 - fileBlocks x + 1

variable {d d' : Disk} {x x' : InodeDef} {i j n n' a b e k m pos done : ℕ} {junk : Sector}
  {buf p : List UInt8}

/-! ## Ownership -/

theorem Advances.size (h : Advances e d x n pos buf m d' x' n') (hpos : pos ≤ x.size.toNat) :
    x'.size.toNat = max x.size.toNat (pos + m) := by
  have hlen := congrArg List.length h.contents_eq
  rwa [length_contents, length_overwrite (by rwa [length_contents]), length_contents,
    List.length_take_of_le h.le] at hlen

theorem Advances.fileBlocks_eq (h : Advances e d x (fileBlocks x) pos buf m d' x' n')
    (hpos : pos ≤ x.size.toNat) : fileBlocks x' = n' := by
  rw [h.count, fileBlocks, fileBlocks, h.size hpos]
  simp only [blocks]
  omega

/-- Writes to one file keep the disk well-formed. -/
theorem WellFormed.extended (hw : WellFormed d) (hi : InUse d i)
    (h : Extended d (inodeAt d i) (fileBlocks (inodeAt d i)) d' x' n') (hv : Vacant d' x' n')
    (hn : fileBlocks x' = n') :
    WellFormed d' ∧ inodeAt d' i = x' ∧ ∀ j < 320, j ≠ i → inodeAt d' j = inodeAt d j := by
  have hidx := hw.index i hi
  have hself : inodeAt d' i = x' := by
    have := h.record (by rw [hidx])
    rwa [hidx] at this
  have hother : ∀ j < 320, j ≠ i → inodeAt d' j = inodeAt d j := fun j hj hne =>
    h.others j hj (by rwa [hidx])
  exact ⟨hw.replaced hi h.super h.marked hself (by rw [h.index, hidx]) hother h.frame (hn ▸ h.mapped)
    (hn ▸ hv) fun b hb => h.owns b (hn ▸ hb), hself, hother⟩

/-- If no block was lost before, none is after writes to one file. -/
theorem NoneLost.extended (h : NoneLost d) (hw : WellFormed d) (hi : InUse d i)
    (hext : Extended d (inodeAt d i) (fileBlocks (inodeAt d i)) d' x' n')
    (hacc : Accounted d (inodeAt d i) (fileBlocks (inodeAt d i)) d' x' n') (hn : fileBlocks x' = n')
    (hw' : WellFormed d') (hself : inodeAt d' i = x')
    (hother : ∀ j < 320, j ≠ i → inodeAt d' j = inodeAt d j) : NoneLost d' := by
  have huse : ∀ j, InUse d j → InUse d' j := fun j hj => by
    by_cases hji : j = i
    · subst hji
      exact ⟨hj.1, by rw [hself, hacc.type]; exact hj.2⟩
    · exact ⟨hj.1, by rw [hother j hj.1 hji]; exact hj.2⟩
  -- the files keep their blocks
  have hkeep : ∀ j b, InUse d j → OwnedBy d j b → OwnedBy d' j b := fun j b hj hb => by
    by_cases hji : j = i
    · subst hji
      rw [OwnedBy, hself, hn]
      exact hacc.keeps hb
    · rw [OwnedBy, hother j hj.1 hji]
      refine (owns_congr (hw.mapped j hj).indirect_ne fun hz => ?_).mpr hb
      have hown : OwnedBy d j (inodeAt d j).indirect_addr.toNat := .inr ⟨hz, rfl⟩
      have harea := (hw.mapped j hj).owns_area hown
      exact hext.frame _ harea.le harea.2 (hw.disjoint j i hj hi hji _ hown)
  intro b
  constructor
  · rintro ⟨hlt, hb⟩
    rcases hacc.only b hb with hb | hb
    · obtain ⟨j, hj, hown⟩ := (h b).mp ⟨by rwa [fsSize_congr hext.super] at hlt, hb⟩
      exact ⟨j, huse j hj, hkeep j b hj hown⟩
    · exact ⟨i, huse i hi, by rw [OwnedBy, hself, hn]; exact hb⟩
  · rintro ⟨j, hj, hown⟩
    exact (hw'.mapped j hj).owns_area hown

/-! ## Writes that return -/

/-- A write that returns has advanced, unless it found one free block when the indirect block was
due, or created the indirect block on a stack that is not clear. -/
theorem advances_of_run_write (hf : Formatted d) (hm : Mapped d x n) (hsz : x.size.toNat ≤ 512 * n)
    (hi : x.inode_index.toNat < 320) (hv : Vacant d x n) (hpos : pos ≤ x.size.toNat)
    (hone : x.indirect_addr.toNat = 0 → 512 * 12 < pos + buf.length → freeCount d ≠ 12 - n + 1)
    (hclean : x.indirect_addr.toNat = 0 → 512 * 12 < pos + buf.length → 12 - n + 2 ≤ freeCount d →
      ∀ k, 1 ≤ k → k < 128 → indirectWord junk k = 0)
    (hrun : (write junk x buf pos).run d = (.ok (m, x'), d')) :
    ∃ n', Advances (512 * 140 + 1) d x n pos buf m d' x' n' := by
  have hle := hm.le
  obtain ⟨p, hp⟩ : ∃ p, p = buf.take (512 * 140 - pos) := ⟨_, rfl⟩
  have hplen : p.length = min (512 * 140 - pos) buf.length := by rw [hp, List.length_take]
  obtain ⟨m₁, d₁, x₁, n₁, hrun₁, hadv⟩ := run_write_advances junk (e := 512 * 140 + 1) hf hm
    hsz hi (.inr hv) hpos (show pos + p.length ≤ 512 * 140 by omega) (by omega)
    (fun hz hlt => hone hz (by omega)) fun hz hlt hfree => .inr (hclean hz (by omega) hfree)
  by_cases hall : buf.length ≤ 512 * 140 - pos
  · rw [List.take_of_length_le hall] at hp
    subst hp
    rw [hrun, Prod.mk.injEq, Except.ok.injEq, Prod.mk.injEq] at hrun₁
    obtain ⟨⟨rfl, rfl⟩, rfl⟩ := hrun₁
    exact ⟨n₁, hadv⟩
  · have happend := run_writeFrom_append junk x d
      (show (pos + p.length) % 512 = 0 by omega) (buf.drop (512 * 140 - pos)) 0
    rw [hp, List.take_append_drop, ← hp] at happend
    rw [write, if_neg (by omega)] at hrun hrun₁
    simp only [hrun₁, Nat.zero_add] at happend
    have hstop := hadv.stop
    by_cases hfull : m₁ = p.length
    · -- the loop has come to the end of the indirect block
      have hn₁ := hadv.count
      have hle₁ := hadv.extended.mapped.le
      rw [blocks] at hn₁
      have hne := hadv.extended.mapped.indirect_ne (by omega)
      have hrest : buf.drop (512 * 140 - pos) ≠ [] := by
        intro hnil
        have := congrArg List.length hnil
        simp only [List.length_drop, List.length_nil] at this
        omega
      rw [if_pos hfull, show pos + p.length = 512 * 140 by omega,
        run_writeFrom_past junk hne hrest, hrun] at happend
      cases happend
    · rw [if_neg hfull, hrun, Prod.mk.injEq, Except.ok.injEq, Prod.mk.injEq] at happend
      obtain ⟨⟨rfl, rfl⟩, rfl⟩ := happend
      have hlt := hadv.le
      have hcont := hadv.contents_eq
      rw [hp, List.take_take, min_eq_left (by omega)] at hcont
      exact ⟨n₁, by omega, hadv.extended, hadv.accounted, hadv.count, hcont, hadv.size_le, hadv.vacant,
        .inr ⟨by omega, (hstop.resolve_left hfull).2⟩⟩

theorem take_overwrite {old : List UInt8} (hpos : pos ≤ old.length) (buf : List UInt8) :
    ((overwrite old pos buf).drop pos).take buf.length = buf := by
  rw [overwrite, List.append_assoc, List.drop_left' (List.length_take_of_le hpos), List.take_left' rfl]

/-- A write that creates the indirect block for its last block does not end early. -/
theorem eq_length_of_creates (hw : WellFormed d) (hi : InUse d i) (hpos : pos ≤ (inodeAt d i).size.toNat)
    (hc : CreatesIndirect d (inodeAt d i) pos buf.length) (hle : pos + buf.length ≤ 512 * 13)
    (hrun : (write junk (inodeAt d i) buf pos).run d = (.ok (m, x'), d')) : m = buf.length := by
  obtain ⟨hz, hlong, hfree⟩ := hc
  obtain ⟨m', x₁, d₁, n', hrun₁, hadv⟩ := run_write_advances junk (e := pos + buf.length)
    hw.formatted (hw.mapped i hi) (fileBlocks_le _)
    (by rw [hw.index i hi]; exact hi.1) (.inr (hw.vacant i hi)) hpos
    (show pos + buf.length ≤ 512 * 140 by omega) le_rfl (fun _ _ => by omega) fun _ _ _ => .inl hle
  rw [hrun, Prod.mk.injEq, Except.ok.injEq, Prod.mk.injEq] at hrun₁
  obtain ⟨⟨rfl, -⟩, -⟩ := hrun₁
  refine hadv.stop.resolve_right fun ⟨hlt, hat, hnone⟩ => ?_
  have hcount := hadv.extended.free
  have hcreated := hadv.extended.created hz
  rw [indirectCount, indirectCount, if_pos hz] at hcount
  split_ifs at hcount <;> omega

/-- The condition on the state and the stack under which an early end loses nothing. -/
theorem losesNothing_of (hw : WellFormed d) (hlost : NoneLost d) (hi : InUse d i)
    (hpos : pos ≤ (inodeAt d i).size.toNat) (hone : ¬ OneFree d (inodeAt d i) pos buf.length)
    (hclean : CreatesIndirect d (inodeAt d i) pos buf.length →
    Clean junk (inodeAt d i) (pos + buf.length)) :
    LosesNothing junk d i buf pos := by
  intro m x' d' hrun hlt
  obtain ⟨n', hadv⟩ := advances_of_run_write hw.formatted (hw.mapped i hi) (fileBlocks_le _)
    (by rw [hw.index i hi]; exact hi.1) (hw.vacant i hi) hpos
    (fun hz hlt hfree => hone ⟨hz, hlt, hfree⟩) (fun hz hlong hfree => by
      rcases hclean ⟨hz, hlong, hfree⟩ with hne | hle | hwords
      · exact absurd hz hne
      · exact absurd (eq_length_of_creates hw hi hpos ⟨hz, hlong, hfree⟩ hle hrun) hlt.ne
      · exact hwords) hrun
  have hn := hadv.fileBlocks_eq hpos
  have hv : Vacant d' x' n' := by
    refine hadv.vacant.resolve_left fun he => ?_
    have := hadv.extended.mapped.le
    omega
  obtain ⟨hw', hself, hother⟩ := hw.extended hi hadv.extended hv hn
  have hsize := hadv.size hpos
  have hold : pos ≤ (contents d (inodeAt d i)).length := by rwa [length_contents]
  have hlimit : x'.size.toNat ≤ 512 * 140 :=
    hadv.size_le.trans (Nat.mul_le_mul_left 512 hadv.extended.mapped.le)
  refine ⟨hw', hlost.extended hw hi hadv.extended hadv.accounted hn hw' hself hother, hself, ?_⟩
  have htake := take_overwrite hold (buf.take m)
  rw [List.length_take_of_le hlt.le, ← hadv.contents_eq] at htake
  rw [run_read (f := ⟨pos, x'⟩) (show pos ≤ x'.size.toNat by omega) hlimit m]
  simp only [htake, min_eq_left (show m ≤ x'.size.toNat - pos by omega)]

/-- With one free block, the attempt to create an indirect block takes it. -/
theorem run_writeFrom_create_one (junk : Sector) (hf : Formatted d) (hz : x.indirect_addr.toNat = 0)
    (hfree : freeCount d = 1) (hbuf : buf ≠ []) (done : ℕ) :
    ∃ a, Free d a ∧ (writeFrom junk x buf (512 * 12) done).run d = (.ok (done, x), mark d a) := by
  have hpb : buf.length > 0 := List.length_pos_iff.mpr hbuf
  obtain ⟨a, ha⟩ : ∃ a, nextFree d = some a := by
    rw [← Option.ne_none_iff_exists', ne_eq, ← freeCount_eq_zero_iff]
    omega
  have hfa := free_of_nextFree ha
  have hcount := freeCount_mark hfa
  have hb : nextFree (mark d a) = none := freeCount_eq_zero_iff.mp (by omega)
  have hblock := run_writeBlock_create junk (k := 12) hf le_rfl hz
  simp only [ha, hb] at hblock
  refine ⟨a, hfa, ?_⟩
  rw [writeFrom, dif_pos hpb]
  simp only [writeImpl, BLOCK_SIZE, run_bind,
    show 512 * 12 / 512 % 2 ^ 32 = 12 from rfl, hblock, run_pure]

/-- A marked block that belonged to no file belongs to no file. -/
theorem not_noneLost_mark (hw : WellFormed d) (ha : Free d a) : ¬ NoneLost (mark d a) := by
  intro h
  have hmarked : Marked (mark d a) a := (marked_mark_iff ha).mpr (.inl rfl)
  have hlow : ∀ o, o ≠ 41 → mark d a o = d o := fun o ho => mark_of_ne ho
  obtain ⟨j, hj, hown⟩ := (h a).mp
    ⟨by rw [fsSize_congr (hlow 0 (by omega))]; exact ha.lt_fsSize hw.formatted, hmarked⟩
  have hnode : inodeAt (mark d a) j = inodeAt d j := inodeAt_congr (hlow _ (by have := hj.1; omega))
  have hj' : InUse d j := ⟨hj.1, hnode ▸ hj.2⟩
  have hm := hw.mapped j hj'
  rw [OwnedBy, hnode, owns_congr hm.indirect_ne fun hz => hlow _
    (by have := (hm.indirect_area hz).le; omega)]
    at hown
  exact ha.not_marked (hm.owns_area hown).2

/-- With one free block when the indirect block is due, a write fills the direct slots and takes the
block. -/
theorem run_write_oneFree (hf : Formatted d) (hm : Mapped d x n) (hsz : x.size.toNat ≤ 512 * n)
    (hi : x.inode_index.toNat < 320) (hv : Vacant d x n) (hpos : pos ≤ x.size.toNat)
    (hz : x.indirect_addr.toNat = 0) (hlong : 512 * 12 < pos + buf.length)
    (hfree : freeCount d = 12 - n + 1) (junk : Sector) :
    ∃ d₁ x₁ a, Wrote d x n pos (buf.take (512 * 12 - pos)) d₁ x₁ 12 ∧ freeCount d₁ = 1 ∧ Free d₁ a ∧
      (write junk x buf pos).run d = (.ok (512 * 12 - pos, x₁), mark d₁ a) := by
  have hle := hm.indirect_ne
  obtain ⟨p, hp⟩ : ∃ p, p = buf.take (512 * 12 - pos) := ⟨_, rfl⟩
  have hplen : p.length = 512 * 12 - pos := by
    rw [hp]
    exact List.length_take_of_le (by omega)
  have hat : pos + p.length = 512 * 12 := by omega
  have hrest : buf.drop (512 * 12 - pos) ≠ [] := by
    intro hnil
    have := congrArg List.length hnil
    simp only [List.length_drop, List.length_nil] at this
    omega
  -- the direct slots are filled
  obtain ⟨d₁, x₁, n₁, hrun₁, hwr⟩ := run_write_all hf hm hsz hpos
    (show pos + p.length ≤ 512 * 140 by omega) hi (.inr hv) (.inl hat.le)
    (by rw [hat, blocks]; omega)
  have hn₁ := hwr.blocks_eq
  have hcount := hwr.free
  rw [hat, blocks] at hn₁
  obtain rfl : n₁ = 12 := by omega
  have hz₁ : x₁.indirect_addr.toNat = 0 := by rw [hwr.indirect_addr, hz]
  have hone : freeCount d₁ = 1 := by omega
  obtain ⟨a, ha, hrun₂⟩ := run_writeFrom_create_one junk (hf.congr hwr.super) hz₁ hone hrest p.length
  have happend := run_writeFrom_append junk x d
    (show (pos + p.length) % 512 = 0 by omega) (buf.drop (512 * 12 - pos)) 0
  have hrun₁ := hrun₁ junk
  rw [write, if_neg (by omega)] at hrun₁
  rw [hp, List.take_append_drop, ← hp] at happend
  simp only [hrun₁, Nat.zero_add, if_true, hat, hrun₂] at happend
  refine ⟨d₁, x₁, a, hp ▸ hwr, hone, ha, ?_⟩
  rw [write, if_neg (by omega), happend, hplen]

/-- With one free block when the indirect block is due, the block is lost. -/
theorem not_losesNothing_of_oneFree (hw : WellFormed d) (hi : InUse d i)
    (hpos : pos ≤ (inodeAt d i).size.toNat) (hone : OneFree d (inodeAt d i) pos buf.length)
    (junk : Sector) : ¬ LosesNothing junk d i buf pos := by
  obtain ⟨hz, hlong, hfree⟩ := hone
  have hle := (hw.mapped i hi).indirect_ne
  have hsz := fileBlocks_le (inodeAt d i)
  obtain ⟨d₁, x₁, a, hwr, -, ha, hrun⟩ := run_write_oneFree hw.formatted (hw.mapped i hi) hsz
    (by rw [hw.index i hi]; exact hi.1) (hw.vacant i hi) hpos hz hlong hfree junk
  obtain ⟨hw₁, -, -⟩ := hw.wrote hi hwr
  intro h
  have hlost := h _ x₁ (mark d₁ a) hrun (by omega)
  exact not_noneLost_mark hw₁ ha hlost.2.1

/-- An early end loses no block, unless one block is free when the indirect block is due, or the
write uses words of a new indirect block that the stack left; and in the first case it does lose
one. -/
theorem write_losesNothing (hw : WellFormed d) (hlost : NoneLost d) (hi : InUse d i)
    (hpos : pos ≤ (inodeAt d i).size.toNat) (buf : List UInt8) (junk : Sector) :
    (¬ OneFree d (inodeAt d i) pos buf.length ∧ (CreatesIndirect d (inodeAt d i) pos buf.length →
        Clean junk (inodeAt d i) (pos + buf.length)) → LosesNothing junk d i buf pos) ∧
      (OneFree d (inodeAt d i) pos buf.length → ¬ LosesNothing junk d i buf pos) :=
  ⟨fun h => losesNothing_of hw hlost hi hpos h.1 h.2,
    fun h => not_losesNothing_of_oneFree hw hi hpos h junk⟩

theorem noneLost_sampleDisk (hn : n + 42 < 2 ^ 32) : NoneLost (sampleDisk n) := by
  have hbits : (sampleDisk n) 41 = blank n 41 := by
    rw [sampleDisk, setInode_outside (by omega) (.inr le_rfl), rootDisk,
      setInode_outside (by omega) (.inr le_rfl)]
  have hnone : ∀ b, ¬ InArea (sampleDisk n) b := by
    rintro b ⟨-, -, hb⟩
    rw [hbits] at hb
    simp [bitAt, byte_blank] at hb
  refine fun b => iff_of_false (hnone b) ?_
  rintro ⟨j, hj, hown⟩
  exact hnone b (((wellFormed_sampleDisk hn).mapped j hj).owns_area hown)

/-- Thirteen blocks for an empty file, with twelve free blocks. -/
theorem write_losesNothing_twelve :
    LosesNothing (.ofFn fun _ => 0) (sampleDisk 12) 1 (List.replicate 6145 0) 0 := by
  have hfree : freeCount (sampleDisk 12) = 12 := freeCount_sampleDisk (by omega)
  have hblocks : fileBlocks (inodeAt (sampleDisk 12) 1) = 0 := by
    rw [inodeAt_sampleDisk, empty_sampleFile.fileBlocks_eq]
  refine (write_losesNothing (wellFormed_sampleDisk (by omega)) (noneLost_sampleDisk (by omega))
    (inUse_sampleDisk 12) (Nat.zero_le _) _ _).1 ⟨fun h => ?_, fun h => ?_⟩
  · have := h.2.2
    omega
  · have := h.2.2
    omega

/-- The same with thirteen. -/
theorem write_loses_block : ¬ ∀ (junk : Sector) (d : Disk) (i : ℕ) (buf : List UInt8) (pos : ℕ),
    WellFormed d → NoneLost d → InUse d i → pos ≤ (inodeAt d i).size.toNat →
    LosesNothing junk d i buf pos := by
  intro h
  have hfree : freeCount (sampleDisk 13) = 13 := freeCount_sampleDisk (by omega)
  have hblocks : fileBlocks (inodeAt (sampleDisk 13) 1) = 0 := by
    rw [inodeAt_sampleDisk, empty_sampleFile.fileBlocks_eq]
  have hw := wellFormed_sampleDisk (n := 13) (by omega)
  have hi := inUse_sampleDisk 13
  have hlen : (List.replicate 6145 (0 : UInt8)).length = 6145 := List.length_replicate
  refine not_losesNothing_of_oneFree hw hi (Nat.zero_le _) ⟨?_, by omega, by omega⟩ (.ofFn fun _ => 0)
    (h _ _ _ (List.replicate 6145 0) _ hw (noneLost_sampleDisk (by omega)) hi (Nat.zero_le _))
  rw [inodeAt_sampleDisk]
  rfl

end OrangeOs.Fs
