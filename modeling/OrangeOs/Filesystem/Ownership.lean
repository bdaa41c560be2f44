import OrangeOs.Filesystem.Write

/-! # Block ownership

On a well-formed disk every block of the data area belongs to at most one file. `Write`
keeps this exactly when it does not create an indirect block: the words of a new indirect block
after the first are whatever the stack held.
-/

namespace OrangeOs.Fs

open Prog

/-- The inode record with index `i` is in use. -/
def InUse (d : Disk) (i : ℕ) : Prop := i < 320 ∧ (inodeAt d i).type ≠ .none

/-- The number of blocks of a file. -/
def fileBlocks (x : InodeDef) : ℕ := blocks x.size.toNat

/-- The blocks of the file with inode index `i`. -/
def OwnedBy (d : Disk) (i b : ℕ) : Prop := Owns d (inodeAt d i) (fileBlocks (inodeAt d i)) b

/-- The blocks of the files are distinct marked data blocks, and unused slots are zero. -/
structure WellFormed (d : Disk) : Prop where
  formatted : Formatted d
  index : ∀ i, InUse d i → (inodeAt d i).inode_index.toNat = i
  mapped : ∀ i, InUse d i → Mapped d (inodeAt d i) (fileBlocks (inodeAt d i))
  vacant : ∀ i, InUse d i → Vacant d (inodeAt d i) (fileBlocks (inodeAt d i))
  disjoint : ∀ i j, InUse d i → InUse d j → i ≠ j → ∀ b, OwnedBy d i b → ¬ OwnedBy d j b

/-- Inodes that refer to distinct blocks unless they belong to one file. `L i x n` states that `x`
is an inode of file `i` with `n` mapped slots. -/
structure Apart (d : Disk) (L : ℕ → InodeDef → ℕ → Prop) : Prop where
  mapped : ∀ i x n, L i x n → Mapped d x n
  vacant : ∀ i x n, L i x n → Vacant d x n
  disjoint : ∀ i x n j y m, L i x n → L j y m → i ≠ j → ∀ b, Owns d x n b → ¬ Owns d y m b

/-- The inodes of the inode table. -/
def OnDisk (d : Disk) (i : ℕ) (x : InodeDef) (n : ℕ) : Prop :=
  InUse d i ∧ x = inodeAt d i ∧ n = fileBlocks x

/-- A write to file `i` leaves the disk well-formed, and the other files and the super block alone,
whatever the stack holds. -/
def KeepsOwnership (d : Disk) (i : ℕ) (buf : List UInt8) (pos : ℕ) : Prop :=
  ∀ junk, ∃ m x' d', (write junk (inodeAt d i) buf pos).run d = (.ok (m, x'), d') ∧
    WellFormed d' ∧ d' 0 = d 0 ∧
    ∀ j, InUse d j → j ≠ i → inodeAt d' j = inodeAt d j ∧ ∀ b, OwnedBy d j b → d' b = d b

/-- The write goes past the direct slots of a file without an indirect block, and there are blocks
for the missing direct slots, the indirect block and its first data block. -/
def CreatesIndirect (d : Disk) (x : InodeDef) (pos len : ℕ) : Prop :=
  x.indirect_addr.toNat = 0 ∧ 512 * 12 < pos + len ∧ 12 - fileBlocks x + 2 ≤ freeCount d

variable {d d' : Disk} {x x' : InodeDef} {i j n n' a b k pos done : ℕ} {junk : Sector}
  {buf : List UInt8}

theorem fileBlocks_le (x : InodeDef) : x.size.toNat ≤ 512 * fileBlocks x := by
  rw [fileBlocks, blocks]; omega

theorem owns_congr (h12 : 12 < n → x.indirect_addr.toNat ≠ 0)
    (hi : x.indirect_addr.toNat ≠ 0 → d' x.indirect_addr.toNat = d x.indirect_addr.toNat) :
    Owns d' x n b ↔ Owns d x n b := by
  have hs : ∀ k < n, slot d' x k = slot d x k := fun k hk =>
    slot_congr ((Nat.lt_or_ge k 12).imp_right fun _ => hi (h12 (by omega)))
  refine or_congr_left (exists_congr fun k => and_congr_right fun hk => ?_)
  rw [hs k hk]

theorem Wrote.fileBlocks_eq (h : Wrote d x (fileBlocks x) pos buf d' x' n') :
    fileBlocks x' = n' := by
  have := h.blocks_eq; have := h.size
  simp only [fileBlocks, blocks] at *
  omega

/-- The record on the disk follows the inode in memory. -/
theorem Wrote.inodeAt_eq (h : Wrote d x n pos buf d' x' n')
    (hx : inodeAt d x.inode_index.toNat = x) : inodeAt d' x.inode_index.toNat = x' := by
  rw [h.record]
  split
  · rfl
  · rw [hx, h.kept (by omega)]

/-- An inode without contents. -/
structure Empty (x : InodeDef) (i : ℕ) : Prop where
  index : x.inode_index.toNat = i
  size : x.size.toNat = 0
  addr : ∀ k, x.addrAt k = 0
  indirect : x.indirect_addr.toNat = 0

namespace Empty

theorem fileBlocks_eq (h : Empty x i) : fileBlocks x = 0 := by
  rw [fileBlocks, h.size, blocks]

theorem mapped (h : Empty x i) (d : Disk) : Mapped d x 0 where
  le := by omega
  area k hk := by omega
  indirect_ne hlt := by omega
  indirect_area hz := absurd h.indirect hz
  inj j hj := by omega
  ne_indirect hz := absurd h.indirect hz

theorem vacant (h : Empty x i) (d : Disk) : Vacant d x 0 where
  direct k _ _ := h.addr k
  indirect hz := absurd h.indirect hz

theorem not_owns (h : Empty x i) (d : Disk) (b : ℕ) : ¬ Owns d x 0 b := by
  rintro (⟨k, hk, -⟩ | ⟨hz, -⟩)
  · omega
  · exact hz h.indirect

end Empty

/-- Inodes stay apart when the files other than `i` keep their blocks, and every block that an inode
refers to afterwards was one of its file's blocks, or was free and is one of file `i` now. -/
theorem Apart.step {L L' : ℕ → InodeDef → ℕ → Prop} (h : Apart d L) (i : ℕ) (h₀ : d' 0 = d 0)
    (hm : ∀ c, Marked d c → Marked d' c)
    (hkeep : ∀ k y m, L k y m → k ≠ i → ∀ b, Owns d y m b → d' b = d b)
    (hL : ∀ k y m, L' k y m → k ≠ i ∧ L k y m ∨ Mapped d' y m ∧ Vacant d' y m ∧
      ∀ b, Owns d' y m b → (∃ z l, L k z l ∧ Owns d z l b) ∨ k = i ∧ Free d b) : Apart d' L' := by
  have hind : ∀ k y m, L k y m → k ≠ i → y.indirect_addr.toNat ≠ 0 →
      d' y.indirect_addr.toNat = d y.indirect_addr.toNat := fun k y m hk hne hz =>
    hkeep k y m hk hne _ (.inr ⟨hz, rfl⟩)
  have howns : ∀ k y m, L' k y m → ∀ b, Owns d' y m b →
      (∃ z l, L k z l ∧ Owns d z l b) ∨ k = i ∧ Free d b := by
    intro k y m hk b hb
    rcases hL k y m hk with ⟨hne, hk⟩ | ⟨-, -, hown⟩
    · exact .inl ⟨y, m, hk, (owns_congr (h.mapped k y m hk).indirect_ne (hind k y m hk hne)).mp hb⟩
    · exact hown b hb
  refine ⟨fun k y m hk => ?_, fun k y m hk => ?_, fun k y m k' y' m' hk hk' hne b hb hb' => ?_⟩
  · rcases hL k y m hk with ⟨hne, hk⟩ | ⟨hmap, -⟩
    · exact (h.mapped k y m hk).congr h₀ hm (hind k y m hk hne)
    · exact hmap
  · rcases hL k y m hk with ⟨hne, hk⟩ | ⟨-, hvac, -⟩
    · exact (h.vacant k y m hk).congr (hind k y m hk hne)
    · exact hvac
  · have hused : ∀ k z l, L k z l → Owns d z l b → ¬ Free d b := fun k z l hz ho hfr =>
      hfr.not_marked ((h.mapped k z l hz).owns_area ho).2
    rcases howns k y m hk b hb with ⟨z, l, hz, ho⟩ | ⟨rfl, hfr⟩
    · rcases howns k' y' m' hk' b hb' with ⟨z', l', hz', ho'⟩ | ⟨rfl, hfr⟩
      · exact h.disjoint k z l k' z' l' hz hz' hne b ho ho'
      · exact hused k z l hz ho hfr
    · rcases howns k' y' m' hk' b hb' with ⟨z', l', hz', ho'⟩ | ⟨rfl, -⟩
      · exact hused k' z' l' hz' ho' hfr
      · exact hne rfl

namespace WellFormed

theorem apart (hw : WellFormed d) : Apart d (OnDisk d) where
  mapped := by
    rintro i _ _ ⟨hi, rfl, rfl⟩
    exact hw.mapped i hi
  vacant := by
    rintro i _ _ ⟨hi, rfl, rfl⟩
    exact hw.vacant i hi
  disjoint := by
    rintro i _ _ j _ _ ⟨hi, rfl, rfl⟩ ⟨hj, rfl, rfl⟩ hne
    exact hw.disjoint i j hi hj hne

theorem of_apart (hf : Formatted d) (hidx : ∀ i, InUse d i → (inodeAt d i).inode_index.toNat = i)
    (h : Apart d (OnDisk d)) : WellFormed d where
  formatted := hf
  index := hidx
  mapped i hi := h.mapped i _ _ ⟨hi, rfl, rfl⟩
  vacant i hi := h.vacant i _ _ ⟨hi, rfl, rfl⟩
  disjoint i j hi hj hne := h.disjoint i _ _ j _ _ ⟨hi, rfl, rfl⟩ ⟨hj, rfl, rfl⟩ hne

theorem indirect_kept (hw : WellFormed d) (hi : InUse d i) (hj : InUse d j) (hne : j ≠ i)
    (h : Wrote d (inodeAt d i) (fileBlocks (inodeAt d i)) pos buf d' x' n')
    (hb : OwnedBy d j b) : d' b = d b := by
  have harea := (hw.mapped j hj).owns_area hb
  exact h.frame b harea.le harea.2 (hw.disjoint j i hj hi hne b hb)

/-- A new record for file `i`, whose blocks were its blocks or free. -/
theorem replaced (hw : WellFormed d) (hi : InUse d i) (h₀ : d' 0 = d 0)
    (hmarked : ∀ c, Marked d c → Marked d' c) (hself : inodeAt d' i = x')
    (hidx : x'.inode_index.toNat = i)
    (hother : ∀ j < 320, j ≠ i → inodeAt d' j = inodeAt d j)
    (hframe : ∀ o, 42 ≤ o → Marked d o → ¬ OwnedBy d i o → d' o = d o)
    (hm : Mapped d' x' (fileBlocks x')) (hv : Vacant d' x' (fileBlocks x'))
    (howns : ∀ b, Owns d' x' (fileBlocks x') b → OwnedBy d i b ∨ Free d b) : WellFormed d' := by
  have huse : ∀ j, InUse d' j → j ≠ i → InUse d j := fun j hj hne =>
    ⟨hj.1, by have := hj.2; rwa [hother j hj.1 hne] at this⟩
  refine .of_apart (hw.formatted.congr h₀) (fun j hj => ?_) (hw.apart.step i h₀ hmarked ?_ ?_)
  · by_cases hji : j = i
    · rw [hji, hself, hidx]
    · rw [hother j hj.1 hji]
      exact hw.index j (huse j hj hji)
  · rintro k _ _ ⟨hk, rfl, rfl⟩ hne b hb
    have harea := (hw.mapped k hk).owns_area hb
    exact hframe b harea.le harea.2 (hw.disjoint k i hk hi hne b hb)
  · rintro k _ _ ⟨hk, rfl, rfl⟩
    by_cases hki : k = i
    · subst hki
      rw [hself]
      exact .inr ⟨hm, hv, fun b hb =>
        (howns b hb).imp (fun ho => ⟨_, _, ⟨hi, rfl, rfl⟩, ho⟩) fun hfr => ⟨rfl, hfr⟩⟩
    · rw [hother k hk.1 hki]
      exact .inl ⟨hki, huse k hk hki, rfl, rfl⟩

theorem wrote (hw : WellFormed d) (hi : InUse d i)
    (h : Wrote d (inodeAt d i) (fileBlocks (inodeAt d i)) pos buf d' x' n') :
    WellFormed d' ∧ inodeAt d' i = x' ∧ ∀ j, j < 320 → j ≠ i → inodeAt d' j = inodeAt d j := by
  have hidx := hw.index i hi
  have hself : inodeAt d' i = x' := by
    have := h.inodeAt_eq (by rw [hidx])
    rwa [hidx] at this
  have hother : ∀ j, j < 320 → j ≠ i → inodeAt d' j = inodeAt d j := fun j hj hne =>
    h.others j hj (by rwa [hidx])
  have hn := h.fileBlocks_eq
  exact ⟨hw.replaced hi h.super (fun _ => h.marked_mono) hself
    (by rw [h.inode_index, hidx]) hother h.frame
    (hn ▸ h.mapped) (hn ▸ h.vacant (hw.vacant i hi)) fun b hb => h.owns (hn ▸ hb), hself, hother⟩

/-- A block that is marked and belongs to no file does no harm. -/
theorem mark_free (hw : WellFormed d) (hb : Free d b) : WellFormed (mark d b) := by
  have hlow : ∀ o, o ≠ 41 → mark d b o = d o := fun o ho => mark_of_ne ho
  have hnode : ∀ j < 320, inodeAt (mark d b) j = inodeAt d j := fun j hj =>
    inodeAt_congr (hlow _ (by omega))
  have huse : ∀ j, InUse (mark d b) j → InUse d j := fun j hj =>
    ⟨hj.1, by have := hj.2; rwa [hnode j hj.1] at this⟩
  refine .of_apart (hw.formatted.congr (hlow 0 (by omega))) (fun j hj => ?_)
    (hw.apart.step 320 (hlow 0 (by omega)) (fun c hc => (marked_mark_iff hb).mpr (.inr hc)) ?_ ?_)
  · rw [hnode j hj.1]
    exact hw.index j (huse j hj)
  · rintro k _ _ ⟨hk, rfl, rfl⟩ - c hc
    have := ((hw.mapped k hk).owns_area hc).le
    exact hlow c (by omega)
  · rintro k _ _ ⟨hk, rfl, rfl⟩
    rw [hnode k hk.1]
    exact .inl ⟨hk.1.ne, huse k hk, rfl, rfl⟩

/-- A record can become an empty file. -/
theorem setInode_empty (hw : WellFormed d) (hi : i < 320) (hx : Empty x i) :
    WellFormed (setInode d i x) := by
  have hout : ∀ o, o = 0 ∨ 41 ≤ o → setInode d i x o = d o := fun o ho => setInode_outside hi ho
  have huse : ∀ j, InUse (setInode d i x) j → j ≠ i → InUse d j := fun j hj hne =>
    ⟨hj.1, by have := hj.2; rwa [inodeAt_setInode_of_ne hne] at this⟩
  have hmk : ∀ c, Marked d c → Marked (setInode d i x) c := fun c hc =>
    (marked_congr (hout 41 (.inr le_rfl))).mpr hc
  refine .of_apart (hw.formatted.congr (hout 0 (.inl rfl))) (fun j hj => ?_)
    (hw.apart.step i (hout 0 (.inl rfl)) hmk ?_ ?_)
  · by_cases hji : j = i
    · rw [hji, inodeAt_setInode_self]
      exact hx.index
    · rw [inodeAt_setInode_of_ne hji]
      exact hw.index j (huse j hj hji)
  · rintro k _ _ ⟨hk, rfl, rfl⟩ - b hb
    have := ((hw.mapped k hk).owns_area hb).le
    exact hout b (.inr (by omega))
  · rintro k _ _ ⟨hk, rfl, rfl⟩
    by_cases hki : k = i
    · rw [hki, inodeAt_setInode_self, hx.fileBlocks_eq]
      exact .inr ⟨hx.mapped _, hx.vacant _, fun b hb => absurd hb (hx.not_owns _ b)⟩
    · rw [inodeAt_setInode_of_ne hki]
      exact .inl ⟨hki, huse k hk hki, rfl, rfl⟩

end WellFormed

/-! ## Blank disks -/

/-- A formatted disk without files. -/
def blank (datablocks_count : ℕ) : Disk := fun b => .ofFn fun o =>
  if b = 0 then
    SuperBlock.byte ⟨0, .ofNat (datablocks_count + 42), .ofNat datablocks_count, 320, 1, 41⟩ o
  else 0

theorem superOf_blank (n : ℕ) :
    superOf (blank n) = ⟨0, .ofNat (n + 42), .ofNat n, 320, 1, 41⟩ :=
  SuperBlock.ofBytes_byte fun o ho => by
    rw [blank, Buffer.byte_ofFn (by omega), if_pos rfl]

theorem dataCount_blank (hn : n + 42 < 2 ^ 32) : dataCount (blank n) = n := by
  rw [dataCount, superOf_blank]
  exact Nat.mod_eq_of_lt (by omega)

theorem byte_blank (hb : b ≠ 0) (o : ℕ) : (blank n b).byte o = 0 := by
  simp [blank, Buffer.byte, Buffer.ofFn, hb]

theorem type_blank (i : ℕ) : (inodeAt (blank n) i).type = .none := by
  simp [inodeAt, InodeDef.load, InodeDef.ofBytes, byte_blank, FileType.ofByte]

theorem not_inUse_blank (i : ℕ) : ¬ InUse (blank n) i := fun h => h.2 (type_blank i)

theorem formatted_blank (hn : n + 42 < 2 ^ 32) : Formatted (blank n) := by
  refine ⟨?_, ?_, ?_, ?_⟩
  · rw [superOf_blank]; rfl
  · rw [superOf_blank]; rfl
  · rw [superOf_blank]; rfl
  · rw [dataCount_blank hn, fsSize, superOf_blank]
    exact (Nat.mod_eq_of_lt hn).symm

theorem wellFormed_blank (hn : n + 42 < 2 ^ 32) : WellFormed (blank n) where
  formatted := formatted_blank hn
  index i hi := absurd hi (not_inUse_blank i)
  mapped i hi := absurd hi (not_inUse_blank i)
  vacant i hi := absurd hi (not_inUse_blank i)
  disjoint i _ hi := absurd hi (not_inUse_blank i)

theorem freeCount_blank (hn : n + 42 < 2 ^ 32) : freeCount (blank n) = min 4096 n := by
  have hbit : ∀ k, bitAt (blank n 41).byte k = false := fun k => by
    simp [bitAt, byte_blank]
  simp [freeCount, hbit, dataCount_blank hn]

/-- A blank disk with an empty root directory. -/
def rootDisk (datablocks_count : ℕ) : Disk :=
  setInode (blank datablocks_count) 0 { type := .directory, link_count := 1 }

/-- A disk with an empty root directory and an empty regular file, which no entry names. -/
def sampleDisk (datablocks_count : ℕ) : Disk :=
  setInode (rootDisk datablocks_count) 1
    { inode_index := 1, type := .regular_file, link_count := 1 }

theorem empty_sampleRoot : Empty { type := .directory, link_count := 1 } 0 :=
  ⟨rfl, rfl, by simp [InodeDef.addrAt], rfl⟩

theorem wellFormed_rootDisk (hn : n + 42 < 2 ^ 32) : WellFormed (rootDisk n) :=
  (wellFormed_blank hn).setInode_empty (by omega) empty_sampleRoot

theorem inodeAt_rootDisk (n : ℕ) :
    inodeAt (rootDisk n) 0 = { type := .directory, link_count := 1 } := by
  rw [rootDisk, inodeAt_setInode_self]

theorem freeCount_rootDisk (hn : n + 42 < 2 ^ 32) : freeCount (rootDisk n) = min 4096 n := by
  have hout : ∀ o, o = 0 ∨ 41 ≤ o → rootDisk n o = blank n o := fun o ho =>
    setInode_outside (by omega) ho
  rw [← freeCount_blank hn, freeCount_congr (hout 0 (.inl rfl)) (hout 41 (.inr le_rfl))]

theorem empty_sampleFile :
    Empty { inode_index := 1, type := .regular_file, link_count := 1 } 1 :=
  ⟨rfl, rfl, by simp [InodeDef.addrAt], rfl⟩

theorem inodeAt_sampleDisk (n : ℕ) : inodeAt (sampleDisk n) 1 =
    { inode_index := 1, type := .regular_file, link_count := 1 } := by
  rw [sampleDisk, inodeAt_setInode_self]

theorem inUse_sampleDisk (n : ℕ) : InUse (sampleDisk n) 1 :=
  ⟨by omega, by rw [inodeAt_sampleDisk]; simp⟩

theorem wellFormed_sampleDisk (hn : n + 42 < 2 ^ 32) : WellFormed (sampleDisk n) := by
  exact (wellFormed_rootDisk hn).setInode_empty (by omega) empty_sampleFile

theorem freeCount_sampleDisk (hn : n + 42 < 2 ^ 32) : freeCount (sampleDisk n) = min 4096 n := by
  have hout : ∀ o, o = 0 ∨ 41 ≤ o → sampleDisk n o = rootDisk n o := fun o ho =>
    setInode_outside (by omega) ho
  rw [← freeCount_rootDisk hn, freeCount_congr (hout 0 (.inl rfl)) (hout 41 (.inr le_rfl))]

/-! ## Writes without a new indirect block -/

theorem run_writeFrom_nil : (writeFrom junk x [] pos done).run d = (.ok (done, x), d) := by
  rw [writeFrom]; simp

/-- The first part of `WriteImpl` for a file that has no indirect block yet. -/
theorem run_writeBlock_create (junk : Sector) (hf : Formatted d) (hk : 12 ≤ k)
    (hz : x.indirect_addr.toNat = 0) :
    (writeBlock junk x k).run d = match nextFree d with
      | none => (.ok (none, x), d)
      | some a => match nextFree (mark d a) with
        | none => (.ok (none, x), mark d a)
        | some b => (.ok (some b, { x with indirect_addr := .ofNat a }),
            Function.update (mark (mark d a) b) a (setIndirectWord junk 0 b)) := by
  have h12 : ¬ k < 12 := by omega
  cases ha : nextFree d with
  | none => simp [writeBlock, h12, hz, run_bind, run_allocDataBlock hf, ha]
  | some a =>
    have hf' : Formatted (mark d a) := hf.congr (mark_of_ne (by omega))
    cases hb : nextFree (mark d a) <;>
      simp [writeBlock, h12, hz, run_bind, run_allocDataBlock hf, run_allocDataBlock hf', ha, hb]

/-- With fewer than two free blocks the attempt to create an indirect block changes at most the
bit map. -/
theorem run_writeFrom_create_full (junk : Sector) (done : ℕ) (hf : Formatted d)
    (hz : x.indirect_addr.toNat = 0)
    (hfree : freeCount d < 2) (hbuf : buf ≠ []) :
    (writeFrom junk x buf (512 * 12) done).run d = (.ok (done, x), d) ∨
    ∃ a, Free d a ∧ (writeFrom junk x buf (512 * 12) done).run d = (.ok (done, x), mark d a) := by
  have hpb : buf.length > 0 := List.length_pos_iff.mpr hbuf
  have hblock := run_writeBlock_create junk (k := 12) hf le_rfl hz
  rw [writeFrom, dif_pos hpb]
  simp only [writeImpl, BLOCK_SIZE, run_bind, show 512 * 12 / 512 % 2 ^ 32 = 12 from rfl]
  cases ha : nextFree d with
  | none => simp [hblock, ha]
  | some a =>
    have hfa := free_of_nextFree ha
    have hcount := freeCount_mark hfa
    have hb : nextFree (mark d a) = none := freeCount_eq_zero_iff.mp (by omega)
    exact .inr ⟨a, hfa, by simp [hblock, ha, hb]⟩

theorem keepsOwnership_of_not_creates (hw : WellFormed d) (hi : InUse d i)
    (hpos : pos ≤ (inodeAt d i).size.toNat) (hmax : pos + buf.length ≤ 512 * 140)
    (hc : ¬ CreatesIndirect d (inodeAt d i) pos buf.length) : KeepsOwnership d i buf pos := by
  intro junk
  have hidx := hw.index i hi
  obtain ⟨m, d₁, x₁, n₁, hm, hwr, hgo, hend⟩ := run_writeFrom hw.formatted
    (hw.mapped i hi) (fileBlocks_le _) hpos hmax (by rw [hidx]; exact hi.1) (.inr (hw.vacant i hi)) 0
  replace hgo := hgo junk
  have hrun : ∀ r, (writeFrom junk (inodeAt d i) buf pos 0).run d = r →
      (write junk (inodeAt d i) buf pos).run d = r := by
    rintro r rfl
    rw [write, if_neg (by omega)]
  obtain ⟨hw₁, -, hother⟩ := hw.wrote hi hwr
  have hkeep : ∀ j, InUse d j → j ≠ i → inodeAt d₁ j = inodeAt d j ∧
      ∀ b, OwnedBy d j b → d₁ b = d b := fun j hj hne =>
    ⟨hother j hj.1 hne, fun b hb => hw.indirect_kept hi hj hne hwr hb⟩
  have hdone : ∀ {m' y}, (writeFrom junk (inodeAt d i) buf pos 0).run d = (.ok (m', y), d₁) →
      ∃ m x' d', (write junk (inodeAt d i) buf pos).run d = (.ok (m, x'), d') ∧ WellFormed d' ∧
        d' 0 = d 0 ∧
        ∀ j, InUse d j → j ≠ i → inodeAt d' j = inodeAt d j ∧ ∀ b, OwnedBy d j b → d' b = d b :=
    fun he => ⟨_, _, _, hrun _ he, hw₁, hwr.super, hkeep⟩
  rcases hend with hend | ⟨-, -, -, hend⟩ | ⟨hlt, hp, hn, hz⟩
  · rw [hend, List.drop_length, run_writeFrom_nil] at hgo
    exact hdone hgo
  · exact hdone (hend junk)
  · -- the direct slots are full: fewer than two free blocks are left
    have hfree : freeCount d₁ < 2 := by
      by_contra hge
      refine hc ⟨hz, ?_, ?_⟩
      · omega
      · have := hwr.free; omega
    have hz₁ : x₁.indirect_addr.toNat = 0 := by rw [hwr.indirect_addr]; exact hz
    have hpos' : pos + m = 512 * 12 := by omega
    have hrest : buf.drop m ≠ [] := by
      intro he
      have := congrArg List.length he
      simp only [List.length_drop, List.length_nil] at this
      omega
    rw [hpos'] at hgo
    rcases run_writeFrom_create_full junk (0 + m) hw₁.formatted hz₁ hfree hrest with
      he | ⟨a, ha, he⟩
    · rw [he] at hgo
      exact hdone hgo
    · rw [he] at hgo
      have hlow : ∀ o, o ≠ 41 → mark d₁ a o = d₁ o := fun o ho => mark_of_ne ho
      refine ⟨_, _, _, hrun _ hgo, hw₁.mark_free ha, (hlow 0 (by omega)).trans hwr.super,
        fun j hj hne => ?_⟩
      refine ⟨(inodeAt_congr (hlow _ (by have := hj.1; omega))).trans (hkeep j hj hne).1,
        fun b hb => ?_⟩
      have h42 := ((hw.mapped j hj).owns_area hb).le
      rw [hlow b (by omega), (hkeep j hj hne).2 b hb]

/-! ## Writes that create an indirect block -/

/-- A file whose indirect block holds one block number throughout. -/
structure Broken (d : Disk) (x : InodeDef) (i a b : ℕ) : Prop where
  lt : i < 320
  record : inodeAt d i = x
  index : x.inode_index.toNat = i
  type : x.type ≠ .none
  indirect : x.indirect_addr.toNat = a
  words : ∀ k < 128, indirectWord (d a) k = b
  le_a : 42 ≤ a
  le_b : 42 ≤ b
  ne : a ≠ b
  size : 512 * 12 < x.size.toNat

namespace Broken

theorem slot_eq (h : Broken d x i a b) (hk : 12 ≤ k) (hk' : k < 140) : slot d x k = b := by
  rw [slot_of_ge hk, h.indirect]
  exact h.words _ (by omega)

theorem not_wellFormed (h : Broken d x i a b) : ¬ WellFormed d := by
  intro hw
  have hi : InUse d i := ⟨h.lt, by rw [h.record]; exact h.type⟩
  have hm := hw.mapped i hi
  have hv := hw.vacant i hi
  rw [h.record] at hm hv
  have hn : 12 < fileBlocks x := by
    have := h.size
    rw [fileBlocks, blocks]; omega
  have hle := h.le_a
  have hle' := h.le_b
  by_cases h13 : fileBlocks x = 13
  · have := hv.indirect (by rw [h.indirect]; omega) 13 (by omega) (by omega) (by omega)
    rw [h.slot_eq (by omega) (by omega)] at this
    omega
  · have := hm.inj 12 hn 13 (by omega)
        (by rw [h.slot_eq le_rfl (by omega), h.slot_eq (by omega) (by omega)])
    omega

/-- Writing on at the end of the file keeps it broken. -/
theorem writeImpl (h : Broken d x i a b) (junk : Sector) (buf : List UInt8)
    (hpos : pos = x.size.toNat) (hlen : 0 < buf.length)
    (hblk : pos % 512 + buf.length ≤ 512) (hmax : pos + buf.length ≤ 512 * 140) :
    ∃ d' x', (writeImpl junk x buf pos).run d = (.ok (true, x'), d') ∧ Broken d' x' i a b ∧
      x'.size.toNat = pos + buf.length := by
  have hsize := h.size
  have hle_a := h.le_a
  have hle_b := h.le_b
  have hidx : pos / 512 % 2 ^ 32 = pos / 512 := Nat.mod_eq_of_lt (by omega)
  have h12 : ¬ pos / 512 < 12 := by omega
  have h128 : pos / 512 - 12 < 128 := by omega
  have hb0 : b ≠ 0 := by omega
  have ha0 : a ≠ 0 := by omega
  have hblock : (writeBlock junk x (pos / 512)).run d = (.ok (some b, x), d) := by
    simp [writeBlock, h12, h.indirect, ha0, run_bind, h128, h.words _ h128, hb0]
  have hsz : (UInt32.ofNat (pos + buf.length)).toNat = pos + buf.length := by
    rw [UInt32.toNat_ofNat', Nat.mod_eq_of_lt (by omega)]
  refine ⟨setInode (putData d b (pos % 512) buf) i { x with size := .ofNat (pos + buf.length) },
    { x with size := .ofNat (pos + buf.length) }, ?_, ⟨h.lt, inodeAt_setInode_self _ _ _,
    h.index, h.type, h.indirect, fun k hk => ?_, hle_a, hle_b, h.ne, ?_⟩, hsz⟩
  · simp only [Fs.writeImpl, BLOCK_SIZE, hidx, run_bind, hblock, run_writeData hblk,
      if_pos (show pos + buf.length > x.size.toNat by omega), h.index, run_updateInode h.lt, run_pure]
  · rw [setInode_outside h.lt (.inr (by omega)), putData, Function.update_of_ne h.ne]
    exact h.words k hk
  · rw [hsz]; omega

theorem writeFrom (h : Broken d x i a b) (junk : Sector) (buf : List UInt8) (done : ℕ)
    (hpos : pos = x.size.toNat)
    (hmax : pos + buf.length ≤ 512 * 140) :
    ∃ x' d', (writeFrom junk x buf pos done).run d = (.ok (done + buf.length, x'), d') ∧
      Broken d' x' i a b := by
  induction hlen : buf.length using Nat.strong_induction_on generalizing d x buf pos done with
  | _ len ih =>
  subst hlen
  by_cases hnil : buf = []
  · subst hnil
    exact ⟨x, d, run_writeFrom_nil, h⟩
  have hpb : buf.length > 0 := List.length_pos_iff.mpr hnil
  have hr : pos % 512 < 512 := Nat.mod_lt _ (by omega)
  obtain ⟨r, hr_def⟩ : ∃ r, r = min buf.length (512 - pos % 512) := ⟨_, rfl⟩
  have hrl : (buf.take r).length = r := by rw [List.length_take]; omega
  have hdl : (buf.drop r).length = buf.length - r := List.length_drop
  obtain ⟨d₁, x₁, hrun, hbr, hsz⟩ := h.writeImpl junk (buf.take r) hpos (by omega)
    (by omega) (by omega)
  obtain ⟨x₂, d₂, hrun₂, hbr₂⟩ := ih _ (by omega) hbr (buf.drop r) (done + r)
    (show pos + r = x₁.size.toNat by omega) (by omega) rfl
  have hdone : done + r + (buf.drop r).length = done + buf.length := by omega
  rw [hdone] at hrun₂
  refine ⟨x₂, d₂, ?_, hbr₂⟩
  rw [Fs.writeFrom, dif_pos hpb]
  simp only [BLOCK_SIZE, ← hr_def, run_bind, hrun, hrun₂]

end Broken

/-- The contents of an uninitialised indirect block that happens to hold one number throughout. -/
def constantWords (b : ℕ) : Sector := .ofFn fun o => leByte b (o % 4)

theorem indirectWord_constantWords (hk : k < 128) (hb : b < 2 ^ 32) :
    indirectWord (constantWords b) k = b := by
  have hv : (UInt32.ofNat b).toNat = b := by rw [UInt32.toNat_ofNat', Nat.mod_eq_of_lt hb]
  have hw : wordAt (constantWords b).byte (4 * k) = UInt32.ofNat b := by
    apply wordAt_of_leByte
    intro j hj
    rw [constantWords, Buffer.byte_ofFn (by omega), hv, show (4 * k + j) % 4 = j by omega]
  rw [indirectWord, hw, hv]

/-- A new indirect block on such a stack breaks the file. -/
theorem Broken.create (buf : List UInt8) (hf : Formatted d) (ha : nextFree d = some a)
    (hb : nextFree (mark d a) = some b) (hi : i < 320) (hidx : x.inode_index.toNat = i)
    (ht : x.type ≠ .none) (hz : x.indirect_addr.toNat = 0) (hsize : x.size.toNat ≤ 512 * 12)
    (hlen : 0 < buf.length) (hle : buf.length ≤ 512) :
    ∃ d' x', (Fs.writeImpl (constantWords b) x buf (512 * 12)).run d = (.ok (true, x'), d') ∧
      Broken d' x' i a b ∧ x'.size.toNat = 512 * 12 + buf.length := by
  have hfa := free_of_nextFree ha
  have hfb := free_of_nextFree hb
  have hab : a ≠ b := fun he => hfb.not_marked (he ▸ (marked_mark_iff hfa).mpr (.inl rfl))
  have ha32 : a < 2 ^ 32 := (hfa.lt_fsSize hf).trans (fsSize_lt _)
  have hb32 : b < 2 ^ 32 :=
    (hfb.lt_fsSize (hf.congr (mark_of_ne (by omega)))).trans (fsSize_lt _)
  have hle_a := hfa.le
  have hle_b := hfb.le
  have hblock := run_writeBlock_create (constantWords b) (k := 12) hf le_rfl hz
  simp only [ha, hb] at hblock
  have hsz : (UInt32.ofNat (512 * 12 + buf.length)).toNat = 512 * 12 + buf.length := by
    rw [UInt32.toNat_ofNat', Nat.mod_eq_of_lt (by omega)]
  have haw : (UInt32.ofNat a).toNat = a := by rw [UInt32.toNat_ofNat', Nat.mod_eq_of_lt ha32]
  let y : InodeDef :=
    { x with indirect_addr := .ofNat a, size := .ofNat (512 * 12 + buf.length) }
  let e := putData (Function.update (mark (mark d a) b) a (setIndirectWord (constantWords b) 0 b))
    b 0 buf
  refine ⟨setInode e i y, y, ?_, ⟨hi, inodeAt_setInode_self _ _ _, hidx, ht, haw, fun k hk => ?_,
    hle_a, hle_b, hab, ?_⟩, hsz⟩
  · simp only [Fs.writeImpl, BLOCK_SIZE, show 512 * 12 / 512 % 2 ^ 32 = 12 from rfl, run_bind,
      hblock, run_writeData (show 512 * 12 % 512 + buf.length ≤ 512 by omega),
      if_pos (show 512 * 12 + buf.length > x.size.toNat by omega), hidx, run_updateInode hi, run_pure]
    rfl
  · rw [setInode_outside hi (.inr (by omega)), show e a = setIndirectWord (constantWords b) 0 b by
      simp [e, putData, Function.update_of_ne hab]]
    by_cases hk0 : k = 0
    · rw [hk0, indirectWord_set_self (by omega) hb32]
    · rw [indirectWord_set_of_ne hk0, indirectWord_constantWords hk hb32]
  · rw [hsz]; omega

/-- On some stack, a write that creates an indirect block writes everything and leaves a broken file. -/
theorem exists_broken (hw : WellFormed d) (hi : InUse d i)
    (hpos : pos ≤ (inodeAt d i).size.toNat) (hmax : pos + buf.length ≤ 512 * 140)
    (hc : CreatesIndirect d (inodeAt d i) pos buf.length) :
    ∃ a b x' d', (write (constantWords b) (inodeAt d i) buf pos).run d = (.ok (buf.length, x'), d') ∧
      Broken d' x' i a b := by
  obtain ⟨hz, hbig, hfree⟩ := hc
  have hidx := hw.index i hi
  obtain ⟨m, d₁, x₁, n₁, hm, hwr, hgo, hend⟩ := run_writeFrom hw.formatted
    (hw.mapped i hi) (fileBlocks_le _) hpos hmax (by rw [hidx]; exact hi.1) (.inr (hw.vacant i hi)) 0
  obtain ⟨hw₁, hself, -⟩ := hw.wrote hi hwr
  have hcount := hwr.free
  have hblocks := hwr.blocks_eq
  have h12 : ∀ n, 12 < n → Mapped d₁ x₁ n → x₁.indirect_addr.toNat ≠ 0 := fun n hn h => h.indirect_ne hn
  have hz₁ : x₁.indirect_addr.toNat = 0 := by rw [hwr.indirect_addr]; exact hz
  have hn₁ : n₁ ≤ 12 := by
    by_contra hgt
    exact h12 n₁ (by omega) hwr.mapped hz₁
  have hlen : (buf.take m).length = m := by rw [List.length_take]; omega
  rw [hlen] at hblocks
  have hle := hwr.le
  have hfree₁ : 2 ≤ freeCount d₁ := by
    have : n₁ - fileBlocks (inodeAt d i) ≤ 12 - fileBlocks (inodeAt d i) := by omega
    omega
  -- the loop has stopped where the first indirect block is due
  have hstop : m < buf.length ∧ pos + m = 512 * 12 := by
    rcases hend with hend | ⟨-, -, hnone, -⟩ | ⟨hlt, hp, hn, -⟩
    · rw [blocks] at hblocks; omega
    · rw [← freeCount_eq_zero_iff] at hnone; omega
    · exact ⟨hlt, by omega⟩
  obtain ⟨hlt, hp⟩ := hstop
  obtain ⟨a, ha⟩ : ∃ a, nextFree d₁ = some a := by
    rw [← Option.ne_none_iff_exists', ne_eq, ← freeCount_eq_zero_iff]; omega
  have hfa := free_of_nextFree ha
  have hca := freeCount_mark hfa
  obtain ⟨b, hb⟩ : ∃ b, nextFree (mark d₁ a) = some b := by
    rw [← Option.ne_none_iff_exists', ne_eq, ← freeCount_eq_zero_iff]; omega
  -- one more step breaks the file, and the rest of the loop leaves it broken
  have hrest : (buf.drop m).length > 0 := by rw [List.length_drop]; omega
  obtain ⟨r, hr⟩ : ∃ r, r = min (buf.drop m).length 512 := ⟨_, rfl⟩
  have hrl : ((buf.drop m).take r).length = r := by rw [List.length_take]; omega
  have hsize₁ : x₁.size.toNat ≤ 512 * 12 := by
    have := fileBlocks_le (inodeAt d i)
    rw [hwr.size, hlen]
    omega
  obtain ⟨d₂, x₂, hrun₂, hbr, hsz⟩ := Broken.create ((buf.drop m).take r)
    hw₁.formatted ha hb hi.1 (by rw [hwr.inode_index, hidx]) (by rw [hwr.type]; exact hi.2) hz₁
    hsize₁ (by omega) (by omega)
  have hdl : ((buf.drop m).drop r).length = buf.length - m - r := by
    rw [List.length_drop, List.length_drop]
  obtain ⟨x₃, d₃, hrun₃, hbr₃⟩ := hbr.writeFrom (constantWords b)
    ((buf.drop m).drop r) (0 + m + r) (show 512 * 12 + r = x₂.size.toNat by omega) (by omega)
  have hdone : 0 + m + r + ((buf.drop m).drop r).length = buf.length := by
    rw [hdl]
    rw [List.length_drop] at hr
    omega
  rw [hdone] at hrun₃
  refine ⟨a, b, x₃, d₃, ?_, hbr₃⟩
  rw [write, if_neg (by omega), hgo, hp, writeFrom, dif_pos hrest]
  simp only [BLOCK_SIZE, show 512 - 512 * 12 % 512 = 512 from rfl, ← hr, run_bind, hrun₂, hrun₃]

theorem not_keepsOwnership_of_creates (hw : WellFormed d) (hi : InUse d i)
    (hpos : pos ≤ (inodeAt d i).size.toNat) (hmax : pos + buf.length ≤ 512 * 140)
    (hc : CreatesIndirect d (inodeAt d i) pos buf.length) : ¬ KeepsOwnership d i buf pos := by
  intro hkeep
  obtain ⟨a, b, x', d', hrun, hbr⟩ := exists_broken hw hi hpos hmax hc
  obtain ⟨m, y, e, hrun', hwe, -, -⟩ := hkeep (constantWords b)
  rw [hrun, Prod.mk.injEq] at hrun'
  exact hbr.not_wellFormed (hrun'.2 ▸ hwe)

/-! ## When a write keeps ownership -/

/-- A write within the largest file size keeps the blocks of the files apart exactly when it creates
no indirect block. -/
theorem write_keepsOwnership_iff (hw : WellFormed d) (hi : InUse d i)
    (hpos : pos ≤ (inodeAt d i).size.toNat) (hmax : pos + buf.length ≤ 512 * 140) :
    KeepsOwnership d i buf pos ↔ ¬ CreatesIndirect d (inodeAt d i) pos buf.length :=
  ⟨fun h hc => not_keepsOwnership_of_creates hw hi hpos hmax hc h,
    keepsOwnership_of_not_creates hw hi hpos hmax⟩

/-- A short write to an empty file. -/
theorem write_keepsOwnership_short : KeepsOwnership (sampleDisk 100) 1 [104, 105] 0 :=
  (write_keepsOwnership_iff (wellFormed_sampleDisk (by omega)) (inUse_sampleDisk 100) (by omega)
    (by decide)).mpr fun h => absurd h.2.1 (by decide)

/-- Writing thirteen blocks to an empty file breaks a well-formed disk. -/
theorem write_breaks_ownership : ¬ ∀ (d : Disk) (i : ℕ) (buf : List UInt8) (pos : ℕ),
    WellFormed d → InUse d i → pos ≤ (inodeAt d i).size.toNat → pos + buf.length ≤ 512 * 140 →
    KeepsOwnership d i buf pos := by
  intro h
  have hlen : (List.replicate 6145 (0 : UInt8)).length = 6145 := List.length_replicate
  have hw := wellFormed_sampleDisk (n := 100) (by omega)
  refine not_keepsOwnership_of_creates hw (inUse_sampleDisk 100) (Nat.zero_le _)
    (show 0 + (List.replicate 6145 (0 : UInt8)).length ≤ 512 * 140 by omega) ⟨?_, by omega, ?_⟩
    (h _ _ _ _ hw (inUse_sampleDisk 100) (by omega) (by omega))
  · rw [inodeAt_sampleDisk]; rfl
  · rw [inodeAt_sampleDisk, freeCount_sampleDisk (by omega), empty_sampleFile.fileBlocks_eq]
    omega

end OrangeOs.Fs
