import OrangeOs.Filesystem.Extend

/-! # Writes past the largest file size

A file has 12 direct slots and 128 slots in its indirect block. `WriteImpl` does not test that the
block index is below 140: a write that gets there reads past the array of the indirect block. What a
write leaves when it ends below is a file that `Read` can read.
-/

namespace OrangeOs.Fs

open Prog

variable {d d' : Disk} {x x' : InodeDef} {n m k pos done : ℕ} {junk : Sector} {buf p q : List UInt8}

/-! ## Below the limit -/

theorem allocDataBlock_returns : allocDataBlock.Returns fun _ => True := by
  have hsuper : getSuperNode.Returns fun _ => True :=
    (Returns.readSector _).bind fun _ _ => .pure trivial
  refine hsuper.bind fun super_block _ => (Returns.readSector _).bind fun buf _ => ?_
  split
  · exact .pure trivial
  · exact .ite (fun _ => .pure trivial) fun _ => (Returns.writeSector _ _).bind fun _ _ =>
      (Returns.emit _).bind fun _ _ => .pure trivial

theorem writeFileBlock_returns (b : ℕ) (s : Sector) : (writeFileBlock b s).Returns fun _ => True :=
  (Returns.emit _).bind fun _ _ => .writeSector _ _

theorem updateInode_returns (k : ℕ) (x : InodeDef) : (updateInode k x).Returns fun _ => True :=
  (Returns.readSector _).bind fun _ _ => .writeSector _ _

/-- Below the limit there is no access outside an array, whatever the disk holds. -/
theorem writeBlock_returns (junk : Sector) (x : InodeDef) (hk : k < 140) :
    (writeBlock junk x k).Returns fun r => r.2.size = x.size := by
  rw [writeBlock]
  refine .ite (fun _ => .ite (fun _ => ?_) fun _ => .pure rfl) fun h12 =>
    .ite (fun _ => ?_) fun _ => ?_
  · refine allocDataBlock_returns.bind fun r _ => ?_
    obtain ⟨_ | _, b⟩ := r
    · exact .pure rfl
    · exact .pure (by simp only [InodeDef.setAddr])
  · refine allocDataBlock_returns.bind fun r _ => allocDataBlock_returns.bind fun r' _ => ?_
    exact .ite (fun _ => (writeFileBlock_returns _ _).bind fun _ _ => .pure rfl) fun _ => .pure rfl
  · refine (Returns.readSector _).bind fun s _ => ?_
    have h128 : k - DIRECT_ADDR_SIZE < 128 := by
      simp only [DIRECT_ADDR_SIZE]
      omega
    rw [if_pos h128]
    refine .ite (fun _ => ?_) fun _ => .pure rfl
    refine allocDataBlock_returns.bind fun r _ => ?_
    obtain ⟨_ | _, b⟩ := r
    · exact .pure rfl
    · exact (writeFileBlock_returns _ _).bind fun _ _ => .pure rfl

theorem writeData_returns (b : ℕ) (buf : List UInt8) (pos : ℕ) :
    (writeData b buf pos).Returns fun _ => True :=
  .ite (fun _ => (Returns.readSector _).bind fun _ _ => writeFileBlock_returns _ _)
    fun _ => writeFileBlock_returns _ _

theorem writeImpl_returns (junk : Sector) (x : InodeDef) (hlen : 0 < buf.length)
    (hmax : pos + buf.length ≤ 512 * 140) :
    (writeImpl junk x buf pos).Returns fun r => r.2.size.toNat ≤
    max x.size.toNat (pos + buf.length) := by
  have hk : pos / BLOCK_SIZE % 2 ^ 32 < 140 := by
    have : pos / 512 % 2 ^ 32 = pos / 512 := Nat.mod_eq_of_lt (by omega)
    simp only [BLOCK_SIZE]
    omega
  refine (writeBlock_returns junk x hk).bind fun r hr => ?_
  obtain ⟨_ | b, y⟩ := r
  · exact .pure (hr ▸ le_max_left _ _)
  · have hy : y.size = x.size := hr
    refine (writeData_returns b buf pos).bind fun _ _ => ?_
    split
    · have hsize : (UInt32.ofNat (pos + buf.length)).toNat = pos + buf.length := by
        rw [UInt32.toNat_ofNat', Nat.mod_eq_of_lt (by omega)]
      refine (updateInode_returns _ _).bind fun _ _ => .pure ?_
      exact hsize.trans_le (le_max_right _ _)
    · exact .pure (hy ▸ le_max_left _ _)

/-- A write that ends below the limit returns, and leaves a file below the limit. -/
theorem writeFrom_returns (junk : Sector) (x : InodeDef)
    (hmax : pos + buf.length ≤ 512 * 140) (done : ℕ) :
    (writeFrom junk x buf pos done).Returns fun r => done ≤ r.1 ∧ r.1 ≤ done + buf.length ∧
      r.2.size.toNat ≤ max x.size.toNat (pos + buf.length) := by
  induction hlen : buf.length using Nat.strong_induction_on generalizing x buf pos done with
  | _ len ih =>
  subst hlen
  rw [writeFrom]
  split
  · next h0 =>
    obtain ⟨r, hr⟩ : ∃ r, r = min buf.length (BLOCK_SIZE - pos % BLOCK_SIZE) := ⟨_, rfl⟩
    have hr' : r = min buf.length (512 - pos % 512) := hr
    have hmod : pos % 512 < 512 := Nat.mod_lt _ (by omega)
    have htake : (buf.take r).length = r := List.length_take_of_le (by omega)
    have hdrop : (buf.drop r).length = buf.length - r := List.length_drop
    simp only [← hr]
    refine (writeImpl_returns junk x (show 0 < (buf.take r).length by omega) (by omega)).bind
      fun a ha => ?_
    obtain ⟨_ | _, y⟩ := a
    · exact .pure ⟨le_rfl, Nat.le_add_right _ _, ha.trans (by omega)⟩
    · refine (ih _ (by omega) y (show pos + r + (buf.drop r).length ≤ 512 * 140 by omega) (done + r)
        rfl).mono fun b hb => ⟨by omega, by omega, hb.2.2.trans ?_⟩
      have hy : y.size.toNat ≤ max x.size.toNat (pos + (buf.take r).length) := ha
      omega
  · exact .pure ⟨le_rfl, Nat.le_add_right _ _, le_max_left _ _⟩

/-! ## At the limit -/

/-- A buffer of which the first part ends at a block boundary. -/
theorem run_writeFrom_append (junk : Sector) (x : InodeDef) (d : Disk) (hp : (pos + p.length) % 512 = 0)
    (q : List UInt8) (done : ℕ) : (writeFrom junk x (p ++ q) pos done).run d =
      match (writeFrom junk x p pos done).run d with
      | (.error e, d') => (.error e, d')
      | (.ok (m, x'), d') =>
        if m = done + p.length then (writeFrom junk x' q (pos + p.length) m).run d' else
          (.ok (m, x'), d') := by
  induction hlen : p.length using Nat.strong_induction_on generalizing d x p pos done with
  | _ len ih =>
  subst hlen
  by_cases hnil : p = []
  · subst hnil
    rw [run_writeFrom_nil]
    simp
  have hpb : p.length > 0 := List.length_pos_iff.mpr hnil
  have hmod : pos % 512 < 512 := Nat.mod_lt _ (by omega)
  obtain ⟨r, hr⟩ : ∃ r, r = min p.length (512 - pos % 512) := ⟨_, rfl⟩
  have hr₁ : min p.length (BLOCK_SIZE - pos % BLOCK_SIZE) = r := hr.symm
  have hr₂ : min (p ++ q).length (BLOCK_SIZE - pos % BLOCK_SIZE) = r := by
    rw [List.length_append]
    simp only [BLOCK_SIZE]
    omega
  have hdrop : (p.drop r).length = p.length - r := List.length_drop
  rw [writeFrom, writeFrom, dif_pos (by rw [List.length_append]; omega), dif_pos hpb]
  simp only [hr₁, hr₂, List.take_append_of_le_length (show r ≤ p.length by omega),
    List.drop_append_of_le_length (show r ≤ p.length by omega), run_bind]
  rcases (writeImpl junk x (p.take r) pos).run d with ⟨_ | ⟨_ | _, y⟩, e⟩
  · rfl
  · simp only [run_pure]
    rw [if_neg (by omega)]
  · simp only
    rw [ih _ (by omega) y e (show (pos + r + (p.drop r).length) % 512 = 0 by rw [← hp]; congr 1; omega)
      (done + r) rfl]
    have hpos : pos + r + (p.length - r) = pos + p.length := by omega
    have hdone : done + r + (p.length - r) = done + p.length := by omega
    simp only [hdrop, hpos, hdone]

theorem run_writeFrom_past (junk : Sector) (hz : x.indirect_addr.toNat ≠ 0) (hbuf : buf ≠ []) (d : Disk)
    (done : ℕ) : (writeFrom junk x buf (512 * 140) done).run d = (.error .outOfBounds, d) := by
  have hpb : buf.length > 0 := List.length_pos_iff.mpr hbuf
  have hblock : (writeBlock junk x 140).run d = (.error .outOfBounds, d) := by
    simp [writeBlock, run_bind, hz]
  rw [writeFrom, dif_pos hpb]
  simp only [writeImpl, BLOCK_SIZE, show 512 * 140 / 512 % 2 ^ 32 = 140 from rfl, run_bind, hblock]

/-! ## When a write stays below -/

variable {i : ℕ}

/-- Whatever the stack holds, the write returns, and the file that it leaves is not larger than 140
blocks and can be read. -/
def KeepsLimit (d : Disk) (i : ℕ) (buf : List UInt8) (pos : ℕ) : Prop :=
  ∀ junk, ∃ m x' d', (write junk (inodeAt d i) buf pos).run d = (.ok (m, x'), d') ∧ m ≤ buf.length ∧
    x'.size.toNat ≤ 140 * 512 ∧ ∀ len, x'.size.toNat ≤ len →
      (FileStream.read ⟨0, x'⟩ len).run d' = (.ok (contents d' x', ⟨x'.size.toNat, x'⟩), d')

/-- The write ends below the limit, or there are not enough free blocks to get there; for a file
without an indirect block, not even for the indirect block and its first data block. -/
def StaysBelow (d : Disk) (x : InodeDef) (pos len : ℕ) : Prop :=
  pos + len ≤ 512 * 140 ∨
    freeCount d < if x.indirect_addr.toNat = 0 then 14 - fileBlocks x else 140 - fileBlocks x

/-- A write that runs out of free blocks before the limit. -/
theorem run_write_short (hw : WellFormed d) (hi : InUse d i) (hpos : pos ≤ (inodeAt d i).size.toNat)
    (hlimit : 512 * 140 < pos + buf.length)
    (hfree : freeCount d < if (inodeAt d i).indirect_addr.toNat = 0 then 14 - fileBlocks (inodeAt d i)
      else 140 - fileBlocks (inodeAt d i)) (junk : Sector) :
    ∃ m x' d', (write junk (inodeAt d i) buf pos).run d = (.ok (m, x'), d') ∧ m ≤ buf.length ∧
      x'.size.toNat ≤ 512 * 140 := by
  obtain ⟨x, hx⟩ : ∃ x, x = inodeAt d i := ⟨_, rfl⟩
  have hm := hw.mapped i hi
  have hidx := hw.index i hi
  have hv := hw.vacant i hi
  have hsz := fileBlocks_le (inodeAt d i)
  rw [← hx] at hm hidx hv hsz hpos hfree ⊢
  have hle := hm.le
  have h12 := hm.indirect_ne
  -- up to where there is room for the blocks
  obtain ⟨e, he⟩ : ∃ e, e = if x.indirect_addr.toNat = 0 then 12 else 140 := ⟨_, rfl⟩
  have hne : fileBlocks x ≤ e := by
    split_ifs at he <;> omega
  obtain ⟨p, hp⟩ : ∃ p, p = buf.take (512 * e - pos) := ⟨_, rfl⟩
  have hplen : p.length = 512 * e - pos := by
    rw [hp]
    refine List.length_take_of_le ?_
    split_ifs at he <;> omega
  have hple : p.length ≤ buf.length := hp ▸ List.length_take_le' ..
  obtain ⟨m, d₁, x₁, n₁, hmle, hwr, hgo, hend⟩ := run_writeFrom hw.formatted hm hsz hpos
    (show pos + p.length ≤ 512 * 140 by split_ifs at he <;> omega) (by rw [hidx]; exact hi.1) (.inr hv) 0
  have htake : (p.take m).length = m := List.length_take_of_le hmle
  have hsize₁ : x₁.size.toNat ≤ 512 * 140 := by
    rw [hwr.size, htake]
    split_ifs at he <;> omega
  have hn₁ := hwr.blocks_eq
  have hcount := hwr.free
  rw [htake, blocks] at hn₁
  have happend := run_writeFrom_append junk x d
    (show (pos + p.length) % 512 = 0 by rw [hplen]; omega) (buf.drop (512 * e - pos)) 0
  rw [hp, List.take_append_drop, ← hp] at happend
  rw [write, if_neg (by omega), happend]
  rcases hend with rfl | ⟨hlt, -, -, hrun⟩ | ⟨hlt, hat, hn, hz⟩
  · have hrun := hgo junk
    rw [List.drop_length, run_writeFrom_nil] at hrun
    -- there are too few free blocks for the indirect block and its first data block
    have hz : x.indirect_addr.toNat = 0 := by
      by_contra hz
      rw [if_neg hz] at hfree he
      omega
    rw [if_pos hz] at hfree he
    subst he
    have hrest : buf.drop (512 * 12 - pos) ≠ [] := by
      intro hnil
      have := congrArg List.length hnil
      simp only [List.length_drop, List.length_nil] at this
      omega
    have hat : pos + p.length = 512 * 12 := by omega
    simp only [hrun, if_true, hat, Nat.zero_add]
    have hz₁ : x₁.indirect_addr.toNat = 0 := by rwa [hwr.indirect_addr]
    rcases run_writeFrom_create_full junk p.length (hw.formatted.congr hwr.super) hz₁
      (show freeCount d₁ < 2 by omega) hrest with hend | ⟨a, -, hend⟩
    · exact ⟨_, _, _, hend, by omega, hsize₁⟩
    · exact ⟨_, _, _, hend, by omega, hsize₁⟩
  · simp only [hrun junk, Nat.zero_add, hlt.ne, if_false]
    exact ⟨m, x₁, d₁, rfl, by omega, hsize₁⟩
  · rw [if_pos hz] at he
    omega

/-- A write that gets past the limit reads past the array of the indirect block. -/
theorem run_write_past (hw : WellFormed d) (hi : InUse d i) (hpos : pos ≤ (inodeAt d i).size.toNat)
    (hs : ¬ StaysBelow d (inodeAt d i) pos buf.length) :
    ∃ junk d', (write junk (inodeAt d i) buf pos).run d = (.error .outOfBounds, d') := by
  obtain ⟨hlimit, hfree⟩ := not_or.mp hs
  rw [not_le] at hlimit
  rw [not_lt] at hfree
  have hm := hw.mapped i hi
  have hle := hm.le
  have h12 := hm.indirect_ne
  have hsz := fileBlocks_le (inodeAt d i)
  obtain ⟨p, hp⟩ : ∃ p, p = buf.take (512 * 140 - pos) := ⟨_, rfl⟩
  have hplen : p.length = 512 * 140 - pos := by
    rw [hp]
    exact List.length_take_of_le (by omega)
  have hat : pos + p.length = 512 * 140 := by omega
  have hrest : buf.drop (512 * 140 - pos) ≠ [] := by
    intro hnil
    have := congrArg List.length hnil
    simp only [List.length_drop, List.length_nil] at this
    omega
  -- the first part is written as a whole
  have hfull : ∃ junk x' d', (write junk (inodeAt d i) p pos).run d = (.ok (p.length, x'), d') ∧
      x'.indirect_addr.toNat ≠ 0 := by
    by_cases hz : (inodeAt d i).indirect_addr.toNat = 0
    · rw [if_pos hz] at hfree
      obtain ⟨a, b, x', d', hrun, hbr⟩ := exists_broken hw hi hpos hat.le
        ⟨hz, by omega, by have := h12; omega⟩
      have hne := hbr.le_a
      exact ⟨_, x', d', hrun, by rw [hbr.indirect]; omega⟩
    · rw [if_neg hz] at hfree
      obtain ⟨d', x', n', hrun, hwr⟩ := run_write_all hw.formatted hm hsz hpos hat.le
        (by rw [hw.index i hi]; exact hi.1) (.inr (hw.vacant i hi)) (.inr hz)
        (by rw [hat, blocks]; omega)
      exact ⟨.ofFn fun _ => 0, x', d', hrun _, by rwa [hwr.indirect_addr]⟩
  obtain ⟨junk, x', d', hrun, hz⟩ := hfull
  refine ⟨junk, d', ?_⟩
  have happend := run_writeFrom_append junk (inodeAt d i) d
    (show (pos + p.length) % 512 = 0 by rw [hat]) (buf.drop (512 * 140 - pos)) 0
  rw [hp, List.take_append_drop, ← hp] at happend
  rw [write, if_neg (by omega)] at hrun ⊢
  simp only [happend, hrun, Nat.zero_add, if_true, hat]
  exact run_writeFrom_past junk hz hrest d' _

/-- Writes keep to the largest file size exactly when they end below it or run out of free blocks
before. -/
theorem write_keepsLimit_iff (hw : WellFormed d) (hi : InUse d i)
    (hpos : pos ≤ (inodeAt d i).size.toNat) :
    KeepsLimit d i buf pos ↔ StaysBelow d (inodeAt d i) pos buf.length := by
  constructor
  · intro h
    by_contra hs
    obtain ⟨junk, d', hrun⟩ := run_write_past hw hi hpos hs
    obtain ⟨m, x', d'', hrun', -⟩ := h junk
    rw [hrun] at hrun'
    cases hrun'
  · intro h junk
    have hsz := hw.size_le hi
    obtain ⟨m, x', d', hrun, hm, hsize⟩ : ∃ m x' d',
        (write junk (inodeAt d i) buf pos).run d = (.ok (m, x'), d') ∧ m ≤ buf.length ∧
        x'.size.toNat ≤ 512 * 140 := by
      by_cases hmax : pos + buf.length ≤ 512 * 140
      · obtain ⟨⟨m, x'⟩, d', hrun, -, hm, hsize⟩ :=
          (writeFrom_returns junk (inodeAt d i) hmax 0).run d
        rw [Nat.zero_add] at hm
        refine ⟨m, x', d', ?_, hm, hsize.trans (max_le hsz hmax)⟩
        rw [write, if_neg (by omega), hrun]
      · exact run_write_short hw hi hpos (not_le.mp hmax) (h.resolve_left hmax) junk
    exact ⟨m, x', d', hrun, hm, by omega, fun len hlen => run_read_all hsize hlen⟩

/-- A short write to an empty file. -/
theorem write_keepsLimit_short : KeepsLimit (sampleDisk 100) 1 [104, 105] 0 :=
  (write_keepsLimit_iff (wellFormed_sampleDisk (by omega)) (inUse_sampleDisk 100) (Nat.zero_le _)).mpr
    (.inl (by decide))

/-- One byte more than 140 blocks, written to an empty file. -/
theorem write_exceeds_limit : ¬ ∀ (d : Disk) (i : ℕ) (buf : List UInt8) (pos : ℕ),
    WellFormed d → InUse d i → pos ≤ (inodeAt d i).size.toNat → KeepsLimit d i buf pos := by
  intro h
  have hlen : (List.replicate 71681 (0 : UInt8)).length = 71681 := List.length_replicate
  have hw := wellFormed_sampleDisk (n := 200) (by omega)
  have hi := inUse_sampleDisk 200
  have hs : ¬ StaysBelow (sampleDisk 200) (inodeAt (sampleDisk 200) 1) 0
      (List.replicate 71681 (0 : UInt8)).length := by
    rw [StaysBelow, hlen, inodeAt_sampleDisk, freeCount_sampleDisk (by omega),
      empty_sampleFile.fileBlocks_eq]
    decide
  obtain ⟨junk, d', hrun⟩ := run_write_past hw hi (Nat.zero_le _) hs
  obtain ⟨m, x', d'', hrun', -⟩ := h _ _ _ _ hw hi (Nat.zero_le _) junk
  rw [hrun] at hrun'
  cases hrun'

end OrangeOs.Fs
