import Mathlib.Data.List.Find
import OrangeOs.Filesystem.Directory

/-! # Adding one entry to a directory

`AllocInode` finds the first record of type none. `CreateImpl` takes it, appends an
entry to the directory and writes the new record. The source ignores the result of the append: with a
full disk the record is written all the same.
-/

namespace OrangeOs.Fs

open Prog

/-- The inode record that the next allocation takes. -/
def nextInode (d : Disk) : Option ℕ :=
  (List.range 320).find? fun j => (inodeAt d j).type = .none

/-- The number of unused inode records. -/
def freeInodes (d : Disk) : ℕ :=
  ((Finset.range 320).filter fun j => (inodeAt d j).type = .none).card

/-- The inode that `CreateImpl` makes. -/
def newInode (j : ℕ) (type : FileType) (major minor : UInt8) : InodeDef :=
  { inode_index := .ofNat j
    type := type
    link_count := 1
    major := if type = .device then major else 0
    minor := if type = .device then minor else 0 }

/-- The number of blocks that an append to a directory allocates. -/
def appendNeed (x : InodeDef) : ℕ := if x.size.toNat % 512 = 0 then 1 else 0

/-- The effect of making inode `j` and naming it in directory `i`. -/
structure Created (d : Disk) (i j : ℕ) (name : List UInt8) (y : InodeDef) (d' : Disk) : Prop where
  super : d' 0 = d 0
  record : inodeAt d' j = y
  others : ∀ k < 320, k ≠ i → k ≠ j → inodeAt d' k = inodeAt d k
  inode : inodeAt d' i =
    { inodeAt d i with size := (inodeAt d' i).size, addr := (inodeAt d' i).addr }
  size : (inodeAt d' i).size.toNat = (inodeAt d i).size.toNat + 16
  mapped : Mapped d' (inodeAt d' i) (fileBlocks (inodeAt d' i))
  vacant : Vacant d' (inodeAt d' i) (fileBlocks (inodeAt d' i))
  dirOk : DirOk d' (inodeAt d' i)
  entries : dirEntries d' (inodeAt d' i) = dirEntries d (inodeAt d i) ++ [(name, j)]
  owns : ∀ b, OwnedBy d' i b → OwnedBy d i b ∨ Free d b
  frame : ∀ b, 42 ≤ b → Marked d b → ¬ OwnedBy d i b → d' b = d b
  marked : ∀ c, Marked d c → Marked d' c
  free : freeCount d' + appendNeed (inodeAt d i) = freeCount d

variable {d d' : Disk} {x y : InodeDef} {i j k l n b : ℕ} {s : Sector} {junk : Sector}
  {name : List UInt8} {type : FileType} {major minor : UInt8}

/-! ## Allocating an inode -/

theorem nextInode_eq_none_iff : nextInode d = none ↔ ∀ j < 320, (inodeAt d j).type ≠ .none := by
  simp [nextInode]

theorem of_nextInode (h : nextInode d = some j) : j < 320 ∧ ¬ InUse d j := by
  have hm := List.mem_of_find?_eq_some h
  have hp := List.find?_some h
  rw [List.mem_range] at hm
  exact ⟨hm, fun hu => hu.2 (by simpa using hp)⟩

theorem freeInodes_eq_zero_iff : freeInodes d = 0 ↔ nextInode d = none := by
  rw [nextInode_eq_none_iff, freeInodes, Finset.card_eq_zero, Finset.filter_eq_empty_iff]
  simp only [Finset.mem_range, ne_eq]

theorem find?_range'_eight (p : ℕ → Bool) (i n : ℕ) : (List.range' (8 * i) (8 * (n + 1))).find? p =
    (((List.range 8).find? fun j => p (8 * i + j)).map (8 * i + ·)).or
      ((List.range' (8 * (i + 1)) (8 * n)).find? p) := by
  have h : List.range' (8 * i) (8 * (n + 1)) =
      (List.range 8).map (8 * i + ·) ++ List.range' (8 * (i + 1)) (8 * n) := by
    rw [← List.range'_eq_map_range, show 8 * (n + 1) = 8 + 8 * n by omega, ← List.range'_append]
    simp [Nat.mul_add]
  rw [h, List.find?_append, List.find?_map]
  rfl

theorem run_allocInodeFrom (i n : ℕ) : (allocInodeFrom 1 i n).run d =
    (.ok (match (List.range' (8 * i) (8 * n)).find? fun j => (inodeAt d j).type = .none with
      | some j => (true, j)
      | none => (false, 0)), d) := by
  induction n generalizing i with
  | zero => simp [allocInodeFrom]
  | succ n ih =>
    have hslot : freeSlot (d (1 + i)) =
        (List.range 8).find? fun j => (inodeAt d (8 * i + j)).type = .none := by
      apply List.find?_congr
      intro j hj
      have hj : j < 8 := List.mem_range.mp hj
      rw [inodeAt, show (8 * i + j) / 8 + 1 = 1 + i by omega, show (8 * i + j) % 8 = j by omega]
      rfl
    rw [allocInodeFrom, find?_range'_eight]
    simp only [run_bind, run_readSector, hslot]
    cases (List.range 8).find? fun j => decide ((inodeAt d (8 * i + j)).type = .none) with
    | some j => simp [Nat.mul_comm]
    | none => simpa using ih (i + 1)

theorem run_allocInode_of_start (hstart : (superOf d).inode_start.toNat = 1)
    (hcount : (superOf d).inodes_count.toNat = 320) : allocInode.run d =
    (.ok (match nextInode d with
      | some j => (true, j)
      | none => (false, 0)), d) := by
  have h := run_allocInodeFrom (d := d) 0 40
  simp only [allocInode, run_bind, run_getSuperNode, hstart, hcount,
    INODE_ELEMENT_SIZE, BLOCK_SIZE, show 320 * 64 % 2 ^ 32 / 512 = 40 from rfl, h]
  rw [nextInode, List.range_eq_range']

theorem run_allocInode (hf : Formatted d) : allocInode.run d =
    (.ok (match nextInode d with
      | some j => (true, j)
      | none => (false, 0)), d) :=
  run_allocInode_of_start hf.inode_start hf.inodes_count

/-! ## The bytes of an entry -/

theorem length_dirElement (j : ℕ) (name : List UInt8) : (dirElement j name).length = 16 := by
  simp [dirElement]

theorem charAt_dirElement_inum {o : ℕ} (hj : j < 2 ^ 16) (ho : o < 2) :
    charAt (dirElement j name) o = leByte j o := by
  rw [dirElement, charAt_map_range (by simp; omega), DirElement.byte, if_pos ho, UInt16.toNat_ofNat',
    Nat.mod_eq_of_lt hj]

theorem charAt_dirElement_name {o : ℕ} (ho : o < 14) :
    charAt (dirElement j name) (2 + o) = charAt name o := by
  rw [dirElement, charAt_map_range (by simp; omega), DirElement.byte, if_neg (by omega),
    Nat.add_sub_cancel_left, Buffer.byte_ofFn ho]

/-- A string is read back from a field that is long enough for it. -/
theorem takeWhile_charAt {s : List UInt8} {m : ℕ} (h0 : 0 ∉ s) (hm : s.length ≤ m) :
    ((List.range m).map (charAt s)).takeWhile (· ≠ 0) = s := by
  have hsplit : (List.range m).map (charAt s) = s ++ List.replicate (m - s.length) 0 := by
    apply ext_charAt
    · simp; omega
    · intro k hk
      rw [List.length_map, List.length_range] at hk
      rw [charAt_map_range hk]
      by_cases hlt : k < s.length
      · rw [charAt_append_left hlt]
      · rw [charAt_append_right (by omega), charAt_of_le (by omega),
          charAt_eq_getElem (by simp; omega), List.getElem_replicate]
  have hs : s.takeWhile (· ≠ 0) = s :=
    List.takeWhile_eq_self_iff.mpr fun a ha => by
      simp only [decide_eq_true_eq, ne_eq]
      rintro rfl
      exact h0 ha
  rw [hsplit, List.takeWhile_append, hs, if_pos rfl]
  simp

/-! ## Appending an entry -/

section Append

variable {m : ℕ}

/-- The append of a directory element, seen as entries. -/
theorem Wrote.dirEntries_eq (h : Wrote d x n x.size.toNat (dirElement j name) d' y m)
    (hsz : x.size.toNat ≤ 512 * n) (hdir : DirOk d x) (hj : j < 2 ^ 16) (h0 : 0 ∉ name)
    (hlen : name.length ≤ 13) :
    DirOk d' y ∧ dirEntries d' y = dirEntries d x ++ [(name, j)] := by
  have halign := hdir.aligned
  have hsize : y.size.toNat = x.size.toNat + 16 := by
    rw [h.size, length_dirElement]; omega
  have hold : ∀ p < x.size.toNat, fileByte d' y p = fileByte d x p := fun p hp =>
    h.old_byte p (by omega) (.inl hp)
  have hnew : ∀ o < 16, fileByte d' y (x.size.toNat + o) = charAt (dirElement j name) o := by
    intro o ho
    rw [h.new_byte _ (by omega) (by rw [length_dirElement]; omega), Nat.add_sub_cancel_left]
  have hlast : 16 * (x.size.toNat / 16) = x.size.toNat := by omega
  have hname : ∀ o < 14, fileByte d' y (16 * (x.size.toNat / 16) + 2 + o) = charAt name o := by
    intro o ho
    rw [hlast, Nat.add_assoc, hnew _ (by omega), charAt_dirElement_name ho]
  have hcount : y.size.toNat / 16 = x.size.toNat / 16 + 1 := by omega
  refine ⟨⟨by omega, fun k hk => ?_⟩, ?_⟩
  · by_cases hlt : k < x.size.toNat / 16
    · obtain ⟨o, ho, hz⟩ := hdir.terminated k hlt
      exact ⟨o, ho, by rw [hold _ (by omega), hz]⟩
    · obtain rfl : k = x.size.toNat / 16 := by omega
      exact ⟨13, by omega, by rw [hname 13 (by omega), charAt_of_le (by omega)]⟩
  · rw [dirEntries, hcount, List.range_succ, List.map_append, dirEntries]
    congr 1
    · apply List.map_congr_left
      intro k hk
      rw [List.mem_range] at hk
      obtain ⟨hn, hi⟩ := entry_congr (k := k) fun p hp => hold p (by omega)
      rw [hn, hi]
    · have hn : entryName d' y (x.size.toNat / 16) = name := by
        rw [entryName, ← takeWhile_charAt h0 (show name.length ≤ 14 by omega)]
        congr 1
        apply List.map_congr_left
        intro o ho
        exact hname o (List.mem_range.mp ho)
      have hi : entryInum d' y (x.size.toNat / 16) = j := by
        have hb : ∀ o < 2, fileByte d' y (16 * (x.size.toNat / 16) + o) = leByte j o := fun o ho => by
          rw [hlast, hnew _ (by omega), charAt_dirElement_inum hj ho]
        rw [entryInum, leNat_of_leByte hb]
        exact Nat.mod_eq_of_lt (by omega)
      simp [hn, hi]

/-- The append followed by the update of the new record. -/
theorem Wrote.created {e : Disk} (hidx : (inodeAt d i).inode_index.toNat = i)
    (hdir : DirOk d (inodeAt d i))
    (h : Wrote d (inodeAt d i) (fileBlocks (inodeAt d i)) (inodeAt d i).size.toNat
      (dirElement j name) e x m)
    (hv : Vacant d (inodeAt d i) (fileBlocks (inodeAt d i))) (hj : j < 320) (hji : j ≠ i)
    (h0 : 0 ∉ name) (hlen : name.length ≤ 13) (y : InodeDef) :
    Created d i j name y (setInode e j y) := by
  have hsz := fileBlocks_le (inodeAt d i)
  have hout : ∀ o, o = 0 ∨ 41 ≤ o → setInode e j y o = e o := fun o ho => setInode_outside hj ho
  have hself : inodeAt (setInode e j y) i = x := by
    rw [inodeAt_setInode_of_ne (Ne.symm hji)]
    have := h.inodeAt_eq (by rw [hidx])
    rwa [hidx] at this
  have hind : x.indirect_addr.toNat ≠ 0 →
      setInode e j y x.indirect_addr.toNat = e x.indirect_addr.toNat := fun hz =>
    hout _ (.inr (by have := (h.mapped.indirect_area hz).le; omega))
  have hmark : ∀ c, Marked e c → Marked (setInode e j y) c := fun c hc =>
    (marked_congr (hout 41 (.inr le_rfl))).mpr hc
  obtain ⟨hok, hent⟩ := h.dirEntries_eq hsz hdir (by omega) h0 hlen
  have hbytes : ∀ p < x.size.toNat, fileByte (setInode e j y) x p = fileByte e x p := by
    intro p hp
    have hm := h.mapped
    rw [← h.fileBlocks_eq] at hm
    refine fileByte_kept hm (fun b hb => hout b (.inr ?_)) hp
    have := (hm.owns_area hb).le
    omega
  have hblocks := h.blocks_eq
  have hsize := h.size
  rw [length_dirElement] at hblocks hsize
  refine ⟨?_, inodeAt_setInode_self _ _ _, fun k hk hki hkj => ?_, ?_, ?_, ?_, ?_,
    ?_, ?_, fun b hb => ?_,
    fun b hb hm hn => ?_, fun c hc => hmark c (h.marked_mono hc), ?_⟩
  · rw [hout 0 (.inl rfl), h.super]
  · rw [inodeAt_setInode_of_ne hkj]
    exact h.others k hk (by rwa [hidx])
  · rw [hself]; exact h.inode
  · rw [hself, hsize]; omega
  · rw [hself, h.fileBlocks_eq]
    exact h.mapped.congr (hout 0 (.inl rfl)) hmark hind
  · rw [hself, h.fileBlocks_eq]
    exact (h.vacant hv).congr hind
  · rw [hself]; exact hok.congr hbytes
  · rw [hself, dirEntries_congr hbytes, hent]
  · rw [OwnedBy, hself, h.fileBlocks_eq, owns_congr h.mapped.indirect_ne hind] at hb
    exact h.owns hb
  · rw [hout b (.inr (by omega))]
    exact h.frame b hb hm hn
  · have hfree := h.free
    rw [freeCount_congr (hout 0 (.inl rfl)) (hout 41 (.inr le_rfl)), appendNeed, ← hfree]
    have halign := hdir.aligned
    have hn : fileBlocks (inodeAt d i) = blocks (inodeAt d i).size.toNat := rfl
    rw [blocks] at hblocks hn
    split <;> omega

end Append

/-! ## One call -/

/-- What `CreateImpl` needs of the directory it extends. -/
structure Appendable (d : Disk) (i : ℕ) : Prop where
  formatted : Formatted d
  isDir : IsDir d i
  index : (inodeAt d i).inode_index.toNat = i
  mapped : Mapped d (inodeAt d i) (fileBlocks (inodeAt d i))
  vacant : Vacant d (inodeAt d i) (fileBlocks (inodeAt d i))
  dirOk : DirOk d (inodeAt d i)
  size_le : (inodeAt d i).size.toNat ≤ 16 * 319

theorem run_createImpl_not_dir (hi : i < 320) (ht : (inodeAt d i).type ≠ .directory)
    (hlen : name.length ≤ 13) :
    (createImpl junk i type name major minor).run d = (.ok (false, {}), d) := by
  simp [createImpl, show ¬ 14 < name.length by omega, run_bind, run_getInode hi, ht]

theorem run_createImpl_no_inode (h : Appendable d i) (hnone : nextInode d = none)
    (hlen : name.length ≤ 13) :
    (createImpl junk i type name major minor).run d = (.ok (false, {}), d) := by
  simp [createImpl, show ¬ 14 < name.length by omega, run_bind, run_getInode h.isDir.1, h.isDir.2,
    run_allocInode h.formatted, hnone]

/-- Without a free block for the entry the inode is made and not named. -/
theorem run_createImpl_no_block (h : Appendable d i) (hsome : nextInode d = some j)
    (hlen : name.length ≤ 13) (hneed : freeCount d < appendNeed (inodeAt d i)) :
    (createImpl junk i type name major minor).run d =
      (.ok (true, newInode j type major minor), setInode d j (newInode j type major minor)) := by
  have hj := of_nextInode hsome
  have hle := h.size_le
  have halign : (inodeAt d i).size.toNat % 512 = 0 ∧ freeCount d = 0 := by
    unfold appendNeed at hneed
    split at hneed <;> omega
  have hwrite : (write junk (inodeAt d i) (dirElement j name) (inodeAt d i).size.toNat).run d =
      (.ok (0, inodeAt d i), d) := by
    have hlen16 := length_dirElement j name
    have hn : fileBlocks (inodeAt d i) = blocks (inodeAt d i).size.toNat := rfl
    rw [blocks] at hn
    rcases run_writeImpl (dirElement j name) h.formatted h.mapped (fileBlocks_le _) le_rfl (by omega)
      (by omega) (by omega) (by rw [h.index]; exact h.isDir.1)
      (.inr ⟨h.vacant, .inl (by omega)⟩) with ⟨e, x, n, -, hw⟩ | ⟨-, -, hrun⟩
    · have hblocks := hw.blocks_eq
      have hfree := hw.free
      rw [blocks] at hblocks
      omega
    · have hmin : min (dirElement j name).length (512 - (inodeAt d i).size.toNat % 512) = 16 := by
        omega
      rw [write, if_neg (lt_irrefl _), writeFrom, dif_pos (by omega)]
      simp only [BLOCK_SIZE, hmin, List.take_of_length_le hlen16.le, run_bind, hrun, run_pure]
  simp [createImpl, show ¬ 14 < name.length by omega, run_bind, run_getInode h.isDir.1, h.isDir.2,
    run_allocInode h.formatted, hsome, hwrite, run_updateInode hj.1, newInode]

theorem run_createImpl (h : Appendable d i) (hsome : nextInode d = some j) (h0 : 0 ∉ name)
    (hlen : name.length ≤ 13) (hneed : appendNeed (inodeAt d i) ≤ freeCount d) :
    ∃ d', (∀ junk, (createImpl junk i type name major minor).run d =
        (.ok (true, newInode j type major minor), d')) ∧
      Created d i j name (newInode j type major minor) d' := by
  have hj := of_nextInode hsome
  have hji : j ≠ i := fun he => hj.2 (he ▸ h.isDir.inUse)
  have hle := h.size_le
  have hlen16 := length_dirElement j name
  have hsz := fileBlocks_le (inodeAt d i)
  have hfree : blocks ((inodeAt d i).size.toNat + (dirElement j name).length) -
      fileBlocks (inodeAt d i) ≤ freeCount d := by
    refine le_trans ?_ hneed
    have halign := h.dirOk.aligned
    rw [fileBlocks, blocks, blocks, appendNeed]
    split <;> omega
  obtain ⟨e, x, m, hrun, hw⟩ := run_write_all h.formatted h.mapped hsz le_rfl (by omega)
    (by rw [h.index]; exact h.isDir.1) (.inr h.vacant) (.inl (by omega)) hfree
  refine ⟨setInode e j (newInode j type major minor), fun junk => ?_,
    hw.created h.index h.dirOk h.vacant hj.1 hji h0 hlen _⟩
  simp [createImpl, show ¬ 14 < name.length by omega, run_bind, run_getInode h.isDir.1, h.isDir.2,
    run_allocInode h.formatted, hsome, hrun, run_updateInode hj.1, newInode]

end OrangeOs.Fs
