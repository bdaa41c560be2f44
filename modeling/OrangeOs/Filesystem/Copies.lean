import OrangeOs.Filesystem.Namespace
import OrangeOs.Filesystem.WriteShort

/-! # Writes through a copy of an inode

A descriptor has a copy of the inode from the time at which the file was opened, and `UpdateInode`
writes the copy back whole. A write that ends within the size of the copy uses blocks that the file
still has, and writes no record. A longer write replaces the record by the copy: it has the effect of
a write through the record if the copy has the block numbers of the record and the write reaches the end
of the file.
-/

namespace OrangeOs.Fs

open Prog

/-- The inode `x` was the record of file `j` at some time: since then the file has kept its blocks and
has not become shorter. -/
structure CopyOf (d : Disk) (j : ℕ) (x : InodeDef) : Prop where
  inUse : InUse d j
  inode : x = { inodeAt d j with size := x.size, addr := x.addr, indirect_addr := x.indirect_addr }
  size_le : x.size.toNat ≤ (inodeAt d j).size.toNat
  slots : ∀ k < fileBlocks x, slot d x k = slot d (inodeAt d j) k
  pointer : x.indirect_addr.toNat ≠ 0 → x.indirect_addr = (inodeAt d j).indirect_addr
  indirect_ne : 12 < fileBlocks x → x.indirect_addr.toNat ≠ 0

/-- A write through the copy `x` of the record `y` that ends at `e` stays within the copy, or the copy
has the block numbers of the record and the write reaches the end of the file. -/
def Current (y x : InodeDef) (e : ℕ) : Prop :=
  e ≤ x.size.toNat ∨ x.addr = y.addr ∧ x.indirect_addr = y.indirect_addr ∧ y.size.toNat ≤ e

/-- File `j` keeps its blocks where they are and does not become shorter, and the other files are as
before. -/
structure Retains (d : Disk) (j : ℕ) (d' : Disk) : Prop where
  inode : inodeAt d' j =
    { inodeAt d j with
      size := (inodeAt d' j).size
      addr := (inodeAt d' j).addr
      indirect_addr := (inodeAt d' j).indirect_addr }
  size_le : (inodeAt d j).size.toNat ≤ (inodeAt d' j).size.toNat
  slots : ∀ k < fileBlocks (inodeAt d j), slot d' (inodeAt d' j) k = slot d (inodeAt d j) k
  pointer : (inodeAt d j).indirect_addr.toNat ≠ 0 →
    (inodeAt d' j).indirect_addr = (inodeAt d j).indirect_addr
  others : ∀ k, InUse d k → k ≠ j → inodeAt d' k = inodeAt d k ∧ ∀ b, OwnedBy d k b → d' b = d b

/-- The bytes have been written at position `pos` of file `j`. -/
structure Applied (d : Disk) (j pos : ℕ) (bytes : List UInt8) (d' : Disk) : Prop
    extends Retains d j d' where
  contents : contents d' (inodeAt d' j) = overwrite (contents d (inodeAt d j)) pos bytes

variable {d d' d'' : Disk} {x x' y y' : InodeDef} {j k n n' m a b e pos done : ℕ} {junk : Sector}
  {buf bytes : List UInt8}

/-! ## Within the copy -/

theorem Mapped.putData (h : Mapped d x n) (hk : k < n) (o : ℕ) (buf : List UInt8) :
    Mapped (putData d (slot d x k) o buf) x n ∧
      ∀ l < n, slot (putData d (slot d x k) o buf) x l = slot d x l := by
  have h42 := (h.area k hk).le
  have hout : ∀ b, b ≠ slot d x k → Fs.putData d (slot d x k) o buf b = d b := fun b hb =>
    Function.update_of_ne hb ..
  have hind : x.indirect_addr.toNat ≠ 0 →
      Fs.putData d (slot d x k) o buf x.indirect_addr.toNat = d x.indirect_addr.toNat := fun hz =>
    hout _ (h.ne_indirect hz k hk).symm
  exact ⟨h.congr (hout 0 (by omega)) (fun b => (marked_congr (hout 41 (by omega))).mpr) hind,
    fun l hl => slot_congr ((Nat.lt_or_ge l 12).imp_right fun h12 => hind (h.indirect_ne (by omega)))⟩

theorem run_writeImpl_within (junk : Sector) (buf : List UInt8) (h : Mapped d x n) (hk : pos / 512 < n)
    (hblk : pos % 512 + buf.length ≤ 512) (hle : pos + buf.length ≤ x.size.toNat) :
    (writeImpl junk x buf pos).run d =
      (.ok (true, x), putData d (slot d x (pos / 512)) (pos % 512) buf) := by
  have hidx : pos / 512 % 2 ^ 32 = pos / 512 := Nat.mod_eq_of_lt (by have := h.le; omega)
  simp only [writeImpl, BLOCK_SIZE, hidx, run_bind, run_writeBlock_mapped h hk, run_writeData hblk,
    if_neg (show ¬ pos + buf.length > x.size.toNat by omega), run_pure]

/-- Through two inodes that refer to the same blocks, a write within both does the same. -/
theorem run_writeFrom_within (junk : Sector) (hx : Mapped d x m) (hy : Mapped d y n) (hmn : m ≤ n)
    (hs : ∀ k < m, slot d x k = slot d y k) (hxm : x.size.toNat ≤ 512 * m)
    (hle : pos + buf.length ≤ x.size.toNat) (hxy : x.size.toNat ≤ y.size.toNat) (done : ℕ) :
    ∃ d', (writeFrom junk x buf pos done).run d = (.ok (done + buf.length, x), d') ∧
      (writeFrom junk y buf pos done).run d = (.ok (done + buf.length, y), d') := by
  induction hlen : buf.length using Nat.strong_induction_on generalizing d buf pos done with
  | _ len ih =>
  subst hlen
  by_cases hnil : buf = []
  · subst hnil
    exact ⟨d, run_writeFrom_nil, run_writeFrom_nil⟩
  have hpb : buf.length > 0 := List.length_pos_iff.mpr hnil
  have hp : pos % 512 < 512 := Nat.mod_lt _ (by omega)
  obtain ⟨r, hr⟩ : ∃ r, r = min buf.length (512 - pos % 512) := ⟨_, rfl⟩
  have hrl : (buf.take r).length = r := by rw [List.length_take]; omega
  have hdl : (buf.drop r).length = buf.length - r := List.length_drop
  have hk : pos / 512 < m := by omega
  have hstep := run_writeImpl_within junk (buf.take r) hx hk (by omega) (by omega)
  have hstep' := run_writeImpl_within junk (buf.take r) hy (hk.trans_le hmn) (by omega) (by omega)
  obtain ⟨hx', hsx⟩ := hx.putData hk (pos % 512) (buf.take r)
  obtain ⟨hy', hsy⟩ := hy.putData (hk.trans_le hmn) (pos % 512) (buf.take r)
  rw [← hs _ hk] at hstep' hy' hsy
  obtain ⟨d', hrun, hrun'⟩ := ih _ (by omega) hx' hy'
    (fun l hl => by rw [hsx l hl, hsy l (hl.trans_le hmn), hs l hl])
    (show pos + r + (buf.drop r).length ≤ x.size.toNat by omega) (done + r) rfl
  have hdone : done + r + (buf.drop r).length = done + buf.length := by omega
  rw [hdone] at hrun hrun'
  refine ⟨d', ?_, ?_⟩
  · rw [writeFrom, dif_pos hpb]
    simp only [BLOCK_SIZE, ← hr, run_bind, hstep, hrun]
  · rw [writeFrom, dif_pos hpb]
    simp only [BLOCK_SIZE, ← hr, run_bind, hstep', hrun']

namespace CopyOf

/-- The record is a copy of itself. -/
theorem refl (hw : WellFormed d) (hj : InUse d j) : CopyOf d j (inodeAt d j) where
  inUse := hj
  inode := rfl
  size_le := le_rfl
  slots _ _ := rfl
  pointer _ := rfl
  indirect_ne := (hw.mapped j hj).indirect_ne

theorem fileBlocks_le (h : CopyOf d j x) : fileBlocks x ≤ fileBlocks (inodeAt d j) := by
  have := h.size_le
  simp only [fileBlocks, blocks]
  omega

theorem mapped (h : CopyOf d j x) (hw : WellFormed d) : Mapped d x (fileBlocks x) := by
  have hm := hw.mapped j h.inUse
  have hle := h.fileBlocks_le
  have hz : x.indirect_addr.toNat ≠ 0 → (inodeAt d j).indirect_addr.toNat ≠ 0 := fun hz => by
    rwa [← h.pointer hz]
  refine ⟨hle.trans hm.le, fun k hk => ?_, h.indirect_ne, fun hne => ?_, fun k hk l hl he => ?_,
    fun hne k hk => ?_⟩
  · rw [h.slots k hk]
    exact hm.area k (by omega)
  · have harea := hm.indirect_area (hz hne)
    rwa [← h.pointer hne] at harea
  · rw [h.slots k hk, h.slots l hl] at he
    exact hm.inj k (by omega) l (by omega) he
  · rw [h.slots k hk, h.pointer hne]
    exact hm.ne_indirect (hz hne) k (by omega)

theorem index (h : CopyOf d j x) (hw : WellFormed d) : x.inode_index.toNat = j := by
  rw [h.inode]
  exact hw.index j h.inUse

end CopyOf

/-! ## What a write leaves -/

section Extended

variable (h : FsTree d) (hj : InUse d j)
  (hext : Extended d (inodeAt d j) (fileBlocks (inodeAt d j)) d' y' n')
  (hacc : Accounted d (inodeAt d j) (fileBlocks (inodeAt d j)) d' y' n')

include hj hext hacc

theorem Extended.applied (hw : WellFormed d) (hself : inodeAt d' j = y')
    (hpos : pos ≤ (inodeAt d j).size.toNat)
    (hcont : contents d' y' = overwrite (contents d (inodeAt d j)) pos bytes) :
    Applied d j pos bytes d' where
  contents := hself ▸ hcont
  inode := hself ▸ hacc.inode
  size_le := by
    have hlen := congrArg List.length hcont
    rw [length_contents, length_overwrite (by rwa [length_contents]), length_contents] at hlen
    rw [hself]
    omega
  slots := hself ▸ hacc.slots
  pointer := hself ▸ hacc.pointer
  others k hk hne := ⟨hext.others k hk.1 (by rwa [hw.index j hj]), fun b hb => by
    have harea := (hw.mapped k hk).owns_area hb
    exact hext.frame b harea.le harea.2 (hw.disjoint k j hk hj hne b hb)⟩

include h

/-- A write to a file that is not a directory keeps the tree. -/
theorem Extended.fsTree (hdir : ¬ IsDir d j) (hv : Vacant d' y' n') (hn : fileBlocks y' = n') :
    FsTree d' := by
  obtain ⟨hw', hself, hother⟩ := h.wf.extended hj hext hv hn
  have htype : ∀ k < 320, (inodeAt d' k).type = (inodeAt d k).type := fun k hk => by
    by_cases hkj : k = j
    · rw [hkj, hself, hacc.type]
    · rw [hother k hk hkj]
  refine ⟨hw', SameDirs.tree ⟨hext.super, hext.marked,
    fun k hk => ⟨hk.1, by rw [htype k hk.1]; exact hk.2⟩,
    fun k hk => ⟨hk.1, by rw [← htype k hk.1]; exact hk.2⟩,
    fun k hk => hother k hk.1 fun he => hdir (he ▸ hk), fun k hk b hb => ?_⟩ h.tree⟩
  have harea := (h.wf.mapped k hk.inUse).owns_area hb
  exact hext.frame b harea.le harea.2
    (h.wf.disjoint k j hk.inUse hj (fun he => hdir (he ▸ hk)) b hb)

end Extended

/-- A block that is marked and belongs to no file changes no file. -/
theorem mark_kept (hj : j < 320) : inodeAt (mark d a) j = inodeAt d j :=
  inodeAt_congr (mark_of_ne (by omega))

theorem WellFormed.owned_mark (hw : WellFormed d) (hk : InUse d k) (hb : OwnedBy d k b) :
    mark d a b = d b := by
  have := ((hw.mapped k hk).owns_area hb).le
  exact mark_of_ne (by omega)

theorem FsTree.mark (h : FsTree d) (ha : Free d a) : FsTree (mark d a) := by
  have hrec : ∀ k < 320, inodeAt (Fs.mark d a) k = inodeAt d k := fun _ => mark_kept
  exact ⟨h.wf.mark_free ha, SameDirs.tree ⟨mark_of_ne (by omega),
    fun c hc => (marked_mark_iff ha).mpr (.inr hc), fun k hk => ⟨hk.1, by rw [hrec k hk.1]; exact hk.2⟩,
    fun k hk => ⟨hk.1, by rw [← hrec k hk.1]; exact hk.2⟩, fun k hk => hrec k hk.1,
    fun k hk b hb => h.wf.owned_mark hk.inUse hb⟩ h.tree⟩

namespace Retains

theorem refl (d : Disk) (j : ℕ) : Retains d j d :=
  ⟨rfl, le_rfl, fun _ _ => rfl, fun _ => rfl, fun _ _ _ => ⟨rfl, fun _ _ => rfl⟩⟩

theorem inUse (h : Retains d j d') (hk : InUse d k) : InUse d' k := by
  by_cases hkj : k = j
  · subst hkj
    exact ⟨hk.1, by rw [h.inode]; exact hk.2⟩
  · exact ⟨hk.1, by rw [(h.others k hk hkj).1]; exact hk.2⟩

theorem trans (h : Retains d j d') (hw : WellFormed d) (h' : Retains d' j d'') : Retains d j d'' where
  inode := by rw [h'.inode, h.inode]
  size_le := h.size_le.trans h'.size_le
  slots k hk := by
    have hle := h.size_le
    rw [h'.slots k (by simp only [fileBlocks, blocks] at *; omega), h.slots k hk]
  pointer hz := by
    have hptr := h.pointer hz
    rw [h'.pointer (by rwa [hptr]), hptr]
  others k hk hne := by
    obtain ⟨hsame, hblocks⟩ := h.others k hk hne
    obtain ⟨hsame', hblocks'⟩ := h'.others k (h.inUse hk) hne
    refine ⟨hsame'.trans hsame, fun b hb => ?_⟩
    rw [hblocks' b, hblocks b hb]
    rw [OwnedBy, hsame]
    exact (owns_congr (hw.mapped k hk).indirect_ne fun hz => hblocks _ (.inr ⟨hz, rfl⟩)).mpr hb

theorem mark (h : Retains d j d') (hw : WellFormed d) (hw' : WellFormed d') (hj : InUse d j)
    (a : ℕ) : Retains d j (mark d' a) := by
  have hj' := h.inUse hj
  have hrec : inodeAt (Fs.mark d' a) j = inodeAt d' j := mark_kept hj.1
  have hslot : ∀ k, slot (Fs.mark d' a) (inodeAt d' j) k = slot d' (inodeAt d' j) k := fun k =>
    slot_congr (.inr (by
      by_cases hz : (inodeAt d' j).indirect_addr.toNat = 0
      · rw [hz]
        exact mark_of_ne (by omega)
      · exact hw'.owned_mark hj' (.inr ⟨hz, rfl⟩)))
  refine ⟨by rw [hrec]; exact h.inode, by rw [hrec]; exact h.size_le,
    fun k hk => by rw [hrec, hslot, h.slots k hk], by rw [hrec]; exact h.pointer, fun k hk hne => ?_⟩
  obtain ⟨hsame, hblocks⟩ := h.others k hk hne
  refine ⟨(mark_kept hk.1).trans hsame, fun b hb => ?_⟩
  rw [← hblocks b hb]
  exact mark_of_ne (by have := ((hw.mapped k hk).owns_area hb).le; omega)

/-- The copies of all files are copies afterwards. -/
theorem copyOf (h : Retains d j d') (hx : CopyOf d k x) : CopyOf d' k x := by
  by_cases hkj : k = j
  · subst hkj
    refine ⟨h.inUse hx.inUse, ?_, hx.size_le.trans h.size_le, fun l hl => ?_, fun hz => ?_,
      hx.indirect_ne⟩
    · rw [h.inode]
      exact hx.inode
    · have hlt := hl.trans_le hx.fileBlocks_le
      have hslot := (h.slots l hlt).trans (hx.slots l hl).symm
      rcases Nat.lt_or_ge l 12 with h12 | h12
      · rw [hslot, slot_of_lt h12, slot_of_lt h12]
      · have hz := hx.indirect_ne (by omega)
        have hptr := hx.pointer hz
        rw [slot_of_ge h12, hptr, ← h.pointer (by rwa [← hptr]), ← slot_of_ge h12]
    · have hptr := hx.pointer hz
      rw [hptr, h.pointer (by rwa [← hptr])]
  · obtain ⟨hsame, hblocks⟩ := h.others k hx.inUse hkj
    refine ⟨h.inUse hx.inUse, by rw [hsame]; exact hx.inode, by rw [hsame]; exact hx.size_le,
      fun l hl => ?_, by rw [hsame]; exact hx.pointer, hx.indirect_ne⟩
    have hkept : 12 ≤ l → d' x.indirect_addr.toNat = d x.indirect_addr.toNat := fun h12 => by
      have hz := hx.indirect_ne (by omega)
      have hptr := hx.pointer hz
      rw [hptr] at hz ⊢
      exact hblocks _ (.inr ⟨hz, rfl⟩)
    have hkept' : 12 ≤ l → d' (inodeAt d k).indirect_addr.toNat = d (inodeAt d k).indirect_addr.toNat :=
      fun h12 => by
        rw [← hx.pointer (hx.indirect_ne (by omega))]
        exact hkept h12
    rw [hsame, slot_congr ((Nat.lt_or_ge l 12).imp_right hkept), hx.slots l hl,
      slot_congr ((Nat.lt_or_ge l 12).imp_right hkept')]

end Retains

namespace Applied

theorem mark (h : Applied d j pos bytes d') (hw : WellFormed d) (hw' : WellFormed d') (hj : InUse d j)
    (a : ℕ) : Applied d j pos bytes (mark d' a) where
  toRetains := h.toRetains.mark hw hw' hj a
  contents := by
    have hj' := h.inUse hj
    rw [mark_kept hj.1, contents_congr (hw'.mapped j hj') fun b hb => hw'.owned_mark hj' hb, h.contents]

theorem size (h : Applied d j pos bytes d') (hpos : pos ≤ (inodeAt d j).size.toNat) :
    (inodeAt d' j).size.toNat = max (inodeAt d j).size.toNat (pos + bytes.length) := by
  have hlen := congrArg List.length h.contents
  rwa [length_contents, length_overwrite (by rwa [length_contents]), length_contents] at hlen

end Applied

/-! ## Writes through a copy -/

/-- A write that ends within the size of the copy. -/
theorem write_within (h : FsTree d) (hdir : ¬ IsDir d j) (hx : CopyOf d j x)
    (hle : pos + buf.length ≤ x.size.toNat) (junk : Sector) :
    ∃ d', (write junk x buf pos).run d = (.ok (buf.length, x), d') ∧ Applied d j pos buf d' ∧
      FsTree d' := by
  have hm := h.wf.mapped j hx.inUse
  have hidx := h.wf.index j hx.inUse
  have hxy := hx.size_le
  have hsz := fileBlocks_le (inodeAt d j)
  have hn := hm.le
  obtain ⟨d₁, hrun, hrun'⟩ := run_writeFrom_within junk (hx.mapped h.wf) hm hx.fileBlocks_le hx.slots
    (fileBlocks_le x) hle hxy 0
  obtain ⟨d', y', n', hall, hwr⟩ := run_write_all h.wf.formatted hm hsz (show pos ≤ _ by omega)
    (show pos + buf.length ≤ 512 * 140 by omega) (by rw [hidx]; exact hx.inUse.1)
    (.inr (h.wf.vacant j hx.inUse))
    (Nat.lt_or_ge 12 (fileBlocks (inodeAt d j)) |>.elim (fun hlt => .inr (hm.indirect_ne hlt))
      fun hge => .inl (by omega))
    (by simp only [fileBlocks, blocks]; omega)
  have hall := hall junk
  rw [write, if_neg (by omega)] at hall
  rw [hrun'] at hall
  obtain ⟨-, rfl⟩ := Prod.mk.inj hall
  have hv := hwr.vacant (h.wf.vacant j hx.inUse)
  obtain ⟨hw', hself, -⟩ := h.wf.wrote hx.inUse hwr
  refine ⟨d₁, ?_, hwr.extended.applied hx.inUse hwr.accounted h.wf hself (by omega)
    (hwr.contents_eq (by omega) hsz), hwr.extended.fsTree h hx.inUse hwr.accounted hdir hv
    hwr.fileBlocks_eq⟩
  rw [write, if_neg (by omega), hrun, Nat.zero_add]

section Pointers

variable (ha : x.addr = y.addr) (hi : x.indirect_addr = y.indirect_addr)

include ha hi

theorem owns_pointers : Owns d x n b ↔ Owns d y n b := by
  simp only [Owns, slot_pointers ha hi, hi]

theorem Extended.pointers (h : Extended d x n d' x' n') (hidx : x.inode_index = y.inode_index)
    (hrec : inodeAt d' x.inode_index.toNat = x') : Extended d y n d' x' n' where
  le := h.le
  mapped := h.mapped
  index := h.index.trans hidx
  super := h.super
  record _ := by rw [← hidx]; exact hrec
  others := by rw [← hidx]; exact h.others
  marked := h.marked
  owns o ho := (h.owns o ho).imp_left (owns_pointers ha hi).mp
  frame o ho hm hno := h.frame o ho hm fun hown => hno ((owns_pointers ha hi).mp hown)
  indirect := by rw [← hi]; exact h.indirect
  created := by rw [← hi]; exact h.created
  free := by
    have hcount : indirectCount x = indirectCount y := by rw [indirectCount, indirectCount, hi]
    rw [← hcount]
    exact h.free

theorem contents_pointers (hle : x.size.toNat ≤ y.size.toNat) :
    contents d x = (contents d y).take x.size.toNat := by
  apply ext_charAt
  · rw [List.length_take, length_contents, length_contents, min_eq_left hle]
  · intro p hp
    rw [length_contents] at hp
    rw [charAt_contents hp, charAt_take hp, charAt_contents (by omega), fileByte, fileByte,
      slot_pointers ha hi]

end Pointers

/-- The effect of a write through a copy with the block numbers of the record, which reaches the end of
the file. -/
theorem CopyOf.applied (hx : CopyOf d j x) (h : FsTree d) (hdir : ¬ IsDir d j)
    (ha : x.addr = (inodeAt d j).addr) (hi : x.indirect_addr = (inodeAt d j).indirect_addr)
    (hext : Extended d x (fileBlocks (inodeAt d j)) d' x' n')
    (hacc : Accounted d x (fileBlocks (inodeAt d j)) d' x' n') (hv : Vacant d' x' n')
    (hn : n' = max (fileBlocks (inodeAt d j)) (blocks (pos + bytes.length)))
    (hcont : contents d' x' = overwrite (contents d x) pos bytes) (hpos : pos ≤ x.size.toNat)
    (hend : (inodeAt d j).size.toNat ≤ pos + bytes.length) :
    Applied d j pos bytes d' ∧ FsTree d' ∧ inodeAt d' j = x' ∧
      x'.size.toNat = pos + bytes.length := by
  have hle := hx.size_le
  have hidx : x.inode_index = (inodeAt d j).inode_index := by rw [hx.inode]
  have hj : x.inode_index.toNat = j := hx.index h.wf
  have hsize := congrArg List.length hcont
  rw [length_contents, length_overwrite (by rwa [length_contents]), length_contents] at hsize
  -- the record is the copy afterwards
  have hrec : inodeAt d' x.inode_index.toNat = x' := by
    rcases hacc.stored with hrec | ⟨rfl, hrec⟩
    · exact hrec
    · have hsz : x'.size = (inodeAt d j).size := UInt32.toNat_inj.mp (by omega)
      rw [hrec, hj]
      conv_rhs => rw [hx.inode, ha, hi, hsz]
  have hself : inodeAt d' j = x' := hj ▸ hrec
  have hext' := hext.pointers ha hi hidx hrec
  have hacc' : Accounted d (inodeAt d j) (fileBlocks (inodeAt d j)) d' x' n' := by
    refine ⟨hacc.le, fun k hk => ?_, fun hz => ?_, hacc.only, ?_, .inl ?_⟩
    · rw [hacc.slots k hk, slot_pointers ha hi]
    · rw [hacc.pointer (by rwa [hi]), hi]
    · have hinode := hacc.inode
      rw [hx.inode] at hinode
      exact hinode
    · rw [← hidx]
      exact hrec
  have hn' : fileBlocks x' = n' := by
    simp only [fileBlocks, blocks] at *
    omega
  have hcont' : contents d' x' = overwrite (contents d (inodeAt d j)) pos bytes := by
    rw [hcont, contents_pointers ha hi hle, overwrite, overwrite, List.take_take, min_eq_left hpos]
    congr 1
    rw [List.drop_eq_nil_of_le (by rw [List.length_take]; omega),
      List.drop_eq_nil_of_le (by rwa [length_contents])]
  exact ⟨hext'.applied hx.inUse hacc' h.wf hself (hpos.trans hle) hcont',
    hext'.fsTree h hx.inUse hacc' hdir hv hn', hself, by omega⟩

/-- A write past the size of a copy that has the block numbers of the record, up to the end of the file at
least. -/
theorem write_past (junk : Sector) (buf : List UInt8) (h : FsTree d) (hdir : ¬ IsDir d j) (hx : CopyOf d j x)
    (ha : x.addr = (inodeAt d j).addr) (hi : x.indirect_addr = (inodeAt d j).indirect_addr)
    (hpos : pos ≤ x.size.toNat) (hend : (inodeAt d j).size.toNat ≤ pos + buf.length)
    (hmax : pos + buf.length ≤ 512 * 140)
    (hclean : CreatesIndirect d (inodeAt d j) pos buf.length →
      ∀ k, 1 ≤ k → k < 128 → indirectWord junk k = 0) :
    ∃ m x' d', (write junk x buf pos).run d = (.ok (m, x'), d') ∧ m ≤ buf.length ∧
      (m < buf.length → freeCount d' = 0) ∧ Applied d j pos (buf.take m) d' ∧ FsTree d' ∧
      inodeAt d' j = x' ∧ pos + m ≤ x'.size.toNat := by
  have hxy := hx.size_le
  have hsz := fileBlocks_le (inodeAt d j)
  have hm : Mapped d x (fileBlocks (inodeAt d j)) := (h.wf.mapped j hx.inUse).pointers ha hi
  have hv : Vacant d x (fileBlocks (inodeAt d j)) := (h.wf.vacant j hx.inUse).pointers ha hi
  have hidx : x.inode_index.toNat < 320 := by rw [hx.index h.wf]; exact hx.inUse.1
  by_cases hone : x.indirect_addr.toNat = 0 ∧ 512 * 12 < pos + buf.length ∧
      freeCount d = 12 - fileBlocks (inodeAt d j) + 1
  · -- the last free block is taken for an indirect block and lost
    obtain ⟨hz, hlong, hfree⟩ := hone
    have hle := hm.indirect_ne
    obtain ⟨d₁, x₁, a, hwr, hfree₁, hfa, hrun⟩ := run_write_oneFree h.wf.formatted hm (by omega) hidx hv
      hpos hz hlong hfree junk
    have hlen : (buf.take (512 * 12 - pos)).length = 512 * 12 - pos :=
      List.length_take_of_le (by omega)
    obtain ⟨happ, htree, hself, hsize⟩ := hx.applied h hdir ha hi hwr.extended hwr.accounted
      (hwr.vacant hv) hwr.blocks_eq (hwr.contents_eq hpos (by omega)) hpos (by omega)
    have hmark := freeCount_mark hfa
    refine ⟨_, x₁, _, hrun, by omega, fun _ => by omega,
      happ.mark h.wf htree.wf hx.inUse a, htree.mark hfa, ?_, by omega⟩
    rw [mark_kept hx.inUse.1, hself]
  · obtain ⟨m, d', x', n', hrun, hadv⟩ := run_write_advances junk (e := 512 * 140 + 1) h.wf.formatted hm
      (by omega) hidx (.inr hv) hpos hmax (by omega)
      (fun hz hlong hfree => hone ⟨hz, hlong, hfree⟩)
      fun hz hlong hfree => .inr (hclean ⟨by rwa [← hi], hlong, hfree⟩)
    have hle := hadv.le
    have hcount := hadv.count
    have hn := hadv.extended.mapped.le
    have hlen : (buf.take m).length = m := List.length_take_of_le hle
    have hreach : (inodeAt d j).size.toNat ≤ pos + m := by
      rcases hadv.stop with hall | ⟨-, hat, -⟩ <;> omega
    obtain ⟨happ, htree, hself, hsize⟩ := hx.applied h hdir ha hi hadv.extended hadv.accounted
      (hadv.vacant.resolve_left (by omega)) (by rw [hlen]; exact hcount) hadv.contents_eq hpos (by omega)
    exact ⟨m, x', d', hrun, hle, fun hlt => (hadv.stop.resolve_left (by omega)).2.2, happ, htree, hself,
      by omega⟩

end OrangeOs.Fs
