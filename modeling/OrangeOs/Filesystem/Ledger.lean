import OrangeOs.Filesystem.CreateSpec

/-! # What the blocks are for

A copy of an inode may be out of date, and a write through it replaces the record by the copy. The
records then do not say any more which blocks belong to the file. What is kept is the purpose of each
block: a block of a directory, of contents, or of block numbers. No block changes its purpose, and
the block numbers of files, in records, in copies and in indirect blocks, are those of blocks with
the right one.
-/

namespace OrangeOs.Fs

open Prog

/-- What a block is for. -/
inductive Purpose where
  | none
  | directory (i : ℕ)
  | contents
  | pointers

/-- The purposes of all blocks. -/
abbrev Ledger := ℕ → Purpose

/-- Blocks keep their purposes. -/
def Ledger.Extends (L L' : Ledger) : Prop := ∀ b, L b ≠ .none → L' b = L b

/-- The words of an indirect block are zero or numbers of blocks of contents. -/
def PointsTo (L : Ledger) (s : Sector) : Prop :=
  ∀ k < 128, indirectWord s k ≠ 0 → L (indirectWord s k) = .contents

/-- The block numbers of an inode have the right purposes. -/
structure Refers (L : Ledger) (x : InodeDef) : Prop where
  contents : ∀ k < 12, x.addrAt k ≠ 0 → L (x.addrAt k) = .contents
  pointers : x.indirect_addr.toNat ≠ 0 → L x.indirect_addr.toNat = .pointers
  vacant : ∀ k, fileBlocks x ≤ k → k < 12 → x.addrAt k = 0
  small : x.indirect_addr.toNat = 0 → x.size.toNat ≤ 512 * 12

/-- The directories form a tree, each has its blocks to itself, and the block numbers of the other
files have the right purposes. -/
structure InOrder (d : Disk) (L : Ledger) : Prop where
  formatted : Formatted d
  tree : Tree d
  index : ∀ i, InUse d i → (inodeAt d i).inode_index.toNat = i
  vacant : ∀ i, IsDir d i → Vacant d (inodeAt d i) (fileBlocks (inodeAt d i))
  owned : ∀ i b, IsDir d i → OwnedBy d i b → L b = .directory i
  area : ∀ b, L b ≠ .none → InArea d b
  words : ∀ b, L b = .pointers → PointsTo L (d b)
  records : ∀ i, InUse d i → ¬ IsDir d i → Refers L (inodeAt d i)

/-- An inode of a regular file, perhaps out of date. -/
structure RegularCopy (d : Disk) (L : Ledger) (x : InodeDef) : Prop where
  type : x.type = .regular_file
  inUse : InUse d x.inode_index.toNat
  notDir : ¬ IsDir d x.inode_index.toNat
  refers : Refers L x

/-- Blocks keep their purposes, and files stay in use and do not become directories. -/
structure Continues (d : Disk) (L : Ledger) (d' : Disk) (L' : Ledger) : Prop where
  ledger : L.Extends L'
  inUse : ∀ k, InUse d k → InUse d' k
  isDir : ∀ k, InUse d k → IsDir d' k → IsDir d k

/-- The block is an indirect block. -/
def IsIndirect (d : Disk) (b : ℕ) : Prop :=
  ∃ i, InUse d i ∧ (inodeAt d i).indirect_addr.toNat ≠ 0 ∧ (inodeAt d i).indirect_addr.toNat = b

open Classical in
/-- The purposes that the records show. -/
noncomputable def recordedLedger (d : Disk) : Ledger := fun b =>
  if h : ∃ i, IsDir d i ∧ OwnedBy d i b then .directory h.choose
  else if IsIndirect d b then .pointers
  else if ∃ i, InUse d i ∧ OwnedBy d i b then .contents
  else .none

variable {d d' d'' : Disk} {L L' L'' : Ledger} {x x' y : InodeDef} {i j k b n pos done idx : ℕ}
  {s : Sector} {junk : Sector} {buf : List UInt8} {p : Purpose}

/-! ## The ledger of a well-formed disk -/

namespace WellFormed

theorem owner_unique (h : WellFormed d) (hi : InUse d i) (hj : InUse d j) (hb : OwnedBy d i b)
    (hb' : OwnedBy d j b) : i = j := by
  by_contra hne
  exact h.disjoint i j hi hj hne b hb hb'

theorem ledger_directory (h : WellFormed d) (hi : IsDir d i) (hb : OwnedBy d i b) :
    recordedLedger d b = .directory i := by
  have hex : ∃ i, IsDir d i ∧ OwnedBy d i b := ⟨i, hi, hb⟩
  obtain ⟨hc, hcb⟩ := hex.choose_spec
  rw [recordedLedger, dif_pos hex, h.owner_unique hc.inUse hi.inUse hcb hb]

theorem ledger_pointers (h : WellFormed d) (hi : InUse d i) (hd : ¬ IsDir d i)
    (hz : (inodeAt d i).indirect_addr.toNat ≠ 0) :
    recordedLedger d (inodeAt d i).indirect_addr.toNat = .pointers := by
  have hown : OwnedBy d i (inodeAt d i).indirect_addr.toNat := .inr ⟨hz, rfl⟩
  have hnot : ¬ ∃ j, IsDir d j ∧ OwnedBy d j (inodeAt d i).indirect_addr.toNat := fun ⟨j, hj, hb⟩ =>
    hd (h.owner_unique hj.inUse hi hb hown ▸ hj)
  have hind : IsIndirect d (inodeAt d i).indirect_addr.toNat := ⟨i, hi, hz, rfl⟩
  rw [recordedLedger, dif_neg hnot, if_pos hind]

theorem ledger_contents (h : WellFormed d) (hi : InUse d i) (hd : ¬ IsDir d i)
    (hk : k < fileBlocks (inodeAt d i)) : recordedLedger d (slot d (inodeAt d i) k) = .contents := by
  have hown : OwnedBy d i (slot d (inodeAt d i) k) := .inl ⟨k, hk, rfl⟩
  have hnot : ¬ ∃ j, IsDir d j ∧ OwnedBy d j (slot d (inodeAt d i) k) := fun ⟨j, hj, hb⟩ =>
    hd (h.owner_unique hj.inUse hi hb hown ▸ hj)
  have hind : ¬ IsIndirect d (slot d (inodeAt d i) k) := by
    rintro ⟨j, hj, hz, he⟩
    obtain rfl := h.owner_unique hj hi (.inr ⟨hz, he⟩) hown
    exact (h.mapped j hj).ne_indirect hz k hk he.symm
  rw [recordedLedger, dif_neg hnot, if_neg hind, if_pos ⟨i, hi, hown⟩]

theorem ledger_area (h : WellFormed d) (hb : recordedLedger d b ≠ .none) : InArea d b := by
  unfold recordedLedger at hb
  split at hb
  · next hex =>
    obtain ⟨i, hi, hown⟩ := hex
    exact (h.mapped i hi.inUse).owns_area hown
  · split at hb
    · next hex =>
      obtain ⟨i, hi, hown⟩ := hex
      exact (h.mapped i hi).owns_area (.inr hown)
    · split at hb
      · next hex =>
        obtain ⟨i, hi, hown⟩ := hex
        exact (h.mapped i hi).owns_area hown
      · exact absurd rfl hb

theorem of_ledger_pointers (hb : recordedLedger d b = .pointers) :
    (¬ ∃ i, IsDir d i ∧ OwnedBy d i b) ∧ IsIndirect d b := by
  unfold recordedLedger at hb
  split at hb
  · cases hb
  · next hnot =>
    split at hb
    · next hind => exact ⟨hnot, hind⟩
    · split at hb <;> cases hb

end WellFormed

open WellFormed in
theorem FsTree.inOrder (h : FsTree d) : InOrder d (recordedLedger d) where
  formatted := h.wf.formatted
  tree := h.tree
  index := h.wf.index
  vacant i hi := h.wf.vacant i hi.inUse
  owned i b hi hb := h.wf.ledger_directory hi hb
  area b hb := h.wf.ledger_area hb
  words b hb := by
    obtain ⟨hnot, i, hi, hz, rfl⟩ := of_ledger_pointers hb
    have hd : ¬ IsDir d i := fun hd => hnot ⟨i, hd, .inr ⟨hz, rfl⟩⟩
    intro k hk hne
    have hslot : slot d (inodeAt d i) (k + 12) = indirectWord (d (inodeAt d i).indirect_addr.toNat) k :=
      slot_of_ge (by omega)
    rw [← hslot] at hne ⊢
    refine h.wf.ledger_contents hi hd ?_
    by_contra hge
    exact hne ((h.wf.vacant i hi).indirect hz (k + 12) (by omega) (by omega) (by omega))
  records i hi hd := by
    refine ⟨fun k hk hz => ?_, h.wf.ledger_pointers hi hd, (h.wf.vacant i hi).direct, fun hz => ?_⟩
    · rw [← slot_of_lt (d := d) hk]
      refine h.wf.ledger_contents hi hd ?_
      by_contra hge
      exact hz ((h.wf.vacant i hi).direct k (by omega) hk)
    · have hsz := fileBlocks_le (inodeAt d i)
      by_contra hlt
      exact (h.wf.mapped i hi).indirect_ne (by omega) hz

/-! ## Purposes are kept -/

namespace Ledger.Extends

theorem refl (L : Ledger) : L.Extends L := fun _ _ => rfl

theorem trans (h : L.Extends L') (h' : L'.Extends L'') : L.Extends L'' := fun b hb => by
  rw [h' b (by rwa [h b hb]), h b hb]

theorem update (hb : L b = .none) (p : Purpose) : L.Extends (Function.update L b p) := fun c hc =>
  Function.update_of_ne (fun he : c = b => hc (he ▸ hb)) ..

theorem of_eq (h : L.Extends L') (hb : L b = p) (hp : p ≠ .none) : L' b = p := by
  rw [h b (by rwa [hb]), hb]

end Ledger.Extends

theorem PointsTo.extends (h : PointsTo L s) (hL : L.Extends L') : PointsTo L' s := fun k hk hz =>
  hL.of_eq (h k hk hz) (by simp)

theorem Refers.extends (h : Refers L x) (hL : L.Extends L') : Refers L' x where
  contents k hk hz := hL.of_eq (h.contents k hk hz) (by simp)
  pointers hz := hL.of_eq (h.pointers hz) (by simp)
  vacant := h.vacant
  small := h.small

theorem Empty.refers (h : Empty x i) (L : Ledger) : Refers L x where
  contents k _ hz := absurd (h.addr k) hz
  pointers hz := absurd h.indirect hz
  vacant k _ _ := h.addr k
  small _ := by rw [h.size]; omega

namespace Continues

theorem refl (d : Disk) (L : Ledger) : Continues d L d L := ⟨.refl L, fun _ => id, fun _ _ => id⟩

theorem trans (h : Continues d L d' L') (h' : Continues d' L' d'' L'') : Continues d L d'' L'' :=
  ⟨h.ledger.trans h'.ledger, fun k hk => h'.inUse k (h.inUse k hk), fun k hk hd =>
    h.isDir k hk (h'.isDir k (h.inUse k hk) hd)⟩

theorem of_sameDirs (h : SameDirs d d') (hL : L.Extends L') : Continues d L d' L' :=
  ⟨hL, h.inUse, fun k _ => h.isDir k⟩

end Continues

theorem RegularCopy.continues (h : RegularCopy d L x) (ha : Continues d L d' L') : RegularCopy d' L' x where
  type := h.type
  inUse := ha.inUse _ h.inUse
  notDir hd := h.notDir (ha.isDir _ h.inUse hd)
  refers := h.refers.extends ha.ledger

/-! ## Elementary changes -/

theorem freeCount_update (h : 42 ≤ b) (s : Sector) : freeCount (Function.update d b s) = freeCount d :=
  freeCount_congr (Function.update_of_ne (by omega) ..) (Function.update_of_ne (by omega) ..)

theorem inArea_update (h : 42 ≤ b) (s : Sector) : InArea (Function.update d b s) k ↔ InArea d k :=
  inArea_congr (Function.update_of_ne (by omega) ..) (Function.update_of_ne (by omega) ..)

theorem InArea.mark (h : InArea d k) (hb : Free d b) : InArea (mark d b) k :=
  h.congr (mark_of_ne (by omega)) fun _ hc => (marked_mark_iff hb).mpr (.inr hc)

theorem Free.inArea_mark (hb : Free d b) (hf : Formatted d) : InArea (mark d b) b :=
  ⟨by rw [fsSize_congr (mark_of_ne (by omega))]; exact hb.lt_fsSize hf,
    (marked_mark_iff hb).mpr (.inl rfl)⟩

namespace InOrder

theorem of_free (h : InOrder d L) (hb : Free d b) : L b = .none := by
  by_contra hne
  exact hb.not_marked (h.area b hne).2

/-- The directories stay as they are. -/
theorem sameDirs (h : InOrder d L) (hs : SameDirs d d') (hL : L.Extends L')
    (hnew : ∀ b, L b = .none → L' b ≠ .none → InArea d' b)
    (hwords : ∀ b, L' b = .pointers → PointsTo L' (d' b))
    (hrec : ∀ i, InUse d' i → ¬ IsDir d' i →
      (inodeAt d' i).inode_index.toNat = i ∧ Refers L' (inodeAt d' i)) : InOrder d' L' := by
  have hind : ∀ i, IsDir d i → (inodeAt d i).indirect_addr.toNat ≠ 0 →
      d' (inodeAt d i).indirect_addr.toNat = d (inodeAt d i).indirect_addr.toNat := fun i hi hz =>
    hs.kept i hi _ (.inr ⟨hz, rfl⟩)
  refine ⟨h.formatted.congr hs.super, hs.tree h.tree, fun i hi => ?_, fun i hi => ?_,
    fun i b hi hb => ?_, fun b hb => ?_, hwords, fun i hi hd => (hrec i hi hd).2⟩
  · by_cases hd : IsDir d' i
    · have hd := hs.isDir i hd
      rw [hs.inode i hd]
      exact h.index i hd.inUse
    · exact (hrec i hi hd).1
  · have hi := hs.isDir i hi
    rw [hs.inode i hi]
    exact (h.vacant i hi).congr (hind i hi)
  · have hi := hs.isDir i hi
    rw [OwnedBy, hs.inode i hi, owns_congr (h.tree.mapped i hi).indirect_ne (hind i hi)] at hb
    exact hL.of_eq (h.owned i b hi hb) (by simp)
  · by_cases hz : L b = .none
    · exact hnew b hz hb
    · exact (h.area b hz).congr hs.super hs.marked

/-- A block gets a purpose. -/
theorem enter (h : InOrder d L) (hb : InArea d b) (hz : L b = .none)
    (hp : p = .contents ∨ p = .pointers ∧ PointsTo L (d b)) :
    InOrder d (Function.update L b p) ∧ L.Extends (Function.update L b p) := by
  have hL := Ledger.Extends.update hz p
  have hs : SameDirs d d := ⟨rfl, fun _ => id, fun _ => id, fun _ => id, fun _ _ => rfl, fun _ _ _ _ => rfl⟩
  refine ⟨h.sameDirs hs hL (fun c hc hne => ?_) (fun c hc => ?_) (fun i hi hd =>
    ⟨h.index i hi, (h.records i hi hd).extends hL⟩), hL⟩
  · by_cases hcb : c = b
    · rwa [hcb]
    · rw [Function.update_of_ne hcb] at hne
      exact absurd hc hne
  · by_cases hcb : c = b
    · rw [hcb, Function.update_self] at hc
      rcases hp with rfl | ⟨-, hw⟩
      · cases hc
      · rw [hcb]
        exact hw.extends hL
    · rw [Function.update_of_ne hcb] at hc
      exact (h.words c hc).extends hL

/-- Only blocks of the data area change that are not of directories. -/
theorem frame (h : InOrder d L) (hout : ∀ b ≤ 40, d' b = d b)
    (hmark : ∀ b, Marked d b → Marked d' b) (hkept : ∀ i b, L b = .directory i → d' b = d b)
    (hwords : ∀ b, L b = .pointers → PointsTo L (d' b)) :
    InOrder d' L ∧ Continues d L d' L := by
  have hnode : ∀ i < 320, inodeAt d' i = inodeAt d i := fun i hi => inodeAt_congr (hout _ (by omega))
  have huse : ∀ i, InUse d' i ↔ InUse d i := fun i => and_congr_right fun hi => by rw [hnode i hi]
  have hdir : ∀ i, IsDir d' i ↔ IsDir d i := fun i => and_congr_right fun hi => by rw [hnode i hi]
  have hs : SameDirs d d' := ⟨hout 0 (by omega), hmark, fun i => (huse i).mpr, fun i => (hdir i).mp,
    fun i hi => hnode i hi.1, fun i hi b hb => hkept i b (h.owned i b hi hb)⟩
  refine ⟨h.sameDirs hs (.refl L) (fun b hz hne => absurd hz hne) hwords fun i hi hd => ?_,
    .of_sameDirs hs (.refl L)⟩
  rw [huse] at hi
  rw [hdir] at hd
  rw [hnode i hi.1]
  exact ⟨h.index i hi, h.records i hi hd⟩

/-- A block is allocated and has no purpose yet. -/
theorem mark (h : InOrder d L) (hb : Free d b) : InOrder (mark d b) L ∧ Continues d L (Fs.mark d b) L := by
  refine h.frame (fun c hc => mark_of_ne (by omega)) (fun c hc => (marked_mark_iff hb).mpr (.inr hc))
    (fun i c hc => mark_of_ne ?_) fun c hc => ?_
  · have := (h.area c (by simp [hc])).le
    omega
  · have := (h.area c (by simp [hc])).le
    rw [mark_of_ne (by omega)]
    exact h.words c hc

/-- A block is written that is not of a directory. -/
theorem put (h : InOrder d L) (h42 : 42 ≤ b) (hb : ∀ i, L b ≠ .directory i)
    (hw : L b = .pointers → PointsTo L s) :
    InOrder (Function.update d b s) L ∧ Continues d L (Function.update d b s) L := by
  refine h.frame (fun c hc => Function.update_of_ne (by omega) ..)
    (fun c hc => (marked_congr (Function.update_of_ne (by omega) ..)).mpr hc)
    (fun i c hc => Function.update_of_ne (fun he : c = b => hb i (he ▸ hc)) ..) fun c hc => ?_
  by_cases hcb : c = b
  · rw [hcb, Function.update_self]
    exact hw (hcb ▸ hc)
  · rw [Function.update_of_ne hcb]
    exact h.words c hc

/-- The record of a regular file is replaced by a copy. -/
theorem setRecord (h : InOrder d L) (hx : RegularCopy d L x) :
    InOrder (setInode d x.inode_index.toNat x) L ∧
      Continues d L (setInode d x.inode_index.toNat x) L := by
  have hlt := hx.inUse.1
  have hout : ∀ b, b = 0 ∨ 41 ≤ b → setInode d x.inode_index.toNat x b = d b := fun b hb =>
    setInode_outside hlt hb
  have hself := inodeAt_setInode_self d x.inode_index.toNat x
  have hne : ∀ k, IsDir d k → k ≠ x.inode_index.toNat := fun k hk he => hx.notDir (he ▸ hk)
  have hs : SameDirs d (setInode d x.inode_index.toNat x) := by
    refine ⟨hout 0 (.inl rfl), fun b hb => (marked_congr (hout 41 (.inr le_rfl))).mpr hb,
      fun k hk => ⟨hk.1, ?_⟩, fun k hk => ⟨hk.1, ?_⟩, fun k hk => inodeAt_setInode_of_ne (hne k hk),
      fun k hk b hb => hout b (.inr ?_)⟩
    · by_cases hkj : k = x.inode_index.toNat
      · rw [hkj, hself, hx.type]
        simp
      · rw [inodeAt_setInode_of_ne hkj]
        exact hk.2
    · by_cases hkj : k = x.inode_index.toNat
      · have := hk.2
        rw [hkj, hself, hx.type] at this
        cases this
      · have := hk.2
        rwa [inodeAt_setInode_of_ne hkj] at this
    · have := ((h.tree.mapped k hk).owns_area hb).le
      omega
  refine ⟨h.sameDirs hs (.refl L) (fun b hz hne => absurd hz hne) (fun b hb => ?_) fun i hi hd => ?_,
    .of_sameDirs hs (.refl L)⟩
  · have := (h.area b (by simp [hb])).le
    rw [hout b (.inr (by omega))]
    exact h.words b hb
  · by_cases hij : i = x.inode_index.toNat
    · rw [hij, hself]
      exact ⟨rfl, hx.refers⟩
    · have hrec : inodeAt (setInode d x.inode_index.toNat x) i = inodeAt d i :=
        inodeAt_setInode_of_ne hij
      have hi' : InUse d i := ⟨hi.1, by rw [← hrec]; exact hi.2⟩
      rw [hrec]
      exact ⟨h.index i hi', h.records i hi' fun hd' => hd (hs.isDir_iff.mpr hd')⟩

end InOrder

end OrangeOs.Fs
