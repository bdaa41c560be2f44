import OrangeOs.Filesystem.FileStream

/-! # Writes that create an indirect block

`Extended d x n d' x' n'` is what writes to the file with inode `x` do to the rest of the disk. The
first write past the direct slots creates the indirect block, of which only one word is assigned; a
write works also then as long as it uses no other word, or the other words are zero.
-/

namespace OrangeOs.Fs

open Prog

/-- The number of indirect blocks of a file. -/
def indirectCount (x : InodeDef) : ℕ := if x.indirect_addr.toNat = 0 then 0 else 1

/-- The effect of writes to one file. -/
structure Extended (d : Disk) (x : InodeDef) (n : ℕ) (d' : Disk) (x' : InodeDef) (n' : ℕ) : Prop where
  le : n ≤ n'
  mapped : Mapped d' x' n'
  index : x'.inode_index = x.inode_index
  super : d' 0 = d 0
  record : inodeAt d x.inode_index.toNat = x → inodeAt d' x.inode_index.toNat = x'
  others : ∀ j < 320, j ≠ x.inode_index.toNat → inodeAt d' j = inodeAt d j
  marked : ∀ c, Marked d c → Marked d' c
  owns : ∀ o, Owns d' x' n' o → Owns d x n o ∨ Free d o
  frame : ∀ o, 42 ≤ o → Marked d o → ¬ Owns d x n o → d' o = d o
  indirect : x.indirect_addr.toNat ≠ 0 → x'.indirect_addr.toNat ≠ 0
  created : x.indirect_addr.toNat = 0 → x'.indirect_addr.toNat ≠ 0 → 12 < n'
  free : freeCount d' + n' + indirectCount x' = freeCount d + n + indirectCount x

/-- The file keeps its blocks where they are, no block is marked that is not of the file, and the
record is the inode unless nothing was written to it. -/
structure Accounted (d : Disk) (x : InodeDef) (n : ℕ) (d' : Disk) (x' : InodeDef) (n' : ℕ) : Prop where
  le : n ≤ n'
  slots : ∀ k < n, slot d' x' k = slot d x k
  pointer : x.indirect_addr.toNat ≠ 0 → x'.indirect_addr = x.indirect_addr
  only : ∀ c, Marked d' c → Marked d c ∨ Owns d' x' n' c
  inode : x' = { x with size := x'.size, addr := x'.addr, indirect_addr := x'.indirect_addr }
  stored : inodeAt d' x.inode_index.toNat = x' ∨
    x' = x ∧ inodeAt d' x.inode_index.toNat = inodeAt d x.inode_index.toNat

/-- The words of a new indirect block that are not assigned do not matter to a write that ends
at `e`. -/
def Clean (junk : Sector) (x : InodeDef) (e : ℕ) : Prop :=
  x.indirect_addr.toNat ≠ 0 ∨ e ≤ 512 * 13 ∨ ∀ k, 1 ≤ k → k < 128 → indirectWord junk k = 0

/-- There are free blocks for a file that ends at `e`. -/
def Enough (d : Disk) (x : InodeDef) (n e : ℕ) : Prop :=
  blocks e - n + (if 12 < blocks e ∧ x.indirect_addr.toNat = 0 then 1 else 0) ≤ freeCount d

/-- Writes to the file that end at `e` or before do not fail. -/
structure Writable (junk : Sector) (e : ℕ) (d : Disk) (x : InodeDef) (n : ℕ) : Prop where
  formatted : Formatted d
  mapped : Mapped d x n
  size_le : x.size.toNat ≤ 512 * n
  index : x.inode_index.toNat < 320
  vacant : e ≤ 512 * n ∨ Vacant d x n
  clean : Clean junk x e
  enough : Enough d x n e

variable {d d' d'' : Disk} {x x' x'' : InodeDef} {n n' n'' e pos : ℕ} {junk : Sector}
  {buf buf' : List UInt8}

/-! ## Effects -/

theorem Extended.refl (h : Mapped d x n) : Extended d x n d x n where
  le := le_rfl
  mapped := h
  index := rfl
  super := rfl
  record := id
  others _ _ _ := rfl
  marked _ := id
  owns _ := .inl
  frame _ _ _ _ := rfl
  indirect := id
  created hz hne := absurd hz hne
  free := rfl

theorem Extended.trans (h : Extended d x n d' x' n') (h' : Extended d' x' n' d'' x'' n'') :
    Extended d x n d'' x'' n'' where
  le := h.le.trans h'.le
  mapped := h'.mapped
  index := h'.index.trans h.index
  super := h'.super.trans h.super
  record hx := by
    have := h'.record
    rw [h.index] at this
    exact this (h.record hx)
  others j hj hne := by
    rw [h'.others j hj (by rwa [h.index]), h.others j hj hne]
  marked c hc := h'.marked c (h.marked c hc)
  owns o ho := by
    rcases h'.owns o ho with ho | hf
    · exact h.owns o ho
    · exact .inr (hf.of_marked_mono h.super h.marked)
  frame o ho hm hno := by
    have hno' : ¬ Owns d' x' n' o := fun hown => by
      rcases h.owns o hown with hown | hfree
      · exact hno hown
      · exact hfree.not_marked hm
    rw [h'.frame o ho (h.marked o hm) hno', h.frame o ho hm hno]
  indirect hne := h'.indirect (h.indirect hne)
  created hz hne := by
    by_cases hz' : x'.indirect_addr.toNat = 0
    · exact h'.created hz' hne
    · exact (h.created hz hz').trans_le h'.le
  free := by
    have := h.free
    have := h'.free
    omega

theorem Wrote.extended (h : Wrote d x n pos buf d' x' n') : Extended d x n d' x' n' where
  le := h.le
  mapped := h.mapped
  index := h.inode_index
  super := h.super
  record := h.inodeAt_eq
  others := h.others
  marked _ := h.marked_mono
  owns _ := h.owns
  frame := h.frame
  indirect hne := by rwa [h.indirect_addr]
  created hz hne := absurd (h.indirect_addr ▸ hz) hne
  free := by
    have := h.free
    have := h.le
    rw [indirectCount, indirectCount, h.indirect_addr]
    omega

theorem Accounted.refl (d : Disk) (x : InodeDef) (n : ℕ) : Accounted d x n d x n :=
  ⟨le_rfl, fun _ _ => rfl, fun _ => rfl, fun _ => .inl, rfl, .inr ⟨rfl, rfl⟩⟩

theorem Accounted.keeps (h : Accounted d x n d' x' n') {c : ℕ} (hc : Owns d x n c) : Owns d' x' n' c := by
  rcases hc with ⟨k, hk, rfl⟩ | ⟨hz, rfl⟩
  · exact .inl ⟨k, hk.trans_le h.le, h.slots k hk⟩
  · exact .inr (by rw [h.pointer hz]; exact ⟨hz, rfl⟩)

theorem Accounted.type (h : Accounted d x n d' x' n') : x'.type = x.type := by rw [h.inode]

theorem Accounted.index (h : Accounted d x n d' x' n') : x'.inode_index = x.inode_index := by
  rw [h.inode]

theorem Accounted.trans (h : Accounted d x n d' x' n') (h' : Accounted d' x' n' d'' x'' n'') :
    Accounted d x n d'' x'' n'' where
  le := h.le.trans h'.le
  slots k hk := (h'.slots k (hk.trans_le h.le)).trans (h.slots k hk)
  pointer hz := by
    have hx := h.pointer hz
    rw [← hx] at hz ⊢
    exact h'.pointer hz
  only c hc := by
    rcases h'.only c hc with hc | hc
    · exact (h.only c hc).imp_right h'.keeps
    · exact .inr hc
  inode := by
    rw [h'.inode, h.inode]
  stored := by
    have hstored := h'.stored
    rw [h.index] at hstored
    rcases hstored with hrec | ⟨rfl, hrec⟩
    · exact .inl hrec
    · rw [hrec]
      exact h.stored

theorem Wrote.accounted (h : Wrote d x n pos buf d' x' n') : Accounted d x n d' x' n' where
  le := h.le
  slots := h.slots
  pointer _ := h.indirect_addr
  only c hc := by
    rcases (h.marked c).mp hc with hc | ⟨k, -, hk, rfl⟩
    · exact .inl hc
    · exact .inr (.inl ⟨k, hk, rfl⟩)
  inode := by
    have hz := h.indirect_addr
    rw [hz]
    exact h.inode
  stored := by
    by_cases hlt : x.size.toNat < pos + buf.length
    · exact .inl (h.record.trans (if_pos hlt))
    · exact .inr ⟨h.kept (not_lt.mp hlt), h.record.trans (if_neg hlt)⟩

/-- What is written is needed for a file that ends at `e`, so there is still enough left. -/
theorem Extended.enough (h : Extended d x n d' x' n') (hn : n' ≤ max n (blocks e))
    (he : Enough d x n e) : Enough d' x' n' e := by
  have hle := h.le
  have hfree := h.free
  rw [indirectCount, indirectCount] at hfree
  rw [Enough] at he ⊢
  by_cases hz : x.indirect_addr.toNat = 0
  · by_cases hz' : x'.indirect_addr.toNat = 0
    · rw [if_pos hz, if_pos hz'] at hfree
      simp only [hz, hz', and_true] at he ⊢
      split_ifs at he ⊢ <;> omega
    · have h12 := h.created hz hz'
      rw [if_pos hz, if_neg hz'] at hfree
      rw [if_neg fun hc => hz' hc.2]
      split_ifs at he <;> omega
  · rw [if_neg hz, if_neg (h.indirect hz)] at hfree
    rw [if_neg fun hc => hz hc.2] at he
    rw [if_neg fun hc => h.indirect hz hc.2]
    omega

theorem overwrite_overwrite {old : List UInt8} (hpos : pos ≤ old.length) (buf buf' : List UInt8) :
    overwrite (overwrite old pos buf) (pos + buf.length) buf' = overwrite old pos (buf ++ buf') := by
  have hlen : (overwrite old pos buf).length = max old.length (pos + buf.length) :=
    length_overwrite hpos
  have hlen' : (overwrite (overwrite old pos buf) (pos + buf.length) buf').length =
      max (overwrite old pos buf).length (pos + buf.length + buf'.length) :=
    length_overwrite (by omega)
  have hlen'' : (overwrite old pos (buf ++ buf')).length =
      max old.length (pos + (buf ++ buf').length) := length_overwrite hpos
  rw [List.length_append] at hlen''
  refine ext_charAt (by omega) fun k _ => ?_
  rw [charAt_overwrite (by omega), charAt_overwrite hpos, charAt_overwrite hpos, List.length_append]
  by_cases h₁ : pos ≤ k ∧ k < pos + buf.length
  · rw [if_neg (by omega), if_pos h₁, if_pos (by omega), charAt_append_left (by omega)]
  · by_cases h₂ : pos + buf.length ≤ k ∧ k < pos + buf.length + buf'.length
    · rw [if_pos h₂, if_pos (by omega), charAt_append_right (by omega)]
      congr 1
      omega
    · rw [if_neg h₂, if_neg h₁, if_neg (by omega)]

/-! ## The first write past the direct slots -/

/-- The blocks `a` and `b` become the indirect block and block index 12 of the file. -/
structure Creates (junk : Sector) (d : Disk) (x : InodeDef) (buf : List UInt8) (a b : ℕ) (d' : Disk)
    (x' : InodeDef) : Prop where
  first : Free d a
  second : Free (mark d a) b
  inode : x' = { x with indirect_addr := x'.indirect_addr, size := x'.size }
  indirect : x'.indirect_addr.toNat = a
  size : x'.size.toNat = 512 * 12 + buf.length
  super : d' 0 = d 0
  bitmap : d' 41 = mark (mark d a) b 41
  words : d' a = setIndirectWord junk 0 b
  data : d' b = (d b).patch 0 buf.length (charAt buf)
  frame : ∀ o, 42 ≤ o → o ≠ a → o ≠ b → d' o = d o
  others : ∀ j < 320, j ≠ x.inode_index.toNat → inodeAt d' j = inodeAt d j
  record : inodeAt d' x.inode_index.toNat = x'

theorem run_writeImpl_create (junk : Sector) (hf : Formatted d) (hz : x.indirect_addr.toNat = 0)
    (hsz : x.size.toNat ≤ 512 * 12) (hi : x.inode_index.toNat < 320) (hfree : 2 ≤ freeCount d)
    (hlen : 0 < buf.length) (hle : buf.length ≤ 512) :
    ∃ a b d' x', (writeImpl junk x buf (512 * 12)).run d = (.ok (true, x'), d') ∧
      Creates junk d x buf a b d' x' := by
  obtain ⟨a, ha⟩ : ∃ a, nextFree d = some a := by
    rw [← Option.ne_none_iff_exists', ne_eq, ← freeCount_eq_zero_iff]
    omega
  have hfa := free_of_nextFree ha
  obtain ⟨b, hb⟩ : ∃ b, nextFree (mark d a) = some b := by
    have := freeCount_mark hfa
    rw [← Option.ne_none_iff_exists', ne_eq, ← freeCount_eq_zero_iff]
    omega
  have hfb := free_of_nextFree hb
  have hle_a := hfa.le
  have hle_b := hfb.le
  have hab : a ≠ b := fun he => hfb.not_marked (he ▸ (marked_mark_iff hfa).mpr (.inl rfl))
  have hblock := run_writeBlock_create junk (k := 12) hf le_rfl hz
  simp only [ha, hb] at hblock
  have hsize : (UInt32.ofNat (512 * 12 + buf.length)).toNat = 512 * 12 + buf.length := by
    rw [UInt32.toNat_ofNat', Nat.mod_eq_of_lt (by omega)]
  have hword : (UInt32.ofNat a).toNat = a := by
    rw [UInt32.toNat_ofNat', Nat.mod_eq_of_lt ((hfa.lt_fsSize hf).trans (fsSize_lt _))]
  obtain ⟨y, hy⟩ : ∃ y : InodeDef,
    y = { x with indirect_addr := .ofNat a, size := .ofNat (512 * 12 + buf.length) } := ⟨_, rfl⟩
  obtain ⟨e, he⟩ : ∃ e, e = putData (Function.update (mark (mark d a) b) a
    (setIndirectWord junk 0 b)) b 0 buf := ⟨_, rfl⟩
  have hout : ∀ o, o ≠ a → o ≠ b → e o = mark (mark d a) b o := fun o ho ho' => by
    rw [he, putData, Function.update_of_ne ho', Function.update_of_ne ho]
  have hkeep : ∀ o, o ≠ a → o ≠ b → o ≠ 41 → e o = d o := fun o ho ho' h41 => by
    rw [hout o ho ho', mark_of_ne h41, mark_of_ne h41]
  refine ⟨a, b, setInode e x.inode_index.toNat y, y, ?_, hfa, hfb, by rw [hy], by rw [hy, hword],
    by rw [hy, hsize], ?_, ?_, ?_, ?_, fun o ho hoa hob => ?_, fun j hj hne => ?_,
    inodeAt_setInode_self ..⟩
  · simp only [writeImpl, BLOCK_SIZE, show 512 * 12 / 512 % 2 ^ 32 = 12 from rfl, run_bind, hblock,
      run_writeData (show 512 * 12 % 512 + buf.length ≤ 512 by omega),
      if_pos (show 512 * 12 + buf.length > x.size.toNat by omega), run_updateInode hi, run_pure, hy, he]
  · rw [setInode_outside hi (.inl rfl), hkeep 0 (by omega) (by omega) (by omega)]
  · rw [setInode_outside hi (.inr le_rfl), hout 41 (by omega) (by omega)]
  · rw [setInode_outside hi (.inr (by omega)), he, putData, Function.update_of_ne hab,
      Function.update_self]
  · rw [setInode_outside hi (.inr (by omega)), he, putData, Function.update_self,
      Function.update_of_ne hab.symm, mark_of_ne (by omega), mark_of_ne (by omega)]
  · rw [setInode_outside hi (.inr (by omega)), hkeep o hoa hob (by omega)]
  · rw [inodeAt_setInode_of_ne hne, inodeAt_congr (hkeep _ (by omega) (by omega) (by omega))]

namespace Creates

variable {a b : ℕ}

theorem ne (h : Creates junk d x buf a b d' x') : a ≠ b := fun he =>
  h.second.not_marked (he ▸ (marked_mark_iff h.first).mpr (.inl rfl))

theorem marked_iff (h : Creates junk d x buf a b d' x') {c : ℕ} :
    Marked d' c ↔ c = b ∨ c = a ∨ Marked d c := by
  rw [marked_congr (d := mark (mark d a) b) h.bitmap, marked_mark_iff h.second, marked_mark_iff h.first]

theorem second_free (h : Creates junk d x buf a b d' x') : Free d b :=
  h.second.of_marked_mono (mark_of_ne (by omega)) fun _ hc => (marked_mark_iff h.first).mpr (.inr hc)

theorem slot_direct (h : Creates junk d x buf a b d' x') {k : ℕ} (hk : k < 12) :
    slot d' x' k = slot d x k := by
  rw [slot_of_lt hk, slot_of_lt hk, h.inode]
  rfl

theorem slot_first (hf : Formatted d) (h : Creates junk d x buf a b d' x') : slot d' x' 12 = b := by
  have hb32 : b < 2 ^ 32 := (h.second_free.lt_fsSize hf).trans (fsSize_lt _)
  rw [slot_of_ge le_rfl, h.indirect, h.words]
  exact indirectWord_set_self (by omega) hb32

theorem mapped (h : Creates junk d x buf a b d' x') (hf : Formatted d) (hm : Mapped d x 12) :
    Mapped d' x' 13 := by
  have harea : ∀ c, InArea d c → InArea d' c := fun c hc =>
    hc.congr h.super fun o ho => h.marked_iff.mpr (.inr (.inr ho))
  have hmarked : ∀ k < 12, Marked d (slot d x k) := fun k hk => (hm.area k hk).2
  have hfree : ∀ c, Free d c → (c = b ∨ c = a) → InArea d' c := fun c hc he =>
    ⟨by rw [fsSize_congr h.super]; exact hc.lt_fsSize hf,
      h.marked_iff.mpr (he.imp_right .inl)⟩
  have hslot : ∀ k < 13, k < 12 ∧ slot d' x' k = slot d x k ∨ k = 12 ∧ slot d' x' k = b := fun k hk => by
    rcases Nat.lt_or_ge k 12 with hk | hk
    · exact .inl ⟨hk, h.slot_direct hk⟩
    · obtain rfl : k = 12 := by omega
      exact .inr ⟨rfl, h.slot_first hf⟩
  refine ⟨by omega, fun k hk => ?_, fun _ => ?_, fun _ => ?_,
    fun j hj k hk he => ?_, fun _ k hk he => ?_⟩
  · rcases hslot k hk with ⟨hk, he⟩ | ⟨-, he⟩
    · rw [he]
      exact harea _ (hm.area k hk)
    · rw [he]
      exact hfree b h.second_free (.inl rfl)
  · have := h.indirect
    have := h.first.le
    omega
  · rw [h.indirect]
    exact hfree a h.first (.inr rfl)
  · rcases hslot j hj with ⟨hj, hj'⟩ | ⟨hj, hj'⟩ <;> rcases hslot k hk with ⟨hk, hk'⟩ | ⟨hk, hk'⟩
    · exact hm.inj j hj k hk (hj'.symm.trans (he.trans hk'))
    · exact absurd (hmarked j hj) (by rw [← hj', he, hk']; exact h.second_free.not_marked)
    · exact absurd (hmarked k hk) (by rw [← hk', ← he, hj']; exact h.second_free.not_marked)
    · omega
  · rw [h.indirect] at he
    rcases hslot k hk with ⟨hk, hk'⟩ | ⟨-, hk'⟩
    · have hmark := hmarked k hk
      rw [← hk', he] at hmark
      exact h.first.not_marked hmark
    · exact h.ne (he.symm.trans hk')

theorem extended (h : Creates junk d x buf a b d' x') (hf : Formatted d) (hm : Mapped d x 12)
    (hz : x.indirect_addr.toNat = 0) : Extended d x 12 d' x' 13 := by
  have hne : x'.indirect_addr.toNat ≠ 0 := by
    have := h.indirect
    have := h.first.le
    omega
  refine ⟨by omega, h.mapped hf hm, by rw [h.inode], h.super, fun _ => h.record, h.others,
    fun c hc => h.marked_iff.mpr (.inr (.inr hc)), fun o ho => ?_, fun o ho hom _ => ?_, fun _ => hne,
    fun _ _ => by omega, ?_⟩
  · rcases ho with ⟨k, hk, rfl⟩ | ⟨-, rfl⟩
    · rcases Nat.lt_or_ge k 12 with hk' | hk'
      · exact .inl (.inl ⟨k, hk', (h.slot_direct hk').symm⟩)
      · obtain rfl : k = 12 := by omega
        rw [h.slot_first hf]
        exact .inr h.second_free
    · rw [h.indirect]
      exact .inr h.first
  · refine h.frame o ho (fun he => ?_) fun he => ?_
    · exact h.first.not_marked (he ▸ hom)
    · exact h.second_free.not_marked (he ▸ hom)
  · have h₀ : d' 0 = mark (mark d a) b 0 := by
      rw [h.super, mark_of_ne (by omega), mark_of_ne (by omega)]
    have hfirst := freeCount_mark h.first
    have hsecond := freeCount_mark h.second
    have hcount := freeCount_congr h₀ h.bitmap
    have hx : indirectCount x = 0 := if_pos hz
    have hx' : indirectCount x' = 1 := if_neg hne
    omega

theorem accounted (h : Creates junk d x buf a b d' x') (hf : Formatted d)
    (hz : x.indirect_addr.toNat = 0) :
    Accounted d x 12 d' x' 13 where
  le := by omega
  slots _ := h.slot_direct
  pointer hne := absurd hz hne
  only c hc := by
    rcases h.marked_iff.mp hc with rfl | rfl | hc
    · exact .inr (.inl ⟨12, by omega, h.slot_first hf⟩)
    · have := h.first.le
      exact .inr (.inr ⟨by rw [h.indirect]; omega, h.indirect⟩)
    · exact .inl hc
  inode := by
    have haddr : x'.addr = x.addr := by rw [h.inode]
    rw [haddr]
    exact h.inode
  stored := .inl h.record

theorem contents_eq (h : Creates junk d x buf a b d' x') (hf : Formatted d) (hm : Mapped d x 12)
    (hsz : x.size.toNat = 512 * 12) (hle : buf.length ≤ 512) :
    contents d' x' = overwrite (contents d x) (512 * 12) buf := by
  have hpos : 512 * 12 ≤ (contents d x).length := by rw [length_contents, hsz]
  refine ext_charAt ?_ fun p hp => ?_
  · rw [length_contents, length_overwrite hpos, length_contents, h.size, hsz]
    omega
  · rw [length_contents, h.size] at hp
    rw [charAt_contents (by rw [h.size]; exact hp), charAt_overwrite hpos, fileByte]
    rcases Nat.lt_or_ge p (512 * 12) with hlt | hge
    · have hk : p / 512 < 12 := by omega
      have hmark := (hm.area _ hk).2
      rw [if_neg (by omega), charAt_contents (by omega), fileByte, h.slot_direct hk,
        h.frame _ (hm.area _ hk).le (fun he => h.first.not_marked (he ▸ hmark))
          fun he => h.second_free.not_marked (he ▸ hmark)]
    · have hmod : p % 512 = p - 512 * 12 := by omega
      rw [if_pos (by omega), show p / 512 = 12 by omega, h.slot_first hf, h.data, hmod,
        Buffer.byte_patch_of_mem (by omega) (by omega) (by omega), Nat.sub_zero]

theorem vacant (h : Creates junk d x buf a b d' x')
    (hj : ∀ k, 1 ≤ k → k < 128 → indirectWord junk k = 0) : Vacant d' x' 13 where
  direct k hk h12 := by omega
  indirect _ k hk h12 h140 := by
    rw [slot_of_ge h12, h.indirect, h.words, indirectWord_set_of_ne (by omega)]
    exact hj _ (by omega) (by omega)

end Creates

/-! ## Whole writes -/

/-- The loop of `Write` writes a prefix of its buffer, and ends before the end of the buffer only
where there is no free block. -/
structure Advances (e : ℕ) (d : Disk) (x : InodeDef) (n pos : ℕ) (buf : List UInt8) (m : ℕ) (d' : Disk)
    (x' : InodeDef) (n' : ℕ) : Prop where
  le : m ≤ buf.length
  extended : Extended d x n d' x' n'
  accounted : Accounted d x n d' x' n'
  count : n' = max n (blocks (pos + m))
  contents_eq : contents d' x' = overwrite (contents d x) pos (buf.take m)
  size_le : x'.size.toNat ≤ 512 * n'
  vacant : e ≤ 512 * n' ∨ Vacant d' x' n'
  stop : m = buf.length ∨ m < buf.length ∧ pos + m = 512 * n' ∧ freeCount d' = 0

theorem Wrote.advances {m : ℕ} (h : Wrote d x n pos (buf.take m) d' x' n') (hpos : pos ≤ x.size.toNat)
    (hsz : x.size.toNat ≤ 512 * n) (hv : e ≤ 512 * n ∨ Vacant d x n) (hm : m ≤ buf.length)
    (hstop : m = buf.length ∨ m < buf.length ∧ pos + m = 512 * n' ∧ freeCount d' = 0) :
    Advances e d x n pos buf m d' x' n' :=
  ⟨hm, h.extended, h.accounted, by rw [h.blocks_eq, List.length_take_of_le hm], h.contents_eq hpos hsz,
    h.size_le hsz, hv.imp (fun he => he.trans (Nat.mul_le_mul_left 512 h.le)) h.vacant, hstop⟩

/-- One part of the buffer after the other. -/
theorem Advances.after {r m : ℕ} (hext : Extended d x n d' x' n') (haccounted : Accounted d x n d' x' n')
    (hn : n' = max n (blocks (pos + r)))
    (hcont : contents d' x' = overwrite (contents d x) pos (buf.take r)) (hr : r ≤ buf.length)
    (hpos : pos ≤ x.size.toNat) (h : Advances e d' x' n' (pos + r) (buf.drop r) m d'' x'' n'') :
    Advances e d x n pos buf (r + m) d'' x'' n'' := by
  have hdrop : (buf.drop r).length = buf.length - r := List.length_drop
  have hle := h.le
  refine ⟨by omega, hext.trans h.extended, haccounted.trans h.accounted, ?_, ?_, h.size_le, h.vacant, ?_⟩
  · rw [h.count, hn]
    simp only [blocks]
    omega
  · have hle : pos ≤ (contents d x).length := by rwa [length_contents]
    have hjoin := overwrite_overwrite hle (buf.take r) ((buf.drop r).take m)
    rw [List.length_take_of_le hr, ← hcont, ← h.contents_eq, ← List.take_add] at hjoin
    exact hjoin
  · rcases h.stop with hall | ⟨hlt, hat, hfree⟩
    · exact .inl (by omega)
    · exact .inr ⟨by omega, by omega, hfree⟩

/-- From where the indirect block is due. -/
theorem run_writeFrom_create (hf : Formatted d) (hm : Mapped d x 12) (hz : x.indirect_addr.toNat = 0)
    (hsz : x.size.toNat = 512 * 12) (hi : x.inode_index.toNat < 320) (hbuf : buf ≠ [])
    (hmax : 512 * 12 + buf.length ≤ 512 * 140) (he : 512 * 12 + buf.length ≤ e) (hone : freeCount d ≠ 1)
    (hclean : 2 ≤ freeCount d → e ≤ 512 * 13 ∨ ∀ k, 1 ≤ k → k < 128 → indirectWord junk k = 0)
    (hv : e ≤ 512 * 12 ∨ Vacant d x 12) (done : ℕ) :
    ∃ m d' x' n', (writeFrom junk x buf (512 * 12) done).run d = (.ok (done + m, x'), d') ∧
      Advances e d x 12 (512 * 12) buf m d' x' n' := by
  have hpb : buf.length > 0 := List.length_pos_iff.mpr hbuf
  by_cases hfree : freeCount d = 0
  · -- there is no block for the indirect block
    have hrun : (writeFrom junk x buf (512 * 12) done).run d = (.ok (done, x), d) := by
      rcases run_writeFrom_create_full junk done hf hz (by omega) hbuf with hrun | ⟨a, ha, -⟩
      · exact hrun
      · have := freeCount_mark ha
        omega
    refine ⟨0, d, x, 12, hrun, Nat.zero_le _, .refl hm, .refl d x 12, rfl, ?_, hsz.le, hv,
      .inr ⟨hpb, rfl, hfree⟩⟩
    have hlen : (contents d x).length = 512 * 12 := by rw [length_contents, hsz]
    rw [List.take_zero, overwrite, List.append_nil, List.length_nil, Nat.add_zero, List.take_append_drop]
  · obtain ⟨r, hr⟩ : ∃ r, r = min buf.length 512 := ⟨_, rfl⟩
    have hrl : (buf.take r).length = r := List.length_take_of_le (by omega)
    have hdrop : (buf.drop r).length = buf.length - r := List.length_drop
    obtain ⟨a, b, d₁, x₁, hrun₁, hc⟩ := run_writeImpl_create junk hf hz hsz.le hi (by omega)
      (show 0 < (buf.take r).length by omega) (by omega)
    have hext := hc.extended hf hm hz
    have hsize₁ : x₁.size.toNat = 512 * 12 + r := by rw [hc.size, hrl]
    have hv₁ : e ≤ 512 * 13 ∨ Vacant d₁ x₁ 13 := (hclean (by omega)).imp_right hc.vacant
    have hi₁ : x₁.inode_index.toNat < 320 := by rwa [hext.index]
    obtain ⟨m, d₂, x₂, n₂, hmle, hw, hgo, hend⟩ := run_writeFrom (hf.congr hext.super) hext.mapped
      (show x₁.size.toNat ≤ 512 * 13 by omega) (show 512 * 12 + r ≤ x₁.size.toNat by omega)
      (show 512 * 12 + r + (buf.drop r).length ≤ 512 * 140 by omega) hi₁
      (hv₁.imp_left fun hle => by omega) (done + r)
    have hstep : (writeFrom junk x buf (512 * 12) done).run d =
        (writeFrom junk x₁ (buf.drop r) (512 * 12 + r) (done + r)).run d₁ := by
      rw [writeFrom, dif_pos hpb]
      simp only [BLOCK_SIZE, show 512 - 512 * 12 % 512 = 512 from rfl, ← hr, run_bind, hrun₁]
    have hcont := hc.contents_eq hf hm hsz (by omega)
    refine ⟨r + m, d₂, x₂, n₂, ?_,
      .after hext (hc.accounted hf hz) (by rw [blocks]; omega) hcont (by omega) hsz.ge
      (hw.advances (by omega) (by omega) hv₁ hmle ?_)⟩
    · rw [hstep, ← Nat.add_assoc]
      rcases hend with hall | ⟨-, -, -, hrun⟩ | ⟨-, -, -, hz₁⟩
      · rw [hgo, hall, List.drop_length, run_writeFrom_nil]
      · exact hrun junk
      · exact absurd hz₁ (hext.mapped.indirect_ne (by omega))
    · rcases hend with hall | ⟨hlt, hat, hnone, -⟩ | ⟨-, -, -, hz₁⟩
      · exact .inl hall
      · exact .inr ⟨hlt, hat, freeCount_eq_zero_iff.mpr hnone⟩
      · exact absurd hz₁ (hext.mapped.indirect_ne (by omega))

/-- A write up to the largest file size advances, unless it finds exactly one free block when the
indirect block is due, or the words of a new indirect block matter. -/
theorem run_write_advances (junk : Sector) (hf : Formatted d) (hm : Mapped d x n)
    (hsz : x.size.toNat ≤ 512 * n)
    (hi : x.inode_index.toNat < 320) (hv : e ≤ 512 * n ∨ Vacant d x n) (hpos : pos ≤ x.size.toNat)
    (hmax : pos + buf.length ≤ 512 * 140) (he : pos + buf.length ≤ e)
    (hone : x.indirect_addr.toNat = 0 → 512 * 12 < pos + buf.length → freeCount d ≠ 12 - n + 1)
    (hclean : x.indirect_addr.toNat = 0 → 512 * 12 < pos + buf.length → 12 - n + 2 ≤ freeCount d →
      e ≤ 512 * 13 ∨ ∀ k, 1 ≤ k → k < 128 → indirectWord junk k = 0) :
    ∃ m d' x' n', (write junk x buf pos).run d = (.ok (m, x'), d') ∧
      Advances e d x n pos buf m d' x' n' := by
  obtain ⟨m, d₁, x₁, n₁, hmle, hw, hgo, hend⟩ := run_writeFrom hf hm hsz hpos hmax hi
    (hv.imp_left (he.trans ·)) 0
  have hlen : (buf.take m).length = m := List.length_take_of_le hmle
  have hadv := hw.advances hpos hsz hv hmle
  rcases hend with hall | ⟨hlt, hat, hnone, hrun⟩ | ⟨hlt, hat, rfl, hz⟩
  · refine ⟨m, d₁, x₁, n₁, ?_, hadv (.inl hall)⟩
    rw [write, if_neg (by omega), hgo, hall, List.drop_length, run_writeFrom_nil, Nat.zero_add]
  · refine ⟨m, d₁, x₁, n₁, ?_, hadv (.inr ⟨hlt, hat, freeCount_eq_zero_iff.mpr hnone⟩)⟩
    rw [write, if_neg (by omega), hrun, Nat.zero_add]
  · -- the indirect block is due
    have hz₁ : x₁.indirect_addr.toNat = 0 := by rwa [hw.indirect_addr]
    have hle := hw.le
    have hcount := hw.free
    have hsz₁ : x₁.size.toNat = 512 * 12 := by
      have := hw.size_le hsz
      rw [hw.size, hlen] at this ⊢
      omega
    have hrest : (buf.drop m).length = buf.length - m := List.length_drop
    have hne : buf.drop m ≠ [] := fun hnil => by
      rw [hnil, List.length_nil] at hrest
      omega
    obtain ⟨m', d₂, x₂, n₂, hrun₂, hadv₂⟩ := run_writeFrom_create (hf.congr hw.super) hw.mapped hz₁ hsz₁
      (by rwa [hw.inode_index]) hne (by omega) (show 512 * 12 + (buf.drop m).length ≤ e by omega)
      (by have := hone hz (by omega); omega)
      (fun htwo => hclean hz (by omega) (by omega))
      (hv.imp (fun hle' => by omega) hw.vacant) (0 + m)
    rw [← hat] at hrun₂ hadv₂
    refine ⟨m + m', d₂, x₂, n₂, ?_, .after hw.extended hw.accounted (by rw [hw.blocks_eq, hlen])
      (hw.contents_eq hpos hsz) hmle hpos hadv₂⟩
    rw [write, if_neg (by omega), hgo, hrun₂, Nat.zero_add]

/-- A write to a file that can take it. -/
theorem run_write_writable (h : Writable junk e d x n) (hpos : pos ≤ x.size.toNat)
    (he : pos + buf.length ≤ e) (hmax : e ≤ 512 * 140) :
    ∃ d' x' n', (write junk x buf pos).run d = (.ok (buf.length, x'), d') ∧
      Extended d x n d' x' n' ∧ contents d' x' = overwrite (contents d x) pos buf ∧
      Writable junk e d' x' n' := by
  obtain ⟨hf, hm, hsz, hi, hv, hclean, henough⟩ := h
  have hneed := henough
  rw [Enough, blocks] at hneed
  obtain ⟨m, d', x', n', hrun, hadv⟩ := run_write_advances junk hf hm hsz hi hv hpos (by omega) he
    (fun hz hlt => by have := hm.indirect_ne; rw [if_pos ⟨by omega, hz⟩] at hneed; omega)
    (fun hz _ _ => hclean.resolve_left fun hne => hne hz)
  have hext := hadv.extended
  -- all of it is written
  have hall : m = buf.length := by
    refine hadv.stop.resolve_right ?_
    rintro ⟨hlt, hat, hnone⟩
    have hfree := hext.free
    have hle := hext.le
    have hcreated := hext.created
    have hindirect := hext.indirect
    rw [indirectCount, indirectCount] at hfree
    split_ifs at hfree hneed <;> omega
  subst hall
  have hn' : n' ≤ max n (blocks e) := by
    rw [hadv.count, blocks, blocks]
    omega
  refine ⟨d', x', n', hrun, hext, by have := hadv.contents_eq; rwa [List.take_length] at this,
    hf.congr hext.super, hext.mapped, hadv.size_le, by rwa [hext.index], hadv.vacant, ?_,
    hext.enough hn' henough⟩
  rcases hclean with hne | hclean
  · exact .inl (hext.indirect hne)
  · exact .inr hclean

end OrangeOs.Fs
