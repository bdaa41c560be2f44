import OrangeOs.Filesystem.Mapping

/-! # What a write does

`Wrote d x n pos buf d' x' n'` is the complete effect of writing `buf` at position `pos` of the file
with inode `x` and `n` mapped slots. One call of `WriteImpl` has this effect or finds
no free block; the effects of consecutive calls compose, and `Write` writes a prefix of its buffer.
-/

namespace OrangeOs.Fs

open Prog

/-- The effect of finding, and if need be allocating, the block of a block index. -/
structure Located (d : Disk) (x : InodeDef) (n idx : ℕ) (d' : Disk) (x' : InodeDef) (b : ℕ) :
    Prop where
  le : idx ≤ n
  mapped : Mapped d' x' (max n (idx + 1))
  vacant : Vacant d x n → Vacant d' x' (max n (idx + 1))
  target : slot d' x' idx = b
  slots : ∀ k < n, slot d' x' k = slot d x k
  inode : x' = { x with addr := x'.addr }
  kept : idx < n → x' = x ∧ d' = d
  low : ∀ o < 41, d' o = d o
  marked : ∀ c, Marked d' c ↔ Marked d c ∨ n ≤ idx ∧ c = b
  high : ∀ o, 42 ≤ o → (x.indirect_addr.toNat = 0 ∨ o ≠ x.indirect_addr.toNat) → d' o = d o
  fresh : n ≤ idx → Free d b
  free : freeCount d' + (max n (idx + 1) - n) = freeCount d

/-- The effect of writing `buf` at position `pos`. -/
structure Wrote (d : Disk) (x : InodeDef) (n pos : ℕ) (buf : List UInt8) (d' : Disk) (x' : InodeDef)
    (n' : ℕ) : Prop where
  blocks_eq : n' = max n (blocks (pos + buf.length))
  mapped : Mapped d' x' n'
  vacant : Vacant d x n → Vacant d' x' n'
  slots : ∀ k < n, slot d' x' k = slot d x k
  inode : x' = { x with size := x'.size, addr := x'.addr }
  size : x'.size.toNat = max x.size.toNat (pos + buf.length)
  kept : pos + buf.length ≤ x.size.toNat → x' = x
  super : d' 0 = d 0
  others : ∀ j < 320, j ≠ x.inode_index.toNat → inodeAt d' j = inodeAt d j
  record : inodeAt d' x.inode_index.toNat =
    if x.size.toNat < pos + buf.length then x' else inodeAt d x.inode_index.toNat
  marked : ∀ c, Marked d' c ↔ Marked d c ∨ ∃ k, n ≤ k ∧ k < n' ∧ slot d' x' k = c
  fresh : ∀ k, n ≤ k → k < n' → Free d (slot d' x' k)
  frame : ∀ o, 42 ≤ o → Marked d o → ¬ Owns d x n o → d' o = d o
  new_byte : ∀ p, pos ≤ p → p < pos + buf.length → fileByte d' x' p = charAt buf (p - pos)
  old_byte : ∀ p < 512 * n, (p < pos ∨ pos + buf.length ≤ p) → fileByte d' x' p = fileByte d x p
  free : freeCount d' + (n' - n) = freeCount d

variable {d d' d'' : Disk} {x x' x'' : InodeDef} {n n' n'' k b o idx pos : ℕ} {junk : Sector}
  {buf buf' : List UInt8}

/-! ## One block -/

theorem located_of_mapped (h : Mapped d x n) (hk : idx < n) : Located d x n idx d x (slot d x idx) := by
  have hmax : max n (idx + 1) = n := by omega
  refine ⟨hk.le, by rwa [hmax], fun hv => by rwa [hmax], rfl, fun _ _ => rfl, rfl, fun _ => ⟨rfl, rfl⟩,
    fun _ _ => rfl, fun c => ?_, fun _ _ _ => rfl, fun hle => ?_, by omega⟩
  · exact ⟨.inl, fun h => h.resolve_right fun hr => by omega⟩
  · omega

theorem located_of_vacant (hf : Formatted d) (h : Mapped d x n) (hv : Vacant d x n) (hn : n < 140)
    (hind : n < 12 ∨ x.indirect_addr.toNat ≠ 0) (hb : Free d b) :
    Located d x n n (assignDisk (mark d b) x n b) (assignInode x n b) b := by
  have hb32 : b < 2 ^ 32 := (hb.lt_fsSize hf).trans (fsSize_lt d)
  have h₀ : mark d b 0 = d 0 := mark_of_ne (by omega)
  have hmono : ∀ c, Marked d c → Marked (mark d b) c := fun c hc => (marked_mark_iff hb).mpr (.inr hc)
  have hisec : x.indirect_addr.toNat ≠ 0 → mark d b x.indirect_addr.toNat = d x.indirect_addr.toNat :=
    fun hi => mark_of_ne (by have := (h.indirect_area hi).le; omega)
  have hm' := h.congr h₀ hmono hisec
  have hv' := hv.congr hisec
  have hbm : Marked (mark d b) b := (marked_mark_iff hb).mpr (.inl rfl)
  have hba : InArea (mark d b) b := ⟨by rw [fsSize_congr h₀]; exact hb.lt_fsSize hf, hbm⟩
  have hfresh : ¬ Owns (mark d b) x n b := by
    rintro (⟨k, hk, he⟩ | ⟨hi, he⟩)
    · rw [slot_congr ((Nat.lt_or_ge k 12).imp_right fun h12 => hisec (h.indirect_ne (by omega)))] at he
      exact hb.not_marked (he ▸ (h.area k hk).2)
    · exact hb.not_marked (he ▸ (h.indirect_area hi).2)
  have hmax : max n (n + 1) = n + 1 := by omega
  have hlow : ∀ o < 42, assignDisk (mark d b) x n b o = mark d b o := fun o ho =>
    hm'.assignDisk_low hind ho
  have hslot := slot_assign (d := mark d b) (x := x) hn hb32
  refine ⟨le_rfl, by rw [hmax]; exact hm'.assign hn hba hfresh hind,
    fun _ => by rw [hmax]; exact hv'.assign hn hb32, by rw [hslot, if_pos rfl], fun k hk => ?_, ?_,
    fun hlt => by omega, fun o ho => ?_, fun c => ?_,
    fun o ho hne => ?_, fun _ => hb, ?_⟩
  · rw [hslot, if_neg (by omega)]
    exact slot_congr ((Nat.lt_or_ge k 12).imp_right fun h12 => hisec (h.indirect_ne (by omega)))
  · unfold assignInode InodeDef.setAddr; split <;> rfl
  · rw [hlow o (by omega), mark_of_ne (by omega)]
  · rw [marked_congr (hlow 41 (by omega)), marked_mark_iff hb]
    exact ⟨fun h => h.symm.imp_right fun he => ⟨le_rfl, he⟩, fun h => h.symm.imp_left fun he => he.2⟩
  · by_cases h12 : n < 12
    · rw [assignDisk, if_pos h12, mark_of_ne (by omega)]
    · have := hind.resolve_left h12
      rw [assignDisk_of_ne (hne.resolve_left this), mark_of_ne (by omega)]
  · rw [freeCount_congr (hlow 0 (by omega)) (hlow 41 (by omega)), ← freeCount_mark hb]
    omega

/-- `writeBlock` locates the block, or there is no free one. -/
theorem run_writeBlock (hf : Formatted d) (h : Mapped d x n) (hidx : idx ≤ n) (h140 : idx < 140)
    (hv : idx < n ∨ Vacant d x n ∧ (n < 12 ∨ x.indirect_addr.toNat ≠ 0)) :
    (∃ d' x' b, (∀ junk, (writeBlock junk x idx).run d = (.ok (some b, x'), d')) ∧
      Located d x n idx d' x' b) ∨
    nextFree d = none ∧ n ≤ idx ∧ ∀ junk, (writeBlock junk x idx).run d = (.ok (none, x), d) := by
  by_cases hlt : idx < n
  · exact .inl ⟨d, x, _, fun _ => run_writeBlock_mapped h hlt, located_of_mapped h hlt⟩
  · obtain rfl : idx = n := by omega
    obtain ⟨hv, hind⟩ := hv.resolve_left hlt
    have hrun := fun junk => run_writeBlock_vacant junk hf h hv h140 hind
    cases hfree : nextFree d with
    | none =>
      simp only [hfree] at hrun
      exact .inr ⟨rfl, le_rfl, hrun⟩
    | some b =>
      simp only [hfree] at hrun
      exact .inl ⟨_, _, b, hrun, located_of_vacant hf h hv h140 hind (free_of_nextFree hfree)⟩

theorem Located.indirect_eq (hl : Located d x n idx d' x' b) :
    x'.indirect_addr = x.indirect_addr := by rw [hl.inode]

theorem Located.owns_or_fresh (hl : Located d x n idx d' x' b) : Owns d x n b ∨ Free d b := by
  by_cases hlt : idx < n
  · obtain ⟨rfl, rfl⟩ := hl.kept hlt
    exact .inl (.inl ⟨idx, hlt, hl.target⟩)
  · exact .inr (hl.fresh (by omega))

/-- Putting the bytes into the located block and storing the inode record completes the write. -/
theorem Located.wrote (hl : Located d x n idx d' x' b) (hm : Mapped d x n) (hidx : pos / 512 = idx)
    (hlen : 0 < buf.length) (hblk : pos % 512 + buf.length ≤ 512)
    (hsec : d'' b = (d' b).patch (pos % 512) buf.length (charAt buf))
    (hhigh : ∀ o, 41 ≤ o → o ≠ b → d'' o = d' o) (hsuper : d'' 0 = d' 0)
    (hx : x'' = { x' with size := x''.size })
    (hsize : x''.size.toNat = max x.size.toNat (pos + buf.length))
    (hkept : pos + buf.length ≤ x.size.toNat → x'' = x)
    (hothers : ∀ j < 320, j ≠ x.inode_index.toNat → inodeAt d'' j = inodeAt d j)
    (hrecord : inodeAt d'' x.inode_index.toNat =
      if x.size.toNat < pos + buf.length then x'' else inodeAt d x.inode_index.toNat) :
    Wrote d x n pos buf d'' x'' (max n (idx + 1)) := by
  have hle := hl.le
  have ha : x''.addr = x'.addr := by rw [hx]
  have hi : x''.indirect_addr = x'.indirect_addr := by rw [hx]
  have hi' : x''.indirect_addr = x.indirect_addr := hi.trans hl.indirect_eq
  have hb42 : 42 ≤ b := hl.target ▸ (hl.mapped.area idx (by omega)).le
  have h₀ : d'' 0 = d 0 := hsuper.trans (hl.low 0 (by omega))
  have h₄₁ : d'' 41 = d' 41 := hhigh 41 le_rfl (by omega)
  have hind : x'.indirect_addr.toNat ≠ 0 → d'' x'.indirect_addr.toNat = d' x'.indirect_addr.toNat := by
    intro hne
    have hbne := hl.mapped.ne_indirect hne idx (by omega)
    have h42 := (hl.mapped.indirect_area hne).le
    exact hhigh _ (by omega) (by rw [← hl.target]; exact hbne.symm)
  have hmark : ∀ c, Marked d'' c ↔ Marked d' c := fun c => marked_congr h₄₁
  have hslot : ∀ k < max n (idx + 1), slot d'' x'' k = slot d' x' k := by
    intro k hk
    rw [slot_pointers ha hi]
    exact slot_congr ((Nat.lt_or_ge k 12).imp_right fun _ => hind (hl.mapped.indirect_ne (by omega)))
  -- the data block is the only sector of the mapped slots that changes
  have hsame : ∀ k < max n (idx + 1), k ≠ idx → d'' (slot d' x' k) = d' (slot d' x' k) := by
    intro k hk hne
    refine hhigh _ (by have := (hl.mapped.area k hk).le; omega) fun he => hne ?_
    exact hl.mapped.inj k hk idx (by omega) (he.trans hl.target.symm)
  have hbytes : ∀ p < 512 * n, (d' (slot d x (p / 512))).byte (p % 512) = fileByte d x p := by
    intro p hp
    have hk : p / 512 < n := by omega
    rw [fileByte, hl.high _ (hm.area _ hk).le]
    by_cases hz : x.indirect_addr.toNat = 0
    · exact .inl hz
    · exact .inr (hm.ne_indirect hz _ hk)
  refine ⟨?_, ?_, fun hv => ?_, fun k hk => ?_, ?_, hsize, hkept, h₀, hothers, hrecord, fun c => ?_,
    fun k hk hk' => ?_, fun o ho hom hno => ?_, fun p hp hp' => ?_, fun p hp hout => ?_, ?_⟩
  · rw [blocks]; omega
  · exact (hl.mapped.congr hsuper (fun c hc => (hmark c).mpr hc) hind).pointers ha hi
  · exact ((hl.vacant hv).congr hind).pointers ha hi
  · rw [hslot k (by omega), hl.slots k hk]
  · rw [hx, hl.inode]
  · rw [hmark, hl.marked]
    refine or_congr_right ⟨fun ⟨hle, he⟩ => ⟨idx, hle, by omega, ?_⟩, fun ⟨k, hk, hk', he⟩ => ?_⟩
    · rw [hslot idx (by omega), hl.target, he]
    · obtain rfl : k = idx := by omega
      rw [hslot k hk', hl.target] at he
      exact ⟨hk, he.symm⟩
  · obtain rfl : k = idx := by omega
    rw [hslot k hk', hl.target]
    exact hl.fresh hk
  · have hob : o ≠ b := by
      rintro rfl
      rcases hl.owns_or_fresh with h | h
      · exact hno h
      · exact h.not_marked hom
    rw [hhigh o (by omega) hob, hl.high o ho]
    by_cases hz : x.indirect_addr.toNat = 0
    · exact .inl hz
    · exact .inr fun he => hno (.inr ⟨hz, he.symm⟩)
  · have hpi : p / 512 = idx := by omega
    rw [fileByte, hpi, hslot idx (by omega), hl.target, hsec,
      Buffer.byte_patch_of_mem (by omega) (by omega) (by omega)]
    congr 1
    omega
  · have hk : p / 512 < max n (idx + 1) := by omega
    rw [fileByte, hslot _ hk]
    by_cases hpi : p / 512 = idx
    · rw [hpi, hl.target, hsec, Buffer.byte_patch_of_not_mem (by omega), ← hl.target,
        ← hpi, hl.slots _ (by omega), hbytes p hp]
    · rw [hsame _ hk hpi, hl.slots _ (by omega), hbytes p hp]
  · rw [freeCount_congr hsuper h₄₁]
    exact hl.free

/-- One call of `WriteImpl` writes its bytes, or changes nothing for want of a free block. -/
theorem run_writeImpl (buf : List UInt8) (hf : Formatted d) (h : Mapped d x n)
    (hsz : x.size.toNat ≤ 512 * n)
    (hpos : pos ≤ x.size.toNat) (hlen : 0 < buf.length) (hblk : pos % 512 + buf.length ≤ 512)
    (hmax : pos + buf.length ≤ 512 * 140) (hi : x.inode_index.toNat < 320)
    (hv : pos + buf.length ≤ 512 * n ∨ Vacant d x n ∧ (n < 12 ∨ x.indirect_addr.toNat ≠ 0)) :
    (∃ d' x' n', (∀ junk, (writeImpl junk x buf pos).run d = (.ok (true, x'), d')) ∧
      Wrote d x n pos buf d' x' n') ∨
    nextFree d = none ∧ 512 * n < pos + buf.length ∧
      ∀ junk, (writeImpl junk x buf pos).run d = (.ok (false, x), d) := by
  have hidx : pos / 512 % 2 ^ 32 = pos / 512 := Nat.mod_eq_of_lt (by omega)
  rcases run_writeBlock hf h (show pos / 512 ≤ n by omega) (by omega)
    (hv.imp_left fun hle => by omega) with ⟨d₁, x₁, b, hrun, hl⟩ | ⟨hnone, hle, hrun⟩
  · left
    have hx₁ : x₁.size = x.size := by rw [hl.inode]
    have hi₁ : x₁.inode_index = x.inode_index := by rw [hl.inode]
    have hb42 : 42 ≤ b := hl.target ▸ (hl.mapped.area _ (by omega)).le
    have hput : ∀ o, o ≠ b → putData d₁ b (pos % 512) buf o = d₁ o :=
      fun o ho => Function.update_of_ne ho _ _
    have hput_b : putData d₁ b (pos % 512) buf b =
        (d₁ b).patch (pos % 512) buf.length (charAt buf) := Function.update_self ..
    have hnode : ∀ j < 320, inodeAt (putData d₁ b (pos % 512) buf) j = inodeAt d j := by
      intro j hj
      exact inodeAt_congr ((hput _ (by omega)).trans (hl.low _ (by omega)))
    by_cases hgrow : pos + buf.length > x.size.toNat
    · refine ⟨setInode (putData d₁ b (pos % 512) buf) x.inode_index.toNat
        { x₁ with size := .ofNat (pos + buf.length) }, { x₁ with size := .ofNat (pos + buf.length) },
        _, ?_, hl.wrote h rfl hlen hblk ?_ (fun o ho hob => ?_) ?_ rfl ?_ (fun hle => ?_)
        (fun j hj hne => ?_) ?_⟩
      · intro junk
        simp only [writeImpl, BLOCK_SIZE, hidx, run_bind, hrun, run_writeData hblk, hx₁, if_pos hgrow,
          hi₁, run_updateInode hi, run_pure]
      · rw [setInode_outside hi (.inr (by omega)), hput_b]
      · rw [setInode_outside hi (.inr ho), hput o hob]
      · rw [setInode_outside hi (.inl rfl), hput 0 (by omega)]
      · simp only [UInt32.toNat_ofNat']
        omega
      · omega
      · rw [inodeAt_setInode_of_ne hne, hnode j hj]
      · rw [inodeAt_setInode_self, if_pos hgrow]
    · obtain ⟨rfl, rfl⟩ := hl.kept (by omega)
      refine ⟨putData d₁ b (pos % 512) buf, x₁, _, ?_, hl.wrote h rfl hlen hblk hput_b
        (fun o _ hob => hput o hob) (hput 0 (by omega)) rfl (by omega) (fun _ => rfl)
        (fun j hj _ => hnode j hj) ?_⟩
      · intro junk
        simp only [writeImpl, BLOCK_SIZE, hidx, run_bind, hrun, run_writeData hblk, if_neg hgrow,
          run_pure]
      · rw [hnode _ hi, if_neg (by omega)]
  · right
    refine ⟨hnone, by omega, fun junk => ?_⟩
    simp only [writeImpl, BLOCK_SIZE, hidx, run_bind, hrun, run_pure]

/-! ## Consecutive writes -/

theorem Free.of_marked_mono {c : ℕ} (h : Free d' c) (h₀ : d' 0 = d 0)
    (hm : ∀ b, Marked d b → Marked d' b) : Free d c := by
  refine ⟨h.1, by rw [← dataCount_congr h₀]; exact h.2.1, ?_⟩
  by_contra hb
  exact h.not_marked (hm c ⟨h.1, by simpa using hb⟩)

namespace Wrote

theorem nil (h : Mapped d x n) (hsz : x.size.toNat ≤ 512 * n) (hpos : pos ≤ x.size.toNat) :
    Wrote d x n pos [] d x n := by
  refine ⟨?_, h, id, fun _ _ => rfl, rfl, ?_, fun _ => rfl, rfl, fun _ _ _ => rfl, ?_, fun c => ?_,
    fun k hk hk' => ?_, fun _ _ _ _ => rfl, fun p hp hp' => ?_, fun _ _ _ => rfl, by omega⟩
  · simp only [List.length_nil, blocks]; omega
  · simp only [List.length_nil]; omega
  · simp only [List.length_nil]
    rw [if_neg (by omega)]
  · exact ⟨.inl, fun h => h.resolve_right fun ⟨k, hk, hk', _⟩ => by omega⟩
  · omega
  · simp only [List.length_nil] at hp'; omega

theorem le (h : Wrote d x n pos buf d' x' n') : n ≤ n' := by
  rw [h.blocks_eq]; omega

theorem marked_mono (h : Wrote d x n pos buf d' x' n') {c : ℕ} (hc : Marked d c) : Marked d' c :=
  (h.marked c).mpr (.inl hc)

theorem inode_index (h : Wrote d x n pos buf d' x' n') : x'.inode_index = x.inode_index := by
  rw [h.inode]

theorem type (h : Wrote d x n pos buf d' x' n') : x'.type = x.type := by rw [h.inode]

theorem indirect_addr (h : Wrote d x n pos buf d' x' n') : x'.indirect_addr = x.indirect_addr := by
  rw [h.inode]

theorem size_le (h : Wrote d x n pos buf d' x' n') (hsz : x.size.toNat ≤ 512 * n) :
    x'.size.toNat ≤ 512 * n' := by
  have := h.blocks_eq; have := h.size
  rw [blocks] at *
  omega

/-- A block of the file after the write belonged to it before or was free. -/
theorem owns (h : Wrote d x n pos buf d' x' n') (ho : Owns d' x' n' o) :
    Owns d x n o ∨ Free d o := by
  rcases ho with ⟨k, hk, rfl⟩ | ⟨hi, he⟩
  · by_cases hkn : k < n
    · exact .inl (.inl ⟨k, hkn, (h.slots k hkn).symm⟩)
    · exact .inr (h.fresh k (by omega) hk)
  · rw [h.indirect_addr] at hi he
    exact .inl (.inr ⟨hi, he⟩)

theorem trans (h : Wrote d x n pos buf d' x' n')
    (h' : Wrote d' x' n' (pos + buf.length) buf' d'' x'' n'') :
    Wrote d x n pos (buf ++ buf') d'' x'' n'' := by
  have hle := h.le
  have hle' := h'.le
  have hn' : pos + buf.length ≤ 512 * n' := by
    have := h.blocks_eq
    rw [blocks] at this; omega
  have hsize := h.size
  have hsize' := h'.size
  have hlen : (buf ++ buf').length = buf.length + buf'.length := List.length_append
  refine ⟨?_, h'.mapped, fun hv => h'.vacant (h.vacant hv), fun k hk => ?_, ?_, ?_, fun hkeep => ?_,
    h'.super.trans h.super, fun j hj hne => ?_, ?_, fun c => ?_, fun k hk hk' => ?_,
    fun o ho hom hno => ?_, fun p hp hp' => ?_, fun p hp hout => ?_, ?_⟩
  · rw [h'.blocks_eq, h.blocks_eq, hlen, blocks, blocks, blocks]; omega
  · rw [h'.slots k (by omega), h.slots k hk]
  · rw [h'.inode, h.inode]
  · omega
  · obtain rfl := h.kept (by omega)
    exact h'.kept (by omega)
  · rw [h'.others j hj (by rwa [h.inode_index]), h.others j hj hne]
  · have hr := h'.record
    rw [h.inode_index, h.record] at hr
    rw [hr, hlen]
    split
    · rw [if_pos (by omega)]
    · split
      · rw [if_pos (by omega), h'.kept (by omega)]
      · rw [if_neg (by omega)]
  · rw [h'.marked, h.marked]
    constructor
    · rintro ((hc | ⟨k, hk, hk', rfl⟩) | ⟨k, hk, hk', rfl⟩)
      · exact .inl hc
      · exact .inr ⟨k, hk, by omega, h'.slots k hk'⟩
      · exact .inr ⟨k, by omega, hk', rfl⟩
    · rintro (hc | ⟨k, hk, hk', rfl⟩)
      · exact .inl (.inl hc)
      · by_cases hkn : k < n'
        · exact .inl (.inr ⟨k, hk, hkn, (h'.slots k hkn).symm⟩)
        · exact .inr ⟨k, by omega, hk', rfl⟩
  · by_cases hkn : k < n'
    · rw [h'.slots k hkn]
      exact h.fresh k hk hkn
    · exact (h'.fresh k (by omega) hk').of_marked_mono h.super fun _ => h.marked_mono
  · have hno' : ¬ Owns d' x' n' o := by
      intro hown
      rcases h.owns hown with hown | hfree
      · exact hno hown
      · exact hfree.not_marked hom
    rw [h'.frame o ho (h.marked_mono hom) hno', h.frame o ho hom hno]
  · by_cases hlt : p < pos + buf.length
    · rw [h'.old_byte p (by omega) (.inl hlt), h.new_byte p hp hlt, charAt_append_left (by omega)]
    · rw [h'.new_byte p (by omega) (by omega), charAt_append_right (by omega)]
      congr 1
      omega
  · rw [hlen] at hout
    rw [h'.old_byte p (by omega) (hout.imp (by omega) (by omega)),
      h.old_byte p hp (hout.imp_right (by omega))]
  · have := h.free; have := h'.free
    omega

end Wrote

/-- The loop of `Write` writes a prefix of its buffer. It stops early only without a free block, or
where the file would need its first indirect block. -/
theorem run_writeFrom (hf : Formatted d) (h : Mapped d x n) (hsz : x.size.toNat ≤ 512 * n)
    (hpos : pos ≤ x.size.toNat) (hmax : pos + buf.length ≤ 512 * 140)
    (hi : x.inode_index.toNat < 320) (hv : pos + buf.length ≤ 512 * n ∨ Vacant d x n) (done : ℕ) :
    ∃ m d' x' n', m ≤ buf.length ∧ Wrote d x n pos (buf.take m) d' x' n' ∧
      (∀ junk, (writeFrom junk x buf pos done).run d =
        (writeFrom junk x' (buf.drop m) (pos + m) (done + m)).run d') ∧
      (m = buf.length ∨
        m < buf.length ∧ pos + m = 512 * n' ∧ nextFree d' = none ∧
          (∀ junk, (writeFrom junk x buf pos done).run d = (.ok (done + m, x'), d')) ∨
        m < buf.length ∧ pos + m = 512 * n' ∧ n' = 12 ∧ x.indirect_addr.toNat = 0) := by
  induction hlen : buf.length using Nat.strong_induction_on generalizing d x n buf pos done with
  | _ len ih =>
  subst hlen
  by_cases hnil : buf = []
  · subst hnil
    exact ⟨0, d, x, n, le_rfl, Wrote.nil h hsz hpos, by simp, .inl rfl⟩
  have hpb : 0 < buf.length := List.length_pos_iff.mpr hnil
  -- from here the source goes on to create the indirect block
  by_cases hstop : n = 12 ∧ pos = 512 * 12 ∧ x.indirect_addr.toNat = 0
  · obtain ⟨hn, hp, hz⟩ := hstop
    exact ⟨0, d, x, n, by omega, Wrote.nil h hsz hpos, by simp,
      .inr (.inr ⟨hpb, by omega, hn, hz⟩)⟩
  have hr : pos % 512 < 512 := Nat.mod_lt _ (by omega)
  obtain ⟨r, hr_def⟩ : ∃ r, r = min buf.length (512 - pos % 512) := ⟨_, rfl⟩
  have hrl : (buf.take r).length = r := by rw [List.length_take]; omega
  have hvac : pos + (buf.take r).length ≤ 512 * n ∨
      Vacant d x n ∧ (n < 12 ∨ x.indirect_addr.toNat ≠ 0) := by
    by_cases hin : pos + r ≤ 512 * n
    · exact .inl (by rw [hrl]; exact hin)
    · refine .inr ⟨hv.resolve_left (by omega), ?_⟩
      by_contra hc
      have h12 := h.indirect_ne
      exact hstop ⟨by omega, by omega, by omega⟩
  have hunfold : ∀ junk, (writeFrom junk x buf pos done).run d =
      match (writeImpl junk x (buf.take r) pos).run d with
      | (.ok (false, y), e) => (.ok (done, y), e)
      | (.ok (true, y), e) => (writeFrom junk y (buf.drop r) (pos + r) (done + r)).run e
      | (.error f, e) => (.error f, e) := by
    intro junk
    rw [writeFrom, dif_pos hpb]
    simp only [BLOCK_SIZE, ← hr_def, run_bind]
    rcases (writeImpl junk x (buf.take r) pos).run d with ⟨_ | ⟨_ | _, y⟩, e⟩ <;> rfl
  rcases run_writeImpl (buf.take r) hf h hsz hpos (by omega) (by omega)
    (by omega) hi hvac with ⟨d₁, x₁, n₁, hrun, hw⟩ | ⟨hnone, hfull, hrun⟩
  · have hlen' : (buf.drop r).length = buf.length - r := List.length_drop
    have hw_size := hw.size
    have hw_le := hw.le
    obtain ⟨m, d₂, x₂, n₂, hm, hw₂, hgo, hend⟩ := ih (buf.drop r).length (by omega)
      (hf.congr hw.super) hw.mapped (hw.size_le hsz)
      (show pos + r ≤ x₁.size.toNat by omega) (by omega) (by rw [hw.inode_index]; exact hi)
      (hv.imp (fun hle => by have := hw.blocks_eq; omega) hw.vacant) (done + r) rfl
    refine ⟨r + m, d₂, x₂, n₂, by omega, ?_, fun junk => ?_, ?_⟩
    · rw [List.take_add]
      exact hw.trans (by rw [hrl]; exact hw₂)
    · rw [hunfold, hrun]
      simp only
      rw [hgo, List.drop_drop, Nat.add_assoc, Nat.add_assoc]
    · simp only [hunfold, hrun]
      rw [hw.indirect_addr, Nat.add_assoc, Nat.add_assoc] at hend
      rcases hend with hend | ⟨hlt, hend⟩ | ⟨hlt, hend⟩
      · exact .inl (by omega)
      · exact .inr (.inl ⟨by omega, hend⟩)
      · exact .inr (.inr ⟨by omega, hend⟩)
  · refine ⟨0, d, x, n, by omega, Wrote.nil h hsz hpos, by simp, .inr (.inl ⟨hpb, by omega, hnone, ?_⟩)⟩
    intro junk
    rw [hunfold, hrun]
    rfl

/-- With enough free blocks, and without the need of a new indirect block, `Write` writes
its whole buffer. -/
theorem run_write_all (hf : Formatted d) (h : Mapped d x n) (hsz : x.size.toNat ≤ 512 * n)
    (hpos : pos ≤ x.size.toNat) (hmax : pos + buf.length ≤ 512 * 140)
    (hi : x.inode_index.toNat < 320) (hv : pos + buf.length ≤ 512 * n ∨ Vacant d x n)
    (hind : pos + buf.length ≤ 512 * 12 ∨ x.indirect_addr.toNat ≠ 0)
    (hfree : blocks (pos + buf.length) - n ≤ freeCount d) :
    ∃ d' x' n', (∀ junk, (write junk x buf pos).run d = (.ok (buf.length, x'), d')) ∧
      Wrote d x n pos buf d' x' n' := by
  obtain ⟨m, d', x', n', hm, hw, hgo, hend⟩ := run_writeFrom hf h hsz hpos hmax hi hv 0
  have hlen : (buf.take m).length = m := by rw [List.length_take]; omega
  have hall : m = buf.length := by
    rcases hend with hend | ⟨hlt, hp, hnone, -⟩ | ⟨hlt, hp, hn, hz⟩
    · exact hend
    · have hcount := hw.free
      have hblocks := hw.blocks_eq
      rw [← freeCount_eq_zero_iff] at hnone
      simp only [blocks, hlen] at hblocks hfree
      omega
    · rcases hind with hind | hind
      · omega
      · exact absurd hz hind
  subst hall
  refine ⟨d', x', n', fun junk => ?_, by rwa [List.take_length] at hw⟩
  rw [write, if_neg (by omega), hgo, List.drop_length, writeFrom, dif_neg (by simp), run_pure,
    Nat.zero_add]

end OrangeOs.Fs
