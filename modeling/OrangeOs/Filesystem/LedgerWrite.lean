import OrangeOs.Filesystem.Ledger

/-! # Writing through copies

A write through a copy of the inode of a regular file, in or out of date, stays in blocks that are not of
directories, unless it makes a new indirect block out of what the stack holds.
-/

namespace OrangeOs.Fs

open Prog

/-- The words of an indirect block after the first are zero. -/
def ClearAfterFirst (junk : Sector) : Prop := ∀ k, 1 ≤ k → k < 128 → indirectWord junk k = 0

/-- The effect of finding the block of a block index through a copy of the inode. -/
structure Targets (L : Ledger) (x : InodeDef) (idx b : ℕ) (x' : InodeDef) : Prop where
  target : L b = .contents
  inode : x' = { x with addr := x'.addr, indirect_addr := x'.indirect_addr }
  contents : ∀ k < 12, x'.addrAt k ≠ 0 → L (x'.addrAt k) = .contents
  pointers : x'.indirect_addr.toNat ≠ 0 → L x'.indirect_addr.toNat = .pointers
  addr : ∀ k < 12, k ≠ idx → x'.addrAt k = x.addrAt k
  indirect : x.indirect_addr.toNat ≠ 0 → x'.indirect_addr.toNat ≠ 0
  within : idx < 12 ∨ x'.indirect_addr.toNat ≠ 0 ∧ idx < 140

/-- A write through a copy leaves the files in order, with a copy that makes a new indirect block only
if the old one does. -/
structure Updates (d : Disk) (L : Ledger) (x : InodeDef) (d' : Disk) (L' : Ledger) (x' : InodeDef) :
    Prop extends Continues d L d' L' where
  inOrder : InOrder d' L'
  copy : RegularCopy d' L' x'
  creates : ∀ pos len, CreatesIndirect d' x' pos len → CreatesIndirect d x pos len

variable {d d' d'' : Disk} {L L' L'' : Ledger} {x x' y : InodeDef} {i j k b pos done idx : ℕ}
  {junk : Sector} {buf : List UInt8}

/-! ## The effect of a write -/

theorem Updates.trans (h : Updates d L x d' L' x') (h' : Updates d' L' x' d'' L'' y) :
    Updates d L x d'' L'' y where
  toContinues := h.toContinues.trans h'.toContinues
  inOrder := h'.inOrder
  copy := h'.copy
  creates pos len hc := h.creates pos len (h'.creates pos len hc)

theorem Updates.refl (h : InOrder d L) (hx : RegularCopy d L x) : Updates d L x d L x where
  toContinues := .refl d L
  inOrder := h
  copy := hx
  creates _ _ hc := hc

namespace Targets

theorem same (hx : Refers L x) (hb : L b = .contents)
    (hidx : idx < 12 ∨ x.indirect_addr.toNat ≠ 0 ∧ idx < 140) : Targets L x idx b x where
  target := hb
  inode := rfl
  contents := hx.contents
  pointers := hx.pointers
  addr _ _ _ := rfl
  indirect := id
  within := hidx

/-- A direct slot is assigned. -/
theorem setAddr (hx : Refers L x) (hb : L b = .contents) (hlt : b < 2 ^ 32) (hidx : idx < 12) :
    Targets L x idx b (x.setAddr idx b) where
  target := hb
  inode := rfl
  contents k hk hz := by
    rw [InodeDef.addrAt_setAddr hidx hlt] at hz ⊢
    split at hz
    · next he => rwa [if_pos he]
    · next hne =>
      rw [if_neg hne]
      exact hx.contents k hk hz
  pointers := hx.pointers
  addr k _ hne := by rw [InodeDef.addrAt_setAddr hidx hlt, if_neg hne]
  indirect := id
  within := .inl hidx

/-- The inode after the bytes are written. -/
theorem refers (h : Targets L x idx b x') (hx : Refers L x) {e : ℕ} (hpos : 512 * idx ≤ x.size.toNat)
    (hlo : 512 * idx < e) (hhi : e ≤ 512 * (idx + 1)) :
    (e ≤ x.size.toNat → Refers L x') ∧
      (x.size.toNat < e → Refers L { x' with size := .ofNat e } ∧ (UInt32.ofNat e).toNat = e) := by
  have hsize : x'.size = x.size := by rw [h.inode]
  have hz : x'.indirect_addr.toNat = 0 → x.indirect_addr.toNat = 0 := fun hz => by
    by_contra hne
    exact h.indirect hne hz
  have hwithin := h.within
  have hlt : e < 2 ^ 32 := by omega
  have he : (UInt32.ofNat e).toNat = e := by rw [UInt32.toNat_ofNat', Nat.mod_eq_of_lt hlt]
  constructor
  · intro hle
    refine ⟨h.contents, h.pointers, fun k hk h12 => ?_, fun hi => by rw [hsize]; exact hx.small (hz hi)⟩
    rw [fileBlocks, hsize, blocks] at hk
    rw [h.addr k h12 (by omega)]
    exact hx.vacant k (by rw [fileBlocks, blocks]; omega) h12
  · intro hgt
    refine ⟨⟨h.contents, h.pointers, fun k hk h12 => ?_, fun hi => ?_⟩, he⟩
    · have hk : blocks (UInt32.ofNat e).toNat ≤ k := hk
      rw [he, blocks] at hk
      have haddr := h.addr k h12 (by omega)
      exact haddr.trans (hx.vacant k (by rw [fileBlocks, blocks]; omega) h12)
    · change (UInt32.ofNat e).toNat ≤ _
      have := hwithin.resolve_right fun hw => hw.1 hi
      omega

end Targets

namespace InOrder

/-- A free block becomes one of contents. -/
theorem takeContents (h : InOrder d L) (hb : Free d b) :
    InOrder (Fs.mark d b) (Function.update L b .contents) ∧
      Continues d L (Fs.mark d b) (Function.update L b .contents) := by
  obtain ⟨hm, ha⟩ := h.mark hb
  obtain ⟨he, hL⟩ := hm.enter (hb.inArea_mark h.formatted) (h.of_free hb) (.inl rfl)
  exact ⟨he, hL, ha.inUse, ha.isDir⟩

/-- The first block after the direct ones gets a new indirect block. -/
theorem run_writeBlock_create (h : InOrder d L) (hx : Refers L x) (hi : x.indirect_addr.toNat = 0)
    (hclear : 2 ≤ freeCount d → ClearAfterFirst junk) {r : Option ℕ}
    (hrun : (writeBlock junk x 12).run d = (.ok (r, x'), d')) :
    ∃ L', InOrder d' L' ∧ Continues d L d' L' ∧ freeCount d' ≤ freeCount d ∧
      (r = none ∧ x' = x ∨ ∃ b, r = some b ∧ Targets L' x 12 b x' ∧ x'.indirect_addr.toNat ≠ 0) := by
  cases hfree : nextFree d with
  | none =>
    simp [writeBlock, DIRECT_ADDR_SIZE, hi, run_bind, run_allocDataBlock h.formatted, hfree] at hrun
    obtain ⟨⟨rfl, rfl⟩, rfl⟩ := hrun
    exact ⟨L, h, .refl d L, le_rfl, .inl ⟨rfl, rfl⟩⟩
  | some c =>
    have hc := free_of_nextFree hfree
    have hcount := freeCount_mark hc
    obtain ⟨ho, ha⟩ := h.mark hc
    cases hfree' : nextFree (Fs.mark d c) with
    | none =>
      -- the first block is marked and belongs to nobody
      simp [writeBlock, DIRECT_ADDR_SIZE, hi, run_bind, run_allocDataBlock h.formatted, hfree,
        run_allocDataBlock ho.formatted, hfree'] at hrun
      obtain ⟨⟨rfl, rfl⟩, rfl⟩ := hrun
      exact ⟨L, ho, ha, by omega, .inl ⟨rfl, rfl⟩⟩
    | some b =>
      have hb := free_of_nextFree hfree'
      have hcount' := freeCount_mark hb
      simp [writeBlock, DIRECT_ADDR_SIZE, hi, run_bind, run_allocDataBlock h.formatted, hfree,
        run_allocDataBlock ho.formatted, hfree'] at hrun
      obtain ⟨⟨rfl, rfl⟩, rfl⟩ := hrun
      obtain ⟨ho', ha'⟩ := ho.takeContents hb
      have hcb : c ≠ b := by
        rintro rfl
        exact hb.not_marked ((marked_mark_iff hc).mpr (.inl rfl))
      have hltb := (hb.lt_fsSize ho.formatted).trans (fsSize_lt _)
      have hltc := (hc.lt_fsSize h.formatted).trans (fsSize_lt _)
      have hval : (UInt32.ofNat c).toNat = c := by rw [UInt32.toNat_ofNat', Nat.mod_eq_of_lt hltc]
      have hzero : (Function.update L b Purpose.contents) c = .none := by
        rw [Function.update_of_ne hcb]
        exact h.of_free hc
      have hpoints : PointsTo (Function.update L b .contents) (setIndirectWord junk 0 b) := by
        intro k hk hne
        by_cases hk0 : k = 0
        · rw [hk0, indirectWord_set_self (by omega) hltb, Function.update_self]
        · rw [indirectWord_set_of_ne hk0] at hne
          exact absurd (hclear (by omega) k (by omega) hk) hne
      obtain ⟨hput, haput⟩ := ho'.put (s := setIndirectWord junk 0 b) hc.le
        (fun i hd => by rw [hzero] at hd; cases hd) fun hp => by rw [hzero] at hp; cases hp
      have harea : InArea (Function.update (Fs.mark (Fs.mark d c) b) c (setIndirectWord junk 0 b)) c :=
        (inArea_update hc.le _).mpr ((hc.inArea_mark h.formatted).mark hb)
      obtain ⟨hin, hL⟩ := hput.enter harea hzero
        (.inr ⟨rfl, by rw [Function.update_self]; exact hpoints⟩)
      have hall : Continues d L _ (Function.update (Function.update L b Purpose.contents) c
          Purpose.pointers) := (ha.trans ha').trans ⟨haput.ledger.trans hL, haput.inUse, haput.isDir⟩
      have hx' := hx.extends hall.ledger
      have h42 := hc.le
      refine ⟨_, hin, hall, ?_, .inr ⟨b, rfl, ⟨?_, rfl, hx'.contents, fun _ => ?_, fun _ _ _ => rfl,
        fun hne => absurd hi hne, .inr ⟨?_, by omega⟩⟩, ?_⟩⟩
      · rw [freeCount_update hc.le]
        omega
      · rw [Function.update_of_ne hcb.symm, Function.update_self]
      · rw [hval, Function.update_self]
      · rw [hval]
        omega
      · rw [hval]
        omega

/-- A word of an indirect block that is there. -/
theorem run_writeBlock_indirect (h : InOrder d L) (hx : Refers L x) (h12 : 12 ≤ idx)
    (hi : x.indirect_addr.toNat ≠ 0) {r : Option ℕ}
    (hrun : (writeBlock junk x idx).run d = (.ok (r, x'), d')) :
    ∃ L', InOrder d' L' ∧ Continues d L d' L' ∧ freeCount d' ≤ freeCount d ∧
      (r = none ∧ x' = x ∨ ∃ b, r = some b ∧ Targets L' x idx b x' ∧ x'.indirect_addr.toNat ≠ 0) := by
  have hp := hx.pointers hi
  have harea := h.area x.indirect_addr.toNat (by simp [hp])
  have h42 := harea.le
  have hwords := h.words _ hp
  by_cases h128 : idx - 12 < 128
  · by_cases hz : indirectWord (d x.indirect_addr.toNat) (idx - 12) = 0
    · cases hfree : nextFree d with
      | none =>
        simp [writeBlock, DIRECT_ADDR_SIZE, not_lt.mpr h12, hi, h128, hz, run_bind,
          run_allocDataBlock h.formatted, hfree] at hrun
        obtain ⟨⟨rfl, rfl⟩, rfl⟩ := hrun
        exact ⟨L, h, .refl d L, le_rfl, .inl ⟨rfl, rfl⟩⟩
      | some b =>
        have hb := free_of_nextFree hfree
        have hcount := freeCount_mark hb
        have hlt := (hb.lt_fsSize h.formatted).trans (fsSize_lt d)
        simp [writeBlock, DIRECT_ADDR_SIZE, not_lt.mpr h12, hi, h128, hz, run_bind,
          run_allocDataBlock h.formatted, hfree] at hrun
        obtain ⟨⟨rfl, rfl⟩, rfl⟩ := hrun
        obtain ⟨ho, ha⟩ := h.takeContents hb
        have hp' := ha.ledger.of_eq hp (by simp)
        obtain ⟨hput, haput⟩ := ho.put
          (s := setIndirectWord (d x.indirect_addr.toNat) (idx - 12) b) h42
          (fun i hd => by rw [hp'] at hd; cases hd) fun _ k hk hne => by
            by_cases hkw : k = idx - 12
            · rw [hkw, indirectWord_set_self h128 hlt, Function.update_self]
            · rw [indirectWord_set_of_ne hkw] at hne ⊢
              exact ha.ledger.of_eq (hwords k hk hne) (by simp)
        refine ⟨_, hput, ha.trans haput, ?_, .inr ⟨b, rfl, .same (hx.extends ha.ledger)
          (Function.update_self ..) (.inr ⟨hi, by omega⟩), hi⟩⟩
        rw [freeCount_update h42]
        omega
    · simp [writeBlock, DIRECT_ADDR_SIZE, not_lt.mpr h12, hi, h128, hz, run_bind] at hrun
      obtain ⟨⟨rfl, rfl⟩, rfl⟩ := hrun
      exact ⟨L, h, .refl d L, le_rfl, .inr ⟨_, rfl, .same hx (hwords _ h128 hz)
        (.inr ⟨hi, by omega⟩), hi⟩⟩
  · simp [writeBlock, DIRECT_ADDR_SIZE, not_lt.mpr h12, hi, h128, run_bind] at hrun

/-- Finding the block that a copy has for a block index, or allocating one. -/
theorem run_writeBlock_inOrder (h : InOrder d L) (hx : Refers L x) (hpos : 512 * idx ≤ x.size.toNat)
    (hclear : x.indirect_addr.toNat = 0 → 12 ≤ idx → 2 ≤ freeCount d → ClearAfterFirst junk)
    {r : Option ℕ} (hrun : (writeBlock junk x idx).run d = (.ok (r, x'), d')) :
    ∃ L', InOrder d' L' ∧ Continues d L d' L' ∧ freeCount d' ≤ freeCount d ∧
      (r = none ∧ x' = x ∨ ∃ b, r = some b ∧ Targets L' x idx b x' ∧
        (x'.indirect_addr.toNat = 0 → freeCount d' + (idx + 1 - fileBlocks x) ≤ freeCount d)) := by
  have hsz := fileBlocks_le x
  have hidx : idx ≤ fileBlocks x := by omega
  by_cases h12 : idx < 12
  · by_cases hz : x.addrAt idx = 0
    · cases hfree : nextFree d with
      | none =>
        simp only [writeBlock, DIRECT_ADDR_SIZE, h12, hz, if_true, run_bind,
          run_allocDataBlock h.formatted, hfree, run_pure, Prod.mk.injEq, Except.ok.injEq] at hrun
        obtain ⟨⟨rfl, rfl⟩, rfl⟩ := hrun
        exact ⟨L, h, .refl d L, le_rfl, .inl ⟨rfl, rfl⟩⟩
      | some b =>
        simp only [writeBlock, DIRECT_ADDR_SIZE, h12, hz, if_true, run_bind,
          run_allocDataBlock h.formatted, hfree, run_pure, Prod.mk.injEq, Except.ok.injEq] at hrun
        obtain ⟨⟨rfl, rfl⟩, rfl⟩ := hrun
        have hb := free_of_nextFree hfree
        have hcount := freeCount_mark hb
        obtain ⟨ho, ha⟩ := h.takeContents hb
        have hlt := (hb.lt_fsSize h.formatted).trans (fsSize_lt d)
        exact ⟨_, ho, ha, by omega, .inr ⟨b, rfl,
          .setAddr (hx.extends ha.ledger) (Function.update_self ..) hlt h12, fun _ => by omega⟩⟩
    · simp only [writeBlock, DIRECT_ADDR_SIZE, h12, hz, if_true, if_false, run_pure,
        Prod.mk.injEq, Except.ok.injEq] at hrun
      obtain ⟨⟨rfl, rfl⟩, rfl⟩ := hrun
      have hlt : idx < fileBlocks x := by
        by_contra hge
        exact hz (hx.vacant idx (by omega) h12)
      exact ⟨L, h, .refl d L, le_rfl,
        .inr ⟨_, rfl, .same hx (hx.contents idx h12 hz) (.inl h12), fun _ => by omega⟩⟩
  · by_cases hi : x.indirect_addr.toNat = 0
    · obtain rfl : idx = 12 := by have := hx.small hi; omega
      obtain ⟨L', ho, ha, hcount, hr⟩ := h.run_writeBlock_create hx hi (hclear hi le_rfl) hrun
      rcases hr with hr | ⟨b, hb, ht, hne⟩
      · exact ⟨L', ho, ha, hcount, .inl hr⟩
      · exact ⟨L', ho, ha, hcount, .inr ⟨b, hb, ht, fun hz => absurd hz hne⟩⟩
    · obtain ⟨L', ho, ha, hcount, hr⟩ := h.run_writeBlock_indirect hx (by omega) hi hrun
      rcases hr with hr | ⟨b, hb, ht, hne⟩
      · exact ⟨L', ho, ha, hcount, .inl hr⟩
      · exact ⟨L', ho, ha, hcount, .inr ⟨b, hb, ht, fun hz => absurd hz hne⟩⟩

/-- One call of `WriteImpl` through a copy. -/
theorem run_writeImpl_updates (h : InOrder d L) (hx : RegularCopy d L x) (hpos : pos ≤ x.size.toNat)
    (hlen : 0 < buf.length) (hblk : pos % 512 + buf.length ≤ 512)
    (hclear : CreatesIndirect d x pos buf.length → ClearAfterFirst junk) {r : Bool}
    (hrun : (writeImpl junk x buf pos).run d = (.ok (r, x'), d')) :
    ∃ L', Updates d L x d' L' x' ∧ (r = true → pos + buf.length ≤ x'.size.toNat) := by
  have hsz := fileBlocks_le x
  have hidx : pos / 512 % 2 ^ 32 = pos / 512 := Nat.mod_eq_of_lt (by have := x.size.toNat_lt; omega)
  rcases hfind : (writeBlock junk x (pos / 512)).run d with ⟨f | ⟨found, x₁⟩, d₁⟩
  · simp only [writeImpl, BLOCK_SIZE, hidx, run_bind, hfind] at hrun
    cases hrun
  obtain ⟨L', ho, ha, hcount, hfound⟩ := h.run_writeBlock_inOrder hx.refers (by omega)
    (fun hi h12 hfree => hclear ⟨hi, by omega, by omega⟩) hfind
  rcases hfound with ⟨rfl, rfl⟩ | ⟨b, rfl, ht, hcredit⟩
  · simp only [writeImpl, BLOCK_SIZE, hidx, run_bind, hfind, run_pure, Prod.mk.injEq,
      Except.ok.injEq] at hrun
    obtain ⟨⟨rfl, rfl⟩, rfl⟩ := hrun
    exact ⟨L', ⟨ha, ho, hx.continues ha, fun p l hc => ⟨hc.1, hc.2.1, hc.2.2.trans hcount⟩⟩, by simp⟩
  have hsize : x₁.size = x.size := by rw [ht.inode]
  have hindex : x₁.inode_index = x.inode_index := by rw [ht.inode]
  have htype : x₁.type = x.type := by rw [ht.inode]
  have hb42 := (ho.area b (by simp [ht.target])).le
  obtain ⟨hput, haput⟩ := ho.put
    (s := (d₁ b).patch (pos % 512) buf.length (charAt buf)) hb42
    (fun i hd => by rw [ht.target] at hd; cases hd) fun hd => by rw [ht.target] at hd; cases hd
  have hall := ha.trans haput
  have hcopy := hx.continues hall
  obtain ⟨hkeep, hgrow⟩ := ht.refers (hx.refers.extends ha.ledger) (e := pos + buf.length) (by omega)
    (by omega) (by omega)
  have hindirect : x₁.indirect_addr.toNat = 0 → x.indirect_addr.toNat = 0 := fun hz => by
    by_contra hne
    exact ht.indirect hne hz
  have hfree := freeCount_update (d := d₁) hb42 ((d₁ b).patch (pos % 512) buf.length (charAt buf))
  simp only [writeImpl, BLOCK_SIZE, hidx, run_bind, hfind, run_writeData hblk, putData, hsize] at hrun
  by_cases hlt : pos + buf.length > x.size.toNat
  · obtain ⟨hrefers, hnew⟩ := hgrow hlt
    simp only [if_pos hlt, run_bind, hindex, run_updateInode hx.inUse.1, run_pure, Prod.mk.injEq,
      Except.ok.injEq] at hrun
    obtain ⟨⟨rfl, rfl⟩, rfl⟩ := hrun
    have hy : RegularCopy (Function.update d₁ b ((d₁ b).patch (pos % 512) buf.length (charAt buf))) L'
        { x₁ with inode_index := x.inode_index, size := .ofNat (pos + buf.length) } :=
      ⟨htype.trans hx.type, hcopy.inUse, hcopy.notDir, hindex ▸ hrefers⟩
    obtain ⟨hset, haset⟩ := hput.setRecord hy
    refine ⟨L', ⟨hall.trans haset, hset, hy.continues haset, fun p l hc => ?_⟩, fun _ => hnew.ge⟩
    obtain ⟨hz, hend, hc⟩ := hc
    have hz : x₁.indirect_addr.toNat = 0 := hz
    have hcredit := hcredit hz
    rw [freeCount_congr (setInode_outside hx.inUse.1 (.inl rfl))
      (setInode_outside hx.inUse.1 (.inr le_rfl)), hfree, fileBlocks] at hc
    change 12 - blocks (UInt32.ofNat (pos + buf.length)).toNat + 2 ≤ _ at hc
    rw [hnew, blocks] at hc
    exact ⟨hindirect hz, hend, by omega⟩
  · simp only [if_neg hlt, run_pure, Prod.mk.injEq, Except.ok.injEq] at hrun
    obtain ⟨⟨rfl, rfl⟩, rfl⟩ := hrun
    refine ⟨L', ⟨hall, hput, ⟨htype.trans hx.type, by rw [hindex]; exact hcopy.inUse,
      by rw [hindex]; exact hcopy.notDir, hkeep (by omega)⟩, fun p l hc => ?_⟩, fun _ => by
        rw [hsize]; omega⟩
    obtain ⟨hz, hend, hc⟩ := hc
    rw [hfree, fileBlocks, hsize] at hc
    exact ⟨hindirect hz, hend, hc.trans hcount⟩

/-- The loop of `Write` through a copy. -/
theorem run_writeFrom_updates (h : InOrder d L) (hx : RegularCopy d L x) (hpos : pos ≤ x.size.toNat)
    (hclear : CreatesIndirect d x pos buf.length → ClearAfterFirst junk) (done : ℕ) {m : ℕ}
    (hrun : (writeFrom junk x buf pos done).run d = (.ok (m, x'), d')) :
    ∃ L', Updates d L x d' L' x' := by
  induction hlen : buf.length using Nat.strong_induction_on generalizing d L x buf pos done with
  | _ len ih =>
  subst hlen
  by_cases hnil : buf.length > 0
  · obtain ⟨r, hr⟩ : ∃ r, r = min buf.length (512 - pos % 512) := ⟨_, rfl⟩
    have hmod : pos % 512 < 512 := Nat.mod_lt _ (by omega)
    have htake : (buf.take r).length = r := by rw [List.length_take]; omega
    have hdrop : (buf.drop r).length = buf.length - r := List.length_drop
    rw [writeFrom, dif_pos hnil] at hrun
    simp only [BLOCK_SIZE, ← hr] at hrun
    rcases hstep : (writeImpl junk x (buf.take r) pos).run d with ⟨f | ⟨ok, x₁⟩, d₁⟩
    · simp only [run_bind, hstep] at hrun
      cases hrun
    obtain ⟨L₁, hu, hgrow⟩ := h.run_writeImpl_updates hx hpos (by omega) (by omega)
      (fun hc => hclear ⟨hc.1, by have := hc.2.1; omega, hc.2.2⟩) hstep
    rw [run_bind_ok hstep] at hrun
    cases ok with
    | false =>
      simp only [run_pure, Prod.mk.injEq, Except.ok.injEq] at hrun
      obtain ⟨⟨-, rfl⟩, rfl⟩ := hrun
      exact ⟨L₁, hu⟩
    | true =>
      have hend := hgrow rfl
      obtain ⟨L', hu'⟩ := ih _ (by omega) hu.inOrder hu.copy (by omega) (fun hc => hclear
        (hu.creates _ _ ⟨hc.1, by have := hc.2.1; omega, hc.2.2⟩)) (done + r) hrun rfl
      exact ⟨L', hu.trans hu'⟩
  · rw [writeFrom, dif_neg hnil] at hrun
    simp only [run_pure, Prod.mk.injEq, Except.ok.injEq] at hrun
    obtain ⟨⟨-, rfl⟩, rfl⟩ := hrun
    exact ⟨L, .refl h hx⟩

/-- `Write` through a copy that makes a new indirect block only on a clear stack. -/
theorem run_write_updates (h : InOrder d L) (hx : RegularCopy d L x)
    (hclear : CreatesIndirect d x pos buf.length → ClearAfterFirst junk) {m : ℕ}
    (hrun : (write junk x buf pos).run d = (.ok (m, x'), d')) : ∃ L', Updates d L x d' L' x' := by
  rw [write] at hrun
  split at hrun
  · simp only [run_pure, Prod.mk.injEq, Except.ok.injEq] at hrun
    obtain ⟨⟨-, rfl⟩, rfl⟩ := hrun
    exact ⟨L, .refl h hx⟩
  · next hpos => exact h.run_writeFrom_updates hx (not_lt.mp hpos) hclear 0 hrun

end InOrder

end OrangeOs.Fs
