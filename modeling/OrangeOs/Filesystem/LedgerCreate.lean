import OrangeOs.Filesystem.Ledger

/-! # Creating files in a directory tree in order

`CreateImpl` appends to a directory only, with a record that it has just read. Whatever `Create` makes,
and wherever it stops, the directories stay a tree and no block changes its purpose.
-/

namespace OrangeOs.Fs

open Prog

variable {d d' : Disk} {L L' : Ledger} {x y : InodeDef} {i j k b l : ℕ} {name : List UInt8}
  {cs : List (List UInt8)} {junk : ℕ → Sector} {type : FileType} {major minor : UInt8}

/-- An empty file that no directory names. -/
theorem Tree.setInode_empty (h : Tree d) (hj : j < 320) (hun : ¬ InUse d j) (hy : Empty y j) :
    Tree (setInode d j y) := by
  have hself := inodeAt_setInode_self d j y
  have hdet := Detached.setInode hj hun y
  have hdir : ∀ k, IsDir (setInode d j y) k → k ≠ j → IsDir d k := fun k hk hne =>
    ⟨hk.1, by rw [← inodeAt_setInode_of_ne (x := y) (d := d) hne]; exact hk.2⟩
  have hentries : ∀ k, IsDir d k → dirEntries (setInode d j y) (inodeAt (setInode d j y) k) =
      dirEntries d (inodeAt d k) := fun k hk => by
    rw [hdet.kept k hk.inUse, hdet.entries h hk]
  have hnone : dirEntries (setInode d j y) (inodeAt (setInode d j y) j) = [] := by
    rw [hself, dirEntries, hy.size]
    rfl
  have hw := h.walkable.setInode_empty hj hy
  refine ⟨⟨by omega, ?_⟩, hw.mapped, hw.dir, fun k hk => ?_, fun k hk e he => ?_,
    fun k k' hk hk' m hm m' hm' he => ?_⟩
  · rw [hdet.kept 0 h.root.inUse]
    exact h.root.2
  · by_cases hkj : k = j
    · rw [hkj, hnone]
      exact List.nodup_nil
    · rw [hentries k (hdir k hk hkj)]
      exact h.names k (hdir k hk hkj)
  · by_cases hkj : k = j
    · rw [hkj, hnone] at he
      cases he
    · rw [hentries k (hdir k hk hkj)] at he
      have hold := h.inUse k (hdir k hk hkj) e he
      exact ⟨hdet.inUse hold.1, hold.2⟩
  · have hsome : ∀ k m, m < (inodeAt (setInode d j y) k).size.toNat / 16 → k ≠ j := by
      rintro k m hm rfl
      rw [hself, hy.size] at hm
      omega
    have hinum : ∀ k m, IsDir d k → m < (inodeAt d k).size.toNat / 16 →
        entryInum (setInode d j y) (inodeAt d k) m = entryInum d (inodeAt d k) m := by
      intro k m hk hm
      refine (entry_congr fun p hp => fileByte_kept (h.mapped k hk)
        (fun b hb => hdet.same b (.inr ?_)) (by omega)).2
      have := ((h.mapped k hk).owns_area hb).le
      omega
    have hk₀ := hdir k hk (hsome k m hm)
    have hk₀' := hdir k' hk' (hsome k' m' hm')
    rw [hdet.kept k hk₀.inUse] at hm he
    rw [hdet.kept k' hk₀'.inUse] at hm' he
    rw [hinum k m hk₀ hm, hinum k' m' hk₀' hm'] at he
    exact h.once k k' hk₀ hk₀' m hm m' hm' he

namespace InOrder

theorem appendable (h : InOrder d L) (hi : IsDir d i) : Appendable d i where
  formatted := h.formatted
  isDir := hi
  index := h.index i hi.inUse
  mapped := h.tree.mapped i hi
  vacant := h.vacant i hi
  dirOk := h.tree.dir i hi
  size_le := h.tree.size_le hi

theorem owner_unique (h : InOrder d L) (hi : IsDir d i) (hj : IsDir d j) (hb : OwnedBy d i b)
    (hb' : OwnedBy d j b) : i = j := by
  have := h.owned i b hi hb
  rw [h.owned j b hj hb'] at this
  exact (Purpose.directory.inj this).symm

theorem creation (h : InOrder d L) (hi : IsDir d i) (hj : nextInode d = some j) (hy : Empty y j)
    (hfresh : (dirEntries d (inodeAt d i)).lookup name = none) (hc : Created d i j name y d') :
    Creation d i j name y d' where
  toCreated := hc
  tree := h.tree
  isDir := hi
  lt := (of_nextInode hj).1
  unused := (of_nextInode hj).2
  empty := hy
  fresh := hfresh
  apart _ hk hne _ hb hb' := hne (h.owner_unique hk hi hb hb')

/-- A copy of the record of a regular file. -/
theorem regularCopy (h : InOrder d L) (hj : InUse d j) (ht : (inodeAt d j).type = .regular_file) :
    RegularCopy d L (inodeAt d j) := by
  have hidx := h.index j hj
  have hdir : ¬ IsDir d j := fun hd => by
    have := hd.2
    rw [ht] at this
    cases this
  exact ⟨ht, by rwa [hidx], by rwa [hidx], h.records j hj hdir⟩

/-- An inode is made and not named. -/
theorem setInode_empty (h : InOrder d L) (hj : j < 320) (hun : ¬ InUse d j) (hy : Empty y j) :
    InOrder (setInode d j y) L ∧ Continues d L (setInode d j y) L := by
  have hself := inodeAt_setInode_self d j y
  have hdet := Detached.setInode hj hun y
  have hother : ∀ k, k ≠ j → inodeAt (setInode d j y) k = inodeAt d k := fun k hk =>
    inodeAt_setInode_of_ne hk
  have huse : ∀ k, InUse (setInode d j y) k → k ≠ j → InUse d k := fun k hk hne =>
    ⟨hk.1, by rw [← hother k hne]; exact hk.2⟩
  have hdir : ∀ k, k ≠ j → (IsDir (setInode d j y) k ↔ IsDir d k) := fun k hne =>
    and_congr_right fun _ => by rw [hother k hne]
  refine ⟨⟨h.formatted.congr (hdet.same 0 (.inl rfl)), h.tree.setInode_empty hj hun hy, fun k hk => ?_,
    fun k hk => ?_, fun k b hk hb => ?_, fun b hb => ?_, fun b hb => ?_, fun k hk hd => ?_⟩,
    .refl L, fun k => hdet.inUse, fun k hk hd => (hdir k fun he => hun (he ▸ hk)).mp hd⟩
  · by_cases hkj : k = j
    · rw [hkj, hself, hy.index]
    · rw [hother k hkj]
      exact h.index k (huse k hk hkj)
  · by_cases hkj : k = j
    · rw [hkj, hself, hy.fileBlocks_eq]
      exact hy.vacant _
    · have hk := (hdir k hkj).mp hk
      rw [hother k hkj]
      refine (h.vacant k hk).congr fun hz => hdet.same _ (.inr ?_)
      have := ((h.tree.mapped k hk).indirect_area hz).le
      omega
  · by_cases hkj : k = j
    · rw [hkj, OwnedBy, hself, hy.fileBlocks_eq] at hb
      exact absurd hb (hy.not_owns _ b)
    · have hk := (hdir k hkj).mp hk
      rw [OwnedBy, hother k hkj, owns_congr (h.tree.mapped k hk).indirect_ne fun hz =>
        hdet.same _ (.inr (by have := ((h.tree.mapped k hk).indirect_area hz).le; omega))] at hb
      exact h.owned k b hk hb
  · exact (inArea_congr (hdet.same 0 (.inl rfl)) (hdet.same 41 (.inr le_rfl))).mpr (h.area b hb)
  · have := (h.area b (by simp [hb])).le
    rw [hdet.same b (.inr (by omega))]
    exact h.words b hb
  · by_cases hkj : k = j
    · rw [hkj, hself]
      exact hy.refers L
    · rw [hother k hkj]
      exact h.records k (huse k hk hkj) fun hd' => hd ((hdir k hkj).mpr hd')

open Classical in
/-- An inode is made and named. -/
theorem created (h : InOrder d L) (hc : Creation d i j name y d') (hy : y.type ≠ .none) :
    ∃ L', InOrder d' L' ∧ Continues d L d' L' := by
  have hi := hc.isDir
  have hold : ∀ b, OwnedBy d' i b → L b = .none ∨ L b = .directory i := fun b hb =>
    (hc.owns b hb).elim (fun ho => .inr (h.owned i b hi ho)) fun hf => .inl (h.of_free hf)
  have hframe : ∀ b, L b ≠ .none → L b ≠ .directory i → d' b = d b := fun b hz hne =>
    hc.frame b (h.area b hz).le (h.area b hz).2 fun ho => hne (h.owned i b hi ho)
  have hkeep : ∀ k, IsDir d k → k ≠ i → ∀ b, OwnedBy d k b → d' b = d b := fun k hk hne b hb =>
    hframe b (by simp [h.owned k b hk hb]) (by simpa [h.owned k b hk hb] using hne)
  obtain ⟨L', hL'⟩ : ∃ L' : Ledger, L' = fun b => if OwnedBy d' i b then .directory i else L b :=
    ⟨_, rfl⟩
  have hpos : ∀ b, OwnedBy d' i b → L' b = .directory i := fun b hb => by rw [hL']; exact if_pos hb
  have hneg : ∀ b, ¬ OwnedBy d' i b → L' b = L b := fun b hb => by rw [hL']; exact if_neg hb
  have hL : L.Extends L' := fun b hz => by
    by_cases hb : OwnedBy d' i b
    · rw [hpos b hb, (hold b hb).resolve_left hz]
    · exact hneg b hb
  have huse : ∀ k, InUse d' k → k ≠ j → InUse d k := fun k hk hne =>
    (hc.inUse_iff.mp hk).resolve_right fun hr => hne hr.1
  have hdir : ∀ k, IsDir d' k → k ≠ j → IsDir d k := fun k hk hne =>
    (hc.isDir_iff.mp hk).resolve_right fun hr => hne hr.1
  have hnew : ∀ k, k = j → inodeAt d' k = y := fun k hk => by rw [hk, hc.record]
  refine ⟨L', ⟨h.formatted.congr hc.super, hc.tree_after hy, fun k hk => ?_, fun k hk => ?_,
    fun k b hk hb => ?_, fun b hb => ?_, fun b hb => ?_, fun k hk hd => ?_⟩, hL,
    fun k hk => hc.inUse_iff.mpr (.inl hk), fun k hk hd => hdir k hd fun he => hc.unused (he ▸ hk)⟩
  · by_cases hkj : k = j
    · rw [hnew k hkj, hc.empty.index, hkj]
    · by_cases hki : k = i
      · rw [hki, hc.inode]
        exact h.index i hi.inUse
      · rw [hc.inodeAt_of_inUse (huse k hk hkj) hki]
        exact h.index k (huse k hk hkj)
  · by_cases hkj : k = j
    · rw [hnew k hkj, hc.empty.fileBlocks_eq]
      exact hc.empty.vacant _
    · by_cases hki : k = i
      · rw [hki]
        exact hc.vacant
      · have hk := hdir k hk hkj
        rw [hc.inodeAt_of_inUse hk.inUse hki]
        exact (h.vacant k hk).congr fun hz => hkeep k hk hki _ (.inr ⟨hz, rfl⟩)
  · by_cases hki : k = i
    · rw [hki] at hb ⊢
      exact hpos b hb
    by_cases hkj : k = j
    · rw [OwnedBy, hnew k hkj, hc.empty.fileBlocks_eq] at hb
      exact absurd hb (hc.empty.not_owns _ b)
    · have hk := hdir k hk hkj
      rw [OwnedBy, hc.inodeAt_of_inUse hk.inUse hki, owns_congr (h.tree.mapped k hk).indirect_ne
        fun hz => hkeep k hk hki _ (.inr ⟨hz, rfl⟩)] at hb
      exact hL.of_eq (h.owned k b hk hb) (by simp)
  · by_cases ho : OwnedBy d' i b
    · exact hc.mapped.owns_area ho
    · rw [hneg b ho] at hb
      exact (h.area b hb).congr hc.super hc.marked
  · have ho : ¬ OwnedBy d' i b := fun ho => by
      rw [hpos b ho] at hb
      cases hb
    rw [hneg b ho] at hb
    rw [hframe b (by simp [hb]) (by simp [hb])]
    exact (h.words b hb).extends hL
  · by_cases hkj : k = j
    · rw [hnew k hkj]
      exact hc.empty.refers L'
    · have hki : k ≠ i := fun he => hd (hc.isDir_iff.mpr (.inl (he ▸ hi)))
      have hk := huse k hk hkj
      rw [hc.inodeAt_of_inUse hk hki]
      exact (h.records k hk fun hd' => hd (hc.isDir_iff.mpr (.inl hd'))).extends hL

/-- The loop of `Create`: wherever it stops, the directories are in order. What it stores is the
record of a file, unless there are no components. -/
theorem run_createFrom_inOrder (h : InOrder d L) (hi : InUse d i) (hcs : ∀ a ∈ cs, IsName a)
    (htype : type ≠ .none) (l : ℕ) (x : InodeDef) {r : Except Fault (Option InodeDef)}
    (hrun : (createFrom junk type major minor l i x cs).run d = (r, d')) :
    ∃ L', InOrder d' L' ∧ Continues d L d' L' ∧ ∀ y, r = .ok (some y) →
      cs = [] ∧ y = x ∧ d' = d ∨ ∃ j, InUse d' j ∧ y = inodeAt d' j := by
  have hstay : ∀ {r' : Except Fault (Option InodeDef)}, (∀ y, r' ≠ .ok (some y)) → (r', d) = (r, d') →
      ∃ L', InOrder d' L' ∧ Continues d L d' L' ∧ ∀ y, r = .ok (some y) →
        cs = [] ∧ y = x ∧ d' = d ∨ ∃ j, InUse d' j ∧ y = inodeAt d' j := by
    rintro r' hr' he
    obtain ⟨rfl, rfl⟩ := Prod.mk.inj he
    exact ⟨L, h, .refl d L, fun y hy => absurd hy (hr' y)⟩
  induction cs generalizing d L i l x with
  | nil =>
    rw [run_createFrom_nil] at hrun
    obtain ⟨rfl, rfl⟩ := Prod.mk.inj hrun
    refine ⟨L, h, .refl d L, fun y hy => .inl ⟨rfl, ?_, rfl⟩⟩
    exact (Option.some.inj (Except.ok.inj hy)).symm
  | cons a cs ih =>
    have hname := hcs a (by simp)
    have hrest : ∀ b ∈ cs, IsName b := fun b hb => hcs b (List.mem_cons_of_mem _ hb)
    have hw := h.tree.walkable
    -- the levels below, once this one is there
    have hbelow : ∀ {e M k z}, InOrder e M → Continues d L e M → InUse e k → inodeAt e k = z →
        (createFrom junk type major minor (l + 1) k z cs).run e = (r, d') →
        ∃ L', InOrder d' L' ∧ Continues d L d' L' ∧ ∀ y, r = .ok (some y) →
          a :: cs = [] ∧ y = x ∧ d' = d ∨ ∃ j, InUse d' j ∧ y = inodeAt d' j := by
      rintro e M k _ ho ha hk rfl hgo
      obtain ⟨L', ho', ha', hy⟩ := ih ho hk hrest (l + 1) _ hgo fun {r'} hr' he => by
        obtain ⟨rfl, rfl⟩ := Prod.mk.inj he
        exact ⟨M, ho, .refl e M, fun y hy => absurd hy (hr' y)⟩
      refine ⟨L', ho', ha.trans ha', fun y hr => .inr ?_⟩
      rcases hy y hr with ⟨-, rfl, rfl⟩ | hj
      · exact ⟨k, hk, rfl⟩
      · exact hj
    by_cases hdir : IsDir d i
    · cases hl : (dirEntries d (inodeAt d i)).lookup a with
      | some k =>
        have hres : resolve d [a] i = some k := by rw [resolve_singleton hdir, hl]
        rw [run_createFrom_existing hw hi.1 hres] at hrun
        split at hrun
        · exact hstay (by simp) hrun
        · exact hbelow h (.refl d L) (h.tree.inUse_of_lookup hdir hl) rfl hrun
      | none =>
        have hres : resolve d [a] i = none := by rw [resolve_singleton hdir, hl]
        rw [run_createFrom_missing hw hi.1 hres] at hrun
        cases hn : nextInode d with
        | none =>
          rw [run_createImpl_no_inode (h.appendable hdir) hn hname.2] at hrun
          exact hstay (by simp) hrun
        | some j =>
          obtain ⟨hj, hun⟩ := of_nextInode hn
          have hy : Empty (newInode j (if cs = [] then type else .directory) major minor) j :=
            empty_newInode hj
          have hne : (newInode j (if cs = [] then type else .directory) major minor).type ≠ .none := by
            change (if cs = [] then type else .directory) ≠ .none
            split
            · exact htype
            · simp
          by_cases hle : appendNeed (inodeAt d i) ≤ freeCount d
          · obtain ⟨e, hcreate, hc⟩ := run_createImpl (h.appendable hdir) hn hname.1 hname.2 hle
            have hc := h.creation hdir hn hy hl hc
            obtain ⟨M, ho, ha⟩ := h.created hc hne
            simp only [hcreate, toNat_newInode hj] at hrun
            exact hbelow ho ha (hc.inUse_iff.mpr (.inr ⟨rfl, hne⟩)) hc.record hrun
          · -- no block for the entry
            obtain ⟨ho, ha⟩ := h.setInode_empty hj hun hy
            rw [run_createImpl_no_block (h.appendable hdir) hn hname.2 (not_le.mp hle)] at hrun
            simp only [toNat_newInode hj] at hrun
            have hself := inodeAt_setInode_self d j
              (newInode j (if cs = [] then type else .directory) major minor)
            exact hbelow ho ha ⟨hj, by rw [hself]; exact hne⟩ hself hrun
    · have ht : (inodeAt d i).type ≠ .directory := fun ht => hdir ⟨hi.1, ht⟩
      have hres : resolve d [a] i = none := by rw [resolve, if_neg ht]
      rw [run_createFrom_missing hw hi.1 hres, run_createImpl_not_dir hi.1 ht hname.2] at hrun
      exact hstay (by simp) hrun

/-- `Create` leaves the directories in order. If it stores the record of a regular file, then it is a
copy of it. -/
theorem run_create_inOrder (h : InOrder d L) (htype : type ≠ .none) {cwd : List UInt8}
    {path : Option CString} {r : Except Fault (Option InodeDef)}
    (hrun : (create junk cwd path type major minor).run d = (r, d')) :
    ∃ L', InOrder d' L' ∧ Continues d L d' L' ∧
      ∀ y, r = .ok (some y) → y.type = .regular_file → RegularCopy d' L' y := by
  rcases hp : parsePath cwd path .zero with f | ⟨level, tbl⟩
  · simp only [create, hp] at hrun
    obtain ⟨rfl, rfl⟩ := Prod.mk.inj hrun
    exact ⟨L, h, .refl d L, fun y hy => by cases hy⟩
  by_cases hl : level < 0
  · simp only [create, hp, hl, if_true, run_pure, Prod.mk.injEq] at hrun
    obtain ⟨rfl, rfl⟩ := hrun
    exact ⟨L, h, .refl d L, fun y hy => by cases hy⟩
  rw [run_create hp (not_lt.mp hl)] at hrun
  obtain ⟨L', ho, ha, hy⟩ := h.run_createFrom_inOrder h.tree.root.inUse
    (fun a ha => isName_of_mem_rows hp a ha) htype 0 {} hrun
  refine ⟨L', ho, ha, fun y hr ht => ?_⟩
  rcases hy y hr with ⟨-, rfl, -⟩ | ⟨j, hj, rfl⟩
  · cases ht
  · exact ho.regularCopy hj ht

end InOrder

end OrangeOs.Fs
