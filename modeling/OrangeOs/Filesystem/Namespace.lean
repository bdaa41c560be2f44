import OrangeOs.Filesystem.Entry

/-! # The name space after one creation

Making one inode and naming it in one directory keeps the tree, keeps every path that
resolved before, and makes exactly the paths through the new entry resolve.
-/

namespace OrangeOs.Fs

/-- Inode `j` was unused, and is now an empty file that directory `i` of a tree names. -/
structure Creation (d : Disk) (i j : ℕ) (name : List UInt8) (y : InodeDef) (d' : Disk) : Prop
    extends Created d i j name y d' where
  tree : Tree d
  isDir : IsDir d i
  lt : j < 320
  unused : ¬ InUse d j
  empty : Empty y j
  fresh : (dirEntries d (inodeAt d i)).lookup name = none
  apart : ∀ k, IsDir d k → k ≠ i → ∀ b, OwnedBy d k b → ¬ OwnedBy d i b

variable {d d' : Disk} {x y : InodeDef} {i j k l n b p : ℕ} {name : List UInt8}
  {q : List (List UInt8)}

namespace Creation

theorem ne (h : Creation d i j name y d') : j ≠ i := fun he => h.unused (he ▸ h.isDir.inUse)

theorem inodeAt_of_inUse (h : Creation d i j name y d') (hk : InUse d k) (hne : k ≠ i) :
    inodeAt d' k = inodeAt d k :=
  h.others k hk.1 hne fun he => h.unused (he ▸ hk)

theorem type_of_ne (h : Creation d i j name y d') (hk : k < 320) (hkj : k ≠ j) :
    (inodeAt d' k).type = (inodeAt d k).type := by
  by_cases hki : k = i
  · rw [hki, h.inode]
  · rw [h.others k hk hki hkj]

theorem inUse_iff (h : Creation d i j name y d') :
    InUse d' k ↔ InUse d k ∨ k = j ∧ y.type ≠ .none := by
  by_cases hkj : k = j
  · subst hkj
    refine ⟨fun hk => .inr ⟨rfl, ?_⟩, fun hk => ⟨h.lt, ?_⟩⟩
    · rw [← h.record]; exact hk.2
    · rw [h.record]; exact (hk.resolve_left h.unused).2
  · refine ⟨fun hk => .inl ⟨hk.1, ?_⟩, fun hk => ?_⟩
    · rw [← h.type_of_ne hk.1 hkj]; exact hk.2
    · have hk := hk.resolve_right fun hr => hkj hr.1
      exact ⟨hk.1, by rw [h.type_of_ne hk.1 hkj]; exact hk.2⟩

theorem isDir_iff (h : Creation d i j name y d') :
    IsDir d' k ↔ IsDir d k ∨ k = j ∧ y.type = .directory := by
  by_cases hkj : k = j
  · subst hkj
    refine ⟨fun hk => .inr ⟨rfl, ?_⟩, fun hk => ⟨h.lt, ?_⟩⟩
    · rw [← h.record]; exact hk.2
    · rw [h.record]; exact (hk.resolve_left fun hd => h.unused hd.inUse).2
  · refine ⟨fun hk => .inl ⟨hk.1, ?_⟩, fun hk => ?_⟩
    · rw [← h.type_of_ne hk.1 hkj]; exact hk.2
    · have hk := hk.resolve_right fun hr => hkj hr.1
      exact ⟨hk.1, by rw [h.type_of_ne hk.1 hkj]; exact hk.2⟩

/-! ## Entries -/

theorem bytes_kept (h : Creation d i j name y d') (hk : IsDir d k) (hne : k ≠ i) :
    ∀ p < (inodeAt d k).size.toNat,
      fileByte d' (inodeAt d k) p = fileByte d (inodeAt d k) p := by
  intro p hp
  refine fileByte_kept (h.tree.mapped k hk) (fun b hb => ?_) hp
  have harea := (h.tree.mapped k hk).owns_area hb
  exact h.frame b harea.le harea.2 (h.apart k hk hne b hb)

theorem entries_of_ne (h : Creation d i j name y d') (hk : IsDir d k) (hne : k ≠ i) :
    dirEntries d' (inodeAt d' k) = dirEntries d (inodeAt d k) := by
  rw [h.inodeAt_of_inUse hk.inUse hne, dirEntries_congr (h.bytes_kept hk hne)]

theorem entries_new (h : Creation d i j name y d') : dirEntries d' (inodeAt d' j) = [] := by
  rw [h.record, dirEntries, h.empty.size]
  rfl

/-- The entries of an old directory afterwards. -/
theorem mem_entries (h : Creation d i j name y d') (hk : IsDir d k) {e : List UInt8 × ℕ}
    (he : e ∈ dirEntries d' (inodeAt d' k)) :
    e ∈ dirEntries d (inodeAt d k) ∨ k = i ∧ e = (name, j) := by
  by_cases hki : k = i
  · subst hki
    rw [h.entries, List.mem_append, List.mem_singleton] at he
    exact he.imp_right fun he => ⟨rfl, he⟩
  · rw [h.entries_of_ne hk hki] at he
    exact .inl he

theorem lookup_self (h : Creation d i j name y d') :
    (dirEntries d' (inodeAt d' i)).lookup name = some j := by
  rw [h.entries, List.lookup_append, h.fresh]
  simp

theorem lookup_of_ne (h : Creation d i j name y d') (hk : IsDir d k) {a : List UInt8}
    (hne : k ≠ i ∨ a ≠ name) : (dirEntries d' (inodeAt d' k)).lookup a =
      (dirEntries d (inodeAt d k)).lookup a := by
  by_cases hki : k = i
  · subst hki
    have ha := hne.resolve_left fun hn => hn rfl
    rw [h.entries, List.lookup_append, List.lookup_cons, beq_false_of_ne ha]
    simp
  · rw [h.entries_of_ne hk hki]

/-! ## The tree -/

theorem walkable (h : Creation d i j name y d') : Walkable d' := by
  have hnew : ∀ {k}, k = j → (inodeAt d' k).size.toNat = 0 := by
    rintro k rfl
    rw [h.record, h.empty.size]
  refine ⟨fun k hk => ?_, fun k hk => ?_, fun k hk => ?_, fun k hk e he => ?_⟩
  · rcases h.isDir_iff.mp hk with hk | ⟨rfl, -⟩
    · by_cases hki : k = i
      · rw [hki]; exact h.mapped
      · rw [h.inodeAt_of_inUse hk.inUse hki]
        refine (h.tree.mapped k hk).congr h.super h.marked fun hz => ?_
        have hown : OwnedBy d k (inodeAt d k).indirect_addr.toNat := .inr ⟨hz, rfl⟩
        have harea := (h.tree.mapped k hk).owns_area hown
        exact h.frame _ harea.le harea.2 (h.apart k hk hki _ hown)
    · rw [h.record, h.empty.fileBlocks_eq]
      exact h.empty.mapped d'
  · rcases h.isDir_iff.mp hk with hk | ⟨hkj, -⟩
    · by_cases hki : k = i
      · rw [hki]; exact h.dirOk
      · rw [h.inodeAt_of_inUse hk.inUse hki]
        exact (h.tree.dir k hk).congr (h.bytes_kept hk hki)
    · have hz := hnew hkj
      exact ⟨by omega, fun l hl => by omega⟩
  · rcases h.isDir_iff.mp hk with hk | ⟨hkj, -⟩
    · have hle := h.tree.size_le hk
      by_cases hki : k = i
      · have hsize := h.size
        subst hki
        omega
      · rw [h.inodeAt_of_inUse hk.inUse hki]
        omega
    · have hz := hnew hkj
      omega
  · rcases h.isDir_iff.mp hk with hk | ⟨rfl, -⟩
    · rcases h.mem_entries hk he with he | ⟨-, rfl⟩
      · exact (h.tree.inUse k hk e he).1.1
      · exact h.lt
    · rw [h.entries_new] at he
      simp at he

/-- The entry of an old directory at an index, afterwards. -/
theorem entryInum_cases (h : Creation d i j name y d') (hk : IsDir d k)
    (hl : l < (inodeAt d' k).size.toNat / 16) :
    (l < (inodeAt d k).size.toNat / 16 ∧
      entryInum d' (inodeAt d' k) l = entryInum d (inodeAt d k) l) ∨
    k = i ∧ l = (inodeAt d k).size.toNat / 16 ∧ entryInum d' (inodeAt d' k) l = j := by
  have hget : ∀ {e : Disk} {x : InodeDef} (hl : l < (dirEntries e x).length),
      (dirEntries e x)[l].2 = entryInum e x l := fun hl => by simp [dirEntries]
  have hl' : l < (dirEntries d' (inodeAt d' k)).length := by rwa [length_dirEntries]
  rw [← hget hl']
  by_cases hki : k = i
  · subst hki
    have hlen := length_dirEntries d (inodeAt d k)
    have halign := (h.tree.dir k hk).aligned
    have hsize := h.size
    rw [List.getElem_of_eq h.entries hl']
    by_cases hlt : l < (inodeAt d k).size.toNat / 16
    · rw [List.getElem_append_left (by omega), hget]
      exact .inl ⟨hlt, rfl⟩
    · have hle : l = (dirEntries d (inodeAt d k)).length := by omega
      refine .inr ⟨rfl, by omega, ?_⟩
      rw [List.getElem_append_right (by omega)]
      simp
  · have hsz : (inodeAt d' k).size = (inodeAt d k).size := by
      rw [h.inodeAt_of_inUse hk.inUse hki]
    rw [hsz] at hl
    rw [List.getElem_of_eq (h.entries_of_ne hk hki) hl']
    exact .inl ⟨hl, hget _⟩

theorem tree_after (h : Creation d i j name y d') (hy : y.type ≠ .none) : Tree d' := by
  have hw := h.walkable
  have hnot : ∀ k, IsDir d k → ∀ l < (inodeAt d k).size.toNat / 16,
      entryInum d (inodeAt d k) l ≠ j := by
    intro k hk l hl he
    have := h.tree.inUse k hk _ (mem_dirEntries.mpr ⟨l, hl, rfl⟩)
    exact h.unused (he ▸ this.1)
  have hzero : ∀ k, k = j → (inodeAt d' k).size.toNat / 16 = 0 := by
    rintro k rfl
    rw [h.record, h.empty.size]
  refine ⟨h.isDir_iff.mpr (.inl h.tree.root), hw.mapped, hw.dir, fun k hk => ?_, fun k hk e he => ?_,
    fun k k' hk hk' l hl l' hl' he => ?_⟩
  · rcases h.isDir_iff.mp hk with hk | ⟨rfl, -⟩
    · by_cases hki : k = i
      · subst hki
        rw [h.entries, List.map_append]
        refine List.Nodup.append (h.tree.names k hk) (List.nodup_singleton _) ?_
        rw [List.map_singleton, List.disjoint_singleton]
        intro hmem
        obtain ⟨e, he, hname⟩ := List.mem_map.mp hmem
        have := List.lookup_eq_none_iff.mp h.fresh e he
        simp [hname] at this
      · rw [h.entries_of_ne hk hki]
        exact h.tree.names k hk
    · rw [h.entries_new]
      exact List.nodup_nil
  · rcases h.isDir_iff.mp hk with hk | ⟨rfl, -⟩
    · rcases h.mem_entries hk he with he | ⟨-, rfl⟩
      · have := h.tree.inUse k hk e he
        exact ⟨h.inUse_iff.mpr (.inl this.1), this.2⟩
      · refine ⟨h.inUse_iff.mpr (.inr ⟨rfl, hy⟩), fun h0 => ?_⟩
        have h0 : j = 0 := h0
        exact h.unused (h0 ▸ h.tree.root.inUse)
    · rw [h.entries_new] at he
      simp at he
  · have hold : ∀ k l, IsDir d' k → l < (inodeAt d' k).size.toNat / 16 → IsDir d k := by
      intro k l hk hl
      refine (h.isDir_iff.mp hk).resolve_right fun hr => ?_
      have := hzero k hr.1
      omega
    have hk₀ := hold k l hk hl
    have hk₀' := hold k' l' hk' hl'
    rcases h.entryInum_cases hk₀ hl with ⟨hl₀, hq⟩ | ⟨hki, hli, hq⟩ <;>
      rcases h.entryInum_cases hk₀' hl' with ⟨hl₀', hq'⟩ | ⟨hki', hli', hq'⟩
    · rw [hq, hq'] at he
      exact h.tree.once k k' hk₀ hk₀' l hl₀ l' hl₀' he
    · rw [hq, hq'] at he
      exact absurd he (hnot k hk₀ l hl₀)
    · rw [hq, hq'] at he
      exact absurd he.symm (hnot k' hk₀' l' hl₀')
    · subst hki hki'
      exact ⟨rfl, by omega⟩

/-! ## Paths -/

theorem resolve_mono (h : Creation d i j name y d') (hk : InUse d k)
    (hr : resolve d q k = some l) : resolve d' q k = some l := by
  induction q generalizing k with
  | nil => exact hr
  | cons a q ih =>
    rw [resolve] at hr ⊢
    rw [h.type_of_ne hk.1 fun he => h.unused (he ▸ hk)]
    split at hr
    · next ht =>
      have hdir : IsDir d k := ⟨hk.1, ht⟩
      obtain ⟨m, hm, hr⟩ := Option.bind_eq_some_iff.mp hr
      have hne : k ≠ i ∨ a ≠ name := by
        by_contra hc
        push Not at hc
        obtain ⟨rfl, rfl⟩ := hc
        rw [h.fresh] at hm
        simp at hm
      rw [if_pos ht, h.lookup_of_ne hdir hne, hm]
      exact ih (h.tree.inUse_of_lookup hdir hm) hr
    · simp at hr

/-- Nothing lies below the new file. -/
theorem resolve_new (h : Creation d i j name y d') (hr : resolve d' q j = some l) :
    q = [] ∧ l = j := by
  cases q with
  | nil => exact ⟨rfl, by simpa [resolve] using hr.symm⟩
  | cons a q =>
    rw [resolve, h.entries_new] at hr
    split at hr <;> simp at hr

/-- The only new path is the one through the new entry. -/
theorem resolve_cases (h : Creation d i j name y d') (hk : InUse d k) (hn : resolve d q k = none)
    (hr : resolve d' q k = some l) : l = j ∧ ∃ q', q = q' ++ [name] ∧ resolve d q' k = some i := by
  induction q generalizing k with
  | nil => simp [resolve] at hn
  | cons a q ih =>
    rw [resolve] at hr hn
    rw [h.type_of_ne hk.1 fun he => h.unused (he ▸ hk)] at hr
    split at hr
    · next ht =>
      have hdir : IsDir d k := ⟨hk.1, ht⟩
      rw [if_pos ht] at hn
      by_cases hne : k ≠ i ∨ a ≠ name
      · rw [h.lookup_of_ne hdir hne] at hr
        obtain ⟨m, hm, hr⟩ := Option.bind_eq_some_iff.mp hr
        rw [hm] at hn
        obtain ⟨rfl, q', rfl, hq'⟩ := ih (h.tree.inUse_of_lookup hdir hm) hn hr
        refine ⟨rfl, a :: q', rfl, ?_⟩
        rw [resolve, if_pos ht, hm]
        exact hq'
      · push Not at hne
        obtain ⟨rfl, rfl⟩ := hne
        rw [h.lookup_self] at hr
        obtain ⟨rfl, rfl⟩ := h.resolve_new hr
        exact ⟨rfl, [], rfl, rfl⟩
    · simp at hr

theorem resolve_append_name (h : Creation d i j name y d') (hk : InUse d k)
    (hr : resolve d q k = some i) : resolve d' (q ++ [name]) k = some j := by
  rw [resolve_append, h.resolve_mono hk hr]
  have hdir := h.isDir_iff.mpr (.inl h.isDir)
  simp [resolve, hdir.2, h.lookup_self]

/-! ## Counting -/

theorem freeInodes_eq (h : Creation d i j name y d') (hy : y.type ≠ .none) :
    freeInodes d' + 1 = freeInodes d := by
  have hj : (inodeAt d j).type = .none := by
    by_contra hne
    exact h.unused ⟨h.lt, hne⟩
  have hset : (Finset.range 320).filter (fun k => (inodeAt d' k).type = .none) =
      ((Finset.range 320).filter fun k => (inodeAt d k).type = .none).erase j := by
    ext k
    simp only [Finset.mem_filter, Finset.mem_range, Finset.mem_erase]
    by_cases hkj : k = j
    · subst hkj
      simp [h.record, hy]
    · refine ⟨fun hk => ⟨hkj, hk.1, ?_⟩, fun hk => ⟨hk.2.1, ?_⟩⟩
      · rw [← h.type_of_ne hk.1 hkj]; exact hk.2
      · rw [h.type_of_ne hk.2.1 hkj]; exact hk.2.2
  rw [freeInodes, hset, Finset.card_erase_add_one]
  · rfl
  · simp [h.lt, hj]

end Creation

/-- A well-formed disk whose directories form a tree. -/
structure FsTree (d : Disk) : Prop where
  wf : WellFormed d
  tree : Tree d

theorem WellFormed.created (hw : WellFormed d) (h : Creation d i j name y d') : WellFormed d' := by
  have hi := h.isDir.inUse
  have hother : ∀ k, InUse d' k → k ≠ i → k ≠ j →
      InUse d k ∧ inodeAt d' k = inodeAt d k := by
    intro k hk hki hkj
    have hk' := (h.inUse_iff.mp hk).resolve_right fun hr => hkj hr.1
    exact ⟨hk', h.inodeAt_of_inUse hk' hki⟩
  refine .of_apart (hw.formatted.congr h.super) (fun k hk => ?_)
    (hw.apart.step i h.super h.marked ?_ ?_)
  · by_cases hki : k = i
    · rw [hki, h.inode]
      exact hw.index i hi
    by_cases hkj : k = j
    · rw [hkj, h.record]
      exact h.empty.index
    obtain ⟨hk', he⟩ := hother k hk hki hkj
    rw [he]
    exact hw.index k hk'
  · rintro k _ _ ⟨hk, rfl, rfl⟩ hne b hb
    have harea := (hw.mapped k hk).owns_area hb
    exact h.frame b harea.le harea.2 (hw.disjoint k i hk hi hne b hb)
  · rintro k _ _ ⟨hk, rfl, rfl⟩
    by_cases hki : k = i
    · subst hki
      exact .inr ⟨h.mapped, h.vacant, fun b hb => (h.owns b hb).imp
        (fun ho => ⟨_, _, ⟨hi, rfl, rfl⟩, ho⟩) fun hfr => ⟨rfl, hfr⟩⟩
    by_cases hkj : k = j
    · rw [hkj, h.record, h.empty.fileBlocks_eq]
      exact .inr ⟨h.empty.mapped _, h.empty.vacant _, fun b hb => absurd hb (h.empty.not_owns _ b)⟩
    obtain ⟨hk', he⟩ := hother k hk hki hkj
    rw [he]
    exact .inl ⟨hki, hk', rfl, rfl⟩

namespace FsTree

theorem appendable (h : FsTree d) (hi : IsDir d i) : Appendable d i where
  formatted := h.wf.formatted
  isDir := hi
  index := h.wf.index i hi.inUse
  mapped := h.tree.mapped i hi
  vacant := h.wf.vacant i hi.inUse
  dirOk := h.tree.dir i hi
  size_le := h.tree.size_le hi

theorem creation (h : FsTree d) (hi : IsDir d i) (hj : nextInode d = some j) (hy : Empty y j)
    (hfresh : (dirEntries d (inodeAt d i)).lookup name = none) (hc : Created d i j name y d') :
    Creation d i j name y d' where
  toCreated := hc
  tree := h.tree
  isDir := hi
  lt := (of_nextInode hj).1
  unused := (of_nextInode hj).2
  empty := hy
  fresh := hfresh
  apart k hk hne := h.wf.disjoint k i hk.inUse hi.inUse hne

theorem created (h : FsTree d) (hc : Creation d i j name y d') (hy : y.type ≠ .none) : FsTree d' :=
  ⟨h.wf.created hc, hc.tree_after hy⟩

end FsTree

namespace Tree

variable {q' : List (List UInt8)} {a a' : List UInt8} {m m' : ℕ}

theorem resolve_concat (h : Tree d) (hr : resolve d (q ++ [a]) 0 = some k) :
    ∃ m, resolve d q 0 = some m ∧ IsDir d m ∧ (a, k) ∈ dirEntries d (inodeAt d m) := by
  rw [resolve_append] at hr
  obtain ⟨m, hm, hr⟩ := Option.bind_eq_some_iff.mp hr
  rw [resolve] at hr
  split at hr
  · next ht =>
    obtain ⟨l, hl, hr⟩ := Option.bind_eq_some_iff.mp hr
    obtain rfl : l = k := by simpa [resolve] using hr
    exact ⟨m, hm, ⟨(h.inUse_of_resolve h.root.inUse hm).1, ht⟩, mem_of_lookup hl⟩
  · simp at hr

theorem resolve_concat_ne (h : Tree d) (hr : resolve d (q ++ [a]) 0 = some k) : k ≠ 0 := by
  obtain ⟨m, -, hm, he⟩ := h.resolve_concat hr
  exact (h.inUse m hm _ he).2

/-- A file is named once. -/
theorem entry_inj (h : Tree d) (hm : IsDir d m) (hm' : IsDir d m')
    (he : (a, k) ∈ dirEntries d (inodeAt d m)) (he' : (a', k) ∈ dirEntries d (inodeAt d m')) :
    m = m' ∧ a = a' := by
  obtain ⟨l, hl, hl_eq⟩ := mem_dirEntries.mp he
  obtain ⟨l', hl', hl'_eq⟩ := mem_dirEntries.mp he'
  simp only [Prod.mk.injEq] at hl_eq hl'_eq
  obtain ⟨rfl, rfl⟩ := h.once m m' hm hm' l hl l' hl' (by rw [← hl_eq.2, ← hl'_eq.2])
  exact ⟨rfl, by rw [hl_eq.1, hl'_eq.1]⟩

/-- In a tree a file has one path. -/
theorem resolve_inj (h : Tree d) (hq : resolve d q 0 = some k) (hq' : resolve d q' 0 = some k) :
    q = q' := by
  induction q using List.reverseRecOn generalizing q' k with
  | nil =>
    obtain rfl : 0 = k := by simpa [resolve] using hq
    cases q' using List.reverseRecOn with
    | nil => rfl
    | append_singleton q' a' => exact absurd rfl (h.resolve_concat_ne hq')
  | append_singleton q a ih =>
    cases q' using List.reverseRecOn with
    | nil =>
      obtain rfl : 0 = k := by simpa [resolve] using hq'
      exact absurd rfl (h.resolve_concat_ne hq)
    | append_singleton q' a' =>
      obtain ⟨m, hm, hmd, he⟩ := h.resolve_concat hq
      obtain ⟨m', hm', hmd', he'⟩ := h.resolve_concat hq'
      obtain ⟨rfl, rfl⟩ := h.entry_inj hmd hmd' he he'
      rw [ih hm hm']

end Tree

end OrangeOs.Fs
