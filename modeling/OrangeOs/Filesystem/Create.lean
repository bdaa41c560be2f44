import OrangeOs.Filesystem.Namespace

/-! # Creating files

`Create` walks the components of a path that exist and makes the others, each in the one
made before. Its effect on the name space is `Grown`. A level whose entry finds no block leaves an
inode that no directory names, and `Create` goes on below it.
-/

namespace OrangeOs.Fs

open Prog

/-- Every inode in use has a path. -/
def Connected (d : Disk) : Prop := ∀ j, InUse d j → ∃ q, resolve d q 0 = some j

/-- The name space has grown by paths through directory `i` along `names`. -/
structure Grown (d : Disk) (i : ℕ) (names : List (List UInt8)) (d' : Disk) : Prop where
  old : ∀ q k l, InUse d k → resolve d q k = some l → resolve d' q k = some l
  kept : ∀ k, InUse d k → k ≠ i → inodeAt d' k = inodeAt d k
  type : (inodeAt d' i).type = (inodeAt d i).type
  new : ∀ q k l, InUse d k → resolve d q k = none → resolve d' q k = some l → ¬ InUse d l ∧
    ∃ q₁ q₂, q = q₁ ++ q₂ ∧ resolve d q₁ k = some i ∧ q₂ ≠ [] ∧ q₂ <+: names

/-- The inodes in use and the blocks are kept; other records may change. -/
structure Detached (d d' : Disk) : Prop where
  kept : ∀ k, InUse d k → inodeAt d' k = inodeAt d k
  same : ∀ b, b = 0 ∨ 41 ≤ b → d' b = d b

/-- There are blocks for the entries of as many of `n` new levels below directory `i` as there are
inodes. -/
def RoomFor (d : Disk) (i n : ℕ) : Prop :=
  min n (freeInodes d) = 0 ∨
    appendNeed (inodeAt d i) + (min n (freeInodes d) - 1) ≤ freeCount d

variable {d d' d'' : Disk} {x y : InodeDef} {i j k l n m : ℕ} {name : List UInt8}
  {q cs : List (List UInt8)} {junk : ℕ → Sector} {type : FileType} {major minor : UInt8}

/-! ## Growth -/

theorem Grown.refl (d : Disk) (i : ℕ) (names : List (List UInt8)) : Grown d i names d where
  old _ _ _ _ h := h
  kept _ _ _ := rfl
  type := rfl
  new q k l _ hn hr := by simp [hn] at hr

theorem Creation.grown_cons (h : Creation d i j name y d') (hg : Grown d' j cs d'') :
    Grown d i (name :: cs) d'' := by
  have huse : ∀ {k}, InUse d k → InUse d' k := fun hk => h.inUse_iff.mpr (.inl hk)
  have hne : ∀ {k}, InUse d k → k ≠ j := fun hk he => h.unused (he ▸ hk)
  refine ⟨fun q k l hk hr => hg.old q k l (huse hk) (h.resolve_mono hk hr), fun k hk hki => ?_, ?_,
    fun q k l hk hn hr => ?_⟩
  · rw [hg.kept k (huse hk) (hne hk), h.inodeAt_of_inUse hk hki]
  · have hi := h.isDir.inUse
    rw [hg.kept i (huse hi) (hne hi), h.type_of_ne hi.1 (hne hi)]
  · cases hmid : resolve d' q k with
    | some l' =>
      obtain ⟨rfl, q', rfl, hq'⟩ := h.resolve_cases hk hn hmid
      have hl := hg.old _ _ _ (huse hk) hmid
      obtain rfl : l' = l := by rw [hl] at hr; simpa using hr
      exact ⟨h.unused, q', [name], rfl, hq', by simp, by simp⟩
    | none =>
      obtain ⟨hl, q₁, q₂, rfl, hq₁, hq₂, hpre⟩ := hg.new q k l (huse hk) hmid hr
      refine ⟨fun hu => hl (huse hu), ?_⟩
      cases hold : resolve d q₁ k with
      | some l' =>
        -- a file that was in use cannot be the new one
        have := h.resolve_mono hk hold
        rw [hq₁] at this
        obtain rfl : j = l' := by simpa using this
        exact absurd (h.tree.inUse_of_resolve hk hold) h.unused
      | none =>
        obtain ⟨-, q', rfl, hq'⟩ := h.resolve_cases hk hold hq₁
        refine ⟨q', name :: q₂, by simp, hq', by simp, ?_⟩
        rw [List.prefix_cons_iff]
        exact .inr ⟨q₂, rfl, hpre⟩

theorem Creation.connected (h : Creation d i j name y d') (hc : Connected d) : Connected d' := by
  intro k hk
  rcases h.inUse_iff.mp hk with hk | ⟨rfl, -⟩
  · obtain ⟨q, hq⟩ := hc k hk
    exact ⟨q, h.resolve_mono h.tree.root.inUse hq⟩
  · obtain ⟨q, hq⟩ := hc i h.isDir.inUse
    exact ⟨q ++ [name], h.resolve_append_name h.tree.root.inUse hq⟩

/-! ## Detached inodes -/

namespace Detached

theorem refl (d : Disk) : Detached d d := ⟨fun _ _ => rfl, fun _ _ => rfl⟩

theorem inUse (h : Detached d d') (hk : InUse d k) : InUse d' k :=
  ⟨hk.1, by rw [h.kept k hk]; exact hk.2⟩

theorem trans (h : Detached d d') (h' : Detached d' d'') : Detached d d'' :=
  ⟨fun k hk => by rw [h'.kept k (h.inUse hk), h.kept k hk],
    fun b hb => by rw [h'.same b hb, h.same b hb]⟩

theorem setInode (hj : j < 320) (hfree : ¬ InUse d j) (y : InodeDef) :
    Detached d (setInode d j y) :=
  ⟨fun _ hk => inodeAt_setInode_of_ne fun he => hfree (he ▸ hk), fun _ hb => setInode_outside hj hb⟩

theorem entries (h : Detached d d') (ht : Tree d) (hk : IsDir d k) :
    dirEntries d' (inodeAt d k) = dirEntries d (inodeAt d k) := by
  apply dirEntries_congr
  intro p hp
  refine fileByte_kept (ht.mapped k hk) (fun b hb => h.same b (.inr ?_)) hp
  have := ((ht.mapped k hk).owns_area hb).le
  omega

/-- Inodes without a name do not show. -/
theorem resolve_eq (h : Detached d d') (ht : Tree d) (hk : InUse d k) :
    resolve d' q k = resolve d q k := by
  induction q generalizing k with
  | nil => rfl
  | cons a q ih =>
    rw [resolve, resolve, h.kept k hk]
    split
    · next htype =>
      have hdir : IsDir d k := ⟨hk.1, htype⟩
      rw [h.entries ht hdir]
      cases hl : (dirEntries d (inodeAt d k)).lookup a with
      | none => rfl
      | some m => exact ih (ht.inUse_of_lookup hdir hl)
    · rfl

theorem grown (h : Detached d d') (ht : Tree d) (hi : InUse d i) (names : List (List UInt8)) :
    Grown d i names d' where
  old q k l hk hr := by rwa [h.resolve_eq ht hk]
  kept k hk _ := h.kept k hk
  type := by rw [h.kept i hi]
  new q k l hk hn hr := by
    rw [h.resolve_eq ht hk, hn] at hr
    simp at hr

end Detached

/-! ## One level -/

theorem toNat_newInode (hj : j < 320) : (newInode j type major minor).inode_index.toNat = j := by
  rw [newInode, UInt32.toNat_ofNat', Nat.mod_eq_of_lt (by omega)]

theorem empty_newInode (hj : j < 320) : Empty (newInode j type major minor) j :=
  ⟨toNat_newInode hj, rfl, by simp [newInode, InodeDef.addrAt], rfl⟩

theorem run_createFrom_nil : (createFrom junk type major minor l i x []).run d = (.ok (some x), d) :=
  rfl

theorem resolve_singleton (hi : IsDir d i) :
    resolve d [name] i = (dirEntries d (inodeAt d i)).lookup name := by
  rw [resolve, if_pos hi.2]
  cases (dirEntries d (inodeAt d i)).lookup name <;> rfl

/-- A level that exists. -/
theorem run_createFrom_existing (hw : Walkable d) (hi : i < 320) (hr : resolve d [name] i = some k) :
    (createFrom junk type major minor l i x (name :: cs)).run d =
      if cs = [] ∧ (inodeAt d k).type ≠ type then (.ok none, d)
      else (createFrom junk type major minor (l + 1) k (inodeAt d k) cs).run d := by
  rw [createFrom]
  simp only [run_bind, hw.run_openImpl hi, hr, Option.map_some]
  split <;> rfl

/-- A level that does not exist. -/
theorem run_createFrom_missing (hw : Walkable d) (hi : i < 320) (hr : resolve d [name] i = none) :
    (createFrom junk type major minor l i x (name :: cs)).run d =
      match (createImpl (junk l) i (if cs = [] then type else .directory) name major minor).run d with
      | (.ok (false, _), e) => (.ok none, e)
      | (.ok (true, y), e) => (createFrom junk type major minor (l + 1) y.inode_index.toNat y cs).run e
      | (.error f, e) => (.error f, e) := by
  rw [createFrom]
  simp only [run_bind, hw.run_openImpl hi, hr, Option.map_none]
  rcases (createImpl (junk l) i (if cs = [] then type else .directory) name major minor).run d with
    ⟨_ | ⟨_ | _, y⟩, e⟩ <;> rfl

theorem Walkable.setInode_empty (hw : Walkable d) (hj : j < 320) (hy : Empty y j) :
    Walkable (setInode d j y) := by
  have hout : ∀ b, b = 0 ∨ 41 ≤ b → setInode d j y b = d b := fun b hb => setInode_outside hj hb
  have hdir : ∀ k, IsDir (setInode d j y) k → k ≠ j →
      IsDir d k ∧ inodeAt (setInode d j y) k = inodeAt d k := by
    intro k hk hne
    have he : inodeAt (setInode d j y) k = inodeAt d k := inodeAt_setInode_of_ne hne
    exact ⟨⟨hk.1, by rw [← he]; exact hk.2⟩, he⟩
  have hbytes : ∀ k, IsDir d k → ∀ p < (inodeAt d k).size.toNat,
      fileByte (setInode d j y) (inodeAt d k) p = fileByte d (inodeAt d k) p := by
    intro k hk p hp
    refine fileByte_kept (hw.mapped k hk) (fun b hb => hout b (.inr ?_)) hp
    have := ((hw.mapped k hk).owns_area hb).le
    omega
  have hmk : ∀ c, Marked d c → Marked (setInode d j y) c := fun c hc =>
    (marked_congr (hout 41 (.inr le_rfl))).mpr hc
  refine ⟨fun k hk => ?_, fun k hk => ?_, fun k hk => ?_, fun k hk e he => ?_⟩ <;> by_cases hkj : k = j
  · rw [hkj, inodeAt_setInode_self, hy.fileBlocks_eq]
    exact hy.mapped _
  · obtain ⟨hk, he⟩ := hdir k hk hkj
    rw [he]
    refine (hw.mapped k hk).congr (hout 0 (.inl rfl)) hmk fun hz => hout _ (.inr ?_)
    have := ((hw.mapped k hk).indirect_area hz).le
    omega
  · rw [hkj, inodeAt_setInode_self]
    have hz := hy.size
    exact ⟨by omega, fun l hl => by omega⟩
  · obtain ⟨hk, he⟩ := hdir k hk hkj
    rw [he]
    exact (hw.dir k hk).congr (hbytes k hk)
  · rw [hkj, inodeAt_setInode_self, hy.size]
    omega
  · obtain ⟨hk, he⟩ := hdir k hk hkj
    rw [he]
    exact hw.size_le k hk
  · rw [hkj, inodeAt_setInode_self, dirEntries, hy.size] at he
    simp at he
  · obtain ⟨hk, hx⟩ := hdir k hk hkj
    rw [hx, dirEntries_congr (hbytes k hk)] at he
    exact hw.lt k hk e he

/-! ## Levels below an inode without a name -/

theorem Empty.appendable (hf : Formatted d) (hi : IsDir d i) (he : Empty (inodeAt d i) i) :
    Appendable d i where
  formatted := hf
  isDir := hi
  index := he.index
  mapped := by rw [he.fileBlocks_eq]; exact he.mapped d
  vacant := by rw [he.fileBlocks_eq]; exact he.vacant d
  dirOk := ⟨by rw [he.size], fun k hk => by rw [he.size] at hk; omega⟩
  size_le := by rw [he.size]; omega

theorem Empty.appendNeed_eq (he : Empty x i) : appendNeed x = 1 := by
  rw [appendNeed, he.size]; rfl

theorem Empty.resolve_eq_none (he : Empty (inodeAt d i) i) : resolve d (name :: cs) i = none := by
  rw [resolve, dirEntries, he.size]
  split <;> rfl

/-- On a full disk the levels below an empty directory are made and not named. -/
theorem run_createFrom_detached (junk : ℕ → Sector) (type : FileType) (major minor : UInt8) (l : ℕ)
    (x : InodeDef) (hf : Formatted d) (hw : Walkable d) (hi : IsDir d i)
    (he : Empty (inodeAt d i) i) (hfree : freeCount d = 0) (hnames : ∀ a ∈ cs, IsName a) :
    ∃ r d', (createFrom junk type major minor l i x cs).run d = (.ok r, d') ∧ Detached d d' ∧
      Walkable d' := by
  induction cs generalizing d i l x with
  | nil => exact ⟨_, _, run_createFrom_nil, .refl d, hw⟩
  | cons a cs ih =>
    have hlen := (hnames a (by simp)).2
    rw [run_createFrom_missing hw hi.1 he.resolve_eq_none]
    cases hn : nextInode d with
    | none =>
      rw [run_createImpl_no_inode (he.appendable hf hi) hn hlen]
      exact ⟨_, _, rfl, .refl d, hw⟩
    | some j =>
      obtain ⟨hj, hun⟩ := of_nextInode hn
      rw [run_createImpl_no_block (he.appendable hf hi) hn hlen (by rw [he.appendNeed_eq]; omega)]
      simp only [toNat_newInode hj]
      have hy : Empty (newInode j (if cs = [] then type else .directory) major minor) j :=
        empty_newInode hj
      have hdet := Detached.setInode hj hun
        (newInode j (if cs = [] then type else .directory) major minor)
      have hw' := hw.setInode_empty hj hy
      cases cs with
      | nil => exact ⟨_, _, run_createFrom_nil, hdet, hw'⟩
      | cons b cs =>
        obtain ⟨r, d', hrun, hdet', hwd⟩ := ih (i := j) (l + 1)
          (newInode j .directory major minor)
          (hf.congr (hdet.same 0 (.inl rfl))) hw' ⟨hj, by rw [inodeAt_setInode_self]; rfl⟩
          (by rw [inodeAt_setInode_self]; exact empty_newInode hj)
          (by rw [freeCount_congr (hdet.same 0 (.inl rfl)) (hdet.same 41 (.inr le_rfl)), hfree])
          fun c hc => hnames c (List.mem_cons_of_mem _ hc)
        exact ⟨r, d', hrun, hdet.trans hdet', hwd⟩

/-! ## The levels that do not exist -/

/-- After one level there is room for the others as there was before. -/
theorem Creation.roomFor_iff (h : Creation d i j name y d') (hy : y.type ≠ .none)
    (hn : appendNeed (inodeAt d i) ≤ freeCount d) (n : ℕ) :
    RoomFor d' j n ↔ RoomFor d i (n + 1) := by
  have hinodes := h.freeInodes_eq hy
  have hfree := h.free
  have hneed : appendNeed (inodeAt d' j) = 1 := by rw [h.record]; exact h.empty.appendNeed_eq
  unfold RoomFor
  omega

section Level

variable (h : FsTree d) (hi : IsDir d i) (hfresh : (dirEntries d (inodeAt d i)).lookup name = none)
  (hname : IsName name)

include h hi hfresh hname

theorem run_createFrom_no_inode (hn : nextInode d = none) :
    (createFrom junk type major minor l i x (name :: cs)).run d = (.ok none, d) := by
  have hr : resolve d [name] i = none := by rw [resolve_singleton hi, hfresh]
  rw [run_createFrom_missing h.tree.walkable hi.1 hr,
    run_createImpl_no_inode (h.appendable hi) hn hname.2]

/-- Without a block for the entry `Create` goes on below an inode without a name. -/
theorem run_createFrom_no_block (hn : nextInode d = some j)
    (hlt : freeCount d < appendNeed (inodeAt d i)) :
    (createFrom junk type major minor l i x (name :: cs)).run d =
      (createFrom junk type major minor (l + 1) j
        (newInode j (if cs = [] then type else .directory) major minor) cs).run
        (setInode d j (newInode j (if cs = [] then type else .directory) major minor)) := by
  have hr : resolve d [name] i = none := by rw [resolve_singleton hi, hfresh]
  rw [run_createFrom_missing h.tree.walkable hi.1 hr,
    run_createImpl_no_block (h.appendable hi) hn hname.2 hlt]
  simp only [toNat_newInode (of_nextInode hn).1]

theorem run_createFrom_named (hn : nextInode d = some j)
    (hle : appendNeed (inodeAt d i) ≤ freeCount d) (cs : List (List UInt8)) (type : FileType)
    (major minor : UInt8) :
    ∃ d₁, Creation d i j name (newInode j (if cs = [] then type else .directory) major minor) d₁ ∧
      ∀ junk l x, (createFrom junk type major minor l i x (name :: cs)).run d =
        (createFrom junk type major minor (l + 1) j
          (newInode j (if cs = [] then type else .directory) major minor) cs).run d₁ := by
  have hr : resolve d [name] i = none := by rw [resolve_singleton hi, hfresh]
  obtain ⟨d₁, hrun, hc⟩ := run_createImpl (h.appendable hi) hn hname.1 hname.2 hle
  refine ⟨d₁, h.creation hi hn (empty_newInode (of_nextInode hn).1) hfresh hc, fun junk l x => ?_⟩
  rw [run_createFrom_missing h.tree.walkable hi.1 hr, hrun]
  simp only [toNat_newInode (of_nextInode hn).1]

end Level

/-- With room for the entries the levels are made and named, as long as there are inodes. -/
theorem run_createFrom_room (junk : ℕ → Sector) (type : FileType) (major minor : UInt8) (l : ℕ)
    (x : InodeDef) (h : FsTree d) (hi : IsDir d i)
    (hfresh : (dirEntries d (inodeAt d i)).lookup name = none) (hnames : ∀ a ∈ name :: cs, IsName a)
    (hroom : RoomFor d i (cs.length + 1)) :
    ∃ r d', (createFrom junk type major minor l i x (name :: cs)).run d = (.ok r, d') ∧
      Walkable d' ∧ Grown d i (name :: cs) d' ∧ (Connected d → Connected d') ∧
      (freeInodes d < cs.length + 1 → r = none) ∧
      (cs.length + 1 ≤ freeInodes d → ∃ j, r = some (newInode j type major minor) ∧
        j < 320 ∧ ¬ InUse d j ∧ inodeAt d' j = newInode j type major minor ∧
        resolve d' (name :: cs) i = some j) := by
  induction cs generalizing d i l x name with
  | nil =>
    have hname := hnames name (by simp)
    cases hn : nextInode d with
    | none =>
      have hz := freeInodes_eq_zero_iff.mpr hn
      rw [run_createFrom_no_inode h hi hfresh hname hn]
      exact ⟨_, _, rfl, h.tree.walkable, .refl _ _ _, id, fun _ => rfl, fun hle => by simp [hz] at hle⟩
    | some j =>
      have hpos : freeInodes d ≠ 0 := by simp [freeInodes_eq_zero_iff, hn]
      have hle : appendNeed (inodeAt d i) ≤ freeCount d := by
        rw [RoomFor, List.length_nil] at hroom
        omega
      obtain ⟨d₁, hc, hrun⟩ := run_createFrom_named h hi hfresh hname hn hle [] type major minor
      rw [hrun, run_createFrom_nil]
      refine ⟨_, _, rfl, hc.walkable, hc.grown_cons (.refl _ _ _), hc.connected, fun hlt => ?_, fun _ =>
        ⟨j, rfl, hc.lt, hc.unused, hc.record, hc.resolve_append_name (q := []) hi.inUse rfl⟩⟩
      simp only [List.length_nil] at hlt
      omega
  | cons a cs ih =>
    have hname := hnames name (by simp)
    cases hn : nextInode d with
    | none =>
      have hz := freeInodes_eq_zero_iff.mpr hn
      rw [run_createFrom_no_inode h hi hfresh hname hn]
      exact ⟨_, _, rfl, h.tree.walkable, .refl _ _ _, id, fun _ => rfl, fun hle => by simp [hz] at hle⟩
    | some j =>
      have hpos : freeInodes d ≠ 0 := by simp [freeInodes_eq_zero_iff, hn]
      have hle : appendNeed (inodeAt d i) ≤ freeCount d := by
        rw [RoomFor, List.length_cons] at hroom
        omega
      obtain ⟨d₁, hc, hrun⟩ := run_createFrom_named h hi hfresh hname hn hle (a :: cs) type major minor
      have hdir : (newInode j FileType.directory major minor).type ≠ .none := by simp [newInode]
      have hinodes := hc.freeInodes_eq hdir
      have hj : IsDir d₁ j := ⟨hc.lt, by rw [hc.record]; rfl⟩
      have hnone : (dirEntries d₁ (inodeAt d₁ j)).lookup a = none := by rw [hc.entries_new]; rfl
      obtain ⟨r, d', hrun', hw, hg, hcon, hfew, hall⟩ := ih (l + 1)
        (newInode j FileType.directory major minor) (h.created hc hdir) hj hnone
        (fun b hb => hnames b (List.mem_cons_of_mem _ hb)) ((hc.roomFor_iff hdir hle _).mpr hroom)
      refine ⟨r, d', by rw [hrun]; exact hrun', hw, hc.grown_cons hg, fun hd => hcon (hc.connected hd),
        fun hlt => hfew (by simp only [List.length_cons] at hlt; omega), fun hge => ?_⟩
      obtain ⟨k, hr, hk, hun, hrec, hres⟩ := hall (by simp only [List.length_cons] at hge; omega)
      refine ⟨k, hr, hk, fun hu => hun (hc.inUse_iff.mpr (.inl hu)), hrec, ?_⟩
      have hstep := hg.old [name] i j (hc.inUse_iff.mpr (.inl hi.inUse))
        (hc.resolve_append_name (q := []) hi.inUse rfl)
      rw [← List.singleton_append, resolve_append, hstep]
      exact hres

/-- Without room for the entries the path does not resolve afterwards. If `Create` returns false all
the same, then an inode without a path is left. -/
theorem run_createFrom_no_room (h : FsTree d) (hi : IsDir d i)
    (hfresh : (dirEntries d (inodeAt d i)).lookup name = none) (hnames : ∀ a ∈ name :: cs, IsName a)
    (hroom : ¬ RoomFor d i (cs.length + 1)) :
    ∃ r d', (createFrom junk type major minor l i x (name :: cs)).run d = (.ok r, d') ∧
      Walkable d' ∧ Grown d i (name :: cs) d' ∧ resolve d' (name :: cs) i = none ∧
      (r = none → ∃ j, InUse d' j ∧ ∀ q, resolve d' q 0 ≠ some j) := by
  induction cs generalizing d i l x name with
  | nil =>
    have hname := hnames name (by simp)
    obtain ⟨j, hn⟩ : ∃ j, nextInode d = some j := by
      rw [← Option.ne_none_iff_exists', ne_eq, ← freeInodes_eq_zero_iff]
      intro hz
      exact hroom (.inl (by rw [hz]; omega))
    have hj := of_nextInode hn
    have hlt : freeCount d < appendNeed (inodeAt d i) := by
      rw [RoomFor, List.length_nil] at hroom
      omega
    rw [run_createFrom_no_block h hi hfresh hname hn hlt, run_createFrom_nil]
    have hdet := Detached.setInode hj.1 hj.2 (newInode j type major minor)
    refine ⟨_, _, rfl, h.tree.walkable.setInode_empty hj.1 (empty_newInode hj.1),
      hdet.grown h.tree hi.inUse _, ?_, fun hr => by simp at hr⟩
    exact (hdet.resolve_eq h.tree hi.inUse).trans (by rw [resolve_singleton hi, hfresh])
  | cons a cs ih =>
    have hname := hnames name (by simp)
    obtain ⟨j, hn⟩ : ∃ j, nextInode d = some j := by
      rw [← Option.ne_none_iff_exists', ne_eq, ← freeInodes_eq_zero_iff]
      intro hz
      exact hroom (.inl (by rw [hz]; omega))
    have hj := of_nextInode hn
    have hrest : ∀ b ∈ a :: cs, IsName b := fun b hb => hnames b (List.mem_cons_of_mem _ hb)
    have hdir : (newInode j FileType.directory major minor).type ≠ .none := by simp [newInode]
    by_cases hlt : freeCount d < appendNeed (inodeAt d i)
    · -- the entry of this level finds no block
      rw [run_createFrom_no_block h hi hfresh hname hn hlt, if_neg (by simp)]
      have hdet := Detached.setInode hj.1 hj.2 (newInode j .directory major minor)
      have hz : freeCount d = 0 := by
        unfold appendNeed at hlt
        split at hlt <;> omega
      have hrec := inodeAt_setInode_self d j (newInode j .directory major minor)
      have hjd : IsDir (setInode d j (newInode j .directory major minor)) j :=
        ⟨hj.1, by rw [hrec]; rfl⟩
      obtain ⟨r, d', hrun, hdet', hw⟩ := run_createFrom_detached junk type major minor (l + 1)
        (newInode j .directory major minor) (h.wf.formatted.congr (hdet.same 0 (.inl rfl)))
        (h.tree.walkable.setInode_empty hj.1 (empty_newInode hj.1)) hjd
        (by rw [hrec]; exact empty_newInode hj.1)
        (by rw [freeCount_congr (hdet.same 0 (.inl rfl)) (hdet.same 41 (.inr le_rfl)), hz]) hrest
      have hall := hdet.trans hdet'
      refine ⟨r, d', hrun, hw, hall.grown h.tree hi.inUse _, ?_, fun _ => ⟨j, hdet'.inUse hjd.inUse,
        fun q hq => ?_⟩⟩
      · rw [hall.resolve_eq h.tree hi.inUse, resolve, if_pos hi.2, hfresh]
        rfl
      · rw [hall.resolve_eq h.tree h.tree.root.inUse] at hq
        exact hj.2 (h.tree.inUse_of_resolve h.tree.root.inUse hq)
    · -- a level below finds none
      obtain ⟨d₁, hc, hrun⟩ := run_createFrom_named h hi hfresh hname hn (by omega) (a :: cs) type
        major minor
      have hjd : IsDir d₁ j := ⟨hc.lt, by rw [hc.record]; rfl⟩
      have hnone : (dirEntries d₁ (inodeAt d₁ j)).lookup a = none := by rw [hc.entries_new]; rfl
      obtain ⟨r, d', hrun', hw, hg, hres, horphan⟩ := ih (l := l + 1)
        (x := newInode j .directory major minor) (h.created hc hdir) hjd hnone hrest
        fun hr => hroom ((hc.roomFor_iff hdir (by omega) _).mp hr)
      refine ⟨r, d', by rw [hrun]; exact hrun', hw, hc.grown_cons hg, ?_, horphan⟩
      have hstep := hg.old [name] i j (hc.inUse_iff.mpr (.inl hi.inUse))
        (hc.resolve_append_name (q := []) hi.inUse rfl)
      rw [← List.singleton_append, resolve_append, hstep]
      exact hres

end OrangeOs.Fs
