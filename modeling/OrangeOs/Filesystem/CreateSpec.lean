import OrangeOs.Filesystem.Path

/-! # What `Create` promises

With room for every level, `Create` extends the name space by exactly the requested path. In general
its result can be relied on exactly when there is a component to create and the entries of the new
levels find blocks.
-/

namespace OrangeOs.Fs

open Prog

/-- The levels that a path lacks find blocks for their entries. -/
def RoomAlong (d : Disk) : ℕ → List (List UInt8) → Prop
  | _, [] => True
  | i, name :: cs => (inodeAt d i).type = .directory →
    match (dirEntries d (inodeAt d i)).lookup name with
    | some k => RoomAlong d k cs
    | none => RoomFor d i (cs.length + 1)

/-- The path is rejected, or it has components and there is room along them. -/
def CreatesCleanly (d : Disk) (current_path : List UInt8) (path_name : Option CString) : Prop :=
  match parsePath current_path path_name .zero with
  | .error _ => False
  | .ok (path_level, paths) =>
    path_level < 0 ∨ 0 < path_level ∧ RoomAlong d 0 (paths.rows path_level.toNat)

/-- `Create` returns. If it returns true, then the path opens to the inode it stored, of the
requested type. No inode in use is left without a path. -/
def Truthful (d : Disk) (junk : ℕ → Sector) (current_path : List UInt8) (path_name : Option CString)
    (type : FileType) (major minor : UInt8) : Prop :=
  ∃ r d', (create junk current_path path_name type major minor).run d = (.ok r, d') ∧
    (∀ x, r = some x → x.type = type ∧
      ∃ i, (openPath current_path path_name).run d' = (.ok (some (i, x)), d')) ∧
    Connected d'

variable {d d' : Disk} {x y : InodeDef} {i j k l : ℕ} {name cwd : List UInt8}
  {cs pre rows : List (List UInt8)} {junk : ℕ → Sector} {type : FileType} {major minor : UInt8}
  {path : Option CString} {level : ℤ} {tbl : PathTable}

/-! ## Opening and creating by path -/

theorem run_openPath (hw : Walkable d) (hp : parsePath cwd path .zero = .ok (level, tbl))
    (hl : 0 ≤ level) : (openPath cwd path).run d =
      (.ok ((resolve d (tbl.rows level.toNat) 0).map fun j => (j, inodeAt d j)), d) := by
  unfold openPath
  simp only [hp, if_neg (not_lt.mpr hl), ROOT_INODE]
  exact hw.run_openImpl (by omega) _

/-- Opening a file writes nothing. -/
theorem readOnly_iteratorDirFrom (x : InodeDef) (name : List UInt8) (o : ℕ) :
    (iteratorDirFrom x name o).ReadOnly := by
  induction hm : x.size.toNat - o using Nat.strong_induction_on generalizing o with
  | _ m ih =>
  subst hm
  rw [iteratorDirFrom]
  split
  · dsimp only
    split
    · split
      · trivial
      · refine (ReadOnly.readSector _).bind fun s => ?_
        split
        · trivial
        · trivial
        · exact ih _ (by simp only [BLOCK_SIZE]; omega) _ rfl
    · trivial
  · trivial

theorem readOnly_getInode (i : ℕ) : (getInode i).ReadOnly :=
  (ReadOnly.readSector _).bind fun _ => trivial

theorem readOnly_openImpl (paths : List (List UInt8)) (i : ℕ) : (openImpl paths i).ReadOnly := by
  induction paths generalizing i with
  | nil => exact (readOnly_getInode i).bind fun _ => trivial
  | cons name paths ih =>
    refine (readOnly_getInode i).bind fun x => ?_
    split
    · trivial
    · refine (readOnly_iteratorDirFrom x name 0).bind fun r => ?_
      split
      · trivial
      · exact ih _

theorem readOnly_openPath (cwd : List UInt8) (path : Option CString) :
    (openPath cwd path).ReadOnly := by
  unfold openPath
  split
  · trivial
  · split
    · trivial
    · exact readOnly_openImpl _ _

/-- A path that opens has a walk. -/
theorem of_openPath_some (hw : Walkable d)
    (h : (openPath cwd path).run d = (.ok (some (k, y)), d)) :
    ∃ level tbl, parsePath cwd path .zero = .ok (level, tbl) ∧ 0 ≤ level ∧
      resolve d (tbl.rows level.toNat) 0 = some k ∧ inodeAt d k = y := by
  rcases hp : parsePath cwd path .zero with f | ⟨level, tbl⟩
  · simp [openPath, hp] at h
  · by_cases hl : level < 0
    · simp [openPath, hp, hl] at h
    rw [run_openPath hw hp (not_lt.mp hl)] at h
    cases hr : resolve d (tbl.rows level.toNat) 0 with
    | none => simp [hr] at h
    | some j =>
      simp only [hr, Option.map_some, Prod.mk.injEq, Except.ok.injEq, Option.some.injEq,
        and_true] at h
      obtain ⟨rfl, rfl⟩ := h
      exact ⟨level, tbl, rfl, not_lt.mp hl, hr, rfl⟩

/-- A path that does not open is rejected or has no walk. -/
theorem of_openPath_none (hw : Walkable d) (h : (openPath cwd path).run d = (.ok none, d)) :
    ∃ level tbl, parsePath cwd path .zero = .ok (level, tbl) ∧
      (0 ≤ level → resolve d (tbl.rows level.toNat) 0 = none) := by
  rcases hp : parsePath cwd path .zero with f | ⟨level, tbl⟩
  · simp [openPath, hp] at h
  · refine ⟨level, tbl, rfl, fun hl => ?_⟩
    rw [run_openPath hw hp hl] at h
    simpa using h

theorem run_create (hp : parsePath cwd path .zero = .ok (level, tbl)) (hl : 0 ≤ level) :
    (create junk cwd path type major minor).run d =
      (createFrom junk type major minor 0 0 {} (tbl.rows level.toNat)).run d := by
  unfold create
  simp only [hp, if_neg (not_lt.mpr hl), ROOT_INODE]

/-! ## When the result can be relied on -/

theorem run_createFrom_not_dir (hw : Walkable d) (hi : i < 320)
    (ht : (inodeAt d i).type ≠ .directory) (hname : IsName name) :
    (createFrom junk type major minor l i x (name :: cs)).run d = (.ok none, d) := by
  have hr : resolve d [name] i = none := by rw [resolve, if_neg ht]
  rw [run_createFrom_missing hw hi hr, run_createImpl_not_dir hi ht hname.2]

/-- From the first level that does not exist the result can be relied on exactly with room for the
entries. -/
theorem run_createFrom_truth_missing (h : FsTree d) (hcon : Connected d) (hi : IsDir d i)
    (hpre : resolve d pre 0 = some i)
    (hfresh : (dirEntries d (inodeAt d i)).lookup name = none)
    (hnames : ∀ a ∈ name :: cs, IsName a) :
    ∃ r d', (createFrom junk type major minor l i x (name :: cs)).run d = (.ok r, d') ∧
      Walkable d' ∧ (RoomFor d i (cs.length + 1) ↔ (∀ y, r = some y → y.type = type ∧
        ∃ j, resolve d' (pre ++ name :: cs) 0 = some j ∧ inodeAt d' j = y) ∧ Connected d') := by
  have hroot := h.tree.root.inUse
  by_cases hroom : RoomFor d i (cs.length + 1)
  · obtain ⟨r, d', hrun, hw, hg, hc, hfew, hall⟩ :=
      run_createFrom_room junk type major minor l x h hi hfresh hnames hroom
    refine ⟨r, d', hrun, hw, iff_of_true hroom ⟨fun y hy => ?_, hc hcon⟩⟩
    rcases Nat.lt_or_ge (freeInodes d) (cs.length + 1) with hlt | hge
    · rw [hfew hlt] at hy
      simp at hy
    · obtain ⟨j, hr, -, -, hrec, hres⟩ := hall hge
      obtain rfl : newInode j type major minor = y := by rw [hr] at hy; simpa using hy
      refine ⟨rfl, j, ?_, hrec⟩
      rw [resolve_append, hg.old _ _ _ hroot hpre]
      exact hres
  · obtain ⟨r, d', hrun, hw, hg, hres, horphan⟩ :=
      run_createFrom_no_room h hi hfresh hnames hroom
    refine ⟨r, d', hrun, hw, iff_of_false hroom ?_⟩
    rintro ⟨htrue, hc⟩
    cases r with
    | none =>
      obtain ⟨j, hj, hno⟩ := horphan rfl
      obtain ⟨q, hq⟩ := hc j hj
      exact hno q hq
    | some y =>
      obtain ⟨-, j, hj, -⟩ := htrue y rfl
      rw [resolve_append, hg.old _ _ _ hroot hpre] at hj
      simp [hres] at hj

theorem run_createFrom_truth (junk : ℕ → Sector) (type : FileType) (major minor : UInt8) (l : ℕ)
    (x : InodeDef) (h : FsTree d) (hcon : Connected d) (hi : InUse d i)
    (hpre : resolve d pre 0 = some i) (hnames : ∀ a ∈ name :: cs, IsName a) :
    ∃ r d', (createFrom junk type major minor l i x (name :: cs)).run d = (.ok r, d') ∧
      Walkable d' ∧ (RoomAlong d i (name :: cs) ↔ (∀ y, r = some y → y.type = type ∧
        ∃ j, resolve d' (pre ++ name :: cs) 0 = some j ∧ inodeAt d' j = y) ∧ Connected d') := by
  have hwalk := h.tree.walkable
  induction cs generalizing i l x name pre with
  | nil =>
    by_cases ht : (inodeAt d i).type = .directory
    · have hdir : IsDir d i := ⟨hi.1, ht⟩
      cases hl : (dirEntries d (inodeAt d i)).lookup name with
      | none =>
        simp only [RoomAlong, ht, hl, forall_const]
        exact run_createFrom_truth_missing h hcon hdir hpre hl hnames
      | some k =>
        have hr : resolve d [name] i = some k := by rw [resolve_singleton hdir, hl]
        simp only [RoomAlong, ht, hl, forall_const, true_iff]
        rw [run_createFrom_existing hwalk hi.1 hr, run_createFrom_nil]
        by_cases hty : (inodeAt d k).type = type
        · refine ⟨some (inodeAt d k), d, if_neg (by simp [hty]), hwalk, fun y hy => ?_, hcon⟩
          obtain rfl : inodeAt d k = y := by simpa using hy
          exact ⟨hty, k, by rw [resolve_append, hpre]; exact hr, rfl⟩
        · exact ⟨none, d, if_pos ⟨rfl, hty⟩, hwalk, fun y hy => by simp at hy, hcon⟩
    · rw [run_createFrom_not_dir hwalk hi.1 ht (hnames name (by simp))]
      exact ⟨none, d, rfl, hwalk, iff_of_true (fun h => absurd h ht) ⟨fun y hy => by simp at hy, hcon⟩⟩
  | cons a cs ih =>
    by_cases ht : (inodeAt d i).type = .directory
    · have hdir : IsDir d i := ⟨hi.1, ht⟩
      cases hl : (dirEntries d (inodeAt d i)).lookup name with
      | none =>
        rw [RoomAlong]
        simp only [ht, hl, forall_const]
        exact run_createFrom_truth_missing h hcon hdir hpre hl hnames
      | some k =>
        have hr : resolve d [name] i = some k := by rw [resolve_singleton hdir, hl]
        rw [run_createFrom_existing hwalk hi.1 hr, if_neg (by simp), RoomAlong]
        simp only [ht, hl, forall_const]
        have hpre' : resolve d (pre ++ [name]) 0 = some k := by
          rw [resolve_append, hpre]
          exact hr
        have := ih (l + 1) (inodeAt d k) (h.tree.inUse_of_lookup hdir hl) hpre'
          fun b hb => hnames b (List.mem_cons_of_mem _ hb)
        simpa using this
    · rw [run_createFrom_not_dir hwalk hi.1 ht (hnames name (by simp))]
      exact ⟨none, d, rfl, hwalk, iff_of_true (fun h => absurd h ht) ⟨fun y hy => by simp at hy, hcon⟩⟩

/-- The result of `Create` can be relied on exactly when the path is rejected, or has components
and room along them. -/
theorem create_truthful_iff (h : FsTree d) (hcon : Connected d) (junk : ℕ → Sector)
    (cwd : List UInt8) (path : Option CString) (type : FileType) (major minor : UInt8) :
    Truthful d junk cwd path type major minor ↔ CreatesCleanly d cwd path := by
  unfold Truthful CreatesCleanly
  rcases hp : parsePath cwd path .zero with f | ⟨level, tbl⟩
  · have hrun : (create junk cwd path type major minor).run d = (.error f, d) := by
      unfold create
      simp only [hp, run_fail]
    simp [hrun]
  · by_cases hl : level < 0
    · have hrun : (create junk cwd path type major minor).run d = (.ok none, d) := by
        unfold create
        simp only [hp, if_pos hl, run_pure]
      simp only [hl, true_or, iff_true]
      exact ⟨none, d, hrun, fun x hx => by simp at hx, hcon⟩
    have hl := not_lt.mp hl
    rw [run_create hp hl]
    have hopen : ∀ {e : Disk} {y : InodeDef}, Walkable e →
        ((∃ j, (openPath cwd path).run e = (.ok (some (j, y)), e)) ↔
          ∃ j, resolve e (tbl.rows level.toNat) 0 = some j ∧ inodeAt e j = y) := by
      intro e y hw
      simp only [run_openPath hw hp hl]
      refine exists_congr fun j => ?_
      cases resolve e (tbl.rows level.toNat) 0 with
      | none => simp
      | some k =>
        simp only [Option.map_some, Prod.mk.injEq, Except.ok.injEq, Option.some.injEq, and_true]
        exact ⟨fun ⟨hk, hy⟩ => ⟨hk, hk ▸ hy⟩, fun ⟨hk, hy⟩ => ⟨hk, hk ▸ hy⟩⟩
    cases hrows : tbl.rows level.toNat with
    | nil =>
      have hz : level = 0 := by
        have := congrArg List.length hrows
        simp only [PathTable.rows, List.length_map, List.length_range, List.length_nil] at this
        omega
      simp only [hz, run_createFrom_nil, lt_irrefl, false_and, or_false, iff_false]
      rintro ⟨r, d', he, htrue, -⟩
      obtain ⟨rfl, rfl⟩ : some {} = r ∧ d = d' := by simpa using he
      obtain ⟨-, hex⟩ := htrue _ rfl
      obtain ⟨j, hj, hroot⟩ := (hopen h.tree.walkable).mp hex
      rw [hrows] at hj
      obtain rfl : 0 = j := by simpa [resolve] using hj
      have := h.tree.root.2
      rw [hroot] at this
      simp at this
    | cons name cs =>
      have hpos : 0 < level := by
        have := congrArg List.length hrows
        simp only [PathTable.rows, List.length_map, List.length_range, List.length_cons] at this
        omega
      obtain ⟨r, d', hrun, hw, hiff⟩ := run_createFrom_truth junk type major minor 0 {} h hcon
        h.tree.root.inUse (show resolve d [] 0 = some 0 from rfl) (hrows ▸ isName_of_mem_rows hp)
      rw [List.nil_append, ← hrows] at hiff
      simp only [hpos, true_and, or_iff_right (not_lt.mpr hl), hiff]
      constructor
      · rintro ⟨r₁, d₁, he, htrue, hc⟩
        obtain ⟨rfl, rfl⟩ : r = r₁ ∧ d' = d₁ := by
          rw [hrun] at he
          simpa using he
        exact ⟨fun y hy => ⟨(htrue y hy).1, (hopen hw).mp (htrue y hy).2⟩, hc⟩
      · rintro ⟨htrue, hc⟩
        exact ⟨r, d', hrun, fun y hy => ⟨(htrue y hy).1, (hopen hw).mpr (htrue y hy).2⟩, hc⟩

/-! ## Disks with an empty root directory -/

/-- A disk on which an empty root directory is the only file. -/
theorem fsTree_of_root (hw : WellFormed d) (hroot : IsDir d 0)
    (hsize : (inodeAt d 0).size.toNat = 0) (honly : ∀ j, InUse d j → j = 0) :
    FsTree d ∧ Connected d := by
  have hzero : ∀ j, IsDir d j → (inodeAt d j).size.toNat = 0 := fun j hj => by
    rw [honly j hj.inUse, hsize]
  have hent : ∀ j, IsDir d j → dirEntries d (inodeAt d j) = [] := fun j hj => by
    rw [dirEntries, hzero j hj]
    rfl
  refine ⟨⟨hw, ⟨hroot, fun j hj => ?_, fun j hj => ?_, fun j hj => ?_, fun j hj e he => ?_,
    fun j k hj hk l hl => ?_⟩⟩, fun j hj => ⟨[], by rw [honly j hj]; rfl⟩⟩
  · exact hw.mapped j hj.inUse
  · have := hzero j hj
    exact ⟨by omega, fun k hk => by omega⟩
  · simp [hent j hj]
  · simp [hent j hj] at he
  · have := hzero j hj
    omega

section Root

variable {n : ℕ}

theorem inUse_rootDisk (hj : InUse (rootDisk n) j) : j = 0 := by
  by_contra hne
  have := hj.2
  rw [rootDisk, inodeAt_setInode_of_ne hne, type_blank] at this
  exact this rfl

theorem fsTree_rootDisk (hn : n + 42 < 2 ^ 32) :
    FsTree (rootDisk n) ∧ Connected (rootDisk n) :=
  fsTree_of_root (wellFormed_rootDisk hn) ⟨by omega, by rw [inodeAt_rootDisk]⟩
    (by rw [inodeAt_rootDisk]; rfl) fun _ hj => inUse_rootDisk hj

theorem freeInodes_rootDisk : freeInodes (rootDisk n) = 319 := by
  have hset : (Finset.range 320).filter (fun j => (inodeAt (rootDisk n) j).type = .none) =
      Finset.Ico 1 320 := by
    ext j
    simp only [Finset.mem_filter, Finset.mem_range, Finset.mem_Ico]
    by_cases hj : j = 0
    · subst hj
      simp [inodeAt_rootDisk]
    · rw [rootDisk, inodeAt_setInode_of_ne hj]
      simp only [type_blank, and_true]
      omega
  rw [freeInodes, hset, Nat.card_Ico]

end Root

/-! ## Extending the name space -/

/-- The path of a new file is new, and the directories on it are. -/
theorem Grown.directory (h : Grown d i (name :: cs) d') (hw : Walkable d') (hi : IsDir d i)
    (hroot : InUse d 0) (hpre : resolve d pre 0 = some i)
    (hfresh : (dirEntries d (inodeAt d i)).lookup name = none)
    (hres : resolve d' (name :: cs) i = some j) {p : List (List UInt8)} (hp : p <+: cs)
    (hne : p ≠ cs) : ∃ k y, (openImpl (pre ++ name :: p) ROOT_INODE).run d' = (.ok (some (k, y)), d') ∧
      y.type = .directory ∧ ¬ InUse d k := by
  obtain ⟨p', rfl⟩ := hp
  rw [← List.cons_append, resolve_append] at hres
  obtain ⟨k, hk, hrest⟩ := Option.bind_eq_some_iff.mp hres
  have hnone : resolve d (name :: p) i = none := by rw [resolve, if_pos hi.2, hfresh]; rfl
  have hpath : resolve d' (pre ++ name :: p) 0 = some k := by
    rw [resolve_append, h.old _ _ _ hroot hpre]
    exact hk
  refine ⟨k, inodeAt d' k, ?_, ?_, (h.new _ _ _ hi.inUse hnone hk).1⟩
  · rw [ROOT_INODE, hw.run_openImpl (by omega), hpath]
    rfl
  · cases p' with
    | nil => simp at hne
    | cons a p' =>
      rw [resolve] at hrest
      by_contra ht
      simp [ht] at hrest

/-- `Create` walks the levels that exist. -/
theorem run_createFrom_prefix (junk : ℕ → Sector) (type : FileType) (major minor : UInt8) (l : ℕ)
    (x : InodeDef) (hw : Walkable d) (hk : k < 320) (hpre : resolve d pre k = some i)
    (hcs : cs ≠ []) :
    ∃ l' x', (createFrom junk type major minor l k x (pre ++ cs)).run d =
      (createFrom junk type major minor l' i x' cs).run d := by
  induction pre generalizing k l x with
  | nil =>
    obtain rfl : k = i := by simpa [resolve] using hpre
    exact ⟨l, x, rfl⟩
  | cons a pre ih =>
    rw [← List.singleton_append, resolve_append] at hpre
    obtain ⟨m, hm, hpre⟩ := Option.bind_eq_some_iff.mp hpre
    have hlt : m < 320 := by
      rw [resolve] at hm
      split at hm
      · next ht =>
        obtain ⟨m', hm', hm⟩ := Option.bind_eq_some_iff.mp hm
        obtain rfl : m' = m := by simpa [resolve] using hm
        exact hw.lt k ⟨hk, ht⟩ _ (mem_of_lookup hm')
      · simp at hm
    rw [List.cons_append, run_createFrom_existing hw hk hm, if_neg (by simp [hcs])]
    exact ih (l + 1) (inodeAt d m) hlt hpre

/-- `Create` of a path whose last components are missing makes exactly these. -/
theorem create_extends (h : FsTree d) (junk : ℕ → Sector) (major minor : UInt8)
    (hp : parsePath cwd path .zero = .ok (level, tbl)) (hl : 0 ≤ level)
    (hrows : tbl.rows level.toNat = pre ++ name :: cs)
    (hpre : (openImpl pre ROOT_INODE).run d = (.ok (some (i, inodeAt d i)), d))
    (hdir : (inodeAt d i).type = .directory)
    (hmiss : (openImpl (pre ++ [name]) ROOT_INODE).run d = (.ok none, d))
    (hinodes : (name :: cs).length ≤ freeInodes d)
    (hblocks : appendNeed (inodeAt d i) + cs.length ≤ freeCount d) :
    ∃ x d', (create junk cwd path type major minor).run d = (.ok (some x), d') ∧
      x.type = type ∧ x.size.toNat = 0 ∧
      (∃ j, (openPath cwd path).run d' = (.ok (some (j, x)), d') ∧ ¬ InUse d j) ∧
      (∀ p, p <+: cs → p ≠ cs →
        ∃ k y, (openImpl (pre ++ name :: p) ROOT_INODE).run d' = (.ok (some (k, y)), d') ∧
          y.type = .directory ∧ ¬ InUse d k) ∧
      (∀ q k y, (openPath cwd q).run d = (.ok (some (k, y)), d) →
        ∃ y', (openPath cwd q).run d' = (.ok (some (k, y')), d') ∧ y'.type = y.type ∧
          (k ≠ i → y' = y)) ∧
      ∀ q, (openPath cwd q).run d = (.ok none, d) → (openPath cwd q).run d' = (.ok none, d') ∨
        ∃ level' tbl' p, parsePath cwd q .zero = .ok (level', tbl') ∧ 0 ≤ level' ∧
          tbl'.rows level'.toNat = pre ++ p ∧ p ≠ [] ∧ p <+: name :: cs := by
  have hwalk := h.tree.walkable
  have hroot := h.tree.root.inUse
  have hpre' : resolve d pre 0 = some i := by
    rw [ROOT_INODE, hwalk.run_openImpl (by omega)] at hpre
    cases hr : resolve d pre 0 with
    | none => simp [hr] at hpre
    | some k =>
      simp only [hr, Option.map_some, Prod.mk.injEq, Except.ok.injEq, Option.some.injEq,
        and_true] at hpre
      rw [hpre.1]
  have hi : IsDir d i := ⟨(h.tree.inUse_of_resolve hroot hpre').1, hdir⟩
  have hfresh : (dirEntries d (inodeAt d i)).lookup name = none := by
    rw [ROOT_INODE, hwalk.run_openImpl (by omega), resolve_append, hpre'] at hmiss
    rw [← resolve_singleton hi]
    simpa using hmiss
  have hroom : RoomFor d i (cs.length + 1) := by
    rw [List.length_cons] at hinodes
    rw [RoomFor]
    omega
  have hnames : ∀ a ∈ name :: cs, IsName a := fun a ha =>
    isName_of_mem_rows hp a (by rw [hrows]; exact List.mem_append_right _ ha)
  obtain ⟨l, x₀, hwalk_run⟩ := run_createFrom_prefix junk type major minor 0 {} hwalk
    (by omega) hpre' (List.cons_ne_nil name cs)
  obtain ⟨r, d', hrun, hw, hg, -, -, hall⟩ := run_createFrom_room junk type major minor l x₀ h hi
    hfresh hnames hroom
  obtain ⟨j, rfl, hj, hun, hrec, hres⟩ := hall hinodes
  refine ⟨newInode j type major minor, d', ?_, rfl, rfl, ⟨j, ?_, hun⟩, fun p hp' hne => ?_,
    fun q k y hq => ?_, fun q hq => ?_⟩
  · rw [run_create hp hl, hrows, hwalk_run, hrun]
  · rw [run_openPath hw hp hl, hrows, resolve_append, hg.old _ _ _ hroot hpre', Option.bind_some, hres,
      Option.map_some, hrec]
  · exact hg.directory hw hi hroot hpre' hfresh hres hp' hne
  · obtain ⟨level', tbl', hq', hl', hr, rfl⟩ := of_openPath_some hwalk hq
    refine ⟨inodeAt d' k, ?_, ?_, fun hne => ?_⟩
    · rw [run_openPath hw hq' hl', hg.old _ _ _ hroot hr]
      rfl
    · by_cases hki : k = i
      · rw [hki, hg.type]
      · rw [hg.kept k (h.tree.inUse_of_resolve hroot hr) hki]
    · exact hg.kept k (h.tree.inUse_of_resolve hroot hr) hne
  · obtain ⟨level', tbl', hq', hnone⟩ := of_openPath_none hwalk hq
    by_cases hl' : 0 ≤ level'
    · cases hr : resolve d' (tbl'.rows level'.toNat) 0 with
      | none =>
        left
        rw [run_openPath hw hq' hl', hr]
        rfl
      | some k =>
        right
        obtain ⟨-, q₁, q₂, hq₁₂, hq₁, hne, hpref⟩ := hg.new _ _ _ hroot (hnone hl') hr
        refine ⟨level', tbl', q₂, hq', hl', ?_, hne, hpref⟩
        rw [hq₁₂, h.tree.resolve_inj hq₁ hpre']
    · left
      simp [openPath, hq', not_le.mp hl']

/-- Making `/a/b` on a disk with an empty root directory. -/
theorem create_extends_sample : ∃ x d', (create (fun _ => .ofFn fun _ => 7) [slash]
    (some ⟨[47, 97, 47, 98], by decide⟩) .regular_file 0 0).run (rootDisk 100) =
      (.ok (some x), d') ∧ x.type = .regular_file := by
  have hnames : ∀ c ∈ [[97], [98]], IsName c := by simp [IsName]
  have hp : parsePath [slash] (some ⟨[47, 97, 47, 98], by decide⟩) .zero =
      .ok (2, putRows .zero 0 [[97], [98]]) :=
    parsePath_abs [[97], [98]] [] (by simp [IsComponent, slash]) (.inl rfl) (by simp [Fitting])
      (by simp) (by simp [joinPath]) (by decide)
  obtain ⟨htree, -⟩ := fsTree_rootDisk (n := 100) (by omega)
  have hroot := inodeAt_rootDisk 100
  have hneed : appendNeed (inodeAt (rootDisk 100) 0) = 1 := by rw [hroot]; rfl
  have hmiss : (openImpl [[97]] ROOT_INODE).run (rootDisk 100) = (.ok none, rootDisk 100) := by
    rw [ROOT_INODE, htree.tree.walkable.run_openImpl (by omega), resolve, hroot]
    rfl
  obtain ⟨x, d', hrun, ht, -⟩ := create_extends htree (fun _ => .ofFn fun _ => 7) 0 0 hp (by simp)
    ((rows_putRows hnames).trans (List.nil_append _).symm)
    (htree.tree.walkable.run_openImpl (i := 0) (by omega) []) (by rw [hroot]) hmiss
    (by rw [freeInodes_rootDisk]; simp)
    (by rw [hneed, freeCount_rootDisk (by omega)]; simp)
  exact ⟨x, d', hrun, ht⟩

/-- Making `/a` on a disk with an empty root directory. -/
theorem create_truthful_sample : Truthful (rootDisk 100) (fun _ => .ofFn fun _ => 7) [slash]
    (some ⟨[47, 97], by decide⟩) .directory 0 0 := by
  have hp : parsePath [slash] (some ⟨[47, 97], by decide⟩) .zero = .ok (1, putRows .zero 0 [[97]]) :=
    parsePath_abs [[97]] [] (by simp [IsComponent, slash]) (.inl rfl) (by simp [Fitting]) (by simp)
      (by simp [joinPath]) (by decide)
  have hrows : (putRows .zero 0 [[97]]).rows 1 = [[97]] := rows_putRows (by simp [IsName])
  have hroot := inodeAt_rootDisk 100
  have hneed : appendNeed (inodeAt (rootDisk 100) 0) = 1 := by rw [hroot]; rfl
  obtain ⟨htree, hcon⟩ := fsTree_rootDisk (n := 100) (by omega)
  refine (create_truthful_iff htree hcon _ _ _ _ _ _).mpr ?_
  simp only [CreatesCleanly, hp]
  refine .inr ⟨by omega, ?_⟩
  rw [show (1 : ℤ).toNat = 1 from rfl, hrows, RoomAlong, hroot]
  intro _
  change RoomFor _ _ _
  rw [RoomFor, hneed, freeCount_rootDisk (by omega), freeInodes_rootDisk]
  simp

/-- `Create` of the path without components stores an inode that is not the root's. -/
theorem create_untruthful : ¬ ∀ (d : Disk) (junk : ℕ → Sector) (cwd : List UInt8)
    (path : Option CString) (type : FileType) (major minor : UInt8),
    FsTree d → Connected d → Truthful d junk cwd path type major minor := by
  intro hall
  obtain ⟨htree, hcon⟩ := fsTree_rootDisk (n := 100) (by omega)
  obtain ⟨r, d', hrun, htrue, -⟩ := hall (rootDisk 100) (fun _ => .ofFn fun _ => 0) [slash]
    (some ⟨[slash], by decide⟩) .directory 0 0 htree hcon
  have hp : parsePath [slash] (some ⟨[slash], by decide⟩) .zero = .ok (0, putRows .zero 0 []) :=
    parsePath_abs [] [slash] (by simp) (.inr rfl) trivial (by simp) (by simp) (by decide)
  have hnil : (createFrom (fun _ => .ofFn fun _ => 0) .directory 0 0 0 0 {}
      ((putRows .zero 0 []).rows (0 : ℤ).toNat)).run (rootDisk 100) = (.ok (some {}), rootDisk 100) :=
    run_createFrom_nil
  rw [run_create hp le_rfl, hnil] at hrun
  obtain ⟨rfl, -⟩ : some {} = r ∧ rootDisk 100 = d' := by simpa using hrun
  have := (htrue _ rfl).1
  simp at this

end OrangeOs.Fs
