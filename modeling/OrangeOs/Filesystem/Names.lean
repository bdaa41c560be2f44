import OrangeOs.Filesystem.LedgerCreate
import OrangeOs.Filesystem.LedgerWrite
import OrangeOs.Library.NameTree

/-! # The names of files

What the paths of a disk name, as a tree of names. Writing through a copy of the record of a regular file
leaves the tree as it is; `Create` adds names on the way to its path, and nothing else.
-/

namespace OrangeOs.Fs

open Prog

/-- What does not change about a file: its type and its device. -/
structure Kind where
  type : FileType
  major : UInt8
  minor : UInt8

def InodeDef.kind (x : InodeDef) : Kind := ⟨x.type, x.major, x.minor⟩

/-- The inode that a path names, with its kind. -/
def named (d : Disk) (q : List (List UInt8)) : Option (ℕ × Kind) :=
  (resolve d q 0).map fun k => (k, (inodeAt d k).kind)

/-- The paths of the disk are those of the tree. -/
def Shows (d : Disk) (T : NameTree (List UInt8) (ℕ × Kind)) : Prop := ∀ q, T.find q = named d q

variable {d d' d'' : Disk} {L L' : Ledger} {x x' y : InodeDef} {i j k l b pos done idx : ℕ} {s : Sector}
  {junk : Sector} {buf name : List UInt8} {q cs : List (List UInt8)} {type : FileType}
  {major minor : UInt8}

/-- The tree of a disk whose directories form a tree. -/
def Tree.nameTree (h : Tree d) : NameTree (List UInt8) (ℕ × Kind) where
  find := named d
  parent q a hq := by
    have hq : resolve d q 0 = none := Option.map_eq_none_iff.mp hq
    rw [named, resolve_append, hq]
    rfl
  inj q q' b hq hq' := by
    obtain ⟨k, hk, rfl⟩ := Option.map_eq_some_iff.mp hq
    obtain ⟨k', hk', he⟩ := Option.map_eq_some_iff.mp hq'
    obtain rfl : k' = k := congrArg Prod.fst he
    exact h.resolve_inj hk hk'

theorem Tree.shows (h : Tree d) : Shows d h.nameTree := fun _ => rfl

/-! ## Writing through copies of regular files -/

/-- The directories and what they hold are the same, and every file is of the kind it was. -/
structure SameNames (d d' : Disk) : Prop extends SameDirs d d' where
  kind : ∀ k, InUse d k → (inodeAt d' k).kind = (inodeAt d k).kind

namespace SameNames

theorem refl (d : Disk) : SameNames d d :=
  ⟨⟨rfl, fun _ => id, fun _ => id, fun _ => id, fun _ _ => rfl, fun _ _ _ _ => rfl⟩, fun _ _ => rfl⟩

theorem trans (h : SameNames d d') (h' : SameNames d' d'') (ht : Tree d) : SameNames d d'' where
  super := h'.super.trans h.super
  marked b hb := h'.marked b (h.marked b hb)
  inUse k hk := h'.inUse k (h.inUse k hk)
  isDir k hk := h.isDir k (h'.isDir k hk)
  inode k hk := (h'.inode k (h.isDir_iff.mpr hk)).trans (h.inode k hk)
  kept k hk b hb := by
    have hind : (inodeAt d k).indirect_addr.toNat ≠ 0 →
        d' (inodeAt d k).indirect_addr.toNat = d (inodeAt d k).indirect_addr.toNat := fun hz =>
      h.kept k hk _ (.inr ⟨hz, rfl⟩)
    have hb' : OwnedBy d' k b := by
      rw [OwnedBy, h.inode k hk, owns_congr (ht.mapped k hk).indirect_ne hind]
      exact hb
    exact (h'.kept k (h.isDir_iff.mpr hk) b hb').trans (h.kept k hk b hb)
  kind k hk := (h'.kind k (h.inUse k hk)).trans (h.kind k hk)

theorem named_eq (h : SameNames d d') (ht : Tree d) : named d' = named d := by
  funext q
  rw [named, named, h.resolve_eq ht ht.root.inUse]
  cases hr : resolve d q 0 with
  | none => rfl
  | some k => simp only [Option.map_some, h.kind k (ht.inUse_of_resolve ht.root.inUse hr)]

/-- Only blocks of the data area change that are not of directories. -/
theorem frame (h : InOrder d L) (hout : ∀ b ≤ 40, d' b = d b) (hmark : ∀ b, Marked d b → Marked d' b)
    (hkept : ∀ i b, L b = .directory i → d' b = d b) : SameNames d d' := by
  have hnode : ∀ k < 320, inodeAt d' k = inodeAt d k := fun k hk => inodeAt_congr (hout _ (by omega))
  refine ⟨⟨hout 0 (by omega), hmark, fun k hk => ⟨hk.1, ?_⟩, fun k hk => ⟨hk.1, ?_⟩,
    fun k hk => hnode k hk.1, fun k hk b hb => hkept k b (h.owned k b hk hb)⟩, fun k hk => ?_⟩
  · rw [hnode k hk.1]
    exact hk.2
  · rw [← hnode k hk.1]
    exact hk.2
  · rw [hnode k hk.1]

theorem mark (h : InOrder d L) (hb : Free d b) : SameNames d (Fs.mark d b) := by
  refine frame h (fun c hc => mark_of_ne (by omega)) (fun c hc => (marked_mark_iff hb).mpr (.inr hc))
    fun i c hc => mark_of_ne ?_
  have := (h.area c (by simp [hc])).le
  omega

theorem put (h : InOrder d L) (h42 : 42 ≤ b) (hb : ∀ i, L b ≠ .directory i) :
    SameNames d (Function.update d b s) := by
  refine frame h (fun c hc => Function.update_of_ne (by omega) ..)
    (fun c hc => (marked_congr (Function.update_of_ne (by omega) ..)).mpr hc)
    fun i c hc => Function.update_of_ne ?_ ..
  rintro rfl
  exact hb i hc

/-- The record of a regular file is replaced by a copy. -/
theorem setRecord (h : InOrder d L) (hx : RegularCopy d L x)
    (hkind : (inodeAt d x.inode_index.toNat).kind = x.kind) :
    SameNames d (setInode d x.inode_index.toNat x) := by
  have hself := inodeAt_setInode_self d x.inode_index.toNat x
  have hkinds : ∀ k, (inodeAt (setInode d x.inode_index.toNat x) k).kind = (inodeAt d k).kind := fun k => by
    by_cases hk : k = x.inode_index.toNat
    · rw [hk, hself, hkind]
    · rw [inodeAt_setInode_of_ne hk]
  have htypes : ∀ k, (inodeAt (setInode d x.inode_index.toNat x) k).type = (inodeAt d k).type := fun k =>
    congrArg Kind.type (hkinds k)
  refine ⟨⟨setInode_outside hx.inUse.1 (.inl rfl), fun b hb =>
    (marked_congr (setInode_outside hx.inUse.1 (.inr le_rfl))).mpr hb, fun k hk => ⟨hk.1, ?_⟩,
    fun k hk => ⟨hk.1, ?_⟩, fun k hk => inodeAt_setInode_of_ne ?_, fun k hk b hb =>
    setInode_outside hx.inUse.1 (.inr ?_)⟩, fun k _ => hkinds k⟩
  · rw [htypes]
    exact hk.2
  · rw [← htypes]
    exact hk.2
  · rintro rfl
    exact hx.notDir hk
  · have := ((h.tree.mapped k hk).owns_area hb).le
    omega

end SameNames

/-- What a write through a copy of the record of a regular file keeps. -/
structure KeepsNames (d : Disk) (x : InodeDef) (d' : Disk) (x' : InodeDef) : Prop where
  names : SameNames d d'
  index : x'.inode_index = x.inode_index
  kind : x'.kind = x.kind

theorem KeepsNames.trans (h : KeepsNames d x d' x') (h' : KeepsNames d' x' d'' y) (ht : Tree d) :
    KeepsNames d x d'' y :=
  ⟨h.names.trans h'.names ht, h'.index.trans h.index, h'.kind.trans h.kind⟩

namespace InOrder

/-- Finding a block for a copy changes the bit map, and blocks that belong to no directory. -/
theorem run_writeBlock_sameNames (h : InOrder d L) (hx : Refers L x) {r : Option ℕ}
    (hrun : (writeBlock junk x idx).run d = (.ok (r, x'), d')) : SameNames d d' := by
  by_cases h12 : idx < 12
  · by_cases hz : x.addrAt idx = 0
    · cases hfree : nextFree d with
      | none =>
        simp only [writeBlock, DIRECT_ADDR_SIZE, h12, hz, if_true, run_bind,
          run_allocDataBlock h.formatted, hfree, run_pure, Prod.mk.injEq] at hrun
        exact hrun.2 ▸ .refl d
      | some b =>
        simp only [writeBlock, DIRECT_ADDR_SIZE, h12, hz, if_true, run_bind,
          run_allocDataBlock h.formatted, hfree, run_pure, Prod.mk.injEq] at hrun
        exact hrun.2 ▸ .mark h (free_of_nextFree hfree)
    · simp only [writeBlock, DIRECT_ADDR_SIZE, h12, hz, if_true, if_false, run_pure,
        Prod.mk.injEq] at hrun
      exact hrun.2 ▸ .refl d
  · by_cases hi : x.indirect_addr.toNat = 0
    · cases hfree : nextFree d with
      | none =>
        simp [writeBlock, DIRECT_ADDR_SIZE, h12, hi, run_bind, run_allocDataBlock h.formatted, hfree] at hrun
        exact hrun.2 ▸ .refl d
      | some c =>
        have hc := free_of_nextFree hfree
        have hmark := SameNames.mark h hc
        obtain ⟨ho, -⟩ := h.mark hc
        cases hfree' : nextFree (Fs.mark d c) with
        | none =>
          simp [writeBlock, DIRECT_ADDR_SIZE, h12, hi, run_bind, run_allocDataBlock h.formatted, hfree,
            run_allocDataBlock ho.formatted, hfree'] at hrun
          exact hrun.2 ▸ hmark
        | some b =>
          have hb := free_of_nextFree hfree'
          simp [writeBlock, DIRECT_ADDR_SIZE, h12, hi, run_bind, run_allocDataBlock h.formatted, hfree,
            run_allocDataBlock ho.formatted, hfree'] at hrun
          obtain ⟨-, rfl⟩ := hrun
          obtain ⟨ho', -⟩ := ho.mark hb
          have hput := SameNames.put (s := setIndirectWord junk 0 b) ho' hc.le fun i hd => by
            rw [h.of_free hc] at hd
            cases hd
          exact (hmark.trans (.mark ho hb) h.tree).trans hput h.tree
    · have hp := hx.pointers hi
      have h42 := (h.area x.indirect_addr.toNat (by simp [hp])).le
      by_cases h128 : idx - 12 < 128
      · by_cases hz : indirectWord (d x.indirect_addr.toNat) (idx - 12) = 0
        · cases hfree : nextFree d with
          | none =>
            simp [writeBlock, DIRECT_ADDR_SIZE, h12, hi, h128, hz, run_bind,
              run_allocDataBlock h.formatted, hfree] at hrun
            exact hrun.2 ▸ .refl d
          | some b =>
            simp [writeBlock, DIRECT_ADDR_SIZE, h12, hi, h128, hz, run_bind,
              run_allocDataBlock h.formatted, hfree] at hrun
            obtain ⟨-, rfl⟩ := hrun
            have hb := free_of_nextFree hfree
            obtain ⟨ho, -⟩ := h.mark hb
            refine (SameNames.mark h hb).trans (.put ho h42 fun i hd => ?_) h.tree
            rw [hp] at hd
            cases hd
        · simp [writeBlock, DIRECT_ADDR_SIZE, h12, hi, h128, hz, run_bind] at hrun
          exact hrun.2 ▸ .refl d
      · simp [writeBlock, DIRECT_ADDR_SIZE, h12, hi, h128, run_bind] at hrun

/-- One call of `WriteImpl`. -/
theorem run_writeImpl_keepsNames (h : InOrder d L) (hx : RegularCopy d L x)
    (hkind : (inodeAt d x.inode_index.toNat).kind = x.kind) (hpos : pos ≤ x.size.toNat)
    (hlen : 0 < buf.length) (hblk : pos % 512 + buf.length ≤ 512)
    (hclear : CreatesIndirect d x pos buf.length → ClearAfterFirst junk) {r : Bool}
    (hrun : (writeImpl junk x buf pos).run d = (.ok (r, x'), d')) : KeepsNames d x d' x' := by
  have hsz := fileBlocks_le x
  have hidx : pos / 512 % 2 ^ 32 = pos / 512 := Nat.mod_eq_of_lt (by have := x.size.toNat_lt; omega)
  rcases hfind : (writeBlock junk x (pos / 512)).run d with ⟨f | ⟨found, x₁⟩, d₁⟩
  · simp only [writeImpl, BLOCK_SIZE, hidx, run_bind, hfind] at hrun
    cases hrun
  have hsame := h.run_writeBlock_sameNames hx.refers hfind
  obtain ⟨L', ho, ha, -, hfound⟩ := h.run_writeBlock_inOrder hx.refers (by omega)
    (fun hi h12 hfree => hclear ⟨hi, by omega, by omega⟩) hfind
  rcases hfound with ⟨rfl, rfl⟩ | ⟨b, rfl, ht, -⟩
  · simp only [writeImpl, BLOCK_SIZE, hidx, run_bind, hfind, run_pure, Prod.mk.injEq,
      Except.ok.injEq] at hrun
    obtain ⟨⟨-, rfl⟩, rfl⟩ := hrun
    exact ⟨hsame, rfl, rfl⟩
  have hindex : x₁.inode_index = x.inode_index := by rw [ht.inode]
  have hkind₁ : x₁.kind = x.kind := by rw [ht.inode]; rfl
  have hb42 := (ho.area b (by simp [ht.target])).le
  have hnot : ∀ i, L' b ≠ .directory i := fun i hd => by
    rw [ht.target] at hd
    cases hd
  have hput := SameNames.put (s := (d₁ b).patch (pos % 512) buf.length (charAt buf)) ho hb42 hnot
  obtain ⟨hoput, haput⟩ := ho.put (s := (d₁ b).patch (pos % 512) buf.length (charAt buf)) hb42 hnot
    fun hd => by rw [ht.target] at hd; cases hd
  have hdata := hsame.trans hput h.tree
  have hcopy := hx.continues (ha.trans haput)
  obtain ⟨-, hgrow⟩ := ht.refers (hx.refers.extends ha.ledger) (e := pos + buf.length) (by omega)
    (by omega) (by omega)
  simp only [writeImpl, BLOCK_SIZE, hidx, run_bind, hfind, run_writeData hblk, putData] at hrun
  by_cases hlt : pos + buf.length > x₁.size.toNat
  · simp only [if_pos hlt, run_bind, hindex, run_updateInode hx.inUse.1, run_pure, Prod.mk.injEq,
      Except.ok.injEq] at hrun
    obtain ⟨⟨-, rfl⟩, rfl⟩ := hrun
    have hsize : x₁.size = x.size := by rw [ht.inode]
    rw [hsize] at hlt
    have hy : RegularCopy (Function.update d₁ b ((d₁ b).patch (pos % 512) buf.length (charAt buf))) L'
        { x₁ with inode_index := x.inode_index, size := .ofNat (pos + buf.length) } :=
      ⟨(congrArg Kind.type hkind₁).trans hx.type, hcopy.inUse, hcopy.notDir, hindex ▸ (hgrow hlt).1⟩
    have hrec := SameNames.setRecord hoput hy
      (((hdata.kind _ hx.inUse).trans hkind).trans hkind₁.symm)
    exact ⟨hdata.trans hrec h.tree, rfl, hkind₁⟩
  · simp only [if_neg hlt, run_pure, Prod.mk.injEq, Except.ok.injEq] at hrun
    obtain ⟨⟨-, rfl⟩, rfl⟩ := hrun
    exact ⟨hdata, hindex, hkind₁⟩

/-- The loop of `Write`. -/
theorem run_writeFrom_keepsNames (h : InOrder d L) (hx : RegularCopy d L x)
    (hkind : (inodeAt d x.inode_index.toNat).kind = x.kind) (hpos : pos ≤ x.size.toNat)
    (hclear : CreatesIndirect d x pos buf.length → ClearAfterFirst junk) (done : ℕ) {m : ℕ}
    (hrun : (writeFrom junk x buf pos done).run d = (.ok (m, x'), d')) : KeepsNames d x d' x' := by
  induction hlen : buf.length using Nat.strong_induction_on generalizing d L x buf pos done with
  | _ len ih =>
  subst hlen
  by_cases hnil : buf.length > 0
  · obtain ⟨r, hr⟩ : ∃ r, r = min buf.length (512 - pos % 512) := ⟨_, rfl⟩
    have hmod : pos % 512 < 512 := Nat.mod_lt _ (by omega)
    have htake : (buf.take r).length = r := by rw [List.length_take]; omega
    have hdrop : (buf.drop r).length = buf.length - r := List.length_drop
    rw [writeFrom, dif_pos hnil] at hrun
    simp only [BLOCK_SIZE, ← hr] at hrun
    rcases hstep : (writeImpl junk x (buf.take r) pos).run d with ⟨f | ⟨ok, x₁⟩, d₁⟩
    · simp only [run_bind, hstep] at hrun
      cases hrun
    have hpiece : CreatesIndirect d x pos (buf.take r).length → ClearAfterFirst junk := fun hc =>
      hclear ⟨hc.1, by have := hc.2.1; omega, hc.2.2⟩
    have hone := h.run_writeImpl_keepsNames hx hkind hpos (by omega) (by omega) hpiece hstep
    obtain ⟨L₁, hu, hgrow⟩ := h.run_writeImpl_updates hx hpos (by omega) (by omega) hpiece hstep
    rw [run_bind_ok hstep] at hrun
    cases ok with
    | false =>
      simp only [run_pure, Prod.mk.injEq, Except.ok.injEq] at hrun
      obtain ⟨⟨-, rfl⟩, rfl⟩ := hrun
      exact hone
    | true =>
      have hend := hgrow rfl
      have hkind₁ : (inodeAt d₁ x₁.inode_index.toNat).kind = x₁.kind := by
        rw [hone.index, hone.names.kind _ hx.inUse, hkind, hone.kind]
      have hrest := ih _ (by omega) hu.inOrder hu.copy hkind₁ (by omega) (fun hc => hclear
        (hu.creates _ _ ⟨hc.1, by have := hc.2.1; omega, hc.2.2⟩)) (done + r) hrun rfl
      exact hone.trans hrest h.tree
  · rw [writeFrom, dif_neg hnil] at hrun
    simp only [run_pure, Prod.mk.injEq, Except.ok.injEq] at hrun
    obtain ⟨⟨-, rfl⟩, rfl⟩ := hrun
    exact ⟨.refl d, rfl, rfl⟩

/-- `Write` through a copy of the record of a regular file. -/
theorem run_write_keepsNames (h : InOrder d L) (hx : RegularCopy d L x)
    (hkind : (inodeAt d x.inode_index.toNat).kind = x.kind)
    (hclear : CreatesIndirect d x pos buf.length → ClearAfterFirst junk) {m : ℕ}
    (hrun : (write junk x buf pos).run d = (.ok (m, x'), d')) : KeepsNames d x d' x' := by
  rw [write] at hrun
  split at hrun
  · simp only [run_pure, Prod.mk.injEq, Except.ok.injEq] at hrun
    obtain ⟨⟨-, rfl⟩, rfl⟩ := hrun
    exact ⟨.refl d, rfl, rfl⟩
  · next hpos => exact h.run_writeFrom_keepsNames hx hkind (not_lt.mp hpos) hclear 0 hrun

end InOrder

/-! ## Creating files -/

/-- From directory `i` on, names were added along `cs`, and every file is of the kind it was. -/
structure NamesAlong (d : Disk) (i : ℕ) (cs : List (List UInt8)) (d' : Disk) : Prop where
  old : ∀ q k, resolve d q 0 = some k → resolve d' q 0 = some k
  kind : ∀ k, InUse d k → (inodeAt d' k).kind = (inodeAt d k).kind
  on_path : ∀ q, resolve d q 0 = none → resolve d' q 0 ≠ none →
    ∃ q₁ q₂, q = q₁ ++ q₂ ∧ resolve d q₁ 0 = some i ∧ q₂ <+: cs

namespace NamesAlong

theorem refl (d : Disk) (i : ℕ) (cs : List (List UInt8)) : NamesAlong d i cs d :=
  ⟨fun _ _ => id, fun _ _ => rfl, fun _ hn hs => absurd hn hs⟩

/-- Below an entry that is there. -/
theorem below (ht : Tree d) (hi : IsDir d i) (hl : (dirEntries d (inodeAt d i)).lookup name = some k)
    (h : NamesAlong d k cs d') : NamesAlong d i (name :: cs) d' := by
  refine ⟨h.old, h.kind, fun q hn hs => ?_⟩
  obtain ⟨q₁, q₂, rfl, hq, hp⟩ := h.on_path q hn hs
  have hmem := mem_of_lookup hl
  -- the path of `k` ends in the entry
  cases q₁ using List.reverseRecOn with
  | nil =>
    obtain rfl : 0 = k := Option.some.inj hq
    exact absurd rfl (ht.inUse i hi _ hmem).2
  | append_singleton r a =>
    obtain ⟨m, hm, hdir, he⟩ := ht.resolve_concat hq
    obtain ⟨rfl, rfl⟩ := ht.entry_inj hdir hi he hmem
    exact ⟨r, a :: q₂, by simp, hm, List.cons_prefix_cons.mpr ⟨rfl, hp⟩⟩

/-- Below an entry that was added before. -/
theorem created (hc : Creation d i j name y d') (h : NamesAlong d' j cs d'') :
    NamesAlong d i (name :: cs) d'' := by
  have hroot := hc.tree.root.inUse
  refine ⟨fun q k hq => h.old q k (hc.resolve_mono hroot hq), fun k hk => ?_, fun q hn hs => ?_⟩
  · rw [h.kind k (hc.inUse_iff.mpr (.inl hk))]
    by_cases hki : k = i
    · rw [hki, hc.inode]
      rfl
    · rw [hc.inodeAt_of_inUse hk hki]
  · by_cases hn' : resolve d' q 0 = none
    · obtain ⟨q₁, q₂, rfl, hq, hp⟩ := h.on_path q hn' hs
      cases hq₁ : resolve d q₁ 0 with
      | some m =>
        have hj := hc.resolve_mono hroot hq₁
        rw [hq] at hj
        obtain rfl := Option.some.inj hj
        exact absurd (hc.tree.inUse_of_resolve hroot hq₁) hc.unused
      | none =>
        obtain ⟨-, q', rfl, hq'⟩ := hc.resolve_cases hroot hq₁ hq
        exact ⟨q', name :: q₂, by simp, hq', List.cons_prefix_cons.mpr ⟨rfl, hp⟩⟩
    · obtain ⟨l, hl⟩ := Option.ne_none_iff_exists'.mp hn'
      obtain ⟨-, q', rfl, hq'⟩ := hc.resolve_cases hroot hn hl
      exact ⟨q', [name], rfl, hq', by simp⟩

/-- Below an inode that was made and not named. -/
theorem detached (ht : Tree d) (hdet : Detached d d') (hun : ¬ InUse d j) (h : NamesAlong d' j cs d'') :
    NamesAlong d i (name :: cs) d'' := by
  have hroot := ht.root.inUse
  refine ⟨fun q k hq => h.old q k ((hdet.resolve_eq ht hroot).trans hq), fun k hk => ?_, fun q hn hs => ?_⟩
  · rw [h.kind k (hdet.inUse hk), hdet.kept k hk]
  · obtain ⟨q₁, q₂, rfl, hq, -⟩ := h.on_path q ((hdet.resolve_eq ht hroot).trans hn) hs
    rw [hdet.resolve_eq ht hroot] at hq
    exact absurd (ht.inUse_of_resolve hroot hq) hun

end NamesAlong

variable {stack : ℕ → Sector} {cwd : List UInt8} {path : Option CString}

/-- The loop of `Create`, wherever it stops. -/
theorem InOrder.run_createFrom_namesAlong (h : InOrder d L) (hi : InUse d i) (hcs : ∀ a ∈ cs, IsName a)
    (htype : type ≠ .none) (l : ℕ) (x : InodeDef) {r : Except Fault (Option InodeDef)}
    (hrun : (createFrom stack type major minor l i x cs).run d = (r, d')) : NamesAlong d i cs d' := by
  induction cs generalizing d L i l x with
  | nil =>
    rw [run_createFrom_nil] at hrun
    obtain ⟨-, rfl⟩ := Prod.mk.inj hrun
    exact .refl d i []
  | cons a cs ih =>
    have hname := hcs a (by simp)
    have hrest : ∀ b ∈ cs, IsName b := fun b hb => hcs b (List.mem_cons_of_mem _ hb)
    have hw := h.tree.walkable
    have hstay : ∀ {r' : Except Fault (Option InodeDef)}, (r', d) = (r, d') →
        NamesAlong d i (a :: cs) d' := fun he => (Prod.mk.inj he).2 ▸ .refl d i _
    by_cases hdir : IsDir d i
    · cases hl : (dirEntries d (inodeAt d i)).lookup a with
      | some k =>
        have hres : resolve d [a] i = some k := by rw [resolve_singleton hdir, hl]
        rw [run_createFrom_existing hw hi.1 hres] at hrun
        split at hrun
        · exact hstay hrun
        · exact (ih h (h.tree.inUse_of_lookup hdir hl) hrest _ _ hrun).below h.tree hdir hl
      | none =>
        have hres : resolve d [a] i = none := by rw [resolve_singleton hdir, hl]
        rw [run_createFrom_missing hw hi.1 hres] at hrun
        cases hn : nextInode d with
        | none =>
          rw [run_createImpl_no_inode (h.appendable hdir) hn hname.2] at hrun
          exact hstay hrun
        | some j =>
          obtain ⟨hj, hun⟩ := of_nextInode hn
          have hy : Empty (newInode j (if cs = [] then type else .directory) major minor) j :=
            empty_newInode hj
          have hne : (newInode j (if cs = [] then type else .directory) major minor).type ≠ .none := by
            change (if cs = [] then type else .directory) ≠ .none
            split
            · exact htype
            · simp
          by_cases hle : appendNeed (inodeAt d i) ≤ freeCount d
          · obtain ⟨e, hcreate, hc⟩ := run_createImpl (h.appendable hdir) hn hname.1 hname.2 hle
            have hc := h.creation hdir hn hy hl hc
            obtain ⟨M, ho, -⟩ := h.created hc hne
            simp only [hcreate, toNat_newInode hj] at hrun
            exact .created hc (ih ho (hc.inUse_iff.mpr (.inr ⟨rfl, hne⟩)) hrest _ _ hrun)
          · -- no block for the entry
            obtain ⟨ho, -⟩ := h.setInode_empty hj hun hy
            rw [run_createImpl_no_block (h.appendable hdir) hn hname.2 (not_le.mp hle)] at hrun
            simp only [toNat_newInode hj] at hrun
            have huse : InUse (setInode d j
                (newInode j (if cs = [] then type else .directory) major minor)) j :=
              ⟨hj, by rw [inodeAt_setInode_self]; exact hne⟩
            exact .detached h.tree (.setInode hj hun _) hun (ih ho huse hrest _ _ hrun)
    · have ht : (inodeAt d i).type ≠ .directory := fun ht => hdir ⟨hi.1, ht⟩
      have hres : resolve d [a] i = none := by rw [resolve, if_neg ht]
      rw [run_createFrom_missing hw hi.1 hres, run_createImpl_not_dir hi.1 ht hname.2] at hrun
      exact hstay hrun

/-- The components of a path that `ParsePath` accepts. -/
def components (cwd : List UInt8) (path : Option CString) : Option (List (List UInt8)) :=
  match parsePath cwd path .zero with
  | .error _ => none
  | .ok (level, tbl) => if level < 0 then none else some (tbl.rows level.toNat)

/-- `Create` adds names on the way to its path. -/
theorem InOrder.run_create_names (h : InOrder d L) (htype : type ≠ .none)
    {r : Except Fault (Option InodeDef)}
    (hrun : (create stack cwd path type major minor).run d = (r, d')) :
    d' = d ∨ ∃ p, components cwd path = some p ∧ NamesAlong d 0 p d' := by
  rcases hp : parsePath cwd path .zero with f | ⟨level, tbl⟩
  · simp only [create, hp] at hrun
    exact .inl (Prod.mk.inj hrun).2.symm
  by_cases hl : level < 0
  · simp only [create, hp, hl, if_true, run_pure, Prod.mk.injEq] at hrun
    exact .inl hrun.2.symm
  · rw [run_create hp (not_lt.mp hl)] at hrun
    refine .inr ⟨tbl.rows level.toNat, ?_, h.run_createFrom_namesAlong h.tree.root.inUse
      (fun a ha => isName_of_mem_rows hp a ha) htype 0 {} hrun⟩
    simp only [components, hp, if_neg hl]

/-- Names along a path from the root directory make the tree of names grow. -/
theorem NamesAlong.grows {p : List (List UInt8)} (h : NamesAlong d 0 p d') (ht : Tree d) (ht' : Tree d') :
    ht.nameTree.Grows p ht'.nameTree where
  le q b hb := by
    obtain ⟨k, hk, rfl⟩ := Option.map_eq_some_iff.mp hb
    apply Option.map_eq_some_iff.mpr
    exact ⟨k, h.old q k hk, by rw [h.kind k (ht.inUse_of_resolve ht.root.inUse hk)]⟩
  on_path q hn hs := by
    obtain ⟨q₁, q₂, rfl, hq, hp⟩ := h.on_path q (Option.map_eq_none_iff.mp hn) fun hnone => hs (by
      change named d' q = none
      rw [named, hnone]
      rfl)
    obtain rfl := ht.resolve_inj hq (show resolve d [] 0 = some 0 from rfl)
    exact hp

end OrangeOs.Fs
