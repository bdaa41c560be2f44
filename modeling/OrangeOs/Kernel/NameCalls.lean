import OrangeOs.Filesystem.Names
import OrangeOs.Kernel.DirectoryCalls

/-! # Names are for ever

The calls on files act on the tree of names by adding names on the way to the path of a call that creates
a file, and in no other way: what a path names once it names for ever, as a file of the same kind.
-/

namespace OrangeOs.Kernel

open Fs VirtualMemory
open Prog hiding ret

/-- The path at which a call creates a file. -/
def FileCall.target : FileCall → Option (List (List UInt8))
  | .sysCreate _ cwd path _ => components cwd path
  | .sysMkdir _ cwd path => components cwd path
  | .sysMknod _ cwd path _ _ => components cwd path
  | _ => none

/-- A copy of a record is of the record's kind. -/
def OfKind (d : Disk) (x : InodeDef) : Prop := (inodeAt d x.inode_index.toNat).kind = x.kind

/-- What a call does to the names and to the copies in the descriptors. -/
structure Effect (d : Disk) (fds : FileTable) (p : Option (List (List UInt8))) (d' : Disk)
    (fds' : FileTable) : Prop where
  names : SameNames d d' ∨ ∃ q, p = some q ∧ NamesAlong d 0 q d'
  copies : ∀ i, (fds' i).file_type ≠ .none → (fds' i).inode.type = .regular_file →
    (fds' i).file_type = (fds i).file_type ∧ (fds' i).inode = (fds i).inode ∨ OfKind d' (fds' i).inode

variable {d d' : Disk} {L : Ledger} {x : InodeDef} {v : VirtualMemory} {fds fds' : FileTable}
  {i : Fin 16} {fd_index r : ℤ} {pos page_table buf size : ℕ} {junk : Sector} {stack : ℕ → Sector}
  {resource : UInt8 → UInt8 → Option Resource} {files : List HostFile} {cwd : List UInt8}
  {path : Option CString} {p : Option (List (List UInt8))} {type : FileType} {major minor : UInt8}

theorem Effect.refl (d : Disk) (fds : FileTable) (p : Option (List (List UInt8))) :
    Effect d fds p d fds :=
  ⟨.inl (.refl d), fun _ _ _ => .inl ⟨rfl, rfl⟩⟩

theorem Effect.kind (h : Effect d fds p d' fds') {k : ℕ} (hk : InUse d k) :
    (inodeAt d' k).kind = (inodeAt d k).kind := by
  rcases h.names with hn | ⟨q, -, hn⟩
  · exact hn.kind k hk
  · exact hn.kind k hk

/-- One descriptor changes. -/
theorem Effect.update {fd : FileDescriptor} (hn : SameNames d d' ∨ ∃ q, p = some q ∧ NamesAlong d 0 q d')
    (hfd : fd.inode.type = .regular_file →
      fd.file_type = (fds i).file_type ∧ fd.inode = (fds i).inode ∨ OfKind d' fd.inode) :
    Effect d fds p d' (Function.update fds i fd) := by
  refine ⟨hn, fun k _ hregular => ?_⟩
  by_cases hki : k = i
  · subst hki
    rw [Function.update_self] at hregular ⊢
    exact hfd hregular
  · rw [Function.update_of_ne hki]
    exact .inl ⟨rfl, rfl⟩

/-! ## Writing -/

/-- The pieces of a buffer are written through one copy. -/
theorem run_safeCopy_keepsNames (h : InOrder d L) (hx : RegularCopy d L x) (hkind : OfKind d x)
    (hclear : CreatesIndirect d x pos (longestPiece v page_table buf size) → ClearAfterFirst junk)
    (done : ℕ) {n : ℕ} {f : FileStream}
    (hrun : (safeCopy (fun _ => v) page_table
      (fun pa len s => FileStream.write junk s (v.mem.bytes pa len)) buf size done ⟨pos, x⟩).run d =
        (.ok (n, f), d')) : KeepsNames d x d' f.inode := by
  induction size using Nat.strong_induction_on generalizing d L x buf done with
  | _ size ih =>
  rw [safeCopy] at hrun
  rw [longestPiece] at hclear
  by_cases hpos : size > 0
  · rw [dif_pos hpos] at hrun hclear
    rcases hpa : v.vaToPA page_table buf 0 with f | ⟨pa, k⟩
    · simp only [hpa] at hrun
      cases hrun
    have hphysical : physical v page_table buf = pa := by rw [physical, hpa]
    obtain ⟨len, hlen⟩ : ∃ len, len = min (PGSIZE - pa % PGSIZE) size := ⟨_, rfl⟩
    have hmod : pa % PGSIZE < PGSIZE := Nat.mod_lt _ (by decide)
    rw [hphysical] at hclear
    simp only [hpa] at hrun
    simp only [← hlen] at hrun hclear
    have hlength : (v.mem.bytes pa len).length = len := by simp [Memory.bytes]
    rcases hstep : (write junk x (v.mem.bytes pa len) pos).run d with ⟨e | ⟨m, x₁⟩, d₁⟩
    · simp only [FileStream.write, run_bind, hstep] at hrun
      cases hrun
    have hpiece : CreatesIndirect d x pos (v.mem.bytes pa len).length → ClearAfterFirst junk := fun hc =>
      hclear ⟨hc.1, by have := hc.2.1; omega, hc.2.2⟩
    have hone := h.run_write_keepsNames hx hkind hpiece hstep
    obtain ⟨L₁, hu⟩ := h.run_write_updates hx hpiece hstep
    simp only [FileStream.write, run_bind, hstep, run_pure] at hrun
    split at hrun
    · simp only [run_pure, Prod.mk.injEq, Except.ok.injEq] at hrun
      obtain ⟨⟨-, rfl⟩, rfl⟩ := hrun
      exact hone
    · have hkind₁ : OfKind d₁ x₁ := by
        rw [OfKind, hone.index, hone.names.kind _ hx.inUse, hkind, hone.kind]
      have hrest := ih _ (by omega) hu.inOrder hu.copy hkind₁ (fun hc => hclear (by
        obtain ⟨hz, hend, hfree⟩ := hu.creates _ _ hc
        exact ⟨hz, by omega, hfree⟩)) _ hrun
      exact hone.trans hrest h.tree
  · rw [dif_neg hpos] at hrun
    simp only [run_pure, Prod.mk.injEq, Except.ok.injEq] at hrun
    obtain ⟨⟨-, rfl⟩, rfl⟩ := hrun
    exact ⟨.refl d, rfl, rfl⟩

/-- A write that keeps to files. -/
theorem effect_sysWrite (h : InOrder d L) (hresource : ∀ r, resource 0 0 = some r → r.OffDisk)
    (hcopies : ∀ i, (fds i).file_type ≠ .none → (fds i).inode.type = .regular_file →
      RegularCopy d L (fds i).inode)
    (hkinds : ∀ i, (fds i).file_type ≠ .none → (fds i).inode.type = .regular_file →
      OfKind d (fds i).inode)
    (hkeep : KeepsToFiles d fds (.sysWrite junk v page_table fd_index buf size))
    (hrun : (sysWrite junk resource v page_table fds fd_index buf size).run d = (.ok (r, fds'), d')) :
    Effect d fds p d' fds' := by
  by_cases hfile : ∃ i, getFileDescriptor fds fd_index = some i ∧
      ((fds i).file_type = .regular_file ∨ (fds i).file_type = .directory)
  · obtain ⟨i, hfd, ht⟩ := hfile
    have hkeep := hkeep i hfd
    have hdevice : (fds i).file_type ≠ .device := by
      rcases ht with ht | ht <;> simp [ht]
    rw [if_neg hdevice] at hkeep
    obtain ⟨n, f, hcopy, rfl⟩ := run_sysWrite_file hfd ht hrun
    rcases hkeep with rfl | ⟨hregular, hclear⟩
    · rw [safeCopy, dif_neg (by omega)] at hcopy
      simp only [run_pure, Prod.mk.injEq, Except.ok.injEq] at hcopy
      obtain ⟨⟨-, rfl⟩, rfl⟩ := hcopy
      exact .update (.inl (.refl d)) fun _ => .inl ⟨rfl, rfl⟩
    · have hopen := of_getFileDescriptor hfd
      have hx := hcopies i hopen hregular
      have hkind := hkinds i hopen hregular
      have hkept := run_safeCopy_keepsNames h hx hkind hclear 0 hcopy
      have hkind' : OfKind d' f.inode := by
        rw [OfKind, hkept.index, hkept.names.kind _ hx.inUse, hkind, hkept.kind]
      exact .update (.inl hkept.names) fun _ => .inr hkind'
  · obtain ⟨rfl, rfl⟩ := run_sysWrite_other hresource (fun i hfd ht => hfile ⟨i, hfd, ht⟩)
      (fun i hfd ht => by have := hkeep i hfd; rwa [if_pos ht] at this) hrun
    exact .refl _ _ p

/-! ## The other calls -/

theorem effect_sysOpen (h : InOrder d L) (hrun : (sysOpen cwd fds path).run d = (.ok (r, fds'), d')) :
    Effect d fds p d' fds' := by
  obtain ⟨rfl, rfl | ⟨i, j, hj, -, rfl⟩⟩ := run_sysOpen_cases h.tree hrun
  · exact .refl _ _ p
  · have hkind : OfKind d' (inodeAt d' j) := by rw [OfKind, h.index j hj]
    exact .update (.inl (.refl d')) fun _ => .inr hkind

/-- `Create` returns the record of a file, or nothing that a file has. -/
theorem effect_create (h : InOrder d L) (htype : type ≠ .none) {res : Except Fault (Option InodeDef)}
    (hrun : (create stack cwd path type major minor).run d = (res, d')) :
    (SameNames d d' ∨ ∃ q, components cwd path = some q ∧ NamesAlong d 0 q d') ∧
      ∀ y, res = .ok (some y) → y.type = .regular_file → OfKind d' y := by
  have hnames := h.run_create_names htype hrun
  refine ⟨hnames.imp_left fun he : d' = d => he ▸ .refl d', fun y hy hregular => ?_⟩
  rcases hp : parsePath cwd path .zero with f | ⟨level, tbl⟩
  · simp only [create, hp] at hrun
    obtain ⟨rfl, rfl⟩ := Prod.mk.inj hrun
    cases hy
  by_cases hl : level < 0
  · simp only [create, hp, hl, if_true, run_pure, Prod.mk.injEq] at hrun
    obtain ⟨rfl, rfl⟩ := hrun
    cases hy
  rw [run_create hp (not_lt.mp hl)] at hrun
  obtain ⟨L', ho, -, hrec⟩ := h.run_createFrom_inOrder h.tree.root.inUse
    (fun a ha => isName_of_mem_rows hp a ha) htype 0 {} hrun
  rcases hrec y hy with ⟨-, rfl, -⟩ | ⟨j, hj, rfl⟩
  · cases hregular
  · rw [OfKind, ho.index j hj]

theorem effect_sysCreate (h : InOrder d L)
    (hrun : (sysCreate stack cwd fds path type).run d = (.ok (r, fds'), d')) :
    Effect d fds (components cwd path) d' fds' := by
  unfold sysCreate at hrun
  split at hrun
  · simp only [run_pure, Prod.mk.injEq, Except.ok.injEq] at hrun
    obtain ⟨⟨-, rfl⟩, rfl⟩ := hrun
    exact .refl _ _ _
  · next hguard =>
    have htype : type ≠ .none := by
      rintro rfl
      simp at hguard
    rcases hcreate : (create stack cwd path type 0 0).run d with ⟨res, e⟩
    obtain ⟨hnames, hkind⟩ := effect_create h htype hcreate
    rw [run_bind, hcreate] at hrun
    rcases res with f | _ | y
    · cases hrun
    · simp only [run_pure, Prod.mk.injEq, Except.ok.injEq] at hrun
      obtain ⟨⟨-, rfl⟩, rfl⟩ := hrun
      exact ⟨hnames, fun _ _ _ => .inl ⟨rfl, rfl⟩⟩
    · simp only [run_pure, Prod.mk.injEq, Except.ok.injEq] at hrun
      obtain ⟨hok, rfl⟩ := hrun
      have hfds := congrArg Prod.snd hok
      rcases installDescriptor_cases fds type y.inode_index.toNat y with hsame | ⟨i, -, hi⟩
      · obtain rfl := hfds.symm.trans hsame
        exact ⟨hnames, fun _ _ _ => .inl ⟨rfl, rfl⟩⟩
      · rw [hi] at hfds
        obtain rfl := hfds
        exact .update hnames fun hregular => .inr (hkind y rfl hregular)

/-- A file is created and not opened. -/
theorem effect_create_only (h : InOrder d L) (htype : type ≠ .none) {res : Except Fault (Option InodeDef)}
    (hrun : (create stack cwd path type major minor).run d = (res, d')) :
    Effect d fds (components cwd path) d' fds :=
  ⟨(effect_create h htype hrun).1, fun _ _ _ => .inl ⟨rfl, rfl⟩⟩

theorem effect_sysClose : Effect d fds p d (sysClose fds fd_index).2 := by
  unfold sysClose
  cases getFileDescriptor fds fd_index with
  | none => exact .refl d fds p
  | some i => exact .update (.inl (.refl d)) fun hregular => by cases hregular

/-! ## Runs -/

section Runs

variable {π : Type} [DecidableEq π] {s t : OpenFiles π} {a : π × FileCall} {as : List (π × FileCall)}

/-- A process makes a call that keeps to files. -/
def KeepsTo (resource : UInt8 → UInt8 → Option Resource) (s : OpenFiles π) (a : π × FileCall)
    (t : OpenFiles π) : Prop :=
  KeepsToFiles s.disk (s.tables a.1) a.2 ∧ ∃ r, s.Makes resource a.1 a.2 r t

/-- Copies of regular files are of the kinds of their records. -/
structure NamesInOrder (L : Ledger) (s : OpenFiles π) : Prop extends CallsInOrder L s where
  kinds : ∀ p i, (s.tables p i).file_type ≠ .none → (s.tables p i).inode.type = .regular_file →
    OfKind s.disk (s.tables p i).inode

omit [DecidableEq π] in
/-- A call of process `p` has its effect. -/
theorem NamesInOrder.effect {p : π} {c : FileCall} (h : NamesInOrder L s)
    (hresource : ∀ r, resource 0 0 = some r → r.OffDisk) (hc : KeepsToFiles s.disk (s.tables p) c)
    (hrun : (c.prog resource (s.tables p)).run s.disk = (.ok (r, fds), d')) :
    Effect s.disk (s.tables p) c.target d' fds := by
  cases c with
  | sysOpen cwd path => exact effect_sysOpen h.disk hrun
  | sysCreate stack cwd path type => exact effect_sysCreate h.disk hrun
  | sysMkdir stack cwd path =>
    rcases hcreate : (create stack cwd path .directory 0 0).run s.disk with ⟨res, e⟩
    have hmade : Effect s.disk (s.tables p) (components cwd path) e (s.tables p) :=
      effect_create_only h.disk (by simp) hcreate
    simp only [FileCall.prog, sysMkdir, run_bind, hcreate] at hrun
    rcases res with f | _ | y
    · cases hrun
    all_goals
      simp only [run_pure, Prod.mk.injEq, Except.ok.injEq] at hrun
      obtain ⟨⟨-, rfl⟩, rfl⟩ := hrun
      exact hmade
  | sysMknod stack cwd path major minor =>
    rcases hcreate : (create stack cwd path .device major minor).run s.disk with ⟨res, e⟩
    have hmade : Effect s.disk (s.tables p) (components cwd path) e (s.tables p) :=
      effect_create_only h.disk (by simp) hcreate
    simp only [FileCall.prog, sysMknod, run_bind, hcreate] at hrun
    rcases res with f | _ | y
    · cases hrun
    all_goals
      simp only [run_pure, Prod.mk.injEq, Except.ok.injEq] at hrun
      obtain ⟨⟨-, rfl⟩, rfl⟩ := hrun
      exact hmade
  | sysWrite junk v page_table fd_index buf size =>
    exact effect_sysWrite h.disk hresource (h.copies p) (h.kinds p) hc hrun
  | sysRead v page_table fd_index buf size =>
    have hsame := (readOnly_sysRead v page_table buf size hresource hc).run_snd s.disk
    simp only [FileCall.prog, run_bind] at hrun
    split at hrun
    · next res e hread =>
      rw [hread] at hsame
      obtain ⟨r', fds', v'⟩ := res
      simp only [run_pure, Prod.mk.injEq, Except.ok.injEq] at hrun
      obtain ⟨⟨-, rfl⟩, rfl⟩ := hrun
      obtain rfl : e = s.disk := hsame
      exact ⟨.inl (.refl _), fun i _ _ => .inl (descriptors_sysRead hread i)⟩
    · cases hrun
  | sysClose fd_index =>
    simp only [FileCall.prog, run_pure, Prod.mk.injEq, Except.ok.injEq] at hrun
    obtain ⟨hclose, rfl⟩ := hrun
    have hfds : (sysClose (s.tables p) fd_index).2 = fds := congrArg Prod.snd hclose
    exact hfds ▸ effect_sysClose

/-- The state after a call, and what the call does to the tree of names. -/
theorem NamesInOrder.step (h : NamesInOrder L s)
    (hresource : ∀ r, resource 0 0 = some r → r.OffDisk) (hstep : KeepsTo resource s a t) :
    ∃ L', ∃ ht : NamesInOrder L' t, NameTree.Adds (fun a : π × FileCall => a.2.target)
      h.disk.tree.nameTree a ht.disk.tree.nameTree := by
  obtain ⟨hc, r, hmakes⟩ := hstep
  obtain ⟨L', hcalls⟩ := h.toCallsInOrder.step hresource hc hmakes
  obtain ⟨fds, hrun, htables⟩ := hmakes
  have heffect := h.effect hresource hc hrun
  refine ⟨L', ⟨hcalls, fun q i hopen hregular => ?_⟩, ?_⟩
  · have hold : (s.tables q i).file_type ≠ .none → (s.tables q i).inode.type = .regular_file →
        OfKind t.disk (s.tables q i).inode := fun hopen hregular => by
      rw [OfKind, heffect.kind (h.copies q i hopen hregular).inUse]
      exact h.kinds q i hopen hregular
    rw [htables] at hopen hregular ⊢
    by_cases hqp : q = a.1
    · subst hqp
      rw [Function.update_self] at hopen hregular ⊢
      rcases heffect.copies i hopen hregular with ⟨ht, hi⟩ | hkind
      · rw [ht] at hopen
        rw [hi] at hregular ⊢
        exact hold hopen hregular
      · exact hkind
    · rw [Function.update_of_ne hqp] at hopen hregular ⊢
      exact hold hopen hregular
  · rcases heffect.names with hsame | ⟨q, hq, halong⟩
    · exact .of_eq (NameTree.ext (hsame.named_eq h.disk.tree))
    · exact .of_grows hq (halong.grows h.disk.tree hcalls.disk.tree)

section Image

variable {size : ℕ} (h42 : 42 ≤ size) (hsize : size < 2 ^ 31) (hfits : Fits (size - 42) files)
  (hnames : DistinctNames (size - 42) files) (hresource : ∀ r, resource 0 0 = some r → r.OffDisk)
  (hs : ReachedFromImage resource size files KeepsToFiles s) (ht : Trace (· = s) (KeepsTo resource) as t)

include h42 hsize hfits hnames hresource hs ht

end Image

end Runs

/-! ## A file in an image without files -/

end OrangeOs.Kernel
