import OrangeOs.Filesystem.LedgerCreate
import OrangeOs.Filesystem.LedgerWrite
import OrangeOs.Filesystem.MkfsLayout
import OrangeOs.Kernel.OpenFiles

/-! # Directories under system calls

Nothing keeps `sys_write` from a descriptor of a directory, and then the bytes of the buffer are directory
elements. Without such writes the directories of an image stay in order through any sequence of calls,
by any processes, also through descriptors that are out of date.
-/

namespace OrangeOs.Kernel

open Fs VirtualMemory
open Prog hiding ret

/-- The contents of every directory are whole elements, with terminated names that differ and inode
indices that are in use; the root is a directory. -/
structure DirectoriesIntact (d : Disk) : Prop where
  root : IsDir d 0
  whole : ∀ i, IsDir d i → DirOk d (inodeAt d i)
  names : ∀ i, IsDir d i → ((dirEntries d (inodeAt d i)).map Prod.fst).Nodup
  inUse : ∀ i, IsDir d i → ∀ e ∈ dirEntries d (inodeAt d i), InUse d e.2

/-- The length of the longest piece that `safe_copy` hands over. -/
def longestPiece (v : VirtualMemory) (page_table dst size : ℕ) : ℕ :=
  if _h : size > 0 then
    let len := min (PGSIZE - physical v page_table dst % PGSIZE) size
    max len (longestPiece v page_table ((dst + len) % 2 ^ 64) (size - len))
  else 0
termination_by size
decreasing_by
  have hp : physical v page_table dst % 4096 < 4096 := Nat.mod_lt _ (by omega)
  simp only [PGSIZE]
  omega

/-- The resource that is registered at the start, the console. -/
def Registered (inode : InodeDef) : Prop := inode.major = 0 ∧ inode.minor = 0

/-- A device leaves the disk alone. -/
structure Resource.OffDisk (r : Resource) : Prop where
  read : ∀ n, (r.read n).ReadOnly
  write : ∀ buf, (r.write buf).ReadOnly

/-- What is written to a file is written through the inode of a regular file, and a new indirect block is
made on a stack that is clear. Devices are those that are registered. -/
def KeepsToFiles (d : Disk) (fds : FileTable) : FileCall → Prop
  | .sysWrite junk v page_table fd_index buf size => ∀ i, getFileDescriptor fds fd_index = some i →
      if (fds i).file_type = .device then Registered (fds i).inode
      else size = 0 ∨ (fds i).inode.type = .regular_file ∧
        (CreatesIndirect d (fds i).inode (fds i).offset (longestPiece v page_table buf size) →
          ClearAfterFirst junk)
  | .sysRead _ _ fd_index _ _ => ∀ i, getFileDescriptor fds fd_index = some i →
      (fds i).file_type = .device → Registered (fds i).inode
  | _ => True

/-- No file is open on the disk of an image. -/
structure Booted {π : Type} (size : ℕ) (files : List HostFile) (s : OpenFiles π) : Prop where
  disk : s.disk = mkfsDisk size files
  closed : ∀ p i, (s.tables p i).file_type = .none

/-- The states that calls reach from an image. -/
def ReachedFromImage {π : Type} [DecidableEq π] (resource : UInt8 → UInt8 → Option Resource)
    (size : ℕ) (files : List HostFile) (allowed : Disk → FileTable → FileCall → Prop) :
    OpenFiles π → Prop :=
  Reachable (Booted size files) fun s t => ∃ p c r, allowed s.disk (s.tables p) c ∧ s.Makes resource p c r t

/-- Files are in order, and descriptors of regular files have copies of their inodes. -/
structure CallsInOrder {π : Type} (L : Ledger) (s : OpenFiles π) : Prop where
  disk : InOrder s.disk L
  copies : ∀ p i, (s.tables p i).file_type ≠ .none → (s.tables p i).inode.type = .regular_file →
    RegularCopy s.disk L (s.tables p i).inode

/-- Files are in order by some ledger. -/
def HasLedger {π : Type} (s : OpenFiles π) : Prop := ∃ L, CallsInOrder L s

variable {d d' : Disk} {L : Ledger} {x : InodeDef} {v : VirtualMemory} {fds fds' : FileTable}
  {i : Fin 16} {fd_index r : ℤ} {pos page_table buf size done : ℕ} {junk : Sector}
  {resource : UInt8 → UInt8 → Option Resource} {files : List HostFile}

theorem directoriesIntact_of_inOrder (h : InOrder d L) : DirectoriesIntact d where
  root := h.tree.root
  whole := h.tree.dir
  names := h.tree.names
  inUse i hi e he := (h.tree.inUse i hi e he).1

/-! ## Calls that only read the disk -/

theorem readOnly_safeCopy {σ : Type} {vm : σ → VirtualMemory} {call : ℕ → ℕ → σ → FsProg (ℕ × σ)}
    (hcall : ∀ pa len s, (call pa len s).ReadOnly) (dst size done : ℕ) (s : σ) :
    (safeCopy vm page_table call dst size done s).ReadOnly := by
  induction size using Nat.strong_induction_on generalizing dst done s with
  | _ size ih =>
  rw [safeCopy]
  by_cases hpos : size > 0
  · rw [dif_pos hpos]
    rcases (vm s).vaToPA page_table dst 0 with f | ⟨pa, k⟩
    · trivial
    · have hmod : pa % 4096 < 4096 := Nat.mod_lt _ (by omega)
      refine (hcall _ _ _).bind fun res => ?_
      obtain ⟨ret, s'⟩ := res
      dsimp only
      split
      · exact .pure _
      · exact ih _ (by simp only [PGSIZE]; omega) _ _ _
  · rw [dif_neg hpos]
    exact .pure _

theorem readOnly_readFrom (x : InodeDef) (t : Sector) (pos n : ℕ) :
    (FileStream.readFrom x t pos n).ReadOnly := by
  induction n using Nat.strong_induction_on generalizing t pos with
  | _ n ih =>
  rw [FileStream.readFrom]
  by_cases hn : n > 0
  · have hmod : pos % 512 < 512 := Nat.mod_lt _ (by omega)
    rw [dif_pos hn]
    refine ReadOnly.bind ?_ fun t' => ?_
    · unfold FileStream.fetchIndirect
      split
      · exact .readSector _
      · exact .pure _
    · split
      · exact (ReadOnly.readSector _).bind fun s =>
          (ih _ (by simp only [BLOCK_SIZE]; omega) _ _).bind fun _ => .pure _
      · trivial
  · rw [dif_neg hn]
    exact .pure _

theorem readOnly_readFile (pa len : ℕ) (s : FileStream × VirtualMemory) :
    (readFile pa len s).ReadOnly :=
  ((readOnly_readFrom _ _ _ _).bind fun _ => .pure _).bind fun _ => .pure _

theorem readOnly_sysRead (v : VirtualMemory) (page_table buf size : ℕ)
    (hresource : ∀ r, resource 0 0 = some r → r.OffDisk)
    (hdevice : ∀ i, getFileDescriptor fds fd_index = some i → (fds i).file_type = .device →
      Registered (fds i).inode) :
    (sysRead resource v page_table fds fd_index buf size).ReadOnly := by
  unfold sysRead
  cases hfd : getFileDescriptor fds fd_index with
  | none => exact .pure _
  | some i =>
    dsimp only
    split
    · exact (readOnly_safeCopy readOnly_readFile _ _ _ _).bind fun _ => .pure _
    · split
      · next ht =>
        obtain ⟨hmajor, hminor⟩ := hdevice i hfd ht
        rw [hmajor, hminor]
        cases hr : resource 0 0 with
        | none => exact .pure _
        | some r =>
          exact (readOnly_safeCopy (fun pa len s => ((hresource r hr).read len).bind fun _ => .pure _)
            _ _ _ _).bind fun _ => .pure _
      · split <;> exact .pure _

/-! ## Writing to a file -/

theorem longestPiece_le (v : VirtualMemory) (page_table dst size : ℕ) :
    longestPiece v page_table dst size ≤ size := by
  induction size using Nat.strong_induction_on generalizing dst with
  | _ size ih =>
  rw [longestPiece]
  by_cases hpos : size > 0
  · have hmod : physical v page_table dst % PGSIZE < PGSIZE := Nat.mod_lt _ (by decide)
    rw [dif_pos hpos]
    refine max_le (min_le_right ..) ((ih _ ?_ _).trans (Nat.sub_le ..))
    omega
  · rw [dif_neg hpos]
    exact Nat.zero_le _

/-- The pieces of a buffer are written through one copy. -/
theorem run_safeCopy_updates (h : InOrder d L) (hx : RegularCopy d L x)
    (hclear : CreatesIndirect d x pos (longestPiece v page_table buf size) → ClearAfterFirst junk)
    (done : ℕ) {n : ℕ} {f : FileStream}
    (hrun : (safeCopy (fun _ => v) page_table
      (fun pa len s => FileStream.write junk s (v.mem.bytes pa len)) buf size done ⟨pos, x⟩).run d =
        (.ok (n, f), d')) : ∃ L', Updates d L x d' L' f.inode := by
  induction size using Nat.strong_induction_on generalizing d L x buf done with
  | _ size ih =>
  rw [safeCopy] at hrun
  rw [longestPiece] at hclear
  by_cases hpos : size > 0
  · rw [dif_pos hpos] at hrun hclear
    rcases hpa : v.vaToPA page_table buf 0 with f | ⟨pa, k⟩
    · simp only [hpa] at hrun
      cases hrun
    have hphysical : physical v page_table buf = pa := by rw [physical, hpa]
    obtain ⟨len, hlen⟩ : ∃ len, len = min (PGSIZE - pa % PGSIZE) size := ⟨_, rfl⟩
    have hmod : pa % PGSIZE < PGSIZE := Nat.mod_lt _ (by decide)
    rw [hphysical] at hclear
    simp only [hpa] at hrun
    simp only [← hlen] at hrun hclear
    have hlength : (v.mem.bytes pa len).length = len := by simp [Memory.bytes]
    rcases hstep : (write junk x (v.mem.bytes pa len) pos).run d with ⟨e | ⟨m, x₁⟩, d₁⟩
    · simp only [FileStream.write, run_bind, hstep] at hrun
      cases hrun
    obtain ⟨L₁, hu⟩ := h.run_write_updates hx
      (fun hc => hclear ⟨hc.1, by have := hc.2.1; omega, hc.2.2⟩) hstep
    simp only [FileStream.write, run_bind, hstep, run_pure] at hrun
    split at hrun
    · simp only [run_pure, Prod.mk.injEq, Except.ok.injEq] at hrun
      obtain ⟨⟨-, rfl⟩, rfl⟩ := hrun
      exact ⟨L₁, hu⟩
    · obtain ⟨L', hu'⟩ := ih _ (by omega) hu.inOrder hu.copy (fun hc => hclear (by
        obtain ⟨hz, hend, hfree⟩ := hu.creates _ _ hc
        exact ⟨hz, by omega, hfree⟩)) _ hrun
      exact ⟨L', hu.trans hu'⟩
  · rw [dif_neg hpos] at hrun
    simp only [run_pure, Prod.mk.injEq, Except.ok.injEq] at hrun
    obtain ⟨⟨-, rfl⟩, rfl⟩ := hrun
    exact ⟨L, .refl h hx⟩

/-- What is not written to a file or a directory changes neither the disk nor the descriptors. -/
theorem run_sysWrite_other (hresource : ∀ r, resource 0 0 = some r → r.OffDisk)
    (hfile : ∀ i, getFileDescriptor fds fd_index = some i →
      ¬ ((fds i).file_type = .regular_file ∨ (fds i).file_type = .directory))
    (hdevice : ∀ i, getFileDescriptor fds fd_index = some i → (fds i).file_type = .device →
      Registered (fds i).inode)
    (hrun : (sysWrite junk resource v page_table fds fd_index buf size).run d = (.ok (r, fds'), d')) :
    d' = d ∧ fds' = fds := by
  unfold sysWrite at hrun
  cases hfd : getFileDescriptor fds fd_index with
  | none =>
    simp only [hfd, run_pure, Prod.mk.injEq, Except.ok.injEq] at hrun
    exact ⟨hrun.2.symm, hrun.1.2.symm⟩
  | some i =>
    simp only [hfd, if_neg (hfile i hfd)] at hrun
    by_cases ht : (fds i).file_type = .device
    · obtain ⟨hmajor, hminor⟩ := hdevice i hfd ht
      rw [if_pos ht, hmajor, hminor] at hrun
      cases hr : resource 0 0 with
      | none =>
        simp only [hr, run_pure, Prod.mk.injEq, Except.ok.injEq] at hrun
        exact ⟨hrun.2.symm, hrun.1.2.symm⟩
      | some r =>
        simp only [hr, run_bind] at hrun
        split at hrun
        · next hcopy =>
          have hwrites : (safeCopy (fun _ => v) page_table
              (fun pa len s => do return (← r.write (v.mem.bytes pa len), s)) buf size 0 ()).ReadOnly :=
            readOnly_safeCopy (fun _ _ _ => ((hresource r hr).write _).bind fun _ => .pure _) _ _ _ _
          have hsame := hwrites.run_snd d
          simp only [run_pure, Prod.mk.injEq, Except.ok.injEq] at hrun
          exact ⟨hrun.2.symm.trans ((congrArg Prod.snd hcopy).symm.trans hsame), hrun.1.2.symm⟩
        · cases hrun
    · rw [if_neg ht] at hrun
      split at hrun <;>
      · simp only [run_pure, Prod.mk.injEq, Except.ok.injEq] at hrun
        exact ⟨hrun.2.symm, hrun.1.2.symm⟩

/-- What is written to a file or a directory goes through the copy in the descriptor. -/
theorem run_sysWrite_file (hfd : getFileDescriptor fds fd_index = some i)
    (hfile : (fds i).file_type = .regular_file ∨ (fds i).file_type = .directory)
    (hrun : (sysWrite junk resource v page_table fds fd_index buf size).run d = (.ok (r, fds'), d')) :
    ∃ n f, (safeCopy (fun _ => v) page_table
        (fun pa len s => FileStream.write junk s (v.mem.bytes pa len)) buf size 0
        ⟨(fds i).offset, (fds i).inode⟩).run d = (.ok (n, f), d') ∧
      fds' = Function.update fds i
        { fds i with offset := ((fds i).offset + n) % 2 ^ 64, inode := f.inode } := by
  unfold sysWrite at hrun
  simp only [hfd, if_pos hfile, FileStream.seek] at hrun
  rcases hcopy : (safeCopy (fun _ => v) page_table
      (fun pa len s => FileStream.write junk s (v.mem.bytes pa len)) buf size 0
      ⟨(fds i).offset, (fds i).inode⟩).run d with ⟨e | ⟨n, f⟩, d₁⟩
  · rw [run_bind, hcopy] at hrun
    cases hrun
  · rw [run_bind, hcopy] at hrun
    simp only [run_pure, Prod.mk.injEq, Except.ok.injEq] at hrun
    obtain ⟨⟨-, rfl⟩, rfl⟩ := hrun
    exact ⟨n, f, rfl, rfl⟩

/-- If one descriptor changes, then the others are as they were. -/
theorem descriptors_update {fd : FileDescriptor} {good : InodeDef → Prop}
    (hfd : fd.file_type = (fds i).file_type ∧ fd.inode = (fds i).inode ∨ good fd.inode) (k : Fin 16) :
    (Function.update fds i fd k).file_type = (fds k).file_type ∧
      (Function.update fds i fd k).inode = (fds k).inode ∨ good (Function.update fds i fd k).inode := by
  by_cases hki : k = i
  · subst hki
    rw [Function.update_self]
    exact hfd
  · rw [Function.update_of_ne hki]
    exact .inl ⟨rfl, rfl⟩

/-- A write that keeps to files leaves the disk in order; a descriptor has the copy that it had, or one of
a regular file. -/
theorem run_sysWrite_updates (h : InOrder d L) (hresource : ∀ r, resource 0 0 = some r → r.OffDisk)
    (hcopies : ∀ i, (fds i).file_type ≠ .none → (fds i).inode.type = .regular_file →
      RegularCopy d L (fds i).inode)
    (hkeep : KeepsToFiles d fds (.sysWrite junk v page_table fd_index buf size))
    (hrun : (sysWrite junk resource v page_table fds fd_index buf size).run d = (.ok (r, fds'), d')) :
    ∃ L', InOrder d' L' ∧ Continues d L d' L' ∧
      ∀ i, (fds' i).file_type = (fds i).file_type ∧ (fds' i).inode = (fds i).inode ∨
        RegularCopy d' L' (fds' i).inode := by
  by_cases hfile : ∃ i, getFileDescriptor fds fd_index = some i ∧
      ((fds i).file_type = .regular_file ∨ (fds i).file_type = .directory)
  · obtain ⟨i, hfd, ht⟩ := hfile
    have hkeep := hkeep i hfd
    have hdevice : (fds i).file_type ≠ .device := by
      rcases ht with ht | ht <;> simp [ht]
    rw [if_neg hdevice] at hkeep
    obtain ⟨n, f, hcopy, rfl⟩ := run_sysWrite_file hfd ht hrun
    rcases hkeep with rfl | ⟨hregular, hclear⟩
    · rw [safeCopy, dif_neg (by omega)] at hcopy
      simp only [run_pure, Prod.mk.injEq, Except.ok.injEq] at hcopy
      obtain ⟨⟨-, rfl⟩, rfl⟩ := hcopy
      exact ⟨L, h, .refl _ L, descriptors_update (.inl ⟨rfl, rfl⟩)⟩
    · obtain ⟨L', hu⟩ := run_safeCopy_updates h (hcopies i (of_getFileDescriptor hfd) hregular)
        hclear 0 hcopy
      exact ⟨L', hu.inOrder, hu.toContinues, descriptors_update (.inr hu.copy)⟩
  · obtain ⟨rfl, rfl⟩ := run_sysWrite_other hresource (fun i hfd ht => hfile ⟨i, hfd, ht⟩)
      (fun i hfd ht => by have := hkeep i hfd; rwa [if_pos ht] at this) hrun
    exact ⟨L, h, .refl _ L, fun i => .inl ⟨rfl, rfl⟩⟩

/-! ## One call -/

/-- `sys_read` moves an offset at most. -/
theorem descriptors_sysRead {v' : VirtualMemory}
    (hrun : (sysRead resource v page_table fds fd_index buf size).run d = (.ok (r, fds', v'), d'))
    (i : Fin 16) : (fds' i).file_type = (fds i).file_type ∧ (fds' i).inode = (fds i).inode := by
  unfold sysRead at hrun
  cases hfd : getFileDescriptor fds fd_index with
  | none =>
    simp only [hfd, run_pure, Prod.mk.injEq, Except.ok.injEq] at hrun
    obtain ⟨⟨-, rfl, -⟩, -⟩ := hrun
    exact ⟨rfl, rfl⟩
  | some k =>
    simp only [hfd] at hrun
    split at hrun
    · rw [run_bind] at hrun
      split at hrun
      · simp only [run_pure, Prod.mk.injEq, Except.ok.injEq] at hrun
        obtain ⟨⟨-, rfl, -⟩, -⟩ := hrun
        by_cases hik : i = k
        · subst hik
          rw [Function.update_self]
          exact ⟨rfl, rfl⟩
        · rw [Function.update_of_ne hik]
          exact ⟨rfl, rfl⟩
      · cases hrun
    · split at hrun
      · split at hrun
        · simp only [run_pure, Prod.mk.injEq, Except.ok.injEq] at hrun
          obtain ⟨⟨-, rfl, -⟩, -⟩ := hrun
          exact ⟨rfl, rfl⟩
        · rw [run_bind] at hrun
          split at hrun
          · simp only [run_pure, Prod.mk.injEq, Except.ok.injEq] at hrun
            obtain ⟨⟨-, rfl, -⟩, -⟩ := hrun
            exact ⟨rfl, rfl⟩
          · cases hrun
      · split at hrun <;>
        · simp only [run_pure, Prod.mk.injEq, Except.ok.injEq] at hrun
          obtain ⟨⟨-, rfl, -⟩, -⟩ := hrun
          exact ⟨rfl, rfl⟩

/-- `sys_create` puts a copy of a record into a free descriptor, at most. -/
theorem run_sysCreate_cases {junk : ℕ → Sector} {cwd : List UInt8} {path : Option CString}
    {file_type : FileType} (h : InOrder d L)
    (hrun : (sysCreate junk cwd fds path file_type).run d = (.ok (r, fds'), d')) :
    ∃ L', InOrder d' L' ∧ Continues d L d' L' ∧ (fds' = fds ∨ ∃ i j y,
      fds' = Function.update fds i ⟨file_type, 0, j, y⟩ ∧
        (y.type = .regular_file → RegularCopy d' L' y)) := by
  unfold sysCreate at hrun
  split at hrun
  · simp only [run_pure, Prod.mk.injEq, Except.ok.injEq] at hrun
    obtain ⟨⟨-, rfl⟩, rfl⟩ := hrun
    exact ⟨L, h, .refl d L, .inl rfl⟩
  · next hguard =>
    have htype : file_type ≠ .none := by
      rintro rfl
      simp at hguard
    rcases hcreate : (create junk cwd path file_type 0 0).run d with ⟨res, e⟩
    obtain ⟨L', ho, ha, hcopy⟩ := h.run_create_inOrder htype hcreate
    rw [run_bind, hcreate] at hrun
    rcases res with f | _ | y
    · cases hrun
    · simp only [run_pure, Prod.mk.injEq, Except.ok.injEq] at hrun
      obtain ⟨⟨-, rfl⟩, rfl⟩ := hrun
      exact ⟨L', ho, ha, .inl rfl⟩
    · simp only [run_pure, Prod.mk.injEq, Except.ok.injEq] at hrun
      obtain ⟨hok, rfl⟩ := hrun
      have hfds := congrArg Prod.snd hok
      refine ⟨L', ho, ha, ?_⟩
      rcases installDescriptor_cases fds file_type y.inode_index.toNat y with hsame | ⟨i, -, hi⟩
      · exact .inl (hfds.symm.trans hsame)
      · rw [hi] at hfds
        exact .inr ⟨i, _, y, hfds.symm, hcopy y rfl⟩

section Runs

variable {π : Type} [DecidableEq π] {s t : OpenFiles π} {p : π} {c : FileCall} {L' : Ledger}

/-- The descriptors of one process change; those of regular files keep their copies or get good ones. -/
theorem CallsInOrder.update (h : CallsInOrder L s) (ho : InOrder t.disk L')
    (ha : Continues s.disk L t.disk L') (htables : t.tables = Function.update s.tables p fds)
    (hfds : ∀ i, (fds i).file_type ≠ .none → (fds i).inode.type = .regular_file →
      (fds i).file_type = (s.tables p i).file_type ∧ (fds i).inode = (s.tables p i).inode ∨
        RegularCopy t.disk L' (fds i).inode) : CallsInOrder L' t := by
  refine ⟨ho, fun q i hq hregular => ?_⟩
  rw [htables] at hq hregular ⊢
  by_cases hqp : q = p
  · subst hqp
    rw [Function.update_self] at hq hregular ⊢
    rcases hfds i hq hregular with ⟨ht, hi⟩ | hcopy
    · rw [ht] at hq
      rw [hi] at hregular ⊢
      exact (h.copies q i hq hregular).continues ha
    · exact hcopy
  · rw [Function.update_of_ne hqp] at hq hregular ⊢
    exact (h.copies q i hq hregular).continues ha

/-- One descriptor of one process changes. -/
theorem CallsInOrder.updateOne {i : Fin 16} {fd : FileDescriptor} (h : CallsInOrder L s)
    (ho : InOrder t.disk L') (ha : Continues s.disk L t.disk L')
    (htables : t.tables = Function.update s.tables p (Function.update (s.tables p) i fd))
    (hfd : fd.file_type ≠ .none → fd.inode.type = .regular_file → RegularCopy t.disk L' fd.inode) :
    CallsInOrder L' t := by
  refine h.update ho ha htables fun k hk hregular => ?_
  by_cases hki : k = i
  · subst hki
    rw [Function.update_self] at hk hregular ⊢
    exact .inr (hfd hk hregular)
  · rw [Function.update_of_ne hki]
    exact .inl ⟨rfl, rfl⟩

theorem CallsInOrder.same (h : CallsInOrder L s) (ho : InOrder t.disk L')
    (ha : Continues s.disk L t.disk L')
    (htables : t.tables = Function.update s.tables p (s.tables p)) : CallsInOrder L' t :=
  h.update ho ha htables fun _ _ _ => .inl ⟨rfl, rfl⟩

/-- A call that keeps to files leaves everything in order. -/
theorem CallsInOrder.step (h : CallsInOrder L s)
    (hresource : ∀ r, resource 0 0 = some r → r.OffDisk) (hc : KeepsToFiles s.disk (s.tables p) c)
    (hstep : s.Makes resource p c r t) : HasLedger t := by
  obtain ⟨fds, hrun, htables⟩ := hstep
  have hstay : ∀ {e : Disk}, e = s.disk → InOrder e L ∧ Continues s.disk L e L := by
    rintro e rfl
    exact ⟨h.disk, .refl _ L⟩
  cases c with
  | sysOpen cwd path =>
    obtain ⟨hdisk, hfds⟩ := run_sysOpen_cases h.disk.tree hrun
    obtain ⟨ho, ha⟩ := hstay hdisk
    rcases hfds with rfl | ⟨i, j, hj, -, rfl⟩
    · exact ⟨L, h.same ho ha htables⟩
    · refine ⟨L, h.updateOne ho ha htables fun _ ht => ?_⟩
      exact (h.disk.regularCopy hj ht).continues ha
  | sysCreate junk cwd path file_type =>
    obtain ⟨L', ho, ha, rfl | ⟨i, j, y, rfl, hcopy⟩⟩ := run_sysCreate_cases h.disk hrun
    · exact ⟨L', h.same ho ha htables⟩
    · exact ⟨L', h.updateOne ho ha htables fun _ ht => hcopy ht⟩
  | sysMkdir junk cwd path =>
    rcases hcreate : (create junk cwd path .directory 0 0).run s.disk with ⟨res, e⟩
    obtain ⟨L', ho, ha, -⟩ := h.disk.run_create_inOrder (by simp) hcreate
    simp only [FileCall.prog, sysMkdir, run_bind, hcreate] at hrun
    rcases res with f | _ | y
    · cases hrun
    all_goals
      simp only [run_pure, Prod.mk.injEq, Except.ok.injEq] at hrun
      obtain ⟨⟨-, rfl⟩, rfl⟩ := hrun
      exact ⟨L', h.same ho ha htables⟩
  | sysMknod junk cwd path major minor =>
    rcases hcreate : (create junk cwd path .device major minor).run s.disk with ⟨res, e⟩
    obtain ⟨L', ho, ha, -⟩ := h.disk.run_create_inOrder (by simp) hcreate
    simp only [FileCall.prog, sysMknod, run_bind, hcreate] at hrun
    rcases res with f | _ | y
    · cases hrun
    all_goals
      simp only [run_pure, Prod.mk.injEq, Except.ok.injEq] at hrun
      obtain ⟨⟨-, rfl⟩, rfl⟩ := hrun
      exact ⟨L', h.same ho ha htables⟩
  | sysWrite junk v page_table fd_index buf size =>
    obtain ⟨L', ho, ha, hfds⟩ := run_sysWrite_updates h.disk hresource (h.copies p) hc hrun
    exact ⟨L', h.update ho ha htables fun i _ _ => hfds i⟩
  | sysRead v page_table fd_index buf size =>
    have hsame := (readOnly_sysRead v page_table buf size hresource hc).run_snd s.disk
    simp only [FileCall.prog, run_bind] at hrun
    split at hrun
    · next res e hread =>
      rw [hread] at hsame
      obtain ⟨r', fds', v'⟩ := res
      simp only [run_pure, Prod.mk.injEq, Except.ok.injEq] at hrun
      obtain ⟨⟨-, rfl⟩, hdisk⟩ := hrun
      obtain ⟨ho, ha⟩ := hstay (hdisk.symm.trans hsame)
      exact ⟨L, h.update ho ha htables fun i _ _ => .inl (descriptors_sysRead hread i)⟩
    · cases hrun
  | sysClose fd_index =>
    simp only [FileCall.prog, run_pure, Prod.mk.injEq, Except.ok.injEq] at hrun
    obtain ⟨hclose, hdisk⟩ := hrun
    obtain ⟨ho, ha⟩ := hstay hdisk.symm
    unfold sysClose at hclose
    split at hclose
    · obtain ⟨-, rfl⟩ := Prod.mk.inj hclose
      exact ⟨L, h.same ho ha htables⟩
    · obtain ⟨-, rfl⟩ := Prod.mk.inj hclose
      exact ⟨L, h.updateOne ho ha htables fun hopen => absurd rfl hopen⟩

/-! ## Runs -/

omit [DecidableEq π] in
theorem Booted.hasLedger {size : ℕ} (h : Booted size files s) (h42 : 42 ≤ size) (hsize : size < 2 ^ 31)
    (hfits : Fits (size - 42) files) (hnames : DistinctNames (size - 42) files) : HasLedger s := by
  obtain ⟨m, k, hlaid, hdisk, -⟩ := laid_of_fits h42 hsize hfits hnames
  refine ⟨recordedLedger s.disk, ?_, fun p i hopen => absurd (h.closed p i) hopen⟩
  rw [h.disk, hdisk]
  exact hlaid.tree.inOrder

/-- The directories of an image of files that fit, by names that differ, stay intact through calls of any
processes, one at a time, as long as what is written to files is written through the inodes of regular
files, with new indirect blocks on clear stacks, and devices are those that are registered. -/
theorem directories_intact {size : ℕ} (h42 : 42 ≤ size) (hsize : size < 2 ^ 31)
    (hfits : Fits (size - 42) files) (hnames : DistinctNames (size - 42) files)
    (hresource : ∀ r, resource 0 0 = some r → r.OffDisk)
    (h : ReachedFromImage resource size files KeepsToFiles s) : DirectoriesIntact s.disk := by
  obtain ⟨L, hs⟩ : HasLedger s := Reachable.invariant h
    (fun _ hs => hs.hasLedger h42 hsize hfits hnames)
    fun _ _ ⟨_, hs⟩ ⟨_, _, _, hc, hstep⟩ => hs.step hresource hc hstep
  exact directoriesIntact_of_inOrder hs.disk

end Runs

/-! ## An image without files -/

/-- The root directory of an image without files is empty. -/
theorem empty_image : ∃ d x, d = mkfsDisk 100 [] ∧ FsTree d ∧ inodeAt d 0 = x ∧ Empty x 0 ∧
    x.type = .directory ∧ freeCount d = 58 ∧ nextInode d ≠ none := by
  have h := @Mkfs.laid_start 100 (by omega) (by omega)
  have hcur : (Mkfs.start (superBlock 100)).cur_data_block = 42 := h.counted.block
  refine ⟨_, _, (Mkfs.disk_putInode _ _).symm, h.tree, Mkfs.inodeAt_final_zero, empty_sampleRoot, rfl,
    ?_, fun hn => ?_⟩
  · have hclear : ∀ k, bitAt ((Mkfs.start (superBlock 100)).disk 41).byte k = false := fun k => by
      by_contra hbit
      have := (h.marked (k + 42)).mp ⟨by omega, by simpa using hbit⟩
      omega
    have hcount : dataCount (Mkfs.start (superBlock 100)).disk = 58 := h.dataCount_eq (by omega) (by omega)
    have h41 : freeCount (Mkfs.start (superBlock 100)).final =
        freeCount (Mkfs.start (superBlock 100)).disk :=
      freeCount_congr (Mkfs.final_outside (.inl rfl)) (Mkfs.final_outside (.inr le_rfl))
    refine h41.trans ?_
    rw [freeCount, hcount, Finset.filter_true_of_mem fun k _ => hclear k]
    rfl
  · exact h.unused 1 (by simp) ⟨by omega, nextInode_eq_none_iff.mp hn 1 (by omega)⟩

theorem fits_nil (n : ℕ) : Fits n [] ∧ DistinctNames n [] :=
  ⟨fun j hj => absurd hj (Nat.not_lt_zero j), fun j hj => absurd hj (Nat.not_lt_zero j)⟩

/-- `/a` is made, and a byte is written to it. -/
theorem directories_intact_sample : ∃ s : OpenFiles Unit,
    (s.tables () 0).inode.size.toNat = 1 ∧ DirectoriesIntact s.disk := by
  obtain ⟨d, x, hd, htree, rfl, hempty, -, hfree, hinodes⟩ := empty_image
  obtain ⟨j, hj⟩ := Option.ne_none_iff_exists'.mp hinodes
  obtain ⟨e, htree', huse, hrec, hcount, hcreate, -⟩ := run_create_emptyFile htree hempty (by omega) hj
  have hbooted : ReachedFromImage (fun _ _ => none) 100 [] KeepsToFiles (oneProcess d []) :=
    .start ⟨hd, fun _ _ => rfl⟩
  have hidx : (newInode j .regular_file 0 0).inode_index.toNat = j := toNat_newInode huse.1
  have hsys : (sysCreate (fun _ => .ofFn fun _ => 7) [slash] (fun i => [].getD i.val {})
      (some ⟨[47, 97], by decide⟩) .regular_file).run d =
        (.ok ((0 : ℤ), Function.update (fun i => [].getD i.val {}) 0 (emptyFile j)), e) := by
    simp only [sysCreate, ne_eq, not_true_eq_false, and_false, if_false, run_bind, hcreate, run_pure,
      hidx, installDescriptor, freeDescriptor_closed]
    rfl
  have hmade : ReachedFromImage (fun _ _ => none) 100 [] KeepsToFiles (oneProcess e [emptyFile j]) := by
    refine .step hbooted ⟨(), .sysCreate (fun _ => .ofFn fun _ => 7) [slash]
      (some ⟨[47, 97], by decide⟩) .regular_file, _, trivial, _, hsys, ?_⟩
    funext _ i
    fin_cases i <;> rfl
  have hone : UserBuffer sampleMemory 4096 4095 1 := by decide +kernel
  obtain ⟨e', y, hrun, -, -, -, hsize, -⟩ := run_sysWrite_empty (.ofFn fun _ => 7) (fun _ _ => none)
    huse.1 htree'.wf.formatted (by omega) (by omega) (by omega) (by omega) (by omega) hone
    (show getFileDescriptor ((oneProcess e [emptyFile j]).tables ()) 0 = some 0 from rfl)
    (.inl rfl) rfl (empty_newInode huse.1)
  have hwritten : ReachedFromImage (fun _ _ => none) 100 [] KeepsToFiles
      (⟨e', fun _ => Function.update ((oneProcess e [emptyFile j]).tables ()) 0
        { emptyFile j with offset := 1, inode := y }⟩ : OpenFiles Unit) := by
    refine .step hmade ⟨(), .sysWrite (.ofFn fun _ => 7) sampleMemory 4096 0 4095 1, _, ?_, _, hrun, rfl⟩
    rintro i hi
    obtain rfl : 0 = i := Option.some.inj hi
    have hlen := longestPiece_le sampleMemory 4096 4095 1
    exact .inr ⟨rfl, fun hc => by
      have : 512 * 12 < 0 + longestPiece sampleMemory 4096 4095 1 := hc.2.1
      omega⟩
  exact ⟨_, hsize, directories_intact (by omega) (by omega) (fits_nil _).1 (fits_nil _).2 (by simp)
    hwritten⟩

/-- A byte that is written through a descriptor of the root directory is a part of an element. -/
theorem directories_broken : ¬ ∀ (resource : UInt8 → UInt8 → Option Resource) (size : ℕ)
    (files : List HostFile) (s : OpenFiles Unit), 42 ≤ size → size < 2 ^ 31 → Fits (size - 42) files →
    DistinctNames (size - 42) files → (∀ r, resource 0 0 = some r → r.OffDisk) →
    ReachedFromImage resource size files (fun _ _ _ => True) s → DirectoriesIntact s.disk := by
  intro hall
  obtain ⟨d, x, hd, htree, hroot, hempty, htype, hfree, -⟩ := empty_image
  have hp : parsePath [slash] (some ⟨[slash], by decide⟩) .zero = .ok (0, putRows .zero 0 []) :=
    parsePath_abs [] [slash] (by simp) (.inr rfl) trivial (by simp) (by simp) (by decide)
  have hopen : (openPath [slash] (some ⟨[slash], by decide⟩)).run d = (.ok (some (0, x)), d) := by
    rw [run_openPath htree.tree.walkable hp le_rfl, ← hroot]
    rfl
  have hbooted : ReachedFromImage (fun _ _ => none) 100 [] (fun _ _ _ => True) (oneProcess d []) :=
    .start ⟨hd, fun _ _ => rfl⟩
  have hopened : ReachedFromImage (fun _ _ => none) 100 [] (fun _ _ _ => True)
      (oneProcess d [⟨.directory, 0, 0, x⟩]) := by
    have hsys := run_sysOpen hopen freeDescriptor_closed
    rw [htype] at hsys
    refine .step hbooted ⟨(), .sysOpen [slash] (some ⟨[slash], by decide⟩), _, trivial, _, hsys, ?_⟩
    funext _ i
    fin_cases i <;> rfl
  have hone : UserBuffer sampleMemory 4096 4095 1 := by decide +kernel
  obtain ⟨e, y, hrun, -, hself, hy, hsize, -⟩ := run_sysWrite_empty (.ofFn fun _ => 0) (fun _ _ => none)
    (show 0 < 320 by omega) htree.wf.formatted (by omega) (by omega) (by omega) (by omega) (by omega) hone
    (show getFileDescriptor ((oneProcess d [⟨.directory, 0, 0, x⟩]).tables ()) 0 = some 0 from rfl)
    (.inr rfl) rfl hempty
  have hwritten : ReachedFromImage (fun _ _ => none) 100 [] (fun _ _ _ => True)
      (⟨e, fun _ => _⟩ : OpenFiles Unit) :=
    .step hopened ⟨(), .sysWrite (.ofFn fun _ => 0) sampleMemory 4096 0 4095 1, _, trivial, _, hrun, rfl⟩
  have hintact := hall _ 100 [] _ (by omega) (by omega) (fits_nil _).1 (fits_nil _).2 (by simp) hwritten
  have hwhole := (hintact.whole 0 hintact.root).aligned
  rw [hself, hsize] at hwhole
  omega

end OrangeOs.Kernel
