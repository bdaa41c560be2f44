import Mathlib.Tactic.FinCases
import OrangeOs.Filesystem.Copies
import OrangeOs.Filesystem.CreateSpec
import OrangeOs.Kernel.SysRead
import OrangeOs.Library.Runs

/-! # Several descriptors of one file

Processes make calls on files one at a time. Each descriptor has its own copy of the inode: a write
that goes past the size of the copy replaces the record by the copy, whatever was written through
other descriptors since then. As long as no such write is made through a copy that is out of date,
each write is applied to what the writes before it left.
-/

namespace OrangeOs.Kernel

open Fs
open Prog hiding ret

/-- The disk and the descriptors of the processes. -/
structure OpenFiles (π : Type) where
  disk : Disk
  tables : π → FileTable

/-- A call with its arguments, the current path and the memory of the process, and what the stack holds
where it is not assigned. -/
inductive FileCall where
  | sysOpen (current_path : List UInt8) (path_name : Option CString)
  | sysCreate (junk : ℕ → Sector) (current_path : List UInt8) (path_name : Option CString)
      (file_type : FileType)
  | sysMkdir (junk : ℕ → Sector) (current_path : List UInt8) (path_name : Option CString)
  | sysMknod (junk : ℕ → Sector) (current_path : List UInt8) (path_name : Option CString)
      (major minor : UInt8)
  | sysWrite (junk : Sector) (v : VirtualMemory) (page_table : ℕ) (fd_index : ℤ) (buf size : ℕ)
  | sysRead (v : VirtualMemory) (page_table : ℕ) (fd_index : ℤ) (buf size : ℕ)
  | sysClose (fd_index : ℤ)

/-- What a call does, with the descriptors of the process that makes it. -/
def FileCall.prog (resource : UInt8 → UInt8 → Option Resource) (fds : FileTable) :
    FileCall → FsProg (ℤ × FileTable)
  | sysOpen current_path path_name => Kernel.sysOpen current_path fds path_name
  | sysCreate junk current_path path_name file_type =>
    Kernel.sysCreate junk current_path fds path_name file_type
  | sysMkdir junk current_path path_name => do
    return (← Kernel.sysMkdir junk current_path path_name, fds)
  | sysMknod junk current_path path_name major minor => do
    return (← Kernel.sysMknod junk current_path path_name major minor, fds)
  | sysWrite junk v page_table fd_index buf size =>
    Kernel.sysWrite junk resource v page_table fds fd_index buf size
  | sysRead v page_table fd_index buf size => do
    let (r, fds, _) ← Kernel.sysRead resource v page_table fds fd_index buf size
    return (r, fds)
  | sysClose fd_index => return Kernel.sysClose fds fd_index

section Calls

variable {π : Type} [DecidableEq π]

/-- Process `p` makes a call, which returns `r`. -/
def OpenFiles.Makes (resource : UInt8 → UInt8 → Option Resource) (s : OpenFiles π) (p : π)
    (c : FileCall) (r : ℤ) (t : OpenFiles π) : Prop :=
  ∃ fds, (c.prog resource (s.tables p)).run s.disk = (.ok (r, fds), t.disk) ∧
    t.tables = Function.update s.tables p fds

end Calls

/-- A write through the descriptor `fd` of a buffer that is mapped: it stays below the largest file size,
the bytes of the buffer come one after the other, the copy of the inode is not out of date, and a new
indirect block is made on a stack that is clear. -/
structure UpToDate (d : Disk) (junk : Sector) (v : VirtualMemory) (page_table : ℕ) (fd : FileDescriptor)
    (buf size : ℕ) : Prop where
  addr : buf < 2 ^ 64
  buffer : UserBuffer v page_table buf size
  limit : fd.offset + size ≤ 140 * 512
  place : InPlace d fd buf (userBytes v page_table buf size)
  current : Current (inodeAt d fd.inode.inode_index.toNat) fd.inode (fd.offset + size)
  clean : CreatesIndirect d (inodeAt d fd.inode.inode_index.toNat) fd.offset size →
    ∀ k, 1 ≤ k → k < 128 → indirectWord junk k = 0

/-- A descriptor of a regular file. -/
structure RefersTo (d : Disk) (fd : FileDescriptor) : Prop where
  file_type : fd.file_type = .regular_file
  type : fd.inode.type = .regular_file
  copy : CopyOf d fd.inode.inode_index.toNat fd.inode
  offset_le : fd.offset ≤ fd.inode.size.toNat

/-- The calls that open, read and write regular files. -/
def OfFiles (d : Disk) : FileCall → Prop
  | .sysOpen cwd path => ∀ j y, (openPath cwd path).run d = (.ok (some (j, y)), d) →
      y.type = .regular_file
  | .sysRead .. => True
  | .sysWrite .. => True
  | _ => False

/-- A call of this kind that does not write through a copy that is out of date. -/
def Undisturbed (d : Disk) (fds : FileTable) (c : FileCall) : Prop :=
  OfFiles d c ∧ ∀ junk v page_table fd_index buf size i,
    c = .sysWrite junk v page_table fd_index buf size → getFileDescriptor fds fd_index = some i →
    UpToDate d junk v page_table (fds i) buf size

/-- No file is open. -/
structure AllClosed {π : Type} (s : OpenFiles π) : Prop where
  tree : FsTree s.disk
  closed : ∀ p i, (s.tables p i).file_type = .none

/-- Every open descriptor is one of a regular file. -/
structure AllRefer {π : Type} (s : OpenFiles π) : Prop where
  tree : FsTree s.disk
  refers : ∀ p i, (s.tables p i).file_type ≠ .none → RefersTo s.disk (s.tables p i)

variable {d d' : Disk} {x : InodeDef} {v : VirtualMemory} {fds fds' : FileTable} {fd : FileDescriptor}
  {i : Fin 16} {fd_index r : ℤ} {j pos page_table buf size done : ℕ} {ps : List (List UInt8)}
  {junk : Sector} {resource : UInt8 → UInt8 → Option Resource} {cwd : List UInt8}
  {path : Option CString}

/-! ## Reading -/

/-- Whatever the memory of the process, the loop of `sys_read` ends within the file. -/
theorem run_safeCopy_readFile_le (page_table : ℕ) (v : VirtualMemory) (hpos : pos ≤ x.size.toNat)
    (hsize : x.size.toNat ≤ 512 * 140) (buf size done : ℕ) :
    ∃ k v', k ≤ x.size.toNat - pos ∧
      (safeCopy Prod.snd page_table readFile buf size done (⟨pos, x⟩, v)).run d =
        (.ok (done + k, (⟨pos + k, x⟩, v')), d) := by
  induction size using Nat.strong_induction_on generalizing pos v buf done with
  | _ size ih =>
  rw [safeCopy]
  by_cases h0 : size > 0
  · obtain ⟨k, hpa⟩ := vaToPA_translate v page_table buf
    generalize (translate v page_table buf).getD 0 = pa at hpa
    obtain ⟨len, hlen⟩ : ∃ len, len = min (4096 - pa % 4096) size := ⟨_, rfl⟩
    have hmod : pa % 4096 < 4096 := Nat.mod_lt _ (by omega)
    have hrun := run_readFile (d := d) (n := len) v pa hpos hsize rfl
    have hbytes : (((contents d x).drop pos).take len).length = min len (x.size.toNat - pos) := by
      rw [List.length_take, List.length_drop, length_contents]
    rw [dif_pos h0]
    simp only [hpa, PGSIZE, ← hlen, run_bind_ok hrun]
    rw [hbytes]
    by_cases hshort : min len (x.size.toNat - pos) < len
    · rw [if_pos hshort]
      exact ⟨min len (x.size.toNat - pos), _, by omega, rfl⟩
    · rw [if_neg hshort]
      obtain ⟨k, v', hk, hrest⟩ := ih (size - len) (by omega)
        { v with mem := v.mem.put pa (min len (x.size.toNat - pos)) (((contents d x).drop pos).take len) }
        (show pos + min len (x.size.toNat - pos) ≤ x.size.toNat by omega) ((buf + len) % 2 ^ 64)
        (done + min len (x.size.toNat - pos))
      refine ⟨min len (x.size.toNat - pos) + k, v', by omega, ?_⟩
      rw [hrest, Nat.add_assoc, Nat.add_assoc]
  · rw [dif_neg h0]
    exact ⟨0, v, Nat.zero_le _, rfl⟩

/-- `sys_read` moves the offset of the descriptor within the file, and changes nothing else. -/
theorem run_sysRead_offset (resource : UInt8 → UInt8 → Option Resource) (v : VirtualMemory)
    (page_table buf size : ℕ) (hfd : getFileDescriptor fds fd_index = some i)
    (ht : (fds i).file_type = .regular_file) (hoffset : (fds i).offset ≤ (fds i).inode.size.toNat)
    (hsize : (fds i).inode.size.toNat ≤ 512 * 140) : ∃ r k v',
      (fds i).offset + k ≤ (fds i).inode.size.toNat ∧
      (sysRead resource v page_table fds fd_index buf size).run d =
        (.ok (r, Function.update fds i { fds i with offset := (fds i).offset + k }, v'), d) := by
  obtain ⟨k, v', hk, hrun⟩ := run_safeCopy_readFile_le (d := d) page_table v hoffset hsize buf
    size 0
  refine ⟨toInt k, k, v', by omega, ?_⟩
  rw [Nat.zero_add] at hrun
  simp only [sysRead, hfd, ht, true_or, if_true, FileStream.seek, run_bind, hrun, run_pure,
    Nat.mod_eq_of_lt (show (fds i).offset + k < 2 ^ 64 by omega)]

/-! ## Writing -/

/-- The pieces of a buffer, written within the copy. -/
theorem run_eachPiece_within (junk : Sector) (h : FsTree d) (hdir : ¬ IsDir d j) (hx : CopyOf d j x)
    (hps : ∀ p ∈ ps, pos + p.length ≤ x.size.toNat) (done : ℕ) :
    ∃ d', (eachPiece (fun p s => FileStream.write junk s p) ps done ⟨pos, x⟩).run d =
        (.ok (done + ps.flatten.length, ⟨pos, x⟩), d') ∧ Retains d j d' ∧ FsTree d' ∧
      contents d' (inodeAt d' j) = overwriteAll (contents d (inodeAt d j)) pos ps := by
  induction ps generalizing d done with
  | nil => exact ⟨d, rfl, .refl d j, h, rfl⟩
  | cons p ps ih =>
    obtain ⟨d₁, hrun, happ, htree⟩ := write_within h hdir hx (hps p List.mem_cons_self) junk
    have hdir₁ : ¬ IsDir d₁ j := fun hj => hdir ⟨hj.1, by
      have := hj.2
      rwa [happ.inode] at this⟩
    obtain ⟨d₂, hrun₂, hret₂, htree₂, hcont₂⟩ := ih htree hdir₁ (happ.copyOf hx)
      (fun q hq => hps q (List.mem_cons_of_mem _ hq)) (done + p.length)
    refine ⟨d₂, ?_, happ.toRetains.trans h.wf hret₂, htree₂, ?_⟩
    · have hstep : (FileStream.write junk ⟨pos, x⟩ p).run d = (.ok (p.length, ⟨pos, x⟩), d₁) := by
        simp only [FileStream.write, run_bind, hrun, run_pure]
      rw [eachPiece, run_bind_ok hstep]
      simp only [lt_irrefl, if_false]
      rw [hrun₂, List.flatten_cons, List.length_append, Nat.add_assoc]
    · rw [hcont₂, happ.contents]
      rfl

/-- One piece, of which the stream may write a part only. -/
theorem run_eachPiece_one {m : ℕ} {p : List UInt8} {x' : InodeDef}
    (hrun : (write junk x p pos).run d = (.ok (m, x'), d')) :
    (eachPiece (fun p s => FileStream.write junk s p) [p] 0 ⟨pos, x⟩).run d =
      (.ok (m, ⟨pos, x'⟩), d') := by
  have hstep : (FileStream.write junk ⟨pos, x⟩ p).run d = (.ok (m, ⟨pos, x'⟩), d') := by
    simp only [FileStream.write, run_bind, hrun, run_pure]
  rw [eachPiece, run_bind_ok hstep]
  simp only [Nat.zero_add]
  split <;> rfl

/-- A call on a file hands the pieces of the buffer to the stream. -/
theorem run_sysWrite_pieces {m : ℕ} {x' : InodeDef} (resource : UInt8 → UInt8 → Option Resource)
    (hfd : getFileDescriptor fds fd_index = some i)
    (ht : (fds i).file_type = .regular_file ∨ (fds i).file_type = .directory) (hbuf : buf < 2 ^ 64)
    (hmapped : UserBuffer v page_table buf size) (hm : (fds i).offset + m ≤ 140 * 512)
    (hrun : (eachPiece (fun p s => FileStream.write junk s p)
      (pieces buf (userBytes v page_table buf size)) 0 ⟨(fds i).offset, (fds i).inode⟩).run d =
        (.ok (m, ⟨(fds i).offset, x'⟩), d')) :
    (sysWrite junk resource v page_table fds fd_index buf size).run d =
      (.ok ((m : ℤ), Function.update fds i { fds i with offset := (fds i).offset + m, inode := x' }),
        d') := by
  have hsafe : safeCopy (fun _ => v) page_table
        (fun pa len s => FileStream.write junk s (v.mem.bytes pa len)) buf size 0
        ⟨(fds i).offset, (fds i).inode⟩ =
      eachPiece (fun p s => FileStream.write junk s p) (pieces buf (userBytes v page_table buf size)) 0
        ⟨(fds i).offset, (fds i).inode⟩ :=
    safeCopy_eq (fun p s => FileStream.write junk s p) hbuf hmapped _
  simp only [sysWrite, hfd, ht, if_true, FileStream.seek, run_bind, hsafe, hrun, run_pure,
    toInt_of_lt (show m < 2 ^ 31 by omega), Nat.mod_eq_of_lt (show (fds i).offset + m < 2 ^ 64 by omega)]

/-- The bytes of the file that a copy shows are those of the record. -/
theorem fileByte_copyOf (hx : CopyOf d j x) {p : ℕ} (hp : p < x.size.toNat) :
    fileByte d x p = fileByte d (inodeAt d j) p := by
  rw [fileByte, fileByte, hx.slots _ (by simp only [fileBlocks, blocks]; omega)]

/-- A call through a copy that is up to date applies the bytes of the buffer to the file, up to where
the blocks run out. -/
theorem run_sysWrite_upToDate (resource : UInt8 → UInt8 → Option Resource) (h : FsTree d) (hfd : getFileDescriptor fds fd_index = some i)
    (href : RefersTo d (fds i)) (hup : UpToDate d junk v page_table (fds i) buf size) :
    ∃ (m : ℕ) (x' : InodeDef) (d' : Disk),
      (sysWrite junk resource v page_table fds fd_index buf size).run d =
        (.ok ((m : ℤ), Function.update fds i
          { fds i with offset := (fds i).offset + m, inode := x' }), d') ∧
      m ≤ size ∧ (m < size → freeCount d' = 0) ∧
      Applied d (fds i).inode.inode_index.toNat (fds i).offset
        ((userBytes v page_table buf size).take m) d' ∧
      FsTree d' ∧ RefersTo d' { fds i with offset := (fds i).offset + m, inode := x' } := by
  obtain ⟨hbuf, hmapped, hlimit, hplace, hcurrent, hclean⟩ := hup
  obtain ⟨ht, htype, hx, hoffset⟩ := href
  obtain ⟨bytes, hbytes⟩ : ∃ bytes, bytes = userBytes v page_table buf size := ⟨_, rfl⟩
  have hlen : bytes.length = size := by rw [hbytes, length_userBytes]
  have hdir : ¬ IsDir d (fds i).inode.inode_index.toNat := fun hd => by
    have hrec := hd.2
    rw [hx.inode] at htype
    rw [htype] at hrec
    cases hrec
  rw [← hbytes] at hplace ⊢
  by_cases hwithin : (fds i).offset + size ≤ (fds i).inode.size.toNat
  · have hps : ∀ p ∈ pieces buf bytes, (fds i).offset + p.length ≤ (fds i).inode.size.toNat :=
      fun p hp => by
        have := le_of_mem_pieces hp
        omega
    obtain ⟨d', hrun, hret, htree, hcont⟩ := run_eachPiece_within junk h hdir hx hps 0
    rw [flatten_pieces, hlen, Nat.zero_add] at hrun
    have hxy := hx.size_le
    have hpos : (fds i).offset ≤ (contents d (inodeAt d (fds i).inode.inode_index.toNat)).length := by
      rw [length_contents]
      omega
    have hover : overwriteAll (contents d (inodeAt d (fds i).inode.inode_index.toNat)) (fds i).offset
          (pieces buf bytes) =
        overwrite (contents d (inodeAt d (fds i).inode.inode_index.toNat)) (fds i).offset bytes := by
      refine (overwriteAll_pieces_iff hpos).mpr (hplace.imp_right fun hin => ⟨?_, fun k hk => ?_⟩)
      · rw [length_contents]
        omega
      · rw [charAt_contents (by omega), ← fileByte_copyOf hx (by omega)]
        exact hin.2 k hk
    refine ⟨size, (fds i).inode, d',
      run_sysWrite_pieces resource hfd (.inl ht) hbuf hmapped hlimit (hbytes ▸ hrun), le_rfl,
      fun hlt => absurd hlt (lt_irrefl _), ⟨hret, ?_⟩, htree, ht, htype, hret.copyOf hx, hwithin⟩
    rw [hcont, hover, List.take_of_length_le hlen.le]
  · -- the buffer lies in one page, and the copy has the block numbers of the record
    obtain ⟨haddr, hind, hend⟩ := hcurrent.resolve_left hwithin
    have hone : bytes.length ≤ 4096 - buf % 4096 :=
      hplace.resolve_right fun hin => hwithin (by have := hin.1; omega)
    have hpieces : pieces buf bytes = [bytes] := by
      rw [pieces_of_pos (by omega), List.take_of_length_le hone, List.drop_eq_nil_of_le hone, pieces_nil]
    obtain ⟨m, x', d', hrun, hm, hshort, happ, htree, hself, hsize⟩ := write_past junk bytes
      h hdir hx haddr hind hoffset (by omega) (by omega) (by rw [hlen]; exact hclean)
    rw [hlen] at hm hshort
    have hinode : inodeAt d' (fds i).inode.inode_index.toNat = x' := hself
    have hj' := happ.inUse hx.inUse
    have hidx : x'.inode_index.toNat = (fds i).inode.inode_index.toNat := by
      rw [← hself]
      exact htree.wf.index _ hj'
    have hone := run_eachPiece_one hrun
    rw [← hpieces, hbytes] at hone
    refine ⟨m, x', d', run_sysWrite_pieces resource hfd (.inl ht) hbuf hmapped (by omega) hone, hm, hshort, happ, htree,
      ht, ?_, ?_, hsize⟩
    · rw [← hself, happ.inode]
      rw [hx.inode] at htype
      exact htype
    · have hcopy := CopyOf.refl htree.wf hj'
      rw [hself, ← hidx] at hcopy
      exact hcopy

/-! ## Opening -/

theorem installDescriptor_cases (fds : FileTable) (file_type : FileType) (j : ℕ) (x : InodeDef) :
    (installDescriptor fds file_type j x).2 = fds ∨ ∃ i, (fds i).file_type = .none ∧
      installDescriptor fds file_type j x = ((i.val : ℤ), Function.update fds i ⟨file_type, 0, j, x⟩) := by
  rw [installDescriptor]
  cases hfree : freeDescriptor fds with
  | none => exact .inl rfl
  | some i => exact .inr ⟨i, by simpa using List.find?_some hfree, rfl⟩

/-- `sys_open` leaves the descriptors alone, or makes one with the record of the file. -/
theorem run_sysOpen_cases (h : Tree d)
    (hrun : (sysOpen cwd fds path).run d = (.ok (r, fds'), d')) :
    d' = d ∧ (fds' = fds ∨ ∃ i j, InUse d j ∧
      (openPath cwd path).run d = (.ok (some (j, inodeAt d j)), d) ∧
      fds' = Function.update fds i ⟨(inodeAt d j).type, 0, j, inodeAt d j⟩) := by
  have hd := (readOnly_openPath cwd path).run_snd d
  rw [sysOpen, run_bind] at hrun
  rcases hopen : (openPath cwd path).run d with ⟨res, e⟩
  rw [hopen] at hd hrun
  obtain rfl : e = d := hd
  rcases res with f | _ | ⟨j, y⟩
  · cases hrun
  · obtain ⟨hok, rfl⟩ := Prod.mk.inj hrun
    exact ⟨rfl, .inl (Prod.mk.inj (Except.ok.inj hok)).2.symm⟩
  · obtain ⟨hok, rfl⟩ := Prod.mk.inj hrun
    obtain ⟨level, tbl, -, -, hres, rfl⟩ := of_openPath_some h.walkable hopen
    have hfds := congrArg Prod.snd (Except.ok.inj hok)
    refine ⟨rfl, ?_⟩
    rcases installDescriptor_cases fds (inodeAt e j).type j (inodeAt e j) with hsame | ⟨i, -, hi⟩
    · exact .inl (hfds.symm.trans hsame)
    · rw [hi] at hfds
      exact .inr ⟨i, j, h.inUse_of_resolve h.root.inUse hres, rfl, hfds.symm⟩

/-! ## Runs -/

theorem of_getFileDescriptor (h : getFileDescriptor fds fd_index = some i) : (fds i).file_type ≠ .none := by
  unfold getFileDescriptor at h
  split at h
  · split at h
    · cases h
    · next hne =>
      obtain rfl := Option.some.inj h
      exact hne
  · cases h

theorem RefersTo.retains (h : RefersTo d fd) (hret : Retains d j d') : RefersTo d' fd :=
  ⟨h.file_type, h.type, hret.copyOf h.copy, h.offset_le⟩

section Runs

variable {π : Type} [DecidableEq π] {s t : OpenFiles π} {p : π} {c : FileCall}

/-- The descriptors of one process change. -/
theorem AllRefer.update (h : AllRefer s) (htree : FsTree t.disk)
    (htables : t.tables = Function.update s.tables p fds)
    (hkept : ∀ fd, RefersTo s.disk fd → RefersTo t.disk fd)
    (hfds : ∀ i, (fds i).file_type ≠ .none → fds i = s.tables p i ∨ RefersTo t.disk (fds i)) :
    AllRefer t := by
  refine ⟨htree, fun q i hq => ?_⟩
  rw [htables] at hq ⊢
  by_cases hqp : q = p
  · subst hqp
    rw [Function.update_self] at hq ⊢
    rcases hfds i hq with hsame | href
    · rw [hsame] at hq ⊢
      exact hkept _ (h.refers q i hq)
    · exact href
  · rw [Function.update_of_ne hqp] at hq ⊢
    exact hkept _ (h.refers q i hq)

/-- One descriptor of one process changes. -/
theorem AllRefer.updateOne (h : AllRefer s) (htree : FsTree t.disk)
    (htables : t.tables = Function.update s.tables p (Function.update (s.tables p) i fd))
    (hkept : ∀ fd, RefersTo s.disk fd → RefersTo t.disk fd) (hfd : RefersTo t.disk fd) : AllRefer t := by
  refine h.update htree htables hkept fun k hk => ?_
  by_cases hki : k = i
  · subst hki
    rw [Function.update_self]
    exact .inr hfd
  · rw [Function.update_of_ne hki]
    exact .inl rfl

theorem AllRefer.same (h : AllRefer s) (hdisk : t.disk = s.disk)
    (htables : t.tables = Function.update s.tables p (s.tables p)) : AllRefer t :=
  h.update (by rw [hdisk]; exact h.tree) htables (fun _ href => by rwa [hdisk]) fun _ _ => .inl rfl

theorem AllRefer.step (h : AllRefer s) (hc : Undisturbed s.disk (s.tables p) c)
    (hstep : s.Makes resource p c r t) : AllRefer t := by
  obtain ⟨fds, hrun, htables⟩ := hstep
  obtain ⟨hfiles, hwrites⟩ := hc
  cases c with
  | sysOpen cwd path =>
    obtain ⟨hdisk, rfl | ⟨i, j, hj, hopen, rfl⟩⟩ := run_sysOpen_cases h.tree.tree hrun
    · exact h.same hdisk htables
    · have ht : (inodeAt s.disk j).type = .regular_file := hfiles j _ hopen
      have hcopy := CopyOf.refl h.tree.wf hj
      refine h.updateOne (by rw [hdisk]; exact h.tree) htables (fun _ href => by rwa [hdisk]) ?_
      rw [hdisk]
      exact ⟨ht, ht, by rwa [h.tree.wf.index j hj], Nat.zero_le _⟩
  | sysRead v page_table fd_index buf size =>
    simp only [FileCall.prog] at hrun
    cases hfd : getFileDescriptor (s.tables p) fd_index with
    | none =>
      simp only [sysRead, hfd, run_bind, run_pure, Prod.mk.injEq, Except.ok.injEq] at hrun
      exact h.same hrun.2.symm (by rw [htables, ← hrun.1.2])
    | some i =>
      have href := h.refers p i (of_getFileDescriptor hfd)
      have hmapped := href.copy.mapped h.tree.wf
      obtain ⟨r', k, v', hk, hread⟩ := run_sysRead_offset (d := s.disk) resource v page_table
        buf size hfd href.file_type href.offset_le
        (by have := hmapped.le; have := fileBlocks_le (s.tables p i).inode; omega)
      simp only [run_bind, hread, run_pure, Prod.mk.injEq, Except.ok.injEq] at hrun
      obtain ⟨⟨-, rfl⟩, hdisk⟩ := hrun
      refine h.updateOne (by rw [← hdisk]; exact h.tree) htables (fun _ href => by rwa [← hdisk]) ?_
      rw [← hdisk]
      exact ⟨href.file_type, href.type, href.copy, hk⟩
  | sysWrite junk v page_table fd_index buf size =>
    simp only [FileCall.prog] at hrun
    cases hfd : getFileDescriptor (s.tables p) fd_index with
    | none =>
      simp only [sysWrite, hfd, run_pure, Prod.mk.injEq, Except.ok.injEq] at hrun
      exact h.same hrun.2.symm (by rw [htables, ← hrun.1.2])
    | some i =>
      have href := h.refers p i (of_getFileDescriptor hfd)
      obtain ⟨m, x', d', hwrite, -, -, happ, htree, hnew⟩ := run_sysWrite_upToDate resource
        h.tree hfd href (hwrites _ _ _ _ _ _ i rfl hfd)
      rw [hwrite, Prod.mk.injEq, Except.ok.injEq, Prod.mk.injEq] at hrun
      obtain ⟨⟨-, rfl⟩, rfl⟩ := hrun
      exact h.updateOne htree htables (fun _ href => href.retains happ.toRetains) hnew
  | sysCreate | sysMkdir | sysMknod | sysClose => exact absurd hfiles id

/-- The states that calls of this kind reach. -/
def Reached (resource : UInt8 → UInt8 → Option Resource)
    (allowed : Disk → FileTable → FileCall → Prop) : OpenFiles π → Prop :=
  Reachable AllClosed fun s t => ∃ p c r, allowed s.disk (s.tables p) c ∧ s.Makes resource p c r t

theorem Reached.allRefer (h : Reached resource Undisturbed s) : AllRefer s :=
  Reachable.invariant h (fun _ hs => ⟨hs.tree, fun p i hne => absurd (hs.closed p i) hne⟩)
    fun _ _ hs ⟨_, _, _, hc, hstep⟩ => hs.step hc hstep

/-- Calls that open, read and write regular files lose no write, as long as no write is made through a
copy that is out of date: the call returns, and its bytes are applied to what the calls before it
left, up to where the blocks run out. -/
theorem no_lost_update (h : Reached resource Undisturbed s)
    (hfd : getFileDescriptor (s.tables p) fd_index = some i)
    (hup : UpToDate s.disk junk v page_table (s.tables p i) buf size) :
    ∃ (m : ℕ) (t : OpenFiles π),
      s.Makes resource p (.sysWrite junk v page_table fd_index buf size) m t ∧
      m ≤ size ∧ (m < size → freeCount t.disk = 0) ∧
      Applied s.disk (s.tables p i).inode.inode_index.toNat (s.tables p i).offset
        ((userBytes v page_table buf size).take m) t.disk := by
  obtain ⟨m, x', d', hwrite, hm, hshort, happ, -, -⟩ := run_sysWrite_upToDate resource
    h.allRefer.tree hfd (h.allRefer.refers p i (of_getFileDescriptor hfd)) hup
  exact ⟨m, ⟨d', _⟩, ⟨_, hwrite, rfl⟩, hm, hshort, happ⟩

end Runs

/-! ## Two descriptors of an empty file -/

theorem run_sysOpen (hopen : (openPath cwd path).run d = (.ok (some (j, x)), d))
    (hfree : freeDescriptor fds = some i) : (sysOpen cwd fds path).run d =
      (.ok ((i.val : ℤ), Function.update fds i ⟨x.type, 0, j, x⟩), d) := by
  simp only [sysOpen, run_bind, hopen, installDescriptor, hfree, run_pure]

/-- Making `/a` where the root directory is empty. -/
theorem run_create_emptyFile (h : FsTree d) (hroot : Empty (inodeAt d 0) 0) (hfree : freeCount d ≠ 0)
    (hinodes : nextInode d = some j) : ∃ d', FsTree d' ∧ InUse d' j ∧
      inodeAt d' j = newInode j .regular_file 0 0 ∧ freeCount d' + 1 = freeCount d ∧
      (∀ junk, (create junk [slash] (some ⟨[47, 97], by decide⟩) .regular_file 0 0).run d =
        (.ok (some (newInode j .regular_file 0 0)), d')) ∧
      (openPath [slash] (some ⟨[47, 97], by decide⟩)).run d' =
        (.ok (some (j, newInode j .regular_file 0 0)), d') := by
  have hneed : appendNeed (inodeAt d 0) = 1 := hroot.appendNeed_eq
  have hempty : (dirEntries d (inodeAt d 0)).lookup [97] = none := by
    rw [dirEntries, hroot.size]
    rfl
  obtain ⟨d', hc, hrun⟩ := run_createFrom_named h h.tree.root hempty (by simp [IsName]) hinodes
    (by rw [hneed]; omega) [] .regular_file 0 0
  rw [if_pos rfl] at hc hrun
  have hd := h.created hc (by simp [newInode])
  have hres : resolve d' [[97]] 0 = some j := hc.resolve_append_name (q := []) h.tree.root.inUse rfl
  have hp : parsePath [slash] (some ⟨[47, 97], by decide⟩) .zero =
      .ok (1, putRows .zero 0 [[97]]) :=
    parsePath_abs [[97]] [] (by simp [IsComponent, slash]) (.inl rfl) (by simp [Fitting]) (by simp)
      (by simp [joinPath]) (by decide)
  have hrows : (putRows .zero 0 [[97]]).rows 1 = [[97]] := rows_putRows (by simp [IsName])
  have hcount := hc.free
  refine ⟨d', hd, hd.tree.inUse_of_resolve hd.tree.root.inUse hres, hc.record, by omega,
    fun junk => ?_, ?_⟩
  · rw [run_create hp (by omega), show (1 : ℤ).toNat = 1 from rfl, hrows, hrun, run_createFrom_nil]
  · rw [run_openPath hd.tree.walkable hp (by omega), show (1 : ℤ).toNat = 1 from rfl, hrows, hres,
      Option.map_some, hc.record]

/-- A disk on which `/a` is an empty file. -/
theorem exists_emptyFile : ∃ d j, FsTree d ∧ InUse d j ∧ inodeAt d j = newInode j .regular_file 0 0 ∧
    (openPath [slash] (some ⟨[47, 97], by decide⟩)).run d =
      (.ok (some (j, newInode j .regular_file 0 0)), d) ∧ freeCount d = 99 := by
  obtain ⟨htree, -⟩ := fsTree_rootDisk (n := 100) (by omega)
  have hroot : Empty (inodeAt (rootDisk 100) 0) 0 := by
    rw [inodeAt_rootDisk]
    exact ⟨rfl, rfl, by simp [InodeDef.addrAt], rfl⟩
  have hcount := freeCount_rootDisk (n := 100) (by omega)
  obtain ⟨j, hj⟩ : ∃ j, nextInode (rootDisk 100) = some j := by
    rw [← Option.ne_none_iff_exists', ne_eq, ← freeInodes_eq_zero_iff, freeInodes_rootDisk]
    omega
  obtain ⟨d, hd, huse, hrec, hfree, -, hopen⟩ := run_create_emptyFile htree hroot (by omega) hj
  exact ⟨d, j, hd, huse, hrec, hopen, by omega⟩

/-- A descriptor of an empty file. -/
def emptyFile (j : ℕ) : FileDescriptor := ⟨.regular_file, 0, j, newInode j .regular_file 0 0⟩

/-- One process whose first descriptors are `l`, all others being closed. -/
def oneProcess (d : Disk) (l : List FileDescriptor) : OpenFiles Unit := ⟨d, fun _ i => l.getD i.val {}⟩

theorem freeDescriptor_closed : freeDescriptor (fun i => [].getD i.val {}) = some 0 := rfl

theorem freeDescriptor_one : freeDescriptor (fun i => [emptyFile j].getD i.val {}) = some 1 := rfl

/-- The process opens the file once, and again. -/
theorem reached_emptyFile (resource : UInt8 → UInt8 → Option Resource)
    (allowed : Disk → FileTable → FileCall → Prop) (h : FsTree d)
    (hopen : (openPath [slash] (some ⟨[47, 97], by decide⟩)).run d =
      (.ok (some (j, newInode j .regular_file 0 0)), d))
    (hallowed : ∀ fds, allowed d fds (.sysOpen [slash] (some ⟨[47, 97], by decide⟩))) :
    Reached resource allowed (oneProcess d [emptyFile j]) ∧
      Reached resource allowed (oneProcess d [emptyFile j, emptyFile j]) := by
  have hstart : Reached resource allowed (oneProcess d []) := .start ⟨h, fun _ _ => rfl⟩
  have hfirst : Reached resource allowed (oneProcess d [emptyFile j]) := by
    refine .step hstart ⟨(), _, _, hallowed _, _, run_sysOpen hopen freeDescriptor_closed, ?_⟩
    funext _ i
    fin_cases i <;> rfl
  refine ⟨hfirst, .step hfirst ⟨(), _, _, hallowed _, _, run_sysOpen hopen freeDescriptor_one, ?_⟩⟩
  funext _ i
  fin_cases i <;> rfl

theorem ofFiles_open (hopen : (openPath cwd path).run d = (.ok (some (j, x)), d))
    (hx : x.type = .regular_file) : OfFiles d (.sysOpen cwd path) := by
  intro k y hk
  rw [hopen] at hk
  obtain ⟨-, rfl⟩ := Prod.mk.inj (Option.some.inj (Except.ok.inj (Prod.mk.inj hk).1))
  exact hx

/-- A byte is written to an empty file. -/
theorem no_lost_update_sample : ∃ (s : OpenFiles Unit) (m : ℕ) (t : OpenFiles Unit),
    s.Makes (fun _ _ => none) () (.sysWrite (.ofFn fun _ => 7) sampleMemory 4096 0 4095 1) m t ∧
      m ≤ 1 ∧ (m < 1 → freeCount t.disk = 0) := by
  obtain ⟨d, j, htree, hj, hrec, hopen, -⟩ := exists_emptyFile
  have hidx : (emptyFile j).inode.inode_index.toNat = j := by
    have := htree.wf.index j hj
    rwa [hrec] at this
  have hreached := (reached_emptyFile (fun _ _ => none) Undisturbed htree hopen
    fun fds => ⟨ofFiles_open hopen rfl, by rintro _ _ _ _ _ _ _ ⟨⟩⟩).1
  have hup : UpToDate d (.ofFn fun _ => 7) sampleMemory 4096 (emptyFile j) 4095 1 := by
    refine ⟨by decide, by decide +kernel, show 0 + 1 ≤ 140 * 512 by omega,
      .inl (by rw [length_userBytes]), ?_, fun hc => absurd hc.2.1 (show ¬ 512 * 12 < 0 + 1 by omega)⟩
    rw [hidx, hrec]
    exact .inr ⟨rfl, rfl, show 0 ≤ 0 + 1 by omega⟩
  obtain ⟨m, t, hmakes, hm, hshort, -⟩ :=
    no_lost_update (p := ()) hreached (show getFileDescriptor _ 0 = some 0 from rfl) hup
  exact ⟨_, m, t, hmakes, hm, hshort⟩

/-- A few bytes of one page are written through a descriptor of an empty file. -/
theorem run_sysWrite_empty (junk : Sector) (resource : UInt8 → UInt8 → Option Resource) (hj : j < 320)
    (hf : Formatted d) (hfree : freeCount d ≠ 0) (hpos : 0 < size) (hsize : size ≤ 512)
    (hone : size ≤ 4096 - buf % 4096) (hbuf : buf < 2 ^ 64) (hmapped : UserBuffer v page_table buf size)
    (hfd : getFileDescriptor fds fd_index = some i)
    (ht : (fds i).file_type = .regular_file ∨ (fds i).file_type = .directory)
    (hoffset : (fds i).offset = 0) (hempty : Empty (fds i).inode j) : ∃ d' x',
      (sysWrite junk resource v page_table fds fd_index buf size).run d =
        (.ok ((size : ℤ), Function.update fds i { fds i with offset := size, inode := x' }), d') ∧
      d' 0 = d 0 ∧ inodeAt d' j = x' ∧ x'.type = (fds i).inode.type ∧ x'.size.toNat = size ∧
      freeCount d' + 1 = freeCount d := by
  obtain ⟨bytes, hbytes⟩ : ∃ bytes, bytes = userBytes v page_table buf size := ⟨_, rfl⟩
  have hlen : bytes.length = size := by rw [hbytes, length_userBytes]
  have hblocks : blocks size = 1 := by rw [blocks]; omega
  obtain ⟨d', x', n', hrun, hw⟩ := run_write_all hf (hempty.mapped d) hempty.size.le
    (Nat.zero_le _) (by omega) (by rwa [hempty.index]) (.inr (hempty.vacant d)) (.inl (by omega))
    (show blocks (0 + bytes.length) - 0 ≤ freeCount d by rw [hlen, Nat.zero_add, hblocks]; omega)
  have hn := hw.blocks_eq
  have hcount := hw.free
  have hsz := hw.size
  have hrec := hw.record
  rw [hlen, Nat.zero_add, hblocks] at hn
  rw [hempty.size, hlen] at hsz
  rw [hempty.index, if_pos (by rw [hempty.size]; omega)] at hrec
  have hpieces : pieces buf bytes = [bytes] := by
    rw [pieces_of_pos (by omega), List.take_of_length_le (by omega), List.drop_eq_nil_of_le (by omega),
      pieces_nil]
  have hwrite : (write junk (fds i).inode bytes (fds i).offset).run d = (.ok (size, x'), d') := by
    rw [hoffset, hrun junk, hlen]
  have hpiece := run_eachPiece_one hwrite
  rw [← hpieces, hbytes] at hpiece
  have hsys := run_sysWrite_pieces (m := size) resource hfd ht hbuf hmapped (by omega) hpiece
  rw [hoffset, Nat.zero_add] at hsys
  exact ⟨d', x', hsys, hw.super, hrec, hw.type, by omega, by omega⟩

/-- After two bytes are written through one descriptor, a byte that is written through the other cuts the
file off. -/
theorem lost_update : ¬ ∀ (resource : UInt8 → UInt8 → Option Resource) (s t : OpenFiles Unit)
    (junk : Sector) (v : VirtualMemory) (page_table : ℕ) (fd_index r : ℤ) (buf size : ℕ) (i : Fin 16),
    Reached resource (fun d _ c => OfFiles d c) s →
    getFileDescriptor (s.tables ()) fd_index = some i → buf < 2 ^ 64 →
    UserBuffer v page_table buf size →
    s.Makes resource () (.sysWrite junk v page_table fd_index buf size) r t →
    Applied s.disk (s.tables () i).inode.inode_index.toNat (s.tables () i).offset
      ((userBytes v page_table buf size).take r.toNat) t.disk := by
  intro hall
  obtain ⟨d, j, htree, hj, hrec, hopen, hfree⟩ := exists_emptyFile
  have hreached := (reached_emptyFile (fun _ _ => none) (fun d _ c => OfFiles d c) htree hopen
    fun fds => ofFiles_open hopen rfl).2
  have htwo : UserBuffer sampleMemory 4096 4094 2 := by decide +kernel
  have hone : UserBuffer sampleMemory 4096 4094 1 := fun k hk => htwo k (by omega)
  obtain ⟨fds, hfds⟩ : ∃ fds, fds = (oneProcess d [emptyFile j, emptyFile j]).tables () := ⟨_, rfl⟩
  have hempty : Empty (newInode j .regular_file 0 0) j := empty_newInode hj.1
  obtain ⟨d₁, x₁, hrun₁, hsuper, hself₁, -, hsize₁, hcount₁⟩ := run_sysWrite_empty
    (.ofFn fun _ => 7) (fun _ _ => none) hj.1 htree.wf.formatted (by omega) (by omega) (by omega)
    (by omega) (by omega) htwo (show getFileDescriptor fds 0 = some 0 by rw [hfds]; rfl)
    (.inl (by rw [hfds]; rfl)) (by rw [hfds]; rfl) (by rw [hfds]; exact hempty)
  obtain ⟨fds₁, hfds₁⟩ : ∃ fds₁, fds₁ = Function.update fds 0
    { fds 0 with offset := 2, inode := x₁ } := ⟨_, rfl⟩
  obtain ⟨d₂, x₂, hrun₂, -, hself₂, -, hsize₂, -⟩ := run_sysWrite_empty
    (.ofFn fun _ => 7) (fun _ _ => none) hj.1 (htree.wf.formatted.congr hsuper) (by omega) (by omega)
    (by omega) (by omega) (by omega) hone
    (show getFileDescriptor fds₁ 1 = some 1 by rw [hfds₁, hfds]; rfl)
    (.inl (by rw [hfds₁, hfds]; rfl)) (by rw [hfds₁, hfds]; rfl)
    (by rw [hfds₁, hfds]; exact hempty)
  rw [← hfds₁] at hrun₁
  have hsecond : Reached (fun _ _ => none) (fun d _ c => OfFiles d c)
      (⟨d₁, fun _ => fds₁⟩ : OpenFiles Unit) := by
    refine .step hreached ⟨(), .sysWrite (.ofFn fun _ => 7) sampleMemory 4096 0 4094 2, ((2 : ℕ) : ℤ),
      trivial, fds₁, ?_, rfl⟩
    rw [← hfds]
    exact hrun₁
  have happ := hall (fun _ _ => none) _ ⟨d₂, fun _ => _⟩ (.ofFn fun _ => 7) sampleMemory 4096 1
    ((1 : ℕ) : ℤ) 4094 1 1 hsecond (by rw [hfds₁, hfds]; rfl) (by decide) hone ⟨_, hrun₂, rfl⟩
  -- the file had two bytes and has one
  have hle := happ.size_le
  have hindex : (fds₁ 1).inode.inode_index.toNat = j := by
    rw [hfds₁, hfds]
    exact toNat_newInode hj.1
  simp only [hindex, hself₁, hself₂] at hle
  omega

end OrangeOs.Kernel
