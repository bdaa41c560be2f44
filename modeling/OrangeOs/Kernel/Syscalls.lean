import OrangeOs.Kernel.SafeCopy

/-! # System calls on files

The calls of `kernel/syscalls/impl.cc` that open, create, write, read and close files, with the
table of descriptors of the process. A descriptor has a copy of the inode.
-/

namespace OrangeOs.Kernel

open Fs
open Prog hiding ret

/-- `fs::FileDescriptor`. -/
structure FileDescriptor where
  file_type : FileType := .none
  offset : ℕ := 0
  inode_index : ℕ := 0
  inode : InodeDef := {}

/-- The member `file_descriptor` of a process. -/
abbrev FileTable := Fin 16 → FileDescriptor

/-- `Resource`. -/
structure Resource where
  read : ℕ → FsProg (List UInt8)
  write : List UInt8 → FsProg ℕ

/-- A number as an `int`. -/
def toInt (n : ℕ) : ℤ := (n : ℤ).bmod (2 ^ 32)

theorem toInt_of_lt {n : ℕ} (hn : n < 2 ^ 31) : toInt n = n :=
  Int.bmod_eq_of_le_mul_two (by omega) (by omega)

def getFileDescriptor (fds : FileTable) (fd_index : ℤ) : Option (Fin 16) :=
  if h : 0 ≤ fd_index ∧ fd_index < 16 then
    if (fds ⟨fd_index.toNat, by omega⟩).file_type = .none then none
    else some ⟨fd_index.toNat, by omega⟩
  else none

/-- `sys_write`; `junk` is what an uninitialised `IndirectBlock` on the stack holds. A call creates
one such block at most. -/
def sysWrite (junk : Sector) (resource : UInt8 → UInt8 → Option Resource) (v : VirtualMemory)
    (page_table : ℕ) (fds : FileTable) (fd_index : ℤ) (buf size : ℕ) : FsProg (ℤ × FileTable) :=
  match getFileDescriptor fds fd_index with
  | none => return (-1, fds)
  | some i =>
    let fd := fds i
    if fd.file_type = .regular_file ∨ fd.file_type = .directory then do
      let file_stream := FileStream.seek { inode := fd.inode } fd.offset
      let (size, file_stream) ← safeCopy (fun _ => v) page_table
        (fun pa len s => FileStream.write junk s (v.mem.bytes pa len)) buf size 0 file_stream
      return (toInt size, Function.update fds i
        { fd with offset := (fd.offset + size) % 2 ^ 64, inode := file_stream.inode })
    else if fd.file_type = .device then
      match resource fd.inode.major fd.inode.minor with
      | none => return (-1, fds)
      | some r => do
        let (size, _) ← safeCopy (fun _ => v) page_table
          (fun pa len s => do return (← r.write (v.mem.bytes pa len), s)) buf size 0 ()
        return (toInt size, fds)
    else if fd.file_type = .none then return (-1, fds)
    else return (toInt size, fds)

/-- The function that `sys_read` passes to `safe_copy` for a file. -/
def readFile (pa len : ℕ) (s : FileStream × VirtualMemory) :
    FsProg (ℕ × (FileStream × VirtualMemory)) := do
  let (bytes, file_stream) ← s.1.read len
  return (bytes.length, (file_stream, { s.2 with mem := s.2.mem.put pa bytes.length bytes }))

/-- The function that `sys_read` passes to `safe_copy` for a device. -/
def readDevice (r : Resource) (pa len : ℕ) (v : VirtualMemory) : FsProg (ℕ × VirtualMemory) := do
  let bytes ← r.read len
  return (bytes.length, { v with mem := v.mem.put pa bytes.length bytes })

/-- `sys_read`. The result has the memory of the process after the call. -/
def sysRead (resource : UInt8 → UInt8 → Option Resource) (v : VirtualMemory) (page_table : ℕ)
    (fds : FileTable) (fd_index : ℤ) (buf size : ℕ) : FsProg (ℤ × FileTable × VirtualMemory) :=
  match getFileDescriptor fds fd_index with
  | none => return (-1, fds, v)
  | some i =>
    let fd := fds i
    if fd.file_type = .regular_file ∨ fd.file_type = .directory then do
      let file_stream := FileStream.seek { inode := fd.inode } fd.offset
      let (size, (_, v)) ← safeCopy Prod.snd page_table readFile buf size 0 (file_stream, v)
      return (toInt size, Function.update fds i { fd with offset := (fd.offset + size) % 2 ^ 64 }, v)
    else if fd.file_type = .device then
      match resource fd.inode.major fd.inode.minor with
      | none => return (-1, fds, v)
      | some r => do
        let (size, v) ← safeCopy id page_table (readDevice r) buf size 0 v
        return (toInt size, fds, v)
    else if fd.file_type = .none then return (-1, fds, v)
    else return (toInt size, fds, v)

/-! ## Opening and closing -/

/-- The first descriptor of a table that is not in use. -/
def freeDescriptor (fds : FileTable) : Option (Fin 16) :=
  (List.finRange 16).find? fun i => (fds i).file_type = .none

/-- The end of `sys_open` and `sys_create`: the first free descriptor gets a copy of the inode. -/
def installDescriptor (fds : FileTable) (file_type : FileType) (inode_index : ℕ) (inode : InodeDef) :
    ℤ × FileTable :=
  match freeDescriptor fds with
  | none => (-1, fds)
  | some i => (i.val, Function.update fds i { file_type, offset := 0, inode_index, inode })

/-- `sys_open` in a process with the given current path. -/
def sysOpen (current_path : List UInt8) (fds : FileTable) (path_name : Option CString) :
    FsProg (ℤ × FileTable) := do
  match ← openPath current_path path_name with
  | none => return (-1, fds)
  | some (inode_index, inode) => return installDescriptor fds inode.type inode_index inode

/-- `sys_create`; `junk` is what the stack holds at each level of the path. -/
def sysCreate (junk : ℕ → Sector) (current_path : List UInt8) (fds : FileTable)
    (path_name : Option CString) (file_type : FileType) : FsProg (ℤ × FileTable) :=
  if file_type ≠ .directory ∧ file_type ≠ .regular_file then return (-1, fds)
  else do
    match ← create junk current_path path_name file_type 0 0 with
    | none => return (-1, fds)
    | some target_inode =>
      return installDescriptor fds file_type target_inode.inode_index.toNat target_inode

/-- `sys_mkdir`. -/
def sysMkdir (junk : ℕ → Sector) (current_path : List UInt8) (path_name : Option CString) :
    FsProg ℤ := do
  match ← create junk current_path path_name .directory 0 0 with
  | none => return -1
  | some _ => return 0

/-- `sys_mknod`. -/
def sysMknod (junk : ℕ → Sector) (current_path : List UInt8) (path_name : Option CString)
    (major minor : UInt8) : FsProg ℤ := do
  match ← create junk current_path path_name .device major minor with
  | none => return -1
  | some _ => return 0

/-- `sys_close`. -/
def sysClose (fds : FileTable) (fd_index : ℤ) : ℤ × FileTable :=
  match getFileDescriptor fds fd_index with
  | none => (-1, fds)
  | some i => (0, Function.update fds i {})

end OrangeOs.Kernel
