import OrangeOs.Kernel.Syscalls

/-! # What `sys_write` writes

`FileStream::write` does not move the position of the stream, so each page of the buffer is written over
the pages before it. The bytes of the buffer end up in the file one after the other when the buffer
lies in one page, or where the overwriting does not show.
-/

namespace OrangeOs.Kernel

open Fs
open Prog hiding ret

/-! ## Writing at one position again and again -/

/-- The last of the strings that has a byte `j`. -/
def lastLonger (ps : List (List UInt8)) (j : ℕ) : Option (List UInt8) :=
  ps.reverse.find? (j < ·.length)

/-- Overwrites at one position. -/
def overwriteAll (old : List UInt8) (pos : ℕ) (ps : List (List UInt8)) : List UInt8 :=
  ps.foldl (fun s p => overwrite s pos p) old

variable {old buf p : List UInt8} {ps : List (List UInt8)} {pos dst j k m : ℕ}

theorem lastLonger_append (ps : List (List UInt8)) (p : List UInt8) (j : ℕ) :
    lastLonger (ps ++ [p]) j = if j < p.length then some p else lastLonger ps j := by
  simp only [lastLonger, List.reverse_append, List.reverse_singleton, List.singleton_append,
    List.find?_cons]
  by_cases hj : j < p.length <;> simp [hj]

theorem overwriteAll_append (old : List UInt8) (pos : ℕ) (ps : List (List UInt8)) (p : List UInt8) :
    overwriteAll old pos (ps ++ [p]) = overwrite (overwriteAll old pos ps) pos p := by
  rw [overwriteAll, List.foldl_append]
  rfl

theorem le_length_overwriteAll (hpos : pos ≤ old.length) : pos ≤ (overwriteAll old pos ps).length := by
  induction ps using List.reverseRecOn with
  | nil => exact hpos
  | append_singleton ps p ih =>
    rw [overwriteAll_append, length_overwrite ih]
    omega

theorem length_overwriteAll_lt (hpos : pos ≤ old.length) (hold : old.length < m)
    (hps : ∀ p ∈ ps, pos + p.length < m) : (overwriteAll old pos ps).length < m := by
  induction ps using List.reverseRecOn with
  | nil => exact hold
  | append_singleton ps p ih =>
    have hp := hps p (by simp)
    have hlt := ih fun q hq => hps q (by simp [hq])
    rw [overwriteAll_append, length_overwrite (le_length_overwriteAll hpos)]
    omega

theorem length_overwriteAll_eq (hpos : pos ≤ old.length)
    (hps : ∀ p ∈ ps, pos + p.length ≤ old.length) : (overwriteAll old pos ps).length = old.length := by
  induction ps using List.reverseRecOn with
  | nil => rfl
  | append_singleton ps p ih =>
    have hp := hps p (by simp)
    rw [overwriteAll_append, length_overwrite (le_length_overwriteAll hpos),
      ih fun q hq => hps q (by simp [hq])]
    omega

theorem charAt_overwriteAll (hpos : pos ≤ old.length) (j : ℕ) :
    charAt (overwriteAll old pos ps) (pos + j) =
      ((lastLonger ps j).map (charAt · j)).getD (charAt old (pos + j)) := by
  induction ps using List.reverseRecOn with
  | nil => rfl
  | append_singleton ps p ih =>
    rw [overwriteAll_append, charAt_overwrite (le_length_overwriteAll hpos), lastLonger_append]
    by_cases hj : j < p.length
    · rw [if_pos (by omega), if_pos hj, Nat.add_sub_cancel_left, Option.map_some, Option.getD_some]
    · rw [if_neg (by omega), if_neg hj, ih]

theorem charAt_overwriteAll_of_lt (hpos : pos ≤ old.length) (hk : k < pos) :
    charAt (overwriteAll old pos ps) k = charAt old k := by
  induction ps using List.reverseRecOn with
  | nil => rfl
  | append_singleton ps p ih =>
    rw [overwriteAll_append, charAt_overwrite (le_length_overwriteAll hpos), if_neg (by omega), ih]

/-- Strings that are written at one position leave the same as all of them in a row if the file was long
enough and each byte is where it belongs. -/
theorem overwriteAll_eq_iff (hpos : pos ≤ old.length) (hps : ∀ p ∈ ps, p.length < ps.flatten.length) :
    overwriteAll old pos ps = overwrite old pos ps.flatten ↔
      pos + ps.flatten.length ≤ old.length ∧ ∀ j < ps.flatten.length, charAt ps.flatten j =
        ((lastLonger ps j).map (charAt · j)).getD (charAt old (pos + j)) := by
  have hlen : (overwrite old pos ps.flatten).length = max old.length (pos + ps.flatten.length) :=
    length_overwrite hpos
  constructor
  · intro heq
    refine ⟨?_, fun j hj => ?_⟩
    · by_contra hlt
      have := length_overwriteAll_lt hpos (not_le.mp hlt) (fun p hp => by
        have := hps p hp
        omega)
      rw [heq] at this
      omega
    · rw [← charAt_overwriteAll hpos, heq, charAt_overwrite hpos, if_pos (by omega),
        Nat.add_sub_cancel_left]
  · rintro ⟨hle, hbytes⟩
    have heq : (overwriteAll old pos ps).length = old.length :=
      length_overwriteAll_eq hpos fun p hp => by
        have := hps p hp
        omega
    refine ext_charAt (by omega) fun k hk => ?_
    rw [charAt_overwrite hpos]
    by_cases hlt : k < pos
    · rw [charAt_overwriteAll_of_lt hpos hlt, if_neg (by omega)]
    · obtain ⟨j, rfl⟩ := Nat.exists_eq_add_of_le (not_lt.mp hlt)
      by_cases hj : j < ps.flatten.length
      · rw [if_pos (by omega), Nat.add_sub_cancel_left, hbytes j hj, charAt_overwriteAll hpos]
      · have hnone : lastLonger ps j = none := by
          rw [lastLonger, List.find?_eq_none]
          intro p hp
          have := hps p (List.mem_reverse.mp hp)
          simp only [decide_eq_true_eq]
          omega
        rw [if_neg (by omega), charAt_overwriteAll hpos, hnone, Option.map_none, Option.getD_none]

/-! ## The pieces of a buffer -/

theorem pieces_one (hone : buf.length ≤ 4096 - dst % 4096) (old : List UInt8) (pos : ℕ) :
    overwriteAll old pos (pieces dst buf) = overwrite old pos buf := by
  by_cases hnil : 0 < buf.length
  · rw [pieces_of_pos hnil, List.take_of_length_le hone, List.drop_eq_nil_of_le hone, pieces_nil]
    rfl
  · obtain rfl := List.eq_nil_of_length_eq_zero (Nat.eq_zero_of_not_pos hnil)
    rw [pieces_nil, overwriteAll, List.foldl_nil, overwrite, List.append_nil, List.length_nil,
      Nat.add_zero, List.take_append_drop]

/-- A buffer in more than one page is longer than each of its pieces. -/
theorem length_lt_of_mem_pieces (hmore : 4096 - dst % 4096 < buf.length) (hp : p ∈ pieces dst buf) :
    p.length < buf.length := by
  have hle : ∀ q ∈ pieces (dst + (4096 - dst % 4096)) (buf.drop (4096 - dst % 4096)),
      q.length ≤ buf.length - (4096 - dst % 4096) := fun q hq => by
    have := (List.sublist_flatten_of_mem hq).length_le
    rwa [flatten_pieces, List.length_drop] at this
  rw [pieces_of_pos (by omega), List.mem_cons] at hp
  rcases hp with rfl | hp
  · rw [List.length_take]
    omega
  · have := hle p hp
    omega

theorem le_of_mem_pieces (hp : p ∈ pieces dst buf) : p.length ≤ buf.length := by
  have := (List.sublist_flatten_of_mem hp).length_le
  rwa [flatten_pieces] at this

variable {d d' : Disk} {x : InodeDef} {n e done page_table size : ℕ} {junk : Sector} {v : VirtualMemory}
  {fds : FileTable} {fd_index : ℤ} {i : Fin 16} {resource : UInt8 → UInt8 → Option Resource}

/-- The stream writes each piece at its position. -/
theorem run_eachPiece_write (done : ℕ) (h : Writable junk e d x n) (hpos : pos ≤ x.size.toNat)
    (hps : ∀ p ∈ ps, pos + p.length ≤ e) (hmax : e ≤ 512 * 140) :
    ∃ d' x' n', (eachPiece (fun p s => FileStream.write junk s p) ps done ⟨pos, x⟩).run d =
        (.ok (done + ps.flatten.length, ⟨pos, x'⟩), d') ∧ Extended d x n d' x' n' ∧
      contents d' x' = overwriteAll (contents d x) pos ps ∧ Writable junk e d' x' n' := by
  induction ps generalizing d x n done with
  | nil => exact ⟨d, x, n, rfl, .refl h.mapped, rfl, h⟩
  | cons p ps ih =>
    obtain ⟨d₁, x₁, n₁, hrun, hext, hcont, hw⟩ :=
      run_write_writable h hpos (hps p List.mem_cons_self) hmax
    have hlen := congrArg List.length hcont
    rw [length_contents, length_overwrite (by rwa [length_contents])] at hlen
    obtain ⟨d₂, x₂, n₂, hrun₂, hext₂, hcont₂, hw₂⟩ := ih (done + p.length) hw (by omega)
      (fun q hq => hps q (List.mem_cons_of_mem _ hq))
    refine ⟨d₂, x₂, n₂, ?_, hext.trans hext₂, ?_, hw₂⟩
    · have hstep : (FileStream.write junk ⟨pos, x⟩ p).run d = (.ok (p.length, ⟨pos, x₁⟩), d₁) := by
        simp only [FileStream.write, run_bind, hrun, run_pure]
      rw [eachPiece, run_bind_ok hstep]
      simp only [lt_irrefl, if_false]
      rw [hrun₂, List.flatten_cons, List.length_append, Nat.add_assoc]
    · rw [hcont₂, hcont]
      rfl

/-! ## The call -/

/-- The inode that a descriptor has: its slots below `n` hold distinct data blocks, and the others
are zero. -/
structure Describes (d : Disk) (x : InodeDef) (n : ℕ) : Prop where
  formatted : Formatted d
  mapped : Mapped d x n
  vacant : Vacant d x n
  size_le : x.size.toNat ≤ 512 * n
  index : x.inode_index.toNat < 320

/-- The records of a well-formed disk are such inodes. -/
theorem describes_inodeAt {j : ℕ} (hw : WellFormed d) (hj : InUse d j) :
    Describes d (inodeAt d j) (fileBlocks (inodeAt d j)) :=
  ⟨hw.formatted, hw.mapped j hj, hw.vacant j hj, fileBlocks_le _, by rw [hw.index j hj]; exact hj.1⟩

/-- The result of a call that writes `buf` through the descriptor `fd`, which is `fd'` afterwards. -/
structure Contiguous (d : Disk) (n : ℕ) (fd : FileDescriptor) (buf : List UInt8) (d' : Disk) (r : ℤ)
    (fd' : FileDescriptor) : Prop where
  ret : r = buf.length
  contents : contents d' fd'.inode = overwrite (contents d fd.inode) fd.offset buf
  offset : fd'.offset = fd.offset + buf.length
  le : fd'.offset ≤ fd'.inode.size.toNat
  record : inodeAt d fd.inode.inode_index.toNat = fd.inode →
    inodeAt d' fd.inode.inode_index.toNat = fd'.inode
  others : ∀ j < 320, j ≠ fd.inode.inode_index.toNat → inodeAt d' j = inodeAt d j
  frame : ∀ o, 42 ≤ o → Marked d o → ¬ Owns d fd.inode n o → d' o = d o

/-- The buffer is in one page, or the file is long enough and has each byte of the buffer where the
last piece that reaches there leaves it. -/
def InPlace (d : Disk) (fd : FileDescriptor) (dst : ℕ) (buf : List UInt8) : Prop :=
  buf.length ≤ 4096 - dst % 4096 ∨
    fd.offset + buf.length ≤ fd.inode.size.toNat ∧ ∀ j < buf.length, charAt buf j =
      ((lastLonger (pieces dst buf) j).map (charAt · j)).getD (fileByte d fd.inode (fd.offset + j))

theorem run_sysWrite (hfd : getFileDescriptor fds fd_index = some i)
    (ht : (fds i).file_type = .regular_file) (hx : Describes d (fds i).inode n)
    (hoffset : (fds i).offset ≤ (fds i).inode.size.toNat)
    (hmax : (fds i).offset + size ≤ 140 * 512) (hdst : dst < 2 ^ 64)
    (hbuf : UserBuffer v page_table dst size)
    (henough : Enough d (fds i).inode n ((fds i).offset + size))
    (hclean : Clean junk (fds i).inode ((fds i).offset + size)) :
    ∃ d' x' n', (sysWrite junk resource v page_table fds fd_index dst size).run d =
        (.ok ((size : ℤ), Function.update fds i
          { fds i with offset := (fds i).offset + size, inode := x' }), d') ∧
      Extended d (fds i).inode n d' x' n' ∧
      contents d' x' = overwriteAll (contents d (fds i).inode) (fds i).offset
        (pieces dst (userBytes v page_table dst size)) := by
  have hw : Writable junk ((fds i).offset + size) d (fds i).inode n :=
    ⟨hx.formatted, hx.mapped, hx.size_le, hx.index, .inr hx.vacant, hclean, henough⟩
  have hpieces : ∀ p ∈ pieces dst (userBytes v page_table dst size),
      (fds i).offset + p.length ≤ (fds i).offset + size := fun p hp => by
    have := le_of_mem_pieces hp
    rw [length_userBytes] at this
    omega
  obtain ⟨d', x', n', hrun, hext, hcont, -⟩ := run_eachPiece_write 0 hw hoffset hpieces (by omega)
  refine ⟨d', x', n', ?_, hext, hcont⟩
  rw [flatten_pieces, length_userBytes, Nat.zero_add] at hrun
  have hsafe : safeCopy (fun _ => v) page_table
        (fun pa len s => FileStream.write junk s (v.mem.bytes pa len)) dst size 0
        ⟨(fds i).offset, (fds i).inode⟩ =
      eachPiece (fun p s => FileStream.write junk s p)
        (pieces dst (userBytes v page_table dst size)) 0 ⟨(fds i).offset, (fds i).inode⟩ :=
    safeCopy_eq (fun p s => FileStream.write junk s p) hdst hbuf _
  simp only [sysWrite, hfd, ht, true_or, if_true, FileStream.seek, run_bind, hsafe, hrun, run_pure,
    toInt_of_lt (show size < 2 ^ 31 by omega),
    Nat.mod_eq_of_lt (show (fds i).offset + size < 2 ^ 64 by omega)]

theorem overwriteAll_pieces_iff (hoffset : pos ≤ old.length) :
    overwriteAll old pos (pieces dst buf) = overwrite old pos buf ↔
      buf.length ≤ 4096 - dst % 4096 ∨ pos + buf.length ≤ old.length ∧ ∀ j < buf.length,
        charAt buf j = ((lastLonger (pieces dst buf) j).map (charAt · j)).getD
          (charAt old (pos + j)) := by
  by_cases hone : buf.length ≤ 4096 - dst % 4096
  · exact iff_of_true (pieces_one hone old pos) (.inl hone)
  · have hlt : ∀ p ∈ pieces dst buf, p.length < (pieces dst buf).flatten.length := fun p hp => by
      rw [flatten_pieces]
      exact length_lt_of_mem_pieces (not_le.mp hone) hp
    have hiff := overwriteAll_eq_iff hoffset hlt
    rw [flatten_pieces] at hiff
    rw [hiff]
    exact (or_iff_right hone).symm

/-- A call on a regular file writes the bytes of the buffer one after the other exactly when the
buffer is in one page or the overwriting does not show. -/
theorem sysWrite_contiguous_iff (hfd : getFileDescriptor fds fd_index = some i)
    (ht : (fds i).file_type = .regular_file) (hx : Describes d (fds i).inode n)
    (hoffset : (fds i).offset ≤ (fds i).inode.size.toNat)
    (hmax : (fds i).offset + size ≤ 140 * 512) (hdst : dst < 2 ^ 64)
    (hbuf : UserBuffer v page_table dst size)
    (henough : Enough d (fds i).inode n ((fds i).offset + size))
    (hclean : Clean junk (fds i).inode ((fds i).offset + size)) :
    ∃ r fds' d', (sysWrite junk resource v page_table fds fd_index dst size).run d =
        (.ok (r, fds'), d') ∧ (∀ j, j ≠ i → fds' j = fds j) ∧
      (Contiguous d n (fds i) (userBytes v page_table dst size) d' r (fds' i) ↔
        InPlace d (fds i) dst (userBytes v page_table dst size)) := by
  obtain ⟨d', x', n', hrun, hext, hcont⟩ := run_sysWrite hfd ht hx hoffset hmax hdst hbuf
    henough hclean
  refine ⟨_, _, d', hrun, fun j hj => Function.update_of_ne hj .., ?_⟩
  have hpos : (fds i).offset ≤ (contents d (fds i).inode).length := by rwa [length_contents]
  have hplace : overwriteAll (contents d (fds i).inode) (fds i).offset
        (pieces dst (userBytes v page_table dst size)) =
      overwrite (contents d (fds i).inode) (fds i).offset (userBytes v page_table dst size) ↔
        InPlace d (fds i) dst (userBytes v page_table dst size) := by
    rw [overwriteAll_pieces_iff hpos, InPlace, length_contents]
    refine or_congr_right (and_congr_right fun hle => forall₂_congr fun j hj => ?_)
    rw [charAt_contents (by omega)]
  rw [Function.update_self, ← hplace]
  refine ⟨fun h => hcont ▸ h.contents, fun heq => ?_⟩
  have hsize := congrArg List.length (hcont.trans heq)
  rw [length_contents, length_overwrite hpos, length_userBytes] at hsize
  refine ⟨by rw [length_userBytes], hcont.trans heq, by rw [length_userBytes], ?_, hext.record,
    hext.others, hext.frame⟩
  simp only
  omega

/-! ## A buffer in two pages -/

/-- The pages 0 and 1 of a process, and their last and first byte. -/
def sampleMemory : VirtualMemory where
  mem a := match a with
    | 4096 => 1 | 4097 => 8 | 8192 => 1 | 8193 => 12 | 12288 => 1 | 12289 =>
    16 | 12296 => 1 | 12297 => 20
    | 20479 => 97 | 20480 => 98
    | _ => 0
  self := 0
  has_init_ := true
  head_ := 0
  tail_ := 0
  size_ := 0
  bit_map_ := .ofFn fun _ => 0

/-- A descriptor of the empty file. -/
def sampleTable : FileTable := fun _ =>
  { file_type := .regular_file, inode_index := 1, inode := inodeAt (sampleDisk 100) 1 }

theorem describes_sample : Describes (sampleDisk 100) (inodeAt (sampleDisk 100) 1) 0 := by
  have h := describes_inodeAt (wellFormed_sampleDisk (by omega)) (inUse_sampleDisk 100)
  have hzero : fileBlocks (inodeAt (sampleDisk 100) 1) = 0 := by
    rw [inodeAt_sampleDisk]
    rfl
  rwa [hzero] at h

theorem getFileDescriptor_sample : getFileDescriptor sampleTable 0 = some 0 := rfl

theorem enough_sample : Enough (sampleDisk 100) (inodeAt (sampleDisk 100) 1) 0 2 := by
  rw [Enough, freeCount_sampleDisk (by omega), if_neg (by decide)]
  decide

/-- Two bytes in one page. -/
theorem sysWrite_contiguous_page : ∃ r fds' d',
    (sysWrite (.ofFn fun _ => 7) (fun _ _ => none) sampleMemory 4096 sampleTable 0 4094 2).run
      (sampleDisk 100) = (.ok (r, fds'), d') ∧
    Contiguous (sampleDisk 100) 0 (sampleTable 0)
      (userBytes sampleMemory 4096 4094 2) d' r (fds' 0) := by
  obtain ⟨r, fds', d', hrun, -, hiff⟩ := sysWrite_contiguous_iff getFileDescriptor_sample rfl
    describes_sample (Nat.zero_le _) (show 0 + 2 ≤ 140 * 512 by decide) (show 4094 < 2 ^ 64 by decide)
    (show UserBuffer sampleMemory 4096 4094 2 by decide +kernel) enough_sample (.inr (.inl (by decide)))
  exact ⟨r, fds', d', hrun, hiff.mpr (.inl (by rw [length_userBytes]))⟩

/-- Of two bytes in two pages the second is written over the first. -/
theorem sysWrite_overwrites : ∃ fds' d',
    (sysWrite (.ofFn fun _ => 7) (fun _ _ => none) sampleMemory 4096 sampleTable 0 4095 2).run
      (sampleDisk 100) = (.ok (2, fds'), d') ∧
    UserBuffer sampleMemory 4096 4095 2 ∧ userBytes sampleMemory 4096 4095 2 = [97, 98] ∧
    (fds' 0).offset = 2 ∧ (fds' 0).inode.size.toNat = 1 ∧ contents d' (fds' 0).inode = [98] := by
  have hbuf : UserBuffer sampleMemory 4096 4095 2 := by decide +kernel
  have hbytes : userBytes sampleMemory 4096 4095 2 = [97, 98] := by decide +kernel
  obtain ⟨d', x', n', hrun, -, hcont⟩ := run_sysWrite getFileDescriptor_sample rfl describes_sample
    (Nat.zero_le _) (show 0 + 2 ≤ 140 * 512 by decide) (show 4095 < 2 ^ 64 by decide) hbuf enough_sample
    (.inr (.inl (by decide)))
  have hempty : contents (sampleDisk 100) (sampleTable 0).inode = [] := by
    rw [sampleTable, inodeAt_sampleDisk]
    rfl
  have hpieces : pieces 4095 [97, 98] = [[97], [98]] := by
    rw [pieces_of_pos (by decide), pieces_of_pos (by decide)]
    exact congrArg _ (congrArg _ (pieces_nil _))
  rw [hbytes, hpieces, hempty] at hcont
  have hlast : contents d' x' = [98] := hcont
  refine ⟨_, d', hrun, hbuf, hbytes, ?_, ?_, ?_⟩
  · rw [Function.update_self]
    rfl
  · rw [Function.update_self, ← length_contents d', hlast]
    rfl
  · rw [Function.update_self]
    exact hlast

end OrangeOs.Kernel
