import OrangeOs.Filesystem.Ownership

/-! # File streams

The stream of `filesystem/filestream.cc` and the round trip between `Write` and
`FileStream::Read`. The two walk the block map with loops of their own; both agree with `fileByte`.
-/

namespace OrangeOs.Fs

open Prog

/-- `fs::FileStream`. The inode is a reference in the source; it is part of the state here. -/
structure FileStream where
  position : ℕ := 0
  inode : InodeDef

namespace FileStream

def seek (f : FileStream) (pos : ℕ) : FileStream := { f with position := pos }

def size (f : FileStream) : ℕ := f.inode.size.toNat

/-- The part of the read loop that fetches the indirect block, unless its first word shows that it
is there already. -/
def fetchIndirect (inode : InodeDef) (indirect_block : Sector) (data_block_index : ℕ) :
    FsProg Sector :=
  if data_block_index ≥ DIRECT_ADDR_SIZE ∧ indirectWord indirect_block 0 = 0 then
    readSector inode.indirect_addr.toNat
  else return indirect_block

/-- The block that the read loop takes for a block index. -/
def writeBlockIndex (inode : InodeDef) (indirect_block : Sector) (data_block_index : ℕ) : ℕ :=
  if data_block_index < DIRECT_ADDR_SIZE then inode.addrAt data_block_index
  else indirectWord indirect_block (data_block_index - DIRECT_ADDR_SIZE)

/-- The loop of `Read`. -/
def readFrom (inode : InodeDef) (indirect_block : Sector) (position total_remain_size : ℕ) :
    FsProg (List UInt8) :=
  if _h : total_remain_size > 0 then do
    let remain_size := BLOCK_SIZE - position % BLOCK_SIZE
    let len := min total_remain_size remain_size
    let data_block_index := position / BLOCK_SIZE
    let indirect_block ← fetchIndirect inode indirect_block data_block_index
    if data_block_index < DIRECT_ADDR_SIZE + 128 then
      let sector_data ← readSector (writeBlockIndex inode indirect_block data_block_index)
      let rest ← readFrom inode indirect_block (position + len) (total_remain_size - len)
      return (List.range len).map (fun k => sector_data.byte (position % BLOCK_SIZE + k)) ++ rest
    else fail .outOfBounds
  else return []
termination_by total_remain_size
decreasing_by
  have hp : position % 512 < 512 := Nat.mod_lt _ (by omega)
  simp only [BLOCK_SIZE]
  omega

/-- `Read`. The number of bytes left is computed in 64-bit arithmetic. -/
def read (f : FileStream) (size : ℕ) : FsProg (List UInt8 × FileStream) := do
  let size := min ((2 ^ 64 + f.inode.size.toNat - f.position) % 2 ^ 64) size
  let bytes ← readFrom f.inode (.ofFn fun _ => 0) f.position size
  return (bytes, { f with position := f.position + size })

/-- `write`. It does not move the position. -/
def write (junk : Sector) (f : FileStream) (buf : List UInt8) : FsProg (ℕ × FileStream) := do
  let (write_cnt, inode) ← Fs.write junk f.inode buf f.position
  return (write_cnt, { f with inode := inode })

end FileStream

/-- The contents of a file. -/
def contents (d : Disk) (x : InodeDef) : List UInt8 :=
  (List.range x.size.toNat).map (fileByte d x)

/-- Replace a part of a byte string, which grows if need be. -/
def overwrite (old : List UInt8) (pos : ℕ) (buf : List UInt8) : List UInt8 :=
  old.take pos ++ buf ++ old.drop (pos + buf.length)

variable {d d' : Disk} {x x' : InodeDef} {i j n n' b pos len : ℕ} {junk : Sector} {buf : List UInt8}

/-! ## Reading -/

theorem run_fetchIndirect {s : Sector} (k : ℕ)
    (hs : indirectWord s 0 = 0 ∨ s = d x.indirect_addr.toNat) :
    ∃ s', (FileStream.fetchIndirect x s k).run d = (.ok s', d) ∧
      (12 ≤ k → s' = d x.indirect_addr.toNat) ∧
      (indirectWord s' 0 = 0 ∨ s' = d x.indirect_addr.toNat) := by
  unfold FileStream.fetchIndirect
  by_cases h : k ≥ 12 ∧ indirectWord s 0 = 0
  · exact ⟨_, by simp [h], fun _ => rfl, .inr rfl⟩
  · exact ⟨s, by simp [h], fun hk => hs.resolve_left fun h0 => h ⟨hk, h0⟩, hs⟩

/-- The read loop takes the blocks of the file. -/
theorem writeBlockIndex_eq {s : Sector} {k : ℕ} (hs : 12 ≤ k → s = d x.indirect_addr.toNat) :
    FileStream.writeBlockIndex x s k = slot d x k := by
  by_cases hk : k < 12
  · simp [FileStream.writeBlockIndex, slot, hk]
  · simp [FileStream.writeBlockIndex, slot, hk, hs (by omega)]

theorem map_fileByte_split {r : ℕ} (hr : pos % 512 + r ≤ 512) (hle : r ≤ len) :
    (List.range r).map (fun k => (d (slot d x (pos / 512))).byte (pos % 512 + k)) ++
      (List.range (len - r)).map (fun k => fileByte d x (pos + r + k)) =
    (List.range len).map fun k => fileByte d x (pos + k) := by
  have hrange : List.range len = List.range r ++ (List.range (len - r)).map (r + ·) := by
    rw [← List.range_add, Nat.add_sub_cancel' hle]
  rw [hrange, List.map_append, List.map_map]
  congr 1
  · apply List.map_congr_left
    intro k hk
    rw [List.mem_range] at hk
    rw [fileByte, show (pos + k) / 512 = pos / 512 by omega,
      show (pos + k) % 512 = pos % 512 + k by omega]
  · simp only [Function.comp_def, Nat.add_assoc]

/-- The read loop returns the bytes of the file. -/
theorem run_readFrom {s : Sector} (hs : indirectWord s 0 = 0 ∨ s = d x.indirect_addr.toNat)
    (hlen : pos + len ≤ 512 * 140) : (FileStream.readFrom x s pos len).run d =
      (.ok ((List.range len).map fun k => fileByte d x (pos + k)), d) := by
  induction len using Nat.strong_induction_on generalizing s pos with
  | _ len ih =>
  rw [FileStream.readFrom]
  by_cases h0 : len > 0
  · have hp : pos % 512 < 512 := Nat.mod_lt _ (by omega)
    obtain ⟨r, hr⟩ : ∃ r, r = min len (512 - pos % 512) := ⟨_, rfl⟩
    have hr' : 0 < r ∧ r ≤ len ∧ pos % 512 + r ≤ 512 := by omega
    obtain ⟨s', hrun, hind, hs'⟩ := run_fetchIndirect (pos / 512) hs
    rw [dif_pos h0]
    simp only [BLOCK_SIZE, DIRECT_ADDR_SIZE, ← hr, run_bind, hrun,
      if_pos (show pos / 512 < 12 + 128 by omega), run_readSector, writeBlockIndex_eq hind,
      ih (len - r) (by omega) hs' (show pos + r + (len - r) ≤ 512 * 140 by omega), run_pure,
      map_fileByte_split hr'.2.2 hr'.2.1]
  · obtain rfl : len = 0 := by omega
    rfl

theorem indirectWord_zero (k : ℕ) : indirectWord (.ofFn fun _ => 0) k = 0 := by
  have h : ∀ o, (Buffer.ofFn fun _ => 0 : Sector).byte o = 0 := fun o => by
    unfold Buffer.byte; split <;> rfl
  simp [indirectWord, wordAt, leNat, h]

@[simp] theorem length_contents (d : Disk) (x : InodeDef) : (contents d x).length = x.size.toNat := by
  simp [contents]

/-- `Read` returns the next bytes of the file, as many as there are. -/
theorem run_read {f : FileStream} (hpos : f.position ≤ f.inode.size.toNat)
    (hsize : f.inode.size.toNat ≤ 512 * 140) (len : ℕ) :
    (f.read len).run d = (.ok (((contents d f.inode).drop f.position).take len,
      { f with position := f.position + min len (f.inode.size.toNat - f.position) }), d) := by
  have hmin : min ((2 ^ 64 + f.inode.size.toNat - f.position) % 2 ^ 64) len =
      min len (f.inode.size.toNat - f.position) := by omega
  have htake : ((contents d f.inode).drop f.position).take len =
      (List.range (min len (f.inode.size.toNat - f.position))).map
        fun k => fileByte d f.inode (f.position + k) := by
    apply List.ext_getElem
    · simp
    · intro k hk hk'
      simp [contents]
  simp only [FileStream.read, hmin, run_bind, run_readFrom (.inl (indirectWord_zero 0))
    (show f.position + min len (f.inode.size.toNat - f.position) ≤ 512 * 140 by omega), run_pure, htake]

theorem charAt_contents {p : ℕ} (hp : p < x.size.toNat) : charAt (contents d x) p = fileByte d x p :=
  charAt_map_range hp

/-- Reading a whole file from its start. -/
theorem run_read_all (hsize : x.size.toNat ≤ 512 * 140) (hlen : x.size.toNat ≤ len) :
    (FileStream.read ⟨0, x⟩ len).run d = (.ok (contents d x, ⟨x.size.toNat, x⟩), d) := by
  rw [run_read (Nat.zero_le _) hsize, List.drop_zero, List.take_of_length_le (by rwa [length_contents])]
  simp only [Nat.zero_add, Nat.sub_zero, min_eq_right hlen]

/-- The read loop touches blocks of the file only. -/
theorem touched_readFrom {s : Sector} (h : Mapped d x n)
    (hs : indirectWord s 0 = 0 ∨ s = d x.indirect_addr.toNat)
    (hlen : pos + len ≤ 512 * n) : ∀ b ∈ (FileStream.readFrom x s pos len).touched d, Owns d x n b := by
  induction len using Nat.strong_induction_on generalizing s pos with
  | _ len ih =>
  have hle := h.le
  rw [FileStream.readFrom]
  by_cases h0 : len > 0
  · obtain ⟨r, hr⟩ : ∃ r, r = min len (512 - pos % 512) := ⟨_, rfl⟩
    obtain ⟨s', hrun, hind, hs'⟩ := run_fetchIndirect (pos / 512) hs
    have hk : pos / 512 < n := by omega
    have hfetch : ∀ b ∈ (FileStream.fetchIndirect x s (pos / 512)).touched d, Owns d x n b := by
      intro b hb
      unfold FileStream.fetchIndirect at hb
      split at hb
      · next hc =>
        have hc : 12 ≤ pos / 512 := hc.1
        exact .inr ⟨h.indirect_ne (by omega), (List.mem_singleton.mp hb).symm⟩
      · cases hb
    have hrest := ih (len - r) (by omega) hs' (show pos + r + (len - r) ≤ 512 * n by omega)
    rw [dif_pos h0]
    simp only [BLOCK_SIZE, DIRECT_ADDR_SIZE, ← hr, touched_bind_ok hrun,
      if_pos (show pos / 512 < 12 + 128 by omega), touched_bind_ok (run_readSector _ _),
      touched_bind_ok (run_readFrom hs' (show pos + r + (len - r) ≤ 512 * 140 by omega)),
      writeBlockIndex_eq hind]
    intro b hb
    rcases List.mem_append.mp hb with hb | hb
    · exact hfetch b hb
    · rcases List.mem_append.mp hb with hb | hb
      · exact .inl ⟨_, hk, (List.mem_singleton.mp hb).symm⟩
      · rcases List.mem_append.mp hb with hb | hb
        · exact hrest b hb
        · cases hb
  · rw [dif_neg h0]
    intro b hb
    cases hb

/-! ## Writing -/

theorem length_overwrite {old : List UInt8} (hpos : pos ≤ old.length) :
    (overwrite old pos buf).length = max old.length (pos + buf.length) := by
  simp [overwrite]
  omega

theorem charAt_overwrite {old : List UInt8} (hpos : pos ≤ old.length) (p : ℕ) :
    charAt (overwrite old pos buf) p =
      if pos ≤ p ∧ p < pos + buf.length then charAt buf (p - pos) else charAt old p := by
  have htake : (old.take pos).length = pos := by rw [List.length_take]; omega
  unfold overwrite
  by_cases hlt : p < pos
  · rw [if_neg (by omega), List.append_assoc, charAt_append_left (by omega), charAt_take hlt]
  · rw [List.append_assoc, charAt_append_right (by omega), htake]
    by_cases hin : p < pos + buf.length
    · rw [if_pos (by omega), charAt_append_left (by omega)]
    · rw [if_neg (by omega), charAt_append_right (by omega), charAt_drop]
      congr 1
      omega

/-- A write overwrites a part of the contents of its file. -/
theorem Wrote.contents_eq (h : Wrote d x n pos buf d' x' n') (hpos : pos ≤ x.size.toNat)
    (hsz : x.size.toNat ≤ 512 * n) : contents d' x' = overwrite (contents d x) pos buf := by
  have hpos' : pos ≤ (contents d x).length := by rwa [length_contents]
  apply ext_charAt
  · rw [length_contents, length_overwrite hpos', length_contents, h.size]
  · intro p hp
    rw [length_contents] at hp
    have hsize := h.size
    rw [charAt_contents hp, charAt_overwrite hpos']
    split
    · next hin => exact h.new_byte p hin.1 hin.2
    · next hout => rw [charAt_contents (by omega), h.old_byte p (by omega) (by omega)]

theorem fileByte_congr {p : ℕ} (h : d' (slot d x (p / 512)) = d (slot d x (p / 512)))
    (hi : 12 ≤ p / 512 → d' x.indirect_addr.toNat = d x.indirect_addr.toNat) :
    fileByte d' x p = fileByte d x p := by
  rw [fileByte, fileByte, slot_congr ((Nat.lt_or_ge (p / 512) 12).imp_right hi), h]

/-- The bytes of a file depend on the blocks it owns. -/
theorem fileByte_kept {p : ℕ} (h : Mapped d x (fileBlocks x))
    (hb : ∀ b, Owns d x (fileBlocks x) b → d' b = d b) (hp : p < x.size.toNat) :
    fileByte d' x p = fileByte d x p := by
  have hlt : p / 512 < fileBlocks x := by
    rw [fileBlocks, blocks]; omega
  exact fileByte_congr (hb _ (.inl ⟨_, hlt, rfl⟩))
    fun h12 => hb _ (.inr ⟨h.indirect_ne (by omega), rfl⟩)

theorem contents_congr (h : Mapped d x (fileBlocks x))
    (hb : ∀ b, Owns d x (fileBlocks x) b → d' b = d b) : contents d' x = contents d x :=
  List.map_congr_left fun _ hp => fileByte_kept h hb (List.mem_range.mp hp)

namespace WellFormed

theorem size_le (hw : WellFormed d) (hi : InUse d i) : (inodeAt d i).size.toNat ≤ 512 * 140 := by
  have hle := (hw.mapped i hi).le
  have := fileBlocks_le (inodeAt d i)
  omega

/-- A write to one file leaves the contents of the others alone. -/
theorem contents_kept (hw : WellFormed d) (hi : InUse d i) (hj : InUse d j) (hne : j ≠ i)
    (h : Wrote d (inodeAt d i) (fileBlocks (inodeAt d i)) pos buf d' x' n') :
    contents d' (inodeAt d j) = contents d (inodeAt d j) :=
  contents_congr (hw.mapped j hj) fun _ hb => hw.indirect_kept hi hj hne h hb

end WellFormed

/-- What is written is read back, and nothing else changes. -/
theorem write_read_round_trip (hw : WellFormed d) (hi : InUse d i)
    (hpos : pos ≤ (inodeAt d i).size.toNat) (hmax : pos + buf.length ≤ 512 * 140)
    (hind : pos + buf.length ≤ 512 * 12 ∨ (inodeAt d i).indirect_addr.toNat ≠ 0)
    (hfree : blocks (pos + buf.length) - fileBlocks (inodeAt d i) ≤ freeCount d) (junk : Sector) :
    ∃ x' d', (write junk (inodeAt d i) buf pos).run d = (.ok (buf.length, x'), d') ∧
      x'.size.toNat = max (inodeAt d i).size.toNat (pos + buf.length) ∧
      (getInode i).run d' = (.ok x', d') ∧
      (∀ len, x'.size.toNat ≤ len → (FileStream.read ⟨0, x'⟩ len).run d' =
        (.ok (overwrite (contents d (inodeAt d i)) pos buf, ⟨x'.size.toNat, x'⟩), d')) ∧
      ∀ j, InUse d j → j ≠ i → ∀ len, (inodeAt d j).size.toNat ≤ len →
        (getInode j).run d' = (.ok (inodeAt d j), d') ∧
        (FileStream.read ⟨0, inodeAt d j⟩ len).run d =
          (.ok (contents d (inodeAt d j), ⟨(inodeAt d j).size.toNat, inodeAt d j⟩), d) ∧
        (FileStream.read ⟨0, inodeAt d j⟩ len).run d' =
          (.ok (contents d (inodeAt d j), ⟨(inodeAt d j).size.toNat, inodeAt d j⟩), d') := by
  have hidx := hw.index i hi
  have hsz := fileBlocks_le (inodeAt d i)
  obtain ⟨d', x', n', hrun, hwr⟩ := run_write_all hw.formatted (hw.mapped i hi) hsz hpos hmax
    (by rw [hidx]; exact hi.1) (.inr (hw.vacant i hi)) hind hfree
  obtain ⟨hw', hself, hother⟩ := hw.wrote hi hwr
  have hsize := hwr.size
  have hold := hw.size_le hi
  refine ⟨x', d', hrun junk, hsize, ?_, fun len hlen => ?_, fun j hj hne len hlen => ⟨?_, ?_, ?_⟩⟩
  · rw [run_getInode hi.1, hself]
  · rw [run_read_all (by omega) hlen, hwr.contents_eq hpos hsz]
  · rw [run_getInode hj.1, hother j hj.1 hne]
  · exact run_read_all (hw.size_le hj) hlen
  · rw [run_read_all (hw.size_le hj) hlen, hw.contents_kept hi hj hne hwr]

/-- Writing to an empty file next to an empty root directory. -/
theorem write_read_round_trip_sample : ∃ x' d',
    (write (.ofFn fun _ => 7) (inodeAt (sampleDisk 100) 1) [104, 105] 0).run (sampleDisk 100) =
      (.ok (2, x'), d') ∧ x'.size.toNat = 2 ∧ (getInode 1).run d' = (.ok x', d') := by
  have hsize : (inodeAt (sampleDisk 100) 1).size.toNat = 0 := by
    rw [inodeAt_sampleDisk]; rfl
  have hfree : blocks (0 + [104, 105].length) - fileBlocks (inodeAt (sampleDisk 100) 1) ≤
      freeCount (sampleDisk 100) := by
    rw [freeCount_sampleDisk (by omega)]
    have : blocks (0 + [104, 105].length) = 1 := rfl
    omega
  obtain ⟨x', d', hrun, hx', hget, -⟩ := write_read_round_trip (wellFormed_sampleDisk (by omega))
    (inUse_sampleDisk 100) (Nat.zero_le _) (show 0 + [104, 105].length ≤ 512 * 140 by decide)
    (.inl (by decide)) hfree (.ofFn fun _ => 7)
  refine ⟨x', d', hrun, ?_, hget⟩
  rw [hx', hsize]
  rfl

/-- A file of two bytes. -/
theorem exists_sampleFile : ∃ d x, Mapped d x (fileBlocks x) ∧ contents d x = [104, 105] := by
  have hw := wellFormed_sampleDisk (n := 100) (by omega)
  have hi := inUse_sampleDisk 100
  have hsize : (inodeAt (sampleDisk 100) 1).size.toNat = 0 := by rw [inodeAt_sampleDisk]; rfl
  have hblocks : fileBlocks (inodeAt (sampleDisk 100) 1) = 0 := by rw [fileBlocks, hsize]; rfl
  have hfree : blocks (0 + [104, 105].length) - fileBlocks (inodeAt (sampleDisk 100) 1) ≤
      freeCount (sampleDisk 100) := by
    rw [hblocks, freeCount_sampleDisk (by omega)]
    decide
  obtain ⟨d, x, n, -, hwrote⟩ := run_write_all hw.formatted (hw.mapped 1 hi)
    (fileBlocks_le _) (Nat.zero_le _) (show 0 + [104, 105].length ≤ 512 * 140 by decide)
    (by rw [hw.index 1 hi]; exact hi.1)
    (.inr (hw.vacant 1 hi)) (.inl (by decide)) hfree
  have hx : x.size.toNat = 2 := by rw [hwrote.size, hsize]; rfl
  have hn : fileBlocks x = n := by rw [hwrote.blocks_eq, hblocks, fileBlocks, hx]; rfl
  refine ⟨d, x, hn ▸ hwrote.mapped, ?_⟩
  rw [hwrote.contents_eq (Nat.zero_le _) (fileBlocks_le _), contents, hsize]
  rfl

end OrangeOs.Fs
