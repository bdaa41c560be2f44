import OrangeOs.Kernel.LoadSegment
import OrangeOs.Kernel.MapRange
import OrangeOs.Kernel.Streams
import OrangeOs.Library.Overlay

/-! # The image of a program

`Load` maps and fills one segment after the other. The pages of a segment are new pages, also where
a segment before it has bytes, so a segment is a layer: its bytes in the middle, and zeros up to the
ends of its pages.
-/

namespace OrangeOs.Kernel

open Memory VirtualMemory Elf

variable {σ : Type} {S : StreamBase σ} {R : σ → ℕ → Prop} {st st' : σ} {file ph h junk : List UInt8}
  {v v' v₁ v₂ : VirtualMemory} {root a b i k n p pa offset target_type : ℕ} {L L' : List ℕ}
  {T T' : List (Fin 512) → Option ℕ} {s s' : Loading σ}

/-! ## Files -/

/-- A stream over a file; `R st pos` says that it is at `pos`. -/
structure StreamOf (S : StreamBase σ) (file : List UInt8) (R : σ → ℕ → Prop) : Prop where
  seek : ∀ st p pos, R st p → pos < file.length → R (S.seek st pos) pos
  seek_any : ∀ st p pos, R st p → ∃ p', R (S.seek st pos) p'
  read : ∀ st pos n, R st pos → pos + n ≤ file.length →
    (S.read st n).1 = (file.drop pos).take n ∧ R (S.read st n).2 (pos + n)

theorem StreamOf.remaining (hS : StreamOf S file R) :
    Remaining S fun st bs => ∃ pos ≤ file.length, R st pos ∧ bs = file.drop pos := by
  rintro st bs n ⟨pos, hpos, hst, rfl⟩ hn
  rw [List.length_drop] at hn
  obtain ⟨hread, hst'⟩ := hS.read st pos n hst (by omega)
  exact ⟨hread, pos + n, by omega, hst', List.drop_drop⟩

/-- `StringStream` is one. -/
theorem streamOf_string (hfile : file.length < 2 ^ 64) :
    StreamOf StringStream.base file fun st pos => st = ⟨file, pos⟩ where
  seek st p pos hst hpos := by
    subst hst
    exact StringStream.base_seek hpos hfile.le
  seek_any st p pos hst := by
    subst hst
    exact ⟨_, rfl⟩
  read st pos n hst hn := by
    subst hst
    rw [StringStream.base_read hn hfile]
    exact ⟨rfl, rfl⟩

/-- `FileStream` as a stream. The disk does not change while a program is loaded. -/
def fileStreamBase (d : Fs.Disk) : StreamBase Fs.FileStream where
  seek := Fs.FileStream.seek
  read f n :=
    match ((f.read n).run d).1 with
    | .ok r => r
    | .error _ => ([], f)

/-- It is one over the contents of its file. -/
theorem streamOf_file {d : Fs.Disk} {x : Fs.InodeDef} (hm : Fs.Mapped d x (Fs.fileBlocks x)) :
    StreamOf (fileStreamBase d) (Fs.contents d x) fun st pos => st = ⟨pos, x⟩ where
  seek st p pos hst _ := by
    subst hst
    rfl
  seek_any st p pos hst := by
    subst hst
    exact ⟨pos, rfl⟩
  read st pos n hst hn := by
    subst hst
    rw [Fs.length_contents] at hn
    obtain ⟨hrun, -⟩ := @run_fileRead d x false pos n hm (show pos ≤ x.size.toNat by omega) (by simp)
    rw [Nat.min_eq_left (by omega)] at hrun
    simp only [fileStreamBase, hrun, and_self]

theorem charAt_take_append {t : List UInt8} (hk : k < n) (hn : n ≤ file.length) :
    charAt (file.take n ++ t) k = charAt file k := by
  rw [charAt_append_left (by rw [List.length_take]; omega), charAt_take hk]

/-- The variable that a header is read into. -/
theorem readForType_eq (hS : StreamOf S file R) (hst : R st p)
    (hn : p + n ≤ file.length) (junk : List UInt8) :
    ∃ st', S.readForType st junk n = ((file.drop p).take n ++ junk.drop n, st') ∧ R st' (p + n) := by
  obtain ⟨hread, hst'⟩ := hS.read st p n hst hn
  refine ⟨_, Prod.ext ?_ rfl, hst'⟩
  simp only [StreamBase.readForType, hread]
  rw [List.length_take, List.length_drop, Nat.min_eq_left (by omega)]

/-! ## Segments -/

/-- A `PT_LOAD` segment: its addresses, and where its bytes are in the file. -/
structure Segment where
  vaddr : ℕ
  memsz : ℕ
  offset : ℕ
  filesz : ℕ
  deriving DecidableEq

namespace Segment

/-- The segment of a program header. -/
def ofHeader (offset : ℕ) (ph : List UInt8) : Segment :=
  ⟨(p_vaddr ph + offset) % 2 ^ 64, p_memsz ph, p_offset ph, p_filesz ph⟩

/-- The byte that the file describes for an address. -/
def byte (file : List UInt8) (s : Segment) (a : ℕ) : UInt8 :=
  if a < s.vaddr + s.filesz then charAt file (s.offset + (a - s.vaddr)) else 0

/-- An address of the segment. -/
def Holds (s : Segment) (a : ℕ) : Prop := s.vaddr ≤ a ∧ a < s.vaddr + s.memsz

/-- An address in a page of the segment. -/
def Covers (s : Segment) (a : ℕ) : Prop :=
  s.vaddr / PGSIZE ≤ a / PGSIZE ∧ a / PGSIZE < (s.vaddr + s.memsz + (PGSIZE - 1)) / PGSIZE

instance (s : Segment) (a : ℕ) : Decidable (s.Holds a) := inferInstanceAs (Decidable (_ ∧ _))

instance (s : Segment) (a : ℕ) : Decidable (s.Covers a) := inferInstanceAs (Decidable (_ ∧ _))

theorem Holds.covers {s : Segment} (h : s.Holds a) : s.Covers a := by
  simp only [Holds] at h
  simp only [Covers, PGSIZE]
  omega

/-- What loading the segment does to the bytes that the process sees. -/
def layer (file : List UInt8) (s : Segment) : Layer ℕ (Option UInt8) where
  own a := if s.Holds a then some (some (s.byte file a)) else none
  write a := if s.vaddr ≤ a ∧
    a < s.vaddr + s.filesz then some (some (charAt file (s.offset + (a - s.vaddr))))
    else if s.Covers a then some (some 0) else none
  own_write a y hy := by
    split at hy
    · next hin =>
      rw [byte] at hy
      by_cases hfile : a < s.vaddr + s.filesz
      · rw [if_pos hfile] at hy
        rw [if_pos ⟨hin.1, hfile⟩, hy]
      · rw [if_neg hfile] at hy
        rw [if_neg fun hx => hfile hx.2, if_pos hin.covers, hy]
    · cases hy

/-- The segment is one that the file can describe and that lies below the stack. -/
structure Fits (file : List UInt8) (s : Segment) : Prop where
  filesz_le : s.filesz ≤ s.memsz
  in_file : s.offset + s.filesz ≤ file.length
  below : s.vaddr + s.memsz ≤ TaskMemory.userStackVa

theorem Fits.covers_iff {s : Segment} (h : s.Fits file) : s.Covers a ↔
    addrCastDown s.vaddr ≤ a ∧
      a < addrCastDown s.vaddr + 4096 * pageCount s.vaddr (s.vaddr + s.memsz) := by
  have hbelow := h.below
  rw [TaskMemory.userStackVa_eq] at hbelow
  rw [pageCount, addrCastDown_eq (by omega), addrCastUp_eq (by omega)]
  simp only [Covers, PGSIZE]
  omega

end Segment

theorem Segment.Fits.end_eq {sg : Segment} (h : sg.Fits file) : (sg.vaddr + sg.memsz) % 2 ^ 64 =
    sg.vaddr + sg.memsz := by
  have hbelow := h.below
  rw [TaskMemory.userStackVa_eq] at hbelow
  exact Nat.mod_eq_of_lt (by omega)

/-- The number of the pages of a segment. -/
def Segment.pages (sg : Segment) : ℕ := pageCount sg.vaddr (sg.vaddr + sg.memsz)

theorem Segment.Fits.range_le {sg : Segment} (h : sg.Fits file) :
    addrCastDown sg.vaddr + 4096 * sg.pages ≤ 2 ^ 38 := by
  have hbelow := h.below
  rw [TaskMemory.userStackVa_eq] at hbelow
  have hdown := addrCastDown_eq (show sg.vaddr < 2 ^ 64 by omega)
  rw [Segment.pages, pageCount, addrCastUp_eq (by omega)]
  omega

theorem privi_lt (ph : List UInt8) : privi ph ||| PTE.U < 1024 := by
  unfold privi
  split <;> split <;> split <;> decide

theorem cost_le (T : List (Fin 512) → Option ℕ) (beg n : ℕ) : cost T beg n ≤ 3 * n := by
  have hcard : (tablesUpTo beg n).card ≤ (Finset.range n).card * 2 :=
    Finset.card_biUnion_le_card_mul _ _ _ fun _ _ => Finset.card_le_two
  have hmissing : missing T (tablesUpTo beg n) ≤ (tablesUpTo beg n).card := Finset.card_filter_le _ _
  rw [Finset.card_range] at hcard
  rw [cost]
  omega

/-- The pages of a segment are mapped to zeros. -/
theorem segment_mapped {sg : Segment} {mapped : Bool} (hs : UserSpace v root T L) (hfits : sg.Fits file)
    (hrun : v.mapMemory root sg.vaddr (sg.vaddr + sg.memsz) (privi ph ||| PTE.U) = .ok (mapped, v')) :
    ∃ T' L', UserSpace v' root T' L' ∧ L.length ≤ L'.length + 3 * sg.pages ∧ ∀ a < 2 ^ 38,
      userByte v' root a = if sg.Covers a then some 0 else userByte v root a := by
  have hbelow := hfits.below
  rw [TaskMemory.userStackVa_eq] at hbelow
  have hrange := hfits.range_le
  have hdown := addrCastDown_eq (show sg.vaddr < 2 ^ 64 by omega)
  rw [Segment.pages] at hrange
  obtain ⟨-, P, T', L', hmapped, hP⟩ := hs.toTables.mapMemory_ok (by omega) hrange (privi_lt ph) hrun
  refine ⟨T', L', hs.mapped hmapped (privi_lt ph), ?_, fun a ha => ?_⟩
  · rw [hmapped.count, hP, Segment.pages]
    exact Nat.add_le_add_left (cost_le _ _ _) _
  · rw [hs.userByte_mapped hmapped (privi_lt ph) (by omega) (by rw [hP]; exact hrange) ha, hP]
    exact if_congr hfits.covers_iff.symm rfl rfl

/-- The bytes of a segment are read into its pages. -/
theorem segment_filled {sg : Segment} (hS : StreamOf S file R) (hs : UserSpace v root T L)
    (hfits : sg.Fits file)
    (hst : R st p) (hpages : ∀ a, sg.Holds a → ∃ pa, translate v root a = some pa) :
    ∃ v' st' p', loadSegment S (S.seek st sg.offset) v root sg.vaddr sg.filesz = .ok (true, v', st') ∧
      R st' p' ∧ UserSpace v' root T L ∧ ∀ a < 2 ^ 38, userByte v' root a =
        if sg.vaddr ≤ a ∧ a < sg.vaddr + sg.filesz then some (charAt file (sg.offset + (a - sg.vaddr)))
        else userByte v root a := by
  have hbelow := hfits.below
  have hle := hfits.filesz_le
  have hfile := hfits.in_file
  rw [TaskMemory.userStackVa_eq] at hbelow
  rcases Nat.eq_zero_or_pos sg.filesz with hzero | hpos
  · obtain ⟨p', hst'⟩ := hS.seek_any st p sg.offset hst
    refine ⟨v, _, p', ?_, hst', hs, fun a _ => ?_⟩
    · rw [hzero, loadSegment, dif_neg (by omega)]
    · rw [if_neg (by omega)]
  · have hmod : ∀ k < sg.filesz, (sg.vaddr + k) % 2 ^ 64 = sg.vaddr + k :=
      fun k hk => Nat.mod_eq_of_lt (by omega)
    have hmapped : ∀ k < sg.filesz, ∃ pa, translate v root ((sg.vaddr + k) % 2 ^ 64) = some pa := by
      intro k hk
      rw [hmod k hk]
      exact hpages _ ⟨by omega, by omega⟩
    have hclear : Clear v root sg.vaddr sg.filesz := by
      intro k hk pa hpa
      rw [hs.eq_tableTree]
      exact ⟨hs.ne_zero (Nat.mod_lt _ (by decide)) hpa, hs.inTables_apart (Nat.mod_lt _ (by decide)) hpa⟩
    obtain ⟨v', st', heq, ⟨p', -, hst', -⟩, hrest, hnew, hold⟩ := loadSegment_stored
      hS.remaining (show sg.vaddr < 2 ^ 64 by omega)
      ⟨sg.offset, by omega, hS.seek st p sg.offset hst (by omega), rfl⟩
      (by rw [List.length_drop]; omega) hclear
      hmapped fun i hi j hj he => by
        obtain ⟨pa, hpa⟩ := hmapped i hi
        have hpb := he.symm.trans hpa
        rw [hmod i hi] at hpa
        rw [hmod j hj] at hpb
        have := hs.translate_inj (by omega) (by omega) hpa hpb
        omega
    have hsame : Same v.mem v'.mem fun x => InPages L x ∨ InTables T x := by
      intro x hx
      refine hold x fun k hk he => ?_
      rcases hx with hx | hx
      · exact hs.inPages_apart (Nat.mod_lt _ (by decide)) he hx
      · exact hs.inTables_apart (Nat.mod_lt _ (by decide)) he hx
    have htables : Same v.mem v'.mem (InTables (tableTree v.mem root)) := by
      rw [hs.eq_tableTree]
      exact hsame.mono fun x hx => .inr hx
    refine ⟨v', st', p', heq, hst', hrest ▸ hs.of_same hsame, fun a ha => ?_⟩
    have htranslate : translate v' root a = translate v root a := by
      rw [hrest]
      exact translate_of_same htables (by omega)
    unfold userByte
    rw [htranslate]
    split
    · next hin =>
      obtain ⟨k, rfl⟩ := Nat.exists_eq_add_of_le hin.1
      obtain ⟨pa, hpa⟩ := hmapped k (by omega)
      have hbyte := hnew k (by omega) pa hpa
      rw [hmod k (by omega)] at hpa
      rw [hpa, Option.map_some, hbyte, charAt_drop, Nat.add_sub_cancel_left]
    · next hout =>
      cases hpa : translate v root a with
      | none => rfl
      | some pa =>
        rw [Option.map_some, Option.map_some, hold]
        intro k hk he
        rw [hmod k hk] at he
        have := hs.translate_inj (by omega) (by omega) hpa he
        omega

/-! ## One segment after the other -/

/-- The table after a region is added. -/
theorem addRegion_region {t t' : TaskMemory} (ha : a < 2 ^ 64) (hb : b < 2 ^ 64)
    (hadd : t.addRegion a b = .ok t') :
    t'.page_table = t.page_table ∧ t'.used_address_size = t.used_address_size + 1 ∧
      (∀ i < t.used_address_size, t'.region i = t.region i) ∧
      t'.region t.used_address_size = .ok (a, b) := by
  rw [TaskMemory.addRegion] at hadd
  split at hadd
  · next hsize =>
    obtain rfl := Except.ok.inj hadd
    refine ⟨rfl, rfl, fun i hi => ?_, ?_⟩
    · have hne : (⟨i, by omega⟩ : Fin 16) ≠ ⟨t.used_address_size, hsize⟩ := fun he => by
        have := Fin.val_eq_of_eq he
        simp only at this
        omega
      simp only [TaskMemory.region, dif_pos (show i < 16 by omega), Function.update_of_ne hne]
    · simp only [TaskMemory.region, dif_pos hsize, Function.update_self,
        UInt64.toNat_ofNat', Nat.mod_eq_of_lt ha,
        Nat.mod_eq_of_lt hb]
  · cases hadd

/-- `s'` is `s` after the segments are loaded. -/
structure Loaded (R : σ → ℕ → Prop) (file : List UInt8) (s : Loading σ)
    (segs : List Segment) (s' : Loading σ) :
    Prop where
  stream : ∃ p, R s'.stream p
  space : ∃ T L, UserSpace s'.vm s'.process.page_table T L
  root : s'.process.page_table = s.process.page_table
  size : s'.process.used_address_size = s.process.used_address_size + segs.length
  kept : ∀ i < s.process.used_address_size, s'.process.region i = s.process.region i
  added : ∀ j (hj : j < segs.length), s'.process.region (s.process.used_address_size + j) =
    .ok (segs[j].vaddr, segs[j].vaddr + segs[j].memsz)
  image : ∀ a < 2 ^ 38, userByte s'.vm s'.process.page_table a =
    Layer.overlay (segs.map (Segment.layer file)) (userByte s.vm s.process.page_table) a

namespace Loaded

variable {s'' : Loading σ} {segs segs' : List Segment}

/-- The loading of no segment changes at most what the loader keeps beside them. -/
theorem nil (hst : R s'.stream p)
    (hspace : ∃ T L, UserSpace s.vm s.process.page_table T L) (hvm : s'.vm = s.vm)
    (hprocess : s'.process.toTaskMemory = s.process.toTaskMemory) : Loaded R file s [] s' where
  stream := ⟨p, hst⟩
  space := by rwa [hvm, hprocess]
  root := by rw [hprocess]
  size := by rw [hprocess, List.length_nil, Nat.add_zero]
  kept i _ := by rw [hprocess]
  added j hj := absurd hj (Nat.not_lt_zero j)
  image a _ := by rw [hvm, hprocess, List.map_nil, Layer.overlay_nil]

theorem trans (h : Loaded R file s segs s') (h' : Loaded R file s' segs' s'') :
    Loaded R file s (segs ++ segs') s'' where
  stream := h'.stream
  space := h'.space
  root := h'.root.trans h.root
  size := by rw [h'.size, h.size, List.length_append, Nat.add_assoc]
  kept i hi := (h'.kept i (by rw [h.size]; omega)).trans (h.kept i hi)
  added j hj := by
    rw [List.length_append] at hj
    have hsize := h.size
    by_cases hlt : j < segs.length
    · rw [h'.kept _ (by omega), h.added j hlt, List.getElem_append_left hlt]
    · have hnew := h'.added (j - segs.length) (by omega)
      rw [hsize, Nat.add_assoc, Nat.add_sub_cancel' (by omega)] at hnew
      rw [hnew, List.getElem_append_right (by omega)]
  image a ha := by
    rw [h'.image a ha, Layer.overlay_congr (h.image a ha), List.map_append, Layer.overlay,
      Layer.overlay, Layer.overlay,
      List.foldl_append]

end Loaded

/-- A segment that is loaded lies over what the process had. -/
theorem loadSegmentOf_loaded (hS : StreamOf S file R)
    (hs : ∃ T L, UserSpace s.vm s.process.page_table T L)
    (hst : R s.stream p) (hfits : (Segment.ofHeader offset ph).Fits file)
    (hrun : loadSegmentOf S offset ph s = .ok (true, s')) :
    Loaded R file s [Segment.ofHeader offset ph] s' := by
  obtain ⟨T, L, hs⟩ := hs
  obtain ⟨sg, hsg⟩ : ∃ sg, sg = Segment.ofHeader offset ph := ⟨_, rfl⟩
  have hvaddr : (p_vaddr ph + offset) % 2 ^ 64 = sg.vaddr := by rw [hsg, Segment.ofHeader]
  have hmemsz : p_memsz ph = sg.memsz := by rw [hsg, Segment.ofHeader]
  have hoffset : p_offset ph = sg.offset := by rw [hsg, Segment.ofHeader]
  have hfilesz : p_filesz ph = sg.filesz := by rw [hsg, Segment.ofHeader]
  rw [← hsg] at hfits ⊢
  have hbelow := hfits.below
  rw [TaskMemory.userStackVa_eq] at hbelow
  rw [loadSegmentOf, if_neg (by rw [hmemsz, hfilesz]; exact not_lt.mpr hfits.filesz_le)] at hrun
  simp only [hvaddr, hmemsz, hoffset, hfilesz, hfits.end_eq] at hrun
  -- the pages of the segment
  obtain ⟨⟨mapped, v₁⟩, hmap, hrun⟩ := bind_eq_ok.mp hrun
  obtain ⟨T₁, L₁, h₁, -, hnew⟩ := segment_mapped hs hfits (lift_eq_ok.mp hmap)
  -- the bytes of the segment
  obtain ⟨v₂, st', p', hload, hst', h₂, hbytes⟩ := segment_filled hS h₁ hfits hst fun a ha => by
    have hbyte := hnew a (by simp only [Segment.Holds] at ha; omega)
    rw [if_pos ha.covers] at hbyte
    obtain ⟨pa, hpa, -⟩ := Option.map_eq_some_iff.mp hbyte
    exact ⟨pa, hpa⟩
  obtain ⟨⟨loaded, v₃, st₃⟩, hload', hrun⟩ := bind_eq_ok.mp hrun
  simp only at hload'
  rw [lift_eq_ok, hload] at hload'
  obtain ⟨rfl, rfl, rfl⟩ : true = loaded ∧ v₂ = v₃ ∧ st' = st₃ := by simpa using hload'
  simp only [not_true_eq_false, if_false] at hrun
  split at hrun
  · cases hrun
  · obtain ⟨t, hadd, hrun⟩ := bind_eq_ok.mp hrun
    obtain ⟨-, rfl⟩ := Prod.mk.inj (Except.ok.inj hrun)
    obtain ⟨hroot, hsize, hkept, hlast⟩ := addRegion_region (by omega) (by omega) hadd
    refine ⟨⟨p', hst'⟩, ⟨T₁, L₁, by rw [hroot]; exact h₂⟩, hroot, hsize, hkept,
      fun j hj => ?_, fun a ha => ?_⟩
    · obtain rfl : j = 0 := by simpa using hj
      exact hlast
    · simp only [hroot, hbytes a ha, hnew a ha, List.map_cons, List.map_nil,
        Layer.overlay_cons, Layer.overlay_nil,
        Layer.onto, Segment.layer]
      split
      · rfl
      · split
        · rfl
        · rfl

/-! ## The program headers -/

theorem member_take_append {t : List UInt8} (hk : a + k ≤ n) (hn : n ≤ file.length) :
    member (file.take n ++ t) a k = member file a k :=
  leNat_congr fun j hj => charAt_take_append (by omega) hn

/-- The segment that program header `i` of the file describes. -/
def segmentAt (offset : ℕ) (file : List UInt8) (i : ℕ) : Option Segment :=
  if p_type (file.drop (e_phoff file + i * e_phentsize file)) = PT_LOAD then
    some (.ofHeader offset (file.drop (e_phoff file + i * e_phentsize file)))
  else none

/-- The `PT_LOAD` segments of a file that is loaded at `offset`. -/
def segments (offset : ℕ) (file : List UInt8) : List Segment :=
  (List.range' 0 (e_phnum file)).filterMap (segmentAt offset file)

/-- The headers are inside the file. -/
structure Headers (file : List UInt8) : Prop where
  length_lt : file.length < 2 ^ 64
  header : ehdrSize ≤ file.length
  program : ∀ i < e_phnum file, e_phoff file + i * e_phentsize file + phdrSize ≤ file.length

/-- A program header ends before the junk. -/
theorem header_take_append (offset : ℕ) (hlen : phdrSize ≤ h.length) (t : List UInt8) :
    p_type (h.take phdrSize ++ t) = p_type h ∧
      Segment.ofHeader offset (h.take phdrSize ++ t) = Segment.ofHeader offset h := by
  have hmember : ∀ a k, a + k ≤ phdrSize → member (h.take phdrSize ++ t) a k = member h a k :=
    fun a k hk => member_take_append hk hlen
  refine ⟨hmember 0 4 (by decide), ?_⟩
  simp only [Segment.ofHeader, p_vaddr, p_memsz, p_offset, p_filesz]
  rw [hmember 16 8 (by decide), hmember 40 8 (by decide), hmember 8 8 (by decide),
    hmember 32 8 (by decide)]

/-- The first of the program headers that are left. -/
theorem segments_succ (offset : ℕ) (hph : ph = file.drop (e_phoff file + i * e_phentsize file)) (n : ℕ) :
    (List.range' i (n + 1)).filterMap (segmentAt offset file) =
      (if p_type ph = PT_LOAD then [Segment.ofHeader offset ph] else []) ++
        (List.range' (i + 1) n).filterMap (segmentAt offset file) := by
  rw [List.range'_succ, List.filterMap_cons, segmentAt, ← hph]
  by_cases htype : p_type ph = PT_LOAD
  · rw [if_pos htype, if_pos htype]
    rfl
  · rw [if_neg htype, if_neg htype]
    rfl

/-- What the loader keeps of a dynamic section is beside the image. -/
theorem loadHeader_eq (S : StreamBase σ) (target_type offset : ℕ) (ph : List UInt8) (s : Loading σ) :
    ∃ s₁ : Loading σ, loadHeader S target_type offset ph s =
        (if p_type ph ≠ PT_LOAD then .ok (true, s₁) else loadSegmentOf S offset ph s₁) ∧
      s₁.vm = s.vm ∧ s₁.stream = s.stream ∧ s₁.process.toTaskMemory = s.process.toTaskMemory := by
  refine ⟨_, rfl, ?_⟩
  split
  · split
    · exact ⟨rfl, rfl, rfl⟩
    · exact ⟨rfl, rfl, rfl⟩
  · exact ⟨rfl, rfl, rfl⟩

/-- One program header. -/
theorem loadHeader_loaded (hS : StreamOf S file R) (hs : ∃ T L, UserSpace s.vm s.process.page_table T L)
    (hst : R s.stream p) (hlen : phdrSize ≤ h.length)
    (hfits : p_type h = PT_LOAD → (Segment.ofHeader offset h).Fits file)
    (hrun : loadHeader S target_type offset (h.take phdrSize ++ junk) s = .ok (true, s')) :
    Loaded R file s (if p_type h = PT_LOAD then [Segment.ofHeader offset h] else []) s' := by
  obtain ⟨htype, hseg⟩ := header_take_append offset hlen junk
  obtain ⟨s₁, heq, hvm, hstream, hprocess⟩ :=
    loadHeader_eq S target_type offset (h.take phdrSize ++ junk) s
  rw [heq, htype] at hrun
  have hfirst : Loaded R file s [] s₁ := .nil (by rwa [hstream]) hs hvm hprocess
  split at hrun
  · next hother =>
    obtain ⟨-, rfl⟩ := Prod.mk.inj (Except.ok.inj hrun)
    rw [if_neg hother]
    exact hfirst
  · next hload =>
    rw [if_pos (not_not.mp hload), ← hseg]
    have hsecond := loadSegmentOf_loaded hS (by rwa [hvm, hprocess]) (hstream ▸ hst)
      (by rw [hseg]; exact hfits (not_not.mp hload)) hrun
    exact hfirst.trans hsecond

/-- The loop over the program headers. -/
theorem loadFrom_loaded (hS : StreamOf S file R) (hheaders : Headers file)
    (hs : ∃ T L, UserSpace s.vm s.process.page_table T L) (hst : R s.stream p)
    (hphoff : e_phoff h = e_phoff file) (hphentsize : e_phentsize h = e_phentsize file)
    (hn : i + n ≤ e_phnum file)
    (hfits : ∀ sg ∈ segments offset file, sg.Fits file)
    (hrun : loadFrom S target_type offset h junk s i n = .ok (true, s')) :
    Loaded R file s ((List.range' i n).filterMap (segmentAt offset file)) s' := by
  induction n generalizing i s p with
  | zero =>
    obtain ⟨-, rfl⟩ := Prod.mk.inj (Except.ok.inj hrun)
    exact .nil hst hs rfl rfl
  | succ n ih =>
    have hfile := hheaders.program i (by omega)
    have hlt := hheaders.length_lt
    have hphdr : phdrSize = 56 := rfl
    have hpos : (e_phoff h + i * e_phentsize h) % 2 ^ 64 = e_phoff file + i * e_phentsize file := by
      rw [hphoff, hphentsize, Nat.mod_eq_of_lt (by omega)]
    obtain ⟨ph, hph⟩ : ∃ ph, ph = file.drop (e_phoff file + i * e_phentsize file) := ⟨_, rfl⟩
    obtain ⟨st', hread, hst'⟩ := readForType_eq hS (hS.seek _ p _ hst (by omega)) hfile junk
    rw [loadFrom, hpos, hread, ← hph] at hrun
    obtain ⟨⟨loaded, s₁⟩, hheader, hrun⟩ := bind_eq_ok.mp hrun
    cases loaded with
    | false => cases hrun
    | true =>
      have hmem : p_type ph = PT_LOAD → Segment.ofHeader offset ph ∈ segments offset file := by
        intro htype
        refine List.mem_filterMap.mpr ⟨i, List.mem_range'_1.mpr (by omega), ?_⟩
        rw [segmentAt, ← hph, if_pos htype]
      have hone := loadHeader_loaded (s := { s with stream := st' }) hS hs hst'
          (by rw [hph, List.length_drop]; omega) (fun htype => hfits _ (hmem htype)) hheader
      obtain ⟨p₁, hst₁⟩ := hone.stream
      have hrest := ih hone.space hst₁ (by omega) hrun
      have hboth : Loaded R file s _ s₁ := { hone with }
      rw [segments_succ offset hph]
      exact hboth.trans hrest

/-- What `Load` leaves when it returns true. -/
theorem load_loaded {entry : ℕ} (hS : StreamOf S file R) (hheaders : Headers file)
    (hs : ∃ T L, UserSpace s.vm s.process.page_table T L) (hst : R s.stream p)
    (hfits : ∀ sg ∈ segments offset file, sg.Fits file)
    (hrun : load S target_type offset junk s = .ok (true, entry, s')) :
    Loaded R file s (segments offset file) s' := by
  have hsize := hheaders.header
  have hehdr : ehdrSize = 64 := rfl
  have hseek := hS.seek s.stream p 0 hst (by omega)
  obtain ⟨st', hread, hst'⟩ := readForType_eq hS hseek ((Nat.zero_add ehdrSize).trans_le hsize) junk
  have hmember : ∀ a k, a + k ≤ ehdrSize →
      member (file.take ehdrSize ++ junk.drop ehdrSize) a k = member file a k :=
    fun a k hk => member_take_append hk hsize
  unfold load header at hrun
  rw [hread, List.drop_zero] at hrun
  simp only at hrun
  split at hrun
  · cases hrun
  · obtain ⟨⟨loaded, s₁⟩, hfrom, hrun⟩ := bind_eq_ok.mp hrun
    obtain ⟨rfl, hrest⟩ := Prod.mk.inj (Except.ok.inj hrun)
    obtain ⟨-, rfl⟩ := Prod.mk.inj hrest
    have hphnum : e_phnum (file.take ehdrSize ++ junk.drop ehdrSize) = e_phnum file :=
      hmember 56 2 (by decide)
    rw [hphnum] at hfrom
    have hloaded := loadFrom_loaded (s := { s with stream := st' }) hS hheaders hs hst'
      (hmember 32 8 (by decide)) (hmember 54 2 (by decide)) (Nat.zero_add _).le hfits hfrom
    exact { hloaded with }

end OrangeOs.Kernel
