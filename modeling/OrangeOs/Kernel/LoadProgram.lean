import OrangeOs.Kernel.LoadImage

/-! # The image that a file describes

A program whose segments fit is loaded when there is enough memory. What the process then sees is
the image that the file describes just when no segment has bytes in a page of a segment after it:
new pages take the place of the pages that were mapped, and only the bytes of their own segment are
read into them.
-/

namespace OrangeOs.Kernel

open Memory VirtualMemory Elf

variable {σ : Type} {S : StreamBase σ} {R : σ → ℕ → Prop} {st : σ} {file ph h junk t : List UInt8}
  {v : VirtualMemory} {i k n p entry offset target_type : ℕ} {L : List ℕ} {T : List (Fin 512) → Option ℕ}
  {s s' : Loading σ} {sg : Segment} {segs : List Segment}

/-! ## Enough memory -/

/-- A segment is loaded. -/
theorem loadSegmentOf_true (hS : StreamOf S file R)
    (hs : UserSpace s.vm s.process.page_table T L) (hst : R s.stream p)
    (hfits : (Segment.ofHeader offset ph).Fits file) (hroom : s.process.used_address_size < 16)
    (hfree : 3 * (Segment.ofHeader offset ph).pages ≤ L.length) :
    ∃ s' T' L' p', loadSegmentOf S offset ph s = .ok (true, s') ∧
    UserSpace s'.vm s'.process.page_table T' L' ∧
      R s'.stream p' ∧ s'.process.used_address_size = s.process.used_address_size + 1 ∧
      L.length ≤ L'.length + 3 * (Segment.ofHeader offset ph).pages := by
  have hbelow := hfits.below
  rw [TaskMemory.userStackVa_eq] at hbelow
  have hrange := hfits.range_le
  rw [Segment.pages] at hrange hfree
  obtain ⟨v₁, hmap⟩ := hs.toTables.mapMemory_true (by omega) hrange (privi_lt ph)
    ((cost_le _ _ _).trans hfree)
  obtain ⟨T', L', h₁, hleft, hzero⟩ := segment_mapped hs hfits hmap
  obtain ⟨v₂, st', p', hload, hst', h₂, -⟩ := segment_filled hS h₁ hfits hst fun a ha => by
    have hbyte := hzero a (by simp only [Segment.Holds] at ha; omega)
    rw [if_pos ha.covers] at hbyte
    obtain ⟨pa, hpa, -⟩ := Option.map_eq_some_iff.mp hbyte
    exact ⟨pa, hpa⟩
  exact ⟨_, T', L', p', loadSegmentOf_eq hfits.filesz_le rfl hfits.end_eq hmap hload hroom
    (dif_pos hroom), h₂, hst',
    rfl, hleft⟩

/-- So are the segments of the program headers. -/
theorem loadHeader_true (target_type offset : ℕ) (ph : List UInt8) (hS : StreamOf S file R)
    (hs : UserSpace s.vm s.process.page_table T L) (hst : R s.stream p) (hfits : p_type ph =
    PT_LOAD → (Segment.ofHeader offset ph).Fits file ∧ s.process.used_address_size < 16 ∧
      3 * (Segment.ofHeader offset ph).pages ≤ L.length) :
    ∃ s' T' L' p', loadHeader S target_type offset ph s = .ok (true, s') ∧
      UserSpace s'.vm s'.process.page_table T' L' ∧ R s'.stream p' ∧
      s'.process.used_address_size =
      s.process.used_address_size + (if p_type ph = PT_LOAD then 1 else 0) ∧
      L.length ≤ L'.length + if p_type ph =
      PT_LOAD then 3 * (Segment.ofHeader offset ph).pages else 0 := by
  obtain ⟨s₁, heq, hvm, hstream, hprocess⟩ := loadHeader_eq S target_type offset ph s
  rw [heq]
  by_cases htype : p_type ph = PT_LOAD
  · obtain ⟨hfits, hroom, hfree⟩ := hfits htype
    simp only [htype, ne_eq, not_true_eq_false, if_false, if_true]
    rw [← hprocess, ← hvm] at hs
    rw [← hprocess] at hroom ⊢
    exact loadSegmentOf_true hS hs (hstream ▸ hst) hfits hroom hfree
  · simp only [htype, ne_eq, not_false_eq_true, if_true, if_false, Nat.add_zero]
    exact ⟨s₁, T, L, p, rfl, by rwa [hvm, hprocess], hstream ▸ hst, by rw [hprocess], le_rfl⟩

/-- The number of the pages of the segments. -/
def pagesOf (segs : List Segment) : ℕ := (segs.map Segment.pages).sum

/-- The loop over the program headers. -/
theorem loadFrom_true (target_type : ℕ) (junk : List UInt8) (hS : StreamOf S file R)
    (hheaders : Headers file)
    (hs : UserSpace s.vm s.process.page_table T L) (hst : R s.stream p)
    (hphoff : e_phoff h = e_phoff file) (hphentsize : e_phentsize h = e_phentsize file)
    (hn : i + n ≤ e_phnum file)
    (hfits : ∀ sg ∈ segments offset file, sg.Fits file)
    (hroom : s.process.used_address_size +
    ((List.range' i n).filterMap (segmentAt offset file)).length ≤ 16)
    (hfree : 3 * pagesOf ((List.range' i n).filterMap (segmentAt offset file)) ≤ L.length) :
    ∃ s', loadFrom S target_type offset h junk s i n = .ok (true, s') := by
  induction n generalizing i s p T L with
  | zero => exact ⟨s, rfl⟩
  | succ n ih =>
    have hfile := hheaders.program i (by omega)
    have hlt := hheaders.length_lt
    have hphdr : phdrSize = 56 := rfl
    have hpos : (e_phoff h + i * e_phentsize h) % 2 ^ 64 = e_phoff file + i * e_phentsize file := by
      rw [hphoff, hphentsize, Nat.mod_eq_of_lt (by omega)]
    obtain ⟨ph, hph⟩ : ∃ ph, ph = file.drop (e_phoff file + i * e_phentsize file) := ⟨_, rfl⟩
    obtain ⟨st', hread, hst'⟩ := readForType_eq hS (hS.seek _ p _ hst (by omega)) hfile junk
    obtain ⟨htype, hseg⟩ := header_take_append offset (show phdrSize ≤ ph.length by
      rw [hph, List.length_drop]; omega) (junk.drop phdrSize)
    rw [segments_succ offset hph, List.length_append] at hroom
    rw [segments_succ offset hph, pagesOf, List.map_append, List.sum_append,
      ← pagesOf, ← pagesOf] at hfree
    rw [loadFrom, hpos, hread, ← hph]
    have hone := loadHeader_true (s := { s with stream := st' }) target_type offset
      (ph.take phdrSize ++ junk.drop phdrSize) hS hs hst'
    rw [htype, hseg] at hone
    obtain ⟨s₁, T', L', p', heq, hs₁, hst₁, hsize, hleft⟩ := hone fun hload => by
      rw [if_pos hload] at hroom hfree
      refine ⟨hfits _ (List.mem_filterMap.mpr ⟨i, List.mem_range'_1.mpr (by omega), ?_⟩), ?_, ?_⟩
      · rw [segmentAt, ← hph, if_pos hload]
      · simp only [List.length_singleton] at hroom ⊢
        omega
      · simp only [pagesOf, List.map_cons, List.map_nil, List.sum_cons, List.sum_nil] at hfree
        omega
    simp only at hsize
    simp only [heq]
    show ∃ s', loadFrom S target_type offset h junk s₁ (i + 1) n = .ok (true, s')
    refine ih hs₁ hst₁ (by omega) ?_ ?_
    · split at hroom
      · next hload =>
        rw [if_pos hload] at hsize
        rw [List.length_singleton] at hroom
        omega
      · next hload =>
        rw [if_neg hload] at hsize
        omega
    · split at hfree
      · next hload =>
        rw [if_pos hload] at hleft
        simp only [pagesOf, List.map_cons, List.map_nil, List.sum_cons, List.sum_nil] at hfree hleft ⊢
        omega
      · next hload =>
        rw [if_neg hload] at hleft
        omega

/-- With enough memory a program is loaded. -/
theorem load_true (hS : StreamOf S file R) (hheaders : Headers file)
    (hs : UserSpace s.vm s.process.page_table T L) (hst : R s.stream p) (hvalid : valid file target_type)
    (hfits : ∀ sg ∈ segments offset file, sg.Fits file)
    (hroom : s.process.used_address_size + (segments offset file).length ≤ 16)
    (hfree : 3 * pagesOf (segments offset file) ≤ L.length) :
    ∃ s', load S target_type offset junk s = .ok (true, e_entry file, s') := by
  have hsize := hheaders.header
  have hehdr : ehdrSize = 64 := rfl
  have hseek := hS.seek s.stream p 0 hst (by omega)
  obtain ⟨st', hread, hst'⟩ := readForType_eq hS hseek ((Nat.zero_add ehdrSize).trans_le hsize) junk
  have hmember : ∀ a k, a + k ≤ ehdrSize →
      member (file.take ehdrSize ++ junk.drop ehdrSize) a k = member file a k :=
    fun a k hk => member_take_append hk hsize
  have hchar : ∀ k < ehdrSize, charAt (file.take ehdrSize ++ junk.drop ehdrSize) k = charAt file k :=
    fun k hk => charAt_take_append hk hsize
  have hvalid' : valid (file.take ehdrSize ++ junk.drop ehdrSize) target_type = true := by
    rw [← hvalid]
    unfold valid e_type e_machine
    rw [hmember 16 2 (by decide), hmember 18 2 (by decide), hchar _ (by decide), hchar _ (by decide),
      hchar _ (by decide), List.take_append_of_le_length (by rw [List.length_take]; omega),
      List.take_take,
      Nat.min_eq_left (by decide)]
  have hphnum : e_phnum (file.take ehdrSize ++ junk.drop ehdrSize) = e_phnum file :=
    hmember 56 2 (by decide)
  obtain ⟨s', heq⟩ := loadFrom_true (s := { s with stream := st' }) target_type junk hS hheaders hs hst'
    (hmember 32 8 (by decide)) (hmember 54 2 (by decide)) (Nat.zero_add _).le hfits hroom hfree
  refine ⟨s', ?_⟩
  unfold load header
  rw [hread, List.drop_zero]
  simp only [hvalid', not_true_eq_false, if_false]
  rw [hphnum, heq, show e_entry (file.take ehdrSize ++ junk.drop ehdrSize) =
    e_entry file from hmember 24 8 (by decide)]
  rfl

/-! ## The image -/

namespace Segment

/-- The segments share no address. -/
def Apart (sg sg' : Segment) : Prop := ∀ a, sg.Holds a → ¬ sg'.Holds a

/-- The bytes of a segment in the pages of another one are zero. -/
def Spared (file : List UInt8) (sg sg' : Segment) : Prop :=
  ∀ a, sg.Holds a → sg'.Covers a → sg.byte file a = 0

variable {sg' : Segment}

/-- What a segment writes where another one is. -/
theorem layer_write (file : List UInt8) (hle : sg'.filesz ≤ sg'.memsz) (h : sg.Apart sg')
    {a : ℕ} (ha : sg.Holds a) :
    (sg'.layer file).write a = if sg'.Covers a then some (some 0) else none := by
  have hout := h a ha
  simp only [Holds] at hout
  exact if_neg (by omega)

theorem own_eq_some {a : ℕ} {y : Option UInt8} :
    (sg.layer file).own a = some y ↔ sg.Holds a ∧ y = some (sg.byte file a) := by
  unfold layer
  simp only
  split
  · next ha => exact ⟨fun hy => ⟨ha, (Option.some.inj hy).symm⟩, fun hy => by rw [hy.2]⟩
  · next ha => exact ⟨nofun, fun hy => absurd hy.1 ha⟩

theorem layer_spares (hle : sg'.filesz ≤ sg'.memsz) (h : sg.Apart sg') :
    Layer.Spares (some 0) (sg.layer file) (sg'.layer file) := by
  intro a y hy
  rw [layer_write file hle h (own_eq_some.mp hy).1]
  split
  · exact .inr rfl
  · exact .inl rfl

theorem layer_agrees_iff (hle : sg'.filesz ≤ sg'.memsz) (h : sg.Apart sg') :
    Layer.Agrees (some 0) (sg.layer file) (sg'.layer file) ↔ sg.Spared file sg' := by
  constructor
  · intro hagree a ha hcover
    have hwrite := layer_write file hle h ha
    rw [if_pos hcover] at hwrite
    exact Option.some.inj (hagree a _ (own_eq_some.mpr ⟨ha, rfl⟩) hwrite)
  · intro hspared a y hy hwrite
    obtain ⟨ha, rfl⟩ := own_eq_some.mp hy
    rw [layer_write file hle h ha] at hwrite
    split at hwrite
    · next hcover => rw [hspared a ha hcover]
    · cases hwrite

end Segment

/-- Every byte of the segments is the one that the file describes. -/
def Image (file : List UInt8) (segs : List Segment) (v : VirtualMemory) (root : ℕ) : Prop :=
  ∀ sg ∈ segs, ∀ k < sg.memsz,
    userByte v root (sg.vaddr + k) = some (if k < sg.filesz then charAt file (sg.offset + k) else 0)

/-- The table of regions has the segments after what it had before. -/
structure Recorded (t t' : TaskMemory) (segs : List Segment) : Prop where
  size : t'.used_address_size = t.used_address_size + segs.length
  kept : ∀ i < t.used_address_size, t'.region i = t.region i
  added : ∀ j (hj : j < segs.length),
    t'.region (t.used_address_size + j) = .ok (segs[j].vaddr, segs[j].vaddr + segs[j].memsz)

/-- The image, byte by byte. -/
theorem image_iff : Image file segs v n ↔
    ∀ l ∈ segs.map (Segment.layer file), ∀ a y, l.own a = some y → userByte v n a = y := by
  rw [List.forall_mem_map]
  refine forall₂_congr fun sg hsg => ⟨fun himage a y hy => ?_, fun hlayer k hk => ?_⟩
  · obtain ⟨ha, rfl⟩ := Segment.own_eq_some.mp hy
    obtain ⟨k, rfl⟩ := Nat.exists_eq_add_of_le ha.1
    rw [himage k (by simp only [Segment.Holds] at ha; omega), Segment.byte, Nat.add_sub_cancel_left]
    exact congrArg some (if_congr (by omega) rfl rfl)
  · rw [hlayer (sg.vaddr + k) _ (Segment.own_eq_some.mpr ⟨⟨by omega, by omega⟩, rfl⟩), Segment.byte,
      Nat.add_sub_cancel_left]
    exact congrArg some (if_congr (by omega) rfl rfl)

namespace Loaded

/-- The image is right just when no segment hides a byte of one before it. -/
theorem image_iff (h : Loaded R file s segs s') (hfits : ∀ sg ∈ segs, sg.Fits file)
    (hapart : segs.Pairwise Segment.Apart) :
    Image file segs s'.vm s'.process.page_table ↔ segs.Pairwise (Segment.Spared file) := by
  have hspares : (segs.map (Segment.layer file)).Pairwise (Layer.Spares (some 0)) :=
    List.pairwise_map.mpr
    (hapart.imp_of_mem fun _ hsg' happart => Segment.layer_spares (hfits _ hsg').filesz_le happart)
  have hagree : (segs.map (Segment.layer file)).Pairwise (Layer.Agrees (some 0)) ↔
      segs.Pairwise (Segment.Spared file) := by
    rw [List.pairwise_map]
    constructor
    · intro hall
      exact (hapart.and hall).imp_of_mem fun _ hsg' hboth =>
        (Segment.layer_agrees_iff (hfits _ hsg').filesz_le hboth.1).mp hboth.2
    · intro hall
      exact (hapart.and hall).imp_of_mem fun _ hsg' hboth =>
        (Segment.layer_agrees_iff (hfits _ hsg').filesz_le hboth.1).mpr hboth.2
  have hbelow : ∀ l ∈ segs.map (Segment.layer file), ∀ a y, l.own a = some y → a < 2 ^ 38 := by
    rw [List.forall_mem_map]
    intro sg hsg a y hy
    have hend := (hfits sg hsg).below
    rw [TaskMemory.userStackVa_eq] at hend
    have ha := (Segment.own_eq_some.mp hy).1.2
    omega
  rw [Kernel.image_iff, ← hagree,
    ← Layer.overlay_shows_iff (f := userByte s.vm s.process.page_table) hspares]
  constructor
  · intro himage l hl a y hy
    rw [← h.image a (hbelow l hl a y hy)]
    exact himage l hl a y hy
  · intro hsee l hl a y hy
    rw [h.image a (hbelow l hl a y hy)]
    exact hsee l hl a y hy

theorem recorded (h : Loaded R file s segs s') :
    Recorded s.process.toTaskMemory s'.process.toTaskMemory segs := ⟨h.size, h.kept, h.added⟩

end Loaded

/-- `Load` makes the image of the file, and records its segments, just when no segment has a byte
that is not zero in a page of a segment after it. -/
theorem load_image_iff (hS : StreamOf S file R) (hheaders : Headers file) (hst : R s.stream p)
    (hs : UserSpace s.vm s.process.page_table T L) (hfits : ∀ sg ∈ segments offset file, sg.Fits file)
    (hapart : (segments offset file).Pairwise Segment.Apart)
    (hrun : load S target_type offset junk s = .ok (true, entry, s')) :
    Image file (segments offset file) s'.vm s'.process.page_table ∧
        Recorded s.process.toTaskMemory s'.process.toTaskMemory (segments offset file) ↔
      (segments offset file).Pairwise (Segment.Spared file) := by
  have h := load_loaded hS hheaders ⟨T, L, hs⟩ hst hfits hrun
  constructor
  · intro hboth
    exact (h.image_iff hfits hapart).mp hboth.1
  · intro hspared
    exact ⟨(h.image_iff hfits hapart).mpr hspared, h.recorded⟩

/-! ## Two segments -/

/-- An ELF file with two segments of four bytes, at the addresses 0 and `256 * page + 8`. -/
def pairFile (page : UInt8) : List UInt8 :=
  [0x7f, 0x45, 0x4c, 0x46, 2, 1, 1, 0, 0, 0, 0, 0, 0, 0, 0, 0, 2, 0, 243, 0, 1, 0, 0, 0,
    0, 0, 0, 0, 0, 0, 0, 0, 64, 0, 0, 0, 0, 0, 0, 0, 0, 0, 0, 0, 0, 0, 0, 0,
    0, 0, 0, 0, 64, 0, 56, 0, 2, 0, 0, 0, 0, 0, 0, 0] ++
  [1, 0, 0, 0, 5, 0, 0, 0, 176, 0, 0, 0, 0, 0, 0, 0, 0, 0, 0, 0, 0, 0, 0, 0,
    0, 0, 0, 0, 0, 0, 0, 0, 4, 0, 0, 0, 0, 0, 0, 0, 4, 0, 0, 0, 0, 0, 0, 0,
    0, 0, 0, 0, 0, 0, 0, 0] ++
  [1, 0, 0, 0, 6, 0, 0, 0, 180, 0, 0, 0, 0, 0, 0, 0, 8, page, 0, 0, 0, 0, 0, 0,
    0, 0, 0, 0, 0, 0, 0, 0, 4, 0, 0, 0, 0, 0, 0, 0, 4, 0, 0, 0, 0, 0, 0, 0,
    0, 0, 0, 0, 0, 0, 0, 0] ++ [0x73, 0, 0, 0, 1, 2, 3, 4]

theorem headers_pairFile : ∀ page ∈ [0, 16], Headers (pairFile page) := by
  have hall : ∀ page ∈ ([0, 16] : List UInt8), (pairFile page).length < 2 ^ 64 ∧
      ehdrSize ≤ (pairFile page).length ∧
      ∀ i < e_phnum (pairFile page),
        e_phoff (pairFile page) + i * e_phentsize (pairFile page) + phdrSize ≤
          (pairFile page).length := by
    decide +kernel
  intro page hpage
  exact ⟨(hall page hpage).1, (hall page hpage).2.1, (hall page hpage).2.2⟩

theorem segments_pairFile : ∀ page ∈ [0, 16],
    segments 0 (pairFile page) = [⟨0, 4, 176, 4⟩, ⟨8 + 256 * page.toNat, 4, 180, 4⟩] := by
  decide +kernel

theorem fits_pairFile : ∀ page ∈ [0, 16], ∀ sg ∈ segments 0 (pairFile page),
    sg.Fits (pairFile page) := by
  have hall : ∀ page ∈ ([0, 16] : List UInt8), ∀ sg ∈ segments 0 (pairFile page), sg.filesz ≤ sg.memsz ∧
      sg.offset + sg.filesz ≤ (pairFile page).length ∧ sg.vaddr + sg.memsz ≤ TaskMemory.userStackVa := by
    decide +kernel
  intro page hpage sg hsg
  exact ⟨(hall page hpage sg hsg).1, (hall page hpage sg hsg).2.1, (hall page hpage sg hsg).2.2⟩

theorem apart_pairFile : ∀ page ∈ [0, 16], (segments 0 (pairFile page)).Pairwise Segment.Apart := by
  intro page hpage
  rw [segments_pairFile page hpage, List.pairwise_pair]
  intro a ha ha'
  simp only [Segment.Holds] at ha ha'
  omega

/-- Both files are loaded by a process without pages. -/
theorem exists_pair {page : UInt8} (hpage : page ∈ [0, 16]) : ∃ (s s' : Loading StringStream)
    (T : List (Fin 512) → Option ℕ) (L : List ℕ), s.stream = ⟨pairFile page, 0⟩ ∧
      UserSpace s.vm s.process.page_table T L ∧
      load StringStream.base ET_EXEC 0 [] s = .ok (true, e_entry (pairFile page), s') := by
  obtain ⟨v, root, L, htables, hlen⟩ := exists_tables 10 (by decide)
  have hspace := (addressSpace_iff.mpr (htables 3)).userSpace
  have hvalid : ∀ page ∈ ([0, 16] : List UInt8),
      valid (pairFile page) ET_EXEC = true := by decide +kernel
  have hpages : ∀ page ∈ ([0, 16] : List UInt8),
      3 * pagesOf (segments 0 (pairFile page)) ≤ 10 := by decide +kernel
  obtain ⟨s', heq⟩ := load_true
    (s := ⟨⟨⟨0, root, 0, fun _ => (0, 0), 0, 0, 0, .none⟩, {}⟩, {}, v, ⟨pairFile page, 0⟩⟩)
    (streamOf_string (headers_pairFile page hpage).length_lt) (headers_pairFile page hpage) hspace rfl
    (hvalid page hpage) (fits_pairFile page hpage)
    (by rw [segments_pairFile page hpage]; exact (by decide : 0 + 2 ≤ 16))
    (by rw [hlen]; exact hpages page hpage)
  exact ⟨_, s', _, L, rfl, hspace, heq⟩

/-- Two segments in different pages. -/
theorem load_image_pages : ∃ s s' : Loading StringStream,
    (Image (pairFile 16) (segments 0 (pairFile 16)) s'.vm
        s'.process.page_table ∧
      Recorded s.process.toTaskMemory s'.process.toTaskMemory (segments 0 (pairFile 16)) ↔
    (segments 0 (pairFile 16)).Pairwise (Segment.Spared (pairFile 16))) ∧
      (segments 0 (pairFile 16)).Pairwise (Segment.Spared (pairFile 16)) := by
  have hpage : (16 : UInt8) ∈ [0, 16] := by decide
  obtain ⟨s, s', T, L, hstream, hspace, heq⟩ := exists_pair hpage
  refine ⟨s, s', load_image_iff (streamOf_string (headers_pairFile 16 hpage).length_lt)
    (headers_pairFile 16 hpage)
    hstream hspace (fits_pairFile 16 hpage) (apart_pairFile 16 hpage) heq, ?_⟩
  rw [segments_pairFile 16 hpage, List.pairwise_pair]
  intro a ha hcover
  have htoNat : (16 : UInt8).toNat = 16 := rfl
  simp only [Segment.Holds, Segment.Covers, PGSIZE, htoNat] at ha hcover
  omega

/-- Two segments in one page. The bytes of the first one are lost. -/
theorem load_image_lost : ¬ ∀ (file junk : List UInt8) (target_type offset entry pos : ℕ)
    (s s' : Loading StringStream)
    (T : List (Fin 512) → Option ℕ) (L : List ℕ), Headers file → s.stream = ⟨file, pos⟩ →
    UserSpace s.vm s.process.page_table T L → (∀ sg ∈ segments offset file, sg.Fits file) →
    (segments offset file).Pairwise Segment.Apart →
    load StringStream.base target_type offset junk s = .ok (true, entry, s') →
    Image file (segments offset file) s'.vm s'.process.page_table ∧
      Recorded s.process.toTaskMemory s'.process.toTaskMemory (segments offset file) := by
  intro hall
  have hpage : (0 : UInt8) ∈ [0, 16] := by decide
  have hheaders := headers_pairFile 0 hpage
  have hfits := fits_pairFile 0 hpage
  have hapart := apart_pairFile 0 hpage
  obtain ⟨s, s', T, L, hstream, hspace, heq⟩ := exists_pair hpage
  obtain ⟨himage, -⟩ := hall _ _ _ _ _ _ s s' T L hheaders hstream hspace hfits hapart heq
  have hloaded := load_loaded (streamOf_string hheaders.length_lt) hheaders
      ⟨T, L, hspace⟩ hstream hfits heq
  have hspared := (hloaded.image_iff hfits hapart).mp himage
  rw [segments_pairFile 0 hpage, List.pairwise_pair] at hspared
  have hbyte : Segment.byte (pairFile 0) ⟨0, 4, 176, 4⟩ 0 ≠ 0 := by decide +kernel
  exact hbyte (hspared 0 (by decide) (by decide))

end OrangeOs.Kernel
