import OrangeOs.Library.Memory

/-! # The bitmap viewer

`bmpParser` and the constructor of `ImageViewer` of `user/graphic/image_viewer.cc`. A file is the
list of its bytes and a descriptor is a position in it; what is in a buffer before a read stays
there behind the bytes that the read delivers. The texts that are printed are left out.
-/

namespace OrangeOs.User

open Memory

/-- The fields of the header that the parser looks at. -/
structure Header where
  data_offset : UInt32
  width : UInt32
  height : UInt32
  planes : UInt16
  bits_per_pixel : UInt16
  compression : UInt32
  image_size : UInt32
  deriving DecidableEq, Repr

namespace Header

def size : ℕ := 52

/-- The fields of the 52 bytes of a header. -/
def ofBytes (bytes : List UInt8) : Header where
  data_offset := UInt32.ofNat (leNat (charAt bytes) 8 4)
  width := UInt32.ofNat (leNat (charAt bytes) 16 4)
  height := UInt32.ofNat (leNat (charAt bytes) 20 4)
  planes := UInt16.ofNat (leNat (charAt bytes) 24 2)
  bits_per_pixel := UInt16.ofNat (leNat (charAt bytes) 26 2)
  compression := UInt32.ofNat (leNat (charAt bytes) 28 4)
  image_size := UInt32.ofNat (leNat (charAt bytes) 32 4)

/-- `Init` sets `is_valid_`. A `file_size` that is not that of the file is only reported. -/
def init (h : Header) : Bool :=
  let image_size := ((h.bits_per_pixel / 8).toUInt32 * h.width + 3) / 4 * 4 * h.height
  h.planes = 1 ∧ Header.size ≤ h.data_offset.toNat ∧
    (h.compression = 0 ∧ 8 ≤ h.bits_per_pixel → image_size = h.image_size)

def rowSize (h : Header) : UInt32 := h.width * h.bits_per_pixel.toUInt32 / 8

def imgSize (h : Header) : UInt32 := h.height * h.rowSize

def padding (h : Header) : UInt32 := if h.rowSize % 4 = 0 then 0 else 4 - h.rowSize % 4

end Header

/-- The position in the file, the elements of `data` and the indices that have been written. -/
structure ParseState where
  pos : ℕ
  data : Memory
  writes : List ℕ

/-- `read` into a buffer of which the former contents are `old`. -/
def readBuf (file : List UInt8) (pos n : ℕ) (old : List UInt8) : List UInt8 × ℕ :=
  let bytes := (file.drop pos).take n
  (bytes ++ old.drop bytes.length, pos + bytes.length)

namespace ParseState

/-- `read` into `data` from the element `buf` on. -/
def readData (s : ParseState) (file : List UInt8) (buf n : ℕ) : ParseState :=
  let bytes := (file.drop s.pos).take n
  { pos := s.pos + bytes.length
    data := s.data.put buf bytes.length bytes
    writes := s.writes ++ List.range' buf bytes.length }

/-- The loop over the batches of a row, of which there are no more than bytes. -/
def readBatches (file : List UInt8) : ℕ → ℕ → ℕ → ParseState → ParseState
  | 0, _, _, s => s
  | n + 1, size, buf, s =>
    if 0 < size then
      let count := if 128 < size then 128 else size
      readBatches file n (size - count) (buf + count) (s.readData file buf count)
    else s

end ParseState

/-- The loop over the rows, of which `n` are left. -/
def parseRows (h : Header) (file : List UInt8) : ℕ → UInt32 → ParseState → ParseState
  | 0, _, s => s
  | n + 1, row_index, s =>
    let size := h.rowSize.toNat
    let buf := ((h.height - row_index - 1) * h.rowSize).toNat
    let s := s.readBatches file size size buf
    let s := if h.padding ≠ 0 then { s with pos := (readBuf file s.pos h.padding.toNat []).2 } else s
    parseRows h file n (row_index + 1) s

/-- `DoParse`, without a result where the header is not valid. -/
def doParse (h : Header) (file : List UInt8) (pos : ℕ) (data : Memory) : Option ParseState :=
  if h.init then some (parseRows h file h.height.toNat 0 ⟨pos, data, []⟩) else none

/-- The constructor of `ImageViewer` and its `Init`. `buf` and `header` are what the variables hold
before. -/
def imageViewer (file buf header : List UInt8) (data : Memory) : Option ParseState :=
  let (buf, pos) := readBuf file 0 2 buf
  if charAt buf 0 = 66 ∧ charAt buf 1 = 77 then
    let (header, pos) := readBuf file pos Header.size header
    doParse (.ofBytes header) file pos data
  else none

variable {h : Header} {file bytes t : List UInt8} {s : ParseState} {data : Memory}
    {n m i pos buf : ℕ} {row_index : UInt32}

/-! ## A row -/

theorem put_append (m : Memory) (a : ℕ) (bytes t : List UInt8) :
    m.put a (bytes ++ t).length (bytes ++ t) =
      (m.put a bytes.length bytes).put (a + bytes.length) t.length t := by
  funext i
  unfold Memory.put
  rw [List.length_append]
  by_cases hlt : i < a + bytes.length
  · by_cases hge : a ≤ i
    · rw [if_pos ⟨hge, by omega⟩, if_neg (by omega), if_pos ⟨hge, hlt⟩, charAt_append_left (by omega)]
    · rw [if_neg (by omega), if_neg (by omega), if_neg (by omega)]
  · by_cases hend : i < a + (bytes.length + t.length)
    · rw [if_pos ⟨by omega, hend⟩, if_pos ⟨by omega, by omega⟩,
        charAt_append_right (by omega), Nat.sub_add_eq]
    · rw [if_neg (by omega), if_neg (by omega), if_neg (by omega)]

namespace ParseState

/-- Two reads that follow one another are one: the second one delivers nothing if the first one met
the end. -/
theorem readData_readData (s : ParseState) (file : List UInt8) (buf n m : ℕ) :
    (s.readData file buf n).readData file (buf + n) m = s.readData file buf (n + m) := by
  have htake := List.take_add (l := file.drop s.pos) (i := n) (j := m)
  by_cases hn : n ≤ (file.drop s.pos).length
  · have hlen : ((file.drop s.pos).take n).length = n := List.length_take_of_le hn
    unfold readData
    dsimp only
    rw [hlen, ← List.drop_drop, htake, put_append, hlen, List.length_append, hlen, List.append_assoc,
      List.range'_append_1, Nat.add_assoc]
  · have hall : (file.drop s.pos).take n = file.drop s.pos := List.take_of_length_le (by omega)
    have hlen : (file.drop s.pos).length = file.length - s.pos := List.length_drop
    have hnone : file.drop (s.pos + (file.drop s.pos).length) = [] := List.drop_eq_nil_of_le (by omega)
    have hall' : (file.drop s.pos).take (n + m) = file.drop s.pos := List.take_of_length_le (by omega)
    unfold readData
    dsimp only
    rw [hall, hall', hnone, List.take_nil, List.length_nil, List.range'_zero,
      List.append_nil, Nat.add_zero]
    have hput : ∀ data : Memory, data.put (buf + n) 0 [] = data :=
      fun data => funext fun j => if_neg (by omega)
    rw [hput]

theorem readData_zero (s : ParseState) (file : List UInt8) (buf : ℕ) : s.readData file buf 0 = s := by
  have hput : s.data.put buf 0 [] = s.data := funext fun j => if_neg (by omega)
  unfold readData
  dsimp only
  rw [List.take_zero, List.length_nil, hput, List.range'_zero, List.append_nil]
  rfl

/-- The batches of a row are one read. -/
theorem readBatches_eq (file : List UInt8) : ∀ n size buf s, size ≤ n →
    readBatches file n size buf s = s.readData file buf size
  | 0, size, buf, s, hn => by rw [Nat.le_zero.mp hn, readBatches, readData_zero]
  | n + 1, size, buf, s, hn => by
    rw [readBatches]
    by_cases hsize : 0 < size
    · rw [if_pos hsize]
      dsimp only
      have hcount : 0 < (if 128 < size then 128 else size) ∧
          (if 128 < size then 128 else size) ≤ size := by
        split <;> omega
      generalize (if 128 < size then 128 else size) = count at hcount ⊢
      rw [readBatches_eq file n _ _ _ (by omega), readData_readData, Nat.add_sub_cancel' hcount.2]
    · rw [if_neg hsize, Nat.eq_zero_of_not_pos hsize, readData_zero]

theorem mem_writes_readData : i ∈ (s.readData file buf n).writes →
    i ∈ s.writes ∨ buf ≤ i ∧ i < buf + n := by
  intro hi
  rcases List.mem_append.mp hi with hi | hi
  · exact .inl hi
  · have hlen : ((file.drop s.pos).take n).length ≤ n := List.length_take_le _ _
    rw [List.mem_range'_1] at hi
    exact .inr (by omega)

/-- What a read delivers that does not meet the end of the file. -/
theorem readData_full (file : List UInt8) (h : s.pos + n ≤ file.length) (buf : ℕ) :
    (s.readData file buf n).pos = s.pos + n ∧
    (s.readData file buf n).writes = s.writes ++ List.range' buf n ∧
      ∀ j, (s.readData file buf n).data j =
        if buf ≤ j ∧ j < buf + n then charAt file (s.pos + (j - buf)) else s.data j := by
  have hlen : ((file.drop s.pos).take n).length = n :=
    List.length_take_of_le (by rw [List.length_drop]; omega)
  unfold readData
  dsimp only
  rw [hlen]
  refine ⟨rfl, rfl, fun j => ?_⟩
  unfold Memory.put
  split
  · next hj => simp [charAt, List.getElem?_drop, show j - buf < n by omega]
  · rfl

end ParseState

/-! ## The rows -/

/-- The bytes of a row in the file, the row size rounded up to a multiple of 4. -/
def Header.stride (h : Header) : ℕ := (h.rowSize.toNat + 3) / 4 * 4

theorem padding_toNat (h : Header) : h.rowSize.toNat + h.padding.toNat = h.stride := by
  unfold Header.padding Header.stride
  have hmod : (h.rowSize % 4).toNat = h.rowSize.toNat % 4 := UInt32.toNat_mod _ _
  split
  · next hz =>
    rw [hz] at hmod
    have h0 : (0 : UInt32).toNat = 0 := rfl
    omega
  · next hz =>
    have hne : h.rowSize.toNat % 4 ≠ 0 := fun h0 => hz (UInt32.toNat_inj.mp (hmod.trans h0))
    have hle : h.rowSize % 4 ≤ 4 :=
      UInt32.le_iff_toNat_le.mpr (by rw [hmod]; exact (Nat.mod_lt _ (by decide)).le)
    have hsub : (4 - h.rowSize % 4).toNat = 4 - h.rowSize.toNat % 4 := by
      rw [UInt32.toNat_sub_of_le _ _ hle, hmod]
      rfl
    omega

/-- A row, of which `n` come before it in `data`. -/
def ParseState.row (s : ParseState) (h : Header) (file : List UInt8) (n : ℕ) : ParseState :=
  let s := s.readData file (n * h.rowSize.toNat % 2 ^ 32) h.rowSize.toNat
  { s with pos := s.pos + ((file.drop s.pos).take h.padding.toNat).length }

theorem parseRows_succ (hrow : row_index.toNat + (n + 1) = h.height.toNat)
    (file : List UInt8) (s : ParseState) :
    parseRows h file (n + 1) row_index s = parseRows h file n (row_index + 1) (s.row h file n) := by
  have hle : row_index ≤ h.height := UInt32.le_iff_toNat_le.mpr (by omega)
  have hsub : (h.height - row_index).toNat = n + 1 := by
    rw [UInt32.toNat_sub_of_le _ _ hle]
    omega
  have hone : (1 : UInt32).toNat = 1 := rfl
  have hsub' : (h.height - row_index - 1).toNat = n := by
    rw [UInt32.toNat_sub_of_le _ _ (UInt32.le_iff_toNat_le.mpr (by omega)), hsub, hone]
    rfl
  have hbuf : ((h.height - row_index - 1) * h.rowSize).toNat = n * h.rowSize.toNat % 2 ^ 32 := by
    rw [UInt32.toNat_mul, hsub']
  rw [parseRows, ParseState.readBatches_eq file _ _ _ _ le_rfl, hbuf, ParseState.row]
  dsimp only [readBuf]
  split
  · rfl
  · next hpad =>
    rw [not_not] at hpad
    rw [hpad]
    rfl

theorem toNat_succ (hrow : row_index.toNat + (n + 1) = h.height.toNat) :
    (row_index + 1).toNat + n = h.height.toNat := by
  have hlt := h.height.toNat_lt
  have hone : (1 : UInt32).toNat = 1 := rfl
  rw [UInt32.toNat_add, hone, Nat.mod_eq_of_lt (by omega)]
  omega

theorem parseRows_writes (h : Header) (file : List UInt8) : ∀ n row_index s,
    row_index.toNat + n = h.height.toNat → ∀ i ∈ (parseRows h file n row_index s).writes,
      i ∈ s.writes ∨ ∃ k < n, k * h.rowSize.toNat % 2 ^ 32 ≤ i ∧
      i < k * h.rowSize.toNat % 2 ^ 32 + h.rowSize.toNat
  | 0, _, _, _, _, hi => .inl hi
  | n + 1, row_index, s, hrow, i, hi => by
    rw [parseRows_succ hrow] at hi
    rcases parseRows_writes h file n _ _ (toNat_succ hrow) i hi with hi | ⟨k, hk, hki⟩
    · rcases ParseState.mem_writes_readData hi with hi | hi
      · exact .inl hi
      · exact .inr ⟨n, Nat.lt_succ_self n, hi⟩
    · exact .inr ⟨k, Nat.lt_succ_of_lt hk, hki⟩

/-- A row that does not meet the end of the file. -/
theorem row_full (h : Header) (file : List UInt8) (s : ParseState)
    (hfile : s.pos + h.stride ≤ file.length) (n : ℕ) :
    (s.row h file n).pos = s.pos + h.stride ∧
      (s.row h file n).writes = s.writes ++ List.range' (n * h.rowSize.toNat % 2 ^ 32) h.rowSize.toNat ∧
      ∀ j, (s.row h file n).data j =
        if n * h.rowSize.toNat % 2 ^ 32 ≤ j ∧ j < n * h.rowSize.toNat % 2 ^ 32 + h.rowSize.toNat then
          charAt file (s.pos + (j - n * h.rowSize.toNat % 2 ^ 32))
        else s.data j := by
  have hpad := padding_toNat h
  obtain ⟨hpos, hwrites, hdata⟩ := ParseState.readData_full (s := s) (n := h.rowSize.toNat) file
    (by omega) (n * h.rowSize.toNat % 2 ^ 32)
  refine ⟨?_, hwrites, hdata⟩
  have hlen : ((file.drop (s.pos + h.rowSize.toNat)).take h.padding.toNat).length = h.padding.toNat :=
    List.length_take_of_le (by rw [List.length_drop]; omega)
  unfold ParseState.row
  dsimp only
  rw [hpos, hlen]
  omega

/-- The rows that are left are all written if the file has them. -/
theorem parseRows_full (h : Header) (file : List UInt8) : ∀ n row_index s,
    row_index.toNat + n = h.height.toNat → s.pos + n * h.stride ≤ file.length →
      (∀ i ∈ s.writes, i ∈ (parseRows h file n row_index s).writes) ∧
      ∀ k < n, ∀ j < h.rowSize.toNat,
      k * h.rowSize.toNat % 2 ^ 32 + j ∈ (parseRows h file n row_index s).writes
  | 0, _, _, _, _ => ⟨fun _ hi => hi, fun _ hk => absurd hk (Nat.not_lt_zero _)⟩
  | n + 1, row_index, s, hrow, hfile => by
    have hmul : (n + 1) * h.stride = n * h.stride + h.stride := Nat.succ_mul n h.stride
    obtain ⟨hpos, hwrites, -⟩ := row_full h file s (by omega) n
    obtain ⟨hsub, hrows⟩ :=
      parseRows_full h file n (row_index + 1) (s.row h file n) (toNat_succ hrow) (by omega)
    rw [parseRows_succ hrow]
    refine ⟨fun i hi => hsub i (hwrites ▸ List.mem_append_left _ hi), fun k hk j hj => ?_⟩
    rcases Nat.lt_succ_iff_lt_or_eq.mp hk with hk | rfl
    · exact hrows k hk j hj
    · exact hsub _ (hwrites ▸ List.mem_append_right _ (List.mem_range'_1.mpr (by omega)))

/-- Where the picture fits in 32 bits, the rows that are left are those of the file in the opposite
order. -/
theorem parseRows_data (h : Header) (file : List UInt8) : ∀ n row_index s,
    row_index.toNat + n = h.height.toNat → s.pos + n * h.stride ≤ file.length →
    n * h.rowSize.toNat < 2 ^ 32 →
      (∀ i, n * h.rowSize.toNat ≤ i → (parseRows h file n row_index s).data i = s.data i) ∧
      ∀ k < n, ∀ j < h.rowSize.toNat, (parseRows h file n row_index s).data (k * h.rowSize.toNat + j) =
        charAt file (s.pos + (n - 1 - k) * h.stride + j)
  | 0, _, _, _, _, _ => ⟨fun _ _ => rfl, fun _ hk => absurd hk (Nat.not_lt_zero _)⟩
  | n + 1, row_index, s, hrow, hfile, hsize => by
    have hmul : (n + 1) * h.stride = n * h.stride + h.stride := Nat.succ_mul n h.stride
    have hmul' : (n + 1) * h.rowSize.toNat = n * h.rowSize.toNat + h.rowSize.toNat := Nat.succ_mul n _
    obtain ⟨hpos, -, hdata⟩ := row_full h file s (by omega) n
    rw [Nat.mod_eq_of_lt (show n * h.rowSize.toNat < 2 ^ 32 by omega)] at hdata
    obtain ⟨hframe, hrows⟩ := parseRows_data h file n (row_index + 1) (s.row h file n) (toNat_succ hrow)
      (by omega) (by omega)
    rw [parseRows_succ hrow]
    refine ⟨fun i hi => ?_, fun k hk j hj => ?_⟩
    · rw [hframe i (by omega), hdata, if_neg (by omega)]
    rcases Nat.lt_succ_iff_lt_or_eq.mp hk with hk | rfl
    · have hstep : (n + 1 - 1 - k) * h.stride = h.stride + (n - 1 - k) * h.stride := by
        rw [show n + 1 - 1 - k = (n - 1 - k) + 1 by omega, Nat.succ_mul, Nat.add_comm]
      rw [hrows k hk j hj, hpos, hstep, Nat.add_assoc s.pos]
    · rw [hframe _ (by omega), hdata, if_pos (by omega), Nat.add_sub_cancel_left, Nat.add_sub_cancel,
        Nat.sub_self, Nat.zero_mul, Nat.add_zero]

/-! ## Overflowing pictures -/

/-- The parser only writes to `data`. -/
def Within (h : Header) : Prop :=
  ∀ file pos data s, doParse h file pos data = some s → ∀ i ∈ s.writes, i < h.imgSize.toNat

theorem imgSize_toNat (h : Header) : h.imgSize.toNat = h.height.toNat * h.rowSize.toNat % 2 ^ 32 :=
  UInt32.toNat_mul _ _

theorem within_of_lt (hsize : h.height.toNat * h.rowSize.toNat < 2 ^ 32) : Within h := by
  intro file pos data s hs i hi
  unfold doParse at hs
  split at hs
  · cases hs
    rw [imgSize_toNat, Nat.mod_eq_of_lt hsize]
    rcases parseRows_writes h file _ 0 _ (Nat.zero_add _) i hi with hi | ⟨k, hk, -, hlt⟩
    · exact absurd hi List.not_mem_nil
    · have hle : (k + 1) * h.rowSize.toNat ≤ h.height.toNat * h.rowSize.toNat :=
        Nat.mul_le_mul_right _ hk
      rw [Nat.succ_mul] at hle
      rw [Nat.mod_eq_of_lt (by omega)] at hlt
      omega
  · cases hs

/-- Some row ends at the last index of 32 bits or past it. -/
theorem exists_row (hsize : 2 ^ 32 ≤ h.height.toNat * h.rowSize.toNat) :
    0 < h.rowSize.toNat ∧ ∃ k < h.height.toNat,
      2 ^ 32 ≤ k * h.rowSize.toNat % 2 ^ 32 + h.rowSize.toNat := by
  have hpos : 0 < h.rowSize.toNat := Nat.pos_of_ne_zero fun h0 => by rw [h0] at hsize; omega
  have hdiv := Nat.div_add_mod (2 ^ 32 - 1) h.rowSize.toNat
  have hmod := Nat.mod_lt (2 ^ 32 - 1) hpos
  have hlt : (2 ^ 32 - 1) / h.rowSize.toNat < h.height.toNat := by
    rw [Nat.div_lt_iff_lt_mul hpos]
    omega
  generalize (2 ^ 32 - 1) / h.rowSize.toNat = k at hdiv hlt
  rw [Nat.mul_comm] at hdiv
  refine ⟨hpos, k, hlt, ?_⟩
  rw [Nat.mod_eq_of_lt (by omega)]
  omega

/-- The writes of a file with all the rows. -/
theorem not_within (hinit : h.init = true)
    (hsize : 2 ^ 32 ≤ h.height.toNat * h.rowSize.toNat) : ¬ Within h := by
  intro hwithin
  obtain ⟨hpos, k, hk, hrow⟩ := exists_row hsize
  have hlen : (List.replicate (h.height.toNat * h.stride) (0 : UInt8)).length =
      h.height.toNat * h.stride :=
    List.length_replicate
  obtain ⟨-, hwrites⟩ := parseRows_full h (List.replicate (h.height.toNat * h.stride) 0) h.height.toNat 0
    ⟨0, fun _ => 0, []⟩ (Nat.zero_add _) (by rw [hlen]; exact (Nat.zero_add _).le)
  have hmem := hwrites k hk (h.rowSize.toNat - 1) (by omega)
  have hlt := hwithin _ 0 (fun _ => 0) _ (if_pos hinit) _ hmem
  have hmod : h.imgSize.toNat < 2 ^ 32 := h.imgSize.toNat_lt
  omega

/-- For a header that `Init` takes, the writes of `DoParse` stay in `data` exactly if the product of
height and row size is not too large for 32 bits. -/
theorem doParse_within (hinit : h.init = true) : Within h ↔
    h.height.toNat * h.rowSize.toNat < 2 ^ 32 := by
  constructor
  · intro hwithin
    by_contra hge
    exact not_within hinit (Nat.le_of_not_lt hge) hwithin
  · exact within_of_lt

/-- A header of 16 rows. -/
def wrapHeader : Header where
  data_offset := 54
  width := 0x10000000
  height := 16
  planes := 1
  bits_per_pixel := 8
  compression := 0
  image_size := 0

theorem doParse_within_wrap :
    wrapHeader.init = true ∧
    (Within wrapHeader ↔ wrapHeader.height.toNat * wrapHeader.rowSize.toNat < 2 ^ 32) :=
  ⟨by decide, doParse_within (by decide)⟩

theorem not_within_wrap : ¬ ∀ h : Header, h.init = true → Within h :=
  fun hall => not_within (by decide) (by decide) (hall wrapHeader (by decide))

/-! ## Decoded pictures -/

/-- The size of a row of a picture. -/
def Header.rowBytes (h : Header) : ℕ := h.width.toNat * h.bits_per_pixel.toNat / 8

/-- The bytes that a row takes in a file. -/
def Header.rowStride (h : Header) : ℕ := (h.rowBytes + 3) / 4 * 4

/-- `data` has the rows of the picture from the top on; in the file they stand from the bottom on. -/
def Decoded (h : Header) (file : List UInt8) (data : Memory) : Prop :=
  ∀ r < h.height.toNat, ∀ c < h.rowBytes, data (r * h.rowBytes + c) =
    charAt file (h.data_offset.toNat + (h.height.toNat - 1 - r) * h.rowStride + c)

theorem rowSize_toNat (hrow : h.width.toNat * h.bits_per_pixel.toNat < 2 ^ 32) :
    h.rowSize.toNat = h.rowBytes := by
  have height : (8 : UInt32).toNat = 8 := rfl
  rw [Header.rowSize, UInt32.toNat_div, UInt32.toNat_mul, UInt16.toNat_toUInt32,
    Nat.mod_eq_of_lt hrow, height,
    Header.rowBytes]

theorem ofBytes_append (hlen : Header.size ≤ bytes.length) (t : List UInt8) :
    Header.ofBytes (bytes ++ t) = Header.ofBytes bytes := by
  have hsize : Header.size = 52 := rfl
  have hload : ∀ o n, o + n ≤ 52 → leNat (charAt (bytes ++ t)) o n = leNat (charAt bytes) o n :=
    fun o n ho =>
    leNat_congr fun k hk => charAt_append_left (by omega)
  simp only [Header.ofBytes, hload, Nat.reduceAdd, Nat.reduceLeDiff]

/-- What the viewer does with a file that starts with a header that `Init` takes. -/
theorem imageViewer_eq {hdr : List UInt8} (hlen : hdr.length = 54) (hmagic : hdr.take 2 = [66, 77])
    (hinit : (Header.ofBytes (hdr.drop 2)).init = true) (rest buf header : List UInt8) (data : Memory) :
    imageViewer (hdr ++ rest) buf header data =
      some (parseRows (.ofBytes (hdr.drop 2)) (hdr ++ rest) (Header.ofBytes (hdr.drop 2)).height.toNat 0
        ⟨54, data, []⟩) := by
  have hfirst : (hdr ++ rest).take 2 = [66, 77] := by
    rw [List.take_append_of_le_length (by omega), hmagic]
  have hdrop : ((hdr ++ rest).drop 2).take 52 = hdr.drop 2 := by
    rw [List.drop_append_of_le_length (by omega), List.take_left' (by rw [List.length_drop, hlen])]
  have hheader : (hdr.drop 2).length = 52 := by rw [List.length_drop, hlen]
  unfold imageViewer readBuf Header.size
  rw [List.drop_zero, hfirst]
  dsimp only [List.length_cons, List.length_nil]
  rw [if_pos ⟨rfl, rfl⟩, Nat.zero_add, hdrop, hheader, ofBytes_append hheader.ge]
  exact if_pos hinit

theorem imageViewer_decoded (hdr : List UInt8) (hlen : hdr.length = 54) (hmagic : hdr.take 2 = [66, 77])
    (hinit : (Header.ofBytes (hdr.drop 2)).init = true)
    (hrow : (Header.ofBytes (hdr.drop 2)).width.toNat *
    (Header.ofBytes (hdr.drop 2)).bits_per_pixel.toNat < 2 ^ 32)
    (hsize : (Header.ofBytes (hdr.drop 2)).height.toNat * (Header.ofBytes (hdr.drop 2)).rowStride <
    2 ^ 32) :
    (∀ rest buf header data, (Header.ofBytes (hdr.drop 2)).data_offset.toNat +
        (Header.ofBytes (hdr.drop 2)).height.toNat * (Header.ofBytes (hdr.drop 2)).rowStride ≤
        (hdr ++ rest).length →
      ∃ s, imageViewer (hdr ++ rest) buf header data = some s ∧
        Decoded (.ofBytes (hdr.drop 2)) (hdr ++ rest) s.data) ↔
    (Header.ofBytes (hdr.drop 2)).data_offset.toNat = 54 ∨
      (Header.ofBytes (hdr.drop 2)).height = 0 ∨ (Header.ofBytes (hdr.drop 2)).rowBytes = 0 := by
  have hview := imageViewer_eq hlen hmagic hinit
  generalize Header.ofBytes (hdr.drop 2) = h at *
  have hR := rowSize_toNat hrow
  have hstride : h.stride = h.rowStride := by rw [Header.stride, hR, Header.rowStride]
  have hle : h.height.toNat * h.rowSize.toNat ≤ h.height.toNat * h.rowStride :=
    Nat.mul_le_mul_left _ (by rw [hR, Header.rowStride]; omega)
  -- What the parser has in `data` if the file is long enough for its position.
  have hdata : ∀ rest buf header data, 54 + h.height.toNat * h.rowStride ≤ (hdr ++ rest).length →
      ∀ s, imageViewer (hdr ++ rest) buf header data = some s → ∀ r < h.height.toNat, ∀ c < h.rowBytes,
        s.data (r * h.rowBytes + c) = charAt (hdr ++ rest)
        (54 + (h.height.toNat - 1 - r) * h.rowStride + c) := by
    intro rest buf header data hfile s hs r hr c hc
    rw [hview] at hs
    cases hs
    have hrows := (parseRows_data h (hdr ++ rest) h.height.toNat 0 ⟨54, data, []⟩ (Nat.zero_add _)
      (by rw [hstride]; exact hfile) (by omega)).2 r hr c (by rw [hR]; exact hc)
    rw [hR, hstride] at hrows
    exact hrows
  constructor
  · intro hall
    by_contra hno
    rw [not_or, not_or] at hno
    obtain ⟨hoff, hheight, hbytes⟩ := hno
    have hpos : 0 < h.height.toNat := Nat.pos_of_ne_zero fun h0 => hheight (UInt32.toNat_inj.mp h0)
    -- The byte at the position of the parser is not the one at `data_offset`.
    have hrest : ∀ k, charAt (hdr ++ (charAt hdr h.data_offset.toNat + 1) :: List.replicate k 0) 54 =
        charAt hdr h.data_offset.toNat + 1 := fun k => by
      rw [charAt_append_right hlen.le, hlen]
      rfl
    have hoffset : ∀ k, charAt (hdr ++ (charAt hdr h.data_offset.toNat + 1) :: List.replicate k 0)
        h.data_offset.toNat = charAt hdr h.data_offset.toNat := fun k => by
      by_cases hlt : h.data_offset.toNat < 54
      · rw [charAt_append_left (by omega)]
      · rw [charAt_append_right (by omega), charAt_of_le (s := hdr) (by omega), hlen]
        obtain ⟨j, hj⟩ : ∃ j, h.data_offset.toNat - 54 = j + 1 := ⟨h.data_offset.toNat - 55, by omega⟩
        rw [hj, charAt, List.getD_cons_succ, List.getD_eq_getElem?_getD, List.getElem?_replicate]
        split <;> rfl
    obtain ⟨s, hs, hdec⟩ := hall ((charAt hdr h.data_offset.toNat + 1) ::
      List.replicate (h.data_offset.toNat + h.height.toNat * h.rowStride) 0) [] [] (fun _ => 0) (by
        rw [List.length_append, List.length_cons, List.length_replicate]
        omega)
    have hcode := hdata _ [] [] (fun _ => 0) (by
      rw [List.length_append, List.length_cons, List.length_replicate, hlen]
      omega) s hs (h.height.toNat - 1) (by omega) 0 (Nat.pos_of_ne_zero hbytes)
    have hclaim := hdec (h.height.toNat - 1) (by omega) 0 (Nat.pos_of_ne_zero hbytes)
    rw [Nat.sub_self, Nat.zero_mul, Nat.add_zero, Nat.add_zero] at hcode hclaim
    rw [hcode, hrest, hoffset] at hclaim
    have hbyte := congrArg UInt8.toNat hclaim
    have hlt := (charAt hdr h.data_offset.toNat).toNat_lt
    have hone : (1 : UInt8).toNat = 1 := rfl
    rw [UInt8.toNat_add, hone] at hbyte
    omega
  · intro hcond rest buf header data hfile
    refine ⟨_, hview rest buf header data, fun r hr c hc => ?_⟩
    rcases hcond with hoff | hheight | hbytes
    · rw [hoff] at hfile ⊢
      exact hdata rest buf header data hfile _ (hview rest buf header data) r hr c hc
    · rw [hheight] at hr
      exact absurd hr (Nat.not_lt_zero _)
    · rw [hbytes] at hc
      exact absurd hc (Nat.not_lt_zero _)

/-- The first bytes of a file with one pixel of 8 bits. -/
def pixelHeader (data_offset : UInt8) : List UInt8 :=
  [66, 77, 58, 0, 0, 0, 0, 0, 0, 0, data_offset, 0, 0, 0, 40, 0, 0, 0, 1, 0, 0, 0, 1, 0, 0, 0,
  1, 0, 8, 0, 0, 0, 0, 0,
    4, 0, 0, 0, 0, 0, 0, 0, 0, 0, 0, 0, 0, 0, 0, 0, 0, 0, 0, 0]

theorem imageViewer_decoded_pixel :
    let h := Header.ofBytes ((pixelHeader 54).drop 2)
    (∀ rest buf header data,
    h.data_offset.toNat + h.height.toNat * h.rowStride ≤ (pixelHeader 54 ++ rest).length →
      ∃ s, imageViewer (pixelHeader 54 ++ rest) buf header data = some s ∧
        Decoded h (pixelHeader 54 ++ rest) s.data) ↔
    h.data_offset.toNat = 54 ∨ h.height = 0 ∨ h.rowBytes = 0 :=
  imageViewer_decoded (pixelHeader 54) rfl rfl rfl (by decide) (by decide)

/-- Behind a gap of four bytes between the header and the pixels. -/
theorem not_decoded_gap :
    ¬ ∀ hdr rest buf header data, hdr.length = 54 → hdr.take 2 = [66, 77] →
      (Header.ofBytes (hdr.drop 2)).init = true → (Header.ofBytes (hdr.drop 2)).compression = 0 →
      (Header.ofBytes (hdr.drop 2)).bits_per_pixel % 8 = 0 →
      (Header.ofBytes (hdr.drop 2)).width.toNat *
      (Header.ofBytes (hdr.drop 2)).bits_per_pixel.toNat < 2 ^ 32 →
      (Header.ofBytes (hdr.drop 2)).height.toNat * (Header.ofBytes (hdr.drop 2)).rowStride < 2 ^ 32 →
      (Header.ofBytes (hdr.drop 2)).data_offset.toNat +
        (Header.ofBytes (hdr.drop 2)).height.toNat * (Header.ofBytes (hdr.drop 2)).rowStride ≤
        (hdr ++ rest).length →
      ∃ s, imageViewer (hdr ++ rest) buf header data = some s ∧
        Decoded (.ofBytes (hdr.drop 2)) (hdr ++ rest) s.data := by
  intro hall
  obtain ⟨s, hs, hdec⟩ :=
    hall (pixelHeader 58) [1, 2, 3, 4, 7, 0, 0, 0] [] [] (fun _ => 0) rfl rfl rfl rfl rfl
    (by decide) (by decide) (by decide)
  rw [imageViewer_eq rfl rfl rfl] at hs
  cases hs
  exact absurd (hdec 0 (by decide) 0 (by decide)) (by decide)

end OrangeOs.User
