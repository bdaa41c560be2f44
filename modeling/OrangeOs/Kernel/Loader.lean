import OrangeOs.Kernel.PageTable
import OrangeOs.Library.Outcome

/-! # Regions and program files

The table of regions of a process and its two writers: `ExpandMemory` of `kernel/process.cc`, which
grows the memory of the process, and the ELF loader of `kernel/syscalls/static_loader.cc`. The table
has room for 16 regions; a write past its end is an outcome of its own.
-/

namespace OrangeOs.Kernel

/-- How a kernel call ends early: a fault of the memory management, or a write of the region with
number `index` past the end of `used_address`. -/
inductive Crash where
  | fault (f : Fault)
  | pastRegions (index : ℕ)
  deriving DecidableEq, Repr

/-- A computation of the memory management inside a kernel call. -/
def lift {α : Type} (x : Except Fault α) : Except Crash α := x.mapError .fault

structure DynamicInfo where
  dynamic_vaddr : ℕ := 0
  dynamic_size : ℕ := 0

/-- `ProcessTask`: its memory, and where the dynamic section of its program is. -/
structure Task extends TaskMemory where
  dynamic_info : DynamicInfo

namespace TaskMemory

/-- Write the next region, `used_address[used_address_size]`, and count it. -/
def addRegion (p : TaskMemory) (va_beg va_end : ℕ) : Except Crash TaskMemory :=
  if h : p.used_address_size < 16 then
    .ok { p with
      used_address := Function.update p.used_address ⟨p.used_address_size, h⟩
        (.ofNat va_beg, .ofNat va_end)
      used_address_size := p.used_address_size + 1 }
  else .error (.pastRegions p.used_address_size)

/-- The search for the highest end of a region, from number `i` on. -/
def maxMemAddr (p : TaskMemory) (i max_mem_addr : ℕ) : ℕ → Except Fault ℕ
  | 0 => .ok max_mem_addr
  | k + 1 => do
    let r ← p.region i
    maxMemAddr p (i + 1) (if r.2 > max_mem_addr then r.2 else max_mem_addr) k

/-- `ExpandMemory`. -/
def expandMemory (p : TaskMemory) (v : VirtualMemory) (bytes : ℕ) :
    Except Crash (ℕ × TaskMemory × VirtualMemory) :=
  if bytes = 0 then .ok (0, p, v)
  else do
    let max_mem_addr ← lift (p.maxMemAddr 0 0 p.used_address_size)
    let max_mem_addr := addrCastUp max_mem_addr
    let va_end := (max_mem_addr + bytes) % 2 ^ 64
    let (mapped, v) ← lift (v.mapMemory p.page_table max_mem_addr va_end
      (PTE.R ||| PTE.W ||| PTE.U))
    if ¬ mapped then return (0, p, v)
    else
      let p ← p.addRegion max_mem_addr va_end
      return (max_mem_addr, p, v)

end TaskMemory

/-! ## Streams -/

/-- The virtual functions of `lib::StreamBase` that the loader calls. `Read` returns the bytes that it
puts in the buffer. -/
structure StreamBase (σ : Type) where
  seek : σ → ℕ → σ
  read : σ → ℕ → List UInt8 × σ

namespace StreamBase

variable {σ : Type}

/-- `ReadForType` of `n` bytes into a variable that holds `old`. -/
def readForType (S : StreamBase σ) (s : σ) (old : List UInt8) (n : ℕ) : List UInt8 × σ :=
  let (buf, s) := S.read s n
  (buf ++ old.drop buf.length, s)

/-- The states that a stream reaches by `Seek` and `Read`. -/
inductive After (S : StreamBase σ) (s : σ) : σ → Prop where
  | start : After S s s
  | seek {t : σ} (h : After S s t) (pos : ℕ) : After S s (S.seek t pos)
  | read {t : σ} (h : After S s t) (n : ℕ) : After S s (S.read t n).2

end StreamBase

/-- `lib::StringStream`. -/
structure StringStream where
  buf_ : List UInt8
  position_ : ℕ := 0

namespace StringStream

def seek (s : StringStream) (pos : ℕ) : StringStream :=
  { s with position_ := min pos ((s.buf_.length + 2 ^ 64 - 1) % 2 ^ 64) }

def read (s : StringStream) (size : ℕ) : List UInt8 × StringStream :=
  let size := min ((s.buf_.length + 2 ^ 64 - s.position_) % 2 ^ 64) size
  ((s.buf_.drop s.position_).take size, { s with position_ := s.position_ + size })

def base : StreamBase StringStream := ⟨seek, read⟩

variable {s : StringStream} {pos size : ℕ}

theorem base_seek (hpos : pos < s.buf_.length) (hlen : s.buf_.length ≤ 2 ^ 64) :
    base.seek s pos = ⟨s.buf_, pos⟩ := by
  show seek s pos = _
  rw [seek, Nat.min_eq_left (by omega)]

theorem base_read (hpos : s.position_ + size ≤ s.buf_.length) (hlen : s.buf_.length < 2 ^ 64) :
    base.read s size = ((s.buf_.drop s.position_).take size, ⟨s.buf_, s.position_ + size⟩) := by
  show read s size = _
  rw [read, Nat.min_eq_right (by omega)]

end StringStream

/-! ## `Elf64_Ehdr` and `Elf64_Phdr` -/

/-- The member of `n` bytes at an offset. -/
def member (s : List UInt8) (o n : ℕ) : ℕ := leNat (charAt s) o n

namespace Elf

def EI_CLASS : ℕ := 4
def EI_DATA : ℕ := 5
def EI_VERSION : ℕ := 6
def ELFCLASS64 : UInt8 := 2
def ELFDATA2LSB : UInt8 := 1
def EV_CURRENT : UInt8 := 1
def ET_EXEC : ℕ := 2
def ET_DYN : ℕ := 3
def EM_RISCV : ℕ := 243
def PT_LOAD : ℕ := 1
def PT_DYNAMIC : ℕ := 2
def PF_X : ℕ := 1
def PF_W : ℕ := 2
def PF_R : ℕ := 4

/-- The four bytes that `ELFMAG0` to `ELFMAG3` name. -/
def magic : List UInt8 := [0x7f, 0x45, 0x4c, 0x46]

/-- `sizeof(Elf64_Ehdr)`. -/
def ehdrSize : ℕ := 64

/-- `sizeof(Elf64_Phdr)`. -/
def phdrSize : ℕ := 56

def e_type (h : List UInt8) : ℕ := member h 16 2
def e_machine (h : List UInt8) : ℕ := member h 18 2
def e_entry (h : List UInt8) : ℕ := member h 24 8
def e_phoff (h : List UInt8) : ℕ := member h 32 8
def e_phentsize (h : List UInt8) : ℕ := member h 54 2
def e_phnum (h : List UInt8) : ℕ := member h 56 2

def p_type (ph : List UInt8) : ℕ := member ph 0 4
def p_flags (ph : List UInt8) : ℕ := member ph 4 4
def p_offset (ph : List UInt8) : ℕ := member ph 8 8
def p_vaddr (ph : List UInt8) : ℕ := member ph 16 8
def p_filesz (ph : List UInt8) : ℕ := member ph 32 8
def p_memsz (ph : List UInt8) : ℕ := member ph 40 8

/-- The checks of `Load`, in their order. -/
def valid (h : List UInt8) (target_type : ℕ) : Bool :=
  h.take 4 = magic ∧ charAt h EI_CLASS = ELFCLASS64 ∧ charAt h EI_DATA = ELFDATA2LSB ∧
    charAt h EI_VERSION = EV_CURRENT ∧ e_type h = target_type ∧ e_machine h = EM_RISCV

/-- The permissions of the pages of a segment. -/
def privi (ph : List UInt8) : ℕ :=
  (if p_flags ph &&& PF_R ≠ 0 then PTE.R else 0) ||| (if p_flags ph &&& PF_W ≠ 0 then PTE.W else 0) |||
    (if p_flags ph &&& PF_X ≠ 0 then PTE.X else 0)

end Elf

/-! ## `StaticLoader` -/

open Elf

section Loader

variable {σ : Type}

def memory_batch : ℕ := 512

/-- `batch_load`. The buffer is zero before each read. -/
def batchLoad (S : StreamBase σ) (s : σ) (m : Memory) (len dst : ℕ) : Memory × σ :=
  if _h : len > 0 then
    let remain := if len > memory_batch then memory_batch else len
    let (p, s) := S.read s remain
    batchLoad S s (m.put dst remain p) (len - remain) (dst + remain)
  else (m, s)
termination_by len
decreasing_by
  have hbatch : memory_batch = 512 := rfl
  have hlt : 0 < remain := by
    show 0 < if _ : len > memory_batch then memory_batch else len
    split <;> omega
  exact Nat.sub_lt _h hlt

/-- `LoadSegment`. -/
def loadSegment (S : StreamBase σ) (s : σ) (v : VirtualMemory) (root_page va size : ℕ) :
    Except Fault (Bool × VirtualMemory × σ) :=
  if _h : size ≠ 0 then do
    let (pa, _) ← v.vaToPA root_page va 0
    if pa = 0 then return (false, v, s)
    else
      let remain_size := PGSIZE - pa % PGSIZE
      let len := if size > remain_size then remain_size else size
      let (mem, s) := batchLoad S s v.mem len pa
      loadSegment S s { v with mem := mem } root_page ((addrCastDown va + PGSIZE) % 2 ^ 64)
        (size - len)
  else .ok (true, v, s)
termination_by size
decreasing_by
  have hrest : pa % PGSIZE < PGSIZE := Nat.mod_lt _ (by decide)
  show size - len < size
  have hlen : 0 < len := by
    show 0 < if size > PGSIZE - pa % PGSIZE then PGSIZE - pa % PGSIZE else size
    split <;> omega
  omega

/-- What `Load` changes: the process, the variable that `dynamic_info` points to, the memory and the
stream. -/
structure Loading (σ : Type) where
  process : Task
  dynamic_info : DynamicInfo
  vm : VirtualMemory
  stream : σ

/-- The body of the loop of `Load` for a program header whose type is `PT_LOAD`. -/
def loadSegmentOf (S : StreamBase σ) (offset : ℕ) (ph : List UInt8) (s : Loading σ) :
    Except Crash (Bool × Loading σ) :=
  if p_memsz ph < p_filesz ph then .ok (false, s)
  else do
    let va_beg := (p_vaddr ph + offset) % 2 ^ 64
    let va_end := (va_beg + p_memsz ph) % 2 ^ 64
    let (_, v) ← lift (s.vm.mapMemory s.process.page_table va_beg va_end (privi ph ||| PTE.U))
    let (loaded, v, stream) ← lift (loadSegment S (S.seek s.stream (p_offset ph)) v
      s.process.page_table va_beg (p_filesz ph))
    let s := { s with vm := v, stream := stream }
    if ¬ loaded then return (false, s)
    else if s.process.used_address_size ≥ 16 then return (false, s)
    else
      let p ← s.process.addRegion va_beg va_end
      return (true, { s with process := { s.process with toTaskMemory := p } })

/-- The body of the loop of `Load`. -/
def loadHeader (S : StreamBase σ) (target_type offset : ℕ) (ph : List UInt8) (s : Loading σ) :
    Except Crash (Bool × Loading σ) :=
  let s := if p_type ph = PT_DYNAMIC then
      let info : DynamicInfo := ⟨(p_vaddr ph + offset) % 2 ^ 64, p_memsz ph⟩
      { s with
        process := if target_type = ET_EXEC then { s.process with dynamic_info := info } else s.process
        dynamic_info := info }
    else s
  if p_type ph ≠ PT_LOAD then .ok (true, s) else loadSegmentOf S offset ph s

/-- The loop of `Load` from program header `i` on. `junk` is what the variable `ph` holds at first. -/
def loadFrom (S : StreamBase σ) (target_type offset : ℕ) (h junk : List UInt8) (s : Loading σ) (i : ℕ) :
    ℕ → Except Crash (Bool × Loading σ)
  | 0 => .ok (true, s)
  | k + 1 => do
    let stream := S.seek s.stream ((e_phoff h + i * e_phentsize h) % 2 ^ 64)
    let (ph, stream) := S.readForType stream junk phdrSize
    let (loaded, s) ← loadHeader S target_type offset ph { s with stream := stream }
    if loaded then loadFrom S target_type offset h junk s (i + 1) k else return (false, s)

/-- The ELF header of a stream. -/
def header (S : StreamBase σ) (s : σ) (junk : List UInt8) : List UInt8 × σ :=
  S.readForType (S.seek s 0) junk ehdrSize

/-- `StaticLoader::Load`, with `offset_`. The result has the entry point. -/
def load (S : StreamBase σ) (target_type offset : ℕ) (junk : List UInt8) (s : Loading σ) :
    Except Crash (Bool × ℕ × Loading σ) :=
  let (h, stream) := header S s.stream junk
  let s := { s with stream := stream }
  if ¬ valid h target_type then .ok (false, 0, s)
  else do
    let (loaded, s) ← loadFrom S target_type offset h junk s 0 (e_phnum h)
    return (loaded, e_entry h, s)

/-- The member `mepc` of `RegFrame`. -/
def setFrameMepc (m : Memory) (frame entry : ℕ) : Memory := m.store (frame + 31 * 8) 8 entry

def executeImpl (S : StreamBase σ) (junk : List UInt8) (stream : σ) (p : Task) (v : VirtualMemory) :
    Except Crash (Bool × Task × VirtualMemory) := do
  let (loaded, entry, s) ← load S ET_EXEC 0 junk ⟨p, {}, v, stream⟩
  if ¬ loaded then return (false, s.process, s.vm)
  else
    return (true, s.process, { s.vm with mem := setFrameMepc s.vm.mem s.process.frame entry })

end Loader

/-! ## What the writers do to the table -/

theorem lift_ok_bind {α β : Type} (a : α) (f : α → Except Crash β) :
    (lift (.ok a) >>= f) = f a := (rfl)

theorem lift_eq_ok {α : Type} {x : Except Fault α} {a : α} : lift x = .ok a ↔ x = .ok a := by
  cases x with
  | ok b => rw [lift, Except.mapError, Except.ok.injEq, Except.ok.injEq]
  | error f => exact ⟨nofun, nofun⟩

/-- The computation does not write past the end of the table, and its result has `Q`. -/
abbrev Yields {α : Type} (Q : α → Prop) (x : Except Crash α) : Prop :=
  Outcome (fun e => ∃ f, e = .fault f) Q x

/-- The computation of the memory management ends in a result with `Q` if it does not fault. -/
abbrev Gives {α : Type} (Q : α → Prop) (x : Except Fault α) : Prop := Outcome (fun _ => True) Q x

theorem gives_self {α : Type} (x : Except Fault α) : Gives (fun a => x = .ok a) x :=
  .self fun _ _ => trivial

theorem Gives.lift {α : Type} {Q : α → Prop} {x : Except Fault α} (h : Gives Q x) :
    Yields Q (lift x) := by
  cases x with
  | ok a => exact .ok (h.result a rfl)
  | error f => exact .error ⟨f, rfl⟩

theorem lift_yields {α : Type} (x : Except Fault α) : Yields (fun a => x = .ok a) (Kernel.lift x) :=
  (gives_self x).lift

theorem Yields.ne_pastRegions {α : Type} {Q : α → Prop} {x : Except Crash α} (h : Yields Q x) (i : ℕ) :
    x ≠ .error (.pastRegions i) := by
  intro he
  obtain ⟨f, hf⟩ := h.early _ he
  simp at hf

namespace TaskMemory

variable {p q r : TaskMemory} {lo a b i k m : ℕ}

/-- The table of `q` is that of `p` with new regions at its end, which start at `lo` or later. -/
structure Appended (lo : ℕ) (p q : TaskMemory) : Prop where
  size_le : q.used_address_size ≤ 16
  le_size : p.used_address_size ≤ q.used_address_size
  keep : ∀ i : Fin 16, i < p.used_address_size → q.used_address i = p.used_address i
  lo_le : ∀ i : Fin 16, p.used_address_size ≤ i → i < q.used_address_size →
    lo ≤ (q.used_address i).1.toNat

theorem Appended.refl (lo : ℕ) (h : p.used_address_size ≤ 16) : Appended lo p p :=
  ⟨h, le_rfl, fun _ _ => rfl, fun _ h h' => absurd h (by omega)⟩

theorem Appended.trans (h : Appended lo p q) (h' : Appended lo q r) : Appended lo p r where
  size_le := h'.size_le
  le_size := h.le_size.trans h'.le_size
  keep i hi := (h'.keep i (hi.trans_le h.le_size)).trans (h.keep i hi)
  lo_le i hi hi' := by
    by_cases hq : i < q.used_address_size
    · rw [h'.keep i hq]
      exact h.lo_le i hi hq
    · exact h'.lo_le i (by omega) hi'

/-- A write of the next region when there is room. -/
theorem addRegion_yields (hsize : p.used_address_size < 16) (ha : a < 2 ^ 64) (hb : b < 2 ^ 64) :
    Yields (fun q => Appended a p q ∧ q.used_address_size = p.used_address_size + 1 ∧
      ∀ i : Fin 16, i = p.used_address_size → (q.used_address i).1.toNat = a ∧
        (q.used_address i).2.toNat = b) (p.addRegion a b) := by
  rw [addRegion, dif_pos hsize]
  have hnew : ∀ i : Fin 16, i = p.used_address_size →
      Function.update p.used_address ⟨p.used_address_size, hsize⟩ (.ofNat a, .ofNat b) i =
        (.ofNat a, .ofNat b) := by
    intro i hi
    obtain rfl : i = ⟨p.used_address_size, hsize⟩ := Fin.ext hi
    exact Function.update_self ..
  have hnat : ∀ x : ℕ, x < 2 ^ 64 → (UInt64.ofNat x).toNat = x := fun x hx => by
    rw [UInt64.toNat_ofNat', Nat.mod_eq_of_lt hx]
  refine .ok ⟨⟨hsize, Nat.le_succ _, fun i hi => ?_, fun i hi hi' => ?_⟩, rfl, fun i hi => ?_⟩
  · refine Function.update_of_ne (fun he => ?_) ..
    rw [he] at hi
    exact absurd hi (lt_irrefl _)
  · have hi'' : (i : ℕ) < p.used_address_size + 1 := hi'
    simp only [hnew i (by omega), hnat a ha, le_refl]
  · simp only [hnew i hi, hnat a ha, hnat b hb, and_self]

/-- The search of `ExpandMemory` finds the highest end. -/
theorem maxMemAddr_eq (hk : i + k ≤ 16) :
    ∃ M, p.maxMemAddr i m k = .ok M ∧ m ≤ M ∧
      (∀ j : Fin 16, i ≤ j → j < i + k → (p.used_address j).2.toNat ≤ M) ∧
      (M = m ∨ ∃ j : Fin 16, i ≤ j ∧ j < i + k ∧ M = (p.used_address j).2.toNat) := by
  induction k generalizing i m with
  | zero => exact ⟨m, rfl, le_rfl, fun j hj hj' => absurd hj (by omega), .inl rfl⟩
  | succ k ih =>
    have hi : i < 16 := by omega
    obtain ⟨M, heq, hle, hmax, hfrom⟩ := ih (i := i + 1)
      (m := if (p.used_address ⟨i, hi⟩).2.toNat > m then (p.used_address ⟨i, hi⟩).2.toNat else m)
      (by omega)
    refine ⟨M, ?_, ?_, fun j hj hj' => ?_, ?_⟩
    · rw [maxMemAddr, region, dif_pos hi]
      exact heq
    · refine le_trans ?_ hle
      split <;> omega
    · rcases Nat.eq_or_lt_of_le hj with hj | hj
      · obtain rfl : j = ⟨i, hi⟩ := Fin.ext hj.symm
        refine le_trans ?_ hle
        split <;> omega
      · exact hmax j hj (by omega)
    · rcases hfrom with rfl | ⟨j, hj, hj', rfl⟩
      · split
        · exact .inr ⟨⟨i, hi⟩, le_rfl, by simp, rfl⟩
        · exact .inl rfl
      · exact .inr ⟨j, by omega, by omega, rfl⟩

end TaskMemory

section Loader

open TaskMemory

variable {σ : Type} {S : StreamBase σ} {target_type offset i k va size root len dst : ℕ} {f st : σ}
  {ph h junk : List UInt8} {s : Loading σ} {v : VirtualMemory} {m : Memory} {p : Task}

theorem batchLoad_after (hs : S.After f st) : S.After f (batchLoad S st m len dst).2 := by
  induction len using Nat.strong_induction_on generalizing st m dst with
  | _ len ih =>
    rw [batchLoad]
    split
    · next hlen =>
      refine ih _ ?_ (hs.read _)
      have hbatch : memory_batch = 512 := rfl
      split <;> omega
    · exact hs

/-- `batch_load` writes only to its range. -/
theorem batchLoad_same (S : StreamBase σ) (st : σ) (m : Memory) (len dst : ℕ) :
    m.Same (batchLoad S st m len dst).1 fun x => x < dst ∨ dst + len ≤ x := by
  induction len using Nat.strong_induction_on generalizing st m dst with
  | _ len ih =>
    rw [batchLoad]
    split
    · next hlen =>
      obtain ⟨r, hr⟩ : ∃ r, r = if len > memory_batch then memory_batch else len := ⟨_, rfl⟩
      have hbatch : memory_batch = 512 := rfl
      have hle : 0 < r ∧ r ≤ len := by
        rw [hr]
        split <;> omega
      rw [← hr]
      intro x hx
      rw [ih (len - r) (by omega) _ _ _ x (by omega)]
      exact if_neg (by omega)
    · exact fun _ _ => rfl

theorem loadSegment_after (hs : S.After f st) {r : Bool × VirtualMemory × σ}
    (hr : loadSegment S st v root va size = .ok r) : S.After f r.2.2 := by
  induction size using Nat.strong_induction_on generalizing st v va with
  | _ size ih =>
    rw [loadSegment] at hr
    split at hr
    · next hsize =>
      cases hpa : v.vaToPA root va 0 with
      | error e => simp [hpa, bind, Except.bind] at hr
      | ok x =>
        rw [hpa, ok_bind] at hr
        simp only at hr
        split at hr
        · obtain rfl := Except.ok.inj hr
          exact hs
        · refine ih _ ?_ (batchLoad_after hs) hr
          have hrest : x.1 % PGSIZE < PGSIZE := Nat.mod_lt _ (by decide)
          split <;> omega
    · obtain rfl := Except.ok.inj hr
      exact hs

/-- The part of a segment in one page. -/
theorem loadSegment_page (st : σ) (S : StreamBase σ) {pa k : ℕ}
    (hpa : v.vaToPA root va 0 = .ok (pa, k)) (hne : pa ≠ 0)
    (hsize : size ≠ 0) (hle : size ≤ PGSIZE - pa % PGSIZE) :
    loadSegment S st v root va size = .ok (true, { v with mem := (batchLoad S st v.mem size pa).1 },
      (batchLoad S st v.mem size pa).2) := by
  rw [loadSegment, dif_pos hsize, hpa, ok_bind]
  simp only [if_neg hne, if_neg (not_lt.mpr hle)]
  rw [loadSegment, dif_neg (by omega)]

/-- A segment that is loaded. -/
theorem loadSegmentOf_eq {va_beg va_end : ℕ} {v' v'' : VirtualMemory} {b : Bool} {q : TaskMemory}
    (hle : p_filesz ph ≤ p_memsz ph) (hbeg : (p_vaddr ph + offset) % 2 ^ 64 = va_beg)
    (hend : (va_beg + p_memsz ph) % 2 ^ 64 = va_end)
    (hmap : s.vm.mapMemory s.process.page_table va_beg va_end (privi ph ||| PTE.U) = .ok (b, v'))
    (hload : loadSegment S (S.seek s.stream (p_offset ph)) v' s.process.page_table va_beg (p_filesz ph) =
      .ok (true, v'', st))
    (hroom : s.process.used_address_size < 16) (hadd : s.process.addRegion va_beg va_end = .ok q) :
    loadSegmentOf S offset ph s =
      .ok (true, ⟨{ s.process with toTaskMemory := q }, s.dynamic_info, v'', st⟩) := by
  rw [loadSegmentOf, if_neg (not_lt.mpr hle)]
  simp only [hbeg, hend]
  rw [hmap, lift_ok_bind]
  dsimp only
  rw [hload, lift_ok_bind]
  simp only [not_true_eq_false, if_false, ge_iff_le, if_neg (not_le.mpr hroom)]
  rw [hadd]
  rfl

/-- One segment. The table changes last, after the check that it has room. -/
theorem loadSegmentOf_yields (lo : ℕ) (hs : S.After f s.stream)
    (hsize : s.process.used_address_size ≤ 16)
    (hlo : lo ≤ (p_vaddr ph + offset) % 2 ^ 64) :
    Yields (fun r => S.After f r.2.stream ∧ Appended lo s.process.toTaskMemory r.2.process.toTaskMemory)
      (loadSegmentOf S offset ph s) := by
  unfold loadSegmentOf
  refine Outcome.ite (fun _ => .ok ⟨hs, .refl lo hsize⟩) fun _ => ?_
  refine Outcome.bind (lift_yields _) ?_
  rintro ⟨mapped, v⟩ -
  refine Outcome.bind (lift_yields _) ?_
  rintro ⟨loaded, v', st⟩ hr
  have hstream : S.After f st := loadSegment_after (hs.seek _) hr
  dsimp only
  refine Outcome.ite (fun _ => .ok ⟨hstream, .refl lo hsize⟩) fun _ => ?_
  refine Outcome.ite (fun _ => .ok ⟨hstream, .refl lo hsize⟩) fun hroom => ?_
  refine Outcome.bind (addRegion_yields (not_le.mp hroom) (Nat.mod_lt _ (by decide))
    (Nat.mod_lt _ (by decide))) fun q hq => .ok ⟨hstream, ?_⟩
  exact { hq.1 with lo_le := fun i hi hi' => hlo.trans (hq.1.lo_le i hi hi') }

theorem loadHeader_yields (lo : ℕ) (hs : S.After f s.stream) (hsize : s.process.used_address_size ≤ 16)
    (hlo : p_type ph = PT_LOAD → lo ≤ (p_vaddr ph + offset) % 2 ^ 64) :
    Yields (fun r => S.After f r.2.stream ∧ Appended lo s.process.toTaskMemory r.2.process.toTaskMemory)
      (loadHeader S target_type offset ph s) := by
  -- the dynamic section is not part of the table
  have hdyn : ∀ s' : Loading σ, s'.stream = s.stream →
      s'.process.toTaskMemory = s.process.toTaskMemory →
      Yields (fun r => S.After f r.2.stream ∧
          Appended lo s.process.toTaskMemory r.2.process.toTaskMemory)
        (if p_type ph ≠ PT_LOAD then .ok (true, s') else loadSegmentOf S offset ph s') := by
    intro s' hstream hproc
    rw [← hproc] at hsize ⊢
    refine Outcome.ite (fun _ => .ok ⟨hstream ▸ hs, .refl lo hsize⟩) fun htype => ?_
    exact loadSegmentOf_yields lo (hstream ▸ hs) hsize (hlo (not_not.mp htype))
  unfold loadHeader
  refine hdyn _ ?_ ?_
  · split <;> rfl
  · split
    · split <;> rfl
    · rfl

theorem loadFrom_yields (lo : ℕ) (hs : S.After f s.stream) (hsize : s.process.used_address_size ≤ 16)
    (hlo : ∀ st, S.After f st → ∀ j, i ≤ j → j < i + k → ∀ ph,
      ph = (S.readForType (S.seek st ((e_phoff h + j * e_phentsize h) % 2 ^ 64)) junk phdrSize).1 →
        p_type ph = PT_LOAD → lo ≤ (p_vaddr ph + offset) % 2 ^ 64) :
    Yields (fun r => Appended lo s.process.toTaskMemory r.2.process.toTaskMemory)
      (loadFrom S target_type offset h junk s i k) := by
  induction k generalizing s i with
  | zero => exact .ok (.refl lo hsize)
  | succ k ih =>
    rw [loadFrom]
    refine Outcome.bind (loadHeader_yields lo ((hs.seek _).read _) hsize ?_) ?_
    · exact hlo _ hs i le_rfl (by omega) _ rfl
    · rintro ⟨loaded, s'⟩ hr
      dsimp only
      refine Outcome.ite (fun _ => ?_) fun _ => .ok hr.2
      refine (ih hr.1 hr.2.size_le fun st hst j hj hj' => hlo st hst j (by omega) (by omega)).mono
        fun r' hr' => hr.2.trans hr'

/-- The regions that `Load` adds start where the program headers say. -/
theorem load_yields (lo : ℕ) (hsize : s.process.used_address_size ≤ 16)
    (hlo : ∀ st, S.After s.stream st → ∀ j < e_phnum (header S s.stream junk).1, ∀ ph,
      ph = (S.readForType (S.seek st ((e_phoff (header S s.stream junk).1 +
          j * e_phentsize (header S s.stream junk).1) % 2 ^ 64)) junk phdrSize).1 →
        p_type ph = PT_LOAD → lo ≤ (p_vaddr ph + offset) % 2 ^ 64) :
    Yields (fun r => Appended lo s.process.toTaskMemory r.2.2.process.toTaskMemory)
      (load S target_type offset junk s) := by
  have hstream : S.After s.stream (header S s.stream junk).2 := (StreamBase.After.start.seek 0).read _
  unfold load
  refine Outcome.ite (fun _ => .ok (.refl lo hsize)) fun _ => ?_
  refine Outcome.bind (loadFrom_yields lo hstream hsize fun st hst j _ hj =>
    hlo st hst j (hj.trans_eq (Nat.zero_add _))) ?_
  rintro ⟨loaded, s'⟩ hr
  exact .ok hr

theorem executeImpl_yields (hsize : p.used_address_size ≤ 16) :
    Yields (fun r => Appended 0 p.toTaskMemory r.2.1.toTaskMemory) (executeImpl S junk f p v) := by
  unfold executeImpl
  refine Outcome.bind (load_yields 0 hsize fun _ _ _ _ _ _ _ => Nat.zero_le _) ?_
  rintro ⟨loaded, entry, s'⟩ hr
  dsimp only
  exact Outcome.ite (fun _ => .ok hr) fun _ => .ok hr

end Loader

end OrangeOs.Kernel
