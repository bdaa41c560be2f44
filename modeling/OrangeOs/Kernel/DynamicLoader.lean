import OrangeOs.Kernel.Loader
import OrangeOs.Kernel.UserSpace

/-! # The dynamic loader

`ProcessDynamicInfo` of `kernel/syscalls/dynamic_loader.cc` looks up the headers of a dynamic
section and then relocates what two tables ask for. One function serves both tables. It takes the
headers of its table, but it uses those of the first.
-/

namespace OrangeOs.Kernel

open Memory

namespace Elf

def DT_STRTAB : ℕ := 5
def DT_SYMTAB : ℕ := 6
def DT_RELA : ℕ := 7
def DT_RELASZ : ℕ := 8
def DT_REL : ℕ := 17
def DT_RELSZ : ℕ := 18
def DT_INIT_ARRAY : ℕ := 25
def DT_INIT_ARRAYSZ : ℕ := 27
def R_RISCV_64 : ℕ := 2
def R_RISCV_RELATIVE : ℕ := 3
def R_RISCV_JUMP_SLOT : ℕ := 5

/-- `sizeof(Elf64_Dyn)`. -/
def dynSize : ℕ := 16

/-- `sizeof(Elf64_Sym)`. -/
def symSize : ℕ := 24

/-- The member `d_un` of a record of the dynamic section. -/
def d_un (m : Memory) (dyn : ℕ) : ℕ := m.load (dyn + 8) 8

end Elf

open Elf

/-- `Elf64_Rela` and `Elf64_Rel`, the types of the entries. -/
inductive ReloType where
  | rela
  | rel
  deriving DecidableEq

/-- `sizeof`. -/
def ReloType.size : ReloType → ℕ
  | rela => 24
  | rel => 16

/-- How the loader fails: it reads a header that it has not found, or its index of 32 bits never
reaches the number of the entries. -/
inductive LoaderFault where
  | nullPointer
  | endless

/-- What the loader reads for a table: the header with the size, and the entries. -/
inductive Use where
  | size (hdr : ℕ)
  | entry (type : ReloType) (hdr index : ℕ)
  deriving DecidableEq

/-- The memory, what was used, and the words that were written, by virtual address. -/
structure Relocated where
  m : Memory
  uses : List Use := []
  writes : List (ℕ × ℕ) := []

def Relocated.use (s : Relocated) (u : Use) : Relocated := { s with uses := s.uses ++ [u] }

/-- The pointers to the records of the dynamic section, 0 for those that are not there. -/
structure DynHeaders where
  rela_hdr : ℕ := 0
  rela_size : ℕ := 0
  rel_hdr : ℕ := 0
  rel_size : ℕ := 0
  sym_hdr : ℕ := 0
  symstr_hdr : ℕ := 0
  init_array : ℕ := 0
  init_array_sz : ℕ := 0
  deriving DecidableEq

/-- One round of the search. -/
def DynHeaders.note (m : Memory) (h : DynHeaders) (dyn : ℕ) : DynHeaders :=
  let d_tag := m.load dyn 8
  { rela_hdr := if d_tag = DT_RELA then dyn else h.rela_hdr
    rela_size := if d_tag = DT_RELASZ then dyn else h.rela_size
    rel_hdr := if d_tag = DT_REL then dyn else h.rel_hdr
    rel_size := if d_tag = DT_RELSZ then dyn else h.rel_size
    sym_hdr := if d_tag = DT_SYMTAB then dyn else h.sym_hdr
    symstr_hdr := if d_tag = DT_STRTAB then dyn else h.symstr_hdr
    init_array := if d_tag = DT_INIT_ARRAY then dyn else h.init_array
    init_array_sz := if d_tag = DT_INIT_ARRAYSZ then dyn else h.init_array_sz }

/-- `VAToPA` for the page table of a process. -/
def vaToPaUtil (v : VirtualMemory) (page_table : ℕ) (m : Memory) (va : ℕ) : ℕ :=
  physical { v with mem := m } page_table va

/-- What the functions below take from the loader and from the arguments of `ProcessDynamicInfo`.
`iterate_symtab` is called for the section headers and the stream, with the address of a name. -/
structure DynamicLoader where
  va_to_pa_util : Memory → ℕ → ℕ
  offset : ℕ
  offset_ : ℕ
  iterate_symtab : Memory → ℕ → ℕ
  need_iterate : Bool

namespace DynamicLoader

variable (l : DynamicLoader)

/-- Writes a word of the process. -/
def put (s : Relocated) (va value : ℕ) : Relocated :=
  { s with m := s.m.store (l.va_to_pa_util s.m va) 8 value, writes := s.writes ++ [(va, value)] }

/-- What `process_sym` writes for a type of relocation. -/
def reloValue (type : ReloType) (relo_type st_value r_addend : ℕ) : Option ℕ :=
  if relo_type = R_RISCV_64 then some ((st_value + l.offset) % 2 ^ 64)
  else if relo_type = R_RISCV_JUMP_SLOT then some ((st_value + l.offset) % 2 ^ 64)
  else if relo_type = R_RISCV_RELATIVE then
    if type = .rela then some ((r_addend + l.offset) % 2 ^ 64) else none
  else none

/-- The virtual addresses that `process_sym` computes: of the entry, of its symbol, of the name of
the symbol and of the word that the entry is about. -/
def entryVa (type : ReloType) (relo_dyn index : ℕ) (m : Memory) : ℕ :=
  (d_un m relo_dyn + l.offset + index * type.size) % 2 ^ 64

def symVa (sym_hdr sym_dyn : ℕ) (m : Memory) : ℕ :=
  (d_un m sym_hdr + l.offset + m.load (sym_dyn + 8) 8 / 2 ^ 32 * symSize) % 2 ^ 64

def nameVa (symstr_hdr sym : ℕ) (m : Memory) : ℕ :=
  (m.load sym 4 + d_un m symstr_hdr + l.offset) % 2 ^ 64

def targetVa (sym_dyn : ℕ) (m : Memory) : ℕ := (m.load sym_dyn 8 + l.offset) % 2 ^ 64

/-- What `process_sym` writes for the entry and the symbol at two addresses. -/
def valueAt (type : ReloType) (sym_dyn sym : ℕ) (m : Memory) : Option ℕ :=
  l.reloValue type (m.load (sym_dyn + 8) 8 % 2 ^ 32) (m.load (sym + 8) 8) (m.load (sym_dyn + 16) 8)

/-- Writes it. -/
def writeAt (type : ReloType) (sym_dyn sym : ℕ) (s : Relocated) : Relocated :=
  (l.valueAt type sym_dyn sym s.m).elim s (l.put s (l.targetVa sym_dyn s.m))

/-- `process_sym`, with the address of the name of the symbol and the virtual address of the word. -/
def processSym (type : ReloType) (relo_dyn sym_hdr symstr_hdr index : ℕ) (s : Relocated) :
    Relocated × ℕ × ℕ :=
  let f := l.va_to_pa_util s.m
  let s := s.use (.entry type relo_dyn index)
  let sym_dyn := f (l.entryVa type relo_dyn index s.m)
  let sym := f (l.symVa sym_hdr sym_dyn s.m)
  let sym_name := f (l.nameVa symstr_hdr sym s.m)
  let s := l.writeAt type sym_dyn sym s
  -- the target is read again
  (s, sym_name, l.targetVa sym_dyn s.m)

/-- The search for the symbol in the sections. -/
def resolve (s : Relocated) (sym_name target : ℕ) : Relocated :=
  if l.need_iterate then
    let addr := l.iterate_symtab s.m sym_name
    if addr > 0 then l.put s target ((l.offset_ + addr) % 2 ^ 64) else s
  else s

/-- One round of the relocation. -/
def relo (type : ReloType) (relo_dyn sym_hdr symstr_hdr index : ℕ) (s : Relocated) : Relocated :=
  let (s, sym_name, target) := l.processSym type relo_dyn sym_hdr symstr_hdr index s
  l.resolve s sym_name target

/-- The rounds from an index on. -/
def reloFrom (type : ReloType) (relo_dyn sym_hdr symstr_hdr : ℕ) (i : ℕ) : ℕ → Relocated → Relocated
  | 0, s => s
  | k + 1, s =>
    reloFrom type relo_dyn sym_hdr symstr_hdr (i + 1) k (l.relo type relo_dyn sym_hdr symstr_hdr i s)

/-- The function for one table. It looks at its arguments `hdr` and `size`, and then uses the
headers of the first table. -/
def processTable (h : DynHeaders) (hdr size : ℕ) (type : ReloType) (s : Relocated) :
    Except LoaderFault Relocated :=
  if hdr = 0 ∨ size = 0 then .ok s
  else if h.rela_size = 0 then .error .nullPointer
  else
    let need_relo_num := d_un s.m h.rela_size / type.size
    let s := s.use (.size h.rela_size)
    if need_relo_num ≠ 0 ∧ h.rela_hdr = 0 then .error .nullPointer
    else if 2 ^ 32 ≤ need_relo_num then .error .endless
    else .ok (l.reloFrom type h.rela_hdr h.sym_hdr h.symstr_hdr 0 need_relo_num s)

/-- The search for the headers, over the first `n` records. -/
def headers (m : Memory) (dynamic_vaddr n : ℕ) : DynHeaders :=
  (List.range n).foldl (fun h i => h.note m
  (l.va_to_pa_util m ((dynamic_vaddr + i * dynSize) % 2 ^ 64))) {}

/-- The bounds of the array of initializers. -/
def initArray (h : DynHeaders) (m : Memory) : ℕ × ℕ :=
  if h.init_array ≠ 0 ∧ h.init_array_sz ≠ 0 then
    (d_un m h.init_array, (d_un m h.init_array + d_un m h.init_array_sz) % 2 ^ 64)
  else (0, 0)

def processDynamicInfo (dynamic_info : DynamicInfo) (m : Memory) :
    Except LoaderFault (Relocated × ℕ × ℕ) :=
  let dyn_info_num := dynamic_info.dynamic_size / dynSize
  if 2 ^ 32 ≤ dyn_info_num then .error .endless
  else do
    let h := l.headers m dynamic_info.dynamic_vaddr dyn_info_num
    if h.sym_hdr = 0 ∨ h.symstr_hdr = 0 then return (⟨m, [], []⟩, (0, 0))
    else
      let s ← l.processTable h h.rela_hdr h.rela_size .rela ⟨m, [], []⟩
      let s ← l.processTable h h.rel_hdr h.rel_size .rel s
      return (s, initArray h s.m)

variable {l} {m : Memory} {h : DynHeaders} {s s' : Relocated} {type : ReloType}
  {va hdr size relo_dyn sym_hdr symstr_hdr i k n : ℕ}

/-! ## What is used -/

theorem processTable_absent (s : Relocated) (habsent : hdr = 0 ∨ size = 0) :
    l.processTable h hdr size type s = .ok s := if_pos habsent

theorem processTable_rela (s : Relocated) (hhdr : h.rela_hdr ≠ 0) (hsize : h.rela_size ≠ 0)
    (hlt : d_un s.m h.rela_size / type.size < 2 ^ 32) :
    l.processTable h h.rela_hdr h.rela_size type s =
      .ok (l.reloFrom type h.rela_hdr h.sym_hdr h.symstr_hdr 0 (d_un s.m h.rela_size / type.size)
        (s.use (.size h.rela_size))) := by
  rw [processTable, if_neg (not_or.mpr ⟨hhdr, hsize⟩), if_neg hsize]
  dsimp only
  rw [if_neg fun hn => hhdr hn.2, if_neg (not_le.mpr hlt)]

/-- The headers of the sizes have their tags. -/
structure Tagged (m : Memory) (h : DynHeaders) : Prop where
  rela_size : h.rela_size ≠ 0 → m.load h.rela_size 8 = DT_RELASZ
  rel_size : h.rel_size ≠ 0 → m.load h.rel_size 8 = DT_RELSZ

theorem Tagged.note (ht : Tagged m h) (dyn : ℕ) : Tagged m (h.note m dyn) := by
  constructor
  · intro hne
    dsimp only [DynHeaders.note] at hne ⊢
    split
    · assumption
    · next hd => exact ht.rela_size (by rwa [if_neg hd] at hne)
  · intro hne
    dsimp only [DynHeaders.note] at hne ⊢
    split
    · assumption
    · next hd => exact ht.rel_size (by rwa [if_neg hd] at hne)

theorem headers_succ (m : Memory) (dynamic_vaddr n : ℕ) : l.headers m dynamic_vaddr (n + 1) =
    (l.headers m dynamic_vaddr n).note m
    (l.va_to_pa_util m ((dynamic_vaddr + n * dynSize) % 2 ^ 64)) := by
  rw [headers, List.range_succ, List.foldl_append]
  rfl

theorem processDynamicInfo_eq {dynamic_info : DynamicInfo}
    (hn : dynamic_info.dynamic_size / dynSize < 2 ^ 32)
    (hh : l.headers m dynamic_info.dynamic_vaddr (dynamic_info.dynamic_size / dynSize) = h)
    (hsym : h.sym_hdr ≠ 0) (hstr : h.symstr_hdr ≠ 0) : l.processDynamicInfo dynamic_info m = (do
      let s ← l.processTable h h.rela_hdr h.rela_size .rela ⟨m, [], []⟩
      let s ← l.processTable h h.rel_hdr h.rel_size .rel s
      return (s, initArray h s.m)) := by
  rw [processDynamicInfo]
  dsimp only
  rw [if_neg (not_le.mpr hn), hh, if_neg (not_or.mpr ⟨hsym, hstr⟩)]

end DynamicLoader

/-! ## A process with two pages -/

/-- Memory that holds words of 8 bytes. -/
def ofWords (ws : List (ℕ × ℕ)) : Memory := ws.foldl (fun m w => m.store w.1 8 w.2) fun _ => 0

/-- The pages 0 and 1 of a process hold words. The first is in frame 4, the second in a frame of its
own. -/
def sampleObject (frame : ℕ) (ws : List (ℕ × ℕ)) : VirtualMemory where
  mem a :=
    if a < 16384 then ofWords [(4096, 2049), (8192, 3073), (12288, 4097), (12296, frame * 1024 + 1)] a
    else if a < 20480 then ofWords ws (a - 16384)
    else if a / 4096 = frame then ofWords ws (a % 4096 + 4096)
    else 0
  self := 0
  has_init_ := true
  head_ := 0
  tail_ := 0
  size_ := 0
  bit_map_ := .ofFn fun _ => 0

def sampleLoader (frame : ℕ) (ws : List (ℕ × ℕ)) : DynamicLoader where
  va_to_pa_util := vaToPaUtil (sampleObject frame ws) 4096
  offset := 0
  offset_ := 0
  iterate_symtab _ _ := 0
  need_iterate := false

/-- The records of a dynamic section from address 256 on. -/
def dynamicWords (dyns : List (ℕ × ℕ)) : List (ℕ × ℕ) :=
  dyns.zipIdx.flatMap fun (dyn, i) => [(256 + 16 * i, dyn.1), (264 + 16 * i, dyn.2)]

/-- A section with the tables for relocations, symbols and names. -/
def relaSection (d_ptr size : ℕ) : List (ℕ × ℕ) :=
  dynamicWords [(DT_RELA, d_ptr), (DT_RELASZ, size), (DT_SYMTAB, 512), (DT_STRTAB, 640)]

namespace DynamicLoader

end DynamicLoader

end OrangeOs.Kernel
