import OrangeOs.Driver.Gpu
import OrangeOs.Kernel.SysWrite
import OrangeOs.Kernel.UserSpace

/-! # The memory of a resource

`GPUDevice::ResourceAttachBacking` tells the device the memory behind a range of a process. The
number of the entries comes from a formula, the entries from a generator that cuts the range at the
pages.
-/

namespace OrangeOs.Driver.GPUDevice

open Kernel Memory

/-- `virtio_gpu_mem_entry`. -/
structure MemEntry where
  addr : ℕ
  length : ℕ
  padding : ℕ

/-- The entry at an address. -/
def loadEntry (m : Memory) (p : ℕ) : MemEntry := ⟨m.load p 8, m.load (p + 8) 4, m.load (p + 12) 4⟩

def storeEntry (m : Memory) (p : ℕ) (entry : MemEntry) : Memory :=
  ((m.store p 8 entry.addr).store (p + 8) 4 entry.length).store (p + 12) 4 entry.padding

/-- The number of entries. -/
def pageNum (addr size : ℕ) : ℕ :=
  let aligned_gap := addr - addrCastDown addr
  (size + aligned_gap + PGSIZE - 1) % 2 ^ 64 / PGSIZE % 2 ^ 32

/-- One call of the generator, with the new values of the variables that it captures. -/
def nextEntry (v : VirtualMemory) (page_table size addr : ℕ) : Except Fault (MemEntry × ℕ × ℕ) := do
  let remain_size := PGSIZE - addr % PGSIZE
  let len := min size remain_size
  let (pa, _) ← v.vaToPA page_table addr 0
  return (⟨pa, len % 2 ^ 32, 0⟩, size - len, (addr + len) % 2 ^ 64)

/-- `std::generate` of `k` entries from `p` on. -/
def generate (v : VirtualMemory) (page_table size addr p : ℕ) : ℕ → Except Fault VirtualMemory
  | 0 => .ok v
  | k + 1 => do
    let (entry, size, addr) ← nextEntry v page_table size addr
    generate { v with mem := storeEntry v.mem p entry } page_table size addr (p + 16) k

/-- `ResourceAttachBacking` fills the entries at `entrys`. -/
def fillEntries (v : VirtualMemory) (page_table addr size entrys : ℕ) : Except Fault VirtualMemory :=
  generate v page_table size addr entrys (pageNum addr size)

variable {v : VirtualMemory} {root a s n p k x : ℕ} {m m' : Memory} {e : MemEntry} {es : List MemEntry}

/-! ## Entries in memory -/

theorem storeEntry_same (m : Memory) (p : ℕ) (e : MemEntry) :
    Same m (storeEntry m p e) fun x => x < p ∨ p + 16 ≤ x := by
  intro x hx
  rw [storeEntry, store_same _ _ _ _ _ (by omega), store_same _ _ _ _ _ (by omega),
    store_same _ _ _ _ _ (by omega)]

theorem loadEntry_of_same (h : Same m m' fun x => p ≤ x ∧ x < p + 16) :
    loadEntry m' p = loadEntry m p := by
  have haddr : m'.load p 8 = m.load p 8 := h.load_eq fun x hx hx' => ⟨hx, by omega⟩
  have hlen : m'.load (p + 8) 4 = m.load (p + 8) 4 := h.load_eq fun x hx hx' => ⟨by omega, by omega⟩
  have hpad : m'.load (p + 12) 4 = m.load (p + 12) 4 := h.load_eq fun x hx hx' => ⟨by omega, by omega⟩
  rw [loadEntry, loadEntry, haddr, hlen, hpad]

theorem loadEntry_storeEntry (m : Memory) (p : ℕ) (haddr : e.addr < 2 ^ 64) (hlen : e.length < 2 ^ 32)
    (hpad : e.padding < 2 ^ 32) : loadEntry (storeEntry m p e) p = e := by
  have h₀ : (storeEntry m p e).load p 8 = e.addr := by
    rw [storeEntry, load_store_of_disjoint _ _ (by omega), load_store_of_disjoint _ _ (by omega),
      load_store_of_lt _ _ haddr]
  have h₁ : (storeEntry m p e).load (p + 8) 4 = e.length := by
    rw [storeEntry, load_store_of_disjoint _ _ (by omega), load_store_of_lt _ _ hlen]
  have h₂ : (storeEntry m p e).load (p + 12) 4 = e.padding := load_store_of_lt _ _ hpad
  rw [loadEntry, h₀, h₁, h₂]

/-! ## What the entries stand for -/

/-- The entries stand for the `s` bytes from `a` on, one after the other, each for a part of one page. -/
inductive Backs (v : VirtualMemory) (root : ℕ) : ℕ → ℕ → List MemEntry → Prop
  | nil {a : ℕ} : Backs v root a 0 []
  | cons {a s : ℕ} {e : MemEntry} {es : List MemEntry} (hpa : translate v root a = some e.addr)
      (hpos : 0 < e.length) (hpage : a % PGSIZE + e.length ≤ PGSIZE) (hle : e.length ≤ s)
      (hrest : Backs v root (a + e.length) (s - e.length) es) : Backs v root a s (e :: es)

/-- The addresses of the memory that the entries name. -/
def addresses (es : List MemEntry) : List ℕ := es.flatMap fun e => (List.range e.length).map (e.addr + ·)

namespace Backs

theorem sum_length (h : Backs v root a s es) : (es.map MemEntry.length).sum = s := by
  induction h with
  | nil => rfl
  | cons _ _ _ hle _ ih =>
    rw [List.map_cons, List.sum_cons, ih]
    omega

/-- Every entry is a part of one page, and starts where its virtual address is mapped. -/
theorem entry (h : Backs v root a s es) (hk : es[k]? = some e) :
    0 < e.length ∧ ((es.take k).map MemEntry.length).sum + e.length ≤ s ∧
      (a + ((es.take k).map MemEntry.length).sum) % PGSIZE + e.length ≤ PGSIZE ∧
      translate v root (a + ((es.take k).map MemEntry.length).sum) = some e.addr := by
  induction h generalizing k with
  | nil => cases hk
  | @cons a s e' es hpa hpos hpage hle hrest ih =>
    cases k with
    | zero =>
      obtain rfl := Option.some.inj hk
      exact ⟨hpos, by rwa [List.take_zero, List.map_nil, List.sum_nil, Nat.zero_add], hpage, hpa⟩
    | succ k =>
      obtain ⟨hpos', hin, hrest'⟩ := ih hk
      rw [List.take_succ_cons, List.map_cons, List.sum_cons, ← Nat.add_assoc]
      exact ⟨hpos', by omega, hrest'⟩

/-- Together the entries name what the range stands for, in order. -/
theorem addresses_eq (h : Backs v root a s es) (ha : a + s ≤ 2 ^ 64) :
    (addresses es).map some = (List.range s).map fun k => translate v root (a + k) := by
  induction h with
  | nil => rfl
  | @cons a s e es hpa hpos hpage hle hrest ih =>
    obtain ⟨r, rfl⟩ := Nat.exists_eq_add_of_le hle
    rw [Nat.add_sub_cancel_left] at ih
    have hsize : PGSIZE = 4096 := rfl
    rw [hsize] at hpage
    have hpart := (translate_page (show a < 2 ^ 64 by omega) hpa).2
    rw [List.range_add, List.map_append, addresses, List.flatMap_cons, List.map_append, List.map_map,
      List.map_map]
    refine congrArg₂ (· ++ ·) (List.map_congr_left fun j hj => ?_) ?_
    · have hlt := List.mem_range.mp hj
      exact (hpart j (by omega)).symm
    · have hrest := ih (by omega)
      rw [addresses] at hrest
      rw [hrest]
      exact List.map_congr_left fun j _ => by rw [Function.comp, Nat.add_assoc]

end Backs

/-- Writes that spare the tables do not change what the entries stand for. -/
theorem Backs.of_same (h : Backs { v with mem := m' } root a s es)
    (hm : Same v.mem m' (InTables (tableTree v.mem root))) (ha : a + s ≤ 2 ^ 64) :
    Backs v root a s es := by
  induction h with
  | nil => exact .nil
  | cons hpa hpos hpage hle _ ih =>
    rw [translate_of_same hm (by omega)] at hpa
    exact .cons hpa hpos hpage hle (ih (by omega))

/-! ## The generator -/

/-- The number of entries for a range is the number of pages that it reaches into. -/
def Count (a s k : ℕ) : Prop := s = 0 ∧ k = 0 ∨ 0 < s ∧ k = (a % PGSIZE + s + PGSIZE - 1) / PGSIZE

/-- The range behind the first entry reaches into one page less. -/
theorem Count.succ (h : Count a s (k + 1)) : 0 < s ∧
    Count (a + min s (PGSIZE - a % PGSIZE)) (s - min s (PGSIZE - a % PGSIZE)) k := by
  have hsize : PGSIZE = 4096 := rfl
  simp only [Count, hsize] at h ⊢
  omega

theorem pageNum_eq (hs : 0 < s) (ha : a + s ≤ 2 ^ 64)
    (hn : (a % PGSIZE + s + PGSIZE - 1) / PGSIZE < 2 ^ 32) :
    pageNum a s = (a % PGSIZE + s + PGSIZE - 1) / PGSIZE := by
  have hsize : PGSIZE = 4096 := rfl
  have hdown := addrCastDown_eq (show a < 2 ^ 64 by omega)
  simp only [pageNum, hdown, hsize] at hn ⊢
  omega

theorem translate_lt {pa : ℕ} (h : translate v root a = some pa) : pa < 2 ^ 64 := by
  obtain ⟨pte, hpte⟩ := getPTE_find v root a 3
  simp only [Kernel.translate, hpte] at h
  split at h
  · cases h
  · have hpa := Option.some.inj h
    have htarget := pteTarget_eq (v.mem.load pte 8)
    rw [show PGSIZE = 4096 from rfl] at hpa
    omega

theorem nextEntry_eq {pa : ℕ} (hpa : translate v root a = some pa) :
    nextEntry v root s a = .ok (⟨pa, min s (PGSIZE - a % PGSIZE), 0⟩, s - min s (PGSIZE - a % PGSIZE),
      (a + min s (PGSIZE - a % PGSIZE)) % 2 ^ 64) := by
  have hsize : PGSIZE = 4096 := rfl
  obtain ⟨o, hva⟩ := vaToPA_translate v root a
  have hlt : min s (PGSIZE - a % PGSIZE) % 2 ^ 32 = min s (PGSIZE - a % PGSIZE) :=
    Nat.mod_eq_of_lt (by omega)
  simp only [nextEntry, hva, ok_bind, hpa, Option.getD_some, hlt]
  rfl

/-- The generator makes exactly the entries that the range needs. -/
theorem generate_spec (hk : Count a s k) (ha : a + s ≤ 2 ^ 64)
    (hmapped : ∀ j < s, translate v root (a + j) ≠ none)
    (htables : ∀ x, InTables (tableTree v.mem root) x → x < p ∨ p + 16 * k ≤ x) :
    ∃ v' es, generate v root s a p k = .ok v' ∧ es.length = k ∧ Backs v root a s es ∧
      (∀ i e, es[i]? = some e → loadEntry v'.mem (p + 16 * i) = e) ∧
      Same v.mem v'.mem fun x => x < p ∨ p + 16 * k ≤ x := by
  induction k generalizing v s a p with
  | zero =>
    obtain ⟨rfl, -⟩ | ⟨hs, h0⟩ := hk
    · exact ⟨v, [], rfl, rfl, .nil, by simp, Same.refl _ _⟩
    · have hsize : PGSIZE = 4096 := rfl
      rw [hsize] at h0
      omega
  | succ k ih =>
    have hsize : PGSIZE = 4096 := rfl
    obtain ⟨hs, hk'⟩ := hk.succ
    obtain ⟨pa, hpa⟩ := Option.ne_none_iff_exists'.mp (hmapped 0 hs)
    rw [Nat.add_zero] at hpa
    generalize hlen : min s (PGSIZE - a % PGSIZE) = len at hk'
    have hentry := nextEntry_eq (s := s) hpa
    rw [hlen] at hentry
    let e : MemEntry := ⟨pa, len, 0⟩
    have hsame := storeEntry_same v.mem p e
    have htree : Same v.mem (storeEntry v.mem p e) (InTables (tableTree v.mem root)) :=
      hsame.mono fun x hx => by
        have := htables x hx
        omega
    -- the entries behind the first one
    obtain ⟨v', es, hgen, hcount, hbacks, hread, hsame'⟩ : ∃ v' es,
        generate { v with mem := storeEntry v.mem p e } root (s - len) ((a + len) % 2 ^ 64) (p + 16) k =
          .ok v' ∧ es.length = k ∧
          Backs { v with mem := storeEntry v.mem p e } root (a + len) (s - len) es ∧
        (∀ i e, es[i]? = some e → loadEntry v'.mem (p + 16 + 16 * i) = e) ∧
        Same (storeEntry v.mem p e) v'.mem fun x => x < p + 16 ∨ p + 16 + 16 * k ≤ x := by
      rcases hk' with ⟨h0, rfl⟩ | hpos
      · rw [h0]
        exact ⟨_, [], rfl, rfl, .nil, by simp, Same.refl _ _⟩
      · rw [Nat.mod_eq_of_lt (by omega)]
        refine @ih { v with mem := storeEntry v.mem p e } (a + len) (s - len) (p + 16)
          (.inr hpos) (by omega)
          (fun j hj => ?_) fun x hx => ?_
        · rw [translate_of_same htree (by omega), Nat.add_assoc]
          exact hmapped _ (by omega)
        · rw [tableTree_of_same htree] at hx
          have := htables x hx
          omega
    refine ⟨v', e :: es, ?_, congrArg (· + 1) hcount, ?_, fun i e' hi => ?_, fun x hx => ?_⟩
    · rw [generate, hentry, ok_bind]
      exact hgen
    · have hlt : a % PGSIZE < PGSIZE := Nat.mod_lt _ (by decide)
      have hpos : 0 < len := by omega
      have hpage : a % PGSIZE + len ≤ PGSIZE := by omega
      exact .cons hpa hpos hpage (show len ≤ s by omega)
        (hbacks.of_same htree (show a + len + _ ≤ _ by omega))
    · cases i with
      | zero =>
        obtain rfl := Option.some.inj hi
        rw [Nat.mul_zero, Nat.add_zero, loadEntry_of_same (hsame'.mono fun x hx => .inl hx.2)]
        exact loadEntry_storeEntry _ _ (translate_lt hpa) (show len < 2 ^ 32 by omega)
          (show 0 < 2 ^ 32 by decide)
      | succ i =>
        rw [← hread i e' hi]
        congr 1
        ring
    · rw [hsame' x (by omega), hsame x (by omega)]

/-- The entries of `ResourceAttachBacking` are as many as the pages that the range reaches into.
None of them is empty, each is a part of one page and starts where its virtual address is mapped,
and one after the other they name the memory behind the range. -/
theorem fillEntries_partition {addr size entrys : ℕ} (hpos : 1 ≤ size) (hrange : addr + size ≤ 2 ^ 64)
    (hmapped : ∀ k < size, translate v root (addr + k) ≠ none)
    (hroom : entrys + 16 * ((addr % PGSIZE + size + PGSIZE - 1) / PGSIZE) ≤ MEMORY_END)
    (htables : ∀ x, InTables (tableTree v.mem root) x →
      x < entrys ∨ entrys + 16 * ((addr % PGSIZE + size + PGSIZE - 1) / PGSIZE) ≤ x) :
    pageNum addr size = (addr % PGSIZE + size + PGSIZE - 1) / PGSIZE ∧
    ∃ v' es, fillEntries v root addr size entrys = .ok v' ∧
      (List.range (pageNum addr size)).map (fun k => loadEntry v'.mem (entrys + 16 * k)) = es ∧
      (∀ k e, es[k]? = some e → 0 < e.length ∧ e.addr % PGSIZE + e.length ≤ PGSIZE ∧
        translate v root (addr + ((es.take k).map MemEntry.length).sum) = some e.addr) ∧
      (es.map MemEntry.length).sum = size ∧
      ((addresses es).map some = (List.range size).map fun k => translate v root (addr + k)) ∧
      Same v.mem v'.mem fun x => x < entrys ∨ entrys + 16 * pageNum addr size ≤ x := by
  have hend : MEMORY_END = 2281701376 := rfl
  have hnum := pageNum_eq hpos hrange (by omega)
  obtain ⟨v', es, hgen, hcount, hbacks, hread, hsame⟩ :=
    generate_spec (.inr ⟨hpos, hnum⟩) hrange hmapped (hnum ▸ htables)
  refine ⟨hnum, v', es, hgen, ?_, fun k e hk => ?_, hbacks.sum_length, hbacks.addresses_eq hrange, hsame⟩
  · refine List.ext_getElem? fun k => ?_
    rw [List.getElem?_map]
    by_cases hk : k < pageNum addr size
    · rw [List.getElem?_range hk, List.getElem?_eq_getElem (by omega)]
      exact congrArg some (hread k _ (List.getElem?_eq_getElem _))
    · rw [List.getElem?_eq_none (by rw [List.length_range]; omega), List.getElem?_eq_none (by omega)]
      rfl
  · obtain ⟨hlen, hin, hpage, hpa⟩ := hbacks.entry hk
    refine ⟨hlen, ?_, hpa⟩
    have hmod := (translate_page (by omega) hpa).1
    rw [show PGSIZE = 4096 from rfl] at hpage ⊢
    rwa [hmod]

/-- The tables of the sample are the pages 1 to 3. -/
theorem inTables_sample (h : InTables (tableTree sampleMemory.mem 4096) x) : x < 16384 := by
  have hroot : ∀ i : Fin 512, child sampleMemory.mem 4096 i = if i = 0 then some 8192 else none := by
    decide +kernel
  have hnext : ∀ i : Fin 512, child sampleMemory.mem 8192 i = if i = 0 then some 12288 else none := by
    decide +kernel
  obtain ⟨q, b, hb, hq, hle, hlt⟩ := h
  have htree : tableTree sampleMemory.mem 4096 q = q.foldlM (child sampleMemory.mem) 4096 :=
    if_pos (show q.length ≤ 2 by omega)
  rw [htree] at hb
  have hcases : b = 4096 ∨ b = 8192 ∨ b = 12288 := by
    rcases q with _ | ⟨i, _ | ⟨j, _ | ⟨k, q⟩⟩⟩
    · exact .inl (Option.some.inj hb).symm
    · rw [List.foldlM_cons, hroot] at hb
      split at hb
      · exact .inr (.inl (Option.some.inj hb).symm)
      · cases hb
    · rw [List.foldlM_cons, hroot] at hb
      split at hb
      · rw [Option.bind_eq_bind, Option.bind_some, List.foldlM_cons, hnext] at hb
        split at hb
        · exact .inr (.inr (Option.some.inj hb).symm)
        · cases hb
      · cases hb
    · simp only [List.length_cons] at hq
      omega
  omega

/-- Two bytes on the two sides of a page boundary. -/
theorem fillEntries_partition_two : ∃ v' es, fillEntries sampleMemory 4096 4095 2 1048576 = .ok v' ∧
    (List.range (pageNum 4095 2)).map (fun k => loadEntry v'.mem (1048576 + 16 * k)) = es ∧
    (es.map MemEntry.length).sum = 2 := by
  obtain ⟨-, v', es, hfill, hread, -, hsum, -⟩ := @fillEntries_partition sampleMemory 4096 4095 2 1048576
    (by decide) (by decide) (by decide +kernel) (by decide) fun x hx => .inl (by
      have := inTables_sample hx
      omega)
  exact ⟨v', es, hfill, hread, hsum⟩

end OrangeOs.Driver.GPUDevice
