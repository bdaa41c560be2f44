import Mathlib.Data.BitVec
import Mathlib.Logic.Function.Basic
import Mathlib.Tactic.Common
import OrangeOs.Library.Memory

/-! # A hart of RV64

Assembly text in blocks: a block runs from its label to the jump that ends it. The registers and the
addresses are 64 bits wide, and addresses wrap around. Register `zero` is left out, since no text here
names it. Traps enter machine mode and `mret` leaves it; supervisor mode is left out.

Text that saves a list of registers through a base register, or loads one, is stated once, by the list.
-/

namespace OrangeOs.Riscv

inductive Reg where
  | ra | sp | gp | tp | t0 | t1 | t2 | s0 | s1 | a0 | a1 | a2 | a3 | a4 | a5 | a6 | a7
  | s2 | s3 | s4 | s5 | s6 | s7 | s8 | s9 | s10 | s11 | t3 | t4 | t5 | t6
  deriving DecidableEq, Repr

/-- The control registers that text here reads or writes, but for `mstatus`. -/
inductive Csr where
  | mepc | mcause | mtval | mscratch | mtvec
  deriving DecidableEq, Repr

inductive Mode where
  | user | machine
  deriving DecidableEq, Repr

abbrev Word := BitVec 64

/-- One hart and its memory. `mpp`, `mpie` and `mie` are the bits of `mstatus`. -/
structure Hart where
  reg : Reg → Word
  csr : Csr → Word
  mode : Mode
  mpp : Mode
  mpie : Bool
  mie : Bool
  pc : Word
  mem : Memory

/-- The instructions, over labels `σ`. The second label of `call` is where it returns. -/
inductive Instr (σ : Type) where
  | sd (src : Reg) (offset : ℕ) (base : Reg)
  | ld (dst : Reg) (offset : ℕ) (base : Reg)
  | add (dst src₁ src₂ : Reg)
  | addi (dst src : Reg) (imm : ℤ)
  | la (dst : Reg) (label : σ)
  | csrr (dst : Reg) (csr : Csr)
  | csrw (csr : Csr) (src : Reg)
  | csrrw (dst : Reg) (csr : Csr) (src : Reg)
  | j (target : σ)
  | call (target back : σ)
  | ret
  | mret

/-- The address `o` bytes past `a`. -/
def past (a : Word) (o : ℕ) : ℕ := (a + BitVec.ofNat 64 o).toNat

/-- The word in memory at an address. -/
def word (m : Memory) (a : ℕ) : Word := BitVec.ofNat 64 (m.load a 8)

/-- Store a word. -/
def storeWord (m : Memory) (a : ℕ) (v : Word) : Memory := m.store a 8 v.toNat

namespace Hart

def set (h : Hart) (r : Reg) (v : Word) : Hart := { h with reg := Function.update h.reg r v }

def setCsr (h : Hart) (c : Csr) (v : Word) : Hart := { h with csr := Function.update h.csr c v }

end Hart

variable {σ : Type}

/-- One instruction, where the labels have the addresses `addr`. The address of the next
instruction of the same block is not kept: `pc` is where the last jump went. -/
def Instr.exec (addr : σ → Word) : Instr σ → Hart → Hart
  | sd src offset base, h =>
      { h with mem := storeWord h.mem (past (h.reg base) offset) (h.reg src) }
  | ld dst offset base, h => h.set dst (word h.mem (past (h.reg base) offset))
  | add dst src₁ src₂, h => h.set dst (h.reg src₁ + h.reg src₂)
  | addi dst src imm, h => h.set dst (h.reg src + BitVec.ofInt 64 imm)
  | la dst label, h => h.set dst (addr label)
  | csrr dst csr, h => h.set dst (h.csr csr)
  | csrw csr src, h => h.setCsr csr (h.reg src)
  | csrrw dst csr src, h => (h.setCsr csr (h.reg src)).set dst (h.csr csr)
  | j target, h => { h with pc := addr target }
  | call target back, h => { h.set .ra (addr back) with pc := addr target }
  | ret, h => { h with pc := h.reg .ra }
  | mret, h => { h with pc := h.csr .mepc, mode := h.mpp, mie := h.mpie, mpie := true, mpp := .user }

/-- A block of instructions. -/
def run (addr : σ → Word) (c : List (Instr σ)) (h : Hart) : Hart :=
  c.foldl (fun h i => i.exec addr h) h

/-! ## Traps -/

inductive Cause where
  | exception (code : ℕ)
  | interrupt (code : ℕ)
  deriving DecidableEq, Repr

/-- What `mcause` holds: the top bit says that the cause is an interrupt. -/
def Cause.word : Cause → Word
  | exception code => BitVec.ofNat 64 code
  | interrupt code => BitVec.ofNat 64 (2 ^ 63 + code)

/-- Where a trap goes. With the low bits of `mtvec` at 1, each interrupt has its own entry. -/
def Cause.vector (mtvec : Word) : Cause → Word
  | exception _ => BitVec.ofNat 64 (mtvec.toNat / 4 * 4)
  | interrupt code =>
      BitVec.ofNat 64 (mtvec.toNat / 4 * 4 + if mtvec.toNat % 4 = 1 then 4 * code else 0)

/-- What the hart itself does on a trap into machine mode; `tval` is what it reports in `mtval`. -/
def Hart.trap (h : Hart) (c : Cause) (tval : Word) : Hart :=
  { ((h.setCsr .mepc h.pc).setCsr .mcause c.word).setCsr .mtval tval with
    pc := c.vector (h.csr .mtvec)
    mpp := h.mode
    mode := .machine
    mpie := h.mie
    mie := false }

/-! ## Text with labels -/

/-- Text in blocks, with an address for each label. -/
structure Text (σ : Type) where
  block : σ → Option (List (Instr σ))
  addr : σ → Word
  /-- The labels of the blocks. -/
  labels : List σ
  mem_labels : ∀ {l c}, block l = some c → l ∈ labels
  addr_inj : ∀ {l l' c}, block l = some c → addr l' = addr l → l' = l

/-- The block at an address. -/
def Text.fetch (t : Text σ) (a : Word) : Option (List (Instr σ)) :=
  (t.labels.find? fun l => decide (t.addr l = a)).bind t.block

/-- Run block after block, at most `n` of them, for as long as there is one where the last went. -/
def Text.go (t : Text σ) : ℕ → Hart → Hart
  | 0, h => h
  | n + 1, h =>
    match t.fetch h.pc with
    | some c => t.go n (run t.addr c h)
    | none => h

variable {addr : σ → Word} {c c' : List (Instr σ)} {h : Hart} {m : Memory} {a : Word} {i o : ℕ} {v w : Word}

theorem run_append : run addr (c ++ c') h = run addr c' (run addr c h) := by
  rw [run, List.foldl_append]
  rfl

theorem run_cons {i : Instr σ} : run addr (i :: c) h = run addr c (i.exec addr h) := rfl

@[simp] theorem run_nil : run addr [] h = h := rfl

theorem Text.fetch_addr {t : Text σ} {l : σ} (hb : t.block l = some c) : t.fetch (t.addr l) = some c := by
  have hfind : t.labels.find? (fun l' => decide (t.addr l' = t.addr l)) = some l := by
    cases hf : t.labels.find? (fun l' => decide (t.addr l' = t.addr l)) with
    | none =>
      rw [List.find?_eq_none] at hf
      exact absurd (decide_eq_true rfl) (hf l (t.mem_labels hb))
    | some l' =>
      have haddr := List.find?_some hf
      rw [t.addr_inj hb (of_decide_eq_true haddr)]
  rw [fetch, hfind, Option.bind_some, hb]

theorem Text.go_block {t : Text σ} {l : σ} {n : ℕ} (hpc : h.pc = t.addr l) (hb : t.block l = some c) :
    t.go (n + 1) h = t.go n (run t.addr c h) := by
  rw [go, hpc, fetch_addr hb]

/-- Text of others is not run. -/
theorem Text.go_outside {t : Text σ} {n : ℕ} (hpc : ∀ l ∈ t.labels, t.addr l ≠ h.pc) : t.go n h = h := by
  cases n with
  | zero => rfl
  | succ n =>
    have hfind : t.labels.find? (fun l => decide (t.addr l = h.pc)) = none := by
      rw [List.find?_eq_none]
      rintro l hl
      rw [decide_eq_true_eq]
      exact hpc l hl
    rw [go, fetch, hfind, Option.bind_none]

/-! ## Words in memory -/

theorem past_eq (ho : a.toNat + o < 2 ^ 64) : past a o = a.toNat + o := by
  rw [past, BitVec.toNat_add, BitVec.toNat_ofNat]
  omega

theorem word_storeWord : word (storeWord m i v) i = v := by
  rw [word, storeWord, Memory.load_store_of_lt _ _ v.isLt, BitVec.ofNat_toNat, BitVec.setWidth_eq]

theorem word_storeWord_of_disjoint (hd : o + 8 ≤ i ∨ i + 8 ≤ o) : word (storeWord m i v) o = word m o := by
  rw [word, storeWord, Memory.load_store_of_disjoint _ _ hd, word]

theorem storeWord_same : Memory.Same m (storeWord m i v) fun x => x < i ∨ i + 8 ≤ x :=
  Memory.store_same m i 8 _

theorem word_congr {m' : Memory} {S : ℕ → Prop} (hs : Memory.Same m m' S)
    (hS : ∀ x, i ≤ x → x < i + 8 → S x) : word m' i = word m i := by
  rw [word, hs.load_eq hS, word]

/-! ## Registers in memory -/

section Bank

variable {offset : Reg → ℕ} {base r : Reg} {rs rs' : List Reg} {f g : Reg → Word}

/-- Text that saves registers, each at its own offset. -/
def saves (offset : Reg → ℕ) (base : Reg) (rs : List Reg) : List (Instr σ) :=
  rs.map fun r => .sd r (offset r) base

/-- Text that loads them. -/
def loads (offset : Reg → ℕ) (base : Reg) (rs : List Reg) : List (Instr σ) :=
  rs.map fun r => .ld r (offset r) base

/-- Memory with the values of some registers stored. -/
def storeAll (m : Memory) (a : Word) (offset : Reg → ℕ) (f : Reg → Word) (rs : List Reg) : Memory :=
  rs.foldl (fun m r => storeWord m (past a (offset r)) (f r)) m

theorem storeAll_cons : storeAll m a offset f (r :: rs) =
    storeAll (storeWord m (past a (offset r)) (f r)) a offset f rs := rfl

theorem storeAll_append : storeAll m a offset f (rs ++ rs') =
    storeAll (storeAll m a offset f rs) a offset f rs' := List.foldl_append

theorem storeAll_congr (hfg : ∀ r ∈ rs, f r = g r) : storeAll m a offset f rs = storeAll m a offset g rs := by
  induction rs generalizing m with
  | nil => rfl
  | cons r rs ih =>
    rw [storeAll_cons, storeAll_cons, hfg r List.mem_cons_self]
    exact ih fun r hr => hfg r (List.mem_cons_of_mem _ hr)

theorem storeAll_same : Memory.Same m (storeAll m a offset f rs)
    fun x => ∀ r ∈ rs, x < past a (offset r) ∨ past a (offset r) + 8 ≤ x := by
  induction rs generalizing m with
  | nil => exact Memory.Same.refl _ _
  | cons r rs ih =>
    intro x hx
    rw [storeAll_cons, ih x fun r hr => hx r (List.mem_cons_of_mem _ hr)]
    exact storeWord_same x (hx r List.mem_cons_self)

theorem word_storeAll (hd : ∀ r ∈ rs, ∀ s ∈ rs, r ≠ s →
      past a (offset r) + 8 ≤ past a (offset s) ∨ past a (offset s) + 8 ≤ past a (offset r))
    (hr : r ∈ rs) : word (storeAll m a offset f rs) (past a (offset r)) = f r := by
  induction rs generalizing m with
  | nil => cases hr
  | cons s rs ih =>
    rw [storeAll_cons]
    by_cases hmem : r ∈ rs
    · exact ih (fun r hr s hs => hd r (List.mem_cons_of_mem _ hr) s (List.mem_cons_of_mem _ hs)) hmem
    · obtain rfl : r = s := (List.mem_cons.mp hr).resolve_right hmem
      -- no later register is stored over it
      rw [word_congr storeAll_same, word_storeWord]
      rintro x hx hx' s hs
      have := hd r List.mem_cons_self s (List.mem_cons_of_mem _ hs) fun h => hmem (h ▸ hs)
      omega

theorem run_saves : run addr (saves offset base rs) h =
    { h with mem := storeAll h.mem (h.reg base) offset h.reg rs } := by
  induction rs generalizing h with
  | nil => rfl
  | cons r rs ih => exact ih

theorem run_loads (hbase : base ∉ rs) : run addr (loads offset base rs) h =
    { h with reg := fun r => if r ∈ rs then word h.mem (past (h.reg base) (offset r)) else h.reg r } := by
  induction rs generalizing h with
  | nil => simp [loads]
  | cons s rs ih =>
    rw [List.mem_cons, not_or] at hbase
    rw [loads, List.map_cons, run_cons, ← loads, ih hbase.2]
    simp only [Instr.exec, Hart.set, Function.update_of_ne hbase.1]
    congr 1
    ext1 r
    by_cases hr : r ∈ rs
    · rw [if_pos hr, if_pos (List.mem_cons_of_mem _ hr)]
    · by_cases hrs : r = s
      · rw [if_neg hr, hrs, Function.update_self, if_pos List.mem_cons_self]
      · rw [if_neg hr, Function.update_of_ne hrs, if_neg (by simp [hr, hrs])]

/-- The offset of a register in an array of words that holds the registers `rs`. -/
def slot (rs : List Reg) (r : Reg) : ℕ := 8 * rs.idxOf r

theorem slot_lt (hr : r ∈ rs) : slot rs r + 8 ≤ 8 * rs.length := by
  have := List.idxOf_lt_length_of_mem hr
  rw [slot]
  omega

theorem past_slot (hfit : a.toNat + 8 * rs.length ≤ 2 ^ 64) (hr : r ∈ rs) :
    past a (slot rs r) = a.toNat + slot rs r :=
  past_eq (by have := slot_lt hr; omega)

theorem slot_apart (hfit : a.toNat + 8 * rs.length ≤ 2 ^ 64) {s : Reg} (hr : r ∈ rs) (hs : s ∈ rs)
    (hne : r ≠ s) : past a (slot rs r) + 8 ≤ past a (slot rs s) ∨
      past a (slot rs s) + 8 ≤ past a (slot rs r) := by
  have hidx : rs.idxOf r ≠ rs.idxOf s := fun heq => hne (List.idxOf_inj hr |>.mp heq)
  rw [past_slot hfit hr, past_slot hfit hs, slot, slot]
  omega

end Bank

end OrangeOs.Riscv
