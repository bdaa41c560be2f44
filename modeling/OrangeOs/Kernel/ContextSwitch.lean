import Mathlib
import OrangeOs.Kernel.VirtualMemory
import OrangeOs.Library.Riscv

/-! # Entering and leaving the kernel

The assembly text of `exception_table.S`, `timer_handler.S` and `context_switch_user.S`, and what it does
to the hart and to memory. A trap from user mode ends in `ProcessUserTrap` with the registers of the
program in its `RegFrame`, and `restore_user_context` takes them back from there.
-/

namespace OrangeOs.Kernel

open Riscv

namespace RegFrame

/-- The members of `RegFrame` that have the name of a register, in their order. -/
def registers : List Reg :=
  [.ra, .sp, .gp, .tp, .t0, .t1, .t2, .s0, .s1, .a0, .a1, .a2, .a3, .a4, .a5, .a6, .a7,
    .s2, .s3, .s4, .s5, .s6, .s7, .s8, .s9, .s10, .s11, .t3, .t4, .t5, .t6]

/-- `RA_OFFSET`, `SP_OFFSET` and so on, as `gen_frame_offset.py` writes them. -/
def offset (r : Reg) : ℕ := slot registers r

def MEPC_OFFSET : ℕ := 8 * 31
def MCAUSE_OFFSET : ℕ := 8 * 32
def KERNEL_SP_OFFSET : ℕ := 8 * 33
-- after `reserved_space[128 - 34]`
def TEMPORARY_SPACE_OFFSET : ℕ := 8 * 128
/-- `sizeof(RegFrame)`. -/
def size : ℕ := 8 * (128 + 128)

theorem mem_registers (r : Reg) : r ∈ registers := by cases r <;> decide

end RegFrame

open RegFrame

/-- Labels of the text, and the labels outside it that it names. An exception table has twelve
entries of 4 bytes. -/
inductive Label where
  | user_exception_table (entry : Fin 12)
  | kernel_exception_table (entry : Fin 12)
  | preserve_user_context
  | restore_user_context
  | user_timer_handler
  | kernel_timer_handler
  | kernel_intr_hander
  /-- After the call in `kernel_intr_hander`. -/
  | kernel_intr_return
  | Switch
  | ProcessUserTrap
  | ProcessKernelTrap
  | panic
  | error_info_message
  | time_scratch
  deriving DecidableEq, Fintype

def preserve_user_context : List (Instr Label) :=
  [.csrrw .a0 .mscratch .a0,
    .sd .ra (offset .ra) .a0, .sd .sp (offset .sp) .a0, .sd .gp (offset .gp) .a0,
    .sd .tp (offset .tp) .a0, .sd .t0 (offset .t0) .a0, .sd .t1 (offset .t1) .a0,
    .sd .t2 (offset .t2) .a0, .sd .s0 (offset .s0) .a0, .sd .s1 (offset .s1) .a0,
    -- to store a0
    .csrr .s1 .mscratch, .sd .s1 (offset .a0) .a0,
    .sd .a1 (offset .a1) .a0, .sd .a2 (offset .a2) .a0, .sd .a3 (offset .a3) .a0,
    .sd .a4 (offset .a4) .a0, .sd .a5 (offset .a5) .a0, .sd .a6 (offset .a6) .a0,
    .sd .a7 (offset .a7) .a0, .sd .s2 (offset .s2) .a0, .sd .s3 (offset .s3) .a0,
    .sd .s4 (offset .s4) .a0, .sd .s5 (offset .s5) .a0, .sd .s6 (offset .s6) .a0,
    .sd .s7 (offset .s7) .a0, .sd .s8 (offset .s8) .a0, .sd .s9 (offset .s9) .a0,
    .sd .s10 (offset .s10) .a0, .sd .s11 (offset .s11) .a0, .sd .t3 (offset .t3) .a0,
    .sd .t4 (offset .t4) .a0, .sd .t5 (offset .t5) .a0, .sd .t6 (offset .t6) .a0,
    -- to restore kernel sp/fp
    .ld .sp KERNEL_SP_OFFSET .a0,
    -- to preserve mepc and mcause
    .csrr .a1 .mepc, .sd .a1 MEPC_OFFSET .a0,
    .csrr .a1 .mcause, .sd .a1 MCAUSE_OFFSET .a0,
    .csrrw .a0 .mscratch .a0,
    .la .a0 (.kernel_exception_table 0), .addi .a0 .a0 1, .csrw .mtvec .a0,
    .j .ProcessUserTrap]

/-- With `load_process`, which it falls into. -/
def restore_user_context : List (Instr Label) :=
  [.csrw .mscratch .a0,
    .ld .ra (offset .ra) .a0, .ld .sp (offset .sp) .a0, .ld .gp (offset .gp) .a0,
    .ld .tp (offset .tp) .a0, .ld .t0 (offset .t0) .a0, .ld .t1 (offset .t1) .a0,
    .ld .t2 (offset .t2) .a0, .ld .s0 (offset .s0) .a0, .ld .s1 (offset .s1) .a0,
    .ld .a1 (offset .a1) .a0, .ld .a2 (offset .a2) .a0, .ld .a3 (offset .a3) .a0,
    .ld .a4 (offset .a4) .a0, .ld .a5 (offset .a5) .a0, .ld .a6 (offset .a6) .a0,
    .ld .a7 (offset .a7) .a0, .ld .s2 (offset .s2) .a0, .ld .s3 (offset .s3) .a0,
    .ld .s4 (offset .s4) .a0, .ld .s5 (offset .s5) .a0, .ld .s6 (offset .s6) .a0,
    .ld .s7 (offset .s7) .a0, .ld .s8 (offset .s8) .a0, .ld .s9 (offset .s9) .a0,
    .ld .s10 (offset .s10) .a0, .ld .s11 (offset .s11) .a0, .ld .t3 (offset .t3) .a0,
    .ld .t4 (offset .t4) .a0, .ld .t5 (offset .t5) .a0, .ld .t6 (offset .t6) .a0,
    -- to restore a0
    .ld .a0 (offset .a0) .a0,
    .mret]

/-- The two timer handlers, which differ in the words of `temporary_space` that they use, from word
`k` on, and in where they go. -/
def timer_handler (k : ℕ) (next : Label) : List (Instr Label) :=
  let space i := TEMPORARY_SPACE_OFFSET + (k + i) * 8
  [.csrrw .a0 .mscratch .a0,
    .sd .a1 (space 0) .a0, .sd .a2 (space 1) .a0, .sd .a3 (space 2) .a0, .sd .a4 (space 3) .a0,
    .la .a4 .time_scratch,
    -- mtime_cmp_addr, mtime_cmp and the interval
    .ld .a1 0 .a4, .ld .a3 0 .a1, .ld .a2 8 .a4,
    .add .a3 .a3 .a2, .sd .a3 0 .a1,
    .ld .a1 (space 0) .a0, .ld .a2 (space 1) .a0, .ld .a3 (space 2) .a0, .ld .a4 (space 3) .a0,
    .csrrw .a0 .mscratch .a0,
    .j next]

def user_timer_handler : List (Instr Label) := timer_handler 0 .preserve_user_context

def kernel_timer_handler : List (Instr Label) := timer_handler 4 .kernel_intr_hander

/-- What `kernel_intr_hander` puts on the stack, in this order; `mepc` comes after it. -/
def caller_saved : List Reg :=
  [.ra, .gp, .tp, .t0, .t1, .t2, .a0, .a1, .a2, .a3, .a4, .a5, .a6, .a7, .t3, .t4, .t5, .t6]

/-- `kernel_intr_hander` up to its call. -/
def kernel_intr_hander : List (Instr Label) :=
  [.addi .sp .sp (-152),
    .sd .ra (0 * 8) .sp, .sd .gp (1 * 8) .sp, .sd .tp (2 * 8) .sp, .sd .t0 (3 * 8) .sp,
    .sd .t1 (4 * 8) .sp, .sd .t2 (5 * 8) .sp, .sd .a0 (6 * 8) .sp, .sd .a1 (7 * 8) .sp,
    .sd .a2 (8 * 8) .sp, .sd .a3 (9 * 8) .sp, .sd .a4 (10 * 8) .sp, .sd .a5 (11 * 8) .sp,
    .sd .a6 (12 * 8) .sp, .sd .a7 (13 * 8) .sp, .sd .t3 (14 * 8) .sp, .sd .t4 (15 * 8) .sp,
    .sd .t5 (16 * 8) .sp, .sd .t6 (17 * 8) .sp,
    .csrr .t0 .mepc, .sd .t0 (18 * 8) .sp,
    .call .ProcessKernelTrap .kernel_intr_return]

/-- `kernel_intr_hander` from its call on. -/
def kernel_intr_return : List (Instr Label) :=
  [.ld .t0 (18 * 8) .sp, .csrw .mepc .t0,
    .ld .ra (0 * 8) .sp, .ld .gp (1 * 8) .sp, .ld .tp (2 * 8) .sp, .ld .t0 (3 * 8) .sp,
    .ld .t1 (4 * 8) .sp, .ld .t2 (5 * 8) .sp, .ld .a0 (6 * 8) .sp, .ld .a1 (7 * 8) .sp,
    .ld .a2 (8 * 8) .sp, .ld .a3 (9 * 8) .sp, .ld .a4 (10 * 8) .sp, .ld .a5 (11 * 8) .sp,
    .ld .a6 (12 * 8) .sp, .ld .a7 (13 * 8) .sp, .ld .t3 (14 * 8) .sp, .ld .t4 (15 * 8) .sp,
    .ld .t5 (16 * 8) .sp, .ld .t6 (17 * 8) .sp,
    .addi .sp .sp 152,
    .mret]

/-- The members of `SavedContext`, in their order. -/
def SavedContext.registers : List Reg :=
  [.ra, .s0, .s1, .s2, .s3, .s4, .s5, .s6, .s7, .s8, .s9, .s10, .s11, .sp]

def Switch : List (Instr Label) :=
  [.sd .ra (0 * 8) .a0, .sd .s0 (1 * 8) .a0, .sd .s1 (2 * 8) .a0, .sd .s2 (3 * 8) .a0,
    .sd .s3 (4 * 8) .a0, .sd .s4 (5 * 8) .a0, .sd .s5 (6 * 8) .a0, .sd .s6 (7 * 8) .a0,
    .sd .s7 (8 * 8) .a0, .sd .s8 (9 * 8) .a0, .sd .s9 (10 * 8) .a0, .sd .s10 (11 * 8) .a0,
    .sd .s11 (12 * 8) .a0, .sd .sp (13 * 8) .a0,
    .ld .ra (0 * 8) .a1, .ld .s0 (1 * 8) .a1, .ld .s1 (2 * 8) .a1, .ld .s2 (3 * 8) .a1,
    .ld .s3 (4 * 8) .a1, .ld .s4 (5 * 8) .a1, .ld .s5 (6 * 8) .a1, .ld .s6 (7 * 8) .a1,
    .ld .s7 (8 * 8) .a1, .ld .s8 (9 * 8) .a1, .ld .s9 (10 * 8) .a1, .ld .s10 (11 * 8) .a1,
    .ld .s11 (12 * 8) .a1, .ld .sp (13 * 8) .a1,
    .ret]

/-- What stands at each label. The entries of the exception tables that are not named hold zeros. -/
def block : Label → Option (List (Instr Label))
  | .user_exception_table 0 => some [.j .preserve_user_context]
  | .user_exception_table 7 => some [.j .user_timer_handler]
  | .user_exception_table 11 => some [.j .preserve_user_context]
  | .kernel_exception_table 0 => some
      [.la .a0 .error_info_message, .csrr .a1 .mcause, .csrr .a2 .mepc, .csrr .a3 .mtval, .j .panic]
  | .kernel_exception_table 7 => some [.j .kernel_timer_handler]
  | .kernel_exception_table 11 => some [.j .kernel_intr_hander]
  | .preserve_user_context => some preserve_user_context
  | .restore_user_context => some restore_user_context
  | .user_timer_handler => some user_timer_handler
  | .kernel_timer_handler => some kernel_timer_handler
  | .kernel_intr_hander => some kernel_intr_hander
  | .kernel_intr_return => some kernel_intr_return
  | .Switch => some Switch
  | _ => none

/-- The labels that text stands at. -/
def codeLabels : List Label :=
  [.user_exception_table 0, .user_exception_table 7, .user_exception_table 11,
    .kernel_exception_table 0, .kernel_exception_table 7, .kernel_exception_table 11,
    .preserve_user_context, .restore_user_context, .user_timer_handler, .kernel_timer_handler,
    .kernel_intr_hander, .kernel_intr_return, .Switch]

/-- Where the linker puts the text and the words at `time_scratch`. -/
structure Linked where
  addr : Label → Word
  inj : ∀ {l l' : Label} {c : List (Instr Label)}, block l = some c → addr l' = addr l → l' = l
  user_entry : ∀ k : Fin 12, (addr (.user_exception_table k)).toNat =
    (addr (.user_exception_table 0)).toNat + 4 * k
  kernel_entry : ∀ k : Fin 12, (addr (.kernel_exception_table k)).toNat =
    (addr (.kernel_exception_table 0)).toNat + 4 * k
  user_align : (addr (.user_exception_table 0)).toNat % 2 ^ 16 = 0
  kernel_align : (addr (.kernel_exception_table 0)).toNat % 2 ^ 16 = 0
  scratch_low : KERNEL_BASE ≤ (addr .time_scratch).toNat
  scratch_high : (addr .time_scratch).toNat + 16 ≤ MEMORY_END

namespace Linked

/-- What `mtvec` holds while a program runs. -/
abbrev userVector (t : Linked) : Word := t.addr (.user_exception_table 0) + 1

/-- What `mtvec` holds while the kernel runs. -/
abbrev kernelVector (t : Linked) : Word := t.addr (.kernel_exception_table 0) + 1

theorem mem_codeLabels {l : Label} (hb : (block l).isSome) : l ∈ codeLabels := by
  revert l
  decide

def text (t : Linked) : Text Label where
  block := block
  addr := t.addr
  labels := codeLabels
  mem_labels hb := mem_codeLabels (by rw [hb]; rfl)
  addr_inj := t.inj

end Linked

/-- The frame at `f` with the registers of a program in it. -/
def saveRegs (m : Memory) (f : Word) (reg : Reg → Word) (mepc : Word) : Memory :=
  storeWord (storeAll m f offset reg registers) (past f MEPC_OFFSET) mepc

/-- And with the cause of its trap. -/
def saveFrame (m : Memory) (f : Word) (reg : Reg → Word) (mepc mcause : Word) : Memory :=
  storeWord (saveRegs m f reg mepc) (past f MCAUSE_OFFSET) mcause

theorem preserve_eq : preserve_user_context =
    .csrrw .a0 .mscratch .a0 ::
      (saves offset .a0 [.ra, .sp, .gp, .tp, .t0, .t1, .t2, .s0, .s1] ++
      ([.csrr .s1 .mscratch, .sd .s1 (offset .a0) .a0] ++
      (saves offset .a0 [.a1, .a2, .a3, .a4, .a5, .a6, .a7, .s2, .s3, .s4, .s5, .s6, .s7, .s8, .s9,
        .s10, .s11, .t3, .t4, .t5, .t6] ++
      [.ld .sp KERNEL_SP_OFFSET .a0, .csrr .a1 .mepc, .sd .a1 MEPC_OFFSET .a0, .csrr .a1 .mcause,
        .sd .a1 MCAUSE_OFFSET .a0, .csrrw .a0 .mscratch .a0, .la .a0 (.kernel_exception_table 0),
        .addi .a0 .a0 1, .csrw .mtvec .a0, .j .ProcessUserTrap]))) := rfl

theorem run_preserve {addr : Label → Word} {h : Hart} : run addr preserve_user_context h =
    { h with
      reg := fun r => match r with
        | .a0 => addr (.kernel_exception_table 0) + 1
        | .a1 => h.csr .mcause
        | .s1 => h.reg .a0
        | .sp => word (storeAll h.mem (h.csr .mscratch) offset h.reg registers)
            (past (h.csr .mscratch) KERNEL_SP_OFFSET)
        | r => h.reg r
      csr := Function.update h.csr .mtvec (addr (.kernel_exception_table 0) + 1)
      pc := addr .ProcessUserTrap
      mem := saveFrame h.mem (h.csr .mscratch) h.reg (h.csr .mepc) (h.csr .mcause) } := by
  have hmem : storeAll h.mem (h.csr .mscratch) offset h.reg registers = 
     storeAll (storeWord (storeAll h.mem (h.csr .mscratch) offset (Function.update h.reg .a0 (h.csr .mscratch)) [.ra, .sp, .gp, .tp, .t0, .t1, .t2, .s0, .s1])
      (past (h.csr .mscratch) (offset .a0)) (h.reg .a0)) (h.csr .mscratch) offset
       (Function.update (Function.update h.reg .a0 (h.csr .mscratch)) .s1 (h.reg .a0))
      [.a1, .a2, .a3, .a4, .a5, .a6, .a7, .s2, .s3, .s4, .s5, .s6, .s7, .s8, .s9,
        .s10, .s11, .t3, .t4, .t5, .t6] := by
     rfl
  rw [preserve_eq, run_cons, run_append, run_append, run_append, run_saves, run_saves, saveFrame, hmem]
  simp only [run_cons, run_nil, Instr.exec, Hart.set, Hart.setCsr]
  congr 1
  · funext r
    cases r <;> rfl
  · funext c
    cases c <;> rfl

variable {addr : Label → Word} {h : Hart} {f a : Word} {m : Memory} {r : Reg} {k : ℕ} {next : Label}

theorem restore_eq : restore_user_context =
    .csrw .mscratch .a0 ::
      (loads offset .a0 [.ra, .sp, .gp, .tp, .t0, .t1, .t2, .s0, .s1, .a1, .a2, .a3, .a4, .a5, .a6, .a7,
        .s2, .s3, .s4, .s5, .s6, .s7, .s8, .s9, .s10, .s11, .t3, .t4, .t5, .t6] ++
      [.ld .a0 (offset .a0) .a0, .mret]) := rfl

theorem run_restore : run addr restore_user_context h =
    { h with
      reg := fun r => word h.mem (past (h.reg .a0) (offset r))
      csr := Function.update h.csr .mscratch (h.reg .a0)
      pc := h.csr .mepc
      mode := h.mpp
      mie := h.mpie
      mpie := true
      mpp := .user } := by
  rw [restore_eq, run_cons, run_append, run_loads (by decide)]
  simp only [run_cons, run_nil, Instr.exec, Hart.set, Hart.setCsr]
  congr 1
  funext r
  cases r <;> rfl

/-- The offsets of the words of `temporary_space` from `k` on, for `a1` to `a4`. -/
def spare (k : ℕ) (r : Reg) : ℕ := TEMPORARY_SPACE_OFFSET + (k + [Reg.a1, .a2, .a3, .a4].idxOf r) * 8

theorem timer_eq : timer_handler k next =
    .csrrw .a0 .mscratch .a0 ::
      (saves (spare k) .a0 [.a1, .a2, .a3, .a4] ++
      ([.la .a4 .time_scratch, .ld .a1 0 .a4, .ld .a3 0 .a1, .ld .a2 8 .a4, .add .a3 .a3 .a2,
        .sd .a3 0 .a1] ++
      (loads (spare k) .a0 [.a1, .a2, .a3, .a4] ++ [.csrrw .a0 .mscratch .a0, .j next]))) := rfl

/-- Memory after the first stores of a timer handler. -/
def spared (k : ℕ) (h : Hart) : Memory := storeAll h.mem (h.csr .mscratch) (spare k) h.reg [.a1, .a2, .a3, .a4]

theorem run_timer : run addr (timer_handler k next) h =
    let m := spared k h
    let cmp := past (word m (past (addr .time_scratch) 0)) 0
    let m' := storeWord m cmp (word m cmp + word m (past (addr .time_scratch) 8))
    { h with
      reg := fun r => if r ∈ [Reg.a1, .a2, .a3, .a4] then word m' (past (h.csr .mscratch) (spare k r))
        else h.reg r
      pc := addr next
      mem := m' } := by
  rw [timer_eq, run_cons, run_append, run_append, run_append, run_saves, run_loads (by decide)]
  simp only [run_cons, run_nil, Instr.exec, Hart.set, Hart.setCsr]
  congr 1
  · funext r
    cases r <;> rfl
  · funext c
    cases c <;> rfl

/-- `CLINT_MTIMECMP`. -/
def CLINT_MTIMECMP (hart_id : ℕ) : ℕ := 0x2004000 + 8 * hart_id

/-- What makes a page a place for a frame: it lies in the memory after the kernel's image. -/
structure FrameAt (t : Linked) (f : Word) : Prop where
  aligned : f.toNat % PGSIZE = 0
  low : (t.addr .time_scratch).toNat + 16 ≤ f.toNat
  high : f.toNat + PGSIZE ≤ MEMORY_END

namespace FrameAt

variable {t : Linked} {o : ℕ} {s : Reg} {reg : Reg → Word} {mepc mcause : Word}

theorem past_eq (hf : FrameAt t f) (ho : o < PGSIZE) : past f o = f.toNat + o :=
  Riscv.past_eq (by
    have := hf.high
    unfold PGSIZE MEMORY_END KERNEL_BASE at *
    omega)

theorem offset_lt (r : Reg) : offset r + 8 ≤ MEPC_OFFSET := slot_lt (mem_registers r)

theorem past_offset (hf : FrameAt t f) (r : Reg) : past f (offset r) = f.toNat + offset r :=
  hf.past_eq (by have := offset_lt r; unfold MEPC_OFFSET PGSIZE at *; omega)

theorem storeAll_same (hf : FrameAt t f) : Memory.Same m (storeAll m f offset reg registers)
    fun x => x < f.toNat ∨ f.toNat + MEPC_OFFSET ≤ x := by
  intro x hx
  apply Riscv.storeAll_same
  intro r _
  have := offset_lt r
  rw [hf.past_offset]
  omega

theorem saveRegs_same (hf : FrameAt t f) : Memory.Same m (saveRegs m f reg mepc)
    fun x => x < f.toNat ∨ f.toNat + MCAUSE_OFFSET ≤ x := by
  intro x hx
  rw [saveRegs, hf.past_eq (by decide),
    storeWord_same x (by unfold MEPC_OFFSET MCAUSE_OFFSET at *; omega)]
  exact hf.storeAll_same x (by unfold MEPC_OFFSET MCAUSE_OFFSET at *; omega)

theorem saveFrame_same (hf : FrameAt t f) : Memory.Same m (saveFrame m f reg mepc mcause)
    fun x => x < f.toNat ∨ f.toNat + KERNEL_SP_OFFSET ≤ x := by
  intro x hx
  rw [saveFrame, hf.past_eq (by decide),
    storeWord_same x (by unfold MCAUSE_OFFSET KERNEL_SP_OFFSET at *; omega)]
  exact hf.saveRegs_same x (by unfold MCAUSE_OFFSET KERNEL_SP_OFFSET at *; omega)

theorem offset_apart (hf : FrameAt t f) (hne : r ≠ s) :
    past f (offset r) + 8 ≤ past f (offset s) ∨ past f (offset s) + 8 ≤ past f (offset r) := by
  have hfit : f.toNat + 8 * registers.length ≤ 2 ^ 64 := by
    have := hf.high
    simp only [registers, List.length_cons, List.length_nil]
    unfold PGSIZE MEMORY_END KERNEL_BASE at this
    omega
  exact slot_apart hfit (mem_registers r) (mem_registers s) hne

theorem mepc_apart (hf : FrameAt t f) : past f (offset r) + 8 ≤ past f MEPC_OFFSET := by
  have := offset_lt r
  rw [hf.past_offset, hf.past_eq (by decide)]
  omega

theorem word_saveRegs (hf : FrameAt t f) (r : Reg) :
    word (saveRegs m f reg mepc) (past f (offset r)) = reg r := by
  rw [saveRegs, word_storeWord_of_disjoint (.inl hf.mepc_apart)]
  exact word_storeAll (fun r _ s _ hne => hf.offset_apart hne) (mem_registers r)

theorem mepc_saveRegs (_ : FrameAt t f) : word (saveRegs m f reg mepc) (past f MEPC_OFFSET) = mepc :=
  word_storeWord

theorem word_saveFrame (hf : FrameAt t f) (r : Reg) :
    word (saveFrame m f reg mepc mcause) (past f (offset r)) = reg r := by
  rw [saveFrame, word_storeWord_of_disjoint, hf.word_saveRegs]
  have := hf.mepc_apart (r := r)
  rw [hf.past_eq (o := MEPC_OFFSET) (by decide)] at this
  rw [hf.past_eq (o := MCAUSE_OFFSET) (by decide)]
  unfold MEPC_OFFSET MCAUSE_OFFSET at *
  omega

theorem mepc_saveFrame (hf : FrameAt t f) :
    word (saveFrame m f reg mepc mcause) (past f MEPC_OFFSET) = mepc := by
  rw [saveFrame, word_storeWord_of_disjoint, hf.mepc_saveRegs]
  rw [hf.past_eq (by decide), hf.past_eq (by decide)]
  unfold MEPC_OFFSET MCAUSE_OFFSET
  omega

theorem mcause_saveFrame (_ : FrameAt t f) : word (saveFrame m f reg mepc mcause) (past f MCAUSE_OFFSET) = mcause :=
  word_storeWord

theorem past_spare (hf : FrameAt t f) (hk : k ≤ 4) (hr : r ∈ [Reg.a1, .a2, .a3, .a4]) :
    past f (spare k r) = f.toNat + spare k r ∧
      TEMPORARY_SPACE_OFFSET + 8 * k ≤ spare k r ∧ spare k r + 8 ≤ TEMPORARY_SPACE_OFFSET + 8 * k + 32 := by
  have hidx := List.idxOf_lt_length_of_mem hr
  simp only [List.length_cons, List.length_nil] at hidx
  have hlow : TEMPORARY_SPACE_OFFSET + 8 * k ≤ spare k r := by
    rw [spare]
    omega
  have hhigh : spare k r + 8 ≤ TEMPORARY_SPACE_OFFSET + 8 * k + 32 := by
    rw [spare]
    omega
  refine ⟨hf.past_eq ?_, hlow, hhigh⟩
  unfold TEMPORARY_SPACE_OFFSET PGSIZE at *
  omega

theorem spared_same (hf : FrameAt t f) (hm : h.csr .mscratch = f) (hk : k ≤ 4) :
    Memory.Same h.mem (spared k h) fun x => x < f.toNat + (TEMPORARY_SPACE_OFFSET + 8 * k) ∨
      f.toNat + (TEMPORARY_SPACE_OFFSET + 8 * k + 32) ≤ x := by
  intro x hx
  rw [spared, hm]
  apply Riscv.storeAll_same
  intro r hr
  obtain ⟨heq, hlow, hhigh⟩ := hf.past_spare hk hr
  omega

theorem word_spared (hf : FrameAt t f) (hm : h.csr .mscratch = f) (hk : k ≤ 4)
    (hr : r ∈ [Reg.a1, .a2, .a3, .a4]) : word (spared k h) (past f (spare k r)) = h.reg r := by
  rw [spared, hm]
  refine word_storeAll ?_ hr
  intro r hr s hs hne
  have hidx : [Reg.a1, .a2, .a3, .a4].idxOf r ≠ [Reg.a1, .a2, .a3, .a4].idxOf s :=
    fun heq => hne ((List.idxOf_inj hr).mp heq)
  rw [(hf.past_spare hk hr).1, (hf.past_spare hk hs).1, spare, spare]
  omega

/-- Memory after a timer handler: four words of the frame are used, and `mtime_cmp` is one
interval on. -/
def tick (t : Linked) (k : ℕ) (h : Hart) : Memory :=
  storeWord (spared k h) (CLINT_MTIMECMP 0)
    (word h.mem (CLINT_MTIMECMP 0) + word h.mem ((t.addr .time_scratch).toNat + 8))

/-- A timer handler leaves the registers as they were. -/
theorem run_timer (hf : FrameAt t f) (hm : h.csr .mscratch = f) (hk : k ≤ 4)
    (hts : word h.mem (t.addr .time_scratch).toNat = BitVec.ofNat 64 (CLINT_MTIMECMP 0)) :
    run t.addr (timer_handler k next) h = { h with pc := t.addr next, mem := tick t k h } := by
  have hlow := hf.low
  have hscratch := t.scratch_low
  have hhigh := t.scratch_high
  have hcmp : CLINT_MTIMECMP 0 + 8 ≤ KERNEL_BASE := by decide
  have hend : MEMORY_END < 2 ^ 64 := by decide
  have hpast : ∀ o ≤ 8, past (t.addr .time_scratch) o = (t.addr .time_scratch).toNat + o :=
    fun o ho => Riscv.past_eq (by omega)
  have hsame := hf.spared_same (h := h) hm hk
  have hts' : word (spared k h) (past (t.addr .time_scratch) 0) = BitVec.ofNat 64 (CLINT_MTIMECMP 0) := by
    rw [hpast 0 (by omega), word_congr hsame (fun x _ _ => by omega), Nat.add_zero, hts]
  have haddr : past (BitVec.ofNat 64 (CLINT_MTIMECMP 0)) 0 = CLINT_MTIMECMP 0 := by decide
  have hmem : storeWord (spared k h) (CLINT_MTIMECMP 0) (word (spared k h) (CLINT_MTIMECMP 0) +
      word (spared k h) (past (t.addr .time_scratch) 8)) = tick t k h := by
    rw [tick, hpast 8 (by omega), word_congr hsame (fun x _ _ => by omega),
      word_congr hsame (fun x _ _ => by omega)]
  rw [Kernel.run_timer]
  simp only [hts', haddr, hmem]
  congr 1
  funext r
  split_ifs with hr
  · obtain ⟨heq, hlow', hhigh'⟩ := hf.past_spare hk hr
    rw [hm, tick, word_storeWord_of_disjoint (by omega), hf.word_spared hm hk hr]
  · rfl

theorem tick_same (hf : FrameAt t f) (hm : h.csr .mscratch = f) (hk : k ≤ 4) :
    Memory.Same h.mem (tick t k h) fun x =>
      (x < f.toNat + (TEMPORARY_SPACE_OFFSET + 8 * k) ∨
        f.toNat + (TEMPORARY_SPACE_OFFSET + 8 * k + 32) ≤ x) ∧
      (x < CLINT_MTIMECMP 0 ∨ CLINT_MTIMECMP 0 + 8 ≤ x) := by
  intro x hx
  rw [tick, storeWord_same x hx.2, hf.spared_same hm hk x hx.1]

end FrameAt

end OrangeOs.Kernel
