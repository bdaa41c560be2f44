import OrangeOs.Kernel.Traps

/-! # Interrupts in the kernel

The kernel is interrupted on its own stack. `kernel_intr_hander` saves what the calling convention does not,
calls `ProcessKernelTrap`, which may be away for long, and goes back to the instruction at which the interrupt
came. Nothing is assumed of `ProcessKernelTrap` but the calling convention.
-/

namespace OrangeOs.Kernel

open Riscv RegFrame

variable {t : Linked} {h h₁ h₂ : Hart} {c : Cause} {f tval : Word} {k : ℕ} {l : Label}

/-- The registers that a function leaves as they were. -/
def callee_saved : List Reg := [.sp, .s0, .s1, .s2, .s3, .s4, .s5, .s6, .s7, .s8, .s9, .s10, .s11]

/-- The size of what `kernel_intr_hander` puts on the stack. -/
def INTR_SIZE : ℕ := 152

theorem kernel_intr_eq : kernel_intr_hander =
    .addi .sp .sp (-152) :: (saves (slot caller_saved) .sp caller_saved ++
      [.csrr .t0 .mepc, .sd .t0 (18 * 8) .sp, .call .ProcessKernelTrap .kernel_intr_return]) := rfl

theorem kernel_return_eq : kernel_intr_return =
    [.ld .t0 (18 * 8) .sp, .csrw .mepc .t0] ++ (loads (slot caller_saved) .sp caller_saved ++
      [.addi .sp .sp 152, .mret]) := rfl

/-- The stack with the interrupted code's registers and its address. -/
def saveIntr (h : Hart) (pc : Word) : Memory :=
  storeWord (storeAll h.mem (h.reg .sp + BitVec.ofInt 64 (-152)) (slot caller_saved) h.reg caller_saved)
    (past (h.reg .sp + BitVec.ofInt 64 (-152)) (18 * 8)) pc

theorem run_kernel_intr {addr : Label → Word} : run addr kernel_intr_hander h =
    { h with
      reg := Function.update (Function.update (Function.update h.reg .sp
        (h.reg .sp + BitVec.ofInt 64 (-152))) .t0 (h.csr .mepc)) .ra (addr .kernel_intr_return)
      pc := addr .ProcessKernelTrap
      mem := saveIntr h (h.csr .mepc) } := by
  have hmem : storeAll h.mem (h.reg .sp + BitVec.ofInt 64 (-152)) (slot caller_saved) h.reg caller_saved =
      storeAll h.mem (h.reg .sp + BitVec.ofInt 64 (-152)) (slot caller_saved)
        (Function.update h.reg .sp (h.reg .sp + BitVec.ofInt 64 (-152))) caller_saved :=
    storeAll_congr fun r hr => (Function.update_of_ne (by rintro rfl; simp [caller_saved] at hr) _ _).symm
  rw [kernel_intr_eq, run_cons, run_append, run_saves, saveIntr, hmem]
  simp only [run_cons, run_nil, Instr.exec, Hart.set]
  congr 1

theorem run_kernel_return {addr : Label → Word} : run addr kernel_intr_return h =
    { h with
      reg := fun r => if r = .sp then h.reg .sp + 152 else
        if r ∈ caller_saved then word h.mem (past (h.reg .sp) (slot caller_saved r)) else h.reg r
      csr := Function.update h.csr .mepc (word h.mem (past (h.reg .sp) (18 * 8)))
      pc := word h.mem (past (h.reg .sp) (18 * 8))
      mode := h.mpp
      mie := h.mpie
      mpie := true
      mpp := .user } := by
  rw [kernel_return_eq, run_append, run_append, run_loads (by decide)]
  simp only [run_cons, run_nil, Instr.exec, Hart.set, Hart.setCsr]
  congr 1
  funext r
  cases r <;> rfl

/-- The kernel's stack, with room for an interrupt. -/
structure Stacked (h : Hart) : Prop where
  low : KERNEL_BASE + INTR_SIZE ≤ (h.reg .sp).toNat
  high : (h.reg .sp).toNat ≤ MEMORY_END

/-- What `kernel_timer_handler` relies on: `mscratch` holds the frame of the process that ran last. -/
structure Ticking (t : Linked) (h : Hart) : Prop where
  place : FrameAt t (h.csr .mscratch)
  scratch : word h.mem (t.addr .time_scratch).toNat = BitVec.ofNat 64 (CLINT_MTIMECMP 0)

/-- The call of `ProcessKernelTrap` returns. It follows the calling convention, and it sets `mpp` and `mpie`
at its end, or leaves them alone where no process is on the hart. -/
structure Returned (h h' : Hart) : Prop where
  pc : h'.pc = h.reg .ra
  saved : ∀ r ∈ callee_saved, h'.reg r = h.reg r
  stack : Memory.Same h.mem h'.mem fun x =>
    (h.reg .sp).toNat ≤ x ∧ x < (h.reg .sp).toNat + INTR_SIZE
  mode : h'.mode = h.mode
  status : h'.mpp = .machine ∧ h'.mpie = true ∨ h'.mpp = h.mpp ∧ h'.mpie = h.mpie

namespace Stacked

theorem toNat_sp (hs : Stacked h) :
    (h.reg .sp + BitVec.ofInt 64 (-152)).toNat = (h.reg .sp).toNat - INTR_SIZE := by
  have hneg : (BitVec.ofInt 64 (-152)).toNat = 2 ^ 64 - 152 := by decide
  have hlow := hs.low
  have := (h.reg .sp).isLt
  rw [BitVec.toNat_add, hneg]
  unfold INTR_SIZE KERNEL_BASE at *
  omega

theorem add_sub (h : Hart) : h.reg .sp + BitVec.ofInt 64 (-152) + 152 = h.reg .sp := by
  have hzero : BitVec.ofInt 64 (-152) + 152 = 0 := by decide
  rw [add_assoc, hzero, add_zero]

theorem fits (hs : Stacked h) :
    (h.reg .sp + BitVec.ofInt 64 (-152)).toNat + INTR_SIZE ≤ 2 ^ 64 := by
  have hlow := hs.low
  have hhigh := hs.high
  have hend : MEMORY_END < 2 ^ 64 := by decide
  rw [hs.toNat_sp]
  omega

theorem past_sp {o : ℕ} (hs : Stacked h) (ho : o < INTR_SIZE) :
    past (h.reg .sp + BitVec.ofInt 64 (-152)) o = (h.reg .sp).toNat - INTR_SIZE + o := by
  rw [past_eq (by have := hs.fits; omega), hs.toNat_sp]

theorem slot_lt {r : Reg} (hr : r ∈ caller_saved) : slot caller_saved r + 8 ≤ 18 * 8 := Riscv.slot_lt hr

/-- What is on the stack after the pushes. -/
theorem word_saveIntr (hs : Stacked h) {r : Reg} (hr : r ∈ caller_saved) {pc : Word} :
    word (saveIntr h pc) (past (h.reg .sp + BitVec.ofInt 64 (-152)) (slot caller_saved r)) = h.reg r := by
  have hlt := slot_lt hr
  have hfit := hs.fits
  have hlen : 8 * caller_saved.length ≤ INTR_SIZE := by decide
  rw [saveIntr, word_storeWord_of_disjoint]
  · exact word_storeAll (fun r hr s hs' hne => slot_apart (by omega) hr hs' hne) hr
  · rw [hs.past_sp (by unfold INTR_SIZE; omega), hs.past_sp (by unfold INTR_SIZE; omega)]
    omega

theorem saveIntr_same (hs : Stacked h) {pc : Word} : Memory.Same h.mem (saveIntr h pc) fun x =>
    x < (h.reg .sp).toNat - INTR_SIZE ∨ (h.reg .sp).toNat ≤ x := by
  have hlow := hs.low
  intro x hx
  rw [saveIntr, hs.past_sp (by decide), storeWord_same x (by unfold INTR_SIZE at *; omega)]
  apply storeAll_same
  intro r hr
  have := slot_lt hr
  rw [hs.past_sp (by unfold INTR_SIZE; omega)]
  unfold INTR_SIZE at *
  omega

end Stacked

/-- What an interrupt of the kernel writes, apart from what `ProcessKernelTrap` does. -/
def Untouched (h : Hart) (c : Cause) (x : ℕ) : Prop :=
  (x < (h.reg .sp).toNat - INTR_SIZE ∨ (h.reg .sp).toNat ≤ x) ∧
  (c = .interrupt 7 →
    (x < (h.csr .mscratch).toNat + (TEMPORARY_SPACE_OFFSET + 32) ∨
      (h.csr .mscratch).toNat + (TEMPORARY_SPACE_OFFSET + 64) ≤ x) ∧
    (x < CLINT_MTIMECMP 0 ∨ CLINT_MTIMECMP 0 + 8 ≤ x))

/-- The hart in `ProcessKernelTrap`, called with interrupts off. -/
structure Called (t : Linked) (h : Hart) (c : Cause) (h' : Hart) : Prop where
  pc : h'.pc = t.addr .ProcessKernelTrap
  ra : h'.reg .ra = t.addr .kernel_intr_return
  sp : h'.reg .sp = h.reg .sp + BitVec.ofInt 64 (-152)
  saved : ∀ r ∈ callee_saved, r ≠ .sp → h'.reg r = h.reg r
  mode : h'.mode = .machine
  mpp : h'.mpp = h.mode
  mie : h'.mie = false
  mpie : h'.mpie = h.mie
  regs : ∀ r ∈ caller_saved, word h'.mem (past (h'.reg .sp) (slot caller_saved r)) = h.reg r
  mepc : word h'.mem (past (h'.reg .sp) (18 * 8)) = h.pc
  same : Memory.Same h.mem h'.mem (Untouched h c)

namespace Linked

theorem go_intr {n : ℕ} (hpc : h.pc = t.addr .kernel_intr_hander) :
    t.text.go (n + 1) h = run t.addr kernel_intr_hander h := by
  rw [go_block hpc rfl, Text.go_outside]
  rintro l hl
  rw [run_kernel_intr]
  exact not_code (by decide) l hl

/-- What `kernel_intr_hander` does, with the registers and the control registers of the trap. -/
theorem called_intr {g : Hart} (hs : Stacked h) (hreg : g.reg = h.reg) (hcsr : g.csr .mepc = h.pc)
    (hmode : g.mode = .machine) (hmpp : g.mpp = h.mode) (hmie : g.mie = false) (hmpie : g.mpie = h.mie)
    (hsame : Memory.Same h.mem g.mem (Untouched h c)) : Called t h c (run t.addr kernel_intr_hander g) := by
  have hg : Stacked g := ⟨hreg ▸ hs.low, hreg ▸ hs.high⟩
  have hsp : (run t.addr kernel_intr_hander g).reg .sp = g.reg .sp + BitVec.ofInt 64 (-152) := by
    rw [run_kernel_intr]
    rfl
  have hmem : (run t.addr kernel_intr_hander g).mem = saveIntr g (g.csr .mepc) := by
    rw [run_kernel_intr]
  constructor
  case pc => rw [run_kernel_intr]
  case ra =>
    rw [run_kernel_intr]
    simp only [Function.update_self]
  case sp => rw [hsp, hreg]
  case saved =>
    intro r hr hne
    have hra : r ≠ .ra := by rintro rfl; simp [callee_saved] at hr
    have ht0 : r ≠ .t0 := by rintro rfl; simp [callee_saved] at hr
    rw [run_kernel_intr]
    simp only [Function.update_of_ne hra, Function.update_of_ne ht0, Function.update_of_ne hne, hreg]
  case mode => rw [run_kernel_intr, hmode]
  case mpp => rw [run_kernel_intr, hmpp]
  case mie => rw [run_kernel_intr, hmie]
  case mpie => rw [run_kernel_intr, hmpie]
  case regs =>
    intro r hr
    rw [hmem, hsp, hg.word_saveIntr hr, hreg]
  case mepc =>
    rw [hmem, hsp, saveIntr, word_storeWord, hcsr]
  case same =>
    intro x hx
    rw [hmem, hg.saveIntr_same x (hreg ▸ hx.1)]
    exact hsame x hx

theorem enter_kernel (hs : Stacked h) (hv : h.csr .mtvec = t.addr (.kernel_exception_table 0) + 1)
    (hc : c = .interrupt 7 ∧ Ticking t h ∨ c = .interrupt 11) :
    Called t h c (t.text.go 4 (h.trap c tval)) := by
  rcases hc with ⟨rfl, htick⟩ | rfl
  · let h₁ : Hart := { h.trap (.interrupt 7) tval with pc := t.addr .kernel_timer_handler }
    have hts₁ : word h₁.mem (t.addr .time_scratch).toNat = BitVec.ofNat 64 (CLINT_MTIMECMP 0) :=
      htick.scratch
    have hpc : (h.trap (.interrupt 7) tval).pc = t.addr (.kernel_exception_table 7) := by
      change (Cause.interrupt 7).vector (h.csr .mtvec) = _
      rw [hv]
      exact vector_entry t.kernel_align (t.kernel_entry 7)
    have hentry : t.text.go 4 (h.trap (.interrupt 7) tval) = t.text.go 3 h₁ := go_block hpc rfl
    have hhandler : t.text.go 3 h₁ = t.text.go 2 (run t.addr kernel_timer_handler h₁) :=
      go_block (l := .kernel_timer_handler) rfl rfl
    have htimer : run t.addr kernel_timer_handler h₁ =
        { h₁ with pc := t.addr .kernel_intr_hander, mem := FrameAt.tick t 4 h₁ } :=
      htick.place.run_timer rfl (by omega) hts₁
    rw [hentry, hhandler, htimer, go_intr rfl]
    refine called_intr hs rfl rfl rfl rfl rfl rfl fun x hx => ?_
    exact htick.place.tick_same (h := h₁) rfl (by omega) x (hx.2 rfl)
  · have hpc : (h.trap (.interrupt 11) tval).pc = t.addr (.kernel_exception_table 11) := by
      change (Cause.interrupt 11).vector (h.csr .mtvec) = _
      rw [hv]
      exact vector_entry t.kernel_align (t.kernel_entry 11)
    have hentry : t.text.go 4 (h.trap (.interrupt 11) tval) =
        t.text.go 3 { h.trap (.interrupt 11) tval with pc := t.addr .kernel_intr_hander } :=
      go_block hpc rfl
    rw [hentry, go_intr rfl]
    exact called_intr hs rfl rfl rfl rfl rfl rfl (Memory.Same.refl _ _)

/-- The way back. -/
theorem resume_kernel (hs : Stacked h) (hm : h.mode = .machine) (hi : h.mie = true)
    (hcall : Called t h c h₁) (hret : Returned h₁ h₂) : t.text.go 1 h₂ =
      { h₂ with reg := h.reg, csr := Function.update h₂.csr .mepc h.pc, pc := h.pc, mode := .machine,
                mie := true, mpie := true, mpp := .user } := by
  have hsp : h₂.reg .sp = h₁.reg .sp := hret.saved .sp (by decide)
  have hbound : (h₁.reg .sp).toNat + INTR_SIZE ≤ 2 ^ 64 := by
    rw [hcall.sp]
    exact hs.fits
  have hstack : ∀ o, o + 8 ≤ INTR_SIZE → word h₂.mem (past (h₂.reg .sp) o) = word h₁.mem (past (h₁.reg .sp) o) := by
    intro o ho
    rw [hsp, past_eq (by omega)]
    exact word_congr hret.stack fun x hx hx' => ⟨by omega, by omega⟩
  have hstatus : h₂.mpp = .machine ∧ h₂.mpie = true := by
    rcases hret.status with hst | ⟨hmpp, hmpie⟩
    · exact hst
    · exact ⟨hmpp.trans (hcall.mpp.trans hm), hmpie.trans (hcall.mpie.trans hi)⟩
  obtain ⟨hmpp, hmpie⟩ := hstatus
  have hgo : t.text.go 1 h₂ = run t.addr kernel_intr_return h₂ :=
    go_block (l := .kernel_intr_return) (hret.pc.trans hcall.ra) rfl
  rw [hgo, run_kernel_return, hstack _ (by decide), hcall.mepc, hmpp, hmpie]
  congr 1
  funext r
  split_ifs with hr hr'
  · rw [hr, hsp, hcall.sp, Stacked.add_sub]
  · have hlt := Stacked.slot_lt hr'
    rw [hstack _ (by unfold INTR_SIZE; omega), hcall.regs r hr']
  · have hr'' : r ∈ callee_saved := by
      revert hr hr'
      cases r <;> decide
    rw [hret.saved r hr'', hcall.saved r hr'' hr]

end Linked

/-- Code of the kernel that an interrupt stops at any instruction goes on there with all its registers and
with interrupts on, however long `ProcessKernelTrap` was away, and with the memory that it left. Before
the call nothing is written but the stack below, the words that the timer handler borrows, and
`mtime_cmp`. -/
theorem kernel_interrupt_transparent (hs : Stacked h) (hm : h.mode = .machine) (hi : h.mie = true)
    (hv : h.csr .mtvec = t.addr (.kernel_exception_table 0) + 1)
    (hc : c = .interrupt 7 ∧ Ticking t h ∨ c = .interrupt 11)
    (hret : Returned (t.text.go 4 (h.trap c tval)) h₂) :
    (t.text.go 1 h₂).reg = h.reg ∧ (t.text.go 1 h₂).pc = h.pc ∧ (t.text.go 1 h₂).mode = .machine ∧
      (t.text.go 1 h₂).mie = true ∧ (t.text.go 1 h₂).mem = h₂.mem ∧
      Memory.Same h.mem (t.text.go 4 (h.trap c tval)).mem (Untouched h c) := by
  have hcall : Called t h c (t.text.go 4 (h.trap c tval)) := Linked.enter_kernel hs hv hc
  rw [Linked.resume_kernel hs hm hi hcall hret]
  exact ⟨rfl, rfl, rfl, rfl, rfl, hcall.same⟩

/-- The hart in `Dispatch`, with a process that has run. -/
def dispatching : Hart where
  reg := fun _ => 0x80200000
  csr := fun csr => match csr with
    | .mtvec => Trap.linked.kernelVector
    | _ => 0x80100000
  mode := .machine
  mpp := .user
  mpie := true
  mie := true
  pc := 0x80003000
  mem := storeWord (fun _ => 0) 0x80030000 (BitVec.ofNat 64 (CLINT_MTIMECMP 0))

theorem kernel_interrupt_transparent_dispatching : ∃ h₂ : Hart,
    (Trap.linked.text.go 1 h₂).reg = dispatching.reg ∧
      (Trap.linked.text.go 1 h₂).pc = dispatching.pc := by
  have hs : Stacked dispatching := ⟨by decide, by decide⟩
  have htick : Ticking Trap.linked dispatching := ⟨⟨by decide, by decide, by decide⟩, word_storeWord⟩
  have hret : Returned (Trap.linked.text.go 4 (dispatching.trap (.interrupt 7) 0))
      { Trap.linked.text.go 4 (dispatching.trap (.interrupt 7) 0) with
        pc := (Trap.linked.text.go 4 (dispatching.trap (.interrupt 7) 0)).reg .ra } :=
    ⟨rfl, fun _ _ => rfl, Memory.Same.refl _ _, rfl, .inr ⟨rfl, rfl⟩⟩
  obtain ⟨hreg, hpc, -⟩ := kernel_interrupt_transparent hs rfl rfl rfl (.inl ⟨rfl, htick⟩) hret
  exact ⟨_, hreg, hpc⟩

end OrangeOs.Kernel
