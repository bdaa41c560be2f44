import OrangeOs.Kernel.ContextSwitch
import OrangeOs.Kernel.Scheduler

/-! # Traps

A program in user mode runs on the registers of the hart. A trap puts them into its frame, the kernel
works, for this process and for others, and `TrapRet` takes the registers of some process from its frame.
So each process has registers of its own, which nothing changes but its program and what the kernel does
for it by name.
-/

namespace OrangeOs.Kernel

open Riscv RegFrame

/-! ## From the trap to `ProcessUserTrap` -/

/-- The causes that the enabled interrupts and the exceptions of a program have. -/
def Deliverable : Cause → Prop
  | .exception code => code < 2 ^ 63
  | .interrupt code => code = 7 ∨ code = 11

/-- The hart in `ProcessUserTrap` after a trap of the program whose frame is at `f`. -/
structure Entered (t : Linked) (h : Hart) (c : Cause) (f : Word) (h' : Hart) : Prop where
  pc : h'.pc = t.addr .ProcessUserTrap
  mode : h'.mode = .machine
  mpp : h'.mpp = h.mode
  mie : h'.mie = false
  mscratch : h'.csr .mscratch = f
  mtvec : h'.csr .mtvec = t.addr (.kernel_exception_table 0) + 1
  sp : h'.reg .sp = word h.mem (past f KERNEL_SP_OFFSET)
  frame : ∀ r, word h'.mem (past f (offset r)) = h.reg r
  mepc : word h'.mem (past f MEPC_OFFSET) = h.pc
  mcause : word h'.mem (past f MCAUSE_OFFSET) = c.word
  clock : word h'.mem (CLINT_MTIMECMP 0) =
    word h.mem (CLINT_MTIMECMP 0) +
      if c = .interrupt 7 then word h.mem ((t.addr .time_scratch).toNat + 8) else 0
  same : Memory.Same h.mem h'.mem fun x =>
    (x < f.toNat ∨ f.toNat + KERNEL_SP_OFFSET ≤ x ∧ x < f.toNat + TEMPORARY_SPACE_OFFSET ∨
      f.toNat + (TEMPORARY_SPACE_OFFSET + 32) ≤ x) ∧
    (x < CLINT_MTIMECMP 0 ∨ CLINT_MTIMECMP 0 + 8 ≤ x)

namespace Linked

variable {t : Linked} {h : Hart} {c : Cause} {f tval : Word} {k : ℕ} {l : Label}

theorem toNat_add_one {a : Word} (ha : a.toNat % 2 ^ 16 = 0) : (a + 1).toNat = a.toNat + 1 := by
  have hone : (1 : Word).toNat = 1 := rfl
  have := a.isLt
  rw [BitVec.toNat_add, hone]
  omega

/-- With the low bit of `mtvec` set, an interrupt goes to its entry of the table. -/
theorem vector_entry {a b : Word} (ha : a.toNat % 2 ^ 16 = 0) (hb : b.toNat = a.toNat + 4 * k) :
    (Cause.interrupt k).vector (a + 1) = b := by
  have hbase : (a.toNat + 1) / 4 * 4 = a.toNat := by omega
  rw [Cause.vector, toNat_add_one ha, if_pos (by omega), hbase, ← hb, BitVec.ofNat_toNat,
    BitVec.setWidth_eq]

theorem vector_exception : (Cause.exception k).vector (t.addr (.user_exception_table 0) + 1) =
    t.addr (.user_exception_table 0) := by
  have halign := t.user_align
  have hbase : ((t.addr (.user_exception_table 0)).toNat + 1) / 4 * 4 =
      (t.addr (.user_exception_table 0)).toNat := by omega
  rw [Cause.vector, toNat_add_one halign, hbase, BitVec.ofNat_toNat, BitVec.setWidth_eq]

theorem vector_interrupt (k : Fin 12) :
    (Cause.interrupt k).vector (t.addr (.user_exception_table 0) + 1) =
      t.addr (.user_exception_table k) := vector_entry t.user_align (t.user_entry k)

theorem isSome_block : ∀ {l : Label}, l ∈ codeLabels → (block l).isSome := by
  decide

theorem not_code (hl : l ∉ codeLabels) (l' : Label) (hl' : l' ∈ codeLabels) : t.addr l' ≠ t.addr l := by
  intro heq
  have hb : (block l').isSome := isSome_block hl'
  obtain ⟨c, hc⟩ := Option.isSome_iff_exists.mp hb
  exact hl (t.inj hc heq.symm ▸ hl')

theorem go_block {b : List (Instr Label)} {n : ℕ} (hpc : h.pc = t.addr l) (hb : block l = some b) :
    t.text.go (n + 1) h = t.text.go n (run t.addr b h) :=
  Text.go_block (t := t.text) hpc hb

theorem go_preserve {n : ℕ} (hpc : h.pc = t.addr .preserve_user_context) :
    t.text.go (n + 1) h = run t.addr preserve_user_context h := by
  rw [go_block hpc rfl, Text.go_outside]
  · rintro l hl
    rw [run_preserve]
    exact not_code (by decide) l hl

/-- What `preserve_user_context` leaves, after a trap with or without a tick. -/
theorem entered_preserve {m : Memory} (hf : FrameAt t f) (hm : h.csr .mscratch = f)
    (hsp : word m (past f KERNEL_SP_OFFSET) = word h.mem (past f KERNEL_SP_OFFSET))
    (hsame : Memory.Same h.mem m fun x =>
      (x < f.toNat + TEMPORARY_SPACE_OFFSET ∨ f.toNat + (TEMPORARY_SPACE_OFFSET + 32) ≤ x) ∧
      (x < CLINT_MTIMECMP 0 ∨ CLINT_MTIMECMP 0 + 8 ≤ x))
    (hclock : word m (CLINT_MTIMECMP 0) = word h.mem (CLINT_MTIMECMP 0) +
      if c = .interrupt 7 then word h.mem ((t.addr .time_scratch).toNat + 8) else 0) (pc : Word) :
    Entered t h c f (run t.addr preserve_user_context { h.trap c tval with pc := pc, mem := m }) := by
  have hm' : (h.trap c tval).csr .mscratch = f := hm
  have hcmp : CLINT_MTIMECMP 0 + 8 ≤ KERNEL_BASE := by decide
  have hlow := hf.low
  have hscratch := t.scratch_low
  have hspace : KERNEL_SP_OFFSET + 8 ≤ TEMPORARY_SPACE_OFFSET := by decide
  rw [run_preserve]
  simp only [hm']
  constructor
  case pc => rfl
  case mode => rfl
  case mpp => rfl
  case mie => rfl
  case mscratch => exact hm
  case mtvec => rfl
  case frame =>
    intro r
    exact hf.word_saveFrame r
  case mepc => exact hf.mepc_saveFrame
  case mcause => exact hf.mcause_saveFrame
  case clock =>
    rw [word_congr hf.saveFrame_same fun x _ _ => by omega, hclock]
  case same =>
    intro x hx
    exact (hf.saveFrame_same x (by omega)).trans (hsame x ⟨by omega, hx.2⟩)
  case sp =>
    show word (storeAll m f offset h.reg registers) (past f KERNEL_SP_OFFSET) = _
    rw [← hsp]
    refine word_congr hf.storeAll_same fun x hx _ => .inr ?_
    rw [hf.past_eq (by decide)] at hx
    exact le_trans (Nat.add_le_add_left (by decide) _) hx

/-- After the entry for the cause there is only `preserve_user_context`. -/
theorem enter_straight {n : ℕ} (hf : FrameAt t f) (hm : h.csr .mscratch = f)
    (hb : block l = some [.j .preserve_user_context]) (hpc : c.vector (h.csr .mtvec) = t.addr l)
    (hne : c ≠ .interrupt 7) : Entered t h c f (t.text.go (n + 2) (h.trap c tval)) := by
  have hentry : t.text.go (n + 2) (h.trap c tval) =
      t.text.go (n + 1) { h.trap c tval with pc := t.addr .preserve_user_context } :=
    go_block hpc hb
  rw [hentry, go_preserve rfl]
  refine entered_preserve hf hm rfl (Memory.Same.refl _ _) ?_ _
  rw [if_neg hne]
  exact (add_zero _).symm

/-- Or there is the timer handler before it. -/
theorem enter_timer {n : ℕ} (hf : FrameAt t f) (hm : h.csr .mscratch = f)
    (hts : word h.mem (t.addr .time_scratch).toNat = BitVec.ofNat 64 (CLINT_MTIMECMP 0))
    (hpc : (Cause.interrupt 7).vector (h.csr .mtvec) = t.addr (.user_exception_table 7)) :
    Entered t h (.interrupt 7) f (t.text.go (n + 3) (h.trap (.interrupt 7) tval)) := by
  have hb : block (.user_exception_table 7) = some [.j .user_timer_handler] := rfl
  let h₁ : Hart := { h.trap (.interrupt 7) tval with pc := t.addr .user_timer_handler }
  have hm₁ : h₁.csr .mscratch = f := hm
  have hts₁ : word h₁.mem (t.addr .time_scratch).toNat = BitVec.ofNat 64 (CLINT_MTIMECMP 0) := hts
  have hentry : t.text.go (n + 3) (h.trap (.interrupt 7) tval) = t.text.go (n + 2) h₁ :=
    go_block hpc hb
  have hhandler : t.text.go (n + 2) h₁ = t.text.go (n + 1) (run t.addr user_timer_handler h₁) :=
    go_block (l := .user_timer_handler) rfl rfl
  have hcmp : CLINT_MTIMECMP 0 + 8 ≤ KERNEL_BASE := by decide
  have hspace : KERNEL_SP_OFFSET + 8 ≤ TEMPORARY_SPACE_OFFSET := by decide
  have hlow := hf.low
  have hscratch := t.scratch_low
  have hsame := hf.tick_same hm₁ (k := 0) (Nat.zero_le _)
  rw [hentry, hhandler, user_timer_handler, hf.run_timer hm₁ (Nat.zero_le _) hts₁, go_preserve rfl]
  refine entered_preserve hf hm ?_ hsame ?_ _
  · refine word_congr hsame ?_
    intro x hx hx'
    rw [hf.past_eq (by decide)] at hx hx'
    omega
  · rw [FrameAt.tick, word_storeWord, if_pos rfl]
    rfl

/-- Every trap of a program ends in `ProcessUserTrap`. -/
theorem enter (hf : FrameAt t f) (hm : h.csr .mscratch = f)
    (hv : h.csr .mtvec = t.addr (.user_exception_table 0) + 1)
    (hts : word h.mem (t.addr .time_scratch).toNat = BitVec.ofNat 64 (CLINT_MTIMECMP 0))
    (hc : Deliverable c) : Entered t h c f (t.text.go 4 (h.trap c tval)) := by
  cases c with
  | exception code =>
    refine enter_straight hf hm (l := .user_exception_table 0) rfl ?_ (by simp)
    rw [hv, vector_exception]
  | interrupt code =>
    rcases hc with rfl | rfl
    · apply enter_timer hf hm hts
      rw [hv]
      exact vector_interrupt 7
    · refine enter_straight hf hm (l := .user_exception_table 11) rfl ?_ (by simp)
      rw [hv]
      exact vector_interrupt 11

end Linked

/-! ## What the kernel does about a trap -/

/-- `EXCEPTION_MASK`. -/
def EXCEPTION_MASK : Word := 1 <<< 63

/-- What `ProcessUserTrap` turns to. -/
inductive Handling where
  | timer
  | external
  | syscall
  | fault
  | panic
  deriving DecidableEq, Repr

/-- `ProcessInterrupt`, by `RegFrame::interrunpt`. -/
def processInterrupt (mcause : Word) : Handling :=
  match (mcause &&& 0xff).toNat with
  | 7 => .timer
  | 11 => .external
  | _ => .panic

/-- `ProcessException`, by `RegFrame::exception`: system calls, then page faults of loads and stores. -/
def processException (mcause : Word) : Handling :=
  match (mcause &&& 0xff).toNat with
  | 8 => .syscall
  | 13 => .fault
  | 15 => .fault
  | _ => .panic

def processUserTrap (mcause : Word) : Handling :=
  if mcause &&& EXCEPTION_MASK ≠ 0 then processInterrupt mcause else processException mcause

/-- `TrapRet` of a process with this frame. -/
def trapRet (t : Linked) (h : Hart) (frame : Word) : Hart :=
  let h₁ : Hart := { h with mie := false }
  let h₂ := h₁.setCsr .mepc (word h₁.mem (past frame MEPC_OFFSET))
  let h₃ := h₂.setCsr .mtvec t.userVector
  { h₃.set .a0 frame with mpp := .user, mpie := false, pc := t.addr .restore_user_context }

/-- The program runs again with what is in its frame. -/
theorem leave {t : Linked} {h : Hart} {f : Word} : t.text.go 1 (trapRet t h f) =
    { h with
      reg := fun r => word h.mem (past f (offset r))
      csr := Function.update (Function.update (Function.update h.csr .mepc
          (word h.mem (past f MEPC_OFFSET))) .mtvec (t.addr (.user_exception_table 0) + 1)) .mscratch f
      pc := word h.mem (past f MEPC_OFFSET)
      mode := .user
      mie := false
      mpie := true
      mpp := .user } := by
  have hgo : t.text.go 1 (trapRet t h f) = run t.addr restore_user_context (trapRet t h f) :=
    Linked.go_block (l := .restore_user_context) rfl rfl
  rw [hgo, run_restore]
  rfl

namespace Trap

/-! ## Processes and the hart -/

/-- What a program sees of the hart. -/
structure Cpu where
  reg : Reg → Word
  pc : Word

/-- The frames of the processes, on pages of their own. -/
structure Frames (t : Linked) where
  addr : Slot → Option Word
  place : ∀ {p f}, addr p = some f → FrameAt t f
  inj : ∀ {p q f}, addr p = some f → addr q = some f → p = q

inductive Status where
  | gone
  /-- Its next step is `TrapRet`. -/
  | ready
  | running
  /-- In `ProcessUserTrap`. -/
  | trapped
  /-- In a system call. -/
  | calling
  deriving DecidableEq, Repr

structure Machine (t : Linked) where
  hart : Hart
  frames : Frames t
  /-- The process whose program runs, when the hart is in user mode. -/
  running : Option Slot
  status : Slot → Status

/-- What happens to the processes. `spawn` stands for `AllocProc` with `CopyFrom` or `ExecuteImpl`, `drop`
for `ResetProcess` and `exec` for what `sys_exec` writes to the frame. -/
inductive Event where
  | user (p : Slot) (cpu : Cpu)
  | trap (p : Slot) (c : Cause)
  | interrupted (p : Slot)
  | call (p : Slot)
  | exec (p : Slot) (cpu : Cpu)
  | answer (p : Slot) (result : Word)
  | exit (p : Slot)
  | ret (p : Slot)
  | spawn (p : Slot) (cpu : Cpu)
  | drop (p : Slot)
  | kernel

/-- The part of the frame at `f` in front of `reserved_space`. -/
def Cells (f : Word) (x : ℕ) : Prop := f.toNat ≤ x ∧ x < f.toNat + (KERNEL_SP_OFFSET + 8)

/-- The state of the program in the frame at `f`. -/
def saved (m : Memory) (f : Word) : Cpu := ⟨fun r => word m (past f (offset r)), word m (past f MEPC_OFFSET)⟩

/-- Memory with another state in the frame. -/
def put (m : Memory) (f : Word) (cpu : Cpu) : Memory :=
  saveRegs m f cpu.reg cpu.pc

variable {t : Linked}

/-- The kernel's words that programs and most of the kernel leave alone: the frames of processes, and
`time_scratch`. -/
def Kept (F : Frames t) (m m' : Memory) : Prop :=
  Memory.Same m m' fun x => (∃ p f, F.addr p = some f ∧ Cells f x) ∨
    (t.addr .time_scratch).toNat ≤ x ∧ x < (t.addr .time_scratch).toNat + 8

/-- Code of the kernel has run, with interrupts or without. What it did to frames is in `m`. -/
def Ran (F : Frames t) (m : Memory) (h' : Hart) : Prop := h'.mode = .machine ∧ Kept F m h'.mem

/-- One step. Between two steps of one process in the kernel there can be any of others. -/
inductive Step (s : Machine t) : Event → Machine t → Prop
  | user {p : Slot} {reg : Reg → Word} {pc : Word} {mem : Memory} : s.running = some p →
      Kept s.frames s.hart.mem mem →
      Step s (.user p ⟨reg, pc⟩) { s with hart := { s.hart with reg := reg, pc := pc, mem := mem } }
  | trap {p : Slot} {c : Cause} (tval : Word) : s.running = some p → Deliverable c →
      Step s (.trap p c)
        { s with
          hart := t.text.go 4 (s.hart.trap c tval)
          running := none
          status := Function.update s.status p .trapped }
  | interrupted {p : Slot} {f : Word} {h' : Hart} : s.running = none → s.status p = .trapped →
      s.frames.addr p = some f →
      processUserTrap (word s.hart.mem (past f MCAUSE_OFFSET)) ∈ [Handling.timer, .external] →
      Ran s.frames s.hart.mem h' →
      Step s (.interrupted p) { s with hart := h', status := Function.update s.status p .ready }
  -- `mepc += 4` comes before the call
  | call {p : Slot} {f : Word} {h' : Hart} : s.running = none → s.status p = .trapped →
      s.frames.addr p = some f →
      processUserTrap (word s.hart.mem (past f MCAUSE_OFFSET)) = .syscall →
      Ran s.frames (storeWord s.hart.mem (past f MEPC_OFFSET) (word s.hart.mem (past f MEPC_OFFSET) + 4))
        h' →
      Step s (.call p) { s with hart := h', status := Function.update s.status p .calling }
  -- the frame is that of `tmp_process_task`
  | exec {p : Slot} {f : Word} {cpu : Cpu} {F : Frames t} {h' : Hart} : s.running = none →
      s.status p = .calling → F.addr = Function.update s.frames.addr p (some f) →
      Ran F (put s.hart.mem f cpu) h' → Step s (.exec p cpu) { s with hart := h', frames := F }
  | answer {p : Slot} {f result : Word} {h' : Hart} : s.running = none → s.status p = .calling →
      s.frames.addr p = some f →
      Ran s.frames (storeWord s.hart.mem (past f (offset .a0)) result) h' →
      Step s (.answer p result) { s with hart := h', status := Function.update s.status p .ready }
  | exit {p : Slot} {h' : Hart} : s.running = none → s.status p = .calling →
      Ran s.frames s.hart.mem h' →
      Step s (.exit p) { s with hart := h', status := Function.update s.status p .gone }
  | fault {p : Slot} {f : Word} {h' : Hart} : s.running = none → s.status p = .trapped →
      s.frames.addr p = some f →
      processUserTrap (word s.hart.mem (past f MCAUSE_OFFSET)) = .fault →
      Ran s.frames s.hart.mem h' →
      Step s (.exit p) { s with hart := h', status := Function.update s.status p .gone }
  | ret {p : Slot} {f : Word} : s.running = none → s.status p = .ready → s.frames.addr p = some f →
      Step s (.ret p)
        { s with
          hart := t.text.go 1 (trapRet t s.hart f)
          running := some p
          status := Function.update s.status p .running }
  | spawn {p : Slot} {f : Word} {cpu : Cpu} {F : Frames t} {h' : Hart} : s.running = none →
      s.status p = .gone → s.frames.addr p = none → F.addr = Function.update s.frames.addr p (some f) →
      Ran F (put s.hart.mem f cpu) h' →
      Step s (.spawn p cpu)
        { s with hart := h', frames := F, status := Function.update s.status p .ready }
  | drop {p : Slot} {F : Frames t} {h' : Hart} : s.running = none → s.status p = .gone →
      F.addr = Function.update s.frames.addr p none → Ran F s.hart.mem h' →
      Step s (.drop p) { s with hart := h', frames := F }
  | kernel {h' : Hart} : s.running = none → Ran s.frames s.hart.mem h' →
      Step s .kernel { s with hart := h' }

/-! ## What each program sees -/

/-- The registers of each process, wherever they are. -/
def Machine.view (s : Machine t) (p : Slot) : Option Cpu :=
  (s.frames.addr p).map fun f => if s.running = some p then ⟨s.hart.reg, s.hart.pc⟩ else saved s.hart.mem f

/-- What an event does to processes with registers of their own. -/
def Event.apply (v : Slot → Option Cpu) : Event → Slot → Option Cpu
  | user p cpu => Function.update v p (some cpu)
  | call p => Function.update v p ((v p).map fun c => { c with pc := c.pc + 4 })
  | exec p cpu => Function.update v p (some cpu)
  | answer p result =>
      Function.update v p ((v p).map fun c => { c with reg := Function.update c.reg .a0 result })
  | spawn p cpu => Function.update v p (some cpu)
  | drop p => Function.update v p none
  | _ => v

variable {F : Frames t} {s s' : Machine t} {e : Event} {m m' m₁ : Memory} {f g v : Word} {cpu : Cpu}
  {p q : Slot} {h h' : Hart}

/-- Nothing but the frame at `f` is written. -/
def Touches (f : Word) (m m' : Memory) : Prop := Memory.Same m m' fun x => ¬ Cells f x

theorem saved_congr (hf : FrameAt t f) (h : Memory.Same m m' (Cells f)) : saved m' f = saved m f := by
  have hreg : ∀ r, word m' (past f (offset r)) = word m (past f (offset r)) := fun r => by
    have := FrameAt.offset_lt r
    refine word_congr h fun x hx hx' => ?_
    rw [hf.past_offset] at hx hx'
    unfold MEPC_OFFSET at this
    exact ⟨by omega, by unfold KERNEL_SP_OFFSET; omega⟩
  have hpc : word m' (past f MEPC_OFFSET) = word m (past f MEPC_OFFSET) := by
    refine word_congr h fun x hx hx' => ?_
    rw [hf.past_eq (by decide)] at hx hx'
    unfold MEPC_OFFSET at hx hx'
    exact ⟨by omega, by unfold KERNEL_SP_OFFSET; omega⟩
  rw [saved, saved, hpc]
  simp only [hreg]

theorem mcause_congr (hf : FrameAt t f) (h : Memory.Same m m' (Cells f)) :
    word m' (past f MCAUSE_OFFSET) = word m (past f MCAUSE_OFFSET) := by
  refine word_congr h fun x hx hx' => ?_
  rw [hf.past_eq (by decide)] at hx hx'
  unfold MCAUSE_OFFSET at hx hx'
  exact ⟨by omega, by unfold KERNEL_SP_OFFSET; omega⟩

/-- Two frames have no byte in common. -/
theorem cells_apart (hf : FrameAt t f) (hg : FrameAt t g) (hne : g ≠ f) {x : ℕ} (hx : Cells g x) :
    ¬ Cells f x := by
  have hne' : g.toNat ≠ f.toNat := fun heq => hne (BitVec.eq_of_toNat_eq heq)
  have hfa := hf.aligned
  have hga := hg.aligned
  unfold Cells KERNEL_SP_OFFSET PGSIZE at *
  omega

theorem Touches.other (h : Touches f m m') (hf : FrameAt t f) (hg : FrameAt t g) (hne : g ≠ f) :
    Memory.Same m m' (Cells g) := h.mono fun _ hx => cells_apart hf hg hne hx

theorem Kept.cells (h : Kept F m m') (hp : F.addr p = some f) : Memory.Same m m' (Cells f) :=
  h.mono fun _ hx => .inl ⟨p, f, hp, hx⟩

theorem touches_storeWord (hf : FrameAt t f) {o : ℕ} (ho : o ≤ KERNEL_SP_OFFSET) :
    Touches f m (storeWord m (past f o) v) := by
  refine storeWord_same.mono fun x hx => ?_
  rw [hf.past_eq (by unfold KERNEL_SP_OFFSET at ho; unfold PGSIZE; omega)]
  unfold Cells at hx
  omega

theorem touches_put (hf : FrameAt t f) : Touches f m (put m f cpu) := by
  refine hf.saveRegs_same.mono fun x hx => ?_
  unfold Cells KERNEL_SP_OFFSET at hx
  unfold MCAUSE_OFFSET
  omega

theorem saved_put (hf : FrameAt t f) : saved (put m f cpu) f = cpu := by
  rw [saved, put, hf.mepc_saveRegs]
  simp only [hf.word_saveRegs]

theorem saved_advance (hf : FrameAt t f) :
    saved (storeWord m (past f MEPC_OFFSET) v) f = { saved m f with pc := v } := by
  have hreg : ∀ r, word (storeWord m (past f MEPC_OFFSET) v) (past f (offset r)) =
      word m (past f (offset r)) := fun r => word_storeWord_of_disjoint (.inl hf.mepc_apart)
  rw [saved, word_storeWord]
  simp only [hreg]
  rfl

theorem saved_answer (hf : FrameAt t f) : saved (storeWord m (past f (offset .a0)) v) f =
    { saved m f with reg := Function.update (saved m f).reg .a0 v } := by
  have hreg : (fun r => word (storeWord m (past f (offset .a0)) v) (past f (offset r))) =
      Function.update (saved m f).reg .a0 v := by
    ext1 r
    by_cases hr : r = .a0
    · rw [hr, Function.update_self, word_storeWord]
    · rw [Function.update_of_ne hr, word_storeWord_of_disjoint (hf.offset_apart hr)]
      rfl
  rw [saved, hreg, word_storeWord_of_disjoint (.inr hf.mepc_apart)]
  rfl

/-- What holds of a machine whose hart runs programs and the kernel in turn. -/
structure Machine.Sound (s : Machine t) : Prop where
  scratch : word s.hart.mem (t.addr .time_scratch).toNat = BitVec.ofNat 64 (CLINT_MTIMECMP 0)
  live : ∀ p, s.status p ≠ .gone → ∃ f, s.frames.addr p = some f
  user : ∀ p, s.running = some p → s.status p = .running ∧ s.hart.mode = .user ∧
    s.hart.csr .mtvec = t.addr (.user_exception_table 0) + 1 ∧
    s.frames.addr p = some (s.hart.csr .mscratch)

theorem Kept.scratch (h : Kept F m m') :
    word m' (t.addr .time_scratch).toNat = word m (t.addr .time_scratch).toNat :=
  word_congr h fun _ hx hx' => .inr ⟨hx, hx'⟩

theorem Touches.scratch (h : Touches f m m') (hf : FrameAt t f) :
    word m' (t.addr .time_scratch).toNat = word m (t.addr .time_scratch).toNat := by
  have := hf.low
  refine word_congr h fun x hx hx' hc => ?_
  unfold Cells at hc
  omega

theorem view_none (hrun : s.running = none) :
    s.view = fun q => (s.frames.addr q).map (saved s.hart.mem) := by
  ext1 q
  rw [Machine.view, hrun]
  rfl

theorem Kept.saved_map (h : Kept F m m') (q : Slot) :
    (F.addr q).map (saved m') = (F.addr q).map (saved m) := by
  cases hq : F.addr q with
  | none => rw [Option.map_none, Option.map_none]
  | some g => rw [Option.map_some, Option.map_some, saved_congr (F.place hq) (h.cells hq)]

section Kernel

variable {st : Slot → Status}

/-- The kernel writes the frame of one process, which may be a new one. -/
theorem view_touch (hrun : s.running = none) (hF : F.addr = Function.update s.frames.addr p (some f))
    (ht : Touches f s.hart.mem m₁) (hran : Ran F m₁ h') :
    Machine.view { s with hart := h', frames := F, status := st } =
      Function.update s.view p (some (saved m₁ f)) := by
  have hp : F.addr p = some f := by rw [hF, Function.update_self]
  have hother : ∀ q, q ≠ p → F.addr q = s.frames.addr q := fun q hq => by
    rw [hF, Function.update_of_ne hq]
  rw [view_none (s := { s with hart := h', frames := F, status := st }) hrun, view_none hrun]
  ext1 q
  simp only [hran.2.saved_map]
  by_cases hqp : q = p
  · rw [hqp, hp, Function.update_self, Option.map_some]
  · rw [Function.update_of_ne hqp, ← hother q hqp]
    cases hq : F.addr q with
    | none => rw [Option.map_none, Option.map_none]
    | some g =>
      have hne : g ≠ f := fun hg => hqp (F.inj hq (hg ▸ hp))
      rw [Option.map_some, Option.map_some,
        saved_congr (F.place hq) (ht.other (F.place hp) (F.place hq) hne)]

/-- The kernel writes no frame. -/
theorem view_ran (hrun : s.running = none) (hran : Ran s.frames s.hart.mem h') :
    Machine.view { s with hart := h', status := st } = s.view := by
  rw [view_none (s := { s with hart := h', status := st }) hrun, view_none hrun]
  ext1 q
  exact hran.2.saved_map q

end Kernel

theorem view_of_addr (hrun : s.running = none) (hp : s.frames.addr p = some f) :
    s.view p = some (saved s.hart.mem f) := by
  rw [view_none hrun]
  simp only [hp, Option.map_some]

theorem update_addr (hp : s.frames.addr p = some f) :
    s.frames.addr = Function.update s.frames.addr p (some f) := by
  rw [← hp, Function.update_eq_self]

theorem Machine.Sound.entered {c : Cause} (hs : s.Sound) (hp : s.running = some p) (hc : Deliverable c)
    (tval : Word) :
    Entered t s.hart c (s.hart.csr .mscratch) (t.text.go 4 (s.hart.trap c tval)) := by
  obtain ⟨-, -, hv, ha⟩ := hs.user p hp
  exact t.enter (s.frames.place ha) rfl hv hs.scratch hc

section Entered

variable {c : Cause}

theorem saved_entered (h₁ : Entered t h c f h') : saved h'.mem f = ⟨h.reg, h.pc⟩ := by
  rw [saved, h₁.mepc]
  simp only [h₁.frame]

theorem entered_other (h₁ : Entered t h c f h') (hf : FrameAt t f) (hg : FrameAt t g) (hne : g ≠ f) :
    Memory.Same h.mem h'.mem (Cells g) := by
  have hfa := hf.aligned
  have hga := hg.aligned
  have hlow := hg.low
  have hscratch := t.scratch_low
  have hcmp : CLINT_MTIMECMP 0 + 8 ≤ KERNEL_BASE := by decide
  have hne' : g.toNat ≠ f.toNat := fun heq => hne (BitVec.eq_of_toNat_eq heq)
  refine h₁.same.mono fun x hx => ⟨?_, .inr ?_⟩
  · unfold Cells KERNEL_SP_OFFSET PGSIZE at *
    unfold TEMPORARY_SPACE_OFFSET
    omega
  · have := hx.1
    omega

theorem entered_scratch (h₁ : Entered t h c f h') (hf : FrameAt t f) :
    word h'.mem (t.addr .time_scratch).toNat = word h.mem (t.addr .time_scratch).toNat := by
  have hlow := hf.low
  have hscratch := t.scratch_low
  have hcmp : CLINT_MTIMECMP 0 + 8 ≤ KERNEL_BASE := by decide
  exact word_congr h₁.same fun x _ _ => ⟨by omega, by omega⟩

end Entered

/-- A trap keeps the registers of every program. -/
theorem view_trap {st : Slot → Status} {c : Cause} (hrun : s.running = some p)
    (ha : s.frames.addr p = some f) (hent : Entered t s.hart c f h') :
    Machine.view { s with hart := h', running := none, status := st } = s.view := by
  rw [view_none (s := { s with hart := h', running := none, status := st }) rfl]
  ext1 q
  simp only [Machine.view]
  by_cases hqp : q = p
  · rw [hqp, ha, Option.map_some, Option.map_some, if_pos hrun, saved_entered hent]
  · have hne : s.running ≠ some q := fun h => hqp (Option.some.inj (h.symm.trans hrun))
    cases hq : s.frames.addr q with
    | none => rw [Option.map_none, Option.map_none]
    | some g =>
      have hgf : g ≠ f := fun hg => hqp (s.frames.inj hq (hg ▸ ha))
      rw [Option.map_some, Option.map_some, if_neg hne, saved_congr (s.frames.place hq)
        (entered_other hent (s.frames.place ha) (s.frames.place hq) hgf)]

/-- So does `TrapRet`. -/
theorem view_ret {st : Slot → Status} (hrun : s.running = none) (ha : s.frames.addr p = some f) :
    Machine.view { s with hart := t.text.go 1 (trapRet t s.hart f), running := some p, status := st } =
      s.view := by
  rw [view_none hrun]
  ext1 q
  simp only [Machine.view, leave]
  by_cases hqp : q = p
  · rw [hqp, ha, Option.map_some, Option.map_some, if_pos rfl, saved]
  · have hne : some p ≠ some q := fun h => hqp (Option.some.inj h).symm
    simp only [if_neg hne]

theorem view_drop (hrun : s.running = none) (hF : F.addr = Function.update s.frames.addr p none)
    (hran : Ran F s.hart.mem h') :
    Machine.view { s with hart := h', frames := F } = Function.update s.view p none := by
  rw [view_none (s := { s with hart := h', frames := F }) hrun, view_none hrun]
  ext1 q
  simp only [hran.2.saved_map]
  by_cases hqp : q = p
  · rw [hqp, hF, Function.update_self, Function.update_self, Option.map_none]
  · rw [hF, Function.update_of_ne hqp, Function.update_of_ne hqp]

/-- A step does to each program what its event says. -/
theorem Step.view (hs : s.Sound) (h : Step s e s') : s'.view = e.apply s.view := by
  cases h with
  | @user p reg pc mem hrun hkept =>
    obtain ⟨-, -, -, ha⟩ := hs.user p hrun
    ext1 q
    by_cases hqp : q = p
    · rw [hqp, Event.apply, Function.update_self, Machine.view, ha, Option.map_some, if_pos hrun]
    · have hne : s.running ≠ some q := fun h => hqp (Option.some.inj (h.symm.trans hrun))
      rw [Event.apply, Function.update_of_ne hqp, Machine.view, Machine.view]
      simp only [if_neg hne]
      exact hkept.saved_map q
  | trap _ hrun hc =>
    obtain ⟨-, -, -, ha⟩ := hs.user _ hrun
    exact view_trap hrun ha (hs.entered hrun hc _)
  | interrupted hrun _ _ _ hran => exact view_ran hrun hran
  | call hrun _ hp _ hran =>
    have hplace := s.frames.place hp
    rw [view_touch hrun (update_addr hp) (touches_storeWord hplace (by decide)) hran, Event.apply,
      view_of_addr hrun hp, saved_advance hplace]
    rfl
  | @exec p f cpu F h' hrun _ hF hran =>
    have hplace := F.place (by rw [hF, Function.update_self])
    rw [view_touch hrun hF (touches_put hplace) hran, saved_put hplace]
    rfl
  | answer hrun _ hp hran =>
    have hplace := s.frames.place hp
    rw [view_touch hrun (update_addr hp) (touches_storeWord hplace (by decide)) hran, Event.apply,
      view_of_addr hrun hp, saved_answer hplace]
    rfl
  | exit hrun _ hran => exact view_ran hrun hran
  | fault hrun _ _ _ hran => exact view_ran hrun hran
  | ret hrun _ hp => exact view_ret hrun hp
  | @spawn p f cpu F h' hrun _ _ hF hran =>
    have hplace := F.place (by rw [hF, Function.update_self])
    rw [view_touch hrun hF (touches_put hplace) hran, saved_put hplace]
    rfl
  | drop hrun _ hF hran => exact view_drop hrun hF hran
  | kernel hrun hran => exact view_ran hrun hran

theorem scratch_ran (hs : s.Sound) (hran : Ran F m₁ h')
    (hm : word m₁ (t.addr .time_scratch).toNat = word s.hart.mem (t.addr .time_scratch).toNat) :
    word h'.mem (t.addr .time_scratch).toNat = BitVec.ofNat 64 (CLINT_MTIMECMP 0) :=
  hran.2.scratch.trans (hm.trans hs.scratch)

/-- A step of the kernel for a process that has a frame after it. -/
theorem Machine.Sound.kernel {st : Status} (hs : s.Sound) (hrun : s.running = none)
    (hF : ∀ q, q ≠ p → F.addr q = s.frames.addr q) (hp : st = .gone ∨ ∃ f, F.addr p = some f)
    (hran : Ran F m₁ h')
    (hm : word m₁ (t.addr .time_scratch).toNat = word s.hart.mem (t.addr .time_scratch).toNat) :
    Machine.Sound { s with hart := h', frames := F, status := Function.update s.status p st } := by
  constructor
  case scratch => exact scratch_ran hs hran hm
  case live =>
    intro q hq
    change Function.update s.status p st q ≠ .gone at hq
    by_cases hqp : q = p
    · subst hqp
      rw [Function.update_self] at hq
      exact hp.resolve_left hq
    · rw [Function.update_of_ne hqp] at hq
      obtain ⟨f, hf⟩ := hs.live q hq
      exact ⟨f, (hF q hqp).trans hf⟩
  case user =>
    intro q hq
    rw [hrun] at hq
    cases hq

theorem update_status {st : Status} (hst : s.status p = st) : s.status = Function.update s.status p st := by
  rw [← hst, Function.update_eq_self]

theorem Step.sound (hs : s.Sound) (h : Step s e s') : s'.Sound := by
  cases h with
  | @user p reg pc mem hrun hkept =>
    refine ⟨hkept.scratch.trans hs.scratch, hs.live, fun q hq => ?_⟩
    exact hs.user q hq
  | @trap p c tval hrun hc =>
    obtain ⟨-, -, -, ha⟩ := hs.user p hrun
    have hent := hs.entered hrun hc tval
    refine ⟨(entered_scratch hent (s.frames.place ha)).trans hs.scratch, fun q hq => ?_, by simp⟩
    by_cases hqp : q = p
    · exact ⟨_, hqp ▸ ha⟩
    · change Function.update s.status p .trapped q ≠ .gone at hq
      rw [Function.update_of_ne hqp] at hq
      exact hs.live q hq
  | interrupted hrun _ hp _ hran => exact hs.kernel hrun (fun _ _ => rfl) (.inr ⟨_, hp⟩) hran rfl
  | call hrun _ hp _ hran =>
    have hplace := s.frames.place hp
    exact hs.kernel hrun (fun _ _ => rfl) (.inr ⟨_, hp⟩) hran
      ((touches_storeWord hplace (by decide)).scratch hplace)
  | @exec p f cpu F h' hrun hst hF hran =>
    have hp : F.addr p = some f := by rw [hF, Function.update_self]
    have hplace := F.place hp
    rw [update_status hst]
    exact hs.kernel hrun (fun q hq => by rw [hF, Function.update_of_ne hq]) (.inr ⟨_, hp⟩) hran
      ((touches_put hplace).scratch hplace)
  | answer hrun _ hp hran =>
    have hplace := s.frames.place hp
    exact hs.kernel hrun (fun _ _ => rfl) (.inr ⟨_, hp⟩) hran
      ((touches_storeWord hplace (by decide)).scratch hplace)
  | exit hrun _ hran => exact hs.kernel hrun (fun _ _ => rfl) (.inl rfl) hran rfl
  | fault hrun _ _ _ hran => exact hs.kernel hrun (fun _ _ => rfl) (.inl rfl) hran rfl
  | @ret p f hrun hst hp =>
    refine ⟨by rw [leave]; exact hs.scratch, fun q hq => ?_, fun q hq => ?_⟩
    · by_cases hqp : q = p
      · exact ⟨_, hqp ▸ hp⟩
      · change Function.update s.status p .running q ≠ .gone at hq
        rw [Function.update_of_ne hqp] at hq
        exact hs.live q hq
    · obtain rfl : p = q := Option.some.inj hq
      rw [leave]
      exact ⟨Function.update_self p _ s.status, rfl, rfl, hp⟩
  | @spawn p f cpu F h' hrun _ _ hF hran =>
    have hp : F.addr p = some f := by rw [hF, Function.update_self]
    have hplace := F.place hp
    exact hs.kernel hrun (fun q hq => by rw [hF, Function.update_of_ne hq]) (.inr ⟨_, hp⟩) hran
      ((touches_put hplace).scratch hplace)
  | @drop p F h' hrun hst hF hran =>
    rw [update_status hst]
    exact hs.kernel hrun (fun q hq => by rw [hF, Function.update_of_ne hq]) (.inl rfl) hran rfl
  | kernel hrun hran =>
    exact ⟨scratch_ran hs hran rfl, hs.live, fun q hq => by rw [hrun] at hq; cases hq⟩

/-! ## Runs -/

/-- A machine in which no program runs and every process is at its `TrapRet`, as when `start` calls
`Dispatch`. -/
structure Machine.Started (s : Machine t) : Prop where
  running : s.running = none
  ready : ∀ p, s.status p = if (s.frames.addr p).isSome then .ready else .gone
  scratch : word s.hart.mem (t.addr .time_scratch).toNat = BitVec.ofNat 64 (CLINT_MTIMECMP 0)

variable {s₀ s₁ s₂ : Machine t} {es : List Event}

theorem Machine.Started.sound (h : s.Started) : s.Sound := by
  refine ⟨h.scratch, fun p hp => ?_, fun p hp => ?_⟩
  · rw [h.ready] at hp
    cases ha : s.frames.addr p with
    | none => exact absurd (by rw [ha]; rfl) hp
    | some f => exact ⟨f, rfl⟩
  · rw [h.running] at hp
    cases hp

theorem sound_run (h₀ : s₀.Sound) (hrun : Trace (· = s₀) Step es s) : s.Sound := by
  induction hrun with
  | start h => exact h ▸ h₀
  | step _ ht ih => exact ht.sound ih

/-- The process that an event is about. -/
def Event.subject : Event → Option Slot
  | user p _ => some p
  | trap p _ => some p
  | interrupted p => some p
  | call p => some p
  | exec p _ => some p
  | answer p _ => some p
  | exit p => some p
  | ret p => some p
  | spawn p _ => some p
  | drop p => some p
  | kernel => none

/-- The cause of the last trap of a process, in its frame. -/
def Machine.cause (s : Machine t) (p : Slot) : Option Word :=
  (s.frames.addr p).map fun f => word s.hart.mem (past f MCAUSE_OFFSET)

theorem cause_congr (haddr : s'.frames.addr p = s.frames.addr p)
    (hmem : ∀ g, s.frames.addr p = some g → Memory.Same s.hart.mem s'.hart.mem (Cells g)) :
    s'.cause p = s.cause p := by
  rw [Machine.cause, Machine.cause, haddr]
  cases hg : s.frames.addr p with
  | none => rw [Option.map_none, Option.map_none]
  | some g => rw [Option.map_some, Option.map_some, mcause_congr (s.frames.place hg) (hmem g hg)]

theorem Event.apply_of_ne (he : e.subject ≠ some p) (v : Slot → Option Cpu) : e.apply v p = v p := by
  cases e <;> simp only [Event.apply] <;>
    exact Function.update_of_ne (fun h => he (congrArg some h.symm)) _ _

/-- The kernel works for a process; the others are where they were. -/
theorem others_ran {st : Slot → Status} (hst : st p = s.status p) (hF : F.addr p = s.frames.addr p)
    (hm : ∀ g, s.frames.addr p = some g → Memory.Same s.hart.mem m₁ (Cells g)) (hran : Ran F m₁ h') :
    st p = s.status p ∧ Machine.cause { s with hart := h', frames := F, status := st } p = s.cause p :=
  ⟨hst, cause_congr hF fun g hg => (hm g hg).trans (hran.2.cells (hF.trans hg))⟩

/-- A step for another process. -/
theorem Step.other (hs : s.Sound) (h : Step s e s') (he : e.subject ≠ some p) :
    s'.status p = s.status p ∧ s'.cause p = s.cause p := by
  have hupdate : ∀ {q} {st : Status}, some q ≠ some p → Function.update s.status q st p = s.status p :=
    fun hq => Function.update_of_ne (fun h => hq (congrArg some h.symm)) _ _
  have hframe : ∀ {q f}, some q ≠ some p → s.frames.addr q = some f →
      ∀ m₁, Touches f s.hart.mem m₁ → ∀ g, s.frames.addr p = some g →
        Memory.Same s.hart.mem m₁ (Cells g) := fun hq hf m₁ ht g hg =>
    ht.other (s.frames.place hf) (s.frames.place hg) fun h =>
      hq (congrArg some (s.frames.inj hf (h ▸ hg)))
  have hrefl : ∀ g, s.frames.addr p = some g → Memory.Same s.hart.mem s.hart.mem (Cells g) :=
    fun _ _ => Memory.Same.refl _ _
  -- a frame on a page of its own
  have hnew : ∀ {q f} {F : Frames t}, some q ≠ some p →
      F.addr = Function.update s.frames.addr q (some f) → ∀ cpu,
        F.addr p = s.frames.addr p ∧ ∀ g, s.frames.addr p = some g →
          Memory.Same s.hart.mem (put s.hart.mem f cpu) (Cells g) := by
    intro q f F hq hF cpu
    have hpq : p ≠ q := fun h => hq (congrArg some h.symm)
    have hf : F.addr q = some f := by rw [hF, Function.update_self]
    have haddr : F.addr p = s.frames.addr p := by rw [hF, Function.update_of_ne hpq]
    refine ⟨haddr, fun g hg => ?_⟩
    refine (touches_put (F.place hf)).other (F.place hf) (s.frames.place hg) fun h => ?_
    exact hpq (F.inj (haddr.trans hg) (h ▸ hf))
  cases h with
  | user _ hkept => exact ⟨rfl, cause_congr rfl fun g hg => hkept.cells hg⟩
  | @trap q c tval hrun hc =>
    obtain ⟨-, -, -, ha⟩ := hs.user q hrun
    refine ⟨hupdate he, cause_congr rfl fun g hg => ?_⟩
    refine entered_other (hs.entered hrun hc _) (s.frames.place ha) (s.frames.place hg) fun h => ?_
    exact he (congrArg some (s.frames.inj ha (h ▸ hg)))
  | interrupted _ _ _ _ hran => exact others_ran (hupdate he) rfl hrefl hran
  | call _ _ hf _ hran =>
    exact others_ran (hupdate he) rfl
      (hframe he hf _ (touches_storeWord (s.frames.place hf) (by decide))) hran
  | @exec q f cpu F h' _ _ hF hran =>
    obtain ⟨haddr, hother⟩ := hnew he hF cpu
    exact others_ran rfl haddr hother hran
  | answer _ _ hf hran =>
    exact others_ran (hupdate he) rfl
      (hframe he hf _ (touches_storeWord (s.frames.place hf) (by decide))) hran
  | exit _ _ hran => exact others_ran (hupdate he) rfl hrefl hran
  | fault _ _ _ _ hran => exact others_ran (hupdate he) rfl hrefl hran
  | ret _ _ _ =>
    exact ⟨hupdate he, cause_congr rfl fun g _ => by rw [leave]; exact Memory.Same.refl _ _⟩
  | @spawn q f cpu F h' _ _ _ hF hran =>
    obtain ⟨haddr, hother⟩ := hnew he hF cpu
    exact others_ran (hupdate he) haddr hother hran
  | @drop q F h' hrun _ hF hran =>
    have hpq : p ≠ q := fun h => he (congrArg some h.symm)
    exact others_ran rfl (by rw [hF, Function.update_of_ne hpq]) hrefl hran
  | kernel _ hran => exact others_ran rfl rfl hrefl hran

/-- Where a process is between its trap with cause `c` in the state `cpu` and its return: before the
call, if it is one, or after the answer. -/
def Pending (c : Cause) (cpu : Cpu) (p : Slot) (s : Machine t) : Prop :=
  match s.status p with
  | .trapped => s.view p = some cpu ∧ s.cause p = some c.word
  | .calling => c = .exception 8 ∧ s.view p = some { cpu with pc := cpu.pc + 4 }
  | .ready => (c ≠ .exception 8 ∧ s.view p = some cpu) ∨ (c = .exception 8 ∧
      ∃ v, s.view p = some ⟨Function.update cpu.reg .a0 v, cpu.pc + 4⟩)
  | _ => False

theorem Pending.congr {c : Cause} (hp : Pending c cpu p s) (hst : s'.status p = s.status p)
    (hc : s'.cause p = s.cause p) (hv : s'.view p = s.view p) : Pending c cpu p s' := by
  rw [Pending, hst, hc, hv]
  exact hp

theorem cause_of_addr (hp : s.frames.addr p = some f) :
    s.cause p = some (word s.hart.mem (past f MCAUSE_OFFSET)) := by
  rw [Machine.cause, hp, Option.map_some]

/-- What `ProcessUserTrap` finds in the frame. -/
theorem Pending.trapped {c : Cause} (hp : Pending c cpu p s) (hst : s.status p = .trapped)
    (hf : s.frames.addr p = some f) :
    s.view p = some cpu ∧ word s.hart.mem (past f MCAUSE_OFFSET) = c.word := by
  rw [Pending, hst] at hp
  obtain ⟨hv, hc⟩ := hp
  rw [cause_of_addr hf] at hc
  exact ⟨hv, Option.some.inj hc⟩

theorem Pending.calling {c : Cause} (hp : Pending c cpu p s) (hst : s.status p = .calling) :
    c = .exception 8 ∧ s.view p = some { cpu with pc := cpu.pc + 4 } := by
  rwa [Pending, hst] at hp

theorem handling_cases {c : Cause} (hc : c = .exception 8 ∨ c = .interrupt 7 ∨ c = .interrupt 11) :
    (c = .exception 8 ∧ processUserTrap c.word = .syscall) ∨
      (c ≠ .exception 8 ∧ processUserTrap c.word ∈ [Handling.timer, .external]) := by
  rcases hc with rfl | rfl | rfl <;> decide

theorem Pending.step {c : Cause} (hs : s.Sound) (hpend : Pending c cpu p s) (h : Step s e s')
    (hc : c = .exception 8 ∨ c = .interrupt 7 ∨ c = .interrupt 11) (hret : e ≠ .ret p)
    (hexec : c = .exception 8 → (∀ cpu', e ≠ .exec p cpu') ∧ e ≠ .exit p) : Pending c cpu p s' := by
  have hview := h.view hs
  by_cases he : e.subject = some p
  · have hhandling := handling_cases hc
    have hrunning : s.running ≠ some p := fun hrun => by
      rw [Pending, (hs.user p hrun).1] at hpend
      exact hpend
    have hgone : s.status p ≠ .gone := fun hst => by
      rw [Pending, hst] at hpend
      exact hpend
    cases h with
    | user hrun _ => exact absurd (he ▸ hrun) hrunning
    | trap _ hrun _ => exact absurd (he ▸ hrun) hrunning
    | interrupted _ hst hf hmem _ =>
      obtain rfl := Option.some.inj he
      obtain ⟨hv, hword⟩ := hpend.trapped hst hf
      rw [hword] at hmem
      rw [Pending, hview]
      simp only [Function.update_self, Event.apply]
      refine .inl ⟨fun h8 => ?_, hv⟩
      subst h8
      revert hmem
      decide
    | call _ hst hf heq _ =>
      obtain rfl := Option.some.inj he
      obtain ⟨hv, hword⟩ := hpend.trapped hst hf
      rw [hword] at heq
      have h8 : c = .exception 8 := by
        rcases hhandling with ⟨h8, -⟩ | ⟨-, hmem⟩
        · exact h8
        · rw [heq] at hmem
          simp at hmem
      rw [Pending, hview]
      simp only [Function.update_self, Event.apply, hv, Option.map_some]
      exact ⟨h8, trivial⟩
    | exec _ hst _ _ =>
      obtain rfl := Option.some.inj he
      exact absurd rfl ((hexec (hpend.calling hst).1).1 _)
    | answer _ hst _ _ =>
      obtain rfl := Option.some.inj he
      obtain ⟨h8, hv⟩ := hpend.calling hst
      rw [Pending, hview]
      simp only [Function.update_self, Event.apply, hv, Option.map_some]
      exact .inr ⟨h8, _, rfl⟩
    | exit _ hst _ =>
      obtain rfl := Option.some.inj he
      exact absurd rfl (hexec (hpend.calling hst).1).2
    | fault _ hst hf heq _ =>
      obtain rfl := Option.some.inj he
      rw [(hpend.trapped hst hf).2] at heq
      rcases hhandling with ⟨-, hsys⟩ | ⟨-, hmem⟩
      · rw [heq] at hsys
        cases hsys
      · rw [heq] at hmem
        simp at hmem
    | ret _ _ _ => exact absurd (congrArg Event.ret (Option.some.inj he)) hret
    | spawn _ hst _ _ _ => exact absurd (Option.some.inj he ▸ hst) hgone
    | drop _ hst _ _ => exact absurd (Option.some.inj he ▸ hst) hgone
    | kernel _ _ => cases he
  · obtain ⟨hst, hcause⟩ := h.other hs he
    refine hpend.congr hst hcause ?_
    rw [hview, Event.apply_of_ne he]

theorem Pending.run {c : Cause} (hs : s₁.Sound) (hpend : Pending c cpu p s₁)
    (hrun : Trace (· = s₁) Step es s₂)
    (hc : c = .exception 8 ∨ c = .interrupt 7 ∨ c = .interrupt 11) (hret : Event.ret p ∉ es)
    (hexec : c = .exception 8 → (∀ cpu', Event.exec p cpu' ∉ es) ∧ Event.exit p ∉ es) :
    Pending c cpu p s₂ := by
  induction hrun with
  | start h => exact h ▸ hpend
  | @step es e s s' hrun ht ih =>
    simp only [List.mem_append, List.mem_singleton, not_or] at hret hexec
    refine (ih hret.1 fun h8 => ?_).step (sound_run hs hrun) ht hc (Ne.symm hret.2) fun h8 => ?_
    · exact ⟨fun cpu' => ((hexec h8).1 cpu').1, (hexec h8).2.1⟩
    · exact ⟨fun cpu' => Ne.symm ((hexec h8).1 cpu').2, Ne.symm (hexec h8).2.2⟩

/-- What the hart shows of the process that runs. -/
theorem view_running (hs : s.Sound) (hp : s.running = some p) : s.view p = some ⟨s.hart.reg, s.hart.pc⟩ := by
  rw [Machine.view, (hs.user p hp).2.2.2, Option.map_some, if_pos hp]

theorem Pending.start {c : Cause} (hs : s.Sound) (h : Step s (.trap p c) s') :
    Pending c ⟨s.hart.reg, s.hart.pc⟩ p s' := by
  have hview := h.view hs
  cases h with
  | @trap p c tval hrun hc =>
    obtain ⟨-, -, -, ha⟩ := hs.user p hrun
    rw [Pending, hview]
    simp only [Function.update_self]
    refine ⟨view_running hs hrun, ?_⟩
    rw [Machine.cause, ha, Option.map_some, (hs.entered hrun hc tval).mcause]

theorem Pending.finish {c : Cause} {cpu' : Cpu} (hpend : Pending c cpu p s) (hs : s.Sound)
    (h : Step s (.ret p) s') (hs' : s'.Sound) (hv : s'.view p = some cpu') :
    (c ≠ .exception 8 ∧ cpu' = cpu) ∨
      (c = .exception 8 ∧ ∃ v, cpu' = ⟨Function.update cpu.reg .a0 v, cpu.pc + 4⟩) := by
  have hview := h.view hs
  cases h with
  | ret _ hst _ =>
    rw [Pending, hst] at hpend
    rw [hview] at hv
    change s.view p = some cpu' at hv
    rcases hpend with ⟨h8, hv'⟩ | ⟨h8, v, hv'⟩
    · exact .inl ⟨h8, Option.some.inj (hv.symm.trans hv')⟩
    · exact .inr ⟨h8, v, Option.some.inj (hv.symm.trans hv')⟩

/-! ## A run -/

theorem exists_ret (hs : s.Sound) (hrun : s.running = none) (hready : s.status p = .ready) :
    ∃ s', Step s (.ret p) s' ∧ s'.running = some p := by
  obtain ⟨f, hf⟩ := hs.live p (by rw [hready]; decide)
  exact ⟨_, .ret hrun hready hf, rfl⟩

theorem exists_user (hp : s.running = some p) (cpu : Cpu) :
    ∃ s', Step s (.user p cpu) s' ∧ s'.running = some p :=
  ⟨_, .user hp (Memory.Same.refl _ _), hp⟩

/-- The clock stops the program that runs, and `ProcessInterrupt` is done with it. -/
theorem exists_interrupted (hs : s.Sound) (hp : s.running = some p) :
    ∃ s₁ s₂, Step s (.trap p (.interrupt 7)) s₁ ∧ Step s₁ (.interrupted p) s₂ ∧ s₂.running = none ∧
      s₂.status p = .ready := by
  obtain ⟨-, -, -, ha⟩ := hs.user p hp
  have hent := hs.entered hp (c := .interrupt 7) (.inl rfl) 0
  refine ⟨_, _, .trap 0 hp (.inl rfl), .interrupted rfl ?_ ha ?_ ⟨hent.mode, Memory.Same.refl _ _⟩, rfl, ?_⟩
  · exact Function.update_self _ _ _
  · rw [hent.mcause]
    decide
  · exact Function.update_self _ _ _

/-- Addresses for the text. -/
def address : Label → ℕ
  | .user_exception_table k => 0x80010000 + 4 * k
  | .kernel_exception_table k => 0x80020000 + 4 * k
  | .preserve_user_context => 0x80001000
  | .restore_user_context => 0x80001100
  | .user_timer_handler => 0x80001200
  | .kernel_timer_handler => 0x80001300
  | .kernel_intr_hander => 0x80001400
  | .kernel_intr_return => 0x80001460
  | .Switch => 0x80001500
  | .ProcessUserTrap => 0x80002000
  | .ProcessKernelTrap => 0x80002200
  | .panic => 0x80002400
  | .error_info_message => 0x80020040
  | .time_scratch => 0x80030000

/-- No two labels of code have one address. -/
theorem address_inj : ∀ l l' : Label, (block l).isSome →
    BitVec.ofNat 64 (address l') = BitVec.ofNat 64 (address l) → l' = l := by decide

theorem user_entry_address : ∀ k : Fin 12, (BitVec.ofNat 64 (address (.user_exception_table k))).toNat =
    (BitVec.ofNat 64 (address (.user_exception_table 0))).toNat + 4 * k := by
  decide

theorem kernel_entry_address : ∀ k : Fin 12,
    (BitVec.ofNat 64 (address (.kernel_exception_table k))).toNat =
      (BitVec.ofNat 64 (address (.kernel_exception_table 0))).toNat + 4 * k := by
  decide

theorem user_align_address :
    (BitVec.ofNat 64 (address (.user_exception_table 0))).toNat % 2 ^ 16 = 0 := by
  decide

theorem kernel_align_address :
    (BitVec.ofNat 64 (address (.kernel_exception_table 0))).toNat % 2 ^ 16 = 0 := by
  decide

theorem scratch_low_address : KERNEL_BASE ≤ (BitVec.ofNat 64 (address .time_scratch)).toNat := by
  decide

theorem scratch_high_address :
    (BitVec.ofNat 64 (address .time_scratch)).toNat + 16 ≤ MEMORY_END := by
  decide

theorem address_of_block {l l' : Label} {c : List (Instr Label)} (hb : block l = some c)
    (heq : BitVec.ofNat 64 (address l') = BitVec.ofNat 64 (address l)) : l' = l :=
  address_inj l l' (by rw [hb]; rfl) heq

def linked : Linked where
  addr l := BitVec.ofNat 64 (address l)
  inj := address_of_block
  user_entry := user_entry_address
  kernel_entry := kernel_entry_address
  user_align := user_align_address
  kernel_align := kernel_align_address
  scratch_low := scratch_low_address
  scratch_high := scratch_high_address

/-- A machine with one process. -/
def initial : Machine linked where
  hart :=
    { reg := fun _ => 0
      csr := fun _ => 0
      mode := .machine
      mpp := .machine
      mpie := false
      mie := true
      pc := 0
      mem := storeWord (fun _ => 0) 0x80030000 (BitVec.ofNat 64 (CLINT_MTIMECMP 0)) }
  frames :=
    { addr := fun p => if p = 0 then some 0x80100000 else none
      place := by
        intro p f h
        split at h
        · cases h
          constructor <;> decide
        · cases h
      inj := by
        intro p q f hp hq
        split at hp
        · split at hq
          · simp_all
          · cases hq
        · cases hp }
  running := none
  status p := if p = 0 then .ready else .gone

theorem initial_started : initial.Started := by
  refine ⟨rfl, fun p => ?_, word_storeWord⟩
  by_cases hp : p = 0
  · subst hp
    rfl
  · simp [initial, hp]

theorem initial_slice : ∃ s s₁ s₂ s₃ : Machine linked,
    Trace (· = initial) Step [.ret 0, .user 0 ⟨fun _ => 1, 0x1000⟩] s ∧ s.running = some 0 ∧
      Step s (.trap 0 (.interrupt 7)) s₁ ∧ Trace (· = s₁) Step [.interrupted 0] s₂ ∧
      Step s₂ (.ret 0) s₃ := by
  have hs := initial_started.sound
  obtain ⟨s₁, h₁, hrun₁⟩ := exists_ret (p := 0) hs rfl rfl
  obtain ⟨s₂, h₂, hrun₂⟩ := exists_user hrun₁ ⟨fun _ => 1, 0x1000⟩
  have hs₂ := h₂.sound (h₁.sound hs)
  obtain ⟨s₃, s₄, h₃, h₄, hrun₄, hready⟩ := exists_interrupted hs₂ hrun₂
  obtain ⟨s₅, h₅, -⟩ := exists_ret (h₄.sound (h₃.sound hs₂)) hrun₄ hready
  have hrun : Trace (· = initial) Step ([] ++ [.ret 0] ++ [.user 0 ⟨fun _ => 1, 0x1000⟩]) s₂ :=
    .step (.step (.start rfl) h₁) h₂
  have hrun' : Trace (· = s₃) Step ([] ++ [.interrupted 0]) s₄ := .step (.start rfl) h₄
  exact ⟨s₂, s₃, s₄, s₅, hrun, hrun₂, h₃, hrun', h₅⟩

/-! ## What holds of every run -/

/-- Every trap enters `ProcessUserTrap`, with the program's state in the frame of the process that runs
and on its kernel stack. -/
theorem trap_enters {c : Cause} {tval : Word} (h₀ : s₀.Started) (hrun : Trace (· = s₀) Step es s)
    (hp : s.running = some p) (hc : Deliverable c) :
    ∃ f, s.frames.addr p = some f ∧ Entered t s.hart c f (t.text.go 4 (s.hart.trap c tval)) := by
  have hs := sound_run h₀.sound hrun
  exact ⟨_, (hs.user p hp).2.2.2, hs.entered hp hc tval⟩

theorem trap_enters_initial : ∃ s : Machine linked, ∃ f, s.frames.addr 0 = some f ∧
    Entered linked s.hart (.exception 8) f (linked.text.go 4 (s.hart.trap (.exception 8) 0)) := by
  obtain ⟨s, -, -, -, hrun, hp, -⟩ := initial_slice
  exact ⟨s, trap_enters initial_started hrun hp (by decide : 8 < 2 ^ 63)⟩

end Trap

end OrangeOs.Kernel
