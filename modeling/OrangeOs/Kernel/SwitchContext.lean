import OrangeOs.Kernel.Traps

/-! # Switching between kernel threads

`Switch` puts the registers that a function must keep into one `SavedContext` and takes them from another.
The threads are the loop of `Dispatch` and the kernel side of each process: `Dispatch` switches to a
process, and `Yield`, `Sleep` and `Exit` switch back. For the thread that calls it `Switch` is a function that
returns when it is this thread's turn again, and keeps what a function must keep.
-/

namespace OrangeOs.Kernel

open Riscv

variable {t : Linked} {h : Hart} {r : Reg}

theorem switch_eq : Switch = saves (slot SavedContext.registers) .a0 SavedContext.registers ++
    (loads (slot SavedContext.registers) .a1 SavedContext.registers ++ [.ret]) := rfl

/-- Memory after the first half. -/
def stored (h : Hart) : Memory :=
  storeAll h.mem (h.reg .a0) (slot SavedContext.registers) h.reg SavedContext.registers

theorem run_switch {addr : Label → Word} : run addr Switch h =
    { h with
      reg := fun r => if r ∈ SavedContext.registers then
        word (stored h) (past (h.reg .a1) (slot SavedContext.registers r)) else h.reg r
      pc := word (stored h) (past (h.reg .a1) (slot SavedContext.registers .ra))
      mem := stored h } := by
  rw [switch_eq, run_append, run_append, run_saves, run_loads (by decide)]
  rfl

/-- `ret` goes to the address that has been loaded. -/
theorem pc_switch {addr : Label → Word} : (run addr Switch h).pc = (run addr Switch h).reg .ra := by
  have hra : Reg.ra ∈ SavedContext.registers := by decide
  rw [run_switch]
  simp only [if_pos hra]

namespace Threads

/-- `none` is the loop of `Dispatch`, on the one hart. -/
abbrev Thread := Option Slot

/-- `sizeof(SavedContext)`. -/
def SIZE : ℕ := 8 * 14

/-- The `SavedContext` of each thread. -/
structure Contexts where
  addr : Thread → Word
  fits : ∀ i, (addr i).toNat + SIZE ≤ 2 ^ 64
  apart : ∀ {i j}, i ≠ j → (addr i).toNat + SIZE ≤ (addr j).toNat ∨ (addr j).toNat + SIZE ≤ (addr i).toNat

/-- A register of a `SavedContext`. -/
abbrev Saved := { r : Reg // r ∈ SavedContext.registers }

structure State where
  hart : Hart
  current : Thread

inductive Event where
  | work (i : Thread) (regs : Saved → Word)
  | switch (i j : Thread)
  | init (j : Thread) (ra sp : Word)

variable {C : Contexts} {t : Linked}

/-- The bytes of the contexts. -/
def Kept (C : Contexts) (m m' : Memory) : Prop :=
  Memory.Same m m' fun x => ∃ i, (C.addr i).toNat ≤ x ∧ x < (C.addr i).toNat + SIZE

/-- The context of a thread, in memory. -/
def context (m : Memory) (a : Word) (r : Saved) : Word := word m (past a (slot SavedContext.registers r))

/-- One step: the thread on the hart runs on, with interrupts or without, it calls `Switch`, or it sets up
the context of another thread, as `ProcessTask::Init` does. -/
inductive Step (t : Linked) (C : Contexts) (s : State) : Event → State → Prop
  | work {h : Hart} : Kept C s.hart.mem h.mem →
      Step t C s (.work s.current fun r => h.reg r) { s with hart := h }
  | switch {j : Thread} : s.hart.pc = t.addr .Switch → s.hart.reg .a0 = C.addr s.current →
      s.hart.reg .a1 = C.addr j → j ≠ s.current →
      Step t C s (.switch s.current j) { hart := t.text.go 1 s.hart, current := j }
  | init {j : Thread} {ra sp : Word} {m : Memory} : j ≠ s.current →
      Kept C (storeWord (storeWord s.hart.mem (past (C.addr j) (slot SavedContext.registers .sp)) sp)
        (past (C.addr j) (slot SavedContext.registers .ra)) ra) m →
      Step t C s (.init j ra sp) { s with hart := { s.hart with mem := m } }

/-- The registers of each thread, wherever they are. -/
def State.view (C : Contexts) (s : State) (i : Thread) : Saved → Word :=
  if i = s.current then fun r => s.hart.reg r else context s.hart.mem (C.addr i)

def raReg : Saved := ⟨.ra, by decide⟩
def spReg : Saved := ⟨.sp, by decide⟩

/-- What an event does to threads with registers of their own. -/
def Event.apply (v : Thread → Saved → Word) : Event → Thread → Saved → Word
  | work i regs => Function.update v i regs
  | switch _ _ => v
  | init j ra sp => Function.update v j (Function.update (Function.update (v j) spReg sp) raReg ra)

variable {s s' s₀ s₁ s₂ s₃ : State} {e : Event} {es : List Event} {i j : Thread} {m m' : Memory} {a v : Word}

namespace Contexts

theorem past_slot (C : Contexts) (i : Thread) (r : Saved) :
    past (C.addr i) (slot SavedContext.registers r) = (C.addr i).toNat + slot SavedContext.registers r :=
  Riscv.past_slot (C.fits i) r.2

theorem slot_lt (r : Saved) : slot SavedContext.registers r + 8 ≤ SIZE := Riscv.slot_lt r.2

theorem slot_apart (C : Contexts) (i : Thread) {r q : Reg} (hr : r ∈ SavedContext.registers)
    (hq : q ∈ SavedContext.registers) (hne : r ≠ q) :
    past (C.addr i) (slot SavedContext.registers r) + 8 ≤ past (C.addr i) (slot SavedContext.registers q) ∨
      past (C.addr i) (slot SavedContext.registers q) + 8 ≤ past (C.addr i) (slot SavedContext.registers r) :=
  Riscv.slot_apart (C.fits i) hr hq hne

theorem context_congr (C : Contexts) (h : Memory.Same m m' fun x =>
    (C.addr i).toNat ≤ x ∧ x < (C.addr i).toNat + SIZE) : context m' (C.addr i) = context m (C.addr i) := by
  ext1 r
  have := slot_lt r
  rw [context, context, C.past_slot]
  exact word_congr h fun x hx hx' => ⟨by omega, by omega⟩

theorem context_kept (C : Contexts) (h : Kept C m m') : context m' (C.addr i) = context m (C.addr i) :=
  C.context_congr (h.mono fun _ hx => ⟨i, hx⟩)

theorem stored_same (C : Contexts) {h : Hart} (ha : h.reg .a0 = C.addr i) :
    Memory.Same h.mem (stored h) fun x =>
      x < (C.addr i).toNat ∨ (C.addr i).toNat + SIZE ≤ x := by
  intro x hx
  rw [stored, ha]
  apply storeAll_same
  intro r hr
  have := slot_lt ⟨r, hr⟩
  rw [C.past_slot i ⟨r, hr⟩]
  omega

theorem context_stored (C : Contexts) {h : Hart} (ha : h.reg .a0 = C.addr i) :
    context (stored h) (C.addr i) = fun r : Saved => h.reg r := by
  ext1 r
  rw [context, stored, ha]
  exact word_storeAll (fun _ hr _ hq hne => C.slot_apart i hr hq hne) r.2

theorem context_stored_of_ne (C : Contexts) {h : Hart} (ha : h.reg .a0 = C.addr i) (hij : j ≠ i) :
    context (stored h) (C.addr j) = context h.mem (C.addr j) := by
  have := C.apart hij
  exact C.context_congr ((C.stored_same ha).mono fun x hx => by omega)

theorem context_storeWord (C : Contexts) (r : Saved) :
    context (storeWord m (past (C.addr i) (slot SavedContext.registers r)) v) (C.addr i) =
      Function.update (context m (C.addr i)) r v := by
  ext1 q
  by_cases hqr : q = r
  · rw [hqr, Function.update_self, context, word_storeWord]
  · have hne : (q : Reg) ≠ r := fun h => hqr (Subtype.ext h)
    rw [Function.update_of_ne hqr, context, word_storeWord_of_disjoint (C.slot_apart i q.2 r.2 hne), context]

theorem context_storeWord_of_ne (C : Contexts) (r : Saved) (hij : j ≠ i) :
    context (storeWord m (past (C.addr i) (slot SavedContext.registers r)) v) (C.addr j) =
      context m (C.addr j) := by
  have := C.apart hij
  have := slot_lt r
  refine C.context_congr (storeWord_same.mono fun x hx => ?_)
  rw [C.past_slot]
  omega

end Contexts

theorem go_switch (hpc : s.hart.pc = t.addr .Switch) :
    t.text.go 1 s.hart = run t.addr Switch s.hart := Linked.go_block hpc rfl

/-- A step does to each thread what its event says. -/
theorem Step.view (h : Step t C s e s') : s'.view C = e.apply (s.view C) := by
  cases h with
  | @work h hkept =>
    ext1 i
    by_cases hi : i = s.current
    · rw [hi, Event.apply, Function.update_self, State.view, if_pos rfl]
    · rw [Event.apply, Function.update_of_ne hi, State.view, State.view, if_neg hi, if_neg hi]
      exact C.context_kept hkept
  | @switch j hpc ha ha' hne =>
    ext1 i
    rw [Event.apply, go_switch hpc, run_switch, State.view, State.view]
    by_cases hi : i = j
    · subst hi
      rw [if_pos rfl, if_neg hne, ← C.context_stored_of_ne ha hne]
      ext1 r
      refine (if_pos r.2).trans ?_
      rw [ha', context]
    · rw [if_neg hi]
      by_cases hc : i = s.current
      · rw [if_pos hc, hc]
        exact C.context_stored ha
      · rw [if_neg hc]
        exact C.context_stored_of_ne ha hc
  | @init j ra sp m hne hkept =>
    ext1 i
    by_cases hi : i = j
    · subst hi
      rw [Event.apply, Function.update_self, State.view, State.view, if_neg hne, if_neg hne,
        C.context_kept hkept]
      exact (C.context_storeWord raReg).trans
        (congrArg (fun c => Function.update c raReg ra) (C.context_storeWord spReg))
    · rw [Event.apply, Function.update_of_ne hi, State.view, State.view]
      split_ifs with hc
      · rfl
      · rw [C.context_kept hkept]
        exact (C.context_storeWord_of_ne raReg hi).trans (C.context_storeWord_of_ne spReg hi)

/-! ## Runs -/

/-- The thread whose turn it is goes on behind its own call of `Switch`. -/
theorem Step.resume (h : Step t C s (.switch i j) s') :
    s'.current = j ∧ (∀ r : Saved, s'.hart.reg r = s.view C j r) ∧ s'.hart.pc = s.view C j raReg := by
  have hview := h.view
  cases h with
  | switch hpc ha ha' hne =>
    have hregs : (fun r : Saved => (t.text.go 1 s.hart).reg r) = s.view C j := by
      have := congrFun hview j
      rwa [State.view, if_pos rfl] at this
    refine ⟨rfl, congrFun hregs, ?_⟩
    rw [← hregs, go_switch hpc]
    exact pc_switch

/-- A thread that is not on the hart waits, with the registers `v`. -/
def Waits (C : Contexts) (i : Thread) (v : Saved → Word) (s : State) : Prop := i ≠ s.current ∧ s.view C i = v

variable {regs : Saved → Word}

theorem Waits.step (hw : Waits C i regs s) (h : Step t C s e s') (hswitch : ∀ k, e ≠ .switch k i)
    (hinit : ∀ ra sp, e ≠ .init i ra sp) : Waits C i regs s' := by
  have hview := congrFun h.view i
  obtain ⟨hne, hregs⟩ := hw
  cases h with
  | work _ =>
    refine ⟨hne, hview.trans ?_⟩
    rw [Event.apply, Function.update_of_ne hne, hregs]
  | @switch j _ _ _ _ =>
    refine ⟨fun hj => ?_, hview.trans hregs⟩
    obtain rfl : i = j := hj
    exact hswitch _ rfl
  | @init j ra sp m _ _ =>
    have hij : i ≠ j := by
      rintro rfl
      exact hinit _ _ rfl
    refine ⟨hne, hview.trans ?_⟩
    rw [Event.apply, Function.update_of_ne hij, hregs]

theorem Waits.run (hw : Waits C i regs s₁) (hrun : Trace (· = s₁) (Step t C) es s₂)
    (hswitch : ∀ k, Event.switch k i ∉ es) (hinit : ∀ ra sp, Event.init i ra sp ∉ es) :
    Waits C i regs s₂ := by
  induction hrun with
  | start h => exact h ▸ hw
  | step _ ht ih =>
    simp only [List.mem_append, List.mem_singleton, not_or] at hswitch hinit
    exact (ih (fun k => (hswitch k).1) fun ra sp => (hinit ra sp).1).step ht
      (fun k => Ne.symm (hswitch k).2) fun ra sp => Ne.symm (hinit ra sp).2

/-- For the thread that calls it, `Switch` is a function that returns: when its turn comes again, after
any run of the others, it goes on at its return address with `sp` and the registers `s0` to `s11` that it
had. -/
theorem switch_returns {k : Thread} (hcall : Step t C s (.switch i j) s₁)
    (hrun : Trace (· = s₁) (Step t C) es s₂) (hswitch : ∀ k, Event.switch k i ∉ es)
    (hinit : ∀ ra sp, Event.init i ra sp ∉ es) (hback : Step t C s₂ (.switch k i) s₃) :
    (∀ r ∈ SavedContext.registers, s₃.hart.reg r = s.hart.reg r) ∧ s₃.hart.pc = s.hart.reg .ra := by
  have hw : Waits C i (fun r => s.hart.reg r) s₁ := by
    have hview := congrFun hcall.view i
    cases hcall with
    | switch _ _ _ hne =>
      refine ⟨Ne.symm hne, hview.trans ?_⟩
      rw [Event.apply, State.view, if_pos rfl]
  obtain ⟨-, hregs⟩ := hw.run hrun hswitch hinit
  obtain ⟨-, hreg, hpc⟩ := hback.resume
  rw [hregs] at hreg hpc
  exact ⟨fun r hr => hreg ⟨r, hr⟩, hpc⟩

/-- Addresses for the contexts: that of the hart, then those of the table of processes. -/
def contextAddress : Thread → ℕ
  | none => 0x80040000
  | some p => 0x80040100 + 0x100 * p

theorem contextAddress_lt : ∀ i : Thread, contextAddress i < 0x80050000
  | none => by decide
  | some p => by
    have : (p : ℕ) < 64 := p.isLt
    rw [contextAddress]
    omega

def contexts : Contexts where
  addr i := BitVec.ofNat 64 (contextAddress i)
  fits i := by
    have := contextAddress_lt i
    rw [BitVec.toNat_ofNat]
    unfold SIZE
    omega
  apart {i j} hij := by
    have hi := contextAddress_lt i
    have hj := contextAddress_lt j
    rw [BitVec.toNat_ofNat, BitVec.toNat_ofNat, Nat.mod_eq_of_lt (by omega), Nat.mod_eq_of_lt (by omega)]
    unfold SIZE
    cases i with
    | none =>
      cases j with
      | none => exact absurd rfl hij
      | some q =>
        simp only [contextAddress]
        omega
    | some p =>
      cases j with
      | none =>
        simp only [contextAddress]
        omega
      | some q =>
        have hpq : (p : ℕ) ≠ q := fun h => hij (congrArg some (Fin.ext h))
        simp only [contextAddress]
        omega

/-- A thread that calls `Switch`. -/
def calling (i j : Thread) (m : Memory) : Hart where
  reg r := match r with
    | .a0 => contexts.addr i
    | .a1 => contexts.addr j
    | _ => 0x80200000
  csr _ := 0
  mode := .machine
  mpp := .machine
  mpie := false
  mie := false
  pc := Trap.linked.addr .Switch
  mem := m

theorem switch_returns_dispatch : ∃ s s₃ : State, s.current = none ∧ s₃.current = none ∧
    (∀ r ∈ SavedContext.registers, s₃.hart.reg r = s.hart.reg r) ∧ s₃.hart.pc = s.hart.reg .ra := by
  let s : State := ⟨calling none (some 0) fun _ => 0, none⟩
  let s₁ : State := ⟨Trap.linked.text.go 1 s.hart, some 0⟩
  let s₂ : State := ⟨calling (some 0) none s₁.hart.mem, some 0⟩
  let regs : Saved → Word := fun r => s₂.hart.reg r
  have hcall : Step Trap.linked contexts s (.switch none (some 0)) s₁ :=
    .switch rfl rfl rfl (Option.some_ne_none 0)
  have hwork : Step Trap.linked contexts s₁ (.work (some 0) regs) s₂ :=
    .work (h := s₂.hart) (Memory.Same.refl _ _)
  have hrun : Trace (· = s₁) (Step Trap.linked contexts) ([] ++ [.work (some 0) regs]) s₂ :=
    .step (.start rfl) hwork
  have hback : Step Trap.linked contexts s₂ (.switch (some 0) none) ⟨Trap.linked.text.go 1 s₂.hart, none⟩ :=
    .switch rfl rfl rfl (Option.some_ne_none 0).symm
  obtain ⟨hreg, hpc⟩ := switch_returns hcall hrun (by simp) (by simp) hback
  exact ⟨_, _, rfl, rfl, hreg, hpc⟩

end Threads

end OrangeOs.Kernel
