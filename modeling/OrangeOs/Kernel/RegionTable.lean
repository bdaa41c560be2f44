import OrangeOs.Kernel.ForkMemory
import OrangeOs.Kernel.Loader
import OrangeOs.Kernel.Scheduler

/-! # The region table

The system calls that change the regions of processes, over every run. The loader checks that the
table of 16 regions has room; `ExpandMemory` does not, so that the region after the sixteenth is
written past its end.
-/

namespace OrangeOs.Kernel

open VirtualMemory

/-- The processes and the memory. `grown` marks the regions that `ExpandMemory` added. -/
structure Tasks where
  task : Slot → Task
  vm : VirtualMemory
  grown : Slot → Set (Fin 16)

/-- The calls that change regions, with the parts of their input that are not in the state: the file
that is opened, what a variable that is not initialised holds, and what the copy of the arguments or
the relocation writes. -/
inductive Tasks.Call (σ : Type) where
  | sbrk (p : Slot) (bytes : UInt32)
  | framebuffer (p : Slot) (height width : UInt32)
  | exec (p : Slot) (file : σ) (junk : List UInt8) (args : Memory → Memory)
  | dlopen (p : Slot) (file : σ) (junk : List UInt8) (relocate : Memory → Memory)
  | fork (src dst : Slot)
  | reset (p : Slot)
  /-- Programs and other parts of the kernel use the memory. -/
  | other (vm : VirtualMemory)

namespace TaskMemory

/-- A process whose members are zero, but for the kernel stack. -/
def zero (kernel_sp : ℕ) : TaskMemory := ⟨0, 0, 0, fun _ => (0, 0), kernel_sp, 0, 0, .none⟩

end TaskMemory

namespace Task

/-- `CopyMemoryFrom`. -/
def copyMemoryFrom (p process : Task) : Task :=
  { p with
    page_table := process.page_table
    frame := process.frame
    used_address_size := process.used_address_size
    used_address := process.used_address
    user_sp := process.user_sp
    dynamic_info := process.dynamic_info }

end Task

namespace Tasks

open TaskMemory

variable {σ : Type}

def setTask (s : Tasks) (p : Slot) (t : Task) (v : VirtualMemory) : Tasks :=
  { s with task := Function.update s.task p t, vm := v }

def setMemory (s : Tasks) (p : Slot) (t : TaskMemory) (v : VirtualMemory) : Tasks :=
  s.setTask p { s.task p with toTaskMemory := t } v

def setGrown (s : Tasks) (p : Slot) (g : Set (Fin 16)) : Tasks :=
  { s with grown := Function.update s.grown p g }

/-- `ExpandMemory` of a process. -/
def expand (s : Tasks) (p : Slot) (bytes : ℕ) : Except Crash Tasks := do
  let (_, t, v) ← (s.task p).expandMemory s.vm bytes
  return (s.setMemory p t v).setGrown p
    (s.grown p ∪ { i | (s.task p).used_address_size ≤ i ∧ i < t.used_address_size })

/-- `sys_exec` of a file that can be opened. -/
def exec (S : StreamBase σ) (s : Tasks) (p : Slot) (file : σ) (junk : List UInt8)
    (args : Memory → Memory) : Except Crash Tasks := do
  let (new_page, v) ← lift s.vm.alloc
  if new_page = 0 then return { s with vm := v }
  else
    let (initialised, tmp, v) ← lift ((zero (s.task p).kernel_sp).init v false)
    if ¬ initialised then return { s with vm := v }
    else
      let (loaded, tmp, v) ← executeImpl S junk file ⟨tmp, {}⟩ v
      if ¬ loaded then
        let v ← lift (tmp.freePageTable v false)
        return { s with vm := v }
      else
        let v ← lift ((s.task p).freePageTable { v with mem := args v.mem } false)
        let v ← lift (v.freePage new_page)
        return (s.setTask p ((s.task p).copyMemoryFrom tmp) v).setGrown p ∅

/-- `sys_dlopen` of a file that can be opened. -/
def dlopen (S : StreamBase σ) (s : Tasks) (p : Slot) (file : σ) (junk : List UInt8)
    (relocate : Memory → Memory) : Except Crash Tasks :=
  if (s.task p).dynamic_info.dynamic_vaddr = 0 ∨ (s.task p).dynamic_info.dynamic_size = 0 then .ok s
  else do
    let max_mem_addr ← lift ((s.task p).maxMemAddr 0 0 (s.task p).used_address_size)
    let (_, _, l) ← load S Elf.ET_DYN (addrCastUp max_mem_addr) junk ⟨s.task p, {}, s.vm, file⟩
    return s.setTask p l.process { l.vm with mem := relocate l.vm.mem }

/-- `sys_fork`, with the slot that `AllocProc` finds. -/
def fork (s : Tasks) (src dst : Slot) : Except Crash Tasks := do
  let (initialised, t, v) ← lift ((s.task dst).init s.vm true)
  if ¬ initialised then return s.setMemory dst t v
  else
    let (copied, t, v) ← lift (t.copyMemoryOf (s.task src).toTaskMemory v)
    if ¬ copied then return s.setMemory dst t v
    else return (s.setTask dst ⟨t, (s.task src).dynamic_info⟩ v).setGrown dst (s.grown src)

/-- `ResetProcess`. -/
def reset (s : Tasks) (p : Slot) : Except Crash Tasks := do
  let v ← lift ((s.task p).freePageTable s.vm true)
  return (s.setMemory p (zero 0) v).setGrown p ∅

def call (S : StreamBase σ) (s : Tasks) : Call σ → Except Crash Tasks
  | .sbrk p bytes => s.expand p bytes.toNat
  | .framebuffer p height width => s.expand p (height * width * 4).toNat
  | .exec p file junk args => s.exec S p file junk args
  | .dlopen p file junk relocate => s.dlopen S p file junk relocate
  | .fork src dst => s.fork src dst
  | .reset p => s.reset p
  | .other vm => .ok { s with vm := vm }

/-- `ExcuteInitProcess`, with the slot that `AllocProc` finds. It does not look at the result of
`ExecuteImpl`. -/
def excuteInitProcess (S : StreamBase σ) (s : Tasks) (p : Slot) (file : σ) (junk : List UInt8) :
    Except Crash Tasks := do
  let (initialised, t, v) ← lift ((s.task p).init s.vm true)
  if ¬ initialised then .error (.fault .panic)
  else
    let (_, t, v) ← executeImpl S junk file { s.task p with toTaskMemory := t } v
    return s.setTask p t v

/-- The kernel has made the init process; no process has had a region before. -/
def Boot (S : StreamBase σ) (s : Tasks) : Prop :=
  ∃ (s₀ : Tasks) (p : Slot) (file : σ) (junk : List UInt8), (∀ q, (s₀.task q).used_address_size = 0 ∧
    s₀.grown q = ∅) ∧ s₀.excuteInitProcess S p file junk = .ok s

/-! ## What holds, and when -/

end Tasks

namespace TaskMemory

/-- The table is not too long, and a region that `ExpandMemory` added shares no page with another
region. -/
structure Bounded (p : TaskMemory) (grown : Set (Fin 16)) : Prop where
  size_le : p.used_address_size ≤ 16
  grown_lt : ∀ i ∈ grown, i < p.used_address_size
  apart : ∀ i ∈ grown, ∀ j : Fin 16, j < p.used_address_size → i ≠ j →
    ∀ x y, p.Region i x → p.Region j y → x / PGSIZE ≠ y / PGSIZE

/-- `ExpandMemory` finds pages for the new region. -/
def CanMap (p : TaskMemory) (v : VirtualMemory) (bytes : ℕ) : Prop :=
  ∃ m v', p.maxMemAddr 0 0 p.used_address_size = .ok m ∧
    v.mapMemory p.page_table (addrCastUp m) ((addrCastUp m + bytes) % 2 ^ 64)
      (PTE.R ||| PTE.W ||| PTE.U) = .ok (true, v')

/-- The page after the highest region does not wrap around. -/
def EndsFit (p : TaskMemory) : Prop :=
  ∀ i : Fin 16, i < p.used_address_size → (p.used_address i).2.toNat + PGSIZE ≤ 2 ^ 64

end TaskMemory

/-- No segment of the file wraps around when it is loaded at `offset`. -/
def SegmentsFit {σ : Type} (S : StreamBase σ) (file : σ) (junk : List UInt8) (offset : ℕ) : Prop :=
  ∀ s, S.After file s → ∀ i < Elf.e_phnum (header S file junk).1,
    ∀ ph, ph = (S.readForType (S.seek s ((Elf.e_phoff (header S file junk).1 +
        i * Elf.e_phentsize (header S file junk).1) % 2 ^ 64)) junk Elf.phdrSize).1 →
      Elf.p_type ph = Elf.PT_LOAD → Elf.p_vaddr ph + offset < 2 ^ 64

namespace Tasks

variable {σ : Type} {S : StreamBase σ} {s t : Tasks} {p q : Slot} {v : VirtualMemory}
  {file : σ} {junk : List UInt8}

def Bounded (s : Tasks) : Prop := ∀ p, (s.task p).Bounded (s.grown p)

/-- A call of `ExpandMemory` that has room for its region. -/
def Room (s : Tasks) (p : Slot) (bytes : ℕ) : Prop :=
  bytes ≠ 0 → (s.task p).CanMap s.vm bytes →
    (s.task p).used_address_size < 16 ∧ (s.task p).EndsFit

/-- The condition on a call. -/
def Fits (S : StreamBase σ) (s : Tasks) : Call σ → Prop
  | .sbrk p bytes => s.Room p bytes.toNat
  | .framebuffer p height width => s.Room p (height * width * 4).toNat
  | .dlopen p file junk _ => (s.task p).EndsFit ∧
      ∀ m, (s.task p).maxMemAddr 0 0 (s.task p).used_address_size = .ok m →
        SegmentsFit S file junk (addrCastUp m)
  | _ => True

end Tasks

/-! ## One call -/

namespace TaskMemory

variable {p q src : TaskMemory} {g g' : Set (Fin 16)} {lo bytes : ℕ} {v : VirtualMemory}

theorem bounded_empty (h : p.used_address_size ≤ 16) : p.Bounded ∅ :=
  ⟨h, fun _ hi => hi.elim, fun _ hi => hi.elim⟩

/-- Only the used part of the table matters. -/
theorem Bounded.congr (h : p.Bounded g) (hsize : q.used_address_size = p.used_address_size)
    (heq : ∀ i : Fin 16, i < p.used_address_size → q.used_address i = p.used_address i) :
    q.Bounded g where
  size_le := hsize ▸ h.size_le
  grown_lt := hsize ▸ h.grown_lt
  apart i hi j hj hne x y hx hy := by
    rw [hsize] at hj
    rw [Region, heq i (h.grown_lt i hi)] at hx
    rw [Region, heq j hj] at hy
    exact h.apart i hi j hj hne x y hx hy

/-- New regions above all others, from a page boundary on. At most one of them is marked, or none. -/
theorem Bounded.append (h : p.Bounded g) (hq : Appended lo p q) (hlo : lo % 4096 = 0)
    (hle : ∀ i : Fin 16, i < p.used_address_size → (p.used_address i).2.toNat ≤ lo)
    (hg : ∀ i ∈ g', i ∈ g ∨ p.used_address_size ≤ i ∧ i < q.used_address_size)
    (hone : g' = g ∨ q.used_address_size ≤ p.used_address_size + 1) : q.Bounded g' := by
  have hlt : ∀ i ∈ g', (i : ℕ) < q.used_address_size := fun i hi =>
    (hg i hi).elim (fun hi => (h.grown_lt i hi).trans_le hq.le_size) fun hi => hi.2
  -- an old region and a new one
  have hsep : ∀ i j : Fin 16, (i : ℕ) < p.used_address_size → p.used_address_size ≤ j →
      (j : ℕ) < q.used_address_size → ∀ x y, q.Region i x → q.Region j y → x / 4096 ≠ y / 4096 := by
    intro i j hi hj hj' x y hx hy
    have hend := hle i hi
    have hbeg := hq.lo_le j hj hj'
    rw [Region, hq.keep i hi] at hx
    rw [Region] at hy
    omega
  refine ⟨hq.size_le, hlt, fun i hi j hj hne x y hx hy => ?_⟩
  show x / 4096 ≠ y / 4096
  by_cases hi' : (i : ℕ) < p.used_address_size
  · by_cases hj' : (j : ℕ) < p.used_address_size
    · have hold : i ∈ g := (hg i hi).resolve_right fun hnew => absurd hi' (by omega)
      rw [Region, hq.keep i hi'] at hx
      rw [Region, hq.keep j hj'] at hy
      exact h.apart i hold j hj' hne x y hx hy
    · exact hsep i j hi' (by omega) hj x y hx hy
  · by_cases hj' : (j : ℕ) < p.used_address_size
    · exact (hsep j i hj' (by omega) (hlt i hi) y x hy hx).symm
    · rcases hone with rfl | hone
      · exact absurd (h.grown_lt i hi) hi'
      · have := hlt i hi
        exact absurd (Fin.ext (by omega)) hne

/-- `Init` leaves the table alone. -/
theorem init_gives (need : Bool) : Gives (fun r => r.2.1.used_address_size = p.used_address_size ∧
    r.2.1.used_address = p.used_address) (p.init v need) := by
  have hfree : ∀ (b : Bool) (t : TaskMemory) (v : VirtualMemory) (l : List ℕ),
      t.used_address_size = p.used_address_size ∧ t.used_address = p.used_address →
      Gives (fun r : Bool × TaskMemory × VirtualMemory =>
          r.2.1.used_address_size = p.used_address_size ∧ r.2.1.used_address = p.used_address)
        (do return (b, t, ← v.freePages l)) := fun b t v l ht =>
    Outcome.bind (gives_self _) fun _ _ => .ok ht
  unfold init
  refine Outcome.bind (gives_self _) ?_
  rintro ⟨frame_page, v₁⟩ -
  dsimp only
  refine Outcome.ite (fun _ => .ok ⟨rfl, rfl⟩) fun _ => ?_
  refine Outcome.bind (gives_self _) ?_
  rintro ⟨root_page_table, v₂⟩ -
  dsimp only
  refine Outcome.ite (fun _ => hfree _ _ _ _ ⟨rfl, rfl⟩) fun _ => ?_
  refine Outcome.bind (gives_self _) ?_
  rintro ⟨user_stack_page, v₃⟩ -
  dsimp only
  refine Outcome.ite (fun _ => hfree _ _ _ _ ⟨rfl, rfl⟩) fun _ => ?_
  refine Outcome.bind (gives_self _) ?_
  rintro ⟨mapped, v₄⟩ -
  dsimp only
  refine Outcome.ite (fun _ => hfree _ _ _ _ ⟨rfl, rfl⟩) fun _ => ?_
  refine Outcome.ite (fun _ => Outcome.bind (gives_self _) ?_) fun _ => ?_
  · rintro ⟨sp_page, v₅⟩ -
    rw [pure_bind]
    refine Outcome.ite (fun _ => hfree _ _ _ _ ⟨rfl, rfl⟩) fun _ => ?_
    exact Outcome.ite (fun _ => .ok ⟨rfl, rfl⟩) fun _ => .ok ⟨rfl, rfl⟩
  · rw [pure_bind]
    refine Outcome.ite (fun _ => hfree _ _ _ _ ⟨rfl, rfl⟩) fun _ => ?_
    exact Outcome.ite (fun _ => .ok ⟨rfl, rfl⟩) fun _ => .ok ⟨rfl, rfl⟩

/-- `CopyFrom` copies the used part of the table, or nothing. -/
theorem copyMemoryOf_gives : Gives (fun r => if r.1 then
    r.2.1.used_address_size = src.used_address_size ∧
      ∀ i : Fin 16, i < src.used_address_size → r.2.1.used_address i = src.used_address i
    else r.2.1 = p) (p.copyMemoryOf src v) := by
  unfold copyMemoryOf
  refine Outcome.bind (gives_self _) ?_
  rintro ⟨copied, v₁⟩ -
  dsimp only
  refine Outcome.ite (fun _ => .ok ?_) fun _ => ?_
  · simp
  · refine Outcome.ite (fun _ => .error trivial) fun _ => .ok ?_
    exact ⟨rfl, fun i hi => if_pos hi⟩

/-- `ExpandMemory` adds at most one region, above all others, when it has room. -/
theorem expandMemory_yields (hsize : p.used_address_size ≤ 16)
    (hroom : bytes ≠ 0 → p.CanMap v bytes → p.used_address_size < 16 ∧ p.EndsFit) :
    Yields (fun r => r.2.1.used_address_size ≤ p.used_address_size + 1 ∧
      ∃ lo, lo % 4096 = 0 ∧
        (∀ i : Fin 16, i < p.used_address_size → (p.used_address i).2.toNat ≤ lo) ∧
        Appended lo p r.2.1) (p.expandMemory v bytes) := by
  have hnone : ∀ (m : ℕ) (v : VirtualMemory),
      Yields (fun r : ℕ × TaskMemory × VirtualMemory =>
        r.2.1.used_address_size ≤ p.used_address_size + 1 ∧ ∃ lo, lo % 4096 = 0 ∧
          (∀ i : Fin 16, i < p.used_address_size → (p.used_address i).2.toNat ≤ lo) ∧
          Appended lo p r.2.1) (.ok (m, p, v)) := fun m v =>
    .ok ⟨Nat.le_succ _, 2 ^ 64, by decide, fun i _ => (p.used_address i).2.toNat_lt.le,
      .refl _ hsize⟩
  unfold expandMemory
  refine Outcome.ite (fun _ => hnone 0 v) fun hb => ?_
  obtain ⟨m, hm, -, hmax, hfrom⟩ := maxMemAddr_eq (p := p) (i := 0) (m := 0)
    (show 0 + p.used_address_size ≤ 16 by omega)
  rw [hm]
  refine Outcome.bind (lift_yields _) ?_
  rintro m' hm'
  obtain rfl := Except.ok.inj hm'
  refine Outcome.bind (lift_yields _) ?_
  rintro ⟨mapped, v'⟩ hmap
  dsimp only
  refine Outcome.ite (fun _ => hnone 0 v') fun hmapped => ?_
  obtain rfl : mapped = true := by simpa using hmapped
  obtain ⟨hroom, hends⟩ := hroom hb ⟨m, v', hm, hmap⟩
  have hm64 : m + 4096 ≤ 2 ^ 64 := by
    rcases hfrom with rfl | ⟨j, -, hj, rfl⟩
    · decide
    · exact hends j (by omega)
  have hup := addrCastUp_eq (show m + 4095 < 2 ^ 64 by omega)
  refine Outcome.bind (addRegion_yields hroom (show addrCastUp m < 2 ^ 64 by omega)
    (Nat.mod_lt _ (by decide))) ?_
  rintro q ⟨hq, hqsize, -⟩
  refine .ok ⟨hqsize.le, addrCastUp m, by omega, fun i hi => ?_, hq⟩
  have := hmax i (Nat.zero_le _) (by omega)
  omega

end TaskMemory

namespace Tasks

open TaskMemory

variable {σ : Type} {S : StreamBase σ} {s t : Tasks} {p q : Slot} {v : VirtualMemory}
  {file : σ} {junk : List UInt8}

theorem Bounded.setTask (h : s.Bounded) {t : Task} {g : Set (Fin 16)} (ht : t.Bounded g) :
    ((s.setTask p t v).setGrown p g).Bounded := by
  intro q
  simp only [setGrown, Tasks.setTask, Function.update_apply]
  split
  · exact ht
  · exact h q

/-- The marks stay. -/
theorem Bounded.setTask_same (h : s.Bounded) {t : Task} (ht : t.Bounded (s.grown p)) :
    (s.setTask p t v).Bounded := by
  have heq : (s.setTask p t v).setGrown p (s.grown p) = s.setTask p t v := by
    rw [setGrown, Tasks.setTask, Function.update_eq_self]
  exact heq ▸ h.setTask ht

theorem Bounded.expand (h : s.Bounded) {bytes : ℕ} (hroom : s.Room p bytes) :
    Yields Bounded (s.expand p bytes) := by
  refine Outcome.bind (expandMemory_yields (h p).size_le hroom) ?_
  rintro ⟨addr, t, v⟩ ⟨hsize, lo, hlo, hle, happ⟩
  exact .ok (h.setTask ((h p).append happ hlo hle (fun i hi => hi) (.inr hsize)))

theorem Bounded.exec (h : s.Bounded) (args : Memory → Memory) :
    Yields Bounded (s.exec S p file junk args) := by
  refine Outcome.bind (lift_yields _) ?_
  rintro ⟨new_page, v₁⟩ -
  dsimp only
  refine Outcome.ite (fun _ => .ok h) fun _ => ?_
  refine Outcome.bind (init_gives false).lift ?_
  rintro ⟨initialised, tmp, v₂⟩ ⟨hsize, -⟩
  dsimp only
  refine Outcome.ite (fun _ => .ok h) fun _ => ?_
  refine Outcome.bind (executeImpl_yields (hsize.trans_le (Nat.zero_le _))) ?_
  rintro ⟨loaded, tmp', v₃⟩ htmp
  dsimp only
  refine Outcome.ite (fun _ => ?_) fun _ => ?_
  · exact Outcome.bind (lift_yields _) fun v _ => .ok h
  · refine Outcome.bind (lift_yields _) fun v₄ _ => Outcome.bind (lift_yields _) fun v₅ _ => ?_
    exact .ok (h.setTask (bounded_empty htmp.size_le))

theorem Bounded.dlopen (h : s.Bounded) {relocate : Memory → Memory}
    (hf : s.Fits S (.dlopen p file junk relocate)) :
    Yields Bounded (s.dlopen S p file junk relocate) := by
  obtain ⟨hends, hfit⟩ := hf
  refine Outcome.ite (fun _ => .ok h) fun _ => ?_
  have hsize := (h p).size_le
  obtain ⟨m, hm, -, hmax, hfrom⟩ := maxMemAddr_eq (p := (s.task p).toTaskMemory) (i := 0) (m := 0)
    (show 0 + (s.task p).used_address_size ≤ 16 by omega)
  have hm64 : m + 4096 ≤ 2 ^ 64 := by
    rcases hfrom with rfl | ⟨j, -, hj, rfl⟩
    · decide
    · exact hends j (by omega)
  have hup := addrCastUp_eq (show m + 4095 < 2 ^ 64 by omega)
  rw [hm]
  refine Outcome.bind (lift_yields _) ?_
  rintro m' hm'
  obtain rfl := Except.ok.inj hm'
  refine Outcome.bind (load_yields (addrCastUp m) hsize fun st hst j hj ph hph htype => ?_) ?_
  · rw [Nat.mod_eq_of_lt (hfit m hm st hst j hj ph hph htype)]
    exact Nat.le_add_left _ _
  · rintro ⟨loaded, entry, l⟩ happ
    have hb : l.process.Bounded (s.grown p) := (h p).append happ (by omega)
      (fun i hi => (hmax i (Nat.zero_le _) (by omega)).trans (by omega)) (fun i hi => .inl hi)
      (.inl rfl)
    exact .ok (h.setTask_same hb)

theorem Bounded.fork (h : s.Bounded) : Yields Bounded (s.fork p q) := by
  -- the table of the slot is as before
  have hsame : ∀ (t : TaskMemory) (v : VirtualMemory),
      t.used_address_size = (s.task q).used_address_size →
      t.used_address = (s.task q).used_address → (s.setMemory q t v).Bounded := by
    intro t v hsize haddr
    have hb : TaskMemory.Bounded t (s.grown q) := (h q).congr hsize fun i _ => congrFun haddr i
    exact h.setTask_same hb
  refine Outcome.bind (init_gives true).lift ?_
  rintro ⟨initialised, t, v₁⟩ ⟨hsize, haddr⟩
  dsimp only
  refine Outcome.ite (fun _ => .ok (hsame t v₁ hsize haddr)) fun _ => ?_
  refine Outcome.bind copyMemoryOf_gives.lift ?_
  rintro ⟨copied, t', v₂⟩ ht
  dsimp only at ht ⊢
  refine Outcome.ite (fun hc => ?_) fun hc => ?_
  · rw [if_neg hc] at ht
    subst ht
    exact .ok (hsame t' v₂ hsize haddr)
  · rw [if_pos (not_not.mp hc)] at ht
    exact .ok (h.setTask ((h p).congr ht.1 ht.2))

theorem Bounded.reset (h : s.Bounded) : Yields Bounded (s.reset p) :=
  Outcome.bind (lift_yields _) fun _ _ => .ok (h.setTask (bounded_empty (Nat.zero_le _)))

/-- A call that meets the condition. -/
theorem Bounded.call (h : s.Bounded) {c : Call σ} (hf : s.Fits S c) : Yields Bounded (s.call S c) := by
  cases c with
  | sbrk p bytes => exact h.expand hf
  | framebuffer p height width => exact h.expand hf
  | exec p file junk args => exact h.exec args
  | dlopen p file junk relocate => exact h.dlopen hf
  | fork src dst => exact h.fork
  | reset p => exact h.reset
  | other vm => exact .ok h

theorem Boot.bounded (h : Boot S s) : s.Bounded := by
  obtain ⟨s₀, p, file, junk, hzero, heq⟩ := h
  have h₀ : s₀.Bounded := fun q => by
    rw [(hzero q).2]
    exact bounded_empty ((hzero q).1.trans_le (Nat.zero_le _))
  refine Outcome.result (show Yields Bounded _ from ?_) s heq
  refine Outcome.bind (init_gives true).lift ?_
  rintro ⟨initialised, t, v₁⟩ ⟨hsize, -⟩
  dsimp only
  refine Outcome.ite (fun _ => .error ⟨_, rfl⟩) fun _ => ?_
  refine Outcome.bind (executeImpl_yields ?_) ?_
  · exact hsize.trans_le ((hzero p).1.trans_le (Nat.zero_le _))
  rintro ⟨loaded, t', v₂⟩ ht
  exact .ok (h₀.setTask_same ((hzero p).2 ▸ bounded_empty ht.size_le))

/-- In a run whose calls meet the condition no table is ever too long, no call writes a region past the
end of a table, and the regions that `ExpandMemory` added stay apart from all others. -/
theorem region_table_bounded
    (h : Reachable (Boot S) (fun s t => ∃ c, s.Fits S c ∧ s.call S c = .ok t) s) :
    s.Bounded ∧ ∀ c, s.Fits S c → ∀ i, s.call S c ≠ .error (.pastRegions i) := by
  have hb : s.Bounded := h.invariant (fun _ => Boot.bounded) fun s t hs ⟨c, hf, heq⟩ =>
    (hs.call hf).result t heq
  exact ⟨hb, fun c hf => (hb.call hf).ne_pastRegions⟩

end Tasks

/-! ## A program that grows in small steps -/

section Overrun

open TaskMemory Memory

variable {v v' : VirtualMemory} {p : TaskMemory} {T T' : List (Fin 512) → Option ℕ} {L L' : List ℕ}
  {n k x y root : ℕ}

/-- An ELF file with one segment, of four bytes at address 0. -/
def tinyFile : List UInt8 :=
  [0x7f, 0x45, 0x4c, 0x46, 2, 1, 1, 0, 0, 0, 0, 0, 0, 0, 0, 0, 2, 0, 243, 0, 1, 0, 0, 0,
    0, 0, 0, 0, 0, 0, 0, 0, 64, 0, 0, 0, 0, 0, 0, 0, 0, 0, 0, 0, 0, 0, 0, 0,
    0, 0, 0, 0, 64, 0, 56, 0, 1, 0, 0, 0, 0, 0, 0, 0] ++
  [1, 0, 0, 0, 5, 0, 0, 0, 120, 0, 0, 0, 0, 0, 0, 0, 0, 0, 0, 0, 0, 0, 0, 0,
    0, 0, 0, 0, 0, 0, 0, 0, 4, 0, 0, 0, 0, 0, 0, 0, 4, 0, 0, 0, 0, 0, 0, 0,
    0, 0, 0, 0, 0, 0, 0, 0] ++ [0x73, 0, 0, 0]

/-- The paths of the first 17 pages and of the stack page, with those of their tables. -/
def lowPaths : Finset (List (Fin 512)) :=
  (Finset.range 3).image (fun j => indices userStackVa 2 (j + 1)) ∪
    (Finset.range 17 ×ˢ Finset.range 3).image fun i => indices (i.1 * 4096) 2 (i.2 + 1)

/-- A process with `n` regions, one in each of its first pages, and memory for the pages up to the
seventeenth. -/
structure Growing (n : ℕ) (p : TaskMemory) (v : VirtualMemory) (T : List (Fin 512) → Option ℕ)
    (L : List ℕ) : Prop where
  space : AddressSpace v p.page_table T L
  enough : Enough T lowPaths 0 L
  size : p.used_address_size = n
  ends : ∀ i : Fin 16, i < n → i * 4096 < (p.used_address i).2.toNat ∧
    (p.used_address i).2.toNat ≤ (i + 1) * 4096
  free : ∀ k, n ≤ k → k ≤ 16 → T (path (k * 4096)) = none

theorem mem_lowPaths (hk : k ≤ 16) : ∀ j < 3, indices (k * 4096) 2 (j + 1) ∈ lowPaths := fun j hj =>
  Finset.mem_union_right _ (Finset.mem_image.mpr ⟨(k, j), by simp; omega, rfl⟩)

theorem card_lowPaths : lowPaths.card ≤ 54 := by
  refine (Finset.card_union_le _ _).trans ?_
  show _ ≤ 3 + 51
  exact Nat.add_le_add Finset.card_image_le Finset.card_image_le

theorem path_none_of_new (hx : x ≤ MAX_SUPPORT_VA) (hy : y ≤ MAX_SUPPORT_VA) (hne : y / 4096 ≠ x / 4096)
    (hnone : T (path y) = none)
    (hnew : ∀ r, T r = none → T' r ≠ none → ∃ j < 3, r = indices x 2 (j + 1)) :
    T' (path y) = none := by
  by_contra hsome
  obtain ⟨j, hj, he⟩ := hnew _ hnone hsome
  have hlen := congrArg List.length he
  rw [path, length_indices, length_indices] at hlen
  obtain rfl : j = 2 := by omega
  simp only [MAX_SUPPORT_VA] at hx hy
  exact hne ((path_inj (by omega) (by omega)).mp he)

/-- The next page can be mapped. -/
theorem Growing.mapMemory (h : Growing n p v T L) (hn : n ≤ 16) (hxy : y < 4096) (hy : 0 < y)
    (hk : k < 32) (hk' : k &&& PTE_MASK = k) :
    ∃ v' T' L' c, v.mapMemory p.page_table (n * 4096) (n * 4096 + y) k = .ok (true, v') ∧
      AddressSpace v' p.page_table T' L' ∧ Extends v T L v' T' L' ∧ T' (path (n * 4096)) = some c ∧
      Enough T' lowPaths 0 L' ∧ ∀ i, n + 1 ≤ i → i ≤ 16 → T' (path (i * 4096)) = none := by
  obtain ⟨v', T', L', c, heq, hspace, hext, hc, -, hM, hnew⟩ := h.space.mapMemory_page
    (x := n * 4096) (y := n * 4096 + y) (by omega) (by omega)
    (by simp only [MAX_SUPPORT_VA]; omega) (h.free n le_rfl hn) hk hk' h.enough (mem_lowPaths hn)
  refine ⟨v', T', L', c, heq, hspace, hext, hc, hM, fun i hi hi' => ?_⟩
  refine path_none_of_new (x := n * 4096) ?_ ?_ (by omega) (h.free i (by omega) hi') hnew
  · simp only [MAX_SUPPORT_VA]; omega
  · simp only [MAX_SUPPORT_VA]; omega

/-- One region more. -/
theorem Growing.add (h : Growing n p v T L) {q : TaskMemory} (hxy : y < 4096) (hy : 0 < y)
    (hspace : AddressSpace v' p.page_table T' L') (hM : Enough T' lowPaths 0 L')
    (hfree : ∀ i, n + 1 ≤ i → i ≤ 16 → T' (path (i * 4096)) = none)
    (hadd : p.addRegion (n * 4096) (n * 4096 + y) = .ok q) (hn : n < 16) :
    Growing (n + 1) q v' T' L' := by
  obtain ⟨happ, hsize, hnew⟩ := (addRegion_yields (show p.used_address_size < 16 by rw [h.size]; omega)
    (by omega) (by omega)).result q hadd
  have hroot : q.page_table = p.page_table := by
    rw [addRegion, dif_pos (by rw [h.size]; omega)] at hadd
    rw [← Except.ok.inj hadd]
  refine ⟨hroot ▸ hspace, hM, by rw [hsize, h.size], fun i hi => ?_, hfree⟩
  rcases Nat.lt_succ_iff_lt_or_eq.mp hi with hi | hi
  · rw [happ.keep i (by rw [h.size]; exact hi)]
    exact h.ends i hi
  · rw [(hnew i (by rw [h.size]; exact hi)).2]
    omega

/-- The end of the regions. -/
theorem Growing.maxMemAddr (h : Growing n p v T L) (hn : 0 < n) (hn' : n ≤ 16) :
    ∃ m, p.maxMemAddr 0 0 p.used_address_size = .ok m ∧ addrCastUp m = n * 4096 := by
  have hsize := h.size
  obtain ⟨m, hm, -, hmax, hfrom⟩ := maxMemAddr_eq (p := p) (i := 0) (m := 0)
    (show 0 + p.used_address_size ≤ 16 by omega)
  refine ⟨m, hm, ?_⟩
  have hlast := hmax ⟨n - 1, by omega⟩ (Nat.zero_le _) (show n - 1 < 0 + p.used_address_size by omega)
  have hends := h.ends ⟨n - 1, by omega⟩ (show n - 1 < n by omega)
  have hle : m ≤ n * 4096 := by
    rcases hfrom with rfl | ⟨j, -, hj, rfl⟩
    · omega
    · have := h.ends j (by omega)
      omega
  simp only at hends hlast
  rw [addrCastUp_eq (by omega)]
  omega

/-- `ExpandMemory` when the pages can be mapped. -/
theorem expandMemory_eq {m bytes : ℕ} (hb : bytes ≠ 0)
    (hm : p.maxMemAddr 0 0 p.used_address_size = .ok m) (hup : addrCastUp m = x)
    (hy : (x + bytes) % 2 ^ 64 = y)
    (hmap : v.mapMemory p.page_table x y (PTE.R ||| PTE.W ||| PTE.U) = .ok (true, v')) :
    p.expandMemory v bytes = p.addRegion x y >>= fun q => .ok (x, q, v') := by
  rw [expandMemory, if_neg hb, hm, lift_ok_bind]
  simp only [hup, hy]
  rw [hmap, lift_ok_bind]
  rfl

/-- `ExpandMemory` by one byte. -/
theorem Growing.expandMemory (h : Growing n p v T L) (hn : 0 < n) (hn' : n < 16) :
    ∃ q v' T' L', p.expandMemory v 1 = .ok (n * 4096, q, v') ∧ Growing (n + 1) q v' T' L' := by
  obtain ⟨m, hm, hup⟩ := h.maxMemAddr hn hn'.le
  obtain ⟨v', T', L', c, heq, hspace, -, -, hM, hfree⟩ := h.mapMemory (y := 1)
    (k := PTE.R ||| PTE.W ||| PTE.U) hn'.le (by omega) (by omega) (by decide) (by decide)
  obtain ⟨q, hq⟩ : ∃ q, p.addRegion (n * 4096) (n * 4096 + 1) = .ok q :=
    ⟨_, dif_pos (by rw [h.size]; exact hn')⟩
  refine ⟨q, v', T', L', ?_, h.add (by omega) (by omega) hspace hM hfree hq hn'⟩
  have hmod : (n * 4096 + 1) % 2 ^ 64 = n * 4096 + 1 := Nat.mod_eq_of_lt (by omega)
  rw [expandMemory_eq one_ne_zero hm hup hmod heq, hq]
  rfl

/-- The same without room. -/
theorem Growing.expandMemory_full (h : Growing 16 p v T L) :
    p.expandMemory v 1 = .error (.pastRegions 16) := by
  obtain ⟨m, hm, hup⟩ := h.maxMemAddr (by omega) le_rfl
  obtain ⟨v', T', L', c, heq, -⟩ := h.mapMemory (y := 1)
    (k := PTE.R ||| PTE.W ||| PTE.U) le_rfl (by omega) (by omega) (by decide) (by decide)
  have hadd : p.addRegion (16 * 4096) (16 * 4096 + 1) = .error (.pastRegions 16) := by
    rw [addRegion, dif_neg (by rw [h.size]; omega), h.size]
  have hmod : (16 * 4096 + 1) % 2 ^ 64 = 16 * 4096 + 1 := Nat.mod_eq_of_lt (by omega)
  rw [expandMemory_eq one_ne_zero hm hup hmod heq, hadd]
  rfl

theorem length_tinyFile : tinyFile.length = 124 := rfl

theorem seek_tinyFile (pos : ℕ) (hx : x < 124) :
    StringStream.base.seek ⟨tinyFile, pos⟩ x = ⟨tinyFile, x⟩ :=
  StringStream.base_seek (length_tinyFile ▸ hx) (by rw [length_tinyFile]; decide)

/-- A header is read whole. -/
theorem readForType_tinyFile (hx : x + n ≤ 124) : StringStream.base.readForType ⟨tinyFile, x⟩ [] n =
    ((tinyFile.drop x).take n, ⟨tinyFile, x + n⟩) := by
  rw [StreamBase.readForType, StringStream.base_read (length_tinyFile ▸ hx)
    (by rw [length_tinyFile]; decide)]
  simp

theorem valid_tinyFile : Elf.valid (tinyFile.take 64) Elf.ET_EXEC = true := by decide

/-- The program header of the file. -/
def tinyHeader : List UInt8 := (tinyFile.drop 64).take 56

/-- The loader accepts the file and adds its segment to a table without regions. -/
theorem Growing.executeImpl (h : Growing 0 p v T L) (d : DynamicInfo) (hframe : IsPage p.frame)
    (hframeL : p.frame ∉ L) (hframeT : ∀ q, T q ≠ some p.frame) :
    ∃ q v' T' L', executeImpl StringStream.base [] ⟨tinyFile, 0⟩ ⟨p, d⟩ v = .ok (true, ⟨q, d⟩, v') ∧
      Growing 1 q v' T' L' := by
  obtain ⟨v₁, T', L', c, hmap, hspace, hext, hc, hM, hfree⟩ := h.mapMemory (y := 4)
    (k := PTE.R ||| PTE.X ||| PTE.U) (by omega) (by omega) (by omega) (by decide) (by decide)
  have hroom : p.used_address_size < 16 := by rw [h.size]; omega
  obtain ⟨q, hq⟩ : ∃ q, p.addRegion (0 * 4096) (0 * 4096 + 4) = .ok q := ⟨_, dif_pos hroom⟩
  have hcpage : IsPage c := hspace.page _ c hc
  rw [Nat.zero_mul] at hc
  have hne : c + 0 % 4096 ≠ 0 := by
    have := hcpage.ne_zero
    omega
  have hrest : 4 ≤ PGSIZE - (c + 0 % 4096) % PGSIZE := by
    have := hcpage.aligned
    rw [show PGSIZE = 4096 from rfl]
    omega
  obtain ⟨mem, st, hsame, hload⟩ : ∃ mem st, v₁.mem.Same mem (fun x => x < c ∨ c + 4096 ≤ x) ∧
      loadSegment StringStream.base ⟨tinyFile, 120⟩ v₁ p.page_table 0 4 =
        .ok (true, { v₁ with mem := mem }, st) :=
    ⟨_, _, (batchLoad_same StringStream.base ⟨tinyFile, 120⟩ v₁.mem 4 (c + 0 % 4096)).mono
      fun x hx => by omega, loadSegment_page _ _ (vaToPA_eq hspace.isTree hspace.page (by omega) hc 0)
      hne (by omega) hrest⟩
  have hheader : loadHeader StringStream.base Elf.ET_EXEC 0 tinyHeader
      ⟨⟨p, d⟩, {}, v, ⟨tinyFile, 120⟩⟩ = .ok (true, ⟨⟨q, d⟩, {}, { v₁ with mem := mem }, st⟩) := by
    have hnot : Elf.p_type tinyHeader ≠ Elf.PT_DYNAMIC := by decide
    have htype : ¬ Elf.p_type tinyHeader ≠ Elf.PT_LOAD := by decide
    have hoff : Elf.p_offset tinyHeader = 120 := by decide
    have hsize : Elf.p_filesz tinyHeader = 4 := by decide
    rw [loadHeader, if_neg hnot]
    simp only [if_neg htype]
    refine loadSegmentOf_eq (by decide) (by decide) (by decide) hmap ?_ hroom hq
    rw [hoff, seek_tinyFile 120 (by omega), hsize]
    exact hload
  have hfrom : load StringStream.base Elf.ET_EXEC 0 [] ⟨⟨p, d⟩, {}, v, ⟨tinyFile, 0⟩⟩ =
      .ok (true, 0, ⟨⟨q, d⟩, {}, { v₁ with mem := mem }, st⟩) := by
    have hread : header StringStream.base ⟨tinyFile, 0⟩ [] = (tinyFile.take 64, ⟨tinyFile, 64⟩) := by
      rw [header, seek_tinyFile 0 (by omega), readForType_tinyFile (by decide)]
      rfl
    have hphnum : Elf.e_phnum (tinyFile.take 64) = 1 := by decide
    have hpos : (Elf.e_phoff (tinyFile.take 64) + 0 * Elf.e_phentsize (tinyFile.take 64)) % 2 ^ 64 =
        64 :=
      by decide
    have hentry : Elf.e_entry (tinyFile.take 64) = 0 := by decide
    have hph : StringStream.base.readForType ⟨tinyFile, 64⟩ [] Elf.phdrSize =
        (tinyHeader, ⟨tinyFile, 120⟩) := readForType_tinyFile (by decide)
    rw [load]
    simp only [hread, valid_tinyFile, hphnum, hentry, not_true_eq_false, if_false]
    rw [loadFrom, hpos, seek_tinyFile 64 (by omega), hph]
    simp only [hheader]
    rfl
  have hcL : c ∉ L' := hspace.fresh _ c hc
  have hcT : ∀ r, r.length < 3 → T' r ≠ some c := fun r hr he => by
    rw [hspace.inj _ _ c he hc, path, length_indices] at hr
    omega
  have hspace' := hspace.of_page hcpage hcL hcT hsame
  have hspace'' := hspace'.of_page (d := p.frame) hframe (fun hf => hframeL (hext.sub _ hf))
    (fun r _ hr => (hext.new r _ hr).elim (hframeT r) hframeL)
    ((store_same mem (p.frame + 31 * 8) 8 0).mono fun x hx => by omega)
  have hqframe : q.frame = p.frame := by
    rw [addRegion, dif_pos hroom] at hq
    rw [← Except.ok.inj hq]
  refine ⟨q, _, T', L', ?_, h.add (by omega) (by omega) hspace'' hM hfree hq (by omega)⟩
  rw [Kernel.executeImpl, hfrom]
  simp only [← hqframe]
  rfl

/-- There is a kernel that has made an init process with one region. -/
theorem exists_boot : ∃ (s : Tasks) (T : List (Fin 512) → Option ℕ) (L : List ℕ),
    s.Boot StringStream.base ∧ Growing 1 (s.task 0).toTaskMemory s.vm T L := by
  obtain ⟨v, L, hl, hlen, -⟩ := exists_onList 60 (by omega)
  have hnil : [] ∉ lowPaths := by
    intro hq
    rcases Finset.mem_union.mp hq with hq | hq
    all_goals
      obtain ⟨x, -, he⟩ := Finset.mem_image.mp hq
      simp [indices] at he
  have hcard := card_lowPaths
  obtain ⟨p, v₁, T, L₁, hinit, h₁, hM⟩ := init_eq (n := 0) (p := zero 0) hl rfl
    (by rw [hl.size]; omega) hnil
    fun j hj => Finset.mem_union_left _ (Finset.mem_image.mpr ⟨j, Finset.mem_range.mpr hj, rfl⟩)
  have hsize : p.used_address_size = 0 := ((init_gives true).result _ hinit).1
  have hfree : ∀ k, 0 ≤ k → k ≤ 16 → T (path (k * 4096)) = none := by
    intro k _ hk
    by_contra hsome
    obtain ⟨j, hj, he⟩ := h₁.only _ (by simp [path, indices]) hsome
    have hlen := congrArg List.length he
    rw [path, length_indices, length_indices] at hlen
    obtain rfl : j = 2 := by omega
    have := (path_inj (by omega) (by decide)).mp he
    rw [userStackVa_eq] at this
    omega
  have h₀ : Growing 0 p v₁ T L₁ := ⟨h₁.space, hM, hsize, fun i hi => absurd hi (by omega), hfree⟩
  obtain ⟨q, v₂, T', L₂, hexec, hq⟩ := h₀.executeImpl {} (hl.page _ h₁.frame.1) h₁.frame.2.1
    h₁.frame.2.2
  refine ⟨⟨Function.update (fun _ => ⟨zero 0, {}⟩) 0 ⟨q, {}⟩, v₂, fun _ => ∅⟩, T', L₂,
    ⟨⟨fun _ => ⟨zero 0, {}⟩, v, fun _ => ∅⟩, 0, ⟨tinyFile, 0⟩, [], fun _ => ⟨rfl, rfl⟩, ?_⟩, ?_⟩
  · rw [Tasks.excuteInitProcess]
    simp only [hinit, lift_ok_bind, hexec, not_true_eq_false, if_false]
    rfl
  · simpa only [Function.update_self] using hq

/-- A call of `sys_sbrk` for one byte. -/
theorem Growing.sbrk {s : Tasks} (h : Growing n (s.task 0).toTaskMemory s.vm T L) (hn : 0 < n)
    (hn' : n < 16) : ∃ t T' L', s.call StringStream.base (.sbrk 0 1) = .ok t ∧
      Growing (n + 1) (t.task 0).toTaskMemory t.vm T' L' := by
  obtain ⟨q, v', T', L', heq, hq⟩ := h.expandMemory hn hn'
  refine ⟨(s.setMemory 0 q v').setGrown 0 (s.grown 0 ∪
    { i | (s.task 0).used_address_size ≤ i ∧ i < q.used_address_size }), T', L', ?_, ?_⟩
  · show s.expand 0 1 = _
    rw [Tasks.expand, heq]
    rfl
  · simpa only [Tasks.setGrown, Tasks.setMemory, Tasks.setTask, Function.update_self] using hq

theorem Growing.run (k : ℕ) {s : Tasks} (h : Growing n (s.task 0).toTaskMemory s.vm T L) (hn : 0 < n)
    (hk : n + k ≤ 16) : ∃ t T' L',
      (List.replicate k (.sbrk 0 1)).foldlM (fun s c => Tasks.call StringStream.base s c) s = .ok t ∧
      Growing (n + k) (t.task 0).toTaskMemory t.vm T' L' := by
  induction k generalizing n s T L with
  | zero => exact ⟨s, T, L, rfl, h⟩
  | succ k ih =>
    obtain ⟨t, T', L', heq, ht⟩ := h.sbrk hn (by omega)
    obtain ⟨u, T'', L'', heq', hu⟩ := ih ht (by omega) (by omega)
    refine ⟨u, T'', L'', ?_, by rwa [show n + (k + 1) = n + 1 + k by omega]⟩
    rw [List.replicate_succ, List.foldlM_cons, heq]
    exact heq'

/-- A process with one segment that asks for one byte again and again. The sixteenth request finds 16
regions, and its own is written past the end of the table. -/
theorem region_table_overrun : ∃ s₀ s : Tasks, s₀.Boot StringStream.base ∧
    (s₀.task 0).used_address_size = 1 ∧
    (List.replicate 15 (.sbrk 0 1)).foldlM (fun s c => Tasks.call StringStream.base s c) s₀ = .ok s ∧
    (s.task 0).used_address_size = 16 ∧
    s.call StringStream.base (.sbrk 0 1) = .error (.pastRegions 16) := by
  obtain ⟨s₀, T, L, hboot, h₀⟩ := exists_boot
  obtain ⟨s, T', L', hrun, h⟩ := h₀.run 15 (by omega) (by omega)
  refine ⟨s₀, s, hboot, h₀.size, hrun, h.size, ?_⟩
  show s.expand 0 1 = _
  rw [Tasks.expand, h.expandMemory_full]
  rfl

theorem region_table_bounded_sbrk : ∃ s₀ s : Tasks, s₀.Boot StringStream.base ∧
    s₀.call StringStream.base (.sbrk 0 1) = .ok s ∧ (s.task 0).used_address_size = 2 ∧ s.Bounded := by
  obtain ⟨s₀, T, L, hboot, h₀⟩ := exists_boot
  obtain ⟨s, T', L', heq, h⟩ := h₀.sbrk (by omega) (by omega)
  have hfits : s₀.Fits StringStream.base (.sbrk 0 1) := fun _ _ => by
    have hsize := h₀.size
    refine ⟨by omega, fun i hi => ?_⟩
    have := h₀.ends i (by omega)
    have := i.isLt
    have hpage : PGSIZE = 4096 := rfl
    omega
  exact ⟨s₀, s, hboot, heq, h.size,
    (Tasks.region_table_bounded (.step (.start hboot) ⟨_, hfits, heq⟩)).1⟩

end Overrun

end OrangeOs.Kernel
