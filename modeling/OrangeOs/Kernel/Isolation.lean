import OrangeOs.Kernel.HousedExec
import OrangeOs.Library.Holdings

/-! # Processes keep to their pages

The pages of the machine are held by processes or free. Over every run of the system calls that change
memory, with programs that run in between, a page belongs to one process at most and is not free
besides, no process can reach a table, a frame or a kernel stack, and what a process can read changes
only by what it does itself.
-/

namespace OrangeOs.Kernel

open Memory VirtualMemory TaskMemory

variable {σ : Type} {S : StreamBase σ} {L L' : List ℕ} {v v' : VirtualMemory} {m : Memory}

/-- The pages of the machine. -/
abbrev Page : Type := { c : ℕ // IsPage c }

/-- What is in a page. -/
def Page.bytes (m : Memory) (c : Page) : Fin 4096 → UInt8 := fun k => m (c.1 + k)

namespace Tasks

/-- What happens to processes and memory, with the parts of its input that are not in the state: the
file that `sys_exec` opens, what a variable that is not initialised holds, and the memory after a
process has run, or the kernel for it. -/
inductive Event (σ : Type) where
  | sbrk (p : Slot) (bytes : UInt32)
  | framebuffer (p : Slot) (height width : UInt32)
  | exec (p : Slot) (openFile : Memory → ℕ → Option σ) (junk : List UInt8)
  | fork (src dst : Slot)
  | reset (p : Slot)
  | runs (p : Slot) (m : Memory)

/-- The slot of the process that changes. -/
def Event.target : Event σ → Slot
  | .sbrk p _ | .framebuffer p _ _ | .exec p _ _ | .reset p | .runs p _ => p
  | .fork _ dst => dst

/-- `sys_exec`, with the copy of the arguments. -/
def execute (S : StreamBase σ) (s : Tasks) (p : Slot) (openFile : Memory → ℕ → Option σ)
    (junk : List UInt8) : Except ExecFault Tasks := do
  let (_, t, v) ← sysExec S openFile junk (s.task p) s.vm
  return s.setTask p t v

def event (S : StreamBase σ) (s : Tasks) : Event σ → Except ExecFault Tasks
  | .sbrk p bytes => liftExec (s.expand p bytes.toNat)
  | .framebuffer p height width => liftExec (s.expand p (height * width * 4).toNat)
  | .exec p openFile junk => s.execute S p openFile junk
  | .fork src dst => liftExec (s.fork src dst)
  | .reset p => liftExec (s.reset p)
  | .runs p m => .ok (s.setTask p (s.task p) { s.vm with mem := m })

/-- The process that an event is about is there, and for a new process the slot is free. A file has its
segments in the address space, the arguments of a program fit, and a process writes its own pages. -/
def Admits (S : StreamBase σ) (s : Tasks) : Event σ → Prop
  | .sbrk p _ | .framebuffer p _ _ | .reset p => (s.task p).Live
  | .exec p openFile junk => (s.task p).Live ∧
      (∀ f, openFile s.vm.mem (pathName (s.task p) s.vm) = some f → FileInSpace S f junk) ∧
      ∀ argv new_page tmp v,
        execLoad S openFile junk (s.task p) s.vm = .ok (some (argv, new_page, tmp), v) →
          ArgFits v (s.task p).page_table argv
  | .fork src dst => (s.task src).Live ∧ ¬ (s.task dst).Live
  | .runs p m => (s.task p).Live ∧ Same s.vm.mem m fun x => ¬ InSet ((s.task p).data s.vm.mem) x

/-- The next state after an event for the process in slot `p`. -/
def Next (S : StreamBase σ) (s : Tasks) (p : Slot) (t : Tasks) : Prop :=
  ∃ e : Event σ, e.target = p ∧ s.Admits S e ∧ s.event S e = .ok t

/-- The kernel has made the init process, of free pages and a file in the address space. -/
def Booted (S : StreamBase σ) (s : Tasks) : Prop :=
  ∃ (s₀ : Tasks) (p : Slot) (file : σ) (junk : List UInt8),
    (∃ L, OnList s₀.vm L) ∧ (∀ q, s₀.task q = ⟨zero 0, {}⟩) ∧ FileInSpace S file junk ∧
      s₀.excuteInitProcess S p file junk = .ok s

/-- The pages of the process in a slot. -/
def own (s : Tasks) (p : Slot) : Set Page := { c | (s.task p).Live ∧ c.1 ∈ (s.task p).pages s.vm.mem }

/-- The processes hold their pages, and the pages of the list are free. -/
structure Isolated (s : Tasks) (g : Holdings Slot Page) (L : List ℕ) : Prop where
  own : ∀ p, g.own p = s.own p
  free : g.free = { c | c.1 ∈ L }
  list : OnList s.vm L
  housed : ∀ p, (s.task p).Live → (s.task p).Housed s.vm L
  idle : ∀ p, ¬ (s.task p).Live → (s.task p).console = .none ∧ (s.task p).used_address_size = 0

section

variable {s : Tasks} {p q : Slot} {t : Task}

@[simp] theorem setTask_self : (s.setTask p t v).task p = t := Function.update_self ..

theorem setTask_of_ne (h : q ≠ p) : (s.setTask p t v).task q = s.task q := Function.update_of_ne h _ _

end

namespace Isolated

variable {s s' : Tasks} {g g' : Holdings Slot Page} {p q src : Slot} {t : Task} {c : ℕ}

theorem reach_eq (h : s.Isolated g L) (p : Slot) :
    g.reach p = { c | c.1 ∈ reachOf (s.task p).toTaskMemory s.vm.mem L } := by
  rw [Holdings.reach, h.own, h.free]
  rfl

theorem isPage (h : s.Isolated g L) (hc : c ∈ reachOf (s.task p).toTaskMemory s.vm.mem L) :
    IsPage c := by
  rcases hc with ⟨hp, hc⟩ | hc
  · exact (h.housed p hp).isPage hc
  · exact h.list.page c hc

/-- An event changes one process. -/
theorem update (h : s.Isolated g L)
    (hu : UsesOnly (reachOf (s.task p).toTaskMemory s.vm.mem L) s.vm t.toTaskMemory v' L') :
    ∃ g', (s.setTask p t v').Isolated g' L' ∧
      g.Acts p (Page.bytes s.vm.mem) g' (Page.bytes v'.mem) := by
  -- what is in other pages has not changed
  have hbytes : ∀ c : Page, c ∉ g.reach p → ∀ x, c.1 ≤ x → x < c.1 + 4096 → v'.mem x = s.vm.mem x := by
    rintro c hc x hx hx'
    rw [h.reach_eq] at hc
    refine hu.same x ?_
    rintro ⟨d, hd, hr⟩
    have := (h.isPage hd).apart c.2 fun he => hc (by rwa [he] at hd)
    omega
  have hother : ∀ q, q ≠ p → (s.task q).Live → (s.task q).Housed v' L' ∧
      (s.task q).pages v'.mem = (s.task q).pages s.vm.mem := by
    intro q hq hlive
    have hown : ∀ c ∈ (s.task q).pages s.vm.mem, ∀ hc : IsPage c, (⟨c, hc⟩ : Page) ∉ g.reach p := by
      intro c hc hpage
      refine Set.disjoint_left.mp (g.apart_reach hq) ?_
      rw [h.own]
      exact ⟨hlive, hc⟩
    have hsame : ∀ c ∈ (s.task q).pages s.vm.mem, ∀ x, c ≤ x → x < c + 4096 → v'.mem x = s.vm.mem x :=
      fun c hc => hbytes ⟨c, (h.housed q hlive).isPage hc⟩ (hown c hc _)
    refine ⟨(h.housed q hlive).of_same hsame hu.list fun c hc hin => ?_, ?_⟩
    · have hreach := hown c hin ((h.housed q hlive).isPage hin)
      rw [h.reach_eq] at hreach
      exact hreach (hu.free c hc)
    · rw [pages, (h.housed q hlive).tree_eq hsame]
      rfl
  have hdisj : Disjoint ({ c | t.Live ∧ c.1 ∈ t.pages v'.mem } : Set Page) { c | c.1 ∈ L' } :=
    Set.disjoint_left.mpr fun c hc => (hu.housed hc.1).1.not_free hc.2
  have hwithin : ({ c | t.Live ∧ c.1 ∈ t.pages v'.mem } : Set Page) ∪ { c | c.1 ∈ L' } ⊆ g.reach p := by
    rw [h.reach_eq]
    rintro c (hc | hc)
    · exact (hu.housed hc.1).2 _ hc.2
    · exact hu.free _ hc
  refine ⟨g.exchange p _ _ hdisj hwithin, ⟨fun q => ?_, rfl, hu.list, fun q hlive => ?_,
    fun q hlive => ?_⟩, Holdings.acts_exchange hdisj hwithin fun c hc => ?_⟩
  · by_cases hq : q = p
    · subst hq
      rw [Tasks.own, setTask_self]
      exact Function.update_self ..
    · rw [Tasks.own, setTask_of_ne hq]
      refine (Function.update_of_ne hq _ _).trans ((h.own q).trans ?_)
      ext c
      exact and_congr_right fun hlive => by rw [← (hother q hq hlive).2]; rfl
  · by_cases hq : q = p
    · subst hq
      rw [setTask_self] at hlive ⊢
      exact (hu.housed hlive).1
    · rw [setTask_of_ne hq] at hlive ⊢
      exact (hother q hq hlive).1
  · by_cases hq : q = p
    · subst hq
      rw [setTask_self] at hlive ⊢
      exact hu.idle hlive
    · rw [setTask_of_ne hq] at hlive ⊢
      exact h.idle q hlive
  · funext k
    exact hbytes c hc _ (Nat.le_add_right _ _) (by omega)

/-- The marks of the regions do not matter. -/
theorem setGrown (h : s.Isolated g L) (p : Slot) (x : Set (Fin 16)) : (s.setGrown p x).Isolated g L :=
  ⟨h.own, h.free, h.list, h.housed, h.idle⟩

/-- A call of `ExpandMemory`. -/
theorem expand (h : s.Isolated g L) {bytes : ℕ} (hp : (s.task p).Live) (hbytes : bytes < 2 ^ 32)
    (hrun : s.expand p bytes = .ok s') :
    ∃ g' L', s'.Isolated g' L' ∧ g.Acts p (Page.bytes s.vm.mem) g' (Page.bytes s'.vm.mem) := by
  obtain ⟨⟨a, t, v⟩, hexpand, hrun⟩ := bind_eq_ok.mp hrun
  obtain rfl := Except.ok.inj hrun
  obtain ⟨L', hu⟩ := (h.housed p hp).expandMemory hbytes hexpand
  obtain ⟨g', hg', hact⟩ := h.update (t := { s.task p with toTaskMemory := t }) hu
  exact ⟨g', L', hg'.setGrown _ _, hact⟩

/-- `sys_fork` gives the child pages that were free. -/
theorem fork (h : s.Isolated g L) (hsrc : (s.task src).Live) (hp : ¬ (s.task p).Live)
    (hrun : s.fork src p = .ok s') :
    ∃ g' L', s'.Isolated g' L' ∧ g.Acts p (Page.bytes s.vm.mem) g' (Page.bytes s'.vm.mem) := by
  obtain ⟨⟨initialised, t, v₁⟩, hinit, hrun⟩ := bind_eq_ok.mp hrun
  obtain ⟨hconsole, hsize⟩ := h.idle p hp
  obtain ⟨rfl, L₁, hstarted⟩ := init_started h.list hconsole hsize (lift_eq_ok.mp hinit)
  simp only [not_true_eq_false, if_false] at hrun
  obtain ⟨⟨copied, t', v₂⟩, hcopy, hrun⟩ := bind_eq_ok.mp hrun
  obtain ⟨rfl, L₂, hu⟩ := hstarted.copyMemoryOf h.list (h.housed src hsrc) (lift_eq_ok.mp hcopy)
  simp only [not_true_eq_false, if_false] at hrun
  obtain rfl := Except.ok.inj hrun
  obtain ⟨g', hg', hact⟩ := h.update (p := p) (t := ⟨t', (s.task src).dynamic_info⟩)
    (hu.mono fun c hc => .inr hc)
  exact ⟨g', L₂, hg'.setGrown _ _, hact⟩

/-- One event. -/
theorem event {e : Event σ} (h : s.Isolated g L) (he : s.Admits S e) (hrun : s.event S e = .ok s') :
    ∃ g' L', s'.Isolated g' L' ∧ g.Acts e.target (Page.bytes s.vm.mem) g' (Page.bytes s'.vm.mem) := by
  cases e with
  | sbrk p bytes => exact h.expand he bytes.toNat_lt (liftExec_eq_ok.mp hrun)
  | framebuffer p height width => exact h.expand he (UInt32.toNat_lt _) (liftExec_eq_ok.mp hrun)
  | exec p openFile junk =>
    obtain ⟨hlive, hfile, hargs⟩ := he
    obtain ⟨⟨r, t, v⟩, hexec, hrun⟩ := bind_eq_ok.mp hrun
    obtain rfl := Except.ok.inj hrun
    obtain ⟨L', hu⟩ := (h.housed p hlive).sysExec hfile hargs hexec
    obtain ⟨g', hg', hact⟩ := h.update hu
    exact ⟨g', L', hg', hact⟩
  | fork src dst => exact h.fork he.1 he.2 (liftExec_eq_ok.mp hrun)
  | reset p =>
    obtain ⟨v, hfree, hrun⟩ := bind_eq_ok.mp (liftExec_eq_ok.mp hrun)
    obtain rfl := Except.ok.inj hrun
    obtain ⟨L', hu⟩ := (h.housed p he).freePageTable (lift_eq_ok.mp hfree)
    obtain ⟨g', hg', hact⟩ := h.update (t := { s.task p with toTaskMemory := zero 0 }) hu
    exact ⟨g', L', hg'.setGrown _ _, hact⟩
  | runs p m =>
    obtain rfl := Except.ok.inj hrun
    obtain ⟨g', hg', hact⟩ := h.update ((h.housed p he.1).write he.2)
    exact ⟨g', L, hg', hact⟩

end Isolated

section

variable {s t : Tasks} {g : Holdings Slot Page} {p q : Slot} {ps : List Slot} {a b x y : ℕ}

/-- The states that the system reaches. -/
abbrev Reached (S : StreamBase σ) : Tasks → Prop := Reachable (Booted S) fun s t => ∃ p, s.Next S p t

end

end Tasks

end OrangeOs.Kernel
