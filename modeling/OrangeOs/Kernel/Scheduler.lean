import Mathlib.Algebra.GroupWithZero.Nat
import Mathlib.Data.Fintype.Basic
import OrangeOs.Library.Runs

/-! # The scheduler

The process table of `kernel/scheduler.cc` on one CPU, and the parts of `sys_fork`, `sys_wait` and
`sys_exit` that touch it. A step is a stretch of kernel code that runs with interrupts off,
or one access to the table where they are on; the timer can stop a process between any two
steps of the second kind. `Place` is the point that a process has reached inside the
kernel, so that a call that was stopped goes on where it was.
-/

namespace OrangeOs.Kernel

abbrev MAX_PROCESS_NUM : ℕ := 64

/-- A task of `process_tasks_`, by its index. -/
abbrev Slot := Fin MAX_PROCESS_NUM

@[instance] theorem neZero_max_process_num : NeZero MAX_PROCESS_NUM :=
  ⟨by decide⟩

inductive ProcessState where
  | unused
  | used
  | sleep
  | runnable
  | running
  | zombie
  deriving DecidableEq, Repr

/-- A channel is its data pointer: a task for the `owned_channel` of a task, another address for the
channels of the console, the clock and the devices. -/
inductive Channel where
  | owned (task : Slot)
  | other (data : ℕ)
  deriving DecidableEq, Repr

/-- The members of `ProcessTask` that scheduling reads. -/
structure ProcessTask where
  pid : Int32 := 0
  state : ProcessState := .unused
  parent_process : Option Slot := none
  channel : Option Channel := none
  exit_code : Int32 := 0
  deriving DecidableEq

/-- A lock that callers of `Sleep` share. -/
abbrev Lock := ℕ

/-- Where a call of `Sleep` returns to. -/
inductive Caller where
  | outside
  | guarded
  | wait
  deriving DecidableEq, Repr

/-- The point that a process has reached. Interrupts are off at `guarded`, inside the critical
section of a driver, and at `sleeping`, after the switch in `Sleep`. -/
inductive Place where
  | outside
  | guarded
  | allocating (i : ℕ)
  | copying (dst : Slot)
  | linking (dst : Slot)
  | scanning (i : ℕ) (has_child : Bool)
  | checking (i : Slot)
  | reaping (child : Slot)
  | dozing
  | sleeping (lk : Option Lock) (caller : Caller)
  deriving DecidableEq, Repr

/-- The timer can stop a process here. -/
def Place.Interruptible : Place → Prop
  | guarded => False
  | sleeping _ _ => False
  | _ => True

/-- Where a process goes on after `Sleep`. -/
def Caller.place : Caller → Place
  | .outside => .outside
  | .guarded => .guarded
  | .wait => .scanning 0 false

/-- What a run records: the exits, and the answers of `sys_wait`. `birth` tells the processes that
had one slot apart. -/
inductive Event where
  | exited (birth : ℕ) (pid exit_code : Int32)
  | reported (waiter : Slot) (parent : Option Slot) (birth : ℕ) (pid exit_code : Int32)
  deriving DecidableEq

/-- The scheduler with its process table. `place`, `birth`, `births` and `log` are not in the
source: the first stands for the saved contexts, the others record the run. -/
structure Scheduler where
  task : Slot → ProcessTask
  process_task : Option Slot
  init_process : Option Slot
  cur_pid : Int32
  flag : Lock → Bool
  place : Slot → Place
  birth : Slot → ℕ
  births : ℕ
  log : List Event

namespace Scheduler

/-! ## The parts of the kernel -/

def setTask (s : Scheduler) (p : Slot) (t : ProcessTask) : Scheduler :=
  { s with task := Function.update s.task p t }

def goTo (s : Scheduler) (p : Slot) (l : Place) : Scheduler :=
  { s with place := Function.update s.place p l }

/-- `Dispatch` picks a task. -/
def dispatch (s : Scheduler) (p : Slot) : Scheduler :=
  { s.setTask p { s.task p with state := .running } with process_task := some p }

/-- `Yield`, up to the scheduler's own context. -/
def yield (s : Scheduler) (p : Slot) : Scheduler :=
  { s.setTask p { s.task p with state := .runnable } with process_task := none }

end Scheduler

/-- The body of the loop of `Wakeup`. -/
def ProcessTask.wake (t : ProcessTask) (channel : Channel) : ProcessTask :=
  if t.state = .sleep ∧ t.channel = some channel then
    { t with state := .runnable, channel := none }
  else t

namespace Scheduler

def wakeup (s : Scheduler) (channel : Channel) : Scheduler :=
  { s with task := fun q => (s.task q).wake channel }

/-- `Sleep`, up to the scheduler's own context. -/
def sleep (s : Scheduler) (p : Slot) (channel : Channel) (lk : Option Lock) (caller : Caller) :
    Scheduler :=
  { (s.setTask p { s.task p with state := .sleep, channel := some channel }).goTo p
      (.sleeping lk caller) with
    process_task := none
    flag := match lk with
      | some l => Function.update s.flag l false
      | none => s.flag }

/-- The rest of `Sleep`. `Lock` spins as long as the flag is set. -/
def wake (s : Scheduler) (p : Slot) (lk : Option Lock) (caller : Caller) : Scheduler :=
  match lk with
  | none => s.goTo p caller.place
  | some l =>
    if s.flag l then s
    else { s.goTo p caller.place with flag := Function.update s.flag l true }

/-- The loop of `Exit` over the children. -/
def reparent (s : Scheduler) (p : Slot) : Scheduler :=
  { s with task := fun q =>
      if (s.task q).parent_process = some p then
        { s.task q with parent_process := s.init_process }
      else s.task q }

/-- The channel that `Exit` wakes. Without a parent the code reads a channel at an address near
zero; `low` is what it finds there. -/
def parentChannel (s : Scheduler) (p : Slot) (low : Channel) : Channel :=
  match (s.task p).parent_process with
  | some q => .owned q
  | none => low

/-- `Exit`, up to the scheduler's own context. -/
def exit (s : Scheduler) (p : Slot) (code : Int32) (low : Channel) : Scheduler :=
  let s₁ := (s.setTask p { s.task p with exit_code := code, state := .zombie }).reparent p
  { s₁.wakeup (s₁.parentChannel p low) with
    process_task := none
    log := s.log ++ [.exited (s.birth p) (s.task p).pid code] }

/-- `AllocProc` takes an unused slot; `Init` gives it a pid and a context that starts in the
user's code. -/
def allocProc (s : Scheduler) (dst : Slot) : Scheduler :=
  { (s.setTask dst { s.task dst with pid := s.cur_pid + 1, state := .used }).goTo dst .outside with
    cur_pid := s.cur_pid + 1
    birth := Function.update s.birth dst s.births
    births := s.births + 1 }

/-- The first of the last two assignments of `sys_fork`. -/
def release (s : Scheduler) (dst : Slot) : Scheduler :=
  s.setTask dst { s.task dst with state := .runnable }

/-- The last assignment of `sys_fork`. -/
def link (s : Scheduler) (src dst : Slot) : Scheduler :=
  s.setTask dst { s.task dst with parent_process := some src }

/-- `ResetProcess` in `sys_wait` of `p`, which then returns the pid and the exit code. -/
def reap (s : Scheduler) (p child : Slot) : Scheduler :=
  { s.setTask child { s.task child with
      pid := 0, state := .unused, parent_process := none, channel := none } with
    log := s.log ++ [.reported p (s.task child).parent_process (s.birth child) (s.task child).pid
      (s.task child).exit_code] }

end Scheduler

/-! ## Steps -/

/-- The steps, by name. -/
inductive Act where
  | dispatch (p : Slot)
  | yield
  | wakeup (channel : Channel)
  | enter
  | leave
  | sleep (channel : Channel) (lk : Option Lock)
  | wake (lk : Option Lock)
  | exit (code : Int32) (low : Channel)
  | fork
  | alloc
  | copy
  | link
  | wait
  | scan
  | check
  | reap
  | doze
  deriving DecidableEq

/-- The process on the CPU is at a place. -/
def Scheduler.At (s : Scheduler) (p : Slot) (l : Place) : Prop :=
  s.process_task = some p ∧ s.place p = l

open Scheduler in
/-- One step. `Init` and `CopyFrom` can fail for want of memory; the process table does not say
when, so both outcomes are steps. -/
inductive Step (s : Scheduler) : Act → Scheduler → Prop
  | dispatch {p : Slot} : s.process_task = none → (s.task p).state = .runnable →
      Step s (.dispatch p) (s.dispatch p)
  | yield {p : Slot} : s.process_task = some p → (s.place p).Interruptible →
      Step s .yield (s.yield p)
  -- interrupt handlers call `Wakeup` whatever runs
  | wakeup {c : Channel} : Step s (.wakeup c) (s.wakeup c)
  | enter {p : Slot} : s.At p .outside → Step s .enter (s.goTo p .guarded)
  | leave {p : Slot} : s.At p .guarded → Step s .leave (s.goTo p .outside)
  | sleepOutside {p : Slot} {c : Channel} {lk : Option Lock} : s.At p .outside →
      Step s (.sleep c lk) (s.sleep p c lk .outside)
  | sleepGuarded {p : Slot} {c : Channel} {lk : Option Lock} : s.At p .guarded →
      Step s (.sleep c lk) (s.sleep p c lk .guarded)
  | wake {p : Slot} {lk : Option Lock} {caller : Caller} : s.At p (.sleeping lk caller) →
      Step s (.wake lk) (s.wake p lk caller)
  | exit {p : Slot} {code : Int32} {low : Channel} : s.At p .outside →
      Step s (.exit code low) (s.exit p code low)
  | fork {p : Slot} : s.At p .outside → Step s .fork (s.goTo p (.allocating 0))
  -- `AllocProc`: every slot is in use, the slot at hand is, or `Init` fails or succeeds on it
  | allocNone {p : Slot} : s.At p (.allocating MAX_PROCESS_NUM) → Step s .alloc (s.goTo p .outside)
  | allocNext {p dst : Slot} : s.At p (.allocating dst) → (s.task dst).state ≠ .unused →
      Step s .alloc (s.goTo p (.allocating (dst + 1)))
  | allocFail {p dst : Slot} : s.At p (.allocating dst) → (s.task dst).state = .unused →
      Step s .alloc (s.goTo p .outside)
  | alloc {p dst : Slot} : s.At p (.allocating dst) → (s.task dst).state = .unused →
      Step s .alloc ((s.allocProc dst).goTo p (.copying dst))
  | copyFail {p dst : Slot} : s.At p (.copying dst) → Step s .copy (s.goTo p .outside)
  | copy {p dst : Slot} : s.At p (.copying dst) →
      Step s .copy ((s.release dst).goTo p (.linking dst))
  | link {p dst : Slot} : s.At p (.linking dst) → Step s .link ((s.link p dst).goTo p .outside)
  | wait {p : Slot} : s.At p .outside → Step s .wait (s.goTo p (.scanning 0 false))
  -- `FindFirslZombieChild`: the loop is over, or it looks at the parent of the slot at hand
  | scanNone {p : Slot} : s.At p (.scanning MAX_PROCESS_NUM false) → Step s .scan (s.goTo p .outside)
  | scanDone {p : Slot} : s.At p (.scanning MAX_PROCESS_NUM true) → Step s .scan (s.goTo p .dozing)
  | scanNext {p i : Slot} {has_child : Bool} : s.At p (.scanning i has_child) →
      (s.task i).parent_process ≠ some p → Step s .scan (s.goTo p (.scanning (i + 1) has_child))
  | scanChild {p i : Slot} {has_child : Bool} : s.At p (.scanning i has_child) →
      (s.task i).parent_process = some p → Step s .scan (s.goTo p (.checking i))
  | checkAlive {p i : Slot} : s.At p (.checking i) → (s.task i).state ≠ .zombie →
      Step s .check (s.goTo p (.scanning (i + 1) true))
  | checkZombie {p i : Slot} : s.At p (.checking i) → (s.task i).state = .zombie →
      Step s .check (s.goTo p (.reaping i))
  | reap {p child : Slot} : s.At p (.reaping child) → Step s .reap ((s.reap p child).goTo p .outside)
  | doze {p : Slot} : s.At p .dozing → Step s .doze (s.sleep p (.owned p) none .wait)

/-- The scheduler after `ExcuteInitProcess`. -/
def Scheduler.boot : Scheduler where
  task p := if p = 0 then { pid := 1, state := .runnable } else {}
  process_task := none
  init_process := some 0
  cur_pid := 1
  flag _ := false
  place _ := .outside
  birth _ := 0
  births := 1
  log := []

/-! ## What a step can do -/

/-- The slot that `sys_fork` fills at a place. -/
def Place.child : Place → Option Slot
  | copying dst => some dst
  | linking dst => some dst
  | _ => none

namespace Scheduler
variable {s t : Scheduler} {a : Act} {p q : Slot} {l : Place}

@[simp] theorem wake_task (s : Scheduler) (p : Slot) (lk : Option Lock) (caller : Caller) :
    (s.wake p lk caller).task = s.task := by
  unfold wake
  split
  · rfl
  · split <;> rfl

@[simp] theorem wake_process_task (s : Scheduler) (p : Slot) (lk : Option Lock)
    (caller : Caller) : (s.wake p lk caller).process_task = s.process_task := by
  unfold wake
  split
  · rfl
  · split <;> rfl

theorem wake_place (s : Scheduler) (p : Slot) (lk : Option Lock) (caller : Caller) (q : Slot) :
    (s.wake p lk caller).place q = s.place q ∨ (s.wake p lk caller).place q = caller.place := by
  unfold wake
  split
  · by_cases hq : q = p <;> simp [goTo, hq]
  · split
    · exact .inl rfl
    · by_cases hq : q = p <;> simp [goTo, hq]

/-- The process table that `Exit` leaves before it wakes the parent. -/
def leaving (s : Scheduler) (p : Slot) (code : Int32) : Scheduler :=
  (s.setTask p { s.task p with exit_code := code, state := .zombie }).reparent p

/-- The channel that a step wakes. -/
def woken (s : Scheduler) : Act → Option Channel
  | .wakeup c => some c
  | .exit code low => s.process_task.map fun p => (s.leaving p code).parentChannel p low
  | _ => none

theorem exit_task (s : Scheduler) (p q : Slot) (code : Int32) (low : Channel) :
    (s.exit p code low).task q =
      ((s.leaving p code).task q).wake ((s.leaving p code).parentChannel p low) := rfl

theorem leaving_state (s : Scheduler) (p q : Slot) (code : Int32) :
    ((s.leaving p code).task q).state = if q = p then .zombie else (s.task q).state := by
  simp only [leaving, reparent, setTask, Function.update_apply]
  split <;> split <;> rfl

theorem leaving_channel (s : Scheduler) (p q : Slot) (code : Int32) :
    ((s.leaving p code).task q).channel = (s.task q).channel := by
  simp only [leaving, reparent, setTask, Function.update_apply]
  split <;> split <;> simp_all

theorem leaving_parent_process (s : Scheduler) (p q : Slot) (code : Int32) :
    ((s.leaving p code).task q).parent_process =
      if (s.task q).parent_process = some p then s.init_process
      else (s.task q).parent_process := by
  simp only [leaving, reparent, setTask, Function.update_apply]
  by_cases hq : q = p
  · subst hq
    simp only [if_true]
    split <;> rfl
  · simp only [if_neg hq]
    split <;> rfl

/-- The ways in which a step changes the state of a task. -/
inductive Transition (s : Scheduler) (a : Act) (q : Slot) : ProcessState → ProcessState → Prop
  | pick : a = .dispatch q → s.process_task = none → Transition s a q .runnable .running
  | preempt : a = .yield → s.process_task = some q → Transition s a q .running .runnable
  | block : (∃ c lk, a = .sleep c lk) ∨ a = .doze → s.process_task = some q →
      Transition s a q .running .sleep
  | wakeup {c : Channel} : s.woken a = some c → (s.task q).channel = some c →
      Transition s a q .sleep .runnable
  | exit : (∃ code low, a = .exit code low) → s.process_task = some q →
      Transition s a q .running .zombie
  | alloc : a = .alloc → Transition s a q .unused .used
  | release {p : Slot} : a = .copy → s.At p (.copying q) → Transition s a q .used .runnable
  | reap {p : Slot} : a = .reap → s.At p (.reaping q) → (s.task q).parent_process = some p →
      Transition s a q .zombie .unused

/-- What the place of a process says about the slot that it works on. -/
def Fits (s : Scheduler) (p : Slot) : Place → Prop
  | .copying dst => (s.task dst).state = .used
  | .linking dst => (s.task dst).state ≠ .unused ∧ (s.task dst).state ≠ .used ∧
      (s.task dst).parent_process = none
  | .checking i => (s.task i).parent_process = some p
  | .reaping child => (s.task child).state = .zombie ∧ (s.task child).parent_process = some p
  | _ => True

/-- The invariant of the process table. The task on the CPU is the one that runs, a task has a channel
exactly while it sleeps, and a slot that waits for its process has no parent yet. -/
structure Sound (s : Scheduler) : Prop where
  running : ∀ p, (s.task p).state = .running ↔ s.process_task = some p
  channel : ∀ p, (s.task p).channel ≠ none ↔ (s.task p).state = .sleep
  fresh : ∀ p, (s.task p).state = .unused ∨ (s.task p).state = .used →
    (s.task p).parent_process = none
  fits : ∀ p, s.Fits p (s.place p)
  distinct : ∀ p q dst, (s.place p).child = some dst → (s.place q).child = some dst → p = q

namespace Sound

theorem fits_at (hs : Sound s) (hp : s.At p l) : s.Fits p l := hp.2 ▸ hs.fits p

theorem state_at (hs : Sound s) (hp : s.At p l) : (s.task p).state = .running :=
  (hs.running p).mpr hp.1

/-- The state machine of a task. -/
theorem transition (hs : Sound s) (h : Step s a t) (q : Slot) :
    (t.task q).state = (s.task q).state ∨
      Transition s a q (s.task q).state (t.task q).state := by
  cases h with
  | @dispatch p hn hp =>
    by_cases hq : q = p
    · subst hq
      simpa [dispatch, setTask, hp] using Transition.pick rfl hn
    · simp [dispatch, setTask, hq]
  | @yield p hp _ =>
    by_cases hq : q = p
    · subst hq
      simpa [yield, setTask, (hs.running q).mpr hp] using Transition.preempt rfl hp
    · simp [yield, setTask, hq]
  | @wakeup c =>
    simp only [wakeup, ProcessTask.wake]
    split
    · next hq => exact .inr (hq.1 ▸ .wakeup (by rfl) hq.2)
    · exact .inl rfl
  | @sleepOutside p c lk hp =>
    by_cases hq : q = p
    · subst hq
      simpa [sleep, goTo, setTask, hs.state_at hp] using
        Transition.block (.inl ⟨c, lk, rfl⟩) hp.1
    · simp [sleep, goTo, setTask, hq]
  | @sleepGuarded p c lk hp =>
    by_cases hq : q = p
    · subst hq
      simpa [sleep, goTo, setTask, hs.state_at hp] using
        Transition.block (.inl ⟨c, lk, rfl⟩) hp.1
    · simp [sleep, goTo, setTask, hq]
  | @doze p hp =>
    by_cases hq : q = p
    · subst hq
      simpa [sleep, goTo, setTask, hs.state_at hp] using Transition.block (.inr rfl) hp.1
    · simp [sleep, goTo, setTask, hq]
  | @exit p code low hp =>
    rw [exit_task, ProcessTask.wake, leaving_state, leaving_channel]
    by_cases hq : q = p
    · subst hq
      simpa [leaving_state, hs.state_at hp] using Transition.exit ⟨code, low, rfl⟩ hp.1
    · simp only [if_neg hq]
      split
      · next hw => exact .inr (hw.1 ▸ .wakeup (by simp [woken, hp.1]) hw.2)
      · simp [leaving_state, hq]
  | @alloc p dst hp hd =>
    by_cases hq : q = dst
    · subst hq
      simpa [allocProc, goTo, setTask, hd] using Transition.alloc rfl
    · simp [allocProc, goTo, setTask, hq]
  | @copy p dst hp =>
    by_cases hq : q = dst
    · subst hq
      have hd : (s.task q).state = .used := hs.fits_at hp
      simpa [release, goTo, setTask, hd] using Transition.release rfl hp
    · simp [release, goTo, setTask, hq]
  | @link p dst hp =>
    by_cases hq : q = dst
    · subst hq; simp [link, goTo, setTask]
    · simp [link, goTo, setTask, hq]
  | @reap p child hp =>
    by_cases hq : q = child
    · subst hq
      obtain ⟨hz, hpar⟩ : (s.task q).state = .zombie ∧ (s.task q).parent_process = some p :=
        hs.fits_at hp
      simpa [reap, goTo, setTask, hz] using Transition.reap rfl hp hpar
    · simp [reap, goTo, setTask, hq]
  | wake => simp
  | _ => exact .inl rfl

/-- What a step does to the parent of a task. -/
theorem parent_cases (h : Step s a t) (q : Slot) :
    (t.task q).parent_process = (s.task q).parent_process ∨
    (∃ p, a = .link ∧ s.At p (.linking q) ∧ (t.task q).parent_process = some p) ∨
    (∃ p, (∃ code low, a = .exit code low) ∧ s.At p .outside ∧
      (s.task q).parent_process = some p ∧ (t.task q).parent_process = s.init_process) ∨
    (∃ p, a = .reap ∧ s.At p (.reaping q) ∧ (t.task q).parent_process = none) := by
  cases h with
  | @dispatch p => by_cases hq : q = p <;> simp [dispatch, setTask, hq]
  | @yield p => by_cases hq : q = p <;> simp [yield, setTask, hq]
  | @wakeup c => left; simp only [wakeup, ProcessTask.wake]; split <;> rfl
  | @sleepOutside p => by_cases hq : q = p <;> simp [sleep, goTo, setTask, hq]
  | @sleepGuarded p => by_cases hq : q = p <;> simp [sleep, goTo, setTask, hq]
  | @doze p => by_cases hq : q = p <;> simp [sleep, goTo, setTask, hq]
  | @exit p code low hp =>
    have he : ((s.exit p code low).task q).parent_process =
        ((s.leaving p code).task q).parent_process := by
      rw [exit_task, ProcessTask.wake]; split <;> rfl
    rw [he, leaving_parent_process]
    split
    · next hq => exact .inr (.inr (.inl ⟨p, ⟨code, low, rfl⟩, hp, hq, rfl⟩))
    · exact .inl rfl
  | @alloc p dst => by_cases hq : q = dst <;> simp [allocProc, goTo, setTask, hq]
  | @copy p dst => by_cases hq : q = dst <;> simp [release, goTo, setTask, hq]
  | @link p dst hp =>
    by_cases hq : q = dst
    · subst hq
      exact .inr (.inl ⟨p, rfl, hp, by simp [link, goTo, setTask]⟩)
    · simp [link, goTo, setTask, hq]
  | @reap p child hp =>
    by_cases hq : q = child
    · subst hq
      exact .inr (.inr (.inr ⟨p, rfl, hp, by simp [reap, goTo, setTask]⟩))
    · simp [reap, goTo, setTask, hq]
  | wake => simp
  | _ => exact .inl rfl

/-- Every step keeps one task running, the one on the CPU. -/
theorem running_step (hs : Sound s) (h : Step s a t) (q : Slot) :
    (t.task q).state = .running ↔ t.process_task = some q := by
  have hr := hs.running
  cases h with
  | @copy p dst hp =>
    have hd : (s.task dst).state = .used := hs.fits_at hp
    simp only [release, goTo, setTask, Function.update_apply]
    grind
  | @reap p child hp =>
    have hz : (s.task child).state = .zombie := (hs.fits_at hp).1
    simp only [reap, goTo, setTask, Function.update_apply]
    grind
  | @exit p code low hp =>
    rw [exit_task, ProcessTask.wake, leaving_state, leaving_channel]
    simp only [exit]
    have := hs.state_at hp
    split <;> grind [leaving_state]
  | _ =>
    simp only [dispatch, yield, wakeup, sleep, allocProc, link, ProcessTask.wake, wake_task,
      wake_process_task, goTo, setTask, Function.update_apply, At] at *
    grind

theorem channel_step (hs : Sound s) (h : Step s a t) (q : Slot) :
    (t.task q).channel ≠ none ↔ (t.task q).state = .sleep := by
  have hr := hs.running
  have hc := hs.channel
  cases h with
  | @copy p dst hp =>
    have hd : (s.task dst).state = .used := hs.fits_at hp
    simp only [release, goTo, setTask, Function.update_apply]
    grind
  | @reap p child hp =>
    have hz : (s.task child).state = .zombie := (hs.fits_at hp).1
    simp only [reap, goTo, setTask, Function.update_apply]
    grind
  | @exit p code low hp =>
    rw [exit_task, ProcessTask.wake, leaving_state, leaving_channel]
    have := hs.state_at hp
    split <;> grind [leaving_state, leaving_channel]
  | _ =>
    simp only [dispatch, yield, wakeup, sleep, allocProc, link, ProcessTask.wake, wake_task,
      goTo, setTask, Function.update_apply, At] at *
    grind

theorem fresh_step (hs : Sound s) (h : Step s a t) (q : Slot)
    (hq : (t.task q).state = .unused ∨ (t.task q).state = .used) :
    (t.task q).parent_process = none := by
  have hold : (s.task q).state = .unused ∨ (s.task q).state = .used →
      (t.task q).parent_process = none := by
    intro hq'
    rcases parent_cases h q with he | ⟨p, -, hp, -⟩ | ⟨p, -, -, he, -⟩ | ⟨p, -, -, he⟩
    · rw [he, hs.fresh q hq']
    · have := hs.fits_at hp
      simp only [Fits] at this
      tauto
    · simp [hs.fresh q hq'] at he
    · exact he
  rcases hs.transition h q with he | ht
  · exact hold (he ▸ hq)
  · generalize hx : (s.task q).state = x at ht
    generalize hy : (t.task q).state = y at ht hq
    cases ht with
    | alloc _ => exact hold (.inl hx)
    | @reap p ha hp _ =>
      subst ha
      cases h with
      | @reap p' child hp' =>
        have hpp : p' = p := Option.some.inj (hp'.1.symm.trans hp.1)
        subst hpp
        have hc : child = q := by simpa [hp'.2] using hp.2
        subst hc
        simp [reap, goTo, setTask]
    | _ => simp at hq

/-- The process on the CPU leaves a place where it finishes an assignment of `sys_fork` or
`sys_wait`. -/
theorem place_ne (h : Step s a t) (ha : a = .copy ∨ a = .link ∨ a = .reap) (hp : s.At p l) :
    t.place p ≠ l := by
  have hself : ∀ {r l'} (u : Scheduler) (m : Place), s.At r l' → l' ≠ m →
      (u.goTo r m).place p ≠ l := by
    rintro r l' u m hr hm
    obtain rfl : r = p := Option.some.inj (hr.1.symm.trans hp.1)
    obtain rfl := hr.2.symm.trans hp.2
    simpa [goTo] using hm.symm
  rcases ha with rfl | rfl | rfl
  · cases h with
    | copyFail hr => exact hself _ _ hr (by simp)
    | copy hr => exact hself _ _ hr (by simp)
  · cases h with
    | link hr => exact hself _ _ hr (by simp)
  · cases h with
    | reap hr => exact hself _ _ hr (by simp)

/-- A process that stays where it is keeps its hold on the slot that it works on. -/
theorem fits_stay (hs : Sound s) (h : Step s a t) (hq : t.place q = s.place q) :
    t.Fits q (s.place q) := by
  have hfit := hs.fits q
  have hreap : ∀ p d, a = .reap → s.At p (.reaping d) → (s.task d).parent_process ≠ some q := by
    intro p d ha hp hd
    obtain rfl : p = q := Option.some.inj ((hs.fits_at hp).2.symm.trans hd)
    exact place_ne h (.inr (.inr ha)) hp (hq.trans hp.2)
  have hpar : ∀ d, (s.task d).parent_process = some q → s.place q ≠ .outside →
      (t.task d).parent_process = some q := by
    intro d hd hne
    rcases parent_cases h d with he | ⟨r, -, hr, -⟩ | ⟨r, -, hr, he, -⟩ | ⟨r, ha, hr, -⟩
    · rw [he, hd]
    · simp [(hs.fits_at hr).2.2] at hd
    · obtain rfl : q = r := Option.some.inj (hd.symm.trans he)
      exact absurd hr.2 hne
    · exact absurd hd (hreap r d ha hr)
  generalize hl : s.place q = l at hfit hq hpar ⊢
  cases l with
  | copying d =>
    rcases hs.transition h d with he | ht
    · exact he.trans hfit
    · rw [show (s.task d).state = .used from hfit] at ht
      generalize (t.task d).state = y at ht
      cases ht with
      | @release r ha hp =>
        obtain rfl := hs.distinct q r d (by simp [hl, Place.child]) (by simp [hp.2, Place.child])
        exact absurd hq (place_ne h (.inl ha) hp)
  | linking d =>
    obtain ⟨h₁, h₂, h₃⟩ := hfit
    have hnone : (t.task d).parent_process = none := by
      rcases parent_cases h d with he | ⟨r, ha, hr, -⟩ | ⟨r, -, -, he, -⟩ | ⟨r, -, -, he⟩
      · rw [he, h₃]
      · obtain rfl := hs.distinct q r d (by simp [hl, Place.child]) (by simp [hr.2, Place.child])
        exact absurd hq (place_ne h (.inr (.inl ha)) hr)
      · simp [h₃] at he
      · exact he
    rcases hs.transition h d with he | ht
    · exact ⟨he ▸ h₁, he ▸ h₂, hnone⟩
    · simp only [Fits, hnone]
      generalize (s.task d).state = x at ht h₁ h₂
      generalize (t.task d).state = y at ht ⊢
      cases ht with
      | alloc _ => exact absurd rfl h₁
      | reap _ _ he => simp [h₃] at he
      | _ => simp
  | checking d => exact hpar d hfit (by simp)
  | reaping d =>
    obtain ⟨hz, hd⟩ := hfit
    refine ⟨?_, hpar d hd (by simp)⟩
    rcases hs.transition h d with he | ht
    · rw [he, hz]
    · rw [hz] at ht
      generalize (t.task d).state = y at ht ⊢
      cases ht with
      | reap ha hp _ => exact absurd hd (hreap _ d ha hp)
  | _ => trivial

theorem child_ne_unused (hs : Sound s) {dst : Slot} (hp : (s.place p).child = some dst) :
    (s.task dst).state ≠ .unused := by
  have hf := hs.fits p
  generalize s.place p = l at hf hp
  cases l with
  | copying d =>
    obtain rfl : d = dst := Option.some.inj hp
    simp [show (s.task d).state = .used from hf]
  | linking d =>
    obtain rfl : d = dst := Option.some.inj hp
    exact hf.1
  | _ => simp [Place.child] at hp

/-- A process that goes to another place holds the slot that it works on there. The slot that a
process fills is new to it only if the slot was unused. -/
theorem fits_move (hs : Sound s) (h : Step s a t) (q : Slot) :
    t.place q = s.place q ∨ t.Fits q (t.place q) ∧ ∀ dst, (t.place q).child = some dst →
      s.process_task = some q ∧
        ((s.place q).child = some dst ∨ (s.task dst).state = .unused) := by
  have hgo : ∀ p m, t.place = Function.update s.place p m → t.Fits p m →
      (∀ dst, m.child = some dst → s.process_task = some p ∧
        ((s.place p).child = some dst ∨ (s.task dst).state = .unused)) →
      t.place q = s.place q ∨ t.Fits q (t.place q) ∧ ∀ dst, (t.place q).child = some dst →
        s.process_task = some q ∧
          ((s.place q).child = some dst ∨ (s.task dst).state = .unused) := by
    intro p m hu hm hc
    by_cases hq : q = p
    · subst hq
      right
      simpa [hu] using ⟨hm, hc⟩
    · left
      simp [hu, hq]
  cases h with
  | exit => exact .inl rfl
  | dispatch => exact .inl rfl
  | yield => exact .inl rfl
  | wakeup => exact .inl rfl
  | @wake p lk caller hp =>
    rcases wake_place s p lk caller q with he | he
    · exact .inl he
    · right
      rw [he]
      cases caller <;> simp [Caller.place, Place.child, Fits]
  | scanChild hp hc => exact hgo _ _ rfl hc (by simp [Place.child])
  | checkZombie hp hz => exact hgo _ _ rfl ⟨hz, hs.fits_at hp⟩ (by simp [Place.child])
  | @alloc p dst hp hd =>
    have hne : p ≠ dst := by
      rintro rfl
      simp [hs.state_at hp] at hd
    by_cases hq : q = dst
    · subst hq
      right
      simp [allocProc, goTo, hne.symm, Fits, Place.child]
    · by_cases hq' : q = p
      · subst hq'
        right
        simp [allocProc, goTo, setTask, Fits, Place.child, hd, hp.1]
      · left
        simp [allocProc, goTo, setTask, hq, hq']
  | @copy p dst hp =>
    refine hgo p (.linking dst) rfl ?_ (by simp [hp.1, hp.2, Place.child])
    have hd : (s.task dst).state = .used := hs.fits_at hp
    simp [Fits, release, goTo, setTask, hs.fresh dst (.inr hd)]
  | _ => exact hgo _ _ rfl trivial (by simp [Place.child])

theorem fits_step (hs : Sound s) (h : Step s a t) (q : Slot) : t.Fits q (t.place q) := by
  rcases hs.fits_move h q with he | hf
  · rw [he]
    exact hs.fits_stay h he
  · exact hf.1

theorem distinct_step (hs : Sound s) (h : Step s a t) (p q dst : Slot)
    (hp : (t.place p).child = some dst) (hq : (t.place q).child = some dst) : p = q := by
  have hold : ∀ r, (t.place r).child = some dst → (s.place r).child = some dst ∨
      s.process_task = some r ∧ (s.task dst).state = .unused := by
    intro r hr
    rcases hs.fits_move h r with he | ⟨-, hc⟩
    · exact .inl (he ▸ hr)
    · obtain ⟨hr', hc | hc⟩ := hc dst hr
      · exact .inl hc
      · exact .inr ⟨hr', hc⟩
  rcases hold p hp with hp' | ⟨hp', hd⟩ <;> rcases hold q hq with hq' | ⟨hq', hd'⟩
  · exact hs.distinct p q dst hp' hq'
  · exact absurd hd' (hs.child_ne_unused hp')
  · exact absurd hd (hs.child_ne_unused hq')
  · exact Option.some.inj (hp'.symm.trans hq')

theorem step (hs : Sound s) (h : Step s a t) : Sound t where
  running := hs.running_step h
  channel := hs.channel_step h
  fresh := hs.fresh_step h
  fits := hs.fits_step h
  distinct := hs.distinct_step h

end Sound

theorem sound_boot : Sound boot where
  running p := by by_cases hp : p = 0 <;> simp [boot, hp]
  channel p := by by_cases hp : p = 0 <;> simp [boot, hp]
  fresh p _ := by by_cases hp : p = 0 <;> simp [boot, hp]
  fits _ := trivial
  distinct p q dst hp := by simp [boot, Place.child] at hp

/-! ## Runs -/

/-- The states that steps in any order reach after the system has started. -/
abbrev Reached (s : Scheduler) : Prop := Reachable (· = boot) (fun s t => ∃ a, Step s a t) s

theorem Reached.sound (h : Reached s) : Sound s :=
  h.invariant (by rintro _ rfl; exact sound_boot) fun _ _ hs ⟨_, hst⟩ => hs.step hst

/-- The process state machine. The task that runs is the one on the CPU, a task has a channel exactly
while it sleeps, only `Wakeup` on that channel ends a sleep, and only `sys_wait` of its parent
ends a zombie. -/
theorem process_state_machine (h : Reached s) :
    (∀ p, (s.task p).state = .running → s.process_task = some p) ∧
    (∀ p, (s.task p).channel ≠ none ↔ (s.task p).state = .sleep) ∧
    (∀ a t p, Step s a t → (s.task p).state = .sleep → (t.task p).state = .runnable →
      ∃ c, s.woken a = some c ∧ (s.task p).channel = some c) ∧
    (∀ a t p, Step s a t → (s.task p).state = .zombie → (t.task p).state ≠ .zombie →
      (t.task p).state = .unused ∧ a = .reap ∧
        ∃ q, s.At q (.reaping p) ∧ (s.task p).parent_process = some q) := by
  have hs := h.sound
  refine ⟨fun p => (hs.running p).mp, hs.channel, ?_, ?_⟩
  · intro a t p hst hsl hrun
    rcases hs.transition hst p with he | ht
    · simp [hsl, hrun] at he
    · rw [hsl, hrun] at ht
      cases ht with
      | wakeup hw hc => exact ⟨_, hw, hc⟩
  · intro a t p hst hz hne
    rcases hs.transition hst p with he | ht
    · exact absurd (he.trans hz) hne
    · rw [hz] at ht
      generalize (t.task p).state = y at ht ⊢
      cases ht with
      | reap ha hq hpar => exact ⟨rfl, ha, _, hq, hpar⟩

theorem process_state_machine_sleeper :
    let s := (boot.dispatch 0).sleep 0 (.other 7) (some 3) .outside
    ((s.task 0).state = .sleep ∧ s.process_task = none) ∧
      (∀ p, (s.task p).state = .running → s.process_task = some p) ∧
      ((s.task 0).channel ≠ none ↔ (s.task 0).state = .sleep) := by
  have h : Reached ((boot.dispatch 0).sleep 0 (.other 7) (some 3) .outside) :=
    .step (.step (.start rfl) ⟨_, .dispatch rfl rfl⟩) ⟨_, .sleepOutside ⟨rfl, rfl⟩⟩
  exact ⟨⟨rfl, rfl⟩, (process_state_machine h).1, (process_state_machine h).2.1 0⟩

end Scheduler

end OrangeOs.Kernel
