import OrangeOs.Kernel.Scheduler
import OrangeOs.Library.Sweep

/-! # The loop of `Dispatch`

`Dispatch` goes round the process table and switches to each process that is runnable. It is one way to
pick processes that the state machine of the processes allows, so what holds there holds of the loop. It
is also fair: before it comes to a process that can run, every other process runs once at most.
-/

namespace OrangeOs.Kernel

/-- The processes, and the task that the loop of `Dispatch` looks at or has switched to. -/
structure Dispatcher where
  sched : Scheduler
  task : Slot

/-- The loop goes past a task, or something happens to the processes. -/
inductive Turn where
  | pass (task : Slot)
  | act (a : Act)
  deriving DecidableEq

/-- The task that a turn of the loop is about. -/
def Turn.slot : Turn → Option Slot
  | pass task => some task
  | act (.dispatch task) => some task
  | act _ => none

namespace Dispatcher

open Scheduler

/-- One step. When the process that runs switches back, the loop goes on with the next task; after the
last one it starts again. -/
inductive Step (l : Dispatcher) : Turn → Dispatcher → Prop
  | pass : l.sched.process_task = none → (l.sched.task l.task).state ≠ .runnable →
      Step l (.pass l.task) ⟨l.sched, l.task + 1⟩
  | dispatch : l.sched.process_task = none → (l.sched.task l.task).state = .runnable →
      Step l (.act (.dispatch l.task)) ⟨l.sched.dispatch l.task, l.task⟩
  | run {a : Act} {t : Scheduler} : (∀ p, a ≠ .dispatch p) → Kernel.Step l.sched a t →
      Step l (.act a) ⟨t, if l.sched.process_task ≠ none ∧ t.process_task = none then l.task + 1
        else l.task⟩

/-- After `start` the loop begins with the first task. -/
abbrev Reached (l : Dispatcher) : Prop :=
  Reachable (· = ⟨boot, 0⟩) (fun l l' => ∃ a, Step l a l') l

variable {l l' : Dispatcher} {a : Turn} {as : List Turn} {p q i : Slot} {s t : Scheduler} {c : Act}
  {v : List Slot}

/-- The loop does nothing that the state machine does not allow. -/
theorem Step.sched (h : Step l a l') :
    l'.sched = l.sched ∨ ∃ c, a = .act c ∧ Kernel.Step l.sched c l'.sched := by
  cases h with
  | pass => exact .inl rfl
  | dispatch hidle hrun => exact .inr ⟨_, rfl, .dispatch hidle hrun⟩
  | run _ hs => exact .inr ⟨_, rfl, hs⟩

theorem Reached.sched (h : Reached l) : Scheduler.Reached l.sched := by
  induction h with
  | start h => exact h ▸ .start rfl
  | step _ hstep ih =>
    obtain ⟨a, hstep⟩ := hstep
    rcases hstep.sched with he | ⟨c, -, hs⟩
    · exact he ▸ ih
    · exact .step ih ⟨c, hs⟩

/-- Only `Dispatch` makes a process run. -/
theorem process_task_of_step (hs : Sound s) (h : Kernel.Step s c t) (hc : ∀ p, c ≠ .dispatch p)
    (ht : t.process_task = some q) : s.process_task = some q := by
  have hrun : (t.task q).state = .running := (hs.running_step h q).mpr ht
  apply (hs.running q).mp
  rcases hs.transition h q with he | htr
  · exact he ▸ hrun
  · rw [hrun] at htr
    generalize (s.task q).state = x at htr ⊢
    cases htr with
    | pick ha _ => exact absurd ha (hc q)

/-- A process that can run can run until it is picked. -/
theorem runnable_of_step (hs : Sound s) (h : Kernel.Step s c t) (hc : c ≠ .dispatch q)
    (hq : (s.task q).state = .runnable) : (t.task q).state = .runnable := by
  rcases hs.transition h q with he | htr
  · exact he.trans hq
  · rw [hq] at htr
    generalize (t.task q).state = x at htr ⊢
    cases htr with
    | pick ha _ => exact absurd ha hc

/-- What the loop has looked at since it was at `i`. -/
def Behind (i : Slot) (v : List Slot) (l : Dispatcher) : Prop :=
  Swept i v (if l.sched.process_task = none then l.task else l.task + 1)

/-- One turn, while `q` can run and is not picked. -/
theorem Behind.step (h : Behind i v l) (hs : Sound l.sched) (hq : (l.sched.task q).state = .runnable)
    (hv : q ∉ v) (hstep : Step l a l') (ha : a ≠ .act (.dispatch q)) :
    Behind i (v ++ a.slot.toList) l' ∧ (l'.sched.task q).state = .runnable ∧ a.slot ≠ some q := by
  cases hstep with
  | pass hidle hnot =>
    have hne : l.task ≠ q := fun he => hnot (he ▸ hq)
    rw [Behind, if_pos hidle] at h
    refine ⟨?_, hq, fun he => hne (Option.some.inj he)⟩
    rw [Behind, if_pos hidle]
    exact h.next hv hne
  | dispatch hidle hrun =>
    have hne : l.task ≠ q := fun he => ha (by rw [he])
    rw [Behind, if_pos hidle] at h
    refine ⟨?_, runnable_of_step hs (.dispatch hidle hrun) (fun he => ha (by rw [he])) hq,
      fun he => hne (Option.some.inj he)⟩
    rw [Behind, if_neg (by simp [Scheduler.dispatch])]
    exact h.next hv hne
  | @run c t hc hcall =>
    have hslot : (Turn.act c).slot = none := by
      cases c with
      | dispatch p => exact absurd rfl (hc p)
      | _ => rfl
    refine ⟨?_, runnable_of_step hs hcall (hc q) hq, by simp [hslot]⟩
    rw [hslot, Option.toList_none, List.append_nil]
    unfold Behind at h ⊢
    cases ht : t.process_task with
    | none =>
      by_cases hidle : l.sched.process_task = none
      · simpa [hidle] using h
      · simpa [hidle] using h
    | some p =>
      have hrun := process_task_of_step hs hcall hc ht
      simpa [hrun] using h

/-- While a process can run, the loop comes to each other task once at most before it comes to that one;
so at most 63 other processes run in the meantime, each of them once. -/
theorem round_robin (hl : Reached l) (hq : (l.sched.task q).state = .runnable)
    (ht : Trace (· = l) Step as l') (hno : .act (.dispatch q) ∉ as) :
    (l'.sched.task q).state = .runnable ∧ (as.filterMap Turn.slot).Nodup ∧
      (as.filterMap Turn.slot).length < MAX_PROCESS_NUM := by
  obtain ⟨i, hi⟩ : ∃ i, Behind i [] l := ⟨_, .nil _⟩
  have hrun : Sound l'.sched ∧ (l'.sched.task q).state = .runnable ∧
      Behind i (as.filterMap Turn.slot) l' ∧ q ∉ as.filterMap Turn.slot := by
    induction ht with
    | start h =>
      subst h
      exact ⟨hl.sched.sound, hq, hi, by simp⟩
    | @step as a l₁ l₂ _ hstep ih =>
      obtain ⟨hs, hq₁, hb, hv⟩ := ih fun hmem => hno (List.mem_append_left _ hmem)
      obtain ⟨hb', hq₂, hslot⟩ := hb.step hs hq₁ hv hstep fun he => hno (by simp [he])
      have hfilter : (as ++ [a]).filterMap Turn.slot = as.filterMap Turn.slot ++ a.slot.toList := by
        rw [List.filterMap_append]
        cases ha : a.slot <;> simp [ha]
      have hsound : Sound l₂.sched := by
        rcases hstep.sched with he | ⟨c, -, hcall⟩
        · exact he ▸ hs
        · exact hs.step hcall
      rw [hfilter]
      refine ⟨hsound, hq₂, hb', fun hmem => ?_⟩
      rcases List.mem_append.mp hmem with hmem | hmem
      · exact hv hmem
      · exact hslot (Option.mem_toList.mp hmem)
  obtain ⟨-, hq', hb, hv⟩ := hrun
  exact ⟨hq', Swept.nodup hb, (Swept.length_le hb hv).trans_lt (ahead_lt i q)⟩

/-- The first process was preempted, and the loop goes past a task that is not in use. -/
theorem round_robin_preempted : ∃ l l' : Dispatcher, Trace (· = l) Step [.pass 1] l' ∧
    (l.sched.task 0).state = .runnable ∧ (l'.sched.task 0).state = .runnable := by
  have hpick : Step ⟨boot, 0⟩ (.act (.dispatch 0)) ⟨boot.dispatch 0, 0⟩ := .dispatch rfl (by simp [boot])
  have hyield : Step ⟨boot.dispatch 0, 0⟩ (.act .yield) ⟨(boot.dispatch 0).yield 0, 1⟩ :=
    .run (t := (boot.dispatch 0).yield 0) (by simp) (.yield rfl trivial)
  have hl : Reached ⟨(boot.dispatch 0).yield 0, 1⟩ := .step (.step (.start rfl) ⟨_, hpick⟩) ⟨_, hyield⟩
  have hpass : Step ⟨(boot.dispatch 0).yield 0, 1⟩ (.pass 1) ⟨(boot.dispatch 0).yield 0, 2⟩ :=
    .pass rfl (by decide)
  have hq : (((boot.dispatch 0).yield 0).task 0).state = .runnable := by
    simp [Scheduler.yield, Scheduler.setTask]
  obtain ⟨hq', -⟩ := round_robin hl hq (.single hpass) (by simp)
  exact ⟨_, _, .single hpass, hq, hq'⟩

end Dispatcher

end OrangeOs.Kernel
