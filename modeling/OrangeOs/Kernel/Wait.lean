import OrangeOs.Kernel.Scheduler

/-! # Waiting for children

Two properties of `sys_wait` over all interleavings. The links to parents never dangle and each exit
is reported at most once, to the parent. A wakeup can be lost, because the search for
zombie children and the sleep are two steps, and because `Exit` hands its zombie children to the
init process without waking it.
-/

namespace OrangeOs.Kernel

/-- The process that an event reports. -/
def Event.report : Event → Option ℕ
  | .reported _ _ birth _ _ => some birth
  | .exited _ _ _ => none

/-- The process that an event ends. -/
def Event.ending : Event → Option ℕ
  | .exited birth _ _ => some birth
  | .reported _ _ _ _ _ => none

/-- `sys_wait` has looked at a slot when it is at this place. -/
def Place.Passed : Place → Slot → Prop
  | scanning i _, z => z.val < i
  | checking i, z => z.val < i.val
  | dozing, _ => True
  | _, _ => False

namespace Scheduler

variable {s t : Scheduler} {a : Act} {p q z : Slot}

/-! ## Links to parents -/

/-- The init process does not exit in this step. -/
def InitStays (s : Scheduler) (a : Act) : Prop :=
  ∀ code low, a = .exit code low → s.process_task ≠ s.init_process

/-- The states reached while the init process never exits. -/
abbrev ReachedWithInit (s : Scheduler) : Prop :=
  Reachable (· = boot) (fun s t => ∃ a, Step s a t ∧ s.InitStays a) s

/-- A task that is in use and has not exited. -/
def Alive (s : Scheduler) (p : Slot) : Prop :=
  (s.task p).state ≠ .unused ∧ (s.task p).state ≠ .zombie

theorem init_process_eq (h : Step s a t) : t.init_process = s.init_process := by
  cases h with
  | @wake p lk caller hp => unfold wake; split; · rfl
                            · split <;> rfl
  | _ => rfl

theorem Sound.alive_step (hs : Sound s) (h : Step s a t) (hp : s.Alive p)
    (hne : ∀ code low, a = .exit code low → s.process_task ≠ some p) : t.Alive p := by
  obtain ⟨h₁, h₂⟩ := hp
  rcases hs.transition h p with he | ht
  · exact ⟨he ▸ h₁, he ▸ h₂⟩
  · simp only [Alive]
    generalize (s.task p).state = x at ht h₁ h₂
    generalize (t.task p).state = y at ht
    cases ht with
    | exit ha hp =>
      obtain ⟨code, low, ha⟩ := ha
      exact absurd hp (hne code low ha)
    | alloc => exact absurd rfl h₁
    | reap => exact absurd rfl h₂
    | _ => simp

/-- The init process and all parents are alive. -/
structure Linked (s : Scheduler) : Prop where
  init : ∃ i, s.init_process = some i ∧ s.Alive i
  parent : ∀ q r, (s.task q).parent_process = some r → s.Alive r

theorem exit_parent_process (s : Scheduler) (p q : Slot) (code : Int32) (low : Channel) :
    ((s.exit p code low).task q).parent_process =
      if (s.task q).parent_process = some p then s.init_process
      else (s.task q).parent_process := by
  rw [exit_task, ProcessTask.wake, ← leaving_parent_process s p q code]
  split <;> rfl

theorem Linked.step (hl : Linked s) (hs : Sound s) (h : Step s a t) (hi : s.InitStays a) :
    Linked t := by
  obtain ⟨i, hinit, hai⟩ := hl.init
  have hai' : t.Alive i := hs.alive_step h hai fun code low ha => hinit ▸ hi code low ha
  refine ⟨⟨i, (init_process_eq h).trans hinit, hai'⟩, fun q r hq => ?_⟩
  by_cases hex : ∃ code low, a = .exit code low
  · obtain ⟨code, low, rfl⟩ := hex
    cases h with
    | @exit p _ _ hp =>
      rw [exit_parent_process] at hq
      split at hq
      · obtain rfl : i = r := Option.some.inj (hinit.symm.trans hq)
        exact hai'
      · next hne =>
        refine hs.alive_step (.exit hp) (hl.parent q r hq) fun _ _ _ hr => hne ?_
        rw [hq, ← hr, hp.1]
  · have hlive : s.Alive r → t.Alive r := fun ha =>
      hs.alive_step h ha fun code low ha => absurd ⟨code, low, ha⟩ hex
    rcases Sound.parent_cases h q with he | ⟨p, -, hp, he⟩ | ⟨p, ha, -⟩ | ⟨p, -, -, he⟩
    · exact hlive (hl.parent q r (he ▸ hq))
    · obtain rfl : p = r := Option.some.inj (he.symm.trans hq)
      exact hlive ⟨by simp [hs.state_at hp], by simp [hs.state_at hp]⟩
    · exact absurd ha hex
    · simp [he] at hq

theorem linked_boot : Linked boot where
  init := ⟨0, rfl, by simp [Alive, boot]⟩
  parent q r hq := by by_cases h : q = 0 <;> simp [boot, h] at hq

/-! ## Reports -/

/-- The record of a run. A process that is in use has a number of its own, and no report names it. A
process is recorded as ended exactly when it has exited. -/
structure Logged (s : Scheduler) : Prop where
  lt : ∀ p, (s.task p).state ≠ .unused → s.birth p < s.births
  inj : ∀ p q, (s.task p).state ≠ .unused → (s.task q).state ≠ .unused →
    s.birth p = s.birth q → p = q
  ended_lt : ∀ b ∈ s.log.filterMap Event.ending, b < s.births
  reported_lt : ∀ b ∈ s.log.filterMap Event.report, b < s.births
  zombie : ∀ p, (s.task p).state = .zombie →
    .exited (s.birth p) (s.task p).pid (s.task p).exit_code ∈ s.log
  alive : ∀ p, s.Alive p → s.birth p ∉ s.log.filterMap Event.ending
  unreported : ∀ p, (s.task p).state ≠ .unused → s.birth p ∉ s.log.filterMap Event.report
  ended_nodup : (s.log.filterMap Event.ending).Nodup
  reported_nodup : (s.log.filterMap Event.report).Nodup
  parent : ∀ w r b pid code, .reported w r b pid code ∈ s.log →
    r = some w ∧ .exited b pid code ∈ s.log

namespace Logged

/-- A step that records nothing and neither starts nor ends a process. -/
theorem of_eq (hg : Logged s) (hlog : t.log = s.log) (hbirths : t.births = s.births)
    (hbirth : t.birth = s.birth)
    (hused : ∀ p, (t.task p).state ≠ .unused → (s.task p).state ≠ .unused)
    (halive : ∀ p, t.Alive p → s.Alive p)
    (hzombie : ∀ p, (t.task p).state = .zombie → (s.task p).state = .zombie ∧
      (t.task p).pid = (s.task p).pid ∧ (t.task p).exit_code = (s.task p).exit_code) :
    Logged t where
  lt p hp := by rw [hbirth, hbirths]; exact hg.lt p (hused p hp)
  inj p q hp hq he := hg.inj p q (hused p hp) (hused q hq) (by rwa [hbirth] at he)
  ended_lt b hb := by rw [hbirths]; exact hg.ended_lt b (hlog ▸ hb)
  reported_lt b hb := by rw [hbirths]; exact hg.reported_lt b (hlog ▸ hb)
  zombie p hp := by
    obtain ⟨hz, hpid, hcode⟩ := hzombie p hp
    rw [hlog, hbirth, hpid, hcode]
    exact hg.zombie p hz
  alive p hp := by rw [hlog, hbirth]; exact hg.alive p (halive p hp)
  unreported p hp := by rw [hlog, hbirth]; exact hg.unreported p (hused p hp)
  ended_nodup := by rw [hlog]; exact hg.ended_nodup
  reported_nodup := by rw [hlog]; exact hg.reported_nodup
  parent w r b pid code hm := by
    rw [hlog] at hm ⊢
    exact hg.parent w r b pid code hm

end Logged

theorem wake_pid (x : ProcessTask) (c : Channel) : (x.wake c).pid = x.pid := by
  unfold ProcessTask.wake; split <;> rfl

theorem wake_exit_code (x : ProcessTask) (c : Channel) : (x.wake c).exit_code = x.exit_code := by
  unfold ProcessTask.wake; split <;> rfl

theorem exit_pid (s : Scheduler) (p q : Slot) (code : Int32) (low : Channel) :
    ((s.exit p code low).task q).pid = (s.task q).pid := by
  simp only [exit_task, wake_pid, leaving, reparent, setTask, Function.update_apply]
  split <;> split <;> simp_all

theorem exit_exit_code (s : Scheduler) (p q : Slot) (code : Int32) (low : Channel) :
    ((s.exit p code low).task q).exit_code = if q = p then code else (s.task q).exit_code := by
  simp only [exit_task, wake_exit_code, leaving, reparent, setTask, Function.update_apply]
  split <;> split <;> simp_all

theorem exit_state (s : Scheduler) (p q : Slot) (code : Int32) (low : Channel) :
    ((s.exit p code low).task q).state = (if q = p then .zombie else (s.task q).state) ∨
      (s.task q).state = .sleep ∧ ((s.exit p code low).task q).state = .runnable := by
  rw [exit_task, ProcessTask.wake]
  have hl := leaving_state s p q code
  by_cases hq : q = p
  · simp only [if_pos hq] at hl ⊢
    simp [hl]
  · simp only [if_neg hq] at hl ⊢
    split
    · next hw => exact .inr ⟨hl ▸ hw.1, rfl⟩
    · exact .inl hl

namespace Logged

/-- `Exit` records the end of its process. -/
theorem exit (hg : Logged s) (hs : Sound s) {code : Int32} {low : Channel}
    (hp : s.At p .outside) : Logged (s.exit p code low) := by
  have hst := hs.state_at hp
  have hlog : (s.exit p code low).log = s.log ++ [.exited (s.birth p) (s.task p).pid code] := rfl
  have hbirth : (s.exit p code low).birth = s.birth := rfl
  have hend : (s.exit p code low).log.filterMap Event.ending =
      s.log.filterMap Event.ending ++ [s.birth p] := by
    rw [hlog, List.filterMap_append]; rfl
  have hrep : (s.exit p code low).log.filterMap Event.report = s.log.filterMap Event.report := by
    rw [hlog, List.filterMap_append]; exact List.append_nil _
  have hstate := fun q => exit_state s p q code low
  have hused : ∀ q, ((s.exit p code low).task q).state ≠ .unused →
      (s.task q).state ≠ .unused := by
    intro q
    have := hstate q
    grind
  have hother : ∀ q, (s.exit p code low).Alive q → s.Alive q ∧ q ≠ p := by
    intro q
    have := hstate q
    simp only [Alive]
    grind
  constructor
  · exact fun q hq => hg.lt q (hused q hq)
  · exact fun q r hq hr => hg.inj q r (hused q hq) (hused r hr)
  · intro b hb
    rw [hend, List.mem_append, List.mem_singleton] at hb
    rcases hb with hb | rfl
    · exact hg.ended_lt b hb
    · exact hg.lt p (by simp [hst])
  · exact fun b hb => hg.reported_lt b (hrep ▸ hb)
  · intro q hq
    rw [exit_pid, exit_exit_code, hlog, hbirth, List.mem_append]
    by_cases hqp : q = p
    · subst hqp
      simp
    · left
      rw [if_neg hqp]
      refine hg.zombie q ?_
      have := hstate q
      grind
  · intro q hq
    obtain ⟨ha, hne⟩ := hother q hq
    rw [hend, hbirth, List.mem_append, List.mem_singleton]
    rintro (hb | he)
    · exact hg.alive q ha hb
    · exact hne (hg.inj q p ha.1 (by simp [hst]) he)
  · exact fun q hq => by rw [hrep]; exact hg.unreported q (hused q hq)
  · rw [hend, ← List.concat_eq_append]
    exact hg.ended_nodup.concat (hg.alive p ⟨by simp [hst], by simp [hst]⟩)
  · rw [hrep]
    exact hg.reported_nodup
  · intro w r b pid code' hm
    simp only [hlog, List.mem_append] at hm ⊢
    rcases hm with hm | hm
    · obtain ⟨h₁, h₂⟩ := hg.parent w r b pid code' hm
      exact ⟨h₁, .inl h₂⟩
    · simp at hm

/-- `AllocProc` starts a process with a number of its own. -/
theorem alloc (hg : Logged s) {dst : Slot} (hd : (s.task dst).state = .unused) :
    Logged ((s.allocProc dst).goTo p (.copying dst)) := by
  have htask : ∀ q ≠ dst, ((s.allocProc dst).goTo p (.copying dst)).task q = s.task q := by
    intro q hq
    simp [allocProc, goTo, setTask, hq]
  have hself : (((s.allocProc dst).goTo p (.copying dst)).task dst).state = .used := by
    simp [allocProc, goTo, setTask]
  have hbirth : ((s.allocProc dst).goTo p (.copying dst)).birth =
      Function.update s.birth dst s.births := rfl
  have hbirths : ((s.allocProc dst).goTo p (.copying dst)).births = s.births + 1 := rfl
  have hlog : ((s.allocProc dst).goTo p (.copying dst)).log = s.log := rfl
  generalize (s.allocProc dst).goTo p (.copying dst) = t at htask hself hbirth hbirths hlog
  have hb : t.birth dst = s.births := by simp [hbirth]
  have hb' : ∀ q ≠ dst, t.birth q = s.birth q := fun q hq => by simp [hbirth, hq]
  have hlt : ∀ q ≠ dst, (t.task q).state ≠ .unused → s.birth q < s.births := fun q hq hu =>
    hg.lt q (htask q hq ▸ hu)
  constructor
  · intro q hu
    rw [hbirths]
    by_cases hq : q = dst
    · rw [hq, hb]; omega
    · rw [hb' q hq]
      have := hlt q hq hu
      omega
  · intro q r hq hr he
    by_cases hqd : q = dst <;> by_cases hrd : r = dst
    · rw [hqd, hrd]
    · rw [hqd, hb, hb' r hrd] at he
      have := hlt r hrd hr
      omega
    · rw [hrd, hb, hb' q hqd] at he
      have := hlt q hqd hq
      omega
    · rw [hb' q hqd, hb' r hrd] at he
      exact hg.inj q r (htask q hqd ▸ hq) (htask r hrd ▸ hr) he
  · intro b hm
    have := hg.ended_lt b (hlog ▸ hm)
    omega
  · intro b hm
    have := hg.reported_lt b (hlog ▸ hm)
    omega
  · intro q hq
    have hne : q ≠ dst := by
      rintro rfl
      simp [hself] at hq
    rw [htask q hne] at hq ⊢
    rw [hlog, hb' q hne]
    exact hg.zombie q hq
  · intro q hq
    rw [hlog]
    by_cases hqd : q = dst
    · rw [hqd, hb]
      exact fun hm => absurd (hg.ended_lt _ hm) (lt_irrefl _)
    · rw [hb' q hqd]
      exact hg.alive q (by simpa [Alive, htask q hqd] using hq)
  · intro q hq
    rw [hlog]
    by_cases hqd : q = dst
    · rw [hqd, hb]
      exact fun hm => absurd (hg.reported_lt _ hm) (lt_irrefl _)
    · rw [hb' q hqd]
      exact hg.unreported q (htask q hqd ▸ hq)
  · rw [hlog]; exact hg.ended_nodup
  · rw [hlog]; exact hg.reported_nodup
  · rw [hlog]; exact hg.parent

/-- `sys_wait` records the answer that it gives. -/
theorem reap (hg : Logged s) (hs : Sound s) {child : Slot} (hp : s.At p (.reaping child)) :
    Logged ((s.reap p child).goTo p .outside) := by
  obtain ⟨hz, hpar⟩ : (s.task child).state = .zombie ∧ (s.task child).parent_process = some p :=
    hs.fits_at hp
  have htask : ∀ q ≠ child, ((s.reap p child).goTo p .outside).task q = s.task q := by
    intro q hq
    simp [Scheduler.reap, goTo, setTask, hq]
  have hself : (((s.reap p child).goTo p .outside).task child).state = .unused := by
    simp [Scheduler.reap, goTo, setTask]
  have hbirth : ((s.reap p child).goTo p .outside).birth = s.birth := rfl
  have hbirths : ((s.reap p child).goTo p .outside).births = s.births := rfl
  have hlog : ((s.reap p child).goTo p .outside).log = s.log ++
      [.reported p (some p) (s.birth child) (s.task child).pid (s.task child).exit_code] := by
    simp [Scheduler.reap, goTo, setTask, hpar]
  generalize (s.reap p child).goTo p .outside = t at htask hself hbirth hbirths hlog
  have hend : t.log.filterMap Event.ending = s.log.filterMap Event.ending := by
    rw [hlog, List.filterMap_append]; exact List.append_nil _
  have hrep : t.log.filterMap Event.report =
      s.log.filterMap Event.report ++ [s.birth child] := by
    rw [hlog, List.filterMap_append]; rfl
  have hne : ∀ q, (t.task q).state ≠ .unused → q ≠ child := by
    rintro q hq rfl
    exact hq hself
  have hused : ∀ q, (t.task q).state ≠ .unused → (s.task q).state ≠ .unused := fun q hq =>
    htask q (hne q hq) ▸ hq
  constructor
  · exact fun q hq => by rw [hbirth, hbirths]; exact hg.lt q (hused q hq)
  · exact fun q r hq hr he => hg.inj q r (hused q hq) (hused r hr) (by rwa [hbirth] at he)
  · exact fun b hb => by rw [hbirths]; exact hg.ended_lt b (hend ▸ hb)
  · intro b hb
    rw [hbirths]
    rw [hrep, List.mem_append, List.mem_singleton] at hb
    rcases hb with hb | rfl
    · exact hg.reported_lt b hb
    · exact hg.lt child (by simp [hz])
  · intro q hq
    have hqc := hne q (by simp [hq])
    rw [htask q hqc] at hq ⊢
    rw [hlog, hbirth]
    exact List.mem_append_left _ (hg.zombie q hq)
  · intro q hq
    rw [hend, hbirth]
    exact hg.alive q (by simpa [Alive, htask q (hne q hq.1)] using hq)
  · intro q hq
    rw [hrep, hbirth, List.mem_append, List.mem_singleton]
    rintro (hb | he)
    · exact hg.unreported q (hused q hq) hb
    · exact hne q hq (hg.inj q child (hused q hq) (by simp [hz]) he)
  · rw [hend]
    exact hg.ended_nodup
  · rw [hrep, ← List.concat_eq_append]
    exact hg.reported_nodup.concat (hg.unreported child (by simp [hz]))
  · intro w r b pid code hm
    simp only [hlog, List.mem_append, List.mem_singleton, Event.reported.injEq] at hm ⊢
    rcases hm with hm | ⟨rfl, rfl, rfl, rfl, rfl⟩
    · obtain ⟨h₁, h₂⟩ := hg.parent w r b pid code hm
      exact ⟨h₁, .inl h₂⟩
    · exact ⟨rfl, .inl (hg.zombie child hz)⟩

/-- A step that changes one task, and neither starts nor ends its process. -/
theorem of_update (hg : Logged s) (hlog : t.log = s.log) (hbirths : t.births = s.births)
    (hbirth : t.birth = s.birth) {x : ProcessTask} (ht : t.task = Function.update s.task p x)
    (hp : s.Alive p) (hx : x.state ≠ .unused ∧ x.state ≠ .zombie) : Logged t := by
  refine hg.of_eq hlog hbirths hbirth ?_ ?_ ?_
  all_goals
    intro q hq
    by_cases hqp : q = p
    · subst hqp
      simp_all [Alive]
    · simp_all [Alive]

theorem step (hg : Logged s) (hs : Sound s) (h : Step s a t) : Logged t := by
  have halive : ∀ {p l}, s.At p l → s.Alive p := fun hp => by simp [Alive, hs.state_at hp]
  cases h with
  | exit hp => exact hg.exit hs hp
  | alloc hp hd => exact hg.alloc hd
  | reap hp => exact hg.reap hs hp
  | dispatch _ hr => exact hg.of_update rfl rfl rfl rfl (by simp [Alive, hr]) (by simp)
  | @yield p hp _ =>
    exact hg.of_update rfl rfl rfl rfl (halive ⟨hp, rfl⟩) (by simp)
  | sleepOutside hp => exact hg.of_update rfl rfl rfl rfl (halive hp) (by simp)
  | sleepGuarded hp => exact hg.of_update rfl rfl rfl rfl (halive hp) (by simp)
  | doze hp => exact hg.of_update rfl rfl rfl rfl (halive hp) (by simp)
  | @copy p dst hp =>
    have hd : (s.task dst).state = .used := hs.fits_at hp
    exact hg.of_update rfl rfl rfl rfl (by simp [Alive, hd]) (by simp)
  | @link p dst hp =>
    refine hg.of_eq rfl rfl rfl ?_ ?_ ?_
    all_goals
      intro q hq
      by_cases hqp : q = dst
      · subst hqp
        simp_all [Alive, link, goTo, setTask]
      · simp_all [Alive, link, goTo, setTask]
  | @wakeup c =>
    refine hg.of_eq rfl rfl rfl ?_ ?_ ?_
    all_goals
      intro q hq
      simp only [wakeup, ProcessTask.wake, Alive] at hq ⊢
      split at hq <;> simp_all
  | @wake p lk caller hp =>
    have : ∀ {u : Scheduler}, u.task = s.task → u.log = s.log → u.births = s.births →
        u.birth = s.birth → Logged u := by
      intro u hu h₁ h₂ h₃
      exact hg.of_eq h₁ h₂ h₃ (by simp [hu]) (by simp [Alive, hu]) (by simp_all)
    unfold wake
    split
    · exact this rfl rfl rfl rfl
    · split <;> exact this rfl rfl rfl rfl
  | _ => exact hg.of_eq rfl rfl rfl (fun _ h => h) (fun _ h => h) fun _ h => ⟨h, rfl, rfl⟩

end Logged

theorem boot_state (hp : (boot.task p).state ≠ .unused) : p = 0 := by
  by_contra h
  simp [boot, h] at hp

theorem logged_boot : Logged boot where
  lt p _ := Nat.zero_lt_one
  inj p q hp hq _ := (boot_state hp).trans (boot_state hq).symm
  ended_lt b hb := by simp [boot] at hb
  reported_lt b hb := by simp [boot] at hb
  zombie p hp := by
    obtain rfl := boot_state (p := p) (by simp [hp])
    simp [boot] at hp
  alive p _ := by simp [boot]
  unreported p _ := by simp [boot]
  ended_nodup := by simp [boot]
  reported_nodup := by simp [boot]
  parent w r b pid code hm := by simp [boot] at hm

theorem ReachedWithInit.invariant (h : ReachedWithInit s) : Sound s ∧ Linked s ∧ Logged s := by
  refine @Reachable.invariant _ _ _ _ (fun s => Sound s ∧ Linked s ∧ Logged s) h ?_ ?_
  · rintro _ rfl
    exact ⟨sound_boot, linked_boot, logged_boot⟩
  · rintro s t ⟨hs, hl, hg⟩ ⟨a, hst, hi⟩
    exact ⟨hs.step hst, hl.step hs hst hi, hg.step hs hst⟩

/-- The init process after it has forked a child. -/
def forked : Scheduler :=
  ((((((boot.dispatch 0).goTo 0 (.allocating 0)).goTo 0 (.allocating 1)).allocProc 1).goTo 0
    (.copying 1)).release 1).goTo 0 (.linking 1) |>.link 0 1 |>.goTo 0 .outside

theorem forked_run {next : Scheduler → Scheduler → Prop}
    (hnext : ∀ s t a, Step s a t → (∀ code low, a ≠ .exit code low) → next s t) :
    Reachable (· = boot) next forked := by
  have h₁ : Reachable (· = boot) next (boot.dispatch 0) :=
    .step (.start rfl) (hnext _ _ _ (.dispatch rfl rfl) (by simp))
  have h₂ := Reachable.step h₁ (hnext _ _ _ (@Step.fork _ 0 ⟨rfl, rfl⟩) (by simp))
  have h₃ := Reachable.step h₂ (hnext _ _ _ (@Step.allocNext _ 0 0 ⟨rfl, rfl⟩ (by decide)) (by simp))
  have h₄ := Reachable.step h₃ (hnext _ _ _ (@Step.alloc _ 0 1 ⟨rfl, rfl⟩ (by decide)) (by simp))
  have h₅ := Reachable.step h₄ (hnext _ _ _ (@Step.copy _ 0 1 ⟨rfl, rfl⟩) (by simp))
  exact .step h₅ (hnext _ _ _ (@Step.link _ 0 1 ⟨rfl, rfl⟩) (by simp))

/-- As long as the init process does not exit, every link to a parent leads to a process that is in
use and has not exited, an unused slot is nobody's parent, a process exits and is
reported at most once, and a report repeats an exit to the parent of the process. -/
theorem parents_and_reports (h : ReachedWithInit s) :
    (∀ q r, (s.task q).state ≠ .unused → (s.task q).parent_process = some r →
      (s.task r).state ≠ .unused ∧ (s.task r).state ≠ .zombie) ∧
    (∀ r, (s.task r).state = .unused → ∀ q, (s.task q).parent_process ≠ some r) ∧
    (s.log.filterMap Event.ending).Nodup ∧ (s.log.filterMap Event.report).Nodup ∧
    ∀ waiter parent birth pid exit_code,
      .reported waiter parent birth pid exit_code ∈ s.log →
        parent = some waiter ∧ .exited birth pid exit_code ∈ s.log := by
  obtain ⟨-, hl, hg⟩ := h.invariant
  refine ⟨fun q r _ hq => hl.parent q r hq, fun r hr q hq => (hl.parent q r hq).1 hr,
    hg.ended_nodup, hg.reported_nodup, hg.parent⟩

/-- A child exits with code 5 and its parent waits for it. -/
theorem parents_and_reports_child :
    ∃ s : Scheduler, (Event.reported 0 (some 0) 1 2 5 ∈ s.log ∧ (s.task 1).state = .unused) ∧
      (s.log.filterMap Event.report).Nodup ∧
      (∀ q, (s.task q).parent_process ≠ some 1) ∧
      ∀ w r b pid code, .reported w r b pid code ∈ s.log →
        r = some w ∧ .exited b pid code ∈ s.log := by
  have h₀ : ReachedWithInit forked := forked_run fun s t a hst ha =>
    ⟨a, hst, fun code low he => absurd he (ha code low)⟩
  have h₁ := Reachable.step h₀ ⟨_, @Step.yield _ 0 rfl trivial, by simp [InitStays]⟩
  have h₂ := Reachable.step h₁ ⟨_, @Step.dispatch _ 1 rfl rfl, by simp [InitStays]⟩
  have h₃ := Reachable.step h₂ ⟨_, @Step.exit _ 1 5 (.other 0) ⟨rfl, rfl⟩, fun _ _ _ => by decide⟩
  have h₄ := Reachable.step h₃ ⟨_, @Step.dispatch _ 0 rfl rfl, by simp [InitStays]⟩
  have h₅ := Reachable.step h₄ ⟨_, @Step.wait _ 0 ⟨rfl, rfl⟩, by simp [InitStays]⟩
  have h₆ := Reachable.step h₅
    ⟨_, @Step.scanNext _ 0 0 false ⟨rfl, rfl⟩ (by decide), by simp [InitStays]⟩
  have h₇ := Reachable.step h₆
    ⟨_, @Step.scanChild _ 0 1 false ⟨rfl, rfl⟩ rfl, by simp [InitStays]⟩
  have h₈ := Reachable.step h₇ ⟨_, @Step.checkZombie _ 0 1 ⟨rfl, rfl⟩ rfl, by simp [InitStays]⟩
  have h₉ := Reachable.step h₈ ⟨_, @Step.reap _ 0 1 ⟨rfl, rfl⟩, by simp [InitStays]⟩
  obtain ⟨-, hunused, -, hrep, hpar⟩ := parents_and_reports h₉
  exact ⟨_, ⟨by decide, rfl⟩, hrep, hunused 1 rfl, hpar⟩

/-! ## Lost wakeups -/

/-- `sys_wait` of `q` has looked at slot `z` since it began its search, or has ended the search. -/
def Passed (s : Scheduler) (q z : Slot) : Prop := (s.place q).Passed z

/-- The process sleeps in `sys_wait`, on its own channel. -/
def Waiting (s : Scheduler) (q : Slot) : Prop :=
  (s.task q).state = .sleep ∧ (s.task q).channel = some (.owned q) ∧
    s.place q = .sleeping none .wait

/-- An exit that the parents concerned notice. The parent that is woken has not looked at the slot of
the process yet. If a zombie child goes to the init process, then this one has not looked
at the slot of the child yet, and if it sleeps in `sys_wait`, it is the one that is woken. -/
structure Noticed (s : Scheduler) (p : Slot) (code : Int32) : Prop where
  own : ∀ q, ((s.leaving p code).task p).parent_process = some q → ¬ s.Passed q p
  children : ∀ z i, z ≠ p → (s.task z).state = .zombie → (s.task z).parent_process = some p →
    s.init_process = some i → ¬ s.Passed i z ∧
      (s.Waiting i → ((s.leaving p code).task p).parent_process = some i)

/-- The states reached when every exit is noticed. -/
abbrev ReachedNoticed (s : Scheduler) : Prop :=
  Reachable (· = boot) (fun s t => ∃ a, Step s a t ∧ ∀ code low p, a = .exit code low →
    s.process_task = some p → s.Noticed p code) s

/-- A parent of a zombie has not looked at it yet and does not sleep. -/
def Attentive (s : Scheduler) : Prop :=
  ∀ z q, (s.task z).state = .zombie → (s.task z).parent_process = some q →
    ¬ s.Passed q z ∧ ¬ s.Waiting q

/-- `Exit` wakes nobody who goes on sleeping. -/
theorem waiting_of_exit {code : Int32} {low : Channel} (h : (s.exit p code low).Waiting q) :
    s.Waiting q ∧ ((s.leaving p code).task p).parent_process ≠ some q := by
  obtain ⟨hst, hch, hpl⟩ := h
  have hplace : (s.exit p code low).place q = s.place q := rfl
  rw [exit_task, ProcessTask.wake] at hst hch
  split at hst
  · simp at hst
  · next hw =>
    rw [if_neg hw] at hch
    have hst' := hst
    rw [leaving_state] at hst'
    have hq : q ≠ p := by
      rintro rfl
      simp at hst'
    rw [if_neg hq] at hst'
    refine ⟨⟨hst', by rw [← hch, leaving_channel], hplace ▸ hpl⟩, fun hpar => hw ⟨hst, ?_⟩⟩
    rw [hch, parentChannel, hpar]

namespace Attentive

theorem exit (ha : Attentive s) {code : Int32} {low : Channel} (hn : s.Noticed p code) :
    Attentive (s.exit p code low) := by
  intro z q hz hq
  have hpass : (s.exit p code low).Passed q z ↔ s.Passed q z := Iff.rfl
  rw [hpass]
  by_cases hzp : z = p
  · subst hzp
    have hpar : ((s.leaving z code).task z).parent_process = some q := by
      rw [leaving_parent_process, ← exit_parent_process, hq]
    exact ⟨hn.own q hpar, fun hw => (waiting_of_exit hw).2 hpar⟩
  · have hz' : (s.task z).state = .zombie := by
      have := exit_state s p z code low
      grind
    rw [exit_parent_process] at hq
    split at hq
    · next hpar =>
      obtain ⟨h₁, h₂⟩ := hn.children z q hzp hz' hpar hq
      exact ⟨h₁, fun hw => (waiting_of_exit hw).2 (h₂ (waiting_of_exit hw).1)⟩
    · obtain ⟨h₁, h₂⟩ := ha z q hz' hq
      exact ⟨h₁, fun hw => h₂ (waiting_of_exit hw).1⟩

/-- A step other than an exit makes no zombie. -/
theorem zombie_of_step (hs : Sound s) (h : Step s a t) (hex : ∀ code low, a ≠ .exit code low)
    {z : Slot} (hz : (t.task z).state = .zombie) : (s.task z).state = .zombie := by
  rcases hs.transition h z with he | ht
  · exact he ▸ hz
  · rw [hz] at ht
    generalize (s.task z).state = x at ht
    cases ht with
    | exit ha _ =>
      obtain ⟨code, low, rfl⟩ := ha
      exact absurd rfl (hex code low)

/-- The search of `sys_wait` passes no zombie child. -/
theorem passed_step (h : Step s a t) (hz : (s.task z).state = .zombie)
    (hq : (s.task z).parent_process = some q) (hp : t.Passed q z) : s.Passed q z := by
  have hgo : ∀ {r m}, t.place = Function.update s.place r m →
      (q = r → m.Passed z → (s.place r).Passed z) → s.Passed q z := by
    intro r m hu hm
    simp only [Passed, hu] at hp ⊢
    by_cases hqr : q = r
    · subst hqr
      exact hm rfl (by simpa using hp)
    · simpa [hqr] using hp
  cases h with
  | exit => exact hp
  | dispatch => exact hp
  | yield => exact hp
  | wakeup => exact hp
  | @wake r lk caller hr =>
    rcases wake_place s r lk caller q with he | he
    · simpa [Passed, he] using hp
    · simp only [Passed, he] at hp
      cases caller <;> simp [Caller.place, Place.Passed] at hp
  | @alloc r dst hr hd =>
    simp only [Passed, allocProc, goTo, setTask, Function.update_apply] at hp
    grind [Place.Passed, Passed]
  | @scanNext r i has_child hr hne =>
    refine hgo rfl fun hqr hm => ?_
    subst hqr
    have hzi : z ≠ i := by
      rintro rfl
      exact hne hq
    simp only [hr.2, Place.Passed] at hm ⊢
    have := Fin.val_ne_of_ne hzi
    omega
  | @scanChild r i has_child hr hc => exact hgo rfl fun _ hm => by simpa [hr.2, Place.Passed] using hm
  | @checkAlive r i hr hne =>
    refine hgo rfl fun hqr hm => ?_
    have hzi : z ≠ i := by
      rintro rfl
      exact hne hz
    simp only [hr.2, Place.Passed] at hm ⊢
    have := Fin.val_ne_of_ne hzi
    omega
  | @scanDone r hr => exact hgo rfl fun _ _ => by simp [hr.2, Place.Passed]
  | @wait r hr => exact hgo rfl fun _ hm => by simp [Place.Passed] at hm
  | _ => exact hgo rfl fun _ hm => by simp [Place.Passed] at hm

/-- A process begins to sleep in `sys_wait` after its search. -/
theorem waiting_step (h : Step s a t) (hq : t.Waiting q) :
    s.Waiting q ∨ s.place q = .dozing := by
  obtain ⟨hst, hch, hpl⟩ := hq
  cases h with
  | exit => exact .inl (waiting_of_exit ⟨hst, hch, hpl⟩).1
  | @wake p lk caller hp =>
    rcases wake_place s p lk caller q with he | he
    · rw [wake_task] at hst hch
      exact .inl ⟨hst, hch, he ▸ hpl⟩
    · rw [he] at hpl
      cases caller <;> simp [Caller.place] at hpl
  | _ =>
    simp only [Waiting, dispatch, yield, wakeup, sleep, allocProc, release, link, reap,
      ProcessTask.wake, At, goTo, setTask, Function.update_apply] at *
    grind

theorem step (ha : Attentive s) (hs : Sound s) (h : Step s a t)
    (hn : ∀ code low p, a = .exit code low → s.process_task = some p → s.Noticed p code) :
    Attentive t := by
  by_cases hex : ∃ code low, a = .exit code low
  · obtain ⟨code, low, rfl⟩ := hex
    cases h with
    | @exit p _ _ hp => exact ha.exit (hn code low p rfl hp.1)
  · intro z q hz hq
    have hz' := zombie_of_step hs h (fun code low he => hex ⟨code, low, he⟩) hz
    rcases Sound.parent_cases h z with he | ⟨p, rfl, hp, he⟩ | ⟨p, he, -⟩ | ⟨p, -, -, he⟩
    · obtain ⟨h₁, h₂⟩ := ha z q hz' (he ▸ hq)
      refine ⟨fun hp => h₁ (passed_step h hz' (he ▸ hq) hp), fun hw => ?_⟩
      rcases waiting_step h hw with hw | hw
      · exact h₂ hw
      · exact h₁ (by simp [Passed, hw, Place.Passed])
    · obtain rfl : p = q := Option.some.inj (he.symm.trans hq)
      cases h with
      | @link r dst hr =>
        obtain rfl : r = p := Option.some.inj (hr.1.symm.trans hp.1)
        simp [Passed, Waiting, goTo, Place.Passed]
    · exact absurd he hex
    · simp [he] at hq

end Attentive

/-- When every exit is noticed, nobody sleeps in `sys_wait` while a child is a zombie. -/
theorem no_lost_wakeup (h : ReachedNoticed s) :
    ¬ ∃ q z, s.Waiting q ∧ (s.task z).state = .zombie ∧ (s.task z).parent_process = some q := by
  have hinv : Sound s ∧ Attentive s := by
    refine @Reachable.invariant _ _ _ _ (fun s => Sound s ∧ Attentive s) h ?_ ?_
    · rintro _ rfl
      refine ⟨sound_boot, fun z q hz => ?_⟩
      obtain rfl := boot_state (p := z) (by simp [hz])
      simp [boot] at hz
    · rintro s t ⟨hs, ha⟩ ⟨a, hst, hn⟩
      exact ⟨hs.step hst, ha.step hs hst hn⟩
  rintro ⟨q, z, hw, hz, hq⟩
  exact (hinv.2 z q hz hq).2 hw

/-- A child exits while its parent is not waiting for it. -/
theorem no_lost_wakeup_zombie :
    ∃ s : Scheduler, ((s.task 1).state = .zombie ∧ (s.task 1).parent_process = some 0) ∧
      ¬ ∃ q z, s.Waiting q ∧ (s.task z).state = .zombie ∧
        (s.task z).parent_process = some q := by
  have h₀ : ReachedNoticed forked := forked_run fun s t a hst ha =>
    ⟨a, hst, fun code low _ he => absurd he (ha code low)⟩
  have h₁ := Reachable.step h₀ ⟨_, @Step.yield _ 0 rfl trivial, by simp⟩
  have h₂ := Reachable.step h₁ ⟨_, @Step.dispatch _ 1 rfl rfl, by simp⟩
  have hn : ((forked.yield 0).dispatch 1).Noticed 1 5 := by
    refine ⟨fun q hq => ?_, ?_⟩
    · obtain rfl : 0 = q := Option.some.inj hq
      exact id
    · have hz : ∀ z, (((forked.yield 0).dispatch 1).task z).state ≠ .zombie := by decide
      exact fun z _ _ h => absurd h (hz z)
  have h₃ : ReachedNoticed (((forked.yield 0).dispatch 1).exit 1 5 (.other 0)) :=
    .step h₂ ⟨.exit 5 (.other 0), .exit ⟨rfl, rfl⟩, fun _ _ p he hp => by
      obtain rfl : 1 = p := Option.some.inj hp
      obtain ⟨rfl, -⟩ := Act.exit.inj he
      exact hn⟩
  exact ⟨_, ⟨rfl, rfl⟩, no_lost_wakeup h₃⟩

/-- The rest of the search of `sys_wait` when no child is left. -/
theorem scan_rest {i : ℕ} {has_child : Bool} (h : Reached s) (hp : s.At p (.scanning i has_child))
    (hi : i ≤ MAX_PROCESS_NUM)
    (hne : ∀ j : Slot, i ≤ j.val → (s.task j).parent_process ≠ some p) :
    Reached (s.goTo p (.scanning MAX_PROCESS_NUM has_child)) := by
  obtain ⟨k, hk⟩ : ∃ k, i + k = MAX_PROCESS_NUM := ⟨_, Nat.add_sub_cancel' hi⟩
  induction k generalizing s i with
  | zero =>
    obtain rfl : i = MAX_PROCESS_NUM := by omega
    rwa [goTo, ← hp.2, Function.update_eq_self]
  | succ k ih =>
    let j : Slot := ⟨i, by omega⟩
    have hstep : Reached (s.goTo p (.scanning (i + 1) has_child)) :=
      .step h ⟨_, @Step.scanNext _ p j has_child hp (hne j le_rfl)⟩
    have hat : (s.goTo p (.scanning (i + 1) has_child)).At p (.scanning (i + 1) has_child) :=
      ⟨hp.1, by simp [goTo]⟩
    have hrest := ih hstep hat (by omega) (fun j' hj' => hne j' (by omega)) (by omega)
    simpa [goTo] using hrest

/-- A child exits after its parent has looked at it and before the parent sleeps. -/
theorem lost_wakeup :
    ∃ s : Scheduler, Reached s ∧ ∃ q z, s.Waiting q ∧ (s.task z).state = .zombie ∧
      (s.task z).parent_process = some q := by
  have h₀ : Reached forked := forked_run fun s t a hst _ => ⟨a, hst⟩
  have h₁ := Reachable.step h₀ ⟨_, @Step.wait _ 0 ⟨rfl, rfl⟩⟩
  have h₂ := Reachable.step h₁ ⟨_, @Step.scanNext _ 0 0 false ⟨rfl, rfl⟩ (by decide)⟩
  have h₃ := Reachable.step h₂ ⟨_, @Step.scanChild _ 0 1 false ⟨rfl, rfl⟩ rfl⟩
  have h₄ := Reachable.step h₃ ⟨_, @Step.checkAlive _ 0 1 ⟨rfl, rfl⟩ (by decide)⟩
  have h₅ := Reachable.step h₄ ⟨_, @Step.yield _ 0 rfl trivial⟩
  have h₆ := Reachable.step h₅ ⟨_, @Step.dispatch _ 1 rfl rfl⟩
  have h₇ := Reachable.step h₆ ⟨_, @Step.exit _ 1 5 (.other 0) ⟨rfl, rfl⟩⟩
  have h₈ := Reachable.step h₇ ⟨_, @Step.dispatch _ 0 rfl rfl⟩
  have h₉ := @scan_rest _ 0 2 true h₈ ⟨rfl, rfl⟩ (by decide) (by decide)
  have h₁₀ := Reachable.step h₉ ⟨_, @Step.scanDone _ 0 ⟨rfl, rfl⟩⟩
  have h₁₁ := Reachable.step h₁₀ ⟨_, @Step.doze _ 0 ⟨rfl, rfl⟩⟩
  exact ⟨_, h₁₁, 0, 1, ⟨rfl, rfl, rfl⟩, rfl, rfl⟩

end Scheduler

end OrangeOs.Kernel
