import OrangeOs.Kernel.Wait

/-! # The parent that `Exit` wakes

`Exit` reads the parent of the process that ends. The parent is the last thing that `sys_fork` sets, one
assignment after the child may run, so a child that is picked in between has none. That is the
only way to reach `Exit` without a parent.
-/

namespace OrangeOs.Kernel

namespace Scheduler

variable {s t : Scheduler} {a : Act} {p q r : Slot}

/-- A process leaves user code only while it is in use, and a task that may run without a
parent is the init process or the child of a `sys_fork` that has one assignment left. -/
structure Parented (s : Scheduler) : Prop where
  init : s.init_process = some 0
  busy : ∀ p, s.place p ≠ .outside → s.Alive p
  parent : ∀ p, (s.task p).state ≠ .unused → (s.task p).state ≠ .used → p ≠ 0 →
    (s.task p).parent_process = none → ∃ q, s.place q = .linking p

/-- A process stays where it is, or it is the one on the CPU and has set the parent of its child if
that was left to do, or it is new. -/
theorem place_cases (h : Step s a t) (q : Slot) :
    t.place q = s.place q ∨
    (s.process_task = some q ∧
      ∀ dst, s.place q = .linking dst → (t.task dst).parent_process ≠ none) ∨
    (t.place q = .outside ∧ (s.task q).state = .unused) := by
  have hgo : ∀ p l m, s.At p l → t.place = Function.update s.place p m →
      (∀ dst, l = .linking dst → (t.task dst).parent_process ≠ none) →
      t.place q = s.place q ∨
      (s.process_task = some q ∧
        ∀ dst, s.place q = .linking dst → (t.task dst).parent_process ≠ none) ∨
      (t.place q = .outside ∧ (s.task q).state = .unused) := by
    intro p l m hp hu hl
    by_cases hq : q = p
    · subst hq
      exact .inr (.inl ⟨hp.1, fun dst hd => hl dst (hp.2.symm.trans hd)⟩)
    · exact .inl (by simp [hu, hq])
  cases h with
  | exit => exact .inl rfl
  | dispatch => exact .inl rfl
  | yield => exact .inl rfl
  | wakeup => exact .inl rfl
  | @wake p lk caller hp =>
    by_cases he : (s.wake p lk caller).place = s.place
    · exact .inl (congrFun he q)
    · refine hgo p _ caller.place hp ?_ (by simp)
      revert he
      unfold wake
      split
      · exact fun _ => rfl
      · split
        · exact fun he => absurd rfl he
        · exact fun _ => rfl
  | @alloc p dst hp hd =>
    by_cases hq : q = p
    · subst hq
      exact .inr (.inl ⟨hp.1, fun d hl => by simp [hp.2] at hl⟩)
    · by_cases hqd : q = dst
      · subst hqd
        exact .inr (.inr ⟨by simp [allocProc, goTo, hq], hd⟩)
      · exact .inl (by simp [allocProc, goTo, setTask, hq, hqd])
  | @link p dst hp =>
    refine hgo p _ _ hp rfl fun d hd => ?_
    obtain rfl : dst = d := by simpa using hd
    simp [link, goTo, setTask]
  | @sleepOutside _ _ _ hp => exact hgo _ _ _ hp rfl (by simp)
  | @sleepGuarded _ _ _ hp => exact hgo _ _ _ hp rfl (by simp)
  | doze hp => exact hgo _ _ _ hp rfl (by simp)
  | _ => exact hgo _ _ _ (by assumption) rfl (by simp)

namespace Parented

theorem busy_step (hp : Parented s) (hs : Sound s) (h : Step s a t) (q : Slot)
    (hq : t.place q ≠ .outside) : t.Alive q := by
  have hlive : s.Alive q := by
    rcases place_cases h q with he | ⟨hcpu, -⟩ | ⟨he, -⟩
    · exact hp.busy q (he ▸ hq)
    · have hrun := (hs.running q).mpr hcpu
      exact ⟨by simp [hrun], by simp [hrun]⟩
    · exact absurd he hq
  refine hs.alive_step h hlive fun code low ha hcpu => hq ?_
  subst ha
  cases h with
  | exit hr =>
    obtain rfl := Option.some.inj (hr.1.symm.trans hcpu)
    exact hr.2

theorem parent_step (hp : Parented s) (hs : Sound s) (h : Step s a t) (q : Slot)
    (hq : (t.task q).state ≠ .unused) (hq' : (t.task q).state ≠ .used) (hne : q ≠ 0)
    (hnone : (t.task q).parent_process = none) : ∃ r, t.place r = .linking q := by
  -- the parent was none before the step as well
  have hold : (s.task q).parent_process = none := by
    rcases Sound.parent_cases h q with he | ⟨_, -, -, he⟩ | ⟨_, -, -, -, he⟩ | ⟨r, ha, hr, -⟩
    · exact he ▸ hnone
    · simp [he] at hnone
    · simp [he, hp.init] at hnone
    · subst ha
      cases h with
      | @reap r' child hr' =>
        obtain rfl := Option.some.inj (hr'.1.symm.trans hr.1)
        obtain rfl : child = q := by simpa [hr'.2] using hr.2
        exact absurd (by simp [reap, goTo, setTask]) hq
  have hkeep : (s.task q).state ≠ .unused → (s.task q).state ≠ .used →
      ∃ r, t.place r = .linking q := by
    intro h₁ h₂
    obtain ⟨r, hr⟩ := hp.parent q h₁ h₂ hne hold
    rcases place_cases h r with he | ⟨-, he⟩ | ⟨-, he⟩
    · exact ⟨r, he.trans hr⟩
    · exact absurd hnone (he q hr)
    · exact absurd he (hp.busy r (by simp [hr])).1
  rcases hs.transition h q with he | ht
  · exact hkeep (he ▸ hq) (he ▸ hq')
  · generalize hx : (s.task q).state = x at ht hkeep
    generalize hy : (t.task q).state = y at ht hq hq'
    cases ht with
    | alloc => exact absurd rfl hq'
    | reap => exact absurd rfl hq
    | @release r ha hr =>
      subst ha
      cases h with
      | copyFail => exact absurd (hx.symm.trans hy) (by simp)
      | @copy r' dst hr' =>
        obtain rfl := Option.some.inj (hr'.1.symm.trans hr.1)
        obtain rfl : dst = q := by simpa [hr'.2] using hr.2
        exact ⟨r', by simp [goTo]⟩
    | _ => exact hkeep (by simp) (by simp)

theorem step (hp : Parented s) (hs : Sound s) (h : Step s a t) : Parented t where
  init := (init_process_eq h).trans hp.init
  busy := hp.busy_step hs h
  parent := hp.parent_step hs h

end Parented

theorem parented_boot : Parented boot where
  init := rfl
  busy _ hp := absurd rfl hp
  parent _ hp _ hne := absurd (boot_state hp) hne

theorem Reached.parented (h : Reached s) : Sound s ∧ Parented s := by
  refine @Reachable.invariant _ _ _ _ (fun s => Sound s ∧ Parented s) h ?_ ?_
  · rintro _ rfl
    exact ⟨sound_boot, parented_boot⟩
  · rintro s t ⟨hs, hp⟩ ⟨a, hst⟩
    exact ⟨hs.step hst, hp.step hs hst⟩

/-- When a process other than the init process calls `Exit`, the parent that `Exit` reads there is
not null if and only if no `sys_fork` has still to set it. -/
theorem exit_has_parent (h : Reached s) (hat : s.At p .outside) (hne : s.init_process ≠ some p)
    (code : Int32) :
    ((s.leaving p code).task p).parent_process ≠ none ↔ ∀ q, s.place q ≠ .linking p := by
  obtain ⟨hs, hp⟩ := h.parented
  have hread : ((s.leaving p code).task p).parent_process = none ↔
      (s.task p).parent_process = none := by
    rw [leaving_parent_process]
    split
    · next he => simp [he, hp.init]
    · rfl
  rw [not_iff_comm, hread]
  constructor
  · intro hex
    push Not at hex
    obtain ⟨q, hq⟩ := hex
    have hfit := hs.fits q
    rw [hq] at hfit
    exact hfit.2.2
  · intro hnone hall
    have hrun := (hs.running p).mpr hat.1
    have hp0 : p ≠ 0 := by
      rintro rfl
      exact hne hp.init
    obtain ⟨q, hq⟩ := hp.parent p (by simp [hrun]) (by simp [hrun]) hp0 hnone
    exact hall q hq

/-- The init process has forked a child and waits for nothing; the child is about to exit. -/
theorem exit_has_parent_child :
    ((((forked.yield 0).dispatch 1).leaving 1 5).task 1).parent_process ≠ none ↔
      ∀ q, ((forked.yield 0).dispatch 1).place q ≠ .linking 1 := by
  have h₀ : Reached forked := forked_run fun s t a hst _ => ⟨a, hst⟩
  have h₁ := Reachable.step h₀ ⟨_, @Step.yield _ 0 rfl trivial⟩
  have h₂ := Reachable.step h₁ ⟨_, @Step.dispatch _ 1 rfl rfl⟩
  exact exit_has_parent h₂ ⟨rfl, rfl⟩ (by decide) 5

/-- The timer stops `sys_fork` before its last assignment, and the child exits. -/
theorem exit_without_parent :
    ∃ s t : Scheduler, Reached s ∧ Step s (.exit 5 (.other 0)) t ∧ s.process_task = some 1 ∧
      s.init_process = some 0 ∧ ((s.leaving 1 5).task 1).parent_process = none := by
  have h₁ : Reached (boot.dispatch 0) := .step (.start rfl) ⟨_, .dispatch rfl rfl⟩
  have h₂ := Reachable.step h₁ ⟨_, @Step.fork _ 0 ⟨rfl, rfl⟩⟩
  have h₃ := Reachable.step h₂ ⟨_, @Step.allocNext _ 0 0 ⟨rfl, rfl⟩ (by decide)⟩
  have h₄ := Reachable.step h₃ ⟨_, @Step.alloc _ 0 1 ⟨rfl, rfl⟩ (by decide)⟩
  have h₅ := Reachable.step h₄ ⟨_, @Step.copy _ 0 1 ⟨rfl, rfl⟩⟩
  have h₆ := Reachable.step h₅ ⟨_, @Step.yield _ 0 rfl trivial⟩
  have h₇ := Reachable.step h₆ ⟨_, @Step.dispatch _ 1 rfl rfl⟩
  exact ⟨_, _, h₇, @Step.exit _ 1 5 (.other 0) ⟨rfl, rfl⟩, rfl, rfl, rfl⟩

end Scheduler

end OrangeOs.Kernel
