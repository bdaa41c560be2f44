import OrangeOs.Driver.Requests

/-! # The GPU

The requests of `GPUDevice` on its control queue and its cursor queue. The descriptors are counted
for each queue, but the completion flags are kept by descriptor number for both queues together, so
that a completion on one queue can end a request on the other.
-/

namespace OrangeOs.Driver.GPUDevice

open Device

variable {s t : Device} {a : Act} {p : ℕ}

/-- The requests that `GPUDevice` sends, by queue: a command with its answer, the indirect table of
`ResourceAttachBacking`, and a command for the cursor. -/
inductive Request : ℕ → List Buffer → Prop
  | command {addr size resp len : ℕ} : Request 0 [⟨addr, size, true⟩, ⟨resp, len, false⟩]
  | indirect {addr size : ℕ} : Request 0 [⟨addr, size, true⟩]
  | cursor {addr size : ℕ} : Request 1 [⟨addr, size, true⟩]

/-- A step of the GPU with its two queues. -/
structure Next (s : Device) (a : Act) (t : Device) : Prop where
  step : Step 2 s a t
  request : ∀ p i reqs, a = .construct p i reqs → Request i reqs
  indirect : ∀ p k, a = .setIndirectFlag p k → k = 0

abbrev Reached (s : Device) : Prop := Reachable (· = Device.init) (fun s t => ∃ a, Next s a t) s

/-- The condition on steps: a request finds enough descriptors, and the handler consumes an element only
as long as the device has used fewer than `2 ^ 16` chains of the queue and no chain of the other
queue that is under way starts with the same number. -/
structure Orderly (s : Device) (a : Act) : Prop where
  descs : ∀ p i reqs, a = .construct p i reqs → reqs.length ≤ (s.queue i).free
  clear : Clear 2 s a

abbrev ReachedOrderly (s : Device) : Prop :=
  Reachable (· = Device.init) (fun s t => ∃ a, Next s a t ∧ Orderly s a) s

/-- No request goes without descriptors. -/
theorem failed_step (hst : Step 2 s a t) (ho : Orderly s a) (hf : ∀ p, s.place p ≠ .failed) (p : ℕ) :
    t.place p ≠ .failed := by
  have hgo : ∀ (u : Device) p' l, u.place = s.place → l ≠ .failed →
      (u.goTo p' l).place p ≠ .failed := by
    intro u p' l hu hl
    by_cases hp : p = p'
    · subst hp
      rwa [goTo_place_self]
    · rw [goTo_place_ne _ hp, hu]
      exact hf p
  cases hst with
  | @constructFail p' i reqs descs q hcrit hplace hi hreqs hq =>
    obtain ⟨r, hr, hres⟩ := Queue.allocMultiDesc_spec (s.queue i) reqs.length
    obtain rfl := Option.some.inj (hr.symm.trans hq)
    simpa using hres.done_of_free (ho.descs p' i reqs rfl)
  | construct => exact hgo _ _ _ rfl (by simp)
  | request => exact hgo _ _ _ rfl (by simp)
  | requestLast => exact hgo _ _ _ rfl (by simp)
  | trigger => exact hgo _ _ _ rfl (by simp)
  | publish => exact hgo _ _ _ rfl (by simp)
  | raise => exact hgo _ _ _ rfl (by simp)
  | «return» => exact hgo _ _ _ rfl (by simp)
  | returnPanic => exact hgo _ _ _ rfl (by simp)
  | returnFailed => exact hgo _ _ _ rfl (by simp)
  | _ => exact hf p

theorem ReachedOrderly.invariant (h : ReachedOrderly s) :
    Device.Sound 2 s ∧ ∀ p, s.place p ≠ .failed := by
  refine @Reachable.invariant _ _ _ _
    (fun s => Device.Sound 2 s ∧ ∀ p, s.place p ≠ .failed) h ?_ ?_
  · rintro _ rfl
    exact ⟨sound_init, fun p => by simp [Device.init]⟩
  · rintro s t ⟨hs, hf⟩ ⟨a, hst, ho⟩
    exact ⟨hs.step hst.step ho.clear, failed_step hst.step ho hf⟩

/-- The request that a process waits for is on the used ring of its queue. -/
def Answered (s : Device) (p : ℕ) : Prop :=
  ∃ tr m, s.place p = .waiting tr m ∧ ⟨m, tr.head⟩ ∈ (s.queue tr.queue_index).used

/-- When all steps meet the condition, `wait_complete` returns only to a process whose own chain the
device has put on the used ring of its queue. -/
theorem requests_complete (h : ReachedOrderly s) (hst : Step 2 s (.return p) t) : Answered s p := by
  obtain ⟨hs, hf⟩ := h.invariant
  cases hst with
  | «return» _ hplace hflag => exact ⟨_, _, hplace, (hs.answered hplace hflag).1⟩
  | returnPanic _ hplace hflag => exact ⟨_, _, hplace, (hs.answered hplace hflag).1⟩
  | returnFailed _ hplace => exact absurd hplace (hf p)

/-- A process has sent a command on the control queue and the device has answered it. -/
theorem requests_complete_command : ∃ s t : Device, Step 2 s (.return 0) t ∧ Answered s 0 := by
  have halloc : Queue.zero.allocMultiDesc 2 = some (true, [0, 1], (Queue.zero.mark 0).mark 1) := rfl
  have h₁ : ReachedOrderly ((Device.init.setQueue 0 ((Queue.zero.mark 0).mark 1)).goTo 0
      (.requesting ⟨0, [0, 1]⟩ 0 [⟨100, 24, true⟩, ⟨200, 408, false⟩])) :=
    .step (.start rfl) ⟨_, ⟨@Step.construct 2 _ 0 0 _ _ _ rfl rfl (by decide) (by simp) halloc,
      fun _ _ _ he => by obtain ⟨-, rfl, rfl⟩ := Act.construct.inj he; exact .command, by simp⟩,
      fun _ _ _ he => by obtain ⟨-, rfl, rfl⟩ := Act.construct.inj he; decide, by simp [Clear]⟩
  have h₂ := Reachable.step h₁ ⟨_, ⟨@Step.request 2 _ 0 0 ⟨0, [0, 1]⟩ _ _ _ rfl rfl, by simp,
    by simp⟩, by simp, by simp [Clear]⟩
  have h₃ := Reachable.step h₂ ⟨_, ⟨@Step.requestLast 2 _ 0 1 ⟨0, [0, 1]⟩ _ rfl rfl, by simp,
    by simp⟩, by simp, by simp [Clear]⟩
  have h₄ := Reachable.step h₃ ⟨_, ⟨@Step.trigger 2 _ 0 ⟨0, [0, 1]⟩ rfl rfl, by simp,
    by simp⟩, by simp, by simp [Clear]⟩
  have h₅ := Reachable.step h₄ ⟨_, ⟨@Step.publish 2 _ 0 ⟨0, [0, 1]⟩ rfl rfl, by simp,
    by simp⟩, by simp, by simp [Clear]⟩
  have h₆ := Reachable.step h₅ ⟨_, ⟨@Step.raise 2 _ 0 0 ⟨0, [0, 1]⟩ rfl rfl, by simp,
    by simp⟩, by simp, by simp [Clear]⟩
  have h₇ := Reachable.step h₆ ⟨_, ⟨@Step.serve 2 _ 0 _ (by decide) (.fetch (by decide)), by simp,
    by simp⟩, by simp, by simp [Clear]⟩
  have h₈ := Reachable.step h₇ ⟨_, ⟨@Step.serve 2 _ 0 _ (by decide)
    (@Rings.Serves.complete _ ⟨0, 0⟩ 408 (by decide)), by simp, by simp⟩, by simp, by simp [Clear]⟩
  have h₉ := Reachable.step h₈ ⟨_, ⟨@Step.interrupt 2 _ rfl, by simp, by simp⟩, by simp,
    by simp [Clear]⟩
  have h₁₀ := Reachable.step h₉ ⟨_, ⟨@Step.consume 2 _ 0 rfl (by decide) (by decide), by simp,
    by simp⟩, by simp, fun i _ _ hi => by
      obtain rfl : 0 = i := Holder.handler.inj (Option.some.inj hi)
      exact ⟨by decide, by decide⟩⟩
  have h₁₁ := Reachable.step h₁₀ ⟨_, ⟨@Step.next 2 _ 0 rfl (by decide) rfl, by simp, by simp⟩,
    by simp, by simp [Clear]⟩
  have h₁₂ := Reachable.step h₁₁ ⟨_, ⟨@Step.next 2 _ 1 rfl (by decide) rfl, by simp, by simp⟩,
    by simp, by simp [Clear]⟩
  have h₁₃ := Reachable.step h₁₂ ⟨_, ⟨@Step.leave 2 _ rfl, by simp, by simp⟩, by simp,
    by simp [Clear]⟩
  obtain ⟨s, hs, hcrit, hplace, hflag⟩ : ∃ s, ReachedOrderly s ∧ s.critical = none ∧
      s.place 0 = .waiting ⟨0, [0, 1]⟩ 0 ∧ s.waiting_flag 0 = false := ⟨_, h₁₃, rfl, rfl, rfl⟩
  obtain ⟨q, hq⟩ := (ReachedOrderly.invariant hs).1.freeDescs (show _ = some _ by rw [hplace]; rfl)
  have hst := @Step.«return» 2 s 0 0 _ q hcrit hplace hflag hq
  exact ⟨_, _, hst, requests_complete hs hst⟩

/-- A process waits for a command on the control queue, another one moves the cursor. Both chains
start with descriptor 0, and the answer on the cursor queue ends the command. -/
theorem requests_cross : ∃ s t : Device, Reached s ∧ Step 2 s (.return 0) t ∧
    s.place 0 = .waiting ⟨0, [0, 1]⟩ 0 ∧ (s.queue 0).used = [] := by
  have halloc : Queue.zero.allocMultiDesc 2 = some (true, [0, 1], (Queue.zero.mark 0).mark 1) := rfl
  have halloc' : Queue.zero.allocMultiDesc 1 = some (true, [0], Queue.zero.mark 0) := rfl
  have h₁ : Reached ((Device.init.setQueue 0 ((Queue.zero.mark 0).mark 1)).goTo 0
      (.requesting ⟨0, [0, 1]⟩ 0 [⟨100, 24, true⟩, ⟨200, 408, false⟩])) :=
    .step (.start rfl) ⟨_, @Step.construct 2 _ 0 0 _ _ _ rfl rfl (by decide) (by simp) halloc,
      fun _ _ _ he => by obtain ⟨-, rfl, rfl⟩ := Act.construct.inj he; exact .command, by simp⟩
  have h₂ := Reachable.step h₁
    ⟨_, @Step.request 2 _ 0 0 ⟨0, [0, 1]⟩ _ _ _ rfl rfl, by simp, by simp⟩
  have h₃ := Reachable.step h₂
    ⟨_, @Step.requestLast 2 _ 0 1 ⟨0, [0, 1]⟩ _ rfl rfl, by simp, by simp⟩
  have h₄ := Reachable.step h₃ ⟨_, @Step.trigger 2 _ 0 ⟨0, [0, 1]⟩ rfl rfl, by simp, by simp⟩
  have h₅ := Reachable.step h₄ ⟨_, @Step.publish 2 _ 0 ⟨0, [0, 1]⟩ rfl rfl, by simp, by simp⟩
  have h₆ := Reachable.step h₅ ⟨_, @Step.raise 2 _ 0 0 ⟨0, [0, 1]⟩ rfl rfl, by simp, by simp⟩
  have h₇ := Reachable.step h₆
    ⟨_, @Step.construct 2 _ 1 1 [⟨300, 56, true⟩] _ _ rfl rfl (by decide) (by simp) halloc',
      fun _ _ _ he => by obtain ⟨-, rfl, rfl⟩ := Act.construct.inj he; exact .cursor, by simp⟩
  have h₈ := Reachable.step h₇
    ⟨_, @Step.requestLast 2 _ 1 0 ⟨1, [0]⟩ _ rfl rfl, by simp, by simp⟩
  have h₉ := Reachable.step h₈ ⟨_, @Step.trigger 2 _ 1 ⟨1, [0]⟩ rfl rfl, by simp, by simp⟩
  have h₁₀ := Reachable.step h₉ ⟨_, @Step.publish 2 _ 1 ⟨1, [0]⟩ rfl rfl, by simp, by simp⟩
  have h₁₁ := Reachable.step h₁₀ ⟨_, @Step.raise 2 _ 1 0 ⟨1, [0]⟩ rfl rfl, by simp, by simp⟩
  have h₁₂ := Reachable.step h₁₁
    ⟨_, @Step.serve 2 _ 1 _ (by decide) (.fetch (by decide)), by simp, by simp⟩
  have h₁₃ := Reachable.step h₁₂
    ⟨_, @Step.serve 2 _ 1 _ (by decide) (@Rings.Serves.complete _ ⟨0, 0⟩ 0 (by decide)), by simp,
      by simp⟩
  have h₁₄ := Reachable.step h₁₃ ⟨_, @Step.interrupt 2 _ rfl, by simp, by simp⟩
  have h₁₅ := Reachable.step h₁₄ ⟨_, @Step.next 2 _ 0 rfl (by decide) rfl, by simp, by simp⟩
  have h₁₆ := Reachable.step h₁₅
    ⟨_, @Step.consume 2 _ 1 rfl (by decide) (by decide), by simp, by simp⟩
  have h₁₇ := Reachable.step h₁₆ ⟨_, @Step.next 2 _ 1 rfl (by decide) rfl, by simp, by simp⟩
  have h₁₈ := Reachable.step h₁₇ ⟨_, @Step.leave 2 _ rfl, by simp, by simp⟩
  obtain ⟨s, hs, hcrit, hplace, hflag, hdescs, hused⟩ : ∃ s, Reached s ∧ s.critical = none ∧
      s.place 0 = .waiting ⟨0, [0, 1]⟩ 0 ∧ s.waiting_flag 0 = false ∧
      (∀ d ∈ [0, 1], d < queue_buffer_size ∧ (s.queue 0).taken d) ∧ (s.queue 0).used = [] :=
    ⟨_, h₁₈, rfl, rfl, rfl, by decide, rfl⟩
  obtain ⟨q, hq⟩ := Queue.freeDescs_total (by decide) hdescs
  exact ⟨s, _, hs, .return hcrit hplace hflag hq, hplace, hused⟩

end OrangeOs.Driver.GPUDevice
