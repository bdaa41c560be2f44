import Mathlib.Tactic.Common

/-! # Reachable states

The states that a system reaches from its initial states, and the rule for invariants.
-/

namespace OrangeOs

variable {σ : Type*} {init : σ → Prop} {next : σ → σ → Prop} {s t : σ}

/-- The states that steps of `next` reach from the states of `init`. -/
inductive Reachable (init : σ → Prop) (next : σ → σ → Prop) : σ → Prop where
  | start {s : σ} (h : init s) : Reachable init next s
  | step {s t : σ} (h : Reachable init next s) (ht : next s t) : Reachable init next t

/-- What holds at the start and is kept by every step holds in every state reached. -/
theorem Reachable.invariant {Inv : σ → Prop} (h : Reachable init next s)
    (hinit : ∀ s, init s → Inv s) (hstep : ∀ s t, Inv s → next s t → Inv t) : Inv s := by
  induction h with
  | start h => exact hinit _ h
  | step _ ht ih => exact hstep _ _ ih ht

/-- A step before the others. -/
theorem Reachable.cons {u : σ} (h : Reachable (· = t) next u) (ht : next s t) :
    Reachable (· = s) next u := by
  induction h with
  | start h => exact h ▸ .step (.start rfl) ht
  | step _ hu ih => exact .step ih hu

/-- A run after another one. -/
theorem Reachable.trans (h : Reachable init next s) (ht : Reachable (· = s) next t) :
    Reachable init next t := by
  induction ht with
  | start ht => exact ht ▸ h
  | step _ hu ih => exact .step ih hu

/-! ## Traces -/

variable {τ ι : Type*} {act : σ → ι → σ → Prop} {init' : τ → Prop} {act' : τ → ι → τ → Prop}
  {as : List ι}

/-- The states that steps with the labels `as` reach. -/
inductive Trace (init : σ → Prop) (act : σ → ι → σ → Prop) : List ι → σ → Prop where
  | start {s : σ} (h : init s) : Trace init act [] s
  | step {as : List ι} {a : ι} {s t : σ} (h : Trace init act as s) (ht : act s a t) :
      Trace init act (as ++ [a]) t

theorem Trace.single {a : ι} (h : act s a t) : Trace (· = s) act [a] t := by
  have hstart : Trace (· = s) act [] s := .start rfl
  exact hstart.step h

/-- A system that follows another one step by step follows it on every trace. -/
theorem Trace.simulates {R : σ → τ → Prop} (h : Trace init act as s)
    (hinit : ∀ s, init s → ∃ u, init' u ∧ R s u)
    (hstep : ∀ s a t u, act s a t → R s u → ∃ v, act' u a v ∧ R t v) :
    ∃ u, Trace init' act' as u ∧ R s u := by
  induction h with
  | start h =>
    obtain ⟨u, hu, hr⟩ := hinit _ h
    exact ⟨u, .start hu, hr⟩
  | step _ ht ih =>
    obtain ⟨u, hu, hr⟩ := ih
    obtain ⟨v, hv, hr'⟩ := hstep _ _ _ u ht hr
    exact ⟨v, .step hu hv, hr'⟩

end OrangeOs
