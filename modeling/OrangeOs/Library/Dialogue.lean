import OrangeOs.Library.Exchange

/-! # Dialogues

The other party may answer the reads of a program with anything. What it sees is a dialogue, and a
protocol says which dialogues are allowed: it takes each access to the next state, or refuses it. A program
obeys a protocol if none of its accesses is refused, whatever the answers are; the rules for that follow
the program from one bind to the next.
-/

namespace OrangeOs

/-- A read with its answer, or a write. -/
inductive Access (σ : Type) where
  | read (b : ℕ) (s : σ)
  | write (b : ℕ) (s : σ)

/-- The accesses of a program whose reads are answered in some way, and what it returns then. -/
inductive Dialogue {σ ε α : Type} : Prog σ ε α → List (Access σ) → Except Fault α → Prop where
  | ret (a : α) : Dialogue (.ret a) [] (.ok a)
  | fail (f : Fault) : Dialogue (.fail f) [] (.error f)
  | note {e : ε} {p : Prog σ ε α} {as : List (Access σ)} {r : Except Fault α} (h : Dialogue p as r) :
      Dialogue (.note e p) as r
  | read {b : ℕ} {p : σ → Prog σ ε α} {as : List (Access σ)} {r : Except Fault α} (s : σ)
      (h : Dialogue (p s) as r) : Dialogue (.read b p) (.read b s :: as) r
  | write {b : ℕ} {s : σ} {p : Prog σ ε α} {as : List (Access σ)} {r : Except Fault α}
      (h : Dialogue p as r) : Dialogue (.write b s p) (.write b s :: as) r

variable {σ ε α β ψ : Type} {next : ψ → Access σ → Option ψ} {s t : ψ}

/-- Every program has a dialogue with every party whose answers do not change. -/
theorem Dialogue.exists_of_answer (answer : ℕ → σ) (p : Prog σ ε α) :
    ∃ as r, Dialogue p as r ∧ ∀ b s, .read b s ∈ as → s = answer b := by
  induction p with
  | ret a => exact ⟨[], _, .ret a, fun b s h => absurd h List.not_mem_nil⟩
  | fail f => exact ⟨[], _, .fail f, fun b s h => absurd h List.not_mem_nil⟩
  | note e p ih =>
    obtain ⟨as, r, hd, has⟩ := ih
    exact ⟨as, r, .note hd, has⟩
  | read b p ih =>
    obtain ⟨as, r, hd, has⟩ := ih (answer b)
    refine ⟨_, r, .read (answer b) hd, fun b' s h => ?_⟩
    rcases List.mem_cons.mp h with h | h
    · cases h
      rfl
    · exact has b' s h
  | write b s p ih =>
    obtain ⟨as, r, hd, has⟩ := ih
    refine ⟨_, r, .write hd, fun b' s' h => ?_⟩
    rcases List.mem_cons.mp h with h | h
    · cases h
    · exact has b' s' h

namespace Prog

/-- From state `s` on every access is allowed, and at the end the state and the result have `Q`. -/
def Obeys (next : ψ → Access σ → Option ψ) (Q : ψ → α → Prop) : ψ → Prog σ ε α → Prop
  | s, ret a => Q s a
  | _, fail _ => False
  | s, note _ p => p.Obeys next Q s
  | s, read b p => ∀ v, ∃ t, next s (.read b v) = some t ∧ (p v).Obeys next Q t
  | s, write b v p => ∃ t, next s (.write b v) = some t ∧ p.Obeys next Q t

namespace Obeys

variable {P Q : ψ → α → Prop} {R : ψ → β → Prop} {p q : Prog σ ε α} {f : α → Prog σ ε β} {a : α} {b : ℕ}
  {v : σ}

theorem pure (h : Q s a) : (Pure.pure a : Prog σ ε α).Obeys next Q s := h

theorem bind (hp : p.Obeys next P s) (hf : ∀ t a, P t a → (f a).Obeys next R t) :
    (p >>= f).Obeys next R s := by
  change (p.bind f).Obeys next R s
  induction p generalizing s with
  | ret a => exact hf s a hp
  | fail e => exact absurd hp id
  | note e p ih => exact ih hp
  | read b p ih =>
    intro v
    obtain ⟨t, ht, hrest⟩ := hp v
    exact ⟨t, ht, ih v hrest⟩
  | write b v p ih =>
    obtain ⟨t, ht, hrest⟩ := hp
    exact ⟨t, ht, ih hrest⟩

theorem ite {c : Prop} [Decidable c] (hp : c → p.Obeys next Q s) (hq : ¬ c → q.Obeys next Q s) :
    (if c then p else q).Obeys next Q s := by
  split
  case isTrue h => exact hp h
  case isFalse h => exact hq h

theorem mono (hp : p.Obeys next P s) (h : ∀ t a, P t a → Q t a) : p.Obeys next Q s := by
  induction p generalizing s with
  | ret a => exact h s a hp
  | fail e => exact absurd hp id
  | note e p ih => exact ih hp
  | read b p ih =>
    intro v
    obtain ⟨t, ht, hrest⟩ := hp v
    exact ⟨t, ht, ih v hrest⟩
  | write b v p ih =>
    obtain ⟨t, ht, hrest⟩ := hp
    exact ⟨t, ht, ih hrest⟩

/-- A read, and what follows it. -/
theorem andThen_read {f : σ → Prog σ ε α}
    (h : ∀ v, ∃ t, next s (.read b v) = some t ∧ (f v).Obeys next Q t) :
    (readSector b >>= f).Obeys next Q s := h

/-- A write, and what follows it. -/
theorem andThen_write {f : Unit → Prog σ ε α} (hn : next s (.write b v) = some t)
    (h : (f ()).Obeys next Q t) : (writeSector b v >>= f).Obeys next Q s := ⟨t, hn, h⟩

/-- The dialogue is allowed, and the program does not fault. -/
theorem dialogue {as : List (Access σ)} {r : Except Fault α} (h : p.Obeys next Q s)
    (hd : Dialogue p as r) : ∃ t a, as.foldlM next s = some t ∧ r = .ok a ∧ Q t a := by
  induction hd generalizing s with
  | ret a => exact ⟨s, a, rfl, rfl, h⟩
  | fail f => exact absurd h id
  | note _ ih => exact ih h
  | read v _ ih =>
    obtain ⟨t, ht, hrest⟩ := h v
    obtain ⟨u, a, hu, hr⟩ := ih hrest
    exact ⟨u, a, by rw [List.foldlM_cons, ht]; exact hu, hr⟩
  | write _ ih =>
    obtain ⟨t, ht, hrest⟩ := h
    obtain ⟨u, a, hu, hr⟩ := ih hrest
    exact ⟨u, a, by rw [List.foldlM_cons, ht]; exact hu, hr⟩

end Obeys

end Prog

end OrangeOs
