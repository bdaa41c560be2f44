import Mathlib.Logic.Function.Basic
import Mathlib.Data.Nat.Notation
import Mathlib.Tactic.Common

/-! # Programs that exchange sectors with a store

A program is a tree of requests: read a sector and go on with its contents,
write a sector, report an event, stop with a result or with a fault. One tree has
two meanings. `Prog.run` serves all requests of one program in a row; the pool of
`Library.Pool` serves one request of one process at a time.
-/

namespace OrangeOs

/-- The ways a program stops without a result. -/
inductive Fault where
  | panic
  | outOfBounds
  deriving DecidableEq, Repr

/-- Request trees over sectors `σ`, events `ε` and results `α`. -/
inductive Prog (σ ε α : Type) where
  | ret (a : α)
  | fail (f : Fault)
  | note (e : ε) (next : Prog σ ε α)
  | read (b : ℕ) (next : σ → Prog σ ε α)
  | write (b : ℕ) (s : σ) (next : Prog σ ε α)

namespace Prog

variable {σ ε α β : Type}

protected def bind : Prog σ ε α → (α → Prog σ ε β) → Prog σ ε β
  | ret a, f => f a
  | fail e, _ => fail e
  | note e p, f => note e (p.bind f)
  | read b p, f => read b fun s => (p s).bind f
  | write b s p, f => write b s (p.bind f)

instance : Monad (Prog σ ε) where
  pure := ret
  bind := Prog.bind

/-- Read one sector. -/
def readSector (b : ℕ) : Prog σ ε σ := read b ret

/-- Write one sector. -/
def writeSector (b : ℕ) (s : σ) : Prog σ ε Unit := write b s (ret ())

/-- Report one event. -/
def emit (e : ε) : Prog σ ε Unit := note e (ret ())

/-- Serve all requests of a program in a row. -/
def run : Prog σ ε α → (ℕ → σ) → Except Fault α × (ℕ → σ)
  | ret a, d => (.ok a, d)
  | fail f, d => (.error f, d)
  | note _ p, d => p.run d
  | read b p, d => (p (d b)).run d
  | write b s p, d => p.run (Function.update d b s)

variable {d d' : ℕ → σ} {a : α} {p : Prog σ ε α} {f : α → Prog σ ε β}

@[simp] theorem run_pure (a : α) (d : ℕ → σ) : (pure a : Prog σ ε α).run d = (.ok a, d) := rfl

@[simp] theorem run_fail (e : Fault) (d : ℕ → σ) :
    (fail e : Prog σ ε α).run d = (.error e, d) := rfl

@[simp] theorem run_readSector (b : ℕ) (d : ℕ → σ) :
    (readSector b : Prog σ ε σ).run d = (.ok (d b), d) := rfl

@[simp] theorem run_writeSector (b : ℕ) (s : σ) (d : ℕ → σ) :
    (writeSector b s : Prog σ ε Unit).run d = (.ok (), Function.update d b s) := rfl

@[simp] theorem run_emit (e : ε) (d : ℕ → σ) :
    (emit e : Prog σ ε Unit).run d = (.ok (), d) := rfl

theorem run_bind (p : Prog σ ε α) (f : α → Prog σ ε β) (d : ℕ → σ) :
    (p >>= f).run d = match p.run d with
      | (.ok a, d') => (f a).run d'
      | (.error e, d') => (.error e, d') := by
  change (p.bind f).run d = _
  induction p generalizing d with
  | ret a => rfl
  | fail e => rfl
  | note e p ih => exact ih d
  | read b p ih => exact ih (d b) d
  | write b s p ih => exact ih _

/-- The first part of a sequence ran to its end. -/
theorem run_bind_ok (h : p.run d = (.ok a, d')) : (p >>= f).run d = (f a).run d' := by
  rw [run_bind, h]

/-- The first part of a sequence stopped with a fault. -/
theorem run_bind_error {e : Fault} (h : p.run d = (.error e, d')) :
    (p >>= f).run d = (.error e, d') := by
  rw [run_bind, h]

/-- The sectors that a program reads and writes when its requests are served in a row. -/
def touched : Prog σ ε α → (ℕ → σ) → List ℕ
  | ret _, _ => []
  | fail _, _ => []
  | note _ p, d => p.touched d
  | read b p, d => b :: (p (d b)).touched d
  | write b s p, d => b :: p.touched (Function.update d b s)

theorem touched_bind_ok (h : p.run d = (.ok a, d')) :
    (p >>= f).touched d = p.touched d ++ (f a).touched d' := by
  change (p.bind f).touched d = _
  induction p generalizing d with
  | ret b =>
    obtain ⟨rfl, rfl⟩ : b = a ∧ d = d' := by simpa [run] using h
    rfl
  | fail e => exact absurd h (by simp [run])
  | note e p ih => exact ih h
  | read b p ih => exact congrArg (b :: ·) (ih (d b) h)
  | write b s p ih => exact congrArg (b :: ·) (ih h)

/-- The program writes no sector. -/
def ReadOnly : Prog σ ε α → Prop
  | ret _ => True
  | fail _ => True
  | note _ p => p.ReadOnly
  | read _ p => ∀ s, (p s).ReadOnly
  | write _ _ _ => False

namespace ReadOnly

theorem bind (hp : p.ReadOnly) (hf : ∀ a, (f a).ReadOnly) : (p >>= f).ReadOnly := by
  change (p.bind f).ReadOnly
  induction p with
  | ret a => exact hf a
  | fail e => trivial
  | note e p ih => exact ih hp
  | read b p ih => exact fun s => ih s (hp s)
  | write b s p ih => exact absurd hp id

theorem run_snd (hp : p.ReadOnly) (d : ℕ → σ) : (p.run d).2 = d := by
  induction p generalizing d with
  | ret a => rfl
  | fail e => rfl
  | note e p ih => exact ih hp d
  | read b p ih => exact ih (d b) (hp (d b)) d
  | write b s p ih => exact absurd hp id

theorem pure (a : α) : (Pure.pure a : Prog σ ε α).ReadOnly := trivial

theorem readSector (b : ℕ) : (readSector b : Prog σ ε σ).ReadOnly := fun _ => trivial

end ReadOnly

/-- Whatever the store answers, the program returns a result with `Q`. -/
def Returns (Q : α → Prop) : Prog σ ε α → Prop
  | ret a => Q a
  | fail _ => False
  | note _ p => p.Returns Q
  | read _ p => ∀ s, (p s).Returns Q
  | write _ _ p => p.Returns Q

namespace Returns

variable {P Q : α → Prop} {R : β → Prop}

theorem pure (h : Q a) : (Pure.pure a : Prog σ ε α).Returns Q := h

theorem bind (hp : p.Returns P) (hf : ∀ a, P a → (f a).Returns R) : (p >>= f).Returns R := by
  change (p.bind f).Returns R
  induction p with
  | ret a => exact hf a hp
  | fail e => exact absurd hp id
  | note e p ih => exact ih hp
  | read b p ih => exact fun s => ih s (hp s)
  | write b s p ih => exact ih hp

theorem ite {c : Prop} [Decidable c] {q : Prog σ ε α} (hp : c → p.Returns Q)
    (hq : ¬ c → q.Returns Q) : (if c then p else q).Returns Q := by
  split
  case isTrue h => exact hp h
  case isFalse h => exact hq h

theorem mono (hp : p.Returns P) (h : ∀ a, P a → Q a) : p.Returns Q := by
  induction p with
  | ret a => exact h a hp
  | fail e => exact absurd hp id
  | note e p ih => exact ih hp
  | read b p ih => exact fun s => ih s (hp s)
  | write b s p ih => exact ih hp

theorem readSector (b : ℕ) : (readSector b : Prog σ ε σ).Returns fun _ => True := fun _ => trivial

theorem writeSector (b : ℕ) (s : σ) : (writeSector b s : Prog σ ε Unit).Returns fun _ => True := trivial

theorem emit (e : ε) : (emit e : Prog σ ε Unit).Returns fun _ => True := trivial

theorem run (hp : p.Returns Q) (d : ℕ → σ) : ∃ a d', p.run d = (.ok a, d') ∧ Q a := by
  induction p generalizing d with
  | ret a => exact ⟨a, d, rfl, hp⟩
  | fail e => exact absurd hp id
  | note e p ih => exact ih hp d
  | read b p ih => exact ih (d b) (hp (d b)) d
  | write b s p ih => exact ih hp _

end Returns

-- the rules above are all that is used of it
attribute [irreducible] Returns

end Prog

end OrangeOs
