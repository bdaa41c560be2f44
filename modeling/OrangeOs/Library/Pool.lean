import OrangeOs.Library.Exchange
import OrangeOs.Library.Runs

/-! # Pools of programs over one store

Any number of processes run programs over one store. A step serves one request of one process, and the
processes take steps in any order. A contract says what a program guarantees with every exchange and
what it may rely on; programs that keep the contract keep, together, every invariant that their
exchanges keep one by one.
-/

namespace OrangeOs

variable {σ ε α β : Type}

/-- The events that a program reports before its next request, and the program from there on. -/
def Prog.settle : Prog σ ε α → List ε × Prog σ ε α
  | note e p => (e :: p.settle.1, p.settle.2)
  | ret a => ([], ret a)
  | fail f => ([], fail f)
  | read b f => ([], read b f)
  | write b s p => ([], write b s p)

/-- One exchange of a program: the sectors as it last read them, what it wrote if it was a write, and the
events that it reported then. -/
structure Trail (σ ε : Type) where
  seen : ℕ → Option σ
  wrote : Option (ℕ × σ)
  events : List ε

namespace Trail

variable (t : Trail σ ε)

/-- Before the first exchange. -/
def start : Trail σ ε := ⟨fun _ => none, none, []⟩

def note (e : ε) : Trail σ ε := { t with events := t.events ++ [e] }

def read (b : ℕ) (s : σ) : Trail σ ε := ⟨Function.update t.seen b (some s), none, []⟩

def write (b : ℕ) (s : σ) : Trail σ ε := ⟨t.seen, some (b, s), []⟩

/-- The events that a program reports before its first request. -/
def opening (p : Prog σ ε α) : Trail σ ε := ⟨fun _ => none, none, p.settle.1⟩

/-- The store after the exchange. -/
def store (d : ℕ → σ) : ℕ → σ :=
  match t.wrote with
  | none => d
  | some (b, s) => Function.update d b s

end Trail

/-- A process: the sectors as it last read them and what it has left to do. -/
structure Process (σ ε : Type) where
  seen : ℕ → Option σ
  prog : Prog σ ε Unit

/-- The next exchange of a process, and what it has left to do after it. -/
def Process.exchange (x : Process σ ε) (d : ℕ → σ) : Option (Trail σ ε × Prog σ ε Unit) :=
  match x.prog with
  | .read b f =>
    some (⟨Function.update x.seen b (some (d b)), none, (f (d b)).settle.1⟩, (f (d b)).settle.2)
  | .write b s p => some (⟨x.seen, some (b, s), p.settle.1⟩, p.settle.2)
  | _ => none

/-- The store, the events so far and the processes. -/
structure Pool (σ ε : Type) where
  store : ℕ → σ
  log : List ε
  procs : ℕ → Process σ ε

/-- The pool after an exchange of process `i`. -/
def Pool.after (s : Pool σ ε) (i : ℕ) (t : Trail σ ε) (p : Prog σ ε Unit) : Pool σ ε where
  store := t.store s.store
  log := s.log ++ t.events
  procs := Function.update s.procs i ⟨t.seen, p⟩

/-- One step: a process that has nothing left to do starts a program, or the next request of a process
is served. Every step meets `Ok`. -/
inductive Pool.Step (Starts : Prog σ ε Unit → Prop) (Ok : (ℕ → σ) → Trail σ ε → Prop)
    (s : Pool σ ε) : Pool σ ε → Prop where
  | start (i : ℕ) (p : Prog σ ε Unit) (hidle : (s.procs i).prog = .ret ()) (hp : Starts p)
      (hok : Ok s.store (.opening p)) : Step Starts Ok s (s.after i (.opening p) p.settle.2)
  | serve (i : ℕ) (t : Trail σ ε) (p : Prog σ ε Unit)
      (h : (s.procs i).exchange s.store = some (t, p)) (hok : Ok s.store t) :
      Step Starts Ok s (s.after i t p)

/-- A process that is served alone does what its program does when all its requests are served in a
row. -/
theorem Pool.alone {Starts : Prog σ ε Unit → Prop} {s : Pool σ ε} {i : ℕ} {p : Prog σ ε Unit}
    {d' : ℕ → σ} (hp : (s.procs i).prog = p.settle.2) (hrun : p.run s.store = (.ok (), d')) :
    ∃ s', Reachable (· = s) (Pool.Step Starts fun _ _ => True) s' ∧ s'.store = d' ∧
      (s'.procs i).prog = .ret () := by
  induction p generalizing s with
  | ret a =>
    obtain ⟨-, rfl⟩ := Prod.mk.inj hrun
    exact ⟨s, .start rfl, rfl, hp⟩
  | fail f => cases (Prod.mk.inj hrun).1
  | note e p ih => exact ih hp hrun
  | read b f ih =>
    let t : Trail σ ε := ⟨Function.update (s.procs i).seen b (some (s.store b)), none,
      (f (s.store b)).settle.1⟩
    have hx : (s.procs i).exchange s.store = some (t, (f (s.store b)).settle.2) := by
      rw [Process.exchange, hp]
      rfl
    obtain ⟨s', hs', hd, hret⟩ := ih (s.store b) (s := s.after i t (f (s.store b)).settle.2)
      (by simp [Pool.after]) hrun
    exact ⟨s', hs'.cons (.serve i _ _ hx trivial), hd, hret⟩
  | write b w p ih =>
    let t : Trail σ ε := ⟨(s.procs i).seen, some (b, w), p.settle.1⟩
    have hx : (s.procs i).exchange s.store = some (t, p.settle.2) := by
      rw [Process.exchange, hp]
      rfl
    obtain ⟨s', hs', hd, hret⟩ := ih (s := s.after i t p.settle.2) (by simp [Pool.after]) hrun
    exact ⟨s', hs'.cons (.serve i _ _ hx trivial), hd, hret⟩

/-- What the programs of a pool rely on and guarantee: what every sector is known to hold, what is known
of the events reported, and the exchanges that a program may make. -/
structure Contract (σ ε : Type) where
  Sector : ℕ → σ → Prop
  Assumed : ε → Prop
  Good : Trail σ ε → Prop
  good_read : ∀ seen, Good ⟨seen, none, []⟩

namespace Contract

variable {K : Contract σ ε} {t : Trail σ ε} {p : Prog σ ε α} {f : α → Prog σ ε β}
  {Q : Trail σ ε → α → Prop} {P : α → Prop} {R : β → Prop}

/-- From a trail on a program makes good exchanges only, and ends with `Q`. -/
def Keeps (K : Contract σ ε) : Trail σ ε → Prog σ ε α → (Trail σ ε → α → Prop) → Prop
  | t, .ret a, Q => Q t a
  | t, .fail _, _ => K.Good t
  | t, .note e p, Q => K.Assumed e → K.Keeps (t.note e) p Q
  | t, .read b f, Q => K.Good t ∧ ∀ s, K.Sector b s → K.Keeps (t.read b s) (f s) Q
  | t, .write b s p, Q => K.Good t ∧ K.Keeps (t.write b s) p Q

theorem Keeps.bind {Q' : Trail σ ε → β → Prop} (h : K.Keeps t p fun t a => K.Keeps t (f a) Q') :
    K.Keeps t (p >>= f) Q' := by
  change K.Keeps t (p.bind f) Q'
  induction p generalizing t with
  | ret a => exact h
  | fail e => exact h
  | note e p ih => exact fun he => ih (h he)
  | read b g ih => exact ⟨h.1, fun s hs => ih s (h.2 s hs)⟩
  | write b s p ih => exact ⟨h.1, ih h.2⟩

theorem Keeps.mono {Q' : Trail σ ε → α → Prop} (h : K.Keeps t p Q) (hQ : ∀ t a, Q t a → Q' t a) :
    K.Keeps t p Q' := by
  induction p generalizing t with
  | ret a => exact hQ t a h
  | fail e => exact h
  | note e p ih => exact fun he => ih (h he)
  | read b g ih => exact ⟨h.1, fun s hs => ih s (h.2 s hs)⟩
  | write b s p ih => exact ⟨h.1, ih h.2⟩

theorem Keeps.pure {a : α} (h : Q t a) : K.Keeps t (Pure.pure a) Q := h

theorem Keeps.readSector {b : ℕ} {Q : Trail σ ε → σ → Prop} (ht : K.Good t)
    (h : ∀ s, K.Sector b s → Q (t.read b s) s) : K.Keeps t (Prog.readSector b) Q := ⟨ht, h⟩

theorem Keeps.writeSector {b : ℕ} {s : σ} {Q : Trail σ ε → Unit → Prop} (ht : K.Good t)
    (h : Q (t.write b s) ()) : K.Keeps t (Prog.writeSector b s) Q := ⟨ht, h⟩

theorem Keeps.emit {e : ε} {Q : Trail σ ε → Unit → Prop} (h : K.Assumed e → Q (t.note e) ()) :
    K.Keeps t (Prog.emit e) Q := h

/-- A program that keeps the contract after every good exchange and returns a result with `P`. -/
def Safe (K : Contract σ ε) (p : Prog σ ε α) (P : α → Prop) : Prop :=
  ∀ t, K.Good t → K.Keeps t p fun t a => K.Good t ∧ P a

namespace Safe

theorem pure {a : α} (h : P a) : K.Safe (Pure.pure a) P := fun _ ht => ⟨ht, h⟩

theorem bind (h : K.Safe p P) (hf : ∀ a, P a → K.Safe (f a) R) : K.Safe (p >>= f) R :=
  fun t ht => ((h t ht).mono fun t a ha => hf a ha.2 t ha.1).bind

theorem mono {P' : α → Prop} (h : K.Safe p P) (hP : ∀ a, P a → P' a) : K.Safe p P' :=
  fun t ht => (h t ht).mono fun _ a ha => ⟨ha.1, hP a ha.2⟩

theorem fail {e : Fault} : K.Safe (.fail e : Prog σ ε α) P := fun _ ht => ht

theorem readSector (b : ℕ) : K.Safe (Prog.readSector b) fun s => K.Sector b s :=
  fun _ ht => ⟨ht, fun _ hs => ⟨K.good_read _, hs⟩⟩

theorem ite {c : Prop} [Decidable c] {q : Prog σ ε α} (hp : c → K.Safe p P)
    (hq : ¬ c → K.Safe q P) : K.Safe (if c then p else q) P := by
  split
  case isTrue h => exact hp h
  case isFalse h => exact hq h

end Safe

/-- The events before the next request belong to the exchange before them. -/
theorem Keeps.settle (h : K.Keeps t p Q) (he : ∀ e ∈ p.settle.1, K.Assumed e) :
    K.Keeps { t with events := t.events ++ p.settle.1 } p.settle.2 Q := by
  induction p generalizing t with
  | note e p ih =>
    have hrest := ih (h (he e (by simp [Prog.settle])))
      fun e' he' => he e' (List.mem_cons_of_mem _ he')
    simpa [Prog.settle, Trail.note] using hrest
  | _ => simpa [Prog.settle] using h

theorem settle_ne_note (p : Prog σ ε α) (e : ε) (q : Prog σ ε α) : p.settle.2 ≠ .note e q := by
  induction p with
  | note e' p ih => exact ih
  | _ => simp [Prog.settle]

/-- Between two exchanges the last one is good, and what comes next does not depend on it. -/
theorem Keeps.between (h : K.Keeps t p fun t _ => K.Good t) (hp : ∀ e q, p ≠ .note e q) :
    K.Good t ∧ K.Keeps ⟨t.seen, none, []⟩ p fun t _ => K.Good t := by
  cases p with
  | ret a => exact ⟨h, K.good_read _⟩
  | fail e => exact ⟨h, K.good_read _⟩
  | note e q => exact absurd rfl (hp e q)
  | read b f => exact ⟨h.1, K.good_read _, h.2⟩
  | write b s p => exact ⟨h.1, K.good_read _, h.2⟩

/-! ## Pools -/

section Pools

variable {Inv : (ℕ → σ) → List ε → Prop} {Starts : Prog σ ε Unit → Prop}
  {Ok : (ℕ → σ) → Trail σ ε → Prop} {s s' : Pool σ ε}

/-- The invariant holds, and what the processes have left to do keeps the contract. -/
structure Holds (K : Contract σ ε) (Inv : (ℕ → σ) → List ε → Prop) (s : Pool σ ε) : Prop where
  inv : Inv s.store s.log
  procs : ∀ i, K.Keeps ⟨(s.procs i).seen, none, []⟩ (s.procs i).prog fun t _ => K.Good t

variable (hsector : ∀ d l, Inv d l → ∀ b, K.Sector b (d b))
  (hinv : ∀ d l t, Inv d l → K.Good t → Ok d t → Inv (t.store d) (l ++ t.events))
  (hassumed : ∀ d t, Ok d t → ∀ e ∈ t.events, K.Assumed e)

include hinv hassumed in
/-- An exchange after which the program keeps the contract. -/
theorem Holds.after (h : K.Holds Inv s) {i : ℕ} {p : Prog σ ε Unit} {t : Trail σ ε}
    (hp : K.Keeps t p fun t _ => K.Good t) (ht : t.events = [])
    (hok : Ok s.store { t with events := p.settle.1 }) :
    K.Holds Inv (s.after i { t with events := p.settle.1 } p.settle.2) := by
  have hkeeps := hp.settle (hassumed _ _ hok)
  rw [ht, List.nil_append] at hkeeps
  obtain ⟨hgood, hnext⟩ := hkeeps.between (settle_ne_note p)
  refine ⟨hinv _ _ _ h.inv hgood hok, fun j => ?_⟩
  by_cases hj : j = i
  · subst hj
    simp only [Pool.after, Function.update_self]
    exact hnext
  · simp only [Pool.after, Function.update_of_ne hj]
    exact h.procs j

include hsector hinv hassumed in
/-- A step of a pool whose programs keep the contract. -/
theorem Holds.step (hstart : ∀ p, Starts p → K.Keeps .start p fun t _ => K.Good t)
    (h : K.Holds Inv s) (hs : s.Step Starts Ok s') : K.Holds Inv s' := by
  cases hs with
  | start i p hidle hp hok => exact h.after hinv hassumed (hstart p hp) rfl hok
  | serve i t p hx hok =>
    have hproc := h.procs i
    rw [Process.exchange] at hx
    cases hprog : (s.procs i).prog with
    | read b f =>
      rw [hprog] at hx hproc
      obtain ⟨rfl, rfl⟩ := Prod.mk.inj (Option.some.inj hx)
      exact h.after hinv hassumed (hproc.2 _ (hsector _ _ h.inv b)) rfl hok
    | write b w q =>
      rw [hprog] at hx hproc
      obtain ⟨rfl, rfl⟩ := Prod.mk.inj (Option.some.inj hx)
      exact h.after hinv hassumed hproc.2 rfl hok
    | _ => simp [hprog] at hx

end Pools

end Contract

end OrangeOs
