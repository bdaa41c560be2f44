import Mathlib.Algebra.Group.Nat.Defs
import OrangeOs.Library.Ring
import OrangeOs.Library.Runs

/-! # Console input

`Console::InterruptHandler` puts the characters of the terminal into a ring of 256, and
`Console::read` takes them out. The two indices are single bytes, so that 256 unread characters look
like none. As long as at most 255 characters are unread, the console is a queue in which a backspace
takes back the last one.
-/

namespace OrangeOs.Kernel

abbrev buf_len : ℕ := 256

/-- The handler treats `'\x7f'` and `'\b'` alike. -/
def isBackSpace (c : UInt8) : Bool := c = 0x7f ∨ c = 8

/-- `'\r'` turned into `'\n'`. -/
def newline (c : UInt8) : UInt8 := if c = 13 then 10 else c

/-! ## The characters that are typed -/

/-- What a queue of characters has accepted, and how many of these it has delivered. -/
structure Input where
  accepted : List UInt8
  delivered : ℕ

namespace Input

def empty : Input := ⟨[], 0⟩

def unread (f : Input) : List UInt8 := f.accepted.drop f.delivered

/-- A character is accepted; a backspace takes back the last one if that is unread. -/
def type (f : Input) (c : UInt8) : Input :=
  if isBackSpace c then
    if f.delivered < f.accepted.length then { f with accepted := f.accepted.dropLast } else f
  else { f with accepted := f.accepted ++ [c] }

def typeAll (f : Input) (s : List UInt8) : Input := s.foldl type f

/-- Characters come only when at most 254 are unread. -/
def Fits : Input → List UInt8 → Prop
  | _, [] => True
  | f, c :: s => (isBackSpace c ∨ f.unread.length ≤ 254) ∧ (f.type c).Fits s

end Input

instance Input.decidableFits : (f : Input) → (s : List UInt8) → Decidable (f.Fits s)
  | _, [] => .isTrue trivial
  | f, c :: s => @instDecidableAnd _ _ _ (decidableFits (f.type c) s)

/-- What happens at the console: characters are typed, a reader takes characters, and its call
returns. -/
inductive ConsoleEvent where
  | typed (s : List UInt8)
  | took (p : ℕ) (cs : List UInt8)
  | returned (p len : ℕ) (buf : List UInt8)

def Input.next (f : Input) : ConsoleEvent → Input
  | .typed s => f.typeAll s
  | .took _ cs => { f with delivered := f.delivered + cs.length }
  | .returned .. => f

/-- The queue after a history. -/
def input (log : List ConsoleEvent) : Input := log.foldl Input.next .empty

/-- What an event says of the characters that have been taken, of those of one reader, and of those
that its calls have returned. -/
def ConsoleEvent.taken : ConsoleEvent → List UInt8
  | .took _ cs => cs
  | _ => []

def ConsoleEvent.takenBy (p : ℕ) : ConsoleEvent → List UInt8
  | .took p' cs => if p' = p then cs else []
  | _ => []

def ConsoleEvent.result (p : ℕ) : ConsoleEvent → List UInt8
  | .returned p' _ buf => if p' = p then buf else []
  | _ => []

/-- The characters that readers have taken, in order. -/
def taken (log : List ConsoleEvent) : List UInt8 := log.flatMap ConsoleEvent.taken

def takenBy (p : ℕ) (log : List ConsoleEvent) : List UInt8 := log.flatMap (ConsoleEvent.takenBy p)

/-- What the calls of a reader have returned. -/
def results (p : ℕ) (log : List ConsoleEvent) : List UInt8 := log.flatMap (ConsoleEvent.result p)

/-! ## The console -/

/-- `Console::Context`. -/
structure Context where
  buf : ℕ → UInt8
  read_index : ℕ
  write_index : ℕ

namespace Context

def zero : Context := ⟨fun _ => 0, 0, 0⟩

def isBufferFull (c : Context) : Bool :=
  ((c.write_index % buf_len : ℕ) : ℤ) - ((c.read_index % buf_len : ℕ) : ℤ) = 0 ∧
    c.read_index ≠ c.write_index

def put (c : Context) (ch : UInt8) : Context :=
  { c with
    buf := Function.update c.buf (c.write_index % buf_len) ch
    write_index := (c.write_index + 1) % 2 ^ 8 }

def back (c : Context) : Context := { c with write_index := (c.write_index + 255) % 2 ^ 8 }

def char (c : Context) : UInt8 := newline (c.buf (c.read_index % buf_len))

def take (c : Context) : Context := { c with read_index := (c.read_index + 1) % 2 ^ 8 }

/-- The loop of `InterruptHandler`; `woken` says that it has called `Wakeup`. -/
def handle : List UInt8 → Context → Bool → Context × Bool
  | [], c, woken => (c, woken)
  | ch :: s, c, woken =>
    if isBackSpace ch then handle s (if c.read_index ≠ c.write_index then c.back else c) woken
    else if ch = 13 ∨ (c.put ch).isBufferFull then
      if (c.put ch).isBufferFull then (c.put ch, true) else handle s (c.put ch) true
    else handle s (c.put ch) woken

def interruptHandler (c : Context) (s : List UInt8) : Context × Bool :=
  if c.isBufferFull then (c, false) else handle s c false

/-- The loop of `read` that has `left` characters to go and `p` already: whether it has ended, else it
sleeps. -/
def readLoop : ℕ → List UInt8 → Context → Bool × List UInt8 × Context
  | 0, p, c => (true, p, c)
  | left + 1, p, c =>
    if c.read_index = c.write_index then (false, p, c)
    else if c.char = 10 then (true, p ++ [c.char], c.take)
    else readLoop left (p ++ [c.char]) c.take

/-- The characters between the two indices. -/
def pending (c : Context) : List UInt8 :=
  ringWindow buf_len c.buf c.read_index
    (c.read_index + (c.write_index + 2 ^ 8 - c.read_index) % 2 ^ 8)

end Context

/-- A process at the console: in no call, asleep in `read`, or to go on there. -/
inductive Reader where
  | idle
  | asleep (len : ℕ) (buf : List UInt8)
  | awake (len : ℕ) (buf : List UInt8)
  deriving DecidableEq

def Reader.buf : Reader → List UInt8
  | idle => []
  | asleep _ buf => buf
  | awake _ buf => buf

@[simp] theorem Reader.buf_idle : Reader.idle.buf = [] := rfl
@[simp] theorem Reader.buf_asleep (len : ℕ) (buf : List UInt8) : (asleep len buf).buf = buf := rfl

/-- `Wakeup` on the channel of the console. -/
def Reader.wake : Reader → Reader
  | asleep len buf => awake len buf
  | l => l

/-- The console with the processes that read from it and the history of what has happened. -/
structure Console where
  context : Context
  reader : ℕ → Reader
  log : List ConsoleEvent

namespace Console

def init : Console := ⟨.zero, fun _ => .idle, []⟩

inductive Act where
  | interrupt (s : List UInt8)
  | read (p len : ℕ)
  | resume (p : ℕ)

/-- An interrupt with the characters `s`. -/
def interrupt (x : Console) (s : List UInt8) : Console where
  context := (x.context.interruptHandler s).1
  reader p := if (x.context.interruptHandler s).2 then (x.reader p).wake else x.reader p
  log := x.log ++ [.typed s]

/-- A process runs in `read`, until it sleeps or its call returns. -/
def run (x : Console) (p len : ℕ) (buf : List UInt8) : Console :=
  match x.context.readLoop (len - buf.length) buf with
  | (true, buf', c) =>
    ⟨c, Function.update x.reader p .idle,
      x.log ++ [.took p (buf'.drop buf.length), .returned p len buf']⟩
  | (false, buf', c) =>
    ⟨c, Function.update x.reader p (.asleep len buf'),
      x.log ++ [.took p (buf'.drop buf.length)]⟩

/-- Interrupts are off in the handler and in `read` as long as it does not sleep. -/
inductive Step (x : Console) : Act → Console → Prop
  | interrupt (s : List UInt8) : Step x (.interrupt s) (x.interrupt s)
  | read {p : ℕ} (len : ℕ) : x.reader p = .idle → Step x (.read p len) (x.run p len [])
  | resume {p len : ℕ} {buf : List UInt8} : x.reader p = .awake len buf →
      Step x (.resume p) (x.run p len buf)

abbrev Reached (x : Console) : Prop := Reachable (· = init) (fun x y => ∃ a, Step x a y) x

/-- The condition on steps: a character is typed only when at most 254 are unread. -/
def Orderly (x : Console) (a : Act) : Prop := ∀ s, a = .interrupt s → (input x.log).Fits s

abbrev ReachedOrderly (x : Console) : Prop :=
  Reachable (· = init) (fun x y => ∃ a, Step x a y ∧ Orderly x a) x

end Console

variable {c c' : Context} {f : Input} {ch : UInt8} {s buf buf' cs : List UInt8} {p left len : ℕ}

/-! ## The ring is the queue -/

/-- The two indices are the counters of the queue modulo `2 ^ 8`, and the ring holds what is unread. -/
structure Context.Holds (c : Context) (f : Input) : Prop where
  read_index : c.read_index = f.delivered % 2 ^ 8
  write_index : c.write_index = f.accepted.length % 2 ^ 8
  le : f.delivered ≤ f.accepted.length
  room : f.accepted.length ≤ f.delivered + 255
  window : ringWindow buf_len c.buf f.delivered f.accepted.length = f.unread

@[simp] theorem Input.length_unread (f : Input) :
    f.unread.length = f.accepted.length - f.delivered := by
  simp [unread]

theorem two_pow_eight : 2 ^ 8 = buf_len :=
  rfl

/-- The test for a full ring never succeeds, because the indices are single bytes. -/
theorem Context.isBufferFull_eq_false (hr : c.read_index < 2 ^ 8) (hw : c.write_index < 2 ^ 8) :
    c.isBufferFull = false := by
  simp only [isBufferFull, decide_eq_false_iff_not, not_and, not_not]
  rw [two_pow_eight] at hr hw
  rw [Nat.mod_eq_of_lt hr, Nat.mod_eq_of_lt hw]
  omega

namespace Context.Holds

theorem isBufferFull (h : c.Holds f) : c.isBufferFull = false :=
  isBufferFull_eq_false (h.read_index ▸ Nat.mod_lt _ (by decide))
    (h.write_index ▸ Nat.mod_lt _ (by decide))

theorem empty_iff (h : c.Holds f) : c.read_index = c.write_index ↔ f.unread = [] := by
  rw [← List.length_eq_zero_iff, Input.length_unread, h.read_index, h.write_index]
  have := h.le
  have := h.room
  omega

theorem pending (h : c.Holds f) : c.pending = f.unread := by
  have hcount : (c.write_index + 2 ^ 8 - c.read_index) % 2 ^ 8 =
      f.accepted.length - f.delivered := by
    rw [h.read_index, h.write_index]
    have := h.le
    have := h.room
    omega
  rw [Context.pending, hcount, h.read_index, two_pow_eight, ringWindow_mod,
    Nat.add_sub_cancel' h.le, h.window]

theorem put (h : c.Holds f) (hch : isBackSpace ch = false) (hroom : f.unread.length ≤ 254) :
    (c.put ch).Holds (f.type ch) := by
  have hle := h.le
  rw [Input.length_unread] at hroom
  rw [Input.type, if_neg (by simp [hch])]
  refine ⟨h.read_index, ?_, ?_, ?_, ?_⟩
  · simp only [Context.put, h.write_index, List.length_append, List.length_singleton]
    omega
  · simp only [List.length_append]
    omega
  · simp only [List.length_append, List.length_singleton]
    omega
  · have hslot : c.write_index % buf_len = f.accepted.length % buf_len := by
      rw [h.write_index, two_pow_eight, Nat.mod_mod]
    simp only [Context.put, Input.unread, hslot, List.length_append, List.length_singleton]
    rw [ringWindow_update_push hle (show _ < f.delivered + 256 by omega), h.window, Input.unread,
      List.drop_append_of_le_length hle]

theorem back (h : c.Holds f) (hch : isBackSpace ch = true) :
    (if c.read_index ≠ c.write_index then c.back else c).Holds (f.type ch) := by
  rw [Input.type, if_pos hch]
  by_cases hlt : f.delivered < f.accepted.length
  · have hne : ¬ f.unread = [] := fun he => by
      have := f.length_unread
      rw [he, List.length_nil] at this
      omega
    have hroom := h.room
    rw [if_pos hlt, if_pos fun he => hne (h.empty_iff.mp he)]
    refine ⟨h.read_index, ?_, ?_, ?_, ?_⟩
    · simp only [Context.back, h.write_index, List.length_dropLast]
      omega
    · simp only [List.length_dropLast]
      omega
    · simp only [List.length_dropLast]
      omega
    · simp only [Context.back, Input.unread, List.length_dropLast]
      rw [← ringWindow_dropLast hlt, h.window, Input.unread, List.dropLast_eq_take,
        List.dropLast_eq_take, List.drop_take, List.length_drop, Nat.sub_right_comm]
  · rw [if_neg hlt, if_neg]
    · exact h
    · rw [not_not, h.empty_iff, Input.unread, List.drop_eq_nil_iff]
      omega

theorem handle (h : c.Holds f) (hs : f.Fits s) (woken : Bool) :
    (Context.handle s c woken).1.Holds (f.typeAll s) := by
  induction s generalizing c f woken with
  | nil => exact h
  | cons ch s ih =>
    obtain ⟨hroom, hrest⟩ := hs
    rw [Context.handle]
    cases hch : isBackSpace ch with
    | true =>
      rw [if_pos rfl]
      exact ih (h.back hch) hrest woken
    | false =>
      have hput := h.put hch (hroom.resolve_left (by simp [hch]))
      simp only [hput.isBufferFull, Bool.false_eq_true, or_false, if_false]
      split
      · exact ih hput hrest true
      · exact ih hput hrest woken

theorem interruptHandler (h : c.Holds f) (hs : f.Fits s) :
    (c.interruptHandler s).1.Holds (f.typeAll s) := by
  rw [Context.interruptHandler, if_neg (by simp [h.isBufferFull])]
  exact h.handle hs false

theorem take (h : c.Holds f) {x : UInt8} {rest : List UInt8} (hx : f.unread = x :: rest) :
    c.char = newline x ∧ c.take.Holds { f with delivered := f.delivered + 1 } ∧
      Input.unread { f with delivered := f.delivered + 1 } = rest := by
  have hlt : f.delivered < f.accepted.length := by
    have := f.length_unread
    rw [hx, List.length_cons] at this
    omega
  have hwin := h.window
  rw [ringWindow_pop hlt, hx] at hwin
  obtain ⟨hchar, hrest⟩ := List.cons.inj hwin
  have hdrop : Input.unread { f with delivered := f.delivered + 1 } = rest := by
    have := congrArg List.tail hx
    rwa [Input.unread, List.tail_drop] at this
  refine ⟨?_, ⟨?_, h.write_index, hlt, ?_, hrest.trans hdrop.symm⟩, hdrop⟩
  · rw [Context.char, h.read_index, two_pow_eight, Nat.mod_mod, hchar]
  · simp only [Context.take, h.read_index]
    omega
  · have := h.room
    simp only
    omega

end Context.Holds

/-! ## A call of `read` -/

/-- What `readLoop` adds to its buffer ends at a newline or at its length; else the call sleeps. -/
structure Line (left : ℕ) (ended : Bool) (cs : List UInt8) : Prop where
  length_le : cs.length ≤ left
  newline : 10 ∉ cs.dropLast
  ends : ended = true → cs.length = left ∨ cs.getLast? = some 10
  sleeps : ended = false → cs.length < left ∧ 10 ∉ cs

theorem Line.cons {x : UInt8} {ended : Bool} (hx : x ≠ 10) (h : Line left ended cs) :
    Line (left + 1) ended (x :: cs) where
  length_le := Nat.succ_le_succ h.length_le
  newline := by
    cases cs with
    | nil => simp
    | cons y ys =>
      rw [List.dropLast_cons_of_ne_nil (by simp), List.mem_cons, not_or]
      exact ⟨hx.symm, h.newline⟩
  ends he := by
    rcases h.ends he with hlen | hlast
    · exact .inl (congrArg _ hlen)
    · right
      cases cs with
      | nil => simp at hlast
      | cons y ys => rwa [List.getLast?_cons_cons]
  sleeps he := by
    obtain ⟨hlen, hmem⟩ := h.sleeps he
    exact ⟨Nat.succ_lt_succ hlen, by simpa using ⟨hx.symm, hmem⟩⟩

/-- A call goes on after it has slept. -/
theorem Line.append {ended : Bool} (hbuf : 10 ∉ buf) (hlen : buf.length ≤ len)
    (h : Line (len - buf.length) ended cs) : Line len ended (buf ++ cs) := by
  induction buf generalizing len with
  | nil => exact h
  | cons x buf ih =>
    rw [List.mem_cons, not_or] at hbuf
    obtain ⟨k, rfl⟩ : ∃ k, len = k + 1 := ⟨len - 1, by rw [List.length_cons] at hlen; omega⟩
    rw [List.length_cons, Nat.add_sub_add_right] at h
    exact (ih hbuf.2 (Nat.le_of_succ_le_succ hlen) h).cons (Ne.symm hbuf.1)

/-- `read` takes the characters of the queue in order, and it sleeps only when there are no more. -/
theorem Context.Holds.readLoop (h : c.Holds f) (left : ℕ) (buf : List UInt8) :
    ∃ ended cs c', c.readLoop left buf = (ended, buf ++ cs, c') ∧ Line left ended cs ∧
      c'.Holds { f with delivered := f.delivered + cs.length } ∧
      cs = (f.unread.take cs.length).map newline ∧
      (ended = false → f.unread.length = cs.length) := by
  induction left generalizing c f buf with
  | zero =>
    exact ⟨true, [], c, by simp [Context.readLoop],
      ⟨le_rfl, by simp, fun _ => .inl rfl, by simp⟩, h, by simp, by simp⟩
  | succ left ih =>
    cases hu : f.unread with
    | nil =>
      refine ⟨false, [], c, ?_, ⟨Nat.zero_le _, by simp, by simp, by simp⟩, h, by simp, by simp⟩
      rw [Context.readLoop, if_pos (h.empty_iff.mpr hu), List.append_nil]
    | cons x rest =>
      obtain ⟨hchar, htake, hrest⟩ := h.take hu
      have hne : c.read_index ≠ c.write_index := fun he => by simp [h.empty_iff.mp he] at hu
      rw [Context.readLoop, if_neg hne, hchar]
      by_cases hx : newline x = 10
      · exact ⟨true, [newline x], c.take, by rw [if_pos hx],
          ⟨by simp, by simp, fun _ => .inr (by simp [hx]), by simp⟩, htake, by simp, by simp⟩
      · obtain ⟨ended, cs, c', heq, hline, hholds, hcs, hsleep⟩ := ih htake (buf ++ [newline x])
        rw [hrest] at hcs hsleep
        refine ⟨ended, newline x :: cs, c', ?_, hline.cons hx, ?_, ?_, fun he => ?_⟩
        · rw [if_neg hx, heq, List.append_assoc, List.singleton_append]
        · rwa [List.length_cons, Nat.add_comm cs.length, ← Nat.add_assoc]
        · rw [List.length_cons, List.take_succ_cons, List.map_cons, ← hcs]
        · rw [List.length_cons, List.length_cons, hsleep he]

/-! ## Histories -/

@[simp] theorem Input.type_delivered (f : Input) (ch : UInt8) :
    (f.type ch).delivered = f.delivered := by
  unfold type
  split_ifs <;> rfl

/-- What has been delivered is not taken back. -/
theorem Input.type_take (h : f.delivered ≤ f.accepted.length) (ch : UInt8) :
    (f.type ch).accepted.take f.delivered = f.accepted.take f.delivered := by
  unfold type
  split_ifs with hch hlt
  · rw [List.dropLast_eq_take, List.take_take, min_eq_left (by omega)]
  · rfl
  · rw [List.take_append_of_le_length h]

theorem Input.delivered_le_type (h : f.delivered ≤ f.accepted.length) (ch : UInt8) :
    f.delivered ≤ (f.type ch).accepted.length := by
  have htake := congrArg List.length (Input.type_take h ch)
  rw [List.length_take, List.length_take] at htake
  omega

theorem Input.typeAll_take (h : f.delivered ≤ f.accepted.length) (s : List UInt8) :
    (f.typeAll s).delivered = f.delivered ∧
      (f.typeAll s).accepted.take f.delivered = f.accepted.take f.delivered := by
  induction s generalizing f with
  | nil => exact ⟨rfl, rfl⟩
  | cons ch s ih =>
    have htype := f.type_delivered ch
    obtain ⟨hdel, htake⟩ := ih (f := f.type ch) (htype ▸ Input.delivered_le_type h ch)
    rw [htype] at hdel htake
    exact ⟨hdel, htake.trans (Input.type_take h ch)⟩

@[simp] theorem input_append (log log' : List ConsoleEvent) :
    input (log ++ log') = log'.foldl Input.next (input log) := by
  rw [input, List.foldl_append, input]

@[simp] theorem taken_append (log log' : List ConsoleEvent) :
    taken (log ++ log') = taken log ++ log'.flatMap ConsoleEvent.taken :=
  List.flatMap_append

@[simp] theorem takenBy_append (log log' : List ConsoleEvent) :
    takenBy p (log ++ log') = takenBy p log ++ log'.flatMap (ConsoleEvent.takenBy p) :=
  List.flatMap_append

@[simp] theorem results_append (log log' : List ConsoleEvent) :
    results p (log ++ log') = results p log ++ log'.flatMap (ConsoleEvent.result p) :=
  List.flatMap_append

namespace Console

variable {x y : Console} {a : Act}

/-- The invariant of the console. -/
structure Fifo (x : Console) : Prop where
  holds : x.context.Holds (input x.log)
  delivered : (taken x.log).length = (input x.log).delivered
  taken : taken x.log = ((input x.log).accepted.take (input x.log).delivered).map newline
  reader : ∀ p, takenBy p x.log = results p x.log ++ (x.reader p).buf
  returned : ∀ p len buf, .returned p len buf ∈ x.log → Line len true buf
  asleep : ∀ p len buf, x.reader p = .asleep len buf ∨ x.reader p = .awake len buf →
    Line len false buf

theorem fifo_init : Fifo init where
  holds := ⟨rfl, rfl, le_rfl, Nat.zero_le _, rfl⟩
  delivered := rfl
  taken := rfl
  reader _ := rfl
  returned := by simp [init]
  asleep := by simp [init]

theorem Fifo.interrupt (h : Fifo x) (hs : (input x.log).Fits s) : Fifo (x.interrupt s) := by
  obtain ⟨hdel, htake⟩ := Input.typeAll_take h.holds.le s
  have hinput : input (x.interrupt s).log = (input x.log).typeAll s := by
    simp [Console.interrupt, Input.next]
  have htaken : Kernel.taken (x.interrupt s).log = Kernel.taken x.log := by
    simp [Console.interrupt, ConsoleEvent.taken]
  have hreader : ∀ q, (x.interrupt s).reader q = x.reader q ∨
      (x.interrupt s).reader q = (x.reader q).wake := by
    intro q
    simp only [Console.interrupt]
    split_ifs
    · exact .inr rfl
    · exact .inl rfl
  refine ⟨?_, ?_, ?_, fun q => ?_, fun q len buf hmem => ?_, fun q len buf hq => ?_⟩
  · rw [hinput]
    exact h.holds.interruptHandler hs
  · rw [htaken, hinput, hdel, h.delivered]
  · rw [htaken, hinput, hdel, htake, h.taken]
  · have hbuf : ((x.interrupt s).reader q).buf = (x.reader q).buf := by
      rcases hreader q with he | he <;> rw [he]
      cases x.reader q <;> rfl
    rw [hbuf]
    simpa [Console.interrupt, ConsoleEvent.takenBy, ConsoleEvent.result] using h.reader q
  · exact h.returned q len buf (by simpa [Console.interrupt] using hmem)
  · refine h.asleep q len buf ?_
    rcases hreader q with he | he <;> rw [he] at hq
    · exact hq
    · cases hr : x.reader q <;> simp_all [Reader.wake]

theorem Fifo.run (h : Fifo x) (hp : (x.reader p).buf = buf) (hbuf : 10 ∉ buf)
    (hlen : buf.length ≤ len) : Fifo (x.run p len buf) := by
  obtain ⟨ended, cs, c', heq, hline, hholds, hcs, -⟩ := h.holds.readLoop (len - buf.length) buf
  have hwhole := hline.append hbuf hlen
  have htaken : Kernel.taken x.log ++ cs =
      ((input x.log).accepted.take ((input x.log).delivered + cs.length)).map newline := by
    rw [List.take_add, List.map_append, ← h.taken]
    exact congrArg _ hcs
  cases ended with
  | true =>
    have hrun : x.run p len buf = ⟨c', Function.update x.reader p .idle,
        x.log ++ [.took p cs, .returned p len (buf ++ cs)]⟩ := by
      simp [Console.run, heq]
    rw [hrun]
    refine ⟨?_, ?_, ?_, fun q => ?_, fun q l b hmem => ?_, fun q l b hq => ?_⟩
    · simpa [Input.next] using hholds
    · simp [ConsoleEvent.taken, Input.next, h.delivered]
    · simpa [ConsoleEvent.taken, Input.next] using htaken
    · by_cases hq : q = p
      · subst hq
        simp [ConsoleEvent.takenBy, ConsoleEvent.result, h.reader, hp]
      · simpa [ConsoleEvent.takenBy, ConsoleEvent.result, hq, Ne.symm hq] using h.reader q
    · rcases List.mem_append.mp hmem with hmem | hmem
      · exact h.returned q l b hmem
      · obtain ⟨rfl, rfl, rfl⟩ : q = p ∧ l = len ∧ b = buf ++ cs := by simpa using hmem
        exact hwhole
    · have hqp : q ≠ p := by
        rintro rfl
        simp at hq
      exact h.asleep q l b (by simpa [hqp] using hq)
  | false =>
    have hrun : x.run p len buf = ⟨c', Function.update x.reader p (.asleep len (buf ++ cs)),
        x.log ++ [.took p cs]⟩ := by
      simp [Console.run, heq]
    rw [hrun]
    refine ⟨?_, ?_, ?_, fun q => ?_, fun q l b hmem => ?_, fun q l b hq => ?_⟩
    · simpa [Input.next] using hholds
    · simp [ConsoleEvent.taken, Input.next, h.delivered]
    · simpa [ConsoleEvent.taken, Input.next] using htaken
    · by_cases hq : q = p
      · subst hq
        simp [ConsoleEvent.takenBy, ConsoleEvent.result, h.reader, hp]
      · simpa [ConsoleEvent.takenBy, ConsoleEvent.result, hq, Ne.symm hq] using h.reader q
    · exact h.returned q l b (by simpa using hmem)
    · by_cases hqp : q = p
      · subst hqp
        obtain ⟨rfl, rfl⟩ : len = l ∧ buf ++ cs = b := by simpa using hq
        exact hwhole
      · exact h.asleep q l b (by simpa [hqp] using hq)

theorem Fifo.step (h : Fifo x) (hst : Step x a y) (ho : Orderly x a) : Fifo y := by
  cases hst with
  | interrupt s => exact h.interrupt (ho s rfl)
  | read len hp => exact h.run (by rw [hp, Reader.buf_idle]) (by simp) (Nat.zero_le _)
  | resume hp =>
    obtain ⟨hlen, hbuf⟩ := (h.asleep _ _ _ (.inr hp)).sleeps rfl
    exact h.run (by rw [hp]; rfl) hbuf hlen.le

theorem ReachedOrderly.fifo (h : ReachedOrderly x) : Fifo x := by
  refine @Reachable.invariant _ _ _ _ Fifo h ?_ ?_
  · rintro _ rfl
    exact fifo_init
  · rintro x y ih ⟨a, hst, ho⟩
    exact ih.step hst ho

/-- A reader goes to sleep only when there is nothing unread. -/
theorem Fifo.sleep (h : Fifo x) (hst : Step x a y) (hx : x.reader p ≠ .asleep len buf)
    (hy : y.reader p = .asleep len buf) : y.context.pending = [] := by
  have hrun : ∀ q l b, (x.run q l b).reader p = .asleep len buf →
      (x.run q l b).context.pending = [] := by
    intro q l b hq
    obtain ⟨ended, cs, c', heq, -, hholds, -, hsleep⟩ := h.holds.readLoop (l - b.length) b
    by_cases hqp : p = q
    · subst hqp
      cases ended with
      | true => simp [Console.run, heq] at hq
      | false =>
        have hc : (x.run p l b).context = c' := by simp [Console.run, heq]
        rw [hc, hholds.pending, ← List.length_eq_zero_iff, Input.length_unread]
        have := hsleep rfl
        rw [Input.length_unread] at this
        simp only
        omega
    · refine absurd ?_ hx
      cases ended <;> simpa [Console.run, heq, hqp] using hq
  cases hst with
  | interrupt s =>
    simp only [Console.interrupt] at hy
    split_ifs at hy
    · cases hr : x.reader p <;> simp_all [Reader.wake]
    · exact absurd hy hx
  | read l hp => exact hrun _ _ _ hy
  | resume hp => exact hrun _ _ _ hy

/-- When a character is typed only with at most 254 unread, the characters that readers take are, in
order, those that have been accepted and not taken back, and the ring holds the others. Each call
returns what it has taken, which ends at the first newline or at its length, and it sleeps only when
nothing is unread. -/
theorem reads_fifo (h : ReachedOrderly x) :
    taken x.log = ((input x.log).accepted.take (taken x.log).length).map newline ∧
    x.context.pending = (input x.log).accepted.drop (taken x.log).length ∧
    (∀ p, takenBy p x.log = results p x.log ++ (x.reader p).buf) ∧
    (∀ p len buf, .returned p len buf ∈ x.log → Line len true buf) ∧
    ∀ a y p len buf, Step x a y → x.reader p ≠ .asleep len buf → y.reader p = .asleep len buf →
      y.context.pending = [] := by
  have hf := h.fifo
  refine ⟨?_, ?_, hf.reader, hf.returned, fun _ _ _ _ _ hst => hf.sleep hst⟩
  · rw [hf.delivered]
    exact hf.taken
  · rw [hf.delivered]
    exact hf.holds.pending

/-- A process waits for a line, and a backspace corrects it. -/
theorem reads_fifo_line : ∃ x : Console, results 0 x.log = [97, 10] ∧ x.context.pending = [] ∧
    taken x.log = ((input x.log).accepted.take (taken x.log).length).map newline := by
  have h₁ : ReachedOrderly (init.run 0 100 []) :=
    .step (.start rfl) ⟨_, .read 100 rfl, by simp [Orderly]⟩
  have h₂ := Reachable.step h₁ ⟨_, .interrupt [97, 98, 8, 13], fun s hs => by
    obtain rfl := Act.interrupt.inj hs
    decide⟩
  have h₃ := Reachable.step h₂ ⟨_, @Step.resume _ 0 100 [] rfl, by simp [Orderly]⟩
  obtain ⟨htaken, hpending, -, -, -⟩ := reads_fifo h₃
  exact ⟨_, by decide, hpending.trans (by decide), htaken⟩

/-! ## A full ring -/

/-- Characters that are typed one at a time, before anybody reads. -/
theorem reached_typed (s : List UInt8) (hs : ∀ ch ∈ s, isBackSpace ch = false) :
    ∃ x, Reached x ∧ x.context.read_index = 0 ∧ x.context.write_index = s.length % 2 ^ 8 ∧
      (∀ p, x.reader p = .idle) ∧ input x.log = ⟨s, 0⟩ ∧ taken x.log = [] := by
  induction s using List.reverseRecOn with
  | nil => exact ⟨init, .start rfl, rfl, rfl, fun _ => rfl, rfl, rfl⟩
  | append_singleton s ch ih =>
    obtain ⟨x, hx, hr, hw, hreader, hinput, htaken⟩ := ih fun c hc => hs c (by simp [hc])
    have hch := hs ch (by simp)
    have hfull : x.context.isBufferFull = false :=
      Context.isBufferFull_eq_false (by rw [hr]; decide) (by omega)
    have hfull' : (x.context.put ch).isBufferFull = false :=
      Context.isBufferFull_eq_false (by simp [Context.put, hr])
        (by simp only [Context.put]; omega)
    have hctx : (x.context.interruptHandler [ch]).1 = x.context.put ch := by
      rw [Context.interruptHandler, if_neg (by simp [hfull])]
      by_cases hcr : ch = 13
      · subst hcr
        simp [Context.handle, hch, hfull']
      · simp [Context.handle, hch, hfull', hcr]
    refine ⟨x.interrupt [ch], .step hx ⟨_, .interrupt [ch]⟩, ?_, ?_, fun p => ?_, ?_, ?_⟩
    · simp only [interrupt, hctx]
      exact hr
    · simp only [interrupt, hctx, Context.put, hw, List.length_append, List.length_singleton]
      omega
    · simp [interrupt, hreader, Reader.wake]
    · simp [interrupt, Input.next, Input.typeAll, Input.type, hinput, hch]
    · simp [interrupt, ConsoleEvent.taken, htaken]

/-- A line of 255 characters and `'\r'` is typed. The two indices are equal, so `read` finds nothing. -/
theorem full_line_lost : ∃ x y : Console, Reached x ∧ taken x.log = [] ∧
    (input x.log).accepted = List.replicate 255 97 ++ [13] ∧
    Step x (.read 0 100) y ∧ y.reader 0 = .asleep 100 [] := by
  obtain ⟨x, hx, hr, hw, hreader, hinput, htaken⟩ :=
    reached_typed (List.replicate 255 97 ++ [13]) (by
      intro ch hch
      rcases List.mem_append.mp hch with hch | hch
      · rw [List.eq_of_mem_replicate hch]
        rfl
      · rw [List.mem_singleton.mp hch]
        rfl)
  rw [List.length_append, List.length_replicate, List.length_singleton] at hw
  refine ⟨x, _, hx, htaken, by rw [hinput], .read 100 (hreader 0), ?_⟩
  simp [run, Context.readLoop, hr, hw]

end Console

end OrangeOs.Kernel
