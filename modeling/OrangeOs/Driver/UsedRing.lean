import OrangeOs.Driver.Rings
import OrangeOs.Library.Runs

/-! # The counter of the used ring

`BlockDevice::UsedBufferNotify` alone, over runs of any length. The device counts the chains that it
has used modulo `2 ^ 16`, the driver those that it has seen modulo `2 ^ 32`, and the loop ends when
the two numbers are equal.
-/

namespace OrangeOs.Driver

/-- A chain that the device completes, with the number of bytes that it has written. -/
structure Completion where
  chain : Chain
  len : ℕ

/-- The element that the device adds to the used ring. -/
def Completion.elem (c : Completion) : VirtqUsedElem := ⟨c.chain.head, c.len⟩

namespace Rings

def completeAll (r : Rings) (cs : List Completion) : Rings :=
  cs.foldl (fun r c => r.complete c.chain c.len) r

/-- `UsedBufferNotify`, which returns the elements that it has consumed: the flags that it clears are
those of their numbers. The device may complete chains before each test of the loop; `arrivals`
lists them by test. -/
def usedBufferNotify : ℕ → List (List Completion) → Rings → Option (List VirtqUsedElem × Rings)
  | 0, _, _ => none
  | fuel + 1, arrivals, r =>
    if (r.completeAll (arrivals.headD [])).last_seen_used_idx ≠
        (r.completeAll (arrivals.headD [])).used_idx then
      (usedBufferNotify fuel arrivals.tail (r.completeAll (arrivals.headD [])).consume).map
        fun x => ((r.completeAll (arrivals.headD [])).element :: x.1, x.2)
    else some ([], r.completeAll (arrivals.headD []))

/-- The chains that the device completes from one call to the end of the next: some before the call,
others while it runs. At most 32 are outstanding. -/
structure Round where
  before : List Completion
  arrivals : List (List Completion)
  outstanding : before.length + arrivals.flatten.length ≤ queue_buffer_size

/-- The chains that the device completes up to the last test of a call that consumes `k` elements. -/
def Round.added (d : Round) (k : ℕ) : List Completion := d.before ++ (d.arrivals.take (k + 1)).flatten

/-- A call and what the device does around it. -/
def Next (r r' : Rings) : Prop :=
  ∃ (d : Round) (fuel : ℕ) (consumed : List VirtqUsedElem),
    usedBufferNotify fuel d.arrivals (r.completeAll d.before) = some (consumed, r')

abbrev Reached (r : Rings) : Prop := Reachable (· = zero) Next r

variable {r r' : Rings} {cs pending : List Completion} {arrivals : List (List Completion)}
  {consumed : List VirtqUsedElem} {fuel base : ℕ}

/-! ## Counters -/

/-- The counter of the device agrees with the run, and that of the driver is a `uint32_t`. -/
structure Counted (r : Rings) : Prop where
  used_idx : r.used_idx = r.used.length % 2 ^ 16
  seen_lt : r.last_seen_used_idx < 2 ^ 32

theorem completeAll_cons (r : Rings) (c : Completion) (cs : List Completion) :
    r.completeAll (c :: cs) = (r.complete c.chain c.len).completeAll cs := rfl

@[simp] theorem completeAll_seen (r : Rings) (cs : List Completion) :
    (r.completeAll cs).last_seen_used_idx = r.last_seen_used_idx := by
  induction cs generalizing r with
  | nil => rfl
  | cons c cs ih => exact ih _

@[simp] theorem completeAll_used (r : Rings) (cs : List Completion) :
    (r.completeAll cs).used = r.used ++ cs.map Completion.chain := by
  induction cs generalizing r with
  | nil => simp [completeAll]
  | cons c cs ih =>
    rw [completeAll_cons, ih]
    simp [complete]

theorem Counted.complete (h : Counted r) (c : Completion) :
    Counted (r.complete c.chain c.len) where
  used_idx := by
    simp only [Rings.complete, h.used_idx, List.length_append, List.length_singleton]
    omega
  seen_lt := h.seen_lt

theorem Counted.completeAll (h : Counted r) (cs : List Completion) : Counted (r.completeAll cs) := by
  induction cs generalizing r with
  | nil => exact h
  | cons c cs ih => exact ih (h.complete c)

theorem Counted.consume (h : Counted r) : Counted r.consume where
  used_idx := h.used_idx
  seen_lt := Nat.mod_lt _ (by decide)

theorem length_take_flatten (arrivals : List (List Completion)) (k : ℕ) :
    (arrivals.take (k + 1)).flatten = arrivals.headD [] ++ (arrivals.tail.take k).flatten := by
  cases arrivals <;> simp

/-- A call sees what the device adds before its last test. -/
theorem notify_used (hr : usedBufferNotify fuel arrivals r = some (consumed, r')) :
    r'.used.length = r.used.length + (arrivals.take (consumed.length + 1)).flatten.length := by
  induction fuel generalizing arrivals r consumed with
  | zero => simp [usedBufferNotify] at hr
  | succ fuel ih =>
    rw [usedBufferNotify] at hr
    split at hr
    · obtain ⟨⟨consumed', r''⟩, hrec, he⟩ := Option.map_eq_some_iff.mp hr
      obtain ⟨rfl, rfl⟩ := Prod.mk.inj he
      rw [ih hrec, List.length_cons, length_take_flatten arrivals]
      simp only [Rings.consume, completeAll_used, List.length_append, List.length_map]
      omega
    · obtain ⟨rfl, rfl⟩ := Prod.mk.inj (Option.some.inj hr)
      rw [List.length_nil, length_take_flatten]
      simp

/-- What a call does to the counters, whatever it consumes. -/
theorem Counted.notify (h : Counted r)
    (hr : usedBufferNotify fuel arrivals r = some (consumed, r')) :
    Counted r' ∧ r'.last_seen_used_idx = r'.used_idx ∧
      r'.last_seen_used_idx = (r.last_seen_used_idx + consumed.length) % 2 ^ 32 := by
  induction fuel generalizing arrivals r consumed with
  | zero => simp [usedBufferNotify] at hr
  | succ fuel ih =>
    have h₁ := h.completeAll (arrivals.headD [])
    rw [usedBufferNotify] at hr
    split at hr
    · obtain ⟨⟨consumed', r''⟩, hrec, he⟩ := Option.map_eq_some_iff.mp hr
      obtain ⟨rfl, rfl⟩ := Prod.mk.inj he
      obtain ⟨hc, hend, hseen⟩ := ih h₁.consume hrec
      refine ⟨hc, hend, ?_⟩
      rw [hseen]
      simp only [Rings.consume, completeAll_seen, List.length_cons]
      omega
    · next he =>
      obtain ⟨rfl, rfl⟩ := Prod.mk.inj (Option.some.inj hr)
      refine ⟨h₁, not_not.mp he, ?_⟩
      rw [completeAll_seen, List.length_nil, Nat.add_zero, Nat.mod_eq_of_lt h.seen_lt]

/-! ## A call ends -/

/-- The loop ends when the device adds nothing. -/
theorem notify_nil_total {d : ℕ} (h : Counted r)
    (hd : (r.last_seen_used_idx + d) % 2 ^ 32 = r.used_idx) :
    ∃ fuel x, usedBufferNotify fuel [] r = some x := by
  induction d generalizing r with
  | zero =>
    rw [Nat.add_zero, Nat.mod_eq_of_lt h.seen_lt] at hd
    exact ⟨1, _, by rw [usedBufferNotify, if_neg (by simpa [completeAll] using hd)]⟩
  | succ d ih =>
    by_cases he : r.last_seen_used_idx = r.used_idx
    · exact ⟨1, _, by rw [usedBufferNotify, if_neg (by simpa [completeAll] using he)]⟩
    · obtain ⟨fuel, x, hx⟩ := ih h.consume (by
        simp only [Rings.consume]
        rw [← hd]
        omega)
      refine ⟨fuel + 1, (r.element :: x.1, x.2), ?_⟩
      rw [usedBufferNotify, if_pos (by simpa [completeAll] using he)]
      simp only [List.headD_nil, completeAll, List.foldl_nil, List.tail_nil, hx, Option.map_some]

theorem notify_total (h : Counted r) : ∃ fuel x, usedBufferNotify fuel arrivals r = some x := by
  induction arrivals generalizing r with
  | nil =>
    refine notify_nil_total (d := r.used_idx + (2 ^ 32 - r.last_seen_used_idx)) h ?_
    have := h.seen_lt
    have := h.used_idx
    omega
  | cons cs arrivals ih =>
    by_cases he : (r.completeAll cs).last_seen_used_idx = (r.completeAll cs).used_idx
    · exact ⟨1, _, by rw [usedBufferNotify, if_neg (by simpa using he)]⟩
    · obtain ⟨fuel, x, hx⟩ := ih (h.completeAll cs).consume
      refine ⟨fuel + 1, ((r.completeAll cs).element :: x.1, x.2), ?_⟩
      rw [usedBufferNotify, if_pos (by simpa using he)]
      simp only [List.headD_cons, List.tail_cons, hx, Option.map_some]

/-! ## A call that the counter does not wrap in -/

/-- The chains `pending` wait on the used ring; `base` is the multiple of `2 ^ 16` that the counters have
lost. -/
structure Pending (r : Rings) (pending : List Completion) (base : ℕ) : Prop where
  used_idx : r.used_idx = r.used.length % 2 ^ 16
  lost : 2 ^ 16 ∣ base
  seen : base + r.last_seen_used_idx + pending.length = r.used.length
  elements : ringWindow queue_buffer_size r.used_ring r.last_seen_used_idx
    (r.last_seen_used_idx + pending.length) = pending.map Completion.elem

namespace Pending

theorem complete (h : Pending r pending base) (c : Completion)
    (hroom : pending.length < queue_buffer_size) :
    Pending (r.complete c.chain c.len) (pending ++ [c]) base where
  used_idx := by
    simp only [Rings.complete, h.used_idx, List.length_append, List.length_singleton]
    omega
  lost := h.lost
  seen := by
    have := h.seen
    simp only [Rings.complete, List.length_append, List.length_singleton]
    omega
  elements := by
    have hslot : r.used_idx % queue_buffer_size =
        (r.last_seen_used_idx + pending.length) % queue_buffer_size := by
      obtain ⟨m, hm⟩ := h.lost
      rw [h.used_idx, slot, ← h.seen, hm, Nat.add_assoc,
        show 2 ^ 16 * m = queue_buffer_size * (2 ^ 11 * m) from
          Nat.mul_assoc queue_buffer_size (2 ^ 11) m, Nat.mul_add_mod]
    simp only [Rings.complete, List.length_append, List.length_singleton, hslot]
    rw [← Nat.add_assoc, ringWindow_update_push (Nat.le_add_right _ _) (by omega), h.elements]
    simp [Completion.elem]

theorem completeAll (h : Pending r pending base)
    (hroom : pending.length + cs.length ≤ queue_buffer_size) :
    Pending (r.completeAll cs) (pending ++ cs) base := by
  induction cs generalizing r pending with
  | nil => simpa [Rings.completeAll] using h
  | cons c cs ih =>
    rw [List.length_cons] at hroom
    have hc := ih (h.complete c (by omega)) (by
      rw [List.length_append, List.length_singleton]
      omega)
    rwa [List.append_assoc] at hc

theorem consume {c : Completion} (h : Pending r (c :: pending) base)
    (hlt : r.last_seen_used_idx + 1 < 2 ^ 32) :
    r.element = c.elem ∧ Pending r.consume pending base := by
  have hwin := h.elements
  rw [List.length_cons, ringWindow_pop (by omega), List.map_cons] at hwin
  obtain ⟨helem, hrest⟩ := List.cons.inj hwin
  have hnext : r.consume.last_seen_used_idx = r.last_seen_used_idx + 1 := Nat.mod_eq_of_lt hlt
  refine ⟨helem, h.used_idx, h.lost, ?_, ?_⟩
  · have := h.seen
    rw [List.length_cons] at this
    rw [hnext]
    simp only [Rings.consume]
    omega
  · rw [hnext, Nat.add_right_comm, Nat.add_assoc]
    exact hrest

/-- As long as the counter of the device does not wrap, a call consumes the chains that wait and
those that the device adds, each once and in order. -/
theorem notify (h : Pending r pending base)
    (hroom : pending.length + arrivals.flatten.length ≤ queue_buffer_size)
    (hr : usedBufferNotify fuel arrivals r = some (consumed, r'))
    (hwrap : r'.used.length < base + 2 ^ 16) :
    consumed = (pending ++ (arrivals.take (consumed.length + 1)).flatten).map Completion.elem := by
  induction fuel generalizing arrivals r pending consumed with
  | zero => simp [usedBufferNotify] at hr
  | succ fuel ih =>
    have hflat : arrivals.flatten = arrivals.headD [] ++ arrivals.tail.flatten := by
      cases arrivals <;> simp
    rw [hflat, List.length_append] at hroom
    have h₁ : Pending _ (pending ++ arrivals.headD []) base := h.completeAll (by omega)
    -- the counter has not wrapped yet, because it only grows up to the last test
    have hidx : (r.completeAll (arrivals.headD [])).used.length < base + 2 ^ 16 →
        (r.completeAll (arrivals.headD [])).used_idx =
          r.last_seen_used_idx + (pending ++ arrivals.headD []).length := by
      intro hlt
      obtain ⟨m, hm⟩ := h.lost
      have hseen := h₁.seen
      rw [h₁.used_idx]
      rw [completeAll_seen] at hseen
      omega
    rw [usedBufferNotify] at hr
    split at hr
    · next hne =>
      obtain ⟨⟨consumed', r''⟩, hrec, he⟩ := Option.map_eq_some_iff.mp hr
      obtain ⟨rfl, rfl⟩ := Prod.mk.inj he
      dsimp only at hwrap ⊢
      have hgrow := notify_used hrec
      have hbound : (r.completeAll (arrivals.headD [])).used.length < base + 2 ^ 16 := by
        simp only [Rings.consume] at hgrow
        omega
      cases hp : pending ++ arrivals.headD [] with
      | nil =>
        refine absurd ?_ hne
        rw [hidx hbound, hp, completeAll_seen]
        rfl
      | cons c rest =>
        have hlen := congrArg List.length hp
        rw [hp] at h₁
        rw [List.length_append, List.length_cons] at hlen
        have hseen := h₁.seen
        rw [List.length_cons] at hseen
        obtain ⟨helem, hnext⟩ := h₁.consume (by omega)
        have hrest := ih hnext (by omega) hrec
        rw [List.length_cons, length_take_flatten, ← List.append_assoc, hp, helem, List.cons_append,
          List.map_cons, ← hrest]
    · next he =>
      obtain ⟨rfl, rfl⟩ := Prod.mk.inj (Option.some.inj hr)
      have hnil := hidx hwrap
      rw [← not_not.mp he, completeAll_seen] at hnil
      rw [List.length_nil, length_take_flatten, List.take_zero, List.flatten_nil, List.append_nil,
        List.eq_nil_of_length_eq_zero (show (pending ++ arrivals.headD []).length = 0 by omega)]
      rfl

end Pending

/-! ## Runs -/

/-- Between calls the driver has the counter of the device. -/
structure Synced (r : Rings) : Prop where
  used_idx : r.used_idx = r.used.length % 2 ^ 16
  seen : r.last_seen_used_idx = r.used_idx

theorem Synced.counted (h : Synced r) : Counted r where
  used_idx := h.used_idx
  seen_lt := by
    rw [h.seen, h.used_idx]
    omega

theorem Reached.synced (h : Reached r) : Synced r := by
  refine @Reachable.invariant _ _ _ _ Synced h ?_ ?_
  · rintro _ rfl
    exact ⟨rfl, rfl⟩
  · rintro r r' h ⟨d, fuel, consumed, hr⟩
    obtain ⟨hc, hend, -⟩ := (h.counted.completeAll d.before).notify hr
    exact ⟨hc.used_idx, hend⟩

/-- A call ends, and it consumes exactly the chains that the device has added since the call before, each
once and in order, if and only if the number of chains that the device has completed passes no
multiple of `2 ^ 16` between the ends of the two calls. -/
theorem consumes_added (h : Reached r) (d : Round) :
    (∃ fuel x, usedBufferNotify fuel d.arrivals (r.completeAll d.before) = some x) ∧
    ∀ fuel consumed r',
      usedBufferNotify fuel d.arrivals (r.completeAll d.before) = some (consumed, r') →
      (consumed = (d.added consumed.length).map Completion.elem ↔
        r.used.length / 2 ^ 16 = r'.used.length / 2 ^ 16) := by
  have hs := h.synced
  have hc := hs.counted.completeAll d.before
  refine ⟨notify_total hc, fun fuel consumed r' hr => ?_⟩
  obtain ⟨hc', hend, hseen⟩ := hc.notify hr
  have hused := notify_used hr
  rw [completeAll_used, List.length_append, List.length_map] at hused
  have hadded : (d.added consumed.length).length =
      d.before.length + (d.arrivals.take (consumed.length + 1)).flatten.length := by
    simp [Round.added]
  have hsmall := d.outstanding
  have hle : (d.arrivals.take (consumed.length + 1)).flatten.length ≤ d.arrivals.flatten.length := by
    have happ := congrArg (fun l => l.flatten.length)
      (List.take_append_drop (consumed.length + 1) d.arrivals)
    simp only [List.flatten_append, List.length_append] at happ
    omega
  have hsize : queue_buffer_size = 32 := rfl
  rw [completeAll_seen, hs.seen, hs.used_idx] at hseen
  rw [hc'.used_idx] at hend
  constructor
  · intro he
    have hlen := congrArg List.length he
    rw [List.length_map, hadded] at hlen
    omega
  · intro hwrap
    have hpending : Pending r [] (r.used.length / 2 ^ 16 * 2 ^ 16) := by
      refine ⟨hs.used_idx, Nat.dvd_mul_left _ _, ?_, by simp⟩
      rw [hs.seen, hs.used_idx, List.length_nil]
      omega
    have hall := @Pending.completeAll _ d.before _ _ hpending (by
      rw [List.length_nil]
      omega)
    exact hall.notify (by simpa using d.outstanding) hr (by omega)

/-- The first call of a run, with one chain. -/
theorem consumes_added_first : ∃ fuel consumed r', usedBufferNotify fuel []
    (zero.completeAll [⟨⟨0, 3⟩, 513⟩]) = some (consumed, r') ∧ consumed = [⟨3, 513⟩] := by
  let d : Round := ⟨[⟨⟨0, 3⟩, 513⟩], [], by decide⟩
  obtain ⟨-, hall⟩ := consumes_added (Reachable.start rfl) d
  refine ⟨2, _, _, rfl, (hall 2 _ _ rfl).mpr ?_⟩
  decide

/-- Rounds of 32 chains each. -/
theorem exists_reached (k : ℕ) : ∃ r, Reached r ∧ r.used.length = 32 * k := by
  induction k with
  | zero => exact ⟨zero, .start rfl, rfl⟩
  | succ k ih =>
    obtain ⟨r, h, hlen⟩ := ih
    let d : Round := ⟨List.replicate 32 ⟨⟨0, 0⟩, 0⟩, [], by decide⟩
    obtain ⟨fuel, ⟨consumed, r'⟩, hr⟩ :=
      @notify_total _ d.arrivals (h.synced.counted.completeAll d.before)
    refine ⟨r', .step h ⟨d, fuel, consumed, hr⟩, ?_⟩
    have hused := notify_used hr
    have hbefore : d.before.length = 32 := List.length_replicate
    have hnone : (d.arrivals.take (consumed.length + 1)).flatten.length = 0 := rfl
    rw [completeAll_used, List.length_append, List.length_map, hnone, hbefore] at hused
    omega

/-- When the device has completed 65504 chains and completes 32 more, the call consumes 4294901792
elements. -/
theorem consumes_stale : ∃ r, Reached r ∧ ∃ (d : Round) (fuel : ℕ) (consumed : List VirtqUsedElem)
    (r' : Rings), usedBufferNotify fuel d.arrivals (r.completeAll d.before) = some (consumed, r') ∧
      (d.added consumed.length).length = 32 ∧ 4294901792 ≤ consumed.length := by
  obtain ⟨r, h, hlen⟩ := exists_reached 2047
  let d : Round := ⟨List.replicate 32 ⟨⟨0, 0⟩, 0⟩, [], by decide⟩
  have hs := h.synced
  obtain ⟨fuel, ⟨consumed, r'⟩, hr⟩ :=
    @notify_total _ d.arrivals (hs.counted.completeAll d.before)
  obtain ⟨hc', hend, hseen⟩ := (hs.counted.completeAll d.before).notify hr
  have hused := notify_used hr
  have hbefore : d.before.length = 32 := List.length_replicate
  have hnone : (d.arrivals.take (consumed.length + 1)).flatten = [] := rfl
  refine ⟨r, h, d, fuel, consumed, r', hr, ?_, ?_⟩
  · rw [Round.added, hnone, List.append_nil, hbefore]
  · rw [completeAll_used, List.length_append, List.length_map, hnone, hbefore,
      List.length_nil] at hused
    rw [completeAll_seen, hs.seen, hs.used_idx] at hseen
    rw [hc'.used_idx] at hend
    omega

end Rings

end OrangeOs.Driver
