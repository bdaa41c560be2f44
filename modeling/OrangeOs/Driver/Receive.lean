import OrangeOs.Driver.Transport

/-! # Receive buffers

The receive queue of `NetDevice` and the event queue of `InputDevice`. `Init` makes 32 buffers
available, and the handler gives a buffer back by moving the index of the available ring. It does
not write the ring, so that the device gets the descriptor that the slot held 32 entries ago,
whichever buffer has been processed.
-/

namespace OrangeOs.Driver

namespace Queue

/-- `mmio_transport` with one buffer, and `trigger_notify`. -/
def post (q : Queue) (req : Buffer) : Option Queue :=
  (q.allocMultiDesc 1).map fun x =>
    if x.1 then
      let q' := x.2.2.setDesc (x.2.1.getD 0 0) (fillDesc req (Device.requestFlag req true) 0)
      { q' with toRings := (q'.setAvail (x.2.1.getD 0 0)).advance }
    else x.2.2

end Queue

/-- `RxBuffer::Data` of all elements of `rx_buffer_`, with `size` 2048, or all elements of
`input_event_`, with `size` 8. -/
def receiveBuffers (size : ℕ) (addr : ℕ → ℕ) : List Buffer :=
  (List.range queue_buffer_size).map fun i => ⟨addr i, size, false⟩

/-- The loop of `Init`. -/
def initReceive (size : ℕ) (addr : ℕ → ℕ) : Option Queue :=
  (receiveBuffers size addr).foldlM Queue.post Queue.zero

/-- The handler is not running, at the test of its loop, or behind the processing of an element. -/
inductive Phase where
  | idle
  | looping
  | recycling
  deriving DecidableEq

/-- The queue, the handler, and the elements that it has processed. -/
structure Receiver where
  queue : Queue
  phase : Phase
  processed : List VirtqUsedElem

namespace Receiver

inductive Act where
  | serve
  | interrupt
  | take
  | recycle
  | leave
  deriving DecidableEq

/-- `DealRxBuffer` with `RecycleRxBuffer`, or `InputDevice::UsedBufferNotify`. -/
inductive Step (s : Receiver) : Act → Receiver → Prop
  | serve {r : Rings} : Rings.Serves s.queue.toRings r →
      Step s .serve { s with queue := { s.queue with toRings := r } }
  | interrupt : s.phase = .idle → Step s .interrupt { s with phase := .looping }
  | take : s.phase = .looping → s.queue.last_seen_used_idx ≠ s.queue.used_idx →
      Step s .take
        { queue := { s.queue with toRings := s.queue.consume }
          phase := .recycling
          processed := s.processed ++ [s.queue.element] }
  | recycle : s.phase = .recycling →
      Step s .recycle { s with
        queue := { s.queue with toRings := s.queue.advance }
        phase := .looping }
  | leave : s.phase = .looping → s.queue.last_seen_used_idx = s.queue.used_idx →
      Step s .leave { s with phase := .idle }

/-- The states after `Init`. -/
def Start (s : Receiver) : Prop :=
  s.phase = .idle ∧ s.processed = [] ∧ ∃ size addr, initReceive size addr = some s.queue

abbrev Reached (s : Receiver) : Prop := Reachable Start (fun s t => ∃ a, Step s a t) s

/-- The condition on steps. The handler takes an element only while the device has returned fewer than
`2 ^ 16` buffers, and when it recycles one, the device has returned the descriptor that the slot
at hand names as often as it was made available. -/
structure Orderly (s : Receiver) (a : Act) : Prop where
  few : a = .take → s.queue.used.length < 2 ^ 16
  returned : a = .recycle →
    (s.queue.used.map Chain.head).count (s.queue.posted % queue_buffer_size) =
      s.queue.posted / queue_buffer_size

abbrev ReachedOrderly (s : Receiver) : Prop :=
  Reachable Start (fun s t => ∃ a, Step s a t ∧ Orderly s a) s

end Receiver

/-! ## `Init` -/

/-- The rings after `k` buffers have been made available. -/
def Rings.started (k : ℕ) : Rings :=
  { Rings.zero with avail_ring := fun j => if j < k then j else 0, avail_idx := k, posted := k }

namespace Queue

variable {q : Queue} {i k : ℕ}

theorem allocDesc_eq (hi : i < queue_buffer_size) (hfree : ¬ q.taken i)
    (hfirst : ∀ j < i, q.taken j) : q.allocDesc = (i, q.mark i) := by
  have hfind : (List.range queue_buffer_size).find? (fun j => ¬ q.taken j) = some i := by
    rw [List.find?_range_eq_some]
    exact ⟨by simpa using hfree, List.mem_range.mpr hi, fun j hj => by simpa using hfirst j hj⟩
  rw [allocDesc, hfind]

theorem post_spec (req : Buffer) (hk : k < queue_buffer_size) (htaken : ∀ j, q.taken j ↔ j < k)
    (hrings : q.toRings = Rings.started k) : ∃ q', q.post req = some q' ∧
      (∀ j, q'.taken j ↔ j < k + 1) ∧ q'.toRings = Rings.started (k + 1) := by
  have halloc : q.allocMultiDesc 1 = some (true, [k], q.mark k) := by
    rw [allocMultiDesc, allocLoop, allocDesc_eq hk (by simp [htaken]) (fun j hj => (htaken j).mpr hj),
      if_neg (show k ≠ noDesc from Nat.ne_of_lt (hk.trans (by decide)))]
    rfl
  refine ⟨_, by rw [post, halloc]; rfl, fun j => ?_, ?_⟩
  · show (q.mark k).taken j ↔ _
    rw [taken_mark, htaken]
    omega
  · show ((q.toRings).setAvail k).advance = _
    rw [hrings]
    have hidx : k % queue_buffer_size = k := Nat.mod_eq_of_lt hk
    have hnext : (k + 1) % 2 ^ 16 = k + 1 := Nat.mod_eq_of_lt (by
      have := hk.trans (show queue_buffer_size < 100 by decide)
      omega)
    simp only [Rings.started, Rings.setAvail, Rings.advance, Rings.zero, hidx, hnext]
    congr 1
    funext j
    by_cases hj : j = k
    · simp [hj]
    · have hlt : j < k + 1 ↔ j < k := by omega
      simp [hj, hlt]

theorem foldlM_post (reqs : List Buffer) (hk : k + reqs.length ≤ queue_buffer_size)
    (htaken : ∀ j, q.taken j ↔ j < k) (hrings : q.toRings = Rings.started k) :
    ∃ q', reqs.foldlM post q = some q' ∧ q'.toRings = Rings.started (k + reqs.length) := by
  induction reqs generalizing q k with
  | nil => exact ⟨q, rfl, hrings⟩
  | cons req reqs ih =>
    rw [List.length_cons] at hk
    obtain ⟨q₁, hq₁, htaken₁, hrings₁⟩ := post_spec req (by omega) htaken hrings
    obtain ⟨q', hq', hrings'⟩ := ih (by omega) htaken₁ hrings₁
    refine ⟨q', ?_, ?_⟩
    · rw [List.foldlM_cons, hq₁]
      exact hq'
    · rw [hrings', List.length_cons]
      congr 1
      omega

end Queue

/-- `Init` makes all buffers available, in order. -/
theorem initReceive_spec (size : ℕ) (addr : ℕ → ℕ) :
    ∃ q, initReceive size addr = some q ∧ q.toRings = Rings.started queue_buffer_size := by
  have hlen : (receiveBuffers size addr).length = queue_buffer_size := by
    simp [receiveBuffers]
  have hzero : ∀ j, Queue.zero.taken j ↔ j < 0 := by
    intro j
    rw [Queue.taken_iff]
    simp [Queue.zero]
  obtain ⟨q, hq, hrings⟩ := Queue.foldlM_post (receiveBuffers size addr) (by omega) hzero rfl
  exact ⟨q, hq, by rw [hrings, hlen, Nat.zero_add]⟩

namespace Receiver

variable {s t : Receiver} {a : Act} {d n : ℕ}

theorem Start.rings (h : Start s) : s.queue.toRings = Rings.started queue_buffer_size := by
  obtain ⟨-, -, size, addr, hq⟩ := h
  obtain ⟨q, hq', hrings⟩ := initReceive_spec size addr
  obtain rfl := Option.some.inj (hq.symm.trans hq')
  exact hrings

/-! ## The invariant -/

/-- The available ring is as `Init` has left it, so the entry with number `m` is descriptor `m % 32`, and
the device has each descriptor at most once. -/
structure Recycled (s : Receiver) : Prop where
  counters : s.queue.Counters
  ring : ∀ j < queue_buffer_size, s.queue.avail_ring j = j
  entries : (s.queue.used.map Chain.head ++ s.queue.owned).Perm
    ((List.range s.queue.posted).map (· % queue_buffer_size))
  nodup : s.queue.owned.Nodup
  posted : s.queue.posted + (if s.phase = .recycling then 1 else 0) =
    queue_buffer_size + s.queue.last_seen_used_idx
  idle : s.phase = .idle → ∀ d < queue_buffer_size, d ∈ s.queue.live

theorem Start.recycled (h : Start s) : Recycled s := by
  have hrings := h.rings
  obtain ⟨hphase, -⟩ := h
  have howned : s.queue.owned = List.range queue_buffer_size := by
    rw [hrings]
    decide
  refine ⟨?_, fun j hj => ?_, ?_, ?_, ?_, fun _ d hd => ?_⟩
  · rw [hrings]
    exact ⟨rfl, rfl, rfl, rfl, Nat.zero_le _, le_rfl, rfl⟩
  · rw [hrings]
    exact if_pos hj
  · rw [howned, hrings]
    decide
  · rw [howned]
    exact List.nodup_range
  · rw [hrings, hphase]
    rfl
  · exact List.mem_append_left _ (howned ▸ List.mem_range.mpr hd)

/-- How often a descriptor has been made available by the first `n` entries. -/
theorem count_entries (n : ℕ) : ((List.range n).map (· % queue_buffer_size)).count
    (n % queue_buffer_size) = n / queue_buffer_size := by
  have hcount : ∀ m d, d < 32 → ((List.range m).map (· % 32)).count d =
      m / 32 + if d < m % 32 then 1 else 0 := by
    intro m d hd
    induction m with
    | zero => simp
    | succ m ih =>
      rw [List.range_succ, List.map_append, List.count_append, ih]
      simp only [List.map_cons, List.map_nil, List.count_singleton, beq_iff_eq]
      split <;> split <;> split <;> omega
  rw [hcount n _ (Nat.mod_lt _ (by decide)), if_neg (lt_irrefl _), Nat.add_zero]

namespace Recycled

theorem length_le (h : Recycled s) : s.queue.live.length ≤ queue_buffer_size := by
  have hp := h.posted
  have hf := h.counters.fetched
  have hle := h.counters.fetched_le
  have hseen := h.counters.seen_le
  rw [Rings.length_live]
  split at hp <;> omega

theorem owned_lt (h : Recycled s) (hd : d ∈ s.queue.owned) : d < queue_buffer_size := by
  have hmem := h.entries.mem_iff.mp (List.mem_append_right _ hd)
  obtain ⟨m, -, rfl⟩ := List.mem_map.mp hmem
  exact Nat.mod_lt _ (by decide)

/-- A descriptor that the device has returned as often as it was made available is not with the
device. -/
theorem not_owned (h : Recycled s)
    (hret : (s.queue.used.map Chain.head).count (s.queue.posted % queue_buffer_size) =
      s.queue.posted / queue_buffer_size) :
    s.queue.posted % queue_buffer_size ∉ s.queue.owned := by
  have hcount := h.entries.count_eq (s.queue.posted % queue_buffer_size)
  rw [List.count_append, hret, count_entries] at hcount
  exact List.count_eq_zero.mp (by omega)

theorem serve (h : Recycled s) {r : Rings} (hr : Rings.Serves s.queue.toRings r) :
    Recycled { s with queue := { s.queue with toRings := r } } where
  counters := h.counters.serves h.length_le hr
  ring := by cases hr <;> exact h.ring
  entries := by
    refine List.Perm.trans ?_ (by cases hr <;> exact h.entries)
    cases hr with
    | fetch hne => exact (h.counters.fetch_owned hne).append_left _
    | @complete c len hc =>
      have ho := Rings.Counters.complete_owned hc len
      have hused : (s.queue.toRings.complete c len).used.map Chain.head =
          s.queue.used.map Chain.head ++ [c.head] := by simp [Rings.complete]
      show List.Perm ((s.queue.toRings.complete c len).used.map Chain.head ++ _) _
      rw [hused, List.append_assoc]
      exact ho.symm.append_left _
  nodup := by
    cases hr with
    | fetch hne => exact (h.counters.fetch_owned hne).nodup_iff.mpr h.nodup
    | complete hc =>
      exact (List.nodup_cons.mp ((Rings.Counters.complete_owned hc _).nodup_iff.mp h.nodup)).2
  posted := by cases hr <;> exact h.posted
  idle hp d hd := (h.counters.serves_live hr).mem_iff.mpr (h.idle hp d hd)

theorem step (h : Recycled s) (hst : Step s a t) (ho : Orderly s a) : Recycled t := by
  cases hst with
  | serve hr => exact h.serve hr
  | interrupt hp =>
    exact ⟨h.counters, h.ring, h.entries, h.nodup, by simpa [hp] using h.posted, by simp⟩
  | take hp hne =>
    have hfew := ho.few rfl
    refine ⟨h.counters.consume hne hfew, h.ring, h.entries, h.nodup, ?_, by simp⟩
    have hposted := h.posted
    rw [if_neg (by simp [hp])] at hposted
    show s.queue.posted + 1 = queue_buffer_size + s.queue.consume.last_seen_used_idx
    rw [h.counters.consume_seen hfew]
    omega
  | recycle hp =>
    have hslot : s.queue.avail_ring (s.queue.posted % queue_buffer_size) =
        s.queue.posted % queue_buffer_size := h.ring _ (Nat.mod_lt _ (by decide))
    have howned : s.queue.advance.owned.Perm
        (s.queue.posted % queue_buffer_size :: s.queue.owned) := by
      rw [← hslot]
      exact h.counters.advance_owned
    refine ⟨h.counters.advance, h.ring, ?_, ?_, ?_, by simp⟩
    · show List.Perm (s.queue.used.map Chain.head ++ s.queue.advance.owned)
        ((List.range (s.queue.posted + 1)).map (· % queue_buffer_size))
      rw [List.range_succ, List.map_append]
      refine (howned.append_left _).trans ?_
      exact List.perm_middle.trans ((h.entries.cons _).trans (List.perm_append_singleton _ _).symm)
    · exact howned.nodup_iff.mpr (List.nodup_cons.mpr ⟨h.not_owned (ho.returned rfl), h.nodup⟩)
    · have hposted := h.posted
      rw [if_pos hp] at hposted
      exact hposted
  | leave hp he =>
    have hposted := h.posted
    rw [if_neg (by simp [hp])] at hposted
    refine ⟨h.counters, h.ring, h.entries, h.nodup, by simpa [hp] using h.posted, fun _ d hd => ?_⟩
    -- all buffers that the device has returned have been consumed
    have hlen := h.length_le
    have hfetched := h.counters.fetched
    have hle := h.counters.fetched_le
    have hseen := h.counters.seen_le
    have hidx := h.counters.used_idx
    rw [Rings.length_live] at hlen
    have hsize : queue_buffer_size = 32 := rfl
    have hall : queue_buffer_size ≤ s.queue.owned.length := by
      rw [Rings.owned, List.length_append, length_ringWindow, List.length_map]
      omega
    exact List.mem_append_left _ (mem_of_nodup_lt h.nodup (fun d hd => h.owned_lt hd) hall hd)

end Recycled

/-- When all steps meet the condition, the device never has a descriptor twice, and when the handler
is not running, every buffer is with the device or has been returned and not been looked at. -/
theorem buffers_recycled (h : ReachedOrderly s) :
    s.queue.owned.Nodup ∧
      (s.phase = .idle → ∀ d < queue_buffer_size, d ∈ s.queue.owned ∨ d ∈ s.queue.unseen) := by
  have hr : Recycled s := by
    refine @Reachable.invariant _ _ _ _ Recycled h (fun s hs => hs.recycled) ?_
    rintro s t hs ⟨a, hst, ho⟩
    exact hs.step hst ho
  exact ⟨hr.nodup, fun hp d hd => List.mem_append.mp (hr.idle hp d hd)⟩

/-- A state after `Init` with its rings. -/
theorem exists_start : ∃ bit_map desc, Start
    ⟨{ Rings.started queue_buffer_size with bit_map := bit_map, desc := desc }, .idle, []⟩ := by
  obtain ⟨q, hq, hrings⟩ := initReceive_spec 2048 fun i => 4096 + 2048 * i
  refine ⟨q.bit_map, q.desc, rfl, rfl, _, _, hq.trans ?_⟩
  rw [← hrings]

/-- The device returns buffer 0 and the handler recycles it. -/
theorem buffers_recycled_first : ∃ s : Receiver, s.phase = .idle ∧ s.processed = [⟨0, 60⟩] ∧
    s.queue.owned.Nodup ∧ ∀ d < queue_buffer_size, d ∈ s.queue.owned ∨ d ∈ s.queue.unseen := by
  obtain ⟨bit_map, desc, hs⟩ := exists_start
  let r₀ := Rings.started queue_buffer_size
  let r₁ := r₀.fetch.complete ⟨0, 0⟩ 60
  have h₁ : ReachedOrderly _ := .step (.start hs) ⟨_, .serve (.fetch
    (show r₀.last_avail_idx ≠ r₀.avail_idx by decide)), by simp, by simp⟩
  have h₂ := Reachable.step h₁ ⟨_, .serve (@Rings.Serves.complete _ ⟨0, 0⟩ 60
    (show ⟨0, 0⟩ ∈ r₀.fetch.outstanding by decide)), by simp, by simp⟩
  have h₃ := Reachable.step h₂ ⟨_, .interrupt rfl, by simp, by simp⟩
  have h₄ := Reachable.step h₃ ⟨_, .take rfl
    (show r₁.last_seen_used_idx ≠ r₁.used_idx by decide),
    fun _ => show r₁.used.length < 2 ^ 16 by decide, by simp⟩
  have h₅ := Reachable.step h₄ ⟨_, .recycle rfl, by simp,
    fun _ => show (r₁.used.map Chain.head).count (r₁.posted % queue_buffer_size) =
      r₁.posted / queue_buffer_size by decide⟩
  have h₆ := Reachable.step h₅ ⟨_, .leave rfl rfl, by simp, by simp⟩
  obtain ⟨hnodup, hall⟩ := buffers_recycled h₆
  exact ⟨_, rfl, rfl, hnodup, hall rfl⟩

/-- The device returns buffer 1 first. The handler makes descriptor 0 available, which the device
still has, and buffer 1 is lost. -/
theorem buffers_crossed : ∃ s : Receiver, Reached s ∧ s.phase = .idle ∧ s.processed = [⟨1, 60⟩] ∧
    ¬ s.queue.owned.Nodup ∧ 1 ∉ s.queue.owned ∧ 1 ∉ s.queue.unseen := by
  obtain ⟨bit_map, desc, hs⟩ := exists_start
  let r₀ := Rings.started queue_buffer_size
  let r₁ := r₀.fetch.fetch.complete ⟨1, 1⟩ 60
  let r₂ := r₁.consume.advance
  have h₁ : Reached _ := .step (.start hs)
    ⟨_, .serve (.fetch (show r₀.last_avail_idx ≠ r₀.avail_idx by decide))⟩
  have h₂ := Reachable.step h₁
    ⟨_, .serve (.fetch (show r₀.fetch.last_avail_idx ≠ r₀.fetch.avail_idx by decide))⟩
  have h₃ := Reachable.step h₂ ⟨_, .serve (@Rings.Serves.complete _ ⟨1, 1⟩ 60
    (show ⟨1, 1⟩ ∈ r₀.fetch.fetch.outstanding by decide))⟩
  have h₄ := Reachable.step h₃ ⟨_, .interrupt rfl⟩
  have h₅ := Reachable.step h₄ ⟨_, .take rfl
    (show r₁.last_seen_used_idx ≠ r₁.used_idx by decide)⟩
  have h₆ := Reachable.step h₅ ⟨_, .recycle rfl⟩
  have h₇ := Reachable.step h₆ ⟨_, .leave rfl rfl⟩
  exact ⟨_, h₇, rfl, rfl, show ¬ r₂.owned.Nodup by decide, show 1 ∉ r₂.owned by decide,
    show 1 ∉ r₂.unseen by decide⟩

end Receiver

end OrangeOs.Driver
