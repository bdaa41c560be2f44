import Mathlib.Algebra.Group.Nat.Defs
import OrangeOs.Library.Ring

/-! # The rings of a virtqueue

The rings of a queue of a virtio device, from `driver/virtio.h`, with the counters of both sides.
The driver makes the head of a chain available, the device fetches it and puts it on the used ring
when it has worked it off, and the driver consumes it there.
-/

namespace OrangeOs.Driver

abbrev queue_buffer_size : ℕ := 32

structure VirtqUsedElem where
  id : ℕ
  len : ℕ
  deriving DecidableEq

/-- A chain that the driver has made available, by its number in the order in which the driver did so
and the descriptor that it starts with. -/
structure Chain where
  number : ℕ
  head : ℕ
  deriving DecidableEq

/-- The two rings of a queue with the counters of both sides. The device keeps `last_avail_idx` and the
chains that it has fetched and not used yet; `posted`, `fetched` and `used` are not in the
source and record the run. -/
structure Rings where
  avail_ring : ℕ → ℕ
  avail_idx : ℕ
  used_ring : ℕ → VirtqUsedElem
  used_idx : ℕ
  last_seen_used_idx : ℕ
  last_avail_idx : ℕ
  outstanding : List Chain
  posted : ℕ
  fetched : ℕ
  used : List Chain

namespace Rings

/-- The rings in zeroed memory. -/
def zero : Rings where
  avail_ring _ := 0
  avail_idx := 0
  used_ring _ := ⟨0, 0⟩
  used_idx := 0
  last_seen_used_idx := 0
  last_avail_idx := 0
  outstanding := []
  posted := 0
  fetched := 0
  used := []

/-- The driver writes the slot that `avail.idx` names. -/
def setAvail (r : Rings) (head : ℕ) : Rings :=
  { r with avail_ring := Function.update r.avail_ring (r.avail_idx % queue_buffer_size) head }

/-- `avail.idx += 1`. -/
def advance (r : Rings) : Rings :=
  { r with avail_idx := (r.avail_idx + 1) % 2 ^ 16, posted := r.posted + 1 }

/-- The device fetches a chain. -/
def fetch (r : Rings) : Rings :=
  { r with
    last_avail_idx := (r.last_avail_idx + 1) % 2 ^ 16
    outstanding :=
      r.outstanding ++ [⟨r.fetched, r.avail_ring (r.last_avail_idx % queue_buffer_size)⟩]
    fetched := r.fetched + 1 }

/-- The device puts a chain that it has worked off on the used ring, with the number of bytes
that it has written. -/
def complete (r : Rings) (c : Chain) (len : ℕ) : Rings :=
  { r with
    outstanding := r.outstanding.erase c
    used_ring := Function.update r.used_ring (r.used_idx % queue_buffer_size) ⟨c.head, len⟩
    used_idx := (r.used_idx + 1) % 2 ^ 16
    used := r.used ++ [c] }

/-- The element of the used ring that the driver looks at next. -/
def element (r : Rings) : VirtqUsedElem :=
  r.used_ring (r.last_seen_used_idx % queue_buffer_size)

/-- `last_seen_used_idx_ += 1`. -/
def consume (r : Rings) : Rings :=
  { r with last_seen_used_idx := (r.last_seen_used_idx + 1) % 2 ^ 32 }

/-- What the device can do to a queue. -/
inductive Serves (r : Rings) : Rings → Prop
  | fetch : r.last_avail_idx ≠ r.avail_idx → Serves r r.fetch
  | complete {c : Chain} {len : ℕ} : c ∈ r.outstanding → Serves r (r.complete c len)

/-! ## Who holds a chain -/

variable {r r' : Rings} {c : Chain} {h : ℕ}

/-- The heads of the chains that the device has to work off. -/
def owned (r : Rings) : List ℕ :=
  ringWindow queue_buffer_size r.avail_ring r.fetched r.posted ++ r.outstanding.map Chain.head

/-- The heads of the chains that the driver has to consume. -/
def unseen (r : Rings) : List ℕ := (r.used.drop r.last_seen_used_idx).map Chain.head

/-- The heads of the chains under way. -/
def live (r : Rings) : List ℕ := r.owned ++ r.unseen

/-- The device has to work off this chain. -/
def AtDevice (r : Rings) (c : Chain) : Prop :=
  (r.fetched ≤ c.number ∧ c.number < r.posted ∧
    r.avail_ring (c.number % queue_buffer_size) = c.head) ∨ c ∈ r.outstanding

theorem AtDevice.mem_owned (hc : r.AtDevice c) : c.head ∈ r.owned := by
  rcases hc with ⟨h₁, h₂, h₃⟩ | hc
  · exact List.mem_append_left _ (mem_ringWindow.mpr ⟨_, h₁, h₂, h₃⟩)
  · exact List.mem_append_right _ (List.mem_map_of_mem hc)

/-- The counters of the two sides agree with the run, and the used ring holds the chains that the
driver has to consume. The counter of the driver stands for the number of chains consumed, which it
does as long as the device has used fewer than `2 ^ 16`. -/
structure Counters (r : Rings) : Prop where
  avail_idx : r.avail_idx = r.posted % 2 ^ 16
  last_avail_idx : r.last_avail_idx = r.fetched % 2 ^ 16
  used_idx : r.used_idx = r.used.length % 2 ^ 16
  fetched : r.fetched = r.used.length + r.outstanding.length
  fetched_le : r.fetched ≤ r.posted
  seen_le : r.last_seen_used_idx ≤ r.used.length
  elements : ringWindow queue_buffer_size (fun i => (r.used_ring i).id) r.last_seen_used_idx
    r.used.length = r.unseen

/-- In addition, no chain is under way twice. -/
structure Sound (r : Rings) : Prop extends Counters r where
  nodup : r.live.Nodup
  lt : ∀ h ∈ r.live, h < queue_buffer_size

theorem sound_zero : Sound zero where
  avail_idx := rfl
  last_avail_idx := rfl
  used_idx := rfl
  fetched := rfl
  fetched_le := le_rfl
  seen_le := le_rfl
  elements := rfl
  nodup := List.nodup_nil
  lt _ h := absurd h List.not_mem_nil

/-- A counter names the same slot when it has wrapped. -/
theorem slot (k : ℕ) : k % 2 ^ 16 % queue_buffer_size = k % queue_buffer_size :=
  Nat.mod_mod_of_dvd k (by decide)

@[simp] theorem length_live : r.live.length =
    (r.posted - r.fetched) + r.outstanding.length + (r.used.length - r.last_seen_used_idx) := by
  simp [live, owned, unseen, Nat.add_assoc]

namespace Counters

/-! ## The driver makes a chain available -/

theorem setAvail_ring (hs : Counters r) (h : ℕ) : (r.setAvail h).avail_ring =
    Function.update r.avail_ring (r.posted % queue_buffer_size) h := by
  rw [Rings.setAvail, hs.avail_idx, slot]

theorem setAvail_owned (hs : Counters r) (hroom : r.posted < r.fetched + queue_buffer_size) :
    (r.setAvail h).owned = r.owned := by
  have hw := @ringWindow_update _ queue_buffer_size r.fetched r.posted r.avail_ring h hroom
  rw [owned, owned, hs.setAvail_ring]
  simp only [Rings.setAvail, hw]

theorem setAvail_live (hs : Counters r) (hroom : r.posted < r.fetched + queue_buffer_size) :
    (r.setAvail h).live = r.live := by
  rw [live, live, hs.setAvail_owned hroom]
  rfl

theorem setAvail (hs : Counters r) (h : ℕ) : Counters (r.setAvail h) where
  avail_idx := hs.avail_idx
  last_avail_idx := hs.last_avail_idx
  used_idx := hs.used_idx
  fetched := hs.fetched
  fetched_le := hs.fetched_le
  seen_le := hs.seen_le
  elements := hs.elements

theorem setAvail_atDevice (hs : Counters r) (hroom : r.posted < r.fetched + queue_buffer_size)
    (hc : r.AtDevice c) : (r.setAvail h).AtDevice c := by
  rcases hc with ⟨h₁, h₂, h₃⟩ | hc
  · refine .inl ⟨h₁, h₂, ?_⟩
    rw [hs.setAvail_ring, Function.update_of_ne (ring_slot_ne h₂ (by omega)), h₃]
  · exact .inr hc

theorem advance_owned (hs : Counters r) : r.advance.owned.Perm
    (r.avail_ring (r.posted % queue_buffer_size) :: r.owned) := by
  have hw := @ringWindow_push _ queue_buffer_size _ _ r.avail_ring hs.fetched_le
  simp only [owned, Rings.advance, hw, List.append_assoc]
  exact List.perm_middle

theorem advance_live (hs : Counters r) : r.advance.live.Perm
    (r.avail_ring (r.posted % queue_buffer_size) :: r.live) :=
  hs.advance_owned.append_right _

theorem advance (hs : Counters r) : Counters r.advance where
  avail_idx := by
    simp only [Rings.advance, hs.avail_idx]
    omega
  last_avail_idx := hs.last_avail_idx
  used_idx := hs.used_idx
  fetched := hs.fetched
  fetched_le := Nat.le_succ_of_le hs.fetched_le
  seen_le := hs.seen_le
  elements := hs.elements

theorem advance_new (hs : Counters r) :
    r.advance.AtDevice ⟨r.posted, r.avail_ring (r.posted % queue_buffer_size)⟩ :=
  .inl ⟨hs.fetched_le, Nat.lt_succ_self _, rfl⟩

/-! ## The device works -/

theorem fetch_lt (hs : Counters r) (hne : r.last_avail_idx ≠ r.avail_idx) :
    r.fetched < r.posted := by
  refine lt_of_le_of_ne hs.fetched_le fun he => hne ?_
  rw [hs.last_avail_idx, hs.avail_idx, he]

theorem fetch_outstanding (hs : Counters r) : r.fetch.outstanding =
    r.outstanding ++ [⟨r.fetched, r.avail_ring (r.fetched % queue_buffer_size)⟩] := by
  simp only [fetch, hs.last_avail_idx, slot]

theorem fetch_owned (hs : Counters r) (hne : r.last_avail_idx ≠ r.avail_idx) :
    r.fetch.owned.Perm r.owned := by
  have hw := @ringWindow_pop _ queue_buffer_size _ _ r.avail_ring (hs.fetch_lt hne)
  rw [owned, owned, hs.fetch_outstanding, List.map_append, ← List.append_assoc]
  simp only [fetch, hw, List.map_cons, List.map_nil]
  exact List.perm_append_singleton _ _

theorem complete_owned (hc : c ∈ r.outstanding) (len : ℕ) :
    r.owned.Perm (c.head :: (r.complete c len).owned) := by
  have herase : (r.outstanding.map Chain.head).Perm
      (c.head :: (r.outstanding.erase c).map Chain.head) :=
    (List.perm_cons_erase hc).map _
  exact (herase.append_left _).trans List.perm_middle

theorem complete_unseen (hs : Counters r) (c : Chain) (len : ℕ) :
    (r.complete c len).unseen = r.unseen ++ [c.head] := by
  have hdrop : (r.used ++ [c]).drop r.last_seen_used_idx =
      r.used.drop r.last_seen_used_idx ++ [c] := List.drop_append_of_le_length hs.seen_le
  simp only [unseen, Rings.complete, hdrop, List.map_append, List.map_cons, List.map_nil]

open scoped List in
theorem serves_live (hs : Counters r) (hd : Serves r r') : r'.live.Perm r.live := by
  cases hd with
  | fetch hne => exact (hs.fetch_owned hne).append_right _
  | @complete c len hc =>
    rw [live, live, hs.complete_unseen, ← List.append_assoc]
    calc (r.complete c len).owned ++ r.unseen ++ [c.head]
      _ ~ c.head :: (r.complete c len).owned ++ r.unseen := List.perm_append_singleton _ _
      _ ~ r.owned ++ r.unseen := (complete_owned hc len).symm.append_right _

theorem serves (hs : Counters r) (hroom : r.live.length ≤ queue_buffer_size) (hd : Serves r r') :
    Counters r' := by
  cases hd with
  | fetch hne =>
    exact {
      avail_idx := hs.avail_idx
      last_avail_idx := by
        simp only [fetch, hs.last_avail_idx]
        omega
      used_idx := hs.used_idx
      fetched := by
        simp only [fetch, List.length_append, List.length_singleton, hs.fetched]
        omega
      fetched_le := hs.fetch_lt hne
      seen_le := hs.seen_le
      elements := hs.elements }
  | @complete c len hc =>
    have hpos := List.length_pos_of_mem hc
    exact {
      avail_idx := hs.avail_idx
      last_avail_idx := hs.last_avail_idx
      used_idx := by
        simp only [Rings.complete, List.length_append, List.length_singleton, hs.used_idx]
        omega
      fetched := by
        simp only [Rings.complete, List.length_append, List.length_singleton,
          List.length_erase_of_mem hc, hs.fetched]
        omega
      fetched_le := hs.fetched_le
      seen_le := by
        simp only [Rings.complete, List.length_append]
        exact Nat.le_add_right_of_le hs.seen_le
      elements := by
        have hslot : r.used_idx % queue_buffer_size = r.used.length % queue_buffer_size := by
          rw [hs.used_idx, slot]
        have hring : (fun i => ((r.complete c len).used_ring i).id) = Function.update
            (fun i => (r.used_ring i).id) (r.used.length % queue_buffer_size) c.head := by
          funext i
          simp only [Rings.complete, hslot, Function.update_apply]
          split <;> rfl
        rw [length_live] at hroom
        rw [hring, hs.complete_unseen, ← hs.elements]
        simp only [Rings.complete, List.length_append, List.length_singleton]
        rw [ringWindow_update_push hs.seen_le (by omega)] }

/-- Fetching a chain does not take it away from the device. -/
theorem fetch_atDevice (hs : Counters r) (hc : r.AtDevice c) : r.fetch.AtDevice c := by
  rcases hc with ⟨h₁, h₂, h₃⟩ | hc
  · rcases Nat.eq_or_lt_of_le h₁ with he | hlt
    · refine .inr ?_
      rw [hs.fetch_outstanding, he, h₃]
      simp
    · exact .inl ⟨hlt, h₂, h₃⟩
  · exact .inr (List.mem_append_left _ hc)

theorem complete_atDevice {c' : Chain} {len : ℕ} (hc : r.AtDevice c) (hne : c ≠ c') :
    (r.complete c' len).AtDevice c :=
  hc.imp_right (List.mem_erase_of_ne hne).mpr

/-- The device keeps a chain or uses it. -/
theorem serves_atDevice (hs : Counters r) (hd : Serves r r') (hc : r.AtDevice c) :
    r'.AtDevice c ∨ c ∈ r'.used := by
  cases hd with
  | fetch hne => exact .inl (hs.fetch_atDevice hc)
  | @complete c' len hc' =>
    by_cases he : c = c'
    · exact .inr (by simp [Rings.complete, he])
    · exact .inl (complete_atDevice hc he)

/-! ## The driver consumes a chain -/

theorem seen_lt (hs : Counters r) (hne : r.last_seen_used_idx ≠ r.used_idx)
    (hfew : r.used.length < 2 ^ 16) : r.last_seen_used_idx < r.used.length := by
  refine lt_of_le_of_ne hs.seen_le fun he => hne ?_
  rw [hs.used_idx, Nat.mod_eq_of_lt hfew, he]

theorem consume_seen (hs : Counters r) (hfew : r.used.length < 2 ^ 16) :
    r.consume.last_seen_used_idx = r.last_seen_used_idx + 1 := by
  have := hs.seen_le
  exact Nat.mod_eq_of_lt (by omega)

theorem unseen_consume (hs : Counters r) (hne : r.last_seen_used_idx ≠ r.used_idx)
    (hfew : r.used.length < 2 ^ 16) : r.unseen = r.element.id :: r.consume.unseen := by
  have hlt := hs.seen_lt hne hfew
  have hwin := @ringWindow_pop _ queue_buffer_size _ _ (fun i => (r.used_ring i).id) hlt
  rw [hs.elements, unseen, List.drop_eq_getElem_cons hlt, List.map_cons] at hwin
  rw [unseen, List.drop_eq_getElem_cons hlt, List.map_cons, (List.cons.inj hwin).1, unseen,
    hs.consume_seen hfew]
  rfl

theorem consume_live (hs : Counters r) (hne : r.last_seen_used_idx ≠ r.used_idx)
    (hfew : r.used.length < 2 ^ 16) : r.live.Perm (r.element.id :: r.consume.live) := by
  rw [live, hs.unseen_consume hne hfew]
  exact List.perm_middle

theorem consume (hs : Counters r) (hne : r.last_seen_used_idx ≠ r.used_idx)
    (hfew : r.used.length < 2 ^ 16) : Counters r.consume where
  avail_idx := hs.avail_idx
  last_avail_idx := hs.last_avail_idx
  used_idx := hs.used_idx
  fetched := hs.fetched
  fetched_le := hs.fetched_le
  seen_le := hs.consume_seen hfew ▸ hs.seen_lt hne hfew
  elements := by
    have hlt := hs.seen_lt hne hfew
    have hwin := hs.elements
    rw [ringWindow_pop hlt, hs.unseen_consume hne hfew] at hwin
    rw [hs.consume_seen hfew]
    exact (List.cons.inj hwin).2

end Counters

theorem AtDevice.advance (hc : r.AtDevice c) : r.advance.AtDevice c :=
  hc.imp_left fun ⟨h₁, h₂, h₃⟩ => ⟨h₁, Nat.lt_succ_of_lt h₂, h₃⟩

theorem Serves.used (hd : Serves r r') : r.used <+: r'.used := by
  cases hd with
  | fetch => exact List.prefix_rfl
  | complete => exact List.prefix_append _ _

namespace Sound

theorem length_le (hs : Sound r) : r.live.length ≤ queue_buffer_size :=
  length_le_of_nodup_lt hs.nodup hs.lt

/-- A ring has room for a head that is not under way. -/
theorem room (hs : Sound r) (hnew : h ∉ r.live) (hlt : h < queue_buffer_size) :
    r.posted < r.fetched + queue_buffer_size := by
  have hlen : (h :: r.live).length ≤ queue_buffer_size :=
    length_le_of_nodup_lt (List.nodup_cons.mpr ⟨hnew, hs.nodup⟩)
      (List.forall_mem_cons.mpr ⟨hlt, hs.lt⟩)
  rw [List.length_cons, length_live] at hlen
  have := hs.fetched_le
  omega

theorem setAvail (hs : Sound r) (hroom : r.posted < r.fetched + queue_buffer_size) :
    Sound (r.setAvail h) where
  toCounters := hs.toCounters.setAvail h
  nodup := hs.setAvail_live hroom ▸ hs.nodup
  lt := hs.setAvail_live hroom ▸ hs.lt

theorem advance (hs : Sound r)
    (hnew : r.avail_ring (r.posted % queue_buffer_size) ∉ r.live)
    (hlt : r.avail_ring (r.posted % queue_buffer_size) < queue_buffer_size) :
    Sound r.advance where
  toCounters := hs.toCounters.advance
  nodup := hs.advance_live.nodup_iff.mpr (List.nodup_cons.mpr ⟨hnew, hs.nodup⟩)
  lt a ha := by
    rcases List.mem_cons.mp (hs.advance_live.mem_iff.mp ha) with rfl | ha
    · exact hlt
    · exact hs.lt a ha

theorem serves (hs : Sound r) (hd : Serves r r') : Sound r' where
  toCounters := hs.toCounters.serves hs.length_le hd
  nodup := (hs.serves_live hd).nodup_iff.mpr hs.nodup
  lt a ha := hs.lt a ((hs.serves_live hd).mem_iff.mp ha)

theorem consume (hs : Sound r) (hne : r.last_seen_used_idx ≠ r.used_idx)
    (hfew : r.used.length < 2 ^ 16) : Sound r.consume where
  toCounters := hs.toCounters.consume hne hfew
  nodup := (List.nodup_cons.mp ((hs.consume_live hne hfew).nodup_iff.mp hs.nodup)).2
  lt a ha := hs.lt a ((hs.consume_live hne hfew).mem_iff.mpr (List.mem_cons_of_mem _ ha))

/-- The device has one chain with a head. -/
theorem atDevice_unique {c' : Chain} (hs : Sound r) (hc : c ∈ r.outstanding) (hc' : r.AtDevice c')
    (hh : c'.head = c.head) : c' = c := by
  have howned : r.owned.Nodup := (List.nodup_append.mp hs.nodup).1
  obtain ⟨-, hnodup, hdisj⟩ := List.nodup_append.mp howned
  rcases hc' with ⟨h₁, h₂, h₃⟩ | hc'
  · have hwindow := mem_ringWindow.mpr ⟨_, h₁, h₂, h₃⟩
    exact absurd hh (hdisj _ hwindow _ (List.mem_map_of_mem hc))
  · exact List.inj_on_of_nodup_map hnodup hc' hc hh

/-- The chain that the driver consumes is not under way any more. -/
theorem element_not_live (hs : Sound r) (hne : r.last_seen_used_idx ≠ r.used_idx)
    (hfew : r.used.length < 2 ^ 16) : r.element.id ∉ r.consume.live :=
  (List.nodup_cons.mp ((hs.consume_live hne hfew).nodup_iff.mp hs.nodup)).1

end Sound

end Rings

end OrangeOs.Driver
