import Mathlib.Data.BitVec
import OrangeOs.Driver.Rings

/-! # Virtqueues

A queue with its table of descriptors and the bitmap that the driver keeps of them, from
`driver/virtio.cc` and `driver/virtio.h`.
-/

namespace OrangeOs.Driver

/-- `-1` as a `uint32_t`, the answer of `AllocDesc` when it finds no descriptor. -/
abbrev noDesc : ℕ := 0xffffffff

abbrev VIRTQ_DESC_F_NEXT : BitVec 16 := 1
abbrev VIRTQ_DESC_F_WRITE : BitVec 16 := 2
abbrev VIRTQ_DESC_F_INDIRECT : BitVec 16 := 4

structure VirtqDesc where
  addr : ℕ := 0
  len : ℕ := 0
  flags : BitVec 16 := 0
  next : ℕ := 0
  deriving DecidableEq

/-- A buffer of a request: its address, its size, and whether the device only reads it. -/
structure Buffer where
  addr : ℕ
  size : ℕ
  const : Bool
  deriving DecidableEq

/-- A queue with the bitmap that the driver keeps of its descriptors. -/
structure Queue extends Rings where
  bit_map : ℕ → BitVec 8
  desc : ℕ → VirtqDesc

def fillDesc (req : Buffer) (flag : BitVec 16) (next : ℕ) : VirtqDesc where
  addr := req.addr
  len := req.size % 2 ^ 32
  flags := flag
  next := if flag &&& VIRTQ_DESC_F_NEXT ≠ 0 then next % 2 ^ 16 else 0

namespace Queue

/-- A queue in zeroed memory. -/
def zero : Queue := { Rings.zero with bit_map := fun _ => 0, desc := fun _ => {} }

/-! ## Descriptors -/

/-- The bit of a descriptor. -/
def taken (q : Queue) (i : ℕ) : Prop := q.bit_map (i / 8) &&& (1#8 <<< (i % 8)) ≠ 0

instance (q : Queue) (i : ℕ) : Decidable (q.taken i) := inferInstanceAs (Decidable (_ ≠ _))

/-- Sets the bit of a descriptor. -/
def mark (q : Queue) (i : ℕ) : Queue :=
  { q with bit_map := Function.update q.bit_map (i / 8) (q.bit_map (i / 8) ||| (1#8 <<< (i % 8))) }

/-- Clears the bit of a descriptor and zeroes it. -/
def wipe (q : Queue) (i : ℕ) : Queue :=
  { q with
    bit_map := Function.update q.bit_map (i / 8) (q.bit_map (i / 8) &&& ~~~(1#8 <<< (i % 8)))
    desc := Function.update q.desc i {} }

def allocDesc (q : Queue) : ℕ × Queue :=
  match (List.range queue_buffer_size).find? fun i => ¬ q.taken i with
  | some i => (i, q.mark i)
  | none => (noDesc, q)

/-- `FreeDesc`, which panics on a descriptor that does not exist or is not in use. -/
def freeDesc (q : Queue) (desc_index : ℕ) : Option Queue :=
  if queue_buffer_size ≤ desc_index then none
  else if ¬ q.taken desc_index then none
  else some (q.wipe desc_index)

def freeDescs (q : Queue) (desc_list : List ℕ) : Option Queue := desc_list.foldlM freeDesc q

/-- The loop of `AllocMultiDesc`, with the descriptors that it has and the number that it still
needs. -/
def allocLoop : ℕ → List ℕ → Queue → Option (Bool × List ℕ × Queue)
  | 0, descs, q => some (true, descs, q)
  | n + 1, descs, q =>
    if q.allocDesc.1 = noDesc then
      (q.allocDesc.2.freeDescs descs).map fun q' => (false, descs ++ [noDesc], q')
    else allocLoop n (descs ++ [q.allocDesc.1]) q.allocDesc.2

/-- `AllocMultiDesc`: whether it got all descriptors, and the descriptors that it has stored. -/
def allocMultiDesc (q : Queue) (n : ℕ) : Option (Bool × List ℕ × Queue) := allocLoop n [] q

/-- Writes a descriptor. -/
def setDesc (q : Queue) (i : ℕ) (d : VirtqDesc) : Queue :=
  { q with desc := Function.update q.desc i d }

/-! ## What the operations on descriptors do -/

variable {q q' : Queue} {i j k n : ℕ} {descs l : List ℕ}

theorem and_bit_ne_zero (b : BitVec 8) (k : ℕ) : b &&& (1#8 <<< k) ≠ 0 ↔ b.getLsbD k = true := by
  have hbit : b &&& (1#8 <<< k) = BitVec.twoPow 8 k &&& b := by
    rw [BitVec.twoPow, BitVec.and_comm]
  rw [hbit, BitVec.twoPow_and]
  cases hb : b.getLsbD k
  · simp
  · have hk : k < 8 := BitVec.lt_of_getLsbD hb
    have : BitVec.twoPow 8 k ≠ 0 := by
      intro h
      have := congrArg (BitVec.getLsbD · k) h
      simp [hk] at this
    simpa using this

theorem taken_iff : q.taken i ↔ (q.bit_map (i / 8)).getLsbD (i % 8) = true :=
  and_bit_ne_zero _ _

/-- Two descriptors with the same byte and the same bit are one. -/
theorem eq_of_bit (h : i / 8 = j / 8) (h' : i % 8 = j % 8) : i = j := by omega

@[simp] theorem taken_mark : (q.mark i).taken j ↔ j = i ∨ q.taken j := by
  simp only [taken_iff, mark]
  by_cases hb : j / 8 = i / 8
  · rw [hb, Function.update_self, BitVec.getLsbD_or, Bool.or_eq_true, or_comm]
    refine or_congr_left ⟨fun h => ?_, ?_⟩
    · simp at h
      omega
    · rintro rfl
      simp
      omega
  · have hne : j ≠ i := fun h => hb (h ▸ rfl)
    simp [Function.update_of_ne hb, hne]

@[simp] theorem taken_wipe : (q.wipe i).taken j ↔ j ≠ i ∧ q.taken j := by
  simp only [taken_iff, wipe]
  by_cases hb : j / 8 = i / 8
  · rw [hb, Function.update_self, BitVec.getLsbD_and, Bool.and_eq_true, and_comm]
    refine and_congr_left fun _ => ⟨fun h => ?_, fun h => ?_⟩
    · rintro rfl
      simp at h
    · have : j % 8 ≠ i % 8 := fun h' => h (eq_of_bit hb h')
      simp
      omega
  · have hne : j ≠ i := fun h => hb (h ▸ rfl)
    simp [Function.update_of_ne hb, hne]

theorem allocDesc_cases (q : Queue) :
    (q.allocDesc = (noDesc, q) ∧ ∀ i < queue_buffer_size, q.taken i) ∨
    ∃ i < queue_buffer_size, ¬ q.taken i ∧ q.allocDesc = (i, q.mark i) := by
  unfold allocDesc
  split
  · next i hi =>
    have hlt := List.mem_of_find?_eq_some hi
    exact .inr ⟨i, List.mem_range.mp hlt, by simpa using List.find?_some hi, rfl⟩
  · next hnone =>
    refine .inl ⟨rfl, fun i hi => ?_⟩
    simpa using List.find?_eq_none.mp hnone i (List.mem_range.mpr hi)

/-- `q'` is `q` after `descs` have been freed. -/
structure Freed (q : Queue) (descs : List ℕ) (q' : Queue) : Prop where
  taken : ∀ j, q'.taken j ↔ j ∉ descs ∧ q.taken j
  desc : ∀ j, q'.desc j = if j ∈ descs then {} else q.desc j
  rest : q'.toRings = q.toRings

theorem freeDescs_cons (q : Queue) (i : ℕ) (descs : List ℕ) :
    q.freeDescs (i :: descs) = (q.freeDesc i).bind fun q' => q'.freeDescs descs := rfl

/-- Freeing does not look at the rings. -/
theorem freeDescs_rings (r : Rings) (h : q.freeDescs descs = some q') :
    Queue.freeDescs { q with toRings := r } descs = some { q' with toRings := r } := by
  induction descs generalizing q with
  | nil =>
    obtain rfl : q = q' := Option.some.inj h
    rfl
  | cons i descs ih =>
    rw [freeDescs_cons, Option.bind_eq_some_iff] at h ⊢
    obtain ⟨q₁, h₁, h₂⟩ := h
    refine ⟨{ q₁ with toRings := r }, ?_, ih h₂⟩
    unfold freeDesc at h₁ ⊢
    split at h₁
    · simp at h₁
    · next hlt =>
      split at h₁
      · simp at h₁
      · next htaken =>
        obtain rfl : q.wipe i = q₁ := Option.some.inj h₁
        rw [if_neg hlt]
        exact if_neg htaken

theorem freeDescs_spec (h : q.freeDescs descs = some q') : Freed q descs q' := by
  induction descs generalizing q with
  | nil =>
    obtain rfl : q = q' := Option.some.inj h
    exact ⟨by simp, by simp, rfl⟩
  | cons i descs ih =>
    rw [freeDescs_cons, Option.bind_eq_some_iff] at h
    obtain ⟨q₁, h₁, h₂⟩ := h
    obtain rfl : q.wipe i = q₁ := by
      unfold freeDesc at h₁
      split at h₁
      · simp at h₁
      · split at h₁
        · simp at h₁
        · exact Option.some.inj h₁
    obtain ⟨htaken, hdesc, hrest⟩ := ih h₂
    refine ⟨fun j => ?_, fun j => ?_, hrest⟩
    · rw [htaken, taken_wipe]
      simp only [List.mem_cons, not_or]
      tauto
    · rw [hdesc]
      by_cases hji : j = i
      · simp [hji, wipe]
      · simp [hji, wipe]

theorem freeDescs_total (hnodup : descs.Nodup)
    (h : ∀ d ∈ descs, d < queue_buffer_size ∧ q.taken d) : ∃ q', q.freeDescs descs = some q' := by
  induction descs generalizing q with
  | nil => exact ⟨q, rfl⟩
  | cons i descs ih =>
    obtain ⟨hlt, htaken⟩ := h i (by simp)
    rw [List.nodup_cons] at hnodup
    obtain ⟨q', hq'⟩ := ih (q := q.wipe i) hnodup.2 fun d hd => by
      obtain ⟨h₁, h₂⟩ := h d (by simp [hd])
      exact ⟨h₁, taken_wipe.mpr ⟨fun he => hnodup.1 (he ▸ hd), h₂⟩⟩
    refine ⟨q', ?_⟩
    rw [freeDescs_cons, freeDesc, if_neg (by omega), if_neg (by simpa using htaken)]
    exact hq'

/-- `q'` is `q` with `descs` in use as well. -/
structure Allocated (q : Queue) (descs : List ℕ) (q' : Queue) : Prop where
  nodup : descs.Nodup
  fresh : ∀ d ∈ descs, d < queue_buffer_size ∧ ¬ q.taken d
  taken : ∀ j, q'.taken j ↔ j ∈ descs ∨ q.taken j
  rest : q'.toRings = q.toRings
  desc : q'.desc = q.desc

namespace Allocated

theorem nil (q : Queue) : Allocated q [] q := ⟨by simp, by simp, by simp, rfl, rfl⟩

theorem snoc (h : Allocated q descs q') (hi : i < queue_buffer_size) (hfree : ¬ q'.taken i) :
    Allocated q (descs ++ [i]) (q'.mark i) := by
  obtain ⟨hmem, hold⟩ := not_or.mp fun hj => hfree ((h.taken i).mpr hj)
  refine ⟨?_, fun d hd => ?_, fun j => ?_, h.rest, h.desc⟩
  · rw [← List.concat_eq_append, List.nodup_concat]
    exact ⟨hmem, h.nodup⟩
  · rcases List.mem_append.mp hd with hd | hd
    · exact h.fresh d hd
    · obtain rfl := List.mem_singleton.mp hd
      exact ⟨hi, hold⟩
  · rw [taken_mark, h.taken, List.mem_append, List.mem_singleton]
    tauto

/-- Giving up an allocation. -/
theorem undo (h : Allocated q descs q') : ∃ q'', q'.freeDescs descs = some q'' ∧
    (∀ j, q''.taken j ↔ q.taken j) ∧ (∀ j ∉ descs, q''.desc j = q.desc j) ∧
    q''.toRings = q.toRings := by
  obtain ⟨q'', hq''⟩ := freeDescs_total h.nodup fun d hd =>
    ⟨(h.fresh d hd).1, (h.taken d).mpr (.inl hd)⟩
  have hfreed := freeDescs_spec hq''
  refine ⟨_, hq'', fun j => ?_, fun j hj => ?_, hfreed.rest.trans h.rest⟩
  · rw [hfreed.taken, h.taken]
    constructor
    · tauto
    · exact fun hj => ⟨fun hmem => (h.fresh j hmem).2 hj, .inr hj⟩
  · rw [hfreed.desc, if_neg hj, h.desc]

end Allocated

/-- What `AllocMultiDesc` can do. It fails when it has taken the descriptors `got`, fewer than it needs,
and all others are in use; it gives them back. -/
inductive AllocResult (q : Queue) (n : ℕ) : Bool × List ℕ × Queue → Prop
  | done {descs : List ℕ} {q' : Queue} : Allocated q descs q' → descs.length = n →
      AllocResult q n (true, descs, q')
  | fail {got : List ℕ} {q' : Queue} : got.length < n →
      (∀ i < queue_buffer_size, i ∈ got ∨ q.taken i) → (∀ j ∈ got, ¬ q.taken j) →
      (∀ j, q'.taken j ↔ q.taken j) → (∀ j ∉ got, q'.desc j = q.desc j) →
      q'.toRings = q.toRings → AllocResult q n (false, got ++ [noDesc], q')

theorem allocLoop_spec (h : Allocated q descs q') :
    ∃ r, allocLoop n descs q' = some r ∧ AllocResult q (descs.length + n) r := by
  induction n generalizing descs q' with
  | zero => exact ⟨_, rfl, .done h rfl⟩
  | succ n ih =>
    rcases q'.allocDesc_cases with ⟨he, hall⟩ | ⟨i, hi, hfree, he⟩
    · obtain ⟨q'', hfree, htaken, hdesc, hq''⟩ := h.undo
      refine ⟨(false, descs ++ [noDesc], q''), ?_, .fail (by omega) (fun i hi => ?_)
        (fun j hj => (h.fresh j hj).2) htaken hdesc hq''⟩
      · simp [allocLoop, he, hfree]
      · exact (h.taken i).mp (hall i hi)
    · obtain ⟨r, hr, hres⟩ := ih (h.snoc hi hfree)
      refine ⟨r, ?_, ?_⟩
      · rw [allocLoop, he, if_neg (show i ≠ noDesc from Nat.ne_of_lt (hi.trans (by decide)))]
        exact hr
      · rwa [List.length_append, List.length_singleton, Nat.add_assoc, Nat.add_comm 1] at hres

theorem allocMultiDesc_spec (q : Queue) (n : ℕ) :
    ∃ r, q.allocMultiDesc n = some r ∧ AllocResult q n r := by
  have h := @allocLoop_spec q q n [] (Allocated.nil q)
  rwa [List.length_nil, Nat.zero_add] at h

/-- The number of descriptors that are not in use. -/
def free (q : Queue) : ℕ := ((List.range queue_buffer_size).filter fun i => ¬ q.taken i).length

/-- `AllocMultiDesc` gets its descriptors if there are enough. -/
theorem AllocResult.done_of_free {r : Bool × List ℕ × Queue} (h : AllocResult q n r)
    (hfree : n ≤ q.free) : r.1 = true := by
  cases h with
  | done => rfl
  | @fail got q' hlen hall hgot =>
    have hsub : (List.range queue_buffer_size).filter (fun i => ¬ q.taken i) ⊆ got := by
      intro i hi
      obtain ⟨hlt, htaken⟩ := List.mem_filter.mp hi
      exact (hall i (List.mem_range.mp hlt)).resolve_right (by simpa using htaken)
    have hle := (List.nodup_range.filter _).subperm hsub |>.length_le
    rw [free] at hfree
    omega

end Queue

end OrangeOs.Driver
