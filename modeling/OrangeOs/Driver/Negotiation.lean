import OrangeOs.Driver.Rings
import OrangeOs.Kernel.PageAllocator
import OrangeOs.Library.Dialogue

/-! # Setting up a device

`mmio_negotiater` and `Validate`, from `driver/negotiater_mmio.h` and `driver/virtio.cc`: the driver looks
whether the device is the one it wants, agrees with it on features and gives it its queues. A protocol says
in which order that must happen. The driver keeps to it with every device, whatever the registers of the
device hold.
-/

namespace OrangeOs.Driver

open Kernel VirtualMemory
open Prog hiding ret

/-! ## The registers -/

namespace mmio_addr

abbrev MagicValue : ℕ := 0x000
abbrev Version : ℕ := 0x004
abbrev DeviceID : ℕ := 0x008
abbrev VendorID : ℕ := 0x00c
abbrev DeviceFeatures : ℕ := 0x010
abbrev DeviceFeaturesSel : ℕ := 0x014
abbrev DriverFeatures : ℕ := 0x020
abbrev DriverFeaturesSel : ℕ := 0x024
abbrev GuestPageSize : ℕ := 0x028
abbrev QueueSel : ℕ := 0x030
abbrev QueueNumMax : ℕ := 0x034
abbrev QueueNum : ℕ := 0x038
abbrev QueueAlign : ℕ := 0x03c
abbrev QueuePFN : ℕ := 0x040
abbrev Status : ℕ := 0x070

end mmio_addr

abbrev Word := BitVec 32

namespace status_field

abbrev ACKNOWLEDGE : Word := 1
abbrev DRIVER : Word := 2
abbrev DRIVER_OK : Word := 4
abbrev FEATURES_OK : Word := 8

end status_field

abbrev magic_num : Word := 0x74726976
abbrev max_queue_num : ℕ := 2

/-- `queue_buffer_size` as a word. -/
abbrev queue_size : Word := .ofNat 32 queue_buffer_size

/-- `device_version::Legacy`. -/
abbrev Legacy : Word := 1

/-- Code that reads and writes the registers of a device. -/
abbrev Mmio := Prog Word Empty

/-! ## The driver -/

/-- `DeviceViaMMIO::Validate` of a device at `addr_` that should have the given number. -/
def validate (addr_ : ℕ) (device_id : Word) : Mmio Bool := do
  let magic ← readSector (addr_ + mmio_addr.MagicValue)
  if magic ≠ magic_num then return false
  else
    let version ← readSector (addr_ + mmio_addr.Version)
    if version ≠ Legacy then return false
    else
      let id ← readSector (addr_ + mmio_addr.DeviceID)
      if id ≠ device_id then return false
      else
        let _ ← readSector (addr_ + mmio_addr.VendorID)
        return true

/-- A loop over the expected features: those that the device has are selected. -/
def selectFeatures (feature_bits_low : Word) (expected : List (BitVec 64)) (selected_feat : Word) : Word :=
  expected.foldl (fun selected_feat feat =>
    if feature_bits_low &&& feat.setWidth 32 ≠ 0 then selected_feat ||| feat.setWidth 32
    else selected_feat) selected_feat

/-- The loop over `n` queues from `queue_index` on, with the pages of the queues. -/
def setupQueues (addr_ : ℕ) (queue_index : ℕ) (queue : ℕ → ℕ) (v : VirtualMemory) :
    ℕ → Mmio (Bool × (ℕ → ℕ) × VirtualMemory)
  | 0 => return (true, queue, v)
  | n + 1 => do
    writeSector (addr_ + mmio_addr.QueueSel) (.ofNat 32 queue_index)
    let queue_pfn ← readSector (addr_ + mmio_addr.QueuePFN)
    if queue_pfn ≠ 0 then return (false, queue, v)
    else
      let max_queue_buffer ← readSector (addr_ + mmio_addr.QueueNumMax)
      if max_queue_buffer < queue_size then return (false, queue, v)
      else
        writeSector (addr_ + mmio_addr.QueueNum) queue_size
        writeSector (addr_ + mmio_addr.QueueAlign) (.ofNat 32 PGSIZE)
        match v.allocContinuousPage 2 with
        | .error f => fail f
        | .ok (page, v) =>
          if page = 0 then return (false, queue, v)
          else
            writeSector (addr_ + mmio_addr.QueuePFN) (.ofNat 32 (page / PGSIZE))
            if queue_index < max_queue_num then
              setupQueues addr_ (queue_index + 1) (Function.update queue queue_index page) v n
            else fail .outOfBounds

/-- `mmio_negotiater::init`, with `has_init_` and the features that the constructor copied. -/
def negotiate (addr_ : ℕ) (has_init_ : Bool) (independent_feat spec_feat : List (BitVec 64)) (queue_num : ℕ)
    (queue : ℕ → ℕ) (v : VirtualMemory) : Mmio (Bool × (ℕ → ℕ) × VirtualMemory) := do
  if has_init_ then return (false, queue, v)
  else
    writeSector (addr_ + mmio_addr.Status) 0
    let status : Word := 0 ||| status_field.ACKNOWLEDGE
    writeSector (addr_ + mmio_addr.Status) status
    let status := status ||| status_field.DRIVER
    writeSector (addr_ + mmio_addr.Status) status
    writeSector (addr_ + mmio_addr.DeviceFeaturesSel) 0
    let feature_bits_low ← readSector (addr_ + mmio_addr.DeviceFeatures)
    let selected_feat := selectFeatures feature_bits_low independent_feat 0
    let selected_feat := selectFeatures feature_bits_low spec_feat selected_feat
    writeSector (addr_ + mmio_addr.DriverFeaturesSel) 0
    writeSector (addr_ + mmio_addr.DriverFeatures) selected_feat
    writeSector (addr_ + mmio_addr.DeviceFeaturesSel) 1
    let _ ← readSector (addr_ + mmio_addr.DeviceFeatures)
    let status := status ||| status_field.FEATURES_OK
    writeSector (addr_ + mmio_addr.Status) status
    let device_status ← readSector (addr_ + mmio_addr.Status)
    if device_status &&& status_field.FEATURES_OK = 0 then return (false, queue, v)
    else
      writeSector (addr_ + mmio_addr.GuestPageSize) (.ofNat 32 PGSIZE)
      match ← setupQueues addr_ 0 queue v queue_num with
      | (false, queue, v) => return (false, queue, v)
      | (true, queue, v) =>
        writeSector (addr_ + mmio_addr.Status) (status ||| status_field.DRIVER_OK)
        return (true, queue, v)

/-- The first part of the `Init` of a driver. -/
def initDevice (device_id : Word) (independent_feat spec_feat : List (BitVec 64)) (queue_num : ℕ)
    (addr_ : ℕ) (queue : ℕ → ℕ) (v : VirtualMemory) : Mmio (Bool × (ℕ → ℕ) × VirtualMemory) := do
  if ← validate addr_ device_id then
    negotiate addr_ false independent_feat spec_feat queue_num queue v
  else return (false, queue, v)

namespace feature_bit

abbrev VIRTIO_F_NOTIFY_ON_EMPTY : BitVec 64 := .twoPow 64 24
abbrev VIRTIO_F_ANY_LAYOUT : BitVec 64 := .twoPow 64 27
abbrev VIRTIO_F_RING_INDIRECT_DESC : BitVec 64 := .twoPow 64 28
abbrev VIRTIO_BLK_F_SEG_MAX : BitVec 64 := .twoPow 64 2
abbrev VIRTIO_BLK_F_GEOMETRY : BitVec 64 := .twoPow 64 4
abbrev VIRTIO_BLK_F_BLK_SIZE : BitVec 64 := .twoPow 64 6
abbrev VIRTIO_BLK_F_FLUSH : BitVec 64 := .twoPow 64 9
abbrev VIRTIO_BLK_F_TOPOLOGY : BitVec 64 := .twoPow 64 10
abbrev VIRTIO_BLK_F_DISCARD : BitVec 64 := .twoPow 64 13
abbrev VIRTIO_BLK_F_WRITE_ZEROES : BitVec 64 := .twoPow 64 14
abbrev VIRTIO_GPU_F_EDID : BitVec 64 := .twoPow 64 1

end feature_bit

open feature_bit

/-- `BlockDevice::Init` up to the configuration that it reads when the device is set up. -/
def BlockDevice.init : ℕ → (ℕ → ℕ) → VirtualMemory → Mmio (Bool × (ℕ → ℕ) × VirtualMemory) :=
  initDevice 2 [VIRTIO_F_RING_INDIRECT_DESC, VIRTIO_F_NOTIFY_ON_EMPTY]
    [VIRTIO_BLK_F_SEG_MAX, VIRTIO_BLK_F_GEOMETRY, VIRTIO_BLK_F_BLK_SIZE, VIRTIO_BLK_F_FLUSH,
      VIRTIO_BLK_F_TOPOLOGY, VIRTIO_BLK_F_DISCARD, VIRTIO_BLK_F_WRITE_ZEROES] 1

/-- `GPUDevice::Init`, likewise. -/
def GPUDevice.init : ℕ → (ℕ → ℕ) → VirtualMemory → Mmio (Bool × (ℕ → ℕ) × VirtualMemory) :=
  initDevice 16 [VIRTIO_F_NOTIFY_ON_EMPTY, VIRTIO_F_ANY_LAYOUT, VIRTIO_F_RING_INDIRECT_DESC]
    [VIRTIO_GPU_F_EDID] 2

/-! ## The protocol -/

/-- How far the device is set up, as the accesses to its registers show. -/
structure Setup where
  magic : Bool := false
  version : Bool := false
  identified : Bool := false
  status : Word := 0
  featuresSel : Word := 0
  offered : Option Word := none
  driverSel : Word := 0
  agreed : Bool := false
  pageSize : Option Word := none
  selected : Option Word := none
  idle : Bool := false
  max : Word := 0
  num : Word := 0
  queues : List (Word × Word) := []
  deriving DecidableEq

namespace Setup

open mmio_addr

/-- The queues are set up once the features are agreed on. -/
def Agreed (s : Setup) : Prop := s.status = 11 ∧ s.agreed = true

instance (s : Setup) : Decidable s.Agreed := inferInstanceAs (Decidable (_ ∧ _))

/-- The order of the legacy interface: the driver identifies the device and resets it, announces itself,
selects from the features that the device offers, has that confirmed, gives each queue a size and pages
while the queue has none, and only then tells the device to go. -/
def next (device_id : Word) (addr_ : ℕ) (s : Setup) : Access Word → Option Setup
  | .read b v =>
    if b = addr_ + MagicValue then some { s with magic := v = magic_num }
    else if b = addr_ + Version then some { s with version := v = Legacy }
    else if b = addr_ + DeviceID then
      some { s with identified := s.magic && s.version && v = device_id }
    else if b = addr_ + VendorID then some s
    else if b = addr_ + DeviceFeatures then
      some (if s.featuresSel = 0 then { s with offered := some v } else s)
    else if b = addr_ + Status then some { s with agreed := s.status = 11 ∧ v &&& 8 ≠ 0 }
    else if b = addr_ + QueuePFN then some { s with idle := v = 0 }
    else if b = addr_ + QueueNumMax then some { s with max := v }
    else none
  | .write b v =>
    if b = addr_ + Status then
      if s.identified = true ∧ v = 0 then
        some { magic := s.magic, version := s.version, identified := s.identified }
      else if s.identified = true ∧ (s.status = 0 ∧ v = 1 ∨ s.status = 1 ∧ v = 3 ∨
          s.status = 3 ∧ v = 11 ∨ s.Agreed ∧ v = 15) then some { s with status := v }
      else none
    else if b = addr_ + DeviceFeaturesSel ∧ s.status = 3 then some { s with featuresSel := v }
    else if b = addr_ + DriverFeaturesSel ∧ s.status = 3 then some { s with driverSel := v }
    else if b = addr_ + DriverFeatures ∧ s.status = 3 ∧ s.driverSel = 0 ∧
        (s.offered.map fun offered => v &&& offered) = some v then some s
    else if b = addr_ + GuestPageSize ∧ s.Agreed then some { s with pageSize := some v }
    else if b = addr_ + QueueSel ∧ s.Agreed ∧ s.pageSize ≠ none then
      some { s with selected := some v, idle := false, max := 0, num := 0 }
    else if b = addr_ + QueueNum ∧ s.Agreed ∧ s.idle = true ∧ v ≤ s.max then some { s with num := v }
    else if b = addr_ + QueueAlign ∧ s.Agreed ∧ s.idle = true then some s
    else if b = addr_ + QueuePFN ∧ s.Agreed ∧ s.idle = true ∧ s.num ≠ 0 ∧ v ≠ 0 then
      s.selected.bind fun q => if q ∈ s.queues.map Prod.fst then none
        else some { s with idle := false, queues := s.queues ++ [(q, v)] }
    else none

section Allowed

variable {device_id v q : Word} {addr_ : ℕ} {s : Setup}

theorem next_reset (hid : s.identified = true) :
    next device_id addr_ s (.write (addr_ + Status) 0) =
      some { magic := s.magic, version := s.version, identified := s.identified } := by
  simp [next, hid]

theorem next_status (hid : s.identified = true) (hv : s.status = 0 ∧ v = 1 ∨ s.status = 1 ∧ v = 3 ∨
    s.status = 3 ∧ v = 11 ∨ s.Agreed ∧ v = 15) :
    next device_id addr_ s (.write (addr_ + Status) v) = some { s with status := v } := by
  have hne : v ≠ 0 := by
    obtain ⟨-, rfl⟩ | ⟨-, rfl⟩ | ⟨-, rfl⟩ | ⟨-, rfl⟩ := hv <;> decide
  rw [next, if_pos rfl, if_neg fun h => hne h.2, if_pos ⟨hid, hv⟩]

theorem next_deviceFeaturesSel (hs : s.status = 3) :
    next device_id addr_ s (.write (addr_ + DeviceFeaturesSel) v) = some { s with featuresSel := v } := by
  simp [next, hs]

theorem next_driverFeaturesSel (hs : s.status = 3) :
    next device_id addr_ s (.write (addr_ + DriverFeaturesSel) v) = some { s with driverSel := v } := by
  simp [next, hs]

theorem next_read_low (hsel : s.featuresSel = 0) :
    next device_id addr_ s (.read (addr_ + DeviceFeatures) v) = some { s with offered := some v } := by
  simp [next, hsel]

theorem next_read_high (hsel : s.featuresSel ≠ 0) :
    next device_id addr_ s (.read (addr_ + DeviceFeatures) v) = some s := by
  rw [next]
  simp_all

theorem next_driverFeatures (hs : s.status = 3) (hsel : s.driverSel = 0) (hoff : s.offered = some q)
    (hv : v &&& q = v) : next device_id addr_ s (.write (addr_ + DriverFeatures) v) = some s := by
  simp [next, hs, hsel, hoff, hv]

theorem next_read_status :
    next device_id addr_ s (.read (addr_ + Status) v) =
      some { s with agreed := s.status = 11 ∧ v &&& 8 ≠ 0 } := by
  simp [next]

theorem next_guestPageSize (hs : s.Agreed) :
    next device_id addr_ s (.write (addr_ + GuestPageSize) v) = some { s with pageSize := some v } := by
  simp [next, hs]

theorem next_read_queuePFN :
    next device_id addr_ s (.read (addr_ + QueuePFN) v) = some { s with idle := v = 0 } := by
  simp [next]

theorem next_read_queueNumMax :
    next device_id addr_ s (.read (addr_ + QueueNumMax) v) = some { s with max := v } := by
  simp [next]

theorem next_queueSel (hs : s.Agreed) (hpage : s.pageSize ≠ none) :
    next device_id addr_ s (.write (addr_ + QueueSel) v) =
      some { s with selected := some v, idle := false, max := 0, num := 0 } := by
  simp [next, hs, hpage]

theorem next_queueNum (hs : s.Agreed) (hidle : s.idle = true) (hmax : v ≤ s.max) :
    next device_id addr_ s (.write (addr_ + QueueNum) v) = some { s with num := v } := by
  simp [next, hs, hidle, hmax]

theorem next_queueAlign (hs : s.Agreed) (hidle : s.idle = true) :
    next device_id addr_ s (.write (addr_ + QueueAlign) v) = some s := by
  simp [next, hs, hidle]

theorem next_queuePFN (hs : s.Agreed) (hidle : s.idle = true) (hnum : s.num ≠ 0) (hv : v ≠ 0)
    (hsel : s.selected = some q) (hq : q ∉ s.queues.map Prod.fst) :
    next device_id addr_ s (.write (addr_ + QueuePFN) v) =
      some { s with idle := false, queues := s.queues ++ [(q, v)] } := by
  rw [List.mem_map] at hq
  simp_all [next]

end Allowed

/-- The answers of a device that can be set up. -/
def answers (device_id : Word) (addr_ : ℕ) : Access Word → Bool
  | .read b v =>
    if b = addr_ + MagicValue then v = magic_num
    else if b = addr_ + Version then v = Legacy
    else if b = addr_ + DeviceID then v = device_id
    else if b = addr_ + Status then v &&& status_field.FEATURES_OK ≠ 0
    else if b = addr_ + QueuePFN then v = 0
    else if b = addr_ + QueueNumMax then queue_size ≤ v
    else true
  | .write _ _ => true

/-- Such a device. -/
def willing (device_id : Word) (addr_ : ℕ) (b : ℕ) : Word :=
  if b = addr_ + MagicValue then magic_num
  else if b = addr_ + Version then Legacy
  else if b = addr_ + DeviceID then device_id
  else if b = addr_ + Status then status_field.FEATURES_OK
  else if b = addr_ + QueuePFN then 0
  else queue_size

theorem answers_willing (device_id : Word) (addr_ b : ℕ) :
    answers device_id addr_ (.read b (willing device_id addr_ b)) = true := by
  simp only [answers, willing]
  split_ifs <;> first | rfl | exact decide_eq_true rfl

/-- The protocol, and whether all answers so far were those of a device that can be set up. -/
def watch (device_id : Word) (addr_ : ℕ) (s : Setup × Bool) (a : Access Word) : Option (Setup × Bool) :=
  (s.1.next device_id addr_ a).map fun t => (t, s.2 && answers device_id addr_ a)

section Watch

variable {device_id v : Word} {addr_ b : ℕ} {s t : Setup} {g g' : Bool} {as : List (Access Word)}

theorem answers_magicValue :
    answers device_id addr_ (.read (addr_ + MagicValue) v) = decide (v = magic_num) := by
  simp [answers]

theorem answers_version : answers device_id addr_ (.read (addr_ + Version) v) = decide (v = Legacy) := by
  simp [answers]

theorem answers_deviceID :
    answers device_id addr_ (.read (addr_ + DeviceID) v) = decide (v = device_id) := by
  simp [answers]

theorem answers_vendorID : answers device_id addr_ (.read (addr_ + VendorID) v) = true := by
  simp [answers]

theorem answers_deviceFeatures : answers device_id addr_ (.read (addr_ + DeviceFeatures) v) = true := by
  simp [answers]

theorem answers_status : answers device_id addr_ (.read (addr_ + Status) v) =
    decide (v &&& status_field.FEATURES_OK ≠ 0) := by
  simp [answers]

theorem answers_queuePFN : answers device_id addr_ (.read (addr_ + QueuePFN) v) = decide (v = 0) := by
  simp [answers]

theorem answers_queueNumMax :
    answers device_id addr_ (.read (addr_ + QueueNumMax) v) = decide (queue_size ≤ v) := by
  simp [answers]

theorem watch_read (h : next device_id addr_ s (.read b v) = some t) :
    watch device_id addr_ (s, g) (.read b v) = some (t, g && answers device_id addr_ (.read b v)) := by
  rw [watch, h]
  rfl

theorem watch_write (h : next device_id addr_ s (.write b v) = some t) :
    watch device_id addr_ (s, g) (.write b v) = some (t, g) := by
  rw [watch, h, Option.map_some, answers, Bool.and_true]

theorem foldlM_watch (h : as.foldlM (watch device_id addr_) (s, g) = some (t, g')) :
    as.foldlM (next device_id addr_) s = some t ∧ g' = (g && as.all (answers device_id addr_)) := by
  induction as generalizing s g with
  | nil =>
    cases h
    exact ⟨rfl, by simp⟩
  | cons a as ih =>
    rw [List.foldlM_cons] at h ⊢
    cases hn : next device_id addr_ s a with
    | none =>
      rw [watch, hn] at h
      cases h
    | some u =>
      rw [watch, hn] at h
      obtain ⟨hfold, hg⟩ := ih h
      exact ⟨hfold, by rw [hg, List.all_cons, Bool.and_assoc]⟩

end Watch

end Setup

/-! ## Features -/

section Features

variable {low selected : Word} {expected : List (BitVec 64)}

/-- A feature is one bit. -/
def IsFeature (feat : BitVec 64) : Prop := ∃ k, feat = .twoPow 64 k

/-- A bit that is there is all of a feature. -/
theorem IsFeature.and_eq {feat : BitVec 64} (h : IsFeature feat) (hne : low &&& feat.setWidth 32 ≠ 0) :
    feat.setWidth 32 &&& low = feat.setWidth 32 := by
  obtain ⟨k, rfl⟩ := h
  by_cases hlt : k < 32
  · have hset : (BitVec.twoPow 64 k).setWidth 32 = BitVec.twoPow 32 k := by
      ext i hi
      simp only [BitVec.getElem_setWidth, BitVec.getLsbD_twoPow, BitVec.getElem_twoPow]
      grind
    rw [hset, BitVec.and_twoPow] at hne
    rw [hset, BitVec.and_comm, BitVec.and_twoPow]
    split at hne
    · next hbit => rw [if_pos hbit]
    · exact absurd rfl hne
  · have hset : (BitVec.twoPow 64 k).setWidth 32 = 0#32 := by
      ext i hi
      simp only [BitVec.getElem_setWidth, BitVec.getLsbD_twoPow, BitVec.getElem_zero]
      grind
    rw [hset]
    simp

/-- Only features of the device are selected. -/
theorem selectFeatures_and (hexp : ∀ feat ∈ expected, IsFeature feat)
    (hsel : selected &&& low = selected) :
    selectFeatures low expected selected &&& low = selectFeatures low expected selected := by
  induction expected generalizing selected with
  | nil => exact hsel
  | cons feat expected ih =>
    apply ih fun f hf => hexp f (List.mem_cons_of_mem _ hf)
    beta_reduce
    split
    · next hne => rw [BitVec.and_or_distrib_right, hsel, (hexp feat List.mem_cons_self).and_eq hne]
    · exact hsel

end Features

/-! ## Pages for the queues -/

section Queues

variable {beg n m p : ℕ} {queue : ℕ → ℕ} {v v' : VirtualMemory} {L out : List ℕ} {s t : Setup}

/-- The pages of the first `n` queues. -/
def queuePages (queue : ℕ → ℕ) (n : ℕ) : List ℕ :=
  (List.range n).flatMap fun q => [queue q, queue q + PGSIZE]

theorem length_queuePages (queue : ℕ → ℕ) (n : ℕ) : (queuePages queue n).length = 2 * n := by
  simp [queuePages, Nat.mul_comm]

theorem queuePages_update (queue : ℕ → ℕ) (n p : ℕ) :
    queuePages (Function.update queue n p) (n + 1) = queuePages queue n ++ [p, p + PGSIZE] := by
  have hlow : queuePages (Function.update queue n p) n = queuePages queue n := by
    apply List.flatMap_congr
    intro q hq
    rw [Function.update_of_ne (List.mem_range.mp hq).ne]
  rw [← hlow, queuePages, List.range_succ, List.flatMap_append, List.flatMap_singleton,
    Function.update_self]
  rfl

/-- `QueuePFN` is never 0 for a page. -/
theorem pfn_ne_zero (hp : IsPage p) : BitVec.ofNat 32 (p / PGSIZE) ≠ 0 := by
  have hbase := hp.base
  have hlt := hp.lt
  intro h
  have := congrArg BitVec.toNat h
  simp only [PGSIZE, BitVec.ofNat_eq_ofNat, BitVec.toNat_ofNat] at this
  omega

/-- The device was told of the first `n` queues, each of which has two zero pages of its own. -/
structure QueuesPlaced (beg : ℕ) (out : List ℕ) (n : ℕ) (s : Setup) (queue : ℕ → ℕ)
    (v : VirtualMemory) : Prop where
  queues : s.queues = (List.range n).map fun q => (.ofNat 32 q, .ofNat 32 (queue q / PGSIZE))
  accounted : ∃ L, Accounted beg v L (queuePages queue n ++ out)
  zero : ∀ p ∈ queuePages queue n, ZeroPage v.mem p

namespace QueuesPlaced

theorem of_queues (h : QueuesPlaced beg out n s queue v) (ht : t.queues = s.queues) :
    QueuesPlaced beg out n t queue v :=
  ⟨ht.trans h.queues, h.accounted, h.zero⟩

/-- The free pages that are left. -/
theorem size_add (h : QueuesPlaced beg out n s queue v) (h₀ : Accounted beg v' L out) :
    v.size_ + 2 * n = v'.size_ := by
  obtain ⟨L', hL'⟩ := h.accounted
  have := hL'.length_add h₀
  rw [List.length_append, length_queuePages] at this
  rw [hL'.onList.size, h₀.onList.size]
  omega

/-- The next queue is not one that the device was told of. -/
theorem fresh (h : QueuesPlaced beg out n s queue v) (hn : n < 2 ^ 32) :
    BitVec.ofNat 32 n ∉ s.queues.map Prod.fst := by
  rw [h.queues, List.map_map, List.mem_map]
  rintro ⟨q, hq, he⟩
  have hlt := List.mem_range.mp hq
  have := congrArg BitVec.toNat he
  simp only [Function.comp_apply, BitVec.toNat_ofNat] at this
  rw [Nat.mod_eq_of_lt hn, Nat.mod_eq_of_lt (hlt.trans hn)] at this
  exact hlt.ne this

/-- Two free pages for the next queue, or none. -/
theorem alloc (h : QueuesPlaced beg out n s queue v) (hbeg : KERNEL_BASE + 8 * PGSIZE ≤ beg)
    (hsize : 2 < v.size_) :
    v.allocContinuousPage 2 = .ok (0, v) ∨
      ∃ p v', v.allocContinuousPage 2 = .ok (p, v') ∧ p ≠ 0 ∧ BitVec.ofNat 32 (p / PGSIZE) ≠ 0 ∧
        ∀ t : Setup, t.queues = s.queues ++ [(.ofNat 32 n, .ofNat 32 (p / PGSIZE))] →
          QueuesPlaced beg out (n + 1) t (Function.update queue n p) v' := by
  obtain ⟨L, hL⟩ := h.accounted
  obtain hnone | ⟨k, v', L', halloc, hacc, hzero, hsame⟩ :=
    hL.allocContinuousPage_same hbeg (.inr rfl) hsize
  · exact .inl hnone
  · refine .inr ⟨_, v', halloc, ?_, ?_, ?_⟩
    · have : KERNEL_BASE = 2147483648 := rfl
      omega
    · have hmem : k * PGSIZE + KERNEL_BASE ∈ pagesFrom k 2 ++ (queuePages queue n ++ out) :=
        List.mem_append_left _ List.mem_cons_self
      exact pfn_ne_zero ((hacc.out_iff _).mp hmem).1
    · intro t ht
      have hpages : pagesFrom k 2 = [k * PGSIZE + KERNEL_BASE, k * PGSIZE + KERNEL_BASE + PGSIZE] := by
        simp only [pagesFrom, List.range'_succ, List.range'_zero, List.map_cons, List.map_nil]
        grind
      refine ⟨?_, ?_, ?_⟩
      · rw [ht, h.queues, List.range_succ, List.map_append, List.map_singleton, Function.update_self]
        congr 1
        apply List.map_congr_left
        intro q hq
        rw [Function.update_of_ne (List.mem_range.mp hq).ne]
      · refine ⟨L', hacc.perm ?_⟩
        rw [queuePages_update, hpages, ← List.append_assoc]
        exact List.perm_append_comm.append_right out
      · intro c hc
        rw [queuePages_update, ← hpages, List.mem_append] at hc
        rcases hc with hc | hc
        · have hout := (hL.out_iff c).mp (List.mem_append_left _ hc)
          refine (h.zero c hc).of_same hsame hout.1 hL.onList.page fun hmem => ?_
          have hfree := ((hL.free_iff c).mp hmem).2.2
          rw [hout.2.2] at hfree
          exact Bool.noConfusion hfree
        · exact hzero c hc

end QueuesPlaced

end Queues

/-! ## The driver keeps to the protocol -/

section Protocol

variable {device_id selected : Word} {addr_ beg i n queue_num : ℕ}
  {independent_feat spec_feat : List (BitVec 64)}
  {queue : ℕ → ℕ} {v v₀ : VirtualMemory} {L out : List ℕ} {s : Setup} {g : Bool}

/-- The queues that the device was told of when the driver returns `r`, and what it had answered. -/
structure Queued (beg : ℕ) (out : List ℕ) (queue_num : ℕ) (s : Setup) (willing : Bool)
    (r : Bool × (ℕ → ℕ) × VirtualMemory) : Prop where
  placed : ∃ n ≤ queue_num, QueuesPlaced beg out n s r.2.1 r.2.2 ∧ (r.1 = true → n = queue_num)
  answered : r.1 = true → willing = true
  exhausted : r.1 = false → willing = true → r.2.2.allocContinuousPage 2 = .ok (0, r.2.2)

/-- The driver gives up when an answer is not what it needs. -/
theorem Queued.refused (hp : QueuesPlaced beg out n s queue v) (hle : n ≤ queue_num) (hg : g = false) :
    Queued beg out queue_num s g (false, queue, v) :=
  ⟨⟨n, hle, hp, Bool.noConfusion⟩, Bool.noConfusion, fun _ h => by rw [hg] at h; cases h⟩

theorem setupQueues_obeys (h₀ : Accounted beg v₀ L out) (hbeg : KERNEL_BASE + 8 * PGSIZE ≤ beg)
    (hnum : i + n ≤ max_queue_num) (hsize : 2 * (i + n) < v₀.size_) (hid : s.identified = true)
    (hs : s.Agreed) (hpage : s.pageSize ≠ none) (hp : QueuesPlaced beg out i s queue v) (hg : g = true) :
    (setupQueues addr_ i queue v n).Obeys (Setup.watch device_id addr_)
      (fun t r => t.1.identified = true ∧ t.1.Agreed ∧ Queued beg out (i + n) t.1 t.2 r) (s, g) := by
  induction n generalizing i s g queue v with
  | zero => exact ⟨hid, hs, ⟨i, le_rfl, hp, fun _ => rfl⟩, fun _ => hg, Bool.noConfusion⟩
  | succ n ih =>
    have hrem := hp.size_add h₀
    rw [setupQueues]
    refine .andThen_write (Setup.watch_write (Setup.next_queueSel hs hpage)) ?_
    refine .andThen_read fun pfn => ⟨_, Setup.watch_read Setup.next_read_queuePFN, ?_⟩
    refine .ite (fun hpfn => ⟨hid, hs, .refused (hp.of_queues rfl) (by omega) ?_⟩) fun hpfn => ?_
    · rw [Setup.answers_queuePFN, decide_eq_false hpfn, Bool.and_false]
    rw [not_not] at hpfn
    have hidle : decide (pfn = 0) = true := decide_eq_true hpfn
    refine .andThen_read fun max => ⟨_, Setup.watch_read Setup.next_read_queueNumMax, ?_⟩
    refine .ite (fun hmax => ⟨hid, hs, .refused (hp.of_queues rfl) (by omega) ?_⟩) fun hmax => ?_
    · rw [Setup.answers_queueNumMax, decide_eq_false (BitVec.not_le.mpr hmax), Bool.and_false]
    rw [BitVec.not_lt] at hmax
    refine .andThen_write (Setup.watch_write (Setup.next_queueNum hs hidle hmax)) ?_
    refine .andThen_write (Setup.watch_write (Setup.next_queueAlign hs hidle)) ?_
    obtain hnone | ⟨p, v', halloc, hne, hpfn', hplaced⟩ := hp.alloc hbeg (by omega)
    · rw [hnone]
      exact ⟨hid, hs, ⟨i, by omega, hp.of_queues rfl, Bool.noConfusion⟩, Bool.noConfusion,
        fun _ _ => hnone⟩
    · rw [halloc]
      simp only [if_neg hne, if_pos (show i < max_queue_num by omega)]
      have hnum32 : i < 2 ^ 32 := by
        have : max_queue_num = 2 := rfl
        omega
      have hsome : queue_size ≠ 0 := by decide
      refine .andThen_write
        (Setup.watch_write (Setup.next_queuePFN hs hidle hsome hpfn' rfl (hp.fresh hnum32))) ?_
      rw [show i + (n + 1) = i + 1 + n by omega] at hnum hsize ⊢
      refine ih hnum hsize hid hs hpage (hplaced _ rfl) ?_
      rw [hg, Setup.answers_queuePFN, Setup.answers_queueNumMax, decide_eq_true hpfn, decide_eq_true hmax]
      rfl

/-- Only the device that the driver is for is identified. -/
theorem validate_obeys : (validate addr_ device_id).Obeys (Setup.watch device_id addr_)
    (fun t r => t.1.status = 0 ∧ t.1.queues = [] ∧ (r = true → t.1.identified = true) ∧ t.2 = r)
      ({}, true) := by
  rw [validate]
  refine .andThen_read fun magic => ⟨_, Setup.watch_read (by simp [Setup.next]; rfl), ?_⟩
  rw [Setup.answers_magicValue, Bool.true_and]
  refine .ite (fun h => ⟨rfl, rfl, Bool.noConfusion, decide_eq_false h⟩) fun hmagic => ?_
  refine .andThen_read fun version => ⟨_, Setup.watch_read (by simp [Setup.next]; rfl), ?_⟩
  rw [not_not] at hmagic
  rw [Setup.answers_version, decide_eq_true hmagic, Bool.true_and]
  refine .ite (fun h => ⟨rfl, rfl, Bool.noConfusion, decide_eq_false h⟩) fun hversion => ?_
  refine .andThen_read fun id => ⟨_, Setup.watch_read (by simp [Setup.next]; rfl), ?_⟩
  rw [not_not] at hversion
  rw [Setup.answers_deviceID, decide_eq_true hversion, Bool.true_and]
  refine .ite (fun h => ⟨rfl, rfl, Bool.noConfusion, decide_eq_false h⟩) fun hid => ?_
  refine .andThen_read fun vendor => ⟨_, Setup.watch_read (by simp [Setup.next]; rfl), ?_⟩
  rw [not_not] at hid
  rw [Setup.answers_vendorID, decide_eq_true hid, Bool.true_and]
  exact ⟨rfl, rfl, fun _ => by simp [hmagic, hversion], rfl⟩

/-- What the driver has achieved when it returns. -/
structure SetUp (beg : ℕ) (out : List ℕ) (queue_num : ℕ) (s : Setup) (willing : Bool)
    (r : Bool × (ℕ → ℕ) × VirtualMemory) : Prop extends Queued beg out queue_num s willing r where
  status : s.status = 15 ↔ r.1 = true

theorem negotiate_obeys (h₀ : Accounted beg v L out) (hbeg : KERNEL_BASE + 8 * PGSIZE ≤ beg)
    (hnum : queue_num ≤ max_queue_num) (hsize : 2 * queue_num < v.size_)
    (hind : ∀ feat ∈ independent_feat, IsFeature feat) (hspec : ∀ feat ∈ spec_feat, IsFeature feat)
    (hid : s.identified = true) (hg : g = true) :
    (negotiate addr_ false independent_feat spec_feat queue_num queue v).Obeys (Setup.watch device_id addr_)
      (fun t r => SetUp beg out queue_num t.1 t.2 r) (s, g) := by
  have hnone {t : Setup} (ht : t.queues = []) : QueuesPlaced beg out 0 t queue v :=
    ⟨ht, ⟨L, h₀⟩, by simp [queuePages]⟩
  have hhigh : (1 : Word) ≠ 0 := by decide
  have hne : (11 : Word) ≠ 15 := by decide
  rw [negotiate]
  simp only [Bool.false_eq_true, if_false]
  refine .andThen_write (Setup.watch_write (Setup.next_reset hid)) ?_
  refine .andThen_write (Setup.watch_write (Setup.next_status hid (.inl ⟨rfl, rfl⟩))) ?_
  refine .andThen_write (Setup.watch_write (Setup.next_status hid (.inr (.inl ⟨rfl, rfl⟩)))) ?_
  refine .andThen_write (Setup.watch_write (Setup.next_deviceFeaturesSel rfl)) ?_
  refine .andThen_read fun feature_bits_low => ⟨_, Setup.watch_read (Setup.next_read_low rfl), ?_⟩
  refine .andThen_write (Setup.watch_write (Setup.next_driverFeaturesSel rfl)) ?_
  refine .andThen_write (Setup.watch_write (Setup.next_driverFeatures rfl rfl rfl
    (selectFeatures_and hspec (selectFeatures_and hind BitVec.zero_and)))) ?_
  refine .andThen_write (Setup.watch_write (Setup.next_deviceFeaturesSel rfl)) ?_
  refine .andThen_read fun feature_bits_high => ⟨_, Setup.watch_read (Setup.next_read_high hhigh), ?_⟩
  refine .andThen_write (Setup.watch_write (Setup.next_status hid (.inr (.inr (.inl ⟨rfl, rfl⟩))))) ?_
  refine .andThen_read fun device_status => ⟨_, Setup.watch_read Setup.next_read_status, ?_⟩
  have hrefused {b : Bool} (hok : device_status &&& status_field.FEATURES_OK = 0) :
      (b && Setup.answers device_id addr_ (.read (addr_ + mmio_addr.Status) device_status)) = false := by
    rw [Setup.answers_status, decide_eq_false (not_not.mpr hok), Bool.and_false]
  refine .ite (fun hok => ⟨.refused (hnone rfl) (Nat.zero_le _) (hrefused hok),
    iff_of_false hne Bool.noConfusion⟩) fun hok => ?_
  have hagreed : decide ((11 : Word) = 11 ∧ device_status &&& 8 ≠ 0) = true := decide_eq_true ⟨rfl, hok⟩
  refine .andThen_write (Setup.watch_write (Setup.next_guestPageSize ⟨rfl, hagreed⟩)) ?_
  refine .bind (setupQueues_obeys (i := 0) (n := queue_num) h₀ hbeg (by omega) (by omega) hid
    ⟨rfl, hagreed⟩ (Option.some_ne_none _) (hnone rfl) ?_) ?_
  · exact (congrArg₂ and (congrArg₂ and (congrArg₂ and hg Setup.answers_deviceFeatures)
      Setup.answers_deviceFeatures) (Setup.answers_status.trans (decide_eq_true hok)))
  rintro t ⟨ok, queue', v'⟩ ⟨hid', ht, hqueued⟩
  rw [Nat.zero_add] at hqueued
  cases ok with
  | false => exact ⟨hqueued, by rw [ht.1]; exact iff_of_false hne Bool.noConfusion⟩
  | true =>
    refine .andThen_write (Setup.watch_write (Setup.next_status hid' (.inr (.inr (.inr ⟨ht, rfl⟩))))) ?_
    obtain ⟨⟨k, hk, hplaced, hall⟩, hans, hex⟩ := hqueued
    exact ⟨⟨⟨k, hk, hplaced.of_queues rfl, hall⟩, hans, hex⟩, iff_of_true rfl rfl⟩

theorem initDevice_obeys (h₀ : Accounted beg v L out) (hbeg : KERNEL_BASE + 8 * PGSIZE ≤ beg)
    (hnum : queue_num ≤ max_queue_num) (hsize : 2 * queue_num < v.size_)
    (hind : ∀ feat ∈ independent_feat, IsFeature feat) (hspec : ∀ feat ∈ spec_feat, IsFeature feat) :
    (initDevice device_id independent_feat spec_feat queue_num addr_ queue v).Obeys
      (Setup.watch device_id addr_) (fun t r => SetUp beg out queue_num t.1 t.2 r) ({}, true) := by
  apply Obeys.bind validate_obeys
  rintro ⟨t, g⟩ r ⟨hstatus, hqueues, hid, hg⟩
  simp only at hstatus hqueues hid hg
  subst hg
  refine .ite (fun hr => negotiate_obeys h₀ hbeg hnum hsize hind hspec (hid hr) hr) fun hr => ?_
  have hnone : QueuesPlaced beg out 0 t queue v := ⟨hqueues, ⟨L, h₀⟩, by simp [queuePages]⟩
  refine ⟨.refused hnone (Nat.zero_le _) (Bool.eq_false_of_not_eq_true hr), iff_of_false ?_ Bool.noConfusion⟩
  simp only
  rw [hstatus]
  decide

/-- With every device the driver keeps to the protocol and returns. The device is told to go if and only if
`init` succeeds, each queue that the device was told of has two zero pages that nobody else has, and for a
device that answers as it should only missing pages make `init` fail. -/
theorem devices_set_up (h₀ : Accounted beg v L out) (hbeg : KERNEL_BASE + 8 * PGSIZE ≤ beg)
    (hnum : queue_num ≤ max_queue_num) (hsize : 2 * queue_num < v.size_)
    (hind : ∀ feat ∈ independent_feat, IsFeature feat) (hspec : ∀ feat ∈ spec_feat, IsFeature feat)
    {as : List (Access Word)} {r : Except Fault (Bool × (ℕ → ℕ) × VirtualMemory)}
    (hd : Dialogue (initDevice device_id independent_feat spec_feat queue_num addr_ queue v) as r) :
    ∃ s res, r = .ok res ∧ as.foldlM (Setup.next device_id addr_) {} = some s ∧
      SetUp beg out queue_num s (as.all (Setup.answers device_id addr_)) res := by
  obtain ⟨⟨s, g⟩, res, hfold, hr, hset⟩ := (initDevice_obeys h₀ hbeg hnum hsize hind hspec).dialogue hd
  obtain ⟨hnext, hg⟩ := Setup.foldlM_watch hfold
  rw [Bool.true_and] at hg
  subst hg
  exact ⟨s, res, hr, hnext, hset⟩

/-- The block device at `VIRTIO0`, with answers that do not change. -/
theorem devices_set_up_block : ∃ v as r,
    Dialogue (BlockDevice.init 0x10001000 (fun _ => 0) v) as r ∧
      as.all (Setup.answers 2 0x10001000) = true ∧
      ∃ s res, r = .ok res ∧ as.foldlM (Setup.next 2 0x10001000) {} = some s ∧
        SetUp (KERNEL_BASE + 8 * PGSIZE) [] 1 s (as.all (Setup.answers 2 0x10001000)) res := by
  have hfresh : Fresh ⟨fun _ => 0, 0, false, 0, 0, 0, .ofFn fun _ => 0⟩ := ⟨rfl, rfl, rfl, rfl⟩
  have hbase : KERNEL_BASE ≤ KERNEL_BASE + 8 * PGSIZE := by decide
  obtain ⟨v, L, -, hacc⟩ := hfresh.init hbase (by decide) (by decide)
  have hsize : 2 * 1 < v.size_ := by
    have hfree : [KERNEL_BASE + 8 * PGSIZE, KERNEL_BASE + 9 * PGSIZE, KERNEL_BASE + 10 * PGSIZE] ⊆ L := by
      intro c hc
      have hpage : IsPage c ∧ KERNEL_BASE + 8 * PGSIZE ≤ c := by
        simp only [List.mem_cons, List.not_mem_nil, or_false] at hc
        obtain rfl | rfl | rfl := hc <;> exact ⟨⟨by decide, by decide, by decide⟩, by decide⟩
      refine (hacc.free_iff c).mpr ⟨hpage.1, hpage.2, Bool.eq_false_of_not_eq_true fun hused => ?_⟩
      exact List.not_mem_nil ((hacc.out_iff c).mpr ⟨hpage.1, hpage.2, hused⟩)
    rw [hacc.onList.size]
    exact (List.Nodup.subperm (by decide) hfree).length_le
  have hind : ∀ feat ∈ [VIRTIO_F_RING_INDIRECT_DESC, VIRTIO_F_NOTIFY_ON_EMPTY], IsFeature feat := by
    simp only [List.forall_mem_cons]
    exact ⟨⟨28, rfl⟩, ⟨24, rfl⟩, by simp⟩
  have hspec : ∀ feat ∈ [VIRTIO_BLK_F_SEG_MAX, VIRTIO_BLK_F_GEOMETRY, VIRTIO_BLK_F_BLK_SIZE,
      VIRTIO_BLK_F_FLUSH, VIRTIO_BLK_F_TOPOLOGY, VIRTIO_BLK_F_DISCARD, VIRTIO_BLK_F_WRITE_ZEROES],
      IsFeature feat := by
    simp only [List.forall_mem_cons]
    exact ⟨⟨2, rfl⟩, ⟨4, rfl⟩, ⟨6, rfl⟩, ⟨9, rfl⟩, ⟨10, rfl⟩, ⟨13, rfl⟩, ⟨14, rfl⟩, by simp⟩
  obtain ⟨as, r, hd, has⟩ := Dialogue.exists_of_answer (Setup.willing 2 0x10001000)
    (BlockDevice.init 0x10001000 (fun _ => 0) v)
  refine ⟨v, as, r, hd, ?_, devices_set_up hacc le_rfl (by decide) hsize hind hspec hd⟩
  rw [List.all_eq_true]
  rintro (⟨b, s⟩ | ⟨b, s⟩) ha
  · rw [has b s ha, Setup.answers_willing]
  · rfl

end Protocol

end OrangeOs.Driver
