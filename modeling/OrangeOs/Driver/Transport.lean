import OrangeOs.Driver.Virtqueue
import OrangeOs.Library.Runs

/-! # Requests to a device

The processes that send requests with `mmio_transport`, the interrupt handler `UsedBufferNotify` and the
device, for a device with any number of queues. The device works at any time. A process that
holds a `CriticalGuard` and the handler run with interrupts off, so that of all the
others only the device can take a step; what they do that the device cannot see is one
step.
-/

namespace OrangeOs.Driver

/-- The members of `mmio_transport` that its functions read after the constructor. -/
structure Transport where
  queue_index : ℕ
  descs : List ℕ
  deriving DecidableEq

/-- The descriptor that the chain of a transport starts with. -/
def Transport.head (tr : Transport) : ℕ := tr.descs.headD 0

/-- The point that a process has reached: in the constructor, after it, in `trigger_notify` when it has
written the ring and when it has moved the index, and in `wait_complete`. From the index on, the
place keeps the number of the chain. -/
inductive Place where
  | outside
  | failed
  | requesting (tr : Transport) (desc_index : ℕ) (reqs : List Buffer)
  | constructed (tr : Transport)
  | armed (tr : Transport)
  | published (tr : Transport) (number : ℕ)
  | waiting (tr : Transport) (number : ℕ)
  | panicked
  deriving DecidableEq

/-- Who runs with interrupts off: a process in `trigger_notify`, or the handler, which is at a queue. -/
inductive Holder where
  | process (p : ℕ)
  | handler (i : ℕ)
  deriving DecidableEq

/-- The members of `Device` with the processes. `waiting_flag` is that of `internal_data_`. -/
structure Device where
  queue : ℕ → Queue
  waiting_flag : ℕ → Bool
  place : ℕ → Place
  critical : Option Holder

namespace Device

/-- The device after `Init`. -/
def init : Device where
  queue _ := .zero
  waiting_flag _ := false
  place _ := .outside
  critical := none

def goTo (s : Device) (p : ℕ) (l : Place) : Device :=
  { s with place := Function.update s.place p l }

def setQueue (s : Device) (i : ℕ) (q : Queue) : Device :=
  { s with queue := Function.update s.queue i q }

def setRings (s : Device) (i : ℕ) (r : Rings) : Device :=
  s.setQueue i { s.queue i with toRings := r }

def setFlag (s : Device) (id : ℕ) (flag : Bool) : Device :=
  { s with waiting_flag := Function.update s.waiting_flag id flag }

def enter (s : Device) (h : Option Holder) : Device := { s with critical := h }

/-- The flags that `request` gives a descriptor; `last` says that no request follows. -/
def requestFlag (req : Buffer) (last : Bool) : BitVec 16 :=
  (if last then 0 else VIRTQ_DESC_F_NEXT) ||| (if req.const then 0 else VIRTQ_DESC_F_WRITE)

/-- One call of `request`. -/
def request (s : Device) (tr : Transport) (desc_index : ℕ) (req : Buffer) (last : Bool) : Device :=
  s.setQueue tr.queue_index ((s.queue tr.queue_index).setDesc (tr.descs.getD desc_index 0)
    (fillDesc req (requestFlag req last) (tr.descs.getD (desc_index + 1) 0)))

def setIndirectFlag (s : Device) (tr : Transport) (desc_index : ℕ) : Device :=
  s.setQueue tr.queue_index ((s.queue tr.queue_index).setDesc desc_index
    { (s.queue tr.queue_index).desc desc_index with
      flags := ((s.queue tr.queue_index).desc desc_index).flags ||| VIRTQ_DESC_F_INDIRECT })

/-- The steps, by name. -/
inductive Act where
  | construct (p queue_index : ℕ) (reqs : List Buffer)
  | request (p : ℕ)
  | setIndirectFlag (p desc_index : ℕ)
  | trigger (p : ℕ)
  | publish (p : ℕ)
  | raise (p : ℕ)
  | return (p : ℕ)
  | interrupt
  | consume
  | next
  | leave
  | serve (i : ℕ)

/-- One step of a device with `n` queues. -/
inductive Step (n : ℕ) (s : Device) : Act → Device → Prop
  | construct {p i : ℕ} {reqs : List Buffer} {descs : List ℕ} {q : Queue} :
      s.critical = none → s.place p = .outside → i < n → reqs ≠ [] →
      (s.queue i).allocMultiDesc reqs.length = some (true, descs, q) →
      Step n s (.construct p i reqs) ((s.setQueue i q).goTo p (.requesting ⟨i, descs⟩ 0 reqs))
  | constructFail {p i : ℕ} {reqs : List Buffer} {descs : List ℕ} {q : Queue} :
      s.critical = none → s.place p = .outside → i < n → reqs ≠ [] →
      (s.queue i).allocMultiDesc reqs.length = some (false, descs, q) →
      Step n s (.construct p i reqs) ((s.setQueue i q).goTo p .failed)
  | request {p desc_index : ℕ} {tr : Transport} {req req' : Buffer} {reqs : List Buffer} :
      s.critical = none → s.place p = .requesting tr desc_index (req :: req' :: reqs) →
      Step n s (.request p)
        ((s.request tr desc_index req false).goTo p (.requesting tr (desc_index + 1) (req' :: reqs)))
  | requestLast {p desc_index : ℕ} {tr : Transport} {req : Buffer} :
      s.critical = none → s.place p = .requesting tr desc_index [req] →
      Step n s (.request p) ((s.request tr desc_index req true).goTo p (.constructed tr))
  | setIndirectFlag {p desc_index : ℕ} {tr : Transport} :
      s.critical = none → s.place p = .constructed tr →
      Step n s (.setIndirectFlag p desc_index) (s.setIndirectFlag tr desc_index)
  -- `trigger_notify`, and nothing of it without descriptors
  | trigger {p : ℕ} {tr : Transport} : s.critical = none → s.place p = .constructed tr →
      Step n s (.trigger p) (((s.setRings tr.queue_index
        ((s.queue tr.queue_index).setAvail tr.head)).goTo p (.armed tr)).enter (some (.process p)))
  | publish {p : ℕ} {tr : Transport} :
      s.critical = some (.process p) → s.place p = .armed tr →
      Step n s (.publish p) ((s.setRings tr.queue_index (s.queue tr.queue_index).advance).goTo p
        (.published tr (s.queue tr.queue_index).posted))
  | raise {p number : ℕ} {tr : Transport} :
      s.critical = some (.process p) → s.place p = .published tr number →
      Step n s (.raise p) (((s.setFlag tr.head true).goTo p (.waiting tr number)).enter none)
  -- `wait_complete` sleeps and looks again as long as the flag is set
  | return {p number : ℕ} {tr : Transport} {q : Queue} :
      s.critical = none → s.place p = .waiting tr number → s.waiting_flag tr.head = false →
      (s.queue tr.queue_index).freeDescs tr.descs = some q →
      Step n s (.return p) ((s.setQueue tr.queue_index q).goTo p .outside)
  | returnPanic {p number : ℕ} {tr : Transport} :
      s.critical = none → s.place p = .waiting tr number → s.waiting_flag tr.head = false →
      (s.queue tr.queue_index).freeDescs tr.descs = none →
      Step n s (.return p) (s.goTo p .panicked)
  | returnFailed {p : ℕ} : s.critical = none → s.place p = .failed →
      Step n s (.return p) (s.goTo p .outside)
  -- the loop of `UsedBufferNotify` over the queues, and over the elements of one
  | interrupt : s.critical = none → Step n s .interrupt (s.enter (some (.handler 0)))
  | consume {i : ℕ} : s.critical = some (.handler i) → i < n →
      (s.queue i).last_seen_used_idx ≠ (s.queue i).used_idx →
      Step n s .consume
        ((s.setFlag (s.queue i).element.id false).setRings i (s.queue i).consume)
  | next {i : ℕ} : s.critical = some (.handler i) → i < n →
      (s.queue i).last_seen_used_idx = (s.queue i).used_idx →
      Step n s .next (s.enter (some (.handler (i + 1))))
  | leave : s.critical = some (.handler n) → Step n s .leave (s.enter none)
  | serve {i : ℕ} {r : Rings} : i < n → Rings.Serves (s.queue i).toRings r →
      Step n s (.serve i) (s.setRings i r)

end Device

end OrangeOs.Driver
