import OrangeOs.Driver.Block

/-! # Transmission

`NetDevice::Send` and `DealTxBuffer`, which gives back the descriptors of a chain that the device
has used. `Send` does not wait for that; it leaves a record of its descriptors, but only after the
device knows of the chain, and also when it has got no descriptors.
-/

namespace OrangeOs.Driver

abbrev send_queue_ind : ℕ := 1

/-- The device with the records of `Send`. A call of `Send` is at the place that `Device` gives it
up to the end of `trigger_notify`; after that the place stands for its chain, `storing` holds the
descriptors that the call has still to record, and both go their own ways. -/
structure NetDevice extends Device where
  delayed_tx_desc : ℕ → List ℕ
  storing : ℕ → Option (List ℕ)
  panicked : Bool
  overrun : Bool

namespace NetDevice

/-- The device after `Init`; the driver is in zeroed memory. -/
def init : NetDevice where
  toDevice := Device.init
  delayed_tx_desc _ := [0, 0]
  storing _ := none
  panicked := false
  overrun := false

/-- The requests of `Send`: the header and the packet. -/
def sendRequests (hdr data size : ℕ) : List Buffer := [⟨hdr, 10, true⟩, ⟨data, size, true⟩]

def withDevice (s : NetDevice) (d : Device) : NetDevice := { s with toDevice := d }

def setStoring (s : NetDevice) (p : ℕ) (descs : Option (List ℕ)) : NetDevice :=
  { s with storing := Function.update s.storing p descs }

def setDelayed (s : NetDevice) (i : ℕ) (descs : List ℕ) : NetDevice :=
  { s with delayed_tx_desc := Function.update s.delayed_tx_desc i descs }

/-- The chains that start with a descriptor are not under way any more. -/
def finish (s : Device) (id : ℕ) : Device :=
  { s with place := fun p => match s.place p with
      | .waiting tr m => if tr.head = id then .outside else .waiting tr m
      | l => l }

inductive Act where
  | send (p : ℕ)
  | request (p : ℕ)
  | trigger (p : ℕ)
  | publish (p : ℕ)
  | raise (p : ℕ)
  | store (p : ℕ)
  | interrupt
  | consume
  | leave
  | serve
  deriving DecidableEq

/-- One step of the send queue. `Send` with an empty packet does nothing. -/
inductive Step (s : NetDevice) : Act → NetDevice → Prop
  | send {p hdr data size : ℕ} {descs : List ℕ} {q : Queue} :
      s.critical = none → s.place p = .outside → s.storing p = none → 0 < size →
      (s.queue send_queue_ind).allocMultiDesc 2 = some (true, descs, q) →
      Step s (.send p) (s.withDevice ((s.setQueue send_queue_ind q).goTo p
        (.requesting ⟨send_queue_ind, descs⟩ 0 (sendRequests hdr data size))))
  -- the array of descriptors is not initialized, and nothing is triggered
  | sendFail {p size unset : ℕ} {descs : List ℕ} {q : Queue} :
      s.critical = none → s.place p = .outside → s.storing p = none → 0 < size →
      (s.queue send_queue_ind).allocMultiDesc 2 = some (false, descs, q) →
      Step s (.send p) ((s.withDevice (s.setQueue send_queue_ind q)).setStoring p
        (some ((descs ++ [unset]).take 2)))
  | request {p : ℕ} {d : Device} : Device.Step 2 s.toDevice (.request p) d →
      Step s (.request p) (s.withDevice d)
  | trigger {p : ℕ} {d : Device} : Device.Step 2 s.toDevice (.trigger p) d →
      Step s (.trigger p) (s.withDevice d)
  | publish {p : ℕ} {d : Device} : Device.Step 2 s.toDevice (.publish p) d →
      Step s (.publish p) (s.withDevice d)
  | raise {p m : ℕ} {tr : Transport} {d : Device} : s.place p = .published tr m →
      Device.Step 2 s.toDevice (.raise p) d →
      Step s (.raise p) ((s.withDevice d).setStoring p (some tr.descs))
  | store {p : ℕ} {descs : List ℕ} : s.critical = none → s.storing p = some descs →
      descs.headD 0 < queue_buffer_size →
      Step s (.store p) ((s.setDelayed (descs.headD 0) descs).setStoring p none)
  | storeOverrun {p : ℕ} {descs : List ℕ} : s.critical = none → s.storing p = some descs →
      queue_buffer_size ≤ descs.headD 0 →
      Step s (.store p) ({ s with overrun := true }.setStoring p none)
  -- `DealTxBuffer`
  | interrupt : s.critical = none →
      Step s .interrupt (s.withDevice (s.enter (some (.handler send_queue_ind))))
  | consume {q : Queue} : s.critical = some (.handler send_queue_ind) →
      (s.queue send_queue_ind).last_seen_used_idx ≠ (s.queue send_queue_ind).used_idx →
      (s.queue send_queue_ind).freeDescs
        (s.delayed_tx_desc (s.queue send_queue_ind).element.id) = some q →
      Step s .consume (s.withDevice
        (finish ((s.setFlag (s.queue send_queue_ind).element.id false).setQueue send_queue_ind
          { q with toRings := q.consume }) (s.queue send_queue_ind).element.id))
  | consumePanic : s.critical = some (.handler send_queue_ind) →
      (s.queue send_queue_ind).last_seen_used_idx ≠ (s.queue send_queue_ind).used_idx →
      (s.queue send_queue_ind).freeDescs
        (s.delayed_tx_desc (s.queue send_queue_ind).element.id) = none →
      Step s .consume { s with panicked := true }
  | leave : s.critical = some (.handler send_queue_ind) →
      (s.queue send_queue_ind).last_seen_used_idx = (s.queue send_queue_ind).used_idx →
      Step s .leave (s.withDevice (s.enter none))
  | serve {r : Rings} : Rings.Serves (s.queue send_queue_ind).toRings r →
      Step s .serve (s.withDevice (s.setRings send_queue_ind r))

abbrev Reached (s : NetDevice) : Prop := Reachable (· = init) (fun s t => ∃ a, Step s a t) s

/-- The condition on steps. A call of `Send` finds two free descriptors, and `DealTxBuffer` processes an
element when the device has used fewer than `2 ^ 16` chains and no call that still has to store
its record goes by the same descriptor. -/
structure Orderly (s : NetDevice) (a : Act) : Prop where
  descs : ∀ p, a = .send p → 2 ≤ (s.queue send_queue_ind).free
  few : a = .consume → (s.queue send_queue_ind).used.length < 2 ^ 16
  stored : a = .consume → ∀ p descs, s.storing p = some descs →
    descs.headD 0 ≠ (s.queue send_queue_ind).element.id

abbrev ReachedOrderly (s : NetDevice) : Prop :=
  Reachable (· = init) (fun s t => ∃ a, Step s a t ∧ Orderly s a) s

variable {s t : NetDevice} {a : Act} {p m d h : ℕ} {tr : Transport} {descs : List ℕ} {q : Queue}

/-! ## The invariant -/

/-- A call has still to store its record only while its chain is under way, and other chains have one. -/
structure Recorded (s : NetDevice) : Prop where
  sound : Device.Sound 2 s.toDevice
  filled : Device.Filled s.toDevice
  index : ∀ p tr, (s.place p).transport = some tr → tr.queue_index = send_queue_ind
  storing : ∀ p descs, s.storing p = some descs → ∃ tr m, s.place p = .waiting tr m ∧ descs = tr.descs
  record : ∀ p tr m, s.place p = .waiting tr m → s.storing p = none →
    s.delayed_tx_desc tr.head = tr.descs
  panicked : s.panicked = false
  overrun : s.overrun = false

theorem recorded_init : Recorded init where
  sound := Device.sound_init
  filled := Device.filled_init
  index := by simp [init, Device.init, Place.transport]
  storing := by simp [init]
  record := by simp [init, Device.init]
  panicked := rfl
  overrun := rfl

namespace Recorded

/-- A step of the device that starts or ends no chain. -/
theorem withDevice (h : Recorded s) {b : Device.Act} {d : Device}
    (hst : Device.Step 2 s.toDevice b d)
    (hb : b ≠ .consume ∧ (∀ p, b ≠ .return p) ∧ (∀ p k, b ≠ .setIndirectFlag p k) ∧
      (∀ p i reqs, b = .construct p i reqs → i = send_queue_ind) ∧ ∀ p, b ≠ .raise p) :
    Recorded (s.withDevice d) := by
  obtain ⟨hcons, hret, hind, hconstruct, hraise⟩ := hb
  refine ⟨h.sound.step hst fun i _ he => absurd he hcons, h.filled.step h.sound hst hind,
    fun p tr htr => ?_, fun p descs hp => ?_, fun p tr m hp hnone => ?_, h.panicked, h.overrun⟩
  · rcases Device.Sound.transport_step hst htr with hold | ⟨reqs, hb⟩
    · exact h.index p tr hold
    · exact hconstruct p _ reqs hb
  · obtain ⟨tr, m, hplace, hdescs⟩ := h.storing p descs hp
    refine ⟨tr, m, ?_, hdescs⟩
    by_contra hne
    exact hret p (Device.Sound.waiting_step hst hplace (hplace ▸ hne)).2
  · rcases Device.Sound.waiting_of_step hst hp with hold | ⟨hb, -⟩
    · exact h.record p tr m hold hnone
    · exact absurd hb (hraise p)

theorem raise (h : Recorded s) {d : Device} (hplace : s.place p = .published tr m)
    (hst : Device.Step 2 s.toDevice (.raise p) d) :
    Recorded ((s.withDevice d).setStoring p (some tr.descs)) := by
  refine ⟨h.sound.step hst (by simp [Device.Clear]), h.filled.step h.sound hst (by simp),
    fun p' tr' htr => ?_, fun p' descs hp => ?_, fun p' tr' m' hp hnone => ?_, h.panicked, h.overrun⟩
  · rcases Device.Sound.transport_step hst htr with hold | ⟨reqs, hb⟩
    · exact h.index p' tr' hold
    · simp at hb
  · by_cases he : p' = p
    · subst he
      obtain rfl : tr.descs = descs := by simpa [setStoring] using hp
      refine ⟨tr, m, ?_, rfl⟩
      cases hst with
      | raise _ hplace' =>
        obtain ⟨rfl, rfl⟩ := Place.published.inj (hplace.symm.trans hplace')
        exact Device.goTo_place_self _
    · obtain ⟨tr', m', hold, hdescs⟩ :=
        h.storing p' descs (by simpa [setStoring, NetDevice.withDevice, he] using hp)
      refine ⟨tr', m', ?_, hdescs⟩
      by_contra hne
      simpa using (Device.Sound.waiting_step hst hold (hold ▸ hne)).2
  · have he : p' ≠ p := by
      rintro rfl
      simp [setStoring] at hnone
    rcases Device.Sound.waiting_of_step hst hp with hold | ⟨hb, -⟩
    · exact h.record p' tr' m' hold (by simpa [setStoring, NetDevice.withDevice, he] using hnone)
    · exact absurd (Device.Act.raise.inj hb).symm he

theorem store (h : Recorded s) (hp : s.storing p = some descs) :
    Recorded ((s.setDelayed (descs.headD 0) descs).setStoring p none) := by
  obtain ⟨tr, m, hplace, rfl⟩ := h.storing p descs hp
  refine ⟨h.sound, h.filled, h.index, fun p' descs' hp' => ?_, fun p' tr' m' hp' hnone => ?_,
    h.panicked, h.overrun⟩
  · have he : p' ≠ p := by
      rintro rfl
      simp [setStoring] at hp'
    exact h.storing p' descs' (by simpa [setStoring, setDelayed, he] using hp')
  · show Function.update s.delayed_tx_desc tr.head tr.descs tr'.head = tr'.descs
    have hplace' : s.place p' = .waiting tr' m' := hp'
    by_cases hh : tr'.head = tr.head
    · have htr : (s.place p).transport = some tr := by simp [hplace, Place.transport]
      have htr' : (s.place p').transport = some tr' := by simp [hplace', Place.transport]
      obtain rfl : p' = p := h.sound.posted_unique (by rw [hplace']; rfl) (by rw [hplace]; rfl)
        ((h.index p' tr' htr').trans (h.index p tr htr).symm) hh
      obtain ⟨rfl, -⟩ := Place.waiting.inj (hplace'.symm.trans hplace)
      exact Function.update_self ..
    · have he : p' ≠ p := by
        rintro rfl
        exact hh (by rw [(Place.waiting.inj (hplace'.symm.trans hplace)).1])
      rw [Function.update_of_ne hh]
      exact h.record p' tr' m' hplace' (by simpa [setStoring, setDelayed, he] using hnone)

/-- The call whose chain `DealTxBuffer` finds on the used ring. -/
theorem finished (h : Recorded s) (ho : Orderly s .consume)
    (hcrit : s.critical = some (.handler send_queue_ind))
    (hne : (s.queue send_queue_ind).last_seen_used_idx ≠ (s.queue send_queue_ind).used_idx) :
    ∃ p tr m, s.place p = .waiting tr m ∧ tr.queue_index = send_queue_ind ∧
      (s.queue send_queue_ind).element.id = tr.head ∧
      ⟨m, tr.head⟩ ∈ (s.queue send_queue_ind).used ∧ tr.head ∉ (s.queue send_queue_ind).owned ∧
      s.storing p = none ∧ s.delayed_tx_desc tr.head = tr.descs := by
  have hrs := h.sound.rings send_queue_ind (by decide)
  have hunseen := hrs.unseen_consume hne (ho.few rfl)
  have hmem : (s.queue send_queue_ind).element.id ∈ (s.queue send_queue_ind).unseen :=
    hunseen ▸ List.mem_cons_self
  obtain ⟨p, tr, m, hp, hi, hh⟩ := h.sound.posted.live _ (by decide) _
    (List.mem_append_right _ hmem)
  have hplace : s.place p = .waiting tr m := by
    generalize hl : s.place p = l at hp
    cases l with
    | published tr' m' => simp [h.sound.posted.raising p tr' m' hl] at hcrit
    | waiting tr' m' =>
      obtain ⟨rfl, rfl⟩ : tr' = tr ∧ m' = m := by simpa [Place.posted] using hp
      rfl
    | _ => simp [Place.posted] at hp
  have hnone : s.storing p = none := by
    cases hs : s.storing p with
    | none => rfl
    | some descs =>
      obtain ⟨tr', m', hplace', rfl⟩ := h.storing p descs hs
      obtain ⟨rfl, -⟩ := Place.waiting.inj (hplace.symm.trans hplace')
      exact absurd hh (ho.stored rfl p _ hs)
  have howned : tr.head ∉ (s.queue send_queue_ind).owned := by
    rw [hh]
    exact fun hd => List.disjoint_of_nodup_append hrs.nodup hd hmem
  refine ⟨p, tr, m, hplace, hi, hh.symm, ?_, howned, hnone, h.record p tr m hplace hnone⟩
  have hchain := h.sound.posted.chain p tr m hp
  rw [hi] at hchain
  exact hchain.resolve_left fun hdev => howned hdev.mem_owned

theorem index_lt (h : Recorded s) (hp : s.storing p = some descs) :
    descs.headD 0 < queue_buffer_size := by
  obtain ⟨tr, m, hplace, rfl⟩ := h.storing p descs hp
  exact h.sound.head_lt (p := p) (by simp [hplace, Place.transport])

theorem enter (h : Recorded s) (hcrit : ∀ p, s.critical ≠ some (.process p)) (c : Option Holder) :
    Recorded (s.withDevice (s.enter c)) :=
  ⟨h.sound.enter hcrit c, h.filled.enter c, h.index, h.storing, h.record, h.panicked, h.overrun⟩

/-- No chain of the other queue is under way. -/
theorem other_live (h : Recorded s) {j d : ℕ} (hj : j < 2) (hne : j ≠ send_queue_ind) :
    d ∉ (s.queue j).live := by
  intro hmem
  obtain ⟨p, tr, m, hp, hi, -⟩ := h.sound.posted.live j hj d hmem
  exact hne (hi.symm.trans (h.index p tr (Place.transport_of_posted hp)))

/-- The chain that the handler finishes leaves its place, as if its process had waited for it. -/
theorem finish_eq (h : Recorded s) {id : ℕ} (hcrit : s.critical = some (.handler send_queue_ind))
    (hplace : s.place p = .waiting tr m) (hid : id = tr.head) :
    finish ((s.setFlag id false).setQueue send_queue_ind q) id =
      ((((((s.setFlag id false).setRings send_queue_ind (s.queue send_queue_ind).consume).enter
        none).setQueue send_queue_ind q).goTo p .outside).enter
          (some (.handler send_queue_ind))) := by
  have hplaces : (fun p' => match s.place p' with
      | .waiting tr' m' => if tr'.head = id then .outside else .waiting tr' m'
      | l => l) = Function.update s.place p .outside := by
    funext p'
    by_cases hp : p' = p
    · rw [hp, Function.update_self, hplace]
      exact if_pos hid.symm
    · rw [Function.update_of_ne hp]
      split
      · next tr' m' hplace' =>
        refine (if_neg fun hh => hp ?_).trans hplace'.symm
        have htr : (s.place p).transport = some tr := by simp [hplace, Place.transport]
        have htr' : (s.place p').transport = some tr' := by simp [hplace', Place.transport]
        exact h.sound.posted_unique (by rw [hplace']; rfl) (by rw [hplace]; rfl)
          ((h.index p' tr' htr').trans (h.index p tr htr).symm) (hh.trans hid)
      · rfl
  simp only [finish, Device.setFlag, Device.setQueue, Device.setRings, Device.enter, Device.goTo,
    hplaces, hcrit, Function.update_idem]

theorem consume (h : Recorded s) (ho : Orderly s .consume)
    (hcrit : s.critical = some (.handler send_queue_ind))
    (hne : (s.queue send_queue_ind).last_seen_used_idx ≠ (s.queue send_queue_ind).used_idx)
    (hq : (s.queue send_queue_ind).freeDescs
      (s.delayed_tx_desc (s.queue send_queue_ind).element.id) = some q) :
    Recorded (s.withDevice
        (finish ((s.setFlag (s.queue send_queue_ind).element.id false).setQueue send_queue_ind
          { q with toRings := q.consume }) (s.queue send_queue_ind).element.id)) := by
  obtain ⟨p, tr, m, hplace, hi, hid, -, -, hnone, hrecord⟩ := h.finished ho hcrit hne
  rw [hid, hrecord] at hq
  have hrest : q.toRings = (s.queue send_queue_ind).toRings := (Queue.freeDescs_spec hq).rest
  rw [h.finish_eq hcrit hplace hid, hid]
  -- the handler takes the element, and then the process gives the descriptors back
  have hcons : Device.Step 2 s.toDevice .consume _ := .consume hcrit (by decide) hne
  have hclear : Device.Clear 2 s.toDevice .consume := by
    intro i hi' _ hcrit'
    obtain rfl : send_queue_ind = i := Holder.handler.inj (Option.some.inj (hcrit.symm.trans hcrit'))
    exact ⟨ho.few rfl, fun j hj hji => h.other_live hj hji⟩
  rw [hid] at hcons
  have hs₁ := (h.sound.step hcons hclear).enter (by simp [hcrit]) none
  have hf₁ := (h.filled.step h.sound hcons (by simp)).enter none
  have hret : Device.Step 2 _ (.return p) _ := @Device.Step.return 2
    (((s.setFlag tr.head false).setRings send_queue_ind (s.queue send_queue_ind).consume).enter none)
    p m tr { q with toRings := q.consume } rfl hplace (by simp [Device.setFlag, Device.setRings,
      Device.setQueue, Device.enter]) (by
      rw [hi, Device.enter_queue, Device.setRings_queue_self, hrest]
      exact Queue.freeDescs_rings _ hq)
  rw [hi] at hret
  have hs₂ := (hs₁.step hret (by simp [Device.Clear])).enter (by simp)
    (some (.handler send_queue_ind))
  have hf₂ := (hf₁.step hs₁ hret (by simp)).enter (some (.handler send_queue_ind))
  have hother : ∀ p', p' ≠ p → Function.update s.place p .outside p' = s.place p' :=
    fun p' hp => Function.update_of_ne hp ..
  have hself : Function.update s.place p .outside p = .outside := Function.update_self ..
  refine ⟨hs₂, hf₂, fun p' tr' htr => ?_, fun p' descs hp => ?_, fun p' tr' m' hp hnone' => ?_,
    h.panicked, h.overrun⟩
  · refine h.index p' tr' ?_
    by_cases hp : p' = p
    · subst hp
      simp [NetDevice.withDevice, Place.transport] at htr
    · exact hother p' hp ▸ htr
  · obtain ⟨tr', m', hplace', hdescs⟩ := h.storing p' descs hp
    have hp' : p' ≠ p := by
      rintro rfl
      exact absurd (hnone.symm.trans hp) (by simp)
    exact ⟨tr', m', (hother p' hp').trans hplace', hdescs⟩
  · have hp' : p' ≠ p := by
      rintro rfl
      exact absurd (hself.symm.trans hp) (by simp)
    exact h.record p' tr' m' ((hother p' hp').symm.trans hp) hnone'

theorem step (h : Recorded s) (hst : Step s a t) (ho : Orderly s a) : Recorded t := by
  cases hst with
  | @send p hdr data size descs q hcrit hplace hnone hsize hq =>
    exact h.withDevice (.construct hcrit hplace (by decide) (by simp [sendRequests]) hq)
      (by simp)
  | @sendFail p size unset descs q hcrit hplace hnone hsize hq =>
    obtain ⟨r, hr, hres⟩ := Queue.allocMultiDesc_spec (s.queue send_queue_ind) 2
    obtain rfl := Option.some.inj (hr.symm.trans hq)
    exact absurd (hres.done_of_free (ho.descs p rfl)) (by simp)
  | request hst => exact h.withDevice hst (by simp)
  | trigger hst => exact h.withDevice hst (by simp)
  | publish hst => exact h.withDevice hst (by simp)
  | raise hplace hst => exact h.raise hplace hst
  | store hcrit hp hlt => exact h.store hp
  | storeOverrun hcrit hp hle => exact absurd (h.index_lt hp) (not_lt.mpr hle)
  | interrupt hcrit => exact h.enter (by simp [hcrit]) _
  | consume hcrit hne hq => exact h.consume ho hcrit hne hq
  | consumePanic hcrit hne hq =>
    obtain ⟨p, tr, m, hplace, hi, hid, -, -, -, hrecord⟩ := h.finished ho hcrit hne
    have htr : (s.place p).transport = some tr := by simp [hplace, Place.transport]
    obtain ⟨q, hq'⟩ := h.sound.freeDescs htr
    rw [hid, hrecord, ← hi, hq'] at hq
    exact absurd hq (by simp)
  | leave hcrit => exact h.enter (by simp [hcrit]) _
  | serve hr => exact h.withDevice (.serve (by decide) hr) (by simp)

end Recorded

theorem ReachedOrderly.recorded (h : ReachedOrderly s) : Recorded s := by
  refine @Reachable.invariant _ _ _ _ Recorded h ?_ ?_
  · rintro _ rfl
    exact recorded_init
  · rintro s t ih ⟨a, hst, ho⟩
    exact ih.step hst ho

/-! ## Descriptors are given back once -/

/-- The step of `DealTxBuffer` from `s` to `t` ends the chain of one call of `Send`, which the device has
used, and frees the descriptors that the call has got, all of them in use, and no others. -/
structure Returned (s t : NetDevice) (p : ℕ) (tr : Transport) (m : ℕ) : Prop where
  place : s.place p = .waiting tr m
  queue_index : tr.queue_index = send_queue_ind
  id : (s.queue send_queue_ind).element.id = tr.head
  used : ⟨m, tr.head⟩ ∈ (s.queue send_queue_ind).used
  descs : tr.descs.Nodup ∧ ∀ d ∈ tr.descs, (s.queue send_queue_ind).taken d
  freed : ∀ d, (t.queue send_queue_ind).taken d ↔ d ∉ tr.descs ∧ (s.queue send_queue_ind).taken d
  ended : t.place = Function.update s.place p .outside
  owned : ∀ h ∈ (s.queue send_queue_ind).owned, ∀ d ∈ tr.descs,
    d ∉ (s.queue send_queue_ind).chain queue_buffer_size h

theorem Recorded.returned (h : Recorded s) (hst : Step s .consume t) (ho : Orderly s .consume) :
    ∃ p tr m, Returned s t p tr m := by
  cases hst with
  | consumePanic hcrit hne hq => exact absurd (h.step (.consumePanic hcrit hne hq) ho).panicked (by simp)
  | @consume q hcrit hne hq =>
    obtain ⟨p, tr, m, hplace, hi, hid, hused, howned, -, hrecord⟩ := h.finished ho hcrit hne
    have htr : (s.place p).transport = some tr := by simp [hplace, Place.transport]
    rw [hid, hrecord] at hq
    have hfreed := Queue.freeDescs_spec hq
    refine ⟨p, tr, m, hplace, hi, hid, hused, ⟨h.sound.owns.nodup p tr htr, fun d hd => ?_⟩, ?_, ?_,
      fun k hk d hd hmem => ?_⟩
    · exact hi ▸ (h.sound.owns.taken p tr htr d hd).2
    · rw [h.finish_eq hcrit hplace hid]
      simp only [NetDevice.withDevice, Device.enter_queue, Device.goTo_queue,
        Device.setQueue_queue_self]
      exact hfreed.taken
    · rw [h.finish_eq hcrit hplace hid]
      rfl
    · obtain ⟨p', tr', m', hp', hi', rfl⟩ := h.sound.posted.live send_queue_ind (by decide) k
        (List.mem_append_left _ hk)
      have hchain := h.sound.chain_eq h.filled hp'
      rw [hi'] at hchain
      rw [hchain] at hmem
      have hne' : p ≠ p' := by
        rintro rfl
        obtain rfl : tr = tr' := Option.some.inj (htr.symm.trans (Place.transport_of_posted hp'))
        exact howned hk
      exact h.sound.owns.disjoint p p' tr tr' hne' htr (Place.transport_of_posted hp')
        (hi.trans hi'.symm) hd hmem

/-- When all steps meet the condition, each step of `DealTxBuffer` frees exactly the descriptors
that `Send` has got for a chain that the device has used, and no record is stored out of range. -/
theorem descs_returned (h : ReachedOrderly s) :
    (∀ t, Step s .consume t → Orderly s .consume → ∃ p tr m, Returned s t p tr m) ∧
    (∀ p descs, s.storing p = some descs → descs.headD 0 < queue_buffer_size) ∧
    s.panicked = false ∧ s.overrun = false :=
  ⟨fun _ hst ho => h.recorded.returned hst ho, fun _ _ => h.recorded.index_lt,
    h.recorded.panicked, h.recorded.overrun⟩

/-- A packet has been sent, and the interrupt comes when `Send` has stored its record. -/
theorem descs_returned_packet : ∃ (s t : NetDevice) (p : ℕ) (tr : Transport) (m : ℕ),
    Step s .consume t ∧ Returned s t p tr m := by
  have halloc : Queue.zero.allocMultiDesc 2 = some (true, [0, 1], (Queue.zero.mark 0).mark 1) := rfl
  have h₁ : ReachedOrderly (init.withDevice ((Device.init.setQueue 1
      ((Queue.zero.mark 0).mark 1)).goTo 0
        (.requesting ⟨1, [0, 1]⟩ 0 (sendRequests 100 200 60)))) :=
    .step (.start rfl) ⟨_, .send rfl rfl rfl (by decide) halloc,
      fun _ _ => by decide, by simp, by simp⟩
  have h₂ := Reachable.step h₁ ⟨_, .request (@Device.Step.request 2 _ 0 0 ⟨1, [0, 1]⟩ _ _ _ rfl rfl),
    by simp, by simp, by simp⟩
  have h₃ := Reachable.step h₂ ⟨_, .request (@Device.Step.requestLast 2 _ 0 1 ⟨1, [0, 1]⟩ _ rfl rfl),
    by simp, by simp, by simp⟩
  have h₄ := Reachable.step h₃ ⟨_, .trigger (@Device.Step.trigger 2 _ 0 ⟨1, [0, 1]⟩ rfl rfl),
    by simp, by simp, by simp⟩
  have h₅ := Reachable.step h₄ ⟨_, .publish (@Device.Step.publish 2 _ 0 ⟨1, [0, 1]⟩ rfl rfl),
    by simp, by simp, by simp⟩
  have h₆ := Reachable.step h₅ ⟨_, @Step.raise _ 0 0 ⟨1, [0, 1]⟩ _ rfl
    (@Device.Step.raise 2 _ 0 0 ⟨1, [0, 1]⟩ rfl rfl), by simp, by simp, by simp⟩
  have h₇ := Reachable.step h₆ ⟨_, @Step.store _ 0 [0, 1] rfl rfl (by decide), by simp, by simp,
    by simp⟩
  have h₈ := Reachable.step h₇ ⟨_, .serve (.fetch (by decide)), by simp, by simp, by simp⟩
  have h₉ := Reachable.step h₈ ⟨_, .serve (@Rings.Serves.complete _ ⟨0, 0⟩ 0 (by decide)), by simp,
    by simp, by simp⟩
  have h₁₀ := Reachable.step h₉ ⟨_, .interrupt rfl, by simp, by simp, by simp⟩
  obtain ⟨s, hs, hcrit, hne, hused, hstoring, q, hq⟩ : ∃ s, ReachedOrderly s ∧
      s.critical = some (.handler send_queue_ind) ∧
      (s.queue send_queue_ind).last_seen_used_idx ≠ (s.queue send_queue_ind).used_idx ∧
      (s.queue send_queue_ind).used = [⟨0, 0⟩] ∧ (∀ p, s.storing p = none) ∧
      ∃ q, (s.queue send_queue_ind).freeDescs
        (s.delayed_tx_desc (s.queue send_queue_ind).element.id) = some q := by
    refine ⟨_, h₁₀, rfl, by decide, rfl, fun p => ?_, _, rfl⟩
    simp [NetDevice.withDevice, setStoring, setDelayed, init]
  have hst := Step.consume hcrit hne hq
  obtain ⟨p, tr, m, hret⟩ := (descs_returned hs).1 _ hst
    ⟨by simp, fun _ => by simp [hused], by simp [hstoring]⟩
  exact ⟨s, _, p, tr, m, hst, hret⟩

/-- The interrupt comes between `trigger_notify` and the record. `DealTxBuffer` finds the record
`[0, 0]` of zeroed memory, frees descriptor 0 twice and panics. -/
theorem descs_freed_twice : ∃ s : NetDevice, Reached s ∧ s.panicked = true := by
  have halloc : Queue.zero.allocMultiDesc 2 = some (true, [0, 1], (Queue.zero.mark 0).mark 1) := rfl
  have h₁ : Reached (init.withDevice ((Device.init.setQueue 1
      ((Queue.zero.mark 0).mark 1)).goTo 0
        (.requesting ⟨1, [0, 1]⟩ 0 (sendRequests 100 200 60)))) :=
    .step (.start rfl) ⟨_, .send rfl rfl rfl (by decide) halloc⟩
  have h₂ := Reachable.step h₁ ⟨_, .request (@Device.Step.request 2 _ 0 0 ⟨1, [0, 1]⟩ _ _ _ rfl rfl)⟩
  have h₃ := Reachable.step h₂ ⟨_, .request (@Device.Step.requestLast 2 _ 0 1 ⟨1, [0, 1]⟩ _ rfl rfl)⟩
  have h₄ := Reachable.step h₃ ⟨_, .trigger (@Device.Step.trigger 2 _ 0 ⟨1, [0, 1]⟩ rfl rfl)⟩
  have h₅ := Reachable.step h₄ ⟨_, .publish (@Device.Step.publish 2 _ 0 ⟨1, [0, 1]⟩ rfl rfl)⟩
  have h₆ := Reachable.step h₅ ⟨_, @Step.raise _ 0 0 ⟨1, [0, 1]⟩ _ rfl
    (@Device.Step.raise 2 _ 0 0 ⟨1, [0, 1]⟩ rfl rfl)⟩
  have h₇ := Reachable.step h₆ ⟨_, .serve (.fetch (by decide))⟩
  have h₈ := Reachable.step h₇ ⟨_, .serve (@Rings.Serves.complete _ ⟨0, 0⟩ 0 (by decide))⟩
  have h₉ := Reachable.step h₈ ⟨_, .interrupt rfl⟩
  exact ⟨_, .step h₉ ⟨_, .consumePanic rfl (by decide) rfl⟩, rfl⟩

end NetDevice

end OrangeOs.Driver
