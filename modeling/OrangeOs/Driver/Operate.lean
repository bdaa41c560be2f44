import OrangeOs.Driver.Descriptors
import OrangeOs.Library.Memory

/-! # Operations of the block device

`BlockDevice::Operate` with its memory. The status of a request is a local variable that only the
device writes, and it says what the device did as long as the request has been sent; `Operate` also
looks at it when there was no descriptor to send the request with.
-/

namespace OrangeOs.Driver

/-- A call of `Operate`: the operation and the addresses of the header, the block and the status. -/
structure Call where
  op : Operation
  req : ℕ
  buf : ℕ
  resp : ℕ

/-- The buffers of a call. -/
def Call.buffers (c : Call) : List Buffer := BlockDevice.operate c.op c.req c.buf c.resp

/-- The status of one call is no byte that the other lets the device write. -/
def Call.Apart (c c' : Call) : Prop := c'.resp ≠ c.resp ∧ (c'.resp < c.buf ∨ c.buf + 512 ≤ c'.resp)

/-- The block device with the memory, the last call of each process and the chains that the device
has worked off, each with the status that it gave it. -/
structure Operations where
  device : Device
  mem : Memory
  call : ℕ → Call
  done : List (Chain × UInt8)

/-- The bytes that a chain lets the device write. -/
def Queue.Writable (q : Queue) (h x : ℕ) : Prop :=
  ∃ d ∈ q.chain queue_buffer_size h, (q.desc d).flags &&& VIRTQ_DESC_F_WRITE ≠ 0 ∧
    (q.desc d).addr ≤ x ∧ x < (q.desc d).addr + (q.desc d).len

/-- The address in the last descriptor of a chain, where the device writes the status. -/
def Queue.statusAddr (q : Queue) (h : ℕ) : ℕ :=
  (q.desc ((q.chain queue_buffer_size h).getLastD 0)).addr

namespace Device

/-- The steps of the driver after the allocation of the descriptors. -/
def Act.Drives : Act → Prop
  | construct .. => False
  | setIndirectFlag .. => False
  | serve _ => False
  | _ => True

variable {n i j p m h : ℕ} {s t : Device} {a : Act} {tr : Transport} {c : Chain}

/-! ## Steps of the driver -/

/-- Where a process goes. -/
inductive Goes (s t : Device) (p : ℕ) : Act → Prop
  | stay {a : Act} : t.place p = s.place p → a ≠ .request p → a ≠ .return p → Goes s t p a
  | request {tr : Transport} {k : ℕ} {req : Buffer} {reqs : List Buffer} {last : Bool} :
      s.place p = .requesting tr k (req :: reqs) → (t.queue tr.queue_index).desc =
        ((s.request tr k req last).queue tr.queue_index).desc →
      (t.place p = .requesting tr (k + 1) reqs ∨ t.place p = .constructed tr ∧ reqs = []) →
      Goes s t p (.request p)
  | trigger {tr : Transport} : s.place p = .constructed tr → t.place p = .armed tr →
      Goes s t p (.trigger p)
  | publish {tr : Transport} : s.place p = .armed tr →
      t.place p = .published tr (s.queue tr.queue_index).posted → Goes s t p (.publish p)
  | raise {tr : Transport} {m : ℕ} : s.place p = .published tr m → t.place p = .waiting tr m →
      Goes s t p (.raise p)
  | return : s.place p ≠ .outside → (t.place p = .outside ∨ t.place p = .panicked) →
      Goes s t p (.return p)

theorem goes (hst : Step n s a t) (ha : a.Drives) (p : ℕ) : Goes s t p a := by
  have hgo : ∀ (u : Device) p' l, t.place = (u.goTo p' l).place → u.place = s.place →
      (∀ p, p' ≠ p → a ≠ .request p ∧ a ≠ .return p) → (p = p' → Goes s t p a) → Goes s t p a := by
    intro u p' l ht hu hact hself
    by_cases he : p = p'
    · exact hself he
    · refine .stay ?_ (hact p (Ne.symm he)).1 (hact p (Ne.symm he)).2
      rw [ht, goTo_place_ne _ he, hu]
  cases hst with
  | construct => exact ha.elim
  | constructFail => exact ha.elim
  | setIndirectFlag => exact ha.elim
  | serve => exact ha.elim
  | request _ hp =>
    refine hgo _ _ _ rfl rfl (fun _ hne => ⟨by simpa using hne, by simp⟩) ?_
    rintro rfl
    exact .request hp rfl (.inl (goTo_place_self _))
  | requestLast _ hp =>
    refine hgo _ _ _ rfl rfl (fun _ hne => ⟨by simpa using hne, by simp⟩) ?_
    rintro rfl
    exact .request hp rfl (.inr ⟨goTo_place_self _, rfl⟩)
  | @trigger _ tr _ hp =>
    refine hgo _ _ (.armed tr) rfl rfl (by simp) ?_
    rintro rfl
    exact .trigger hp (goTo_place_self _)
  | publish _ hp =>
    refine hgo _ _ _ rfl rfl (by simp) ?_
    rintro rfl
    exact .publish hp (goTo_place_self _)
  | @raise _ m tr _ hp =>
    refine hgo _ _ (.waiting tr m) rfl rfl (by simp) ?_
    rintro rfl
    exact .raise hp (goTo_place_self _)
  | «return» _ hp =>
    refine hgo _ _ _ rfl rfl (fun _ hne => ⟨by simp, by simpa using hne⟩) ?_
    rintro rfl
    exact .return (by rw [hp]; simp) (.inl (goTo_place_self _))
  | returnPanic _ hp =>
    refine hgo _ _ _ rfl rfl (fun _ hne => ⟨by simp, by simpa using hne⟩) ?_
    rintro rfl
    exact .return (by rw [hp]; simp) (.inr (goTo_place_self _))
  | returnFailed _ hp =>
    refine hgo _ _ _ rfl rfl (fun _ hne => ⟨by simp, by simpa using hne⟩) ?_
    rintro rfl
    exact .return (by rw [hp]; simp) (.inl (goTo_place_self _))
  | _ => exact .stay rfl (by simp) (by simp)

/-- The device keeps its chains, and gets no other one than that of `publish`. -/
theorem Sound.keeps (hs : Sound n s) (hst : Step n s a t) (ha : a.Drives) (j : ℕ) :
    (∀ c, (s.queue j).AtDevice c → (t.queue j).AtDevice c) ∧
      ∀ h ∈ (t.queue j).owned, h ∈ (s.queue j).owned ∨
        ∃ p tr, a = .publish p ∧ s.place p = .armed tr ∧ tr.queue_index = j ∧ tr.head = h := by
  have hrings : ∀ u : Device, (u.queue j).toRings = (s.queue j).toRings →
      (∀ c, (s.queue j).AtDevice c → (u.queue j).AtDevice c) ∧
        ∀ h ∈ (u.queue j).owned, h ∈ (s.queue j).owned ∨
          ∃ p tr, a = .publish p ∧ s.place p = .armed tr ∧ tr.queue_index = j ∧ tr.head = h := by
    intro u hu
    rw [hu]
    exact ⟨fun _ => id, fun _ => .inl⟩
  have hset : ∀ i (r : Rings), (j = i → (∀ c, (s.queue i).AtDevice c → r.AtDevice c) ∧
      ∀ h ∈ r.owned, h ∈ (s.queue i).owned ∨
        ∃ p tr, a = .publish p ∧ s.place p = .armed tr ∧ tr.queue_index = i ∧ tr.head = h) →
      (∀ c, (s.queue j).AtDevice c → ((s.setRings i r).queue j).AtDevice c) ∧
        ∀ h ∈ ((s.setRings i r).queue j).owned, h ∈ (s.queue j).owned ∨
          ∃ p tr, a = .publish p ∧ s.place p = .armed tr ∧ tr.queue_index = j ∧ tr.head = h := by
    intro i r hr
    by_cases hj : j = i
    · subst hj
      rw [setRings_queue_self]
      exact hr rfl
    · exact hrings _ (by rw [setRings_queue_ne _ hj])
  cases hst with
  | construct => exact ha.elim
  | constructFail => exact ha.elim
  | setIndirectFlag => exact ha.elim
  | serve => exact ha.elim
  | request => exact hrings _ (setQueue_rings s _ j)
  | requestLast => exact hrings _ (setQueue_rings s _ j)
  | @trigger p tr _ hp =>
    refine hset _ _ fun _ => ?_
    have htr : (s.place p).transport = some tr := by simp [hp, Place.transport]
    have hrs := hs.rings _ (hs.owns.index p tr htr)
    have hroom := hrs.room (hs.head_not_live htr (by simp [hp, Place.posted])) (hs.head_lt htr)
    rw [hrs.setAvail_owned hroom]
    exact ⟨fun _ => hrs.setAvail_atDevice hroom, fun _ => .inl⟩
  | @publish p tr _ hp =>
    refine hset _ _ fun _ => ⟨fun _ => Rings.AtDevice.advance, fun h hh => ?_⟩
    have hrs := hs.rings _ (hs.owns.index p tr (by simp [hp, Place.transport]))
    rcases List.mem_cons.mp (hrs.advance_owned.mem_iff.mp hh) with he | hh
    · exact .inr ⟨p, tr, rfl, hp, rfl, (he.trans (hs.posted.armed p tr hp)).symm⟩
    · exact .inl hh
  | @«return» p m tr q _ _ _ hq =>
    refine hrings _ ?_
    by_cases hj : j = tr.queue_index
    · rw [hj, goTo_queue, setQueue_queue_self, (Queue.freeDescs_spec hq).rest]
    · rw [goTo_queue, setQueue_queue_ne _ hj]
  | consume => exact hset _ _ fun _ => ⟨fun _ => id, fun _ => .inl⟩
  | _ => exact hrings _ rfl

end Device

namespace Operations

open Device

/-! ## Steps -/

inductive Event where
  | call (p : ℕ) (c : Call)
  | run (a : Act)
  | fetch
  | complete
  | write

/-- What can happen. The memory of a call is its own: its status is no part of its block or of the memory
of another call. All other memory can change at any time. -/
inductive Step (s : Operations) : Event → Operations → Prop
  | call {p : ℕ} {c : Call} {d : Device} :
      Device.Step 1 s.device (.construct p 0 c.buffers) d →
      (c.resp < c.buf ∨ c.buf + 512 ≤ c.resp) →
      (∀ p', s.device.place p' ≠ .outside → Call.Apart c (s.call p') ∧ Call.Apart (s.call p') c) →
      Step s (.call p c) { s with device := d, call := Function.update s.call p c }
  | run {a : Act} {d : Device} : Device.Step 1 s.device a d → a.Drives →
      Step s (.run a) { s with device := d }
  | fetch : (s.device.queue 0).last_avail_idx ≠ (s.device.queue 0).avail_idx →
      Step s .fetch { s with device := s.device.setRings 0 (s.device.queue 0).fetch }
  | complete {c : Chain} {len : ℕ} {m' : Memory} : c ∈ (s.device.queue 0).outstanding →
      Memory.Same s.mem m' (fun x => ¬ (s.device.queue 0).Writable c.head x) →
      Step s .complete { s with
        device := s.device.setRings 0 ((s.device.queue 0).complete c len)
        mem := m'
        done := s.done ++ [(c, m' ((s.device.queue 0).statusAddr c.head))] }
  | write {m' : Memory} :
      (∀ p, s.device.place p ≠ .outside → m' (s.call p).resp = s.mem (s.call p).resp) →
      Step s .write { s with mem := m' }

/-- Nothing has happened yet. The memory holds anything. -/
def Initial (s : Operations) : Prop := s.device = Device.init ∧ s.done = []

/-- The descriptors suffice for the call, or its status is not OK before it starts. -/
def Event.Sendable (s : Operations) : Event → Prop
  | call _ c => 3 ≤ (s.device.queue 0).free ∨ s.mem c.resp ≠ 0
  | _ => True

def Next (s t : Operations) : Prop := ∃ e, Step s e t

def NextSendable (s t : Operations) : Prop := ∃ e, Step s e t ∧ e.Sendable s

/-- A process can leave `wait_complete`. -/
def MayReturn (s : Operations) (p : ℕ) : Prop := ∃ d, Device.Step 1 s.device (.return p) d

/-- What `Operate` returns: whether the status is `VIRTIO_BLK_S_OK`. -/
def result (s : Operations) (p : ℕ) : Bool := s.mem (s.call p).resp = 0

/-- The request of a process has been sent and the device has worked it off with status OK. -/
def Performed (s : Operations) (p : ℕ) : Prop :=
  ∃ tr m, s.device.place p = .waiting tr m ∧ ⟨m, tr.head⟩ ∈ (s.device.queue 0).used ∧
    (⟨m, tr.head⟩, 0) ∈ s.done

variable {s t : Operations} {e : Event} {p p' m x : ℕ} {tr tr' : Transport} {c : Call}

/-- The device takes a step of its own in every step but a write. -/
theorem Step.device (h : Step s e t) : t.device = s.device ∨
    ∃ a, Device.Step 1 s.device a t.device ∧ ∀ p k, a ≠ .setIndirectFlag p k := by
  cases h with
  | call hst => exact .inr ⟨_, hst, by simp⟩
  | @run a d hst ha =>
    refine .inr ⟨a, hst, ?_⟩
    rintro p k rfl
    exact ha
  | fetch hne => exact .inr ⟨_, .serve Nat.one_pos (.fetch hne), by simp⟩
  | complete hc => exact .inr ⟨_, .serve Nat.one_pos (.complete hc), by simp⟩
  | write => exact .inl rfl

theorem Step.used (h : Step s e t) :
    (s.device.queue 0).used.length ≤ (t.device.queue 0).used.length := by
  rcases h.device with he | ⟨a, hst, -⟩
  · rw [he]
  · exact (used_step hst 0).length_le

/-- The invariant. Each request under way is in the descriptors of its process; its chain is at the
device, or the device has recorded the status that the memory holds. -/
structure Sound (s : Operations) : Prop where
  device : Device.Sound 1 s.device
  filled : Filled s.device
  own : ∀ p, s.device.place p ≠ .outside →
    (s.call p).resp < (s.call p).buf ∨ (s.call p).buf + 512 ≤ (s.call p).resp
  apart : ∀ p p', p ≠ p' → s.device.place p ≠ .outside → s.device.place p' ≠ .outside →
    Call.Apart (s.call p) (s.call p')
  rest : ∀ p tr k reqs, s.device.place p = .requesting tr k reqs →
    reqs = (s.call p).buffers.drop k
  encoded : ∀ p tr, (s.device.place p).transport = some tr →
    tr.descs.length = (s.call p).buffers.length ∧
      (s.device.queue 0).Encoded tr.descs (s.call p).buffers (s.device.place p).filled
  answered : ∀ p tr m, (s.device.place p).posted = some (tr, m) →
    (s.device.queue 0).AtDevice ⟨m, tr.head⟩ ∨
      tr.head ∉ (s.device.queue 0).owned ∧ (⟨m, tr.head⟩, s.mem (s.call p).resp) ∈ s.done

theorem place_ne_outside (h : (s.device.place p).transport = some tr) :
    s.device.place p ≠ .outside := by
  intro he
  rw [he] at h
  cases h

theorem Initial.sound (h : Initial s) : Sound s := by
  obtain ⟨hd, -⟩ := h
  refine ⟨hd ▸ sound_init, hd ▸ filled_init, ?_, ?_, ?_, ?_, ?_⟩ <;> rw [hd] <;>
    simp [Device.init, Place.transport, Place.posted]

namespace Sound

theorem queue_index (hs : Sound s) (htr : (s.device.place p).transport = some tr) :
    tr.queue_index = 0 :=
  Nat.lt_one_iff.mp (hs.device.owns.index p tr htr)

/-- The chain of a request that has been made available is the list of its descriptors, which encode its
buffers. -/
theorem chain (hs : Sound s) (hp : (s.device.place p).posted = some (tr, m)) :
    (s.device.queue 0).chain queue_buffer_size tr.head = tr.descs ∧
      ∀ (j d : ℕ) (req : Buffer), tr.descs[j]? = some d → (s.call p).buffers[j]? = some req →
        Queue.Encodes ((s.device.queue 0).desc d) req := by
  have htr := Place.transport_of_posted hp
  have hchain := hs.device.chain_eq hs.filled hp
  rw [hs.queue_index htr] at hchain
  refine ⟨hchain, fun j d req hd hreq => (hs.encoded p tr htr).2 j d req ?_ hd hreq⟩
  have hfill : (s.device.place p).filled = tr.descs.length := by
    cases hl : s.device.place p <;> simp_all [Place.posted, Place.filled]
  rw [hfill]
  exact (List.getElem?_eq_some_iff.mp hd).1

/-- The device can write the block and the status of a call through its chain. -/
theorem writable (hs : Sound s) (hp : (s.device.place p).posted = some (tr, m))
    (hw : (s.device.queue 0).Writable tr.head x) :
    x = (s.call p).resp ∨ (s.call p).buf ≤ x ∧ x < (s.call p).buf + 512 := by
  obtain ⟨hchain, henc⟩ := hs.chain hp
  have hlen := (hs.encoded p tr (Place.transport_of_posted hp)).1
  obtain ⟨d, hd, hflag, hle, hlt⟩ := hw
  rw [hchain] at hd
  obtain ⟨j, hj, hjd⟩ := List.getElem_of_mem hd
  have hj' : j < (s.call p).buffers.length := hlen ▸ hj
  obtain ⟨haddr, hsize, hconst⟩ := henc j d _ (List.getElem?_eq_some_iff.mpr ⟨hj, hjd⟩)
    (List.getElem?_eq_getElem hj')
  rw [haddr] at hle
  rw [haddr, hsize] at hlt
  have hc := hconst.mp hflag
  have hcases : j = 0 ∨ j = 1 ∨ j = 2 := by
    simp only [Call.buffers, BlockDevice.operate, List.length_cons, List.length_nil] at hj'
    omega
  rcases hcases with rfl | rfl | rfl
  · cases hc
  · exact .inr ⟨hle, hlt⟩
  · have hle' : (s.call p).resp ≤ x := hle
    have hlt' : x < (s.call p).resp + 1 := hlt
    exact .inl (by omega)

theorem statusAddr (hs : Sound s) (hp : (s.device.place p).posted = some (tr, m)) :
    (s.device.queue 0).statusAddr tr.head = (s.call p).resp := by
  obtain ⟨hchain, henc⟩ := hs.chain hp
  have hlen := (hs.encoded p tr (Place.transport_of_posted hp)).1
  simp only [Call.buffers, BlockDevice.operate, List.length_cons, List.length_nil] at hlen
  rw [Queue.statusAddr, hchain]
  obtain ⟨d₀, d₁, d₂, hd⟩ := List.length_eq_three.mp hlen
  rw [hd]
  exact (henc 2 d₂ _ (by rw [hd]; rfl) rfl).addr

/-- A process that leaves `wait_complete` has read the status that the device gave its chain. -/
theorem performed (hs : Sound s) (hplace : s.device.place p = .waiting tr m)
    (hflag : s.device.waiting_flag tr.head = false) (hr : s.result p = true) : s.Performed p := by
  obtain ⟨hused, hdead⟩ := hs.device.answered hplace hflag
  rw [hs.queue_index (p := p) (by rw [hplace]; rfl)] at hused hdead
  refine ⟨tr, m, hplace, hused, ?_⟩
  rcases hs.answered p tr m (by rw [hplace]; rfl) with hdev | ⟨-, hdone⟩
  · exact absurd (List.mem_append_left _ hdev.mem_owned) hdead
  · rwa [of_decide_eq_true hr] at hdone

/-! ## The invariant along a run -/

theorem device_step {a : Act} {d : Device} (hs : Sound s) (hst : Device.Step 1 s.device a d)
    (hind : ∀ p k, a ≠ .setIndirectFlag p k) (hfew : (s.device.queue 0).used.length < 2 ^ 16) :
    Device.Sound 1 d ∧ Filled d := by
  refine ⟨hs.device.step hst fun i hi _ _ => ⟨?_, fun j hj hne => ?_⟩, hs.filled.step hs.device hst hind⟩
  · rwa [Nat.lt_one_iff.mp hi]
  · exact absurd ((Nat.lt_one_iff.mp hj).trans (Nat.lt_one_iff.mp hi).symm) hne

/-- Descriptors that the step leaves alone go on encoding their buffers. -/
theorem encoded_keep {a : Act} {d : Device} (hs : Sound s) (hst : Device.Step 1 s.device a d)
    (hind : ∀ p k, a ≠ .setIndirectFlag p k) (hreq : a ≠ .request p) (hret : a ≠ .return p)
    (htr : (s.device.place p).transport = some tr) :
    (d.queue 0).Encoded tr.descs (s.call p).buffers (s.device.place p).filled := by
  refine (hs.encoded p tr htr).2.congr fun x hx => ?_
  have hkeep := hs.device.untouched hs.filled hst hreq hret hind htr hx
  rw [hs.queue_index htr] at hkeep
  exact hkeep.1

theorem call {d : Device} (hs : Sound s) (hst : Device.Step 1 s.device (.construct p 0 c.buffers) d)
    (hown : c.resp < c.buf ∨ c.buf + 512 ≤ c.resp)
    (hapart : ∀ p', s.device.place p' ≠ .outside → Call.Apart c (s.call p') ∧ Call.Apart (s.call p') c)
    (hfew : (s.device.queue 0).used.length < 2 ^ 16) :
    Sound { s with device := d, call := Function.update s.call p c } := by
  obtain ⟨hsound, hfilled⟩ := hs.device_step hst (by simp) hfew
  have hself : Function.update s.call p c p = c := Function.update_self ..
  have hother : ∀ p', p' ≠ p → Function.update s.call p c p' = s.call p' :=
    fun p' hp' => Function.update_of_ne hp' ..
  -- what the two ends of the constructor have in common
  have hend : ∀ q l, d = (s.device.setQueue 0 q).goTo p l → s.device.place p = .outside →
      q.toRings = (s.device.queue 0).toRings → l.posted = none →
      (∀ tr k reqs, l = .requesting tr k reqs → reqs = c.buffers.drop k) →
      (∀ tr, l.transport = some tr → tr.descs.length = c.buffers.length ∧ l.filled = 0) →
      Sound { s with device := d, call := Function.update s.call p c } := by
    rintro q l hd hout hq hposted hreqs htrans
    have hplace : d.place p = l := hd ▸ goTo_place_self _
    have hplaces : ∀ p', p' ≠ p → d.place p' = s.device.place p' :=
      fun p' hp' => hd ▸ goTo_place_ne _ hp'
    have hrings : (d.queue 0).toRings = (s.device.queue 0).toRings := by
      rw [hd, goTo_queue, setQueue_queue_self, hq]
    refine ⟨hsound, hfilled, fun p' hp' => ?_, fun p₁ p₂ hne h₁ h₂ => ?_, fun p' tr k reqs hp' => ?_,
      fun p' tr htr => ?_, fun p' tr m hp' => ?_⟩
    · by_cases he : p' = p
      · simp only [he, hself]
        exact hown
      · simp only [hplaces p' he] at hp'
        simp only [hother p' he]
        exact hs.own p' hp'
    · by_cases he₁ : p₁ = p <;> by_cases he₂ : p₂ = p
      · exact absurd (he₁.trans he₂.symm) hne
      · simp only [hplaces p₂ he₂] at h₂
        simp only [he₁, hself, hother p₂ he₂]
        exact (hapart p₂ h₂).1
      · simp only [hplaces p₁ he₁] at h₁
        simp only [he₂, hself, hother p₁ he₁]
        exact (hapart p₁ h₁).2
      · simp only [hplaces p₁ he₁] at h₁
        simp only [hplaces p₂ he₂] at h₂
        simp only [hother p₁ he₁, hother p₂ he₂]
        exact hs.apart p₁ p₂ hne h₁ h₂
    · by_cases he : p' = p
      · simp only [he, hplace] at hp'
        simp only [he, hself]
        exact hreqs tr k reqs hp'
      · simp only [hplaces p' he] at hp'
        simp only [hother p' he]
        exact hs.rest p' tr k reqs hp'
    · by_cases he : p' = p
      · simp only [he, hplace] at htr
        obtain ⟨hlen, hfill⟩ := htrans tr htr
        simp only [he, hself, hplace, hfill]
        exact ⟨hlen, fun j _ _ hj => absurd hj (Nat.not_lt_zero j)⟩
      · simp only [hplaces p' he] at htr
        simp only [hother p' he, hplaces p' he]
        exact ⟨(hs.encoded p' tr htr).1, hs.encoded_keep hst (by simp) (by simp) (by simp) htr⟩
    · by_cases he : p' = p
      · simp only [he, hplace, hposted] at hp'
        cases hp'
      · simp only [hplaces p' he] at hp'
        simp only [hother p' he, hrings]
        exact hs.answered p' tr m hp'
  cases hst with
  | @construct _ _ _ descs q _ hout _ _ hq =>
    obtain ⟨r, hr, hres⟩ := Queue.allocMultiDesc_spec (s.device.queue 0) c.buffers.length
    obtain rfl := Option.some.inj (hr.symm.trans hq)
    cases hres with
    | done halloc hlen =>
      refine hend q _ rfl hout halloc.rest rfl ?_ ?_
      · rintro _ _ _ he
        obtain ⟨-, rfl, rfl⟩ := Place.requesting.inj he
        rfl
      · rintro _ he
        obtain rfl := Option.some.inj he
        exact ⟨hlen, rfl⟩
  | @constructFail _ _ _ descs q _ hout _ _ hq =>
    obtain ⟨r, hr, hres⟩ := Queue.allocMultiDesc_spec (s.device.queue 0) c.buffers.length
    obtain rfl := Option.some.inj (hr.symm.trans hq)
    cases hres with
    | fail _ _ _ _ _ hrest => exact hend q _ rfl hout hrest rfl (by simp) (by simp [Place.transport])

/-- The descriptor that one call of `request` fills encodes its buffer. -/
theorem encoded_request {k : ℕ} {req : Buffer} {reqs : List Buffer} {last : Bool} (hs : Sound s)
    (hp : s.device.place p = .requesting tr k (req :: reqs)) :
    ((s.device.request tr k req last).queue 0).Encoded tr.descs (s.call p).buffers (k + 1) := by
  have htr : (s.device.place p).transport = some tr := by rw [hp]; rfl
  have hold : (s.device.queue 0).Encoded tr.descs (s.call p).buffers k := by
    have henc := (hs.encoded p tr htr).2
    rwa [hp] at henc
  have hcount := hs.filled.count p tr k _ hp
  rw [List.length_cons] at hcount
  have hreq : (s.call p).buffers[k]? = some req := by
    rw [← List.head?_drop, ← hs.rest p tr k _ hp]
    rfl
  have hqueue : (s.device.request tr k req last).queue 0 =
      (s.device.queue 0).request tr.descs k req last := by
    rw [Device.request, hs.queue_index htr]
    exact setQueue_queue_self _
  rw [hqueue]
  exact hold.request (hs.device.owns.nodup p tr htr) (by omega) hreq

theorem run {a : Act} {d : Device} (hs : Sound s) (hst : Device.Step 1 s.device a d) (ha : a.Drives)
    (hfew : (s.device.queue 0).used.length < 2 ^ 16) : Sound { s with device := d } := by
  have hind : ∀ p k, a ≠ .setIndirectFlag p k := by
    rintro p k rfl
    exact ha
  obtain ⟨hsound, hfilled⟩ := hs.device_step hst hind hfew
  have hactive : ∀ p, d.place p ≠ .outside → s.device.place p ≠ .outside := by
    intro p hp
    cases goes hst ha p with
    | stay he => exact he ▸ hp
    | request h => rw [h]; simp
    | trigger h => rw [h]; simp
    | publish h => rw [h]; simp
    | raise h => rw [h]; simp
    | «return» h => exact h
  obtain ⟨hdev, howned⟩ := hs.device.keeps hst ha 0
  -- a chain that has been answered is not made available again
  have hdone : ∀ p tr m, (d.place p).posted = some (tr, m) →
      (s.device.place p).posted = some (tr, m) → (d.queue 0).AtDevice ⟨m, tr.head⟩ ∨
        tr.head ∉ (d.queue 0).owned ∧ (⟨m, tr.head⟩, s.mem (s.call p).resp) ∈ s.done := by
    intro p tr m hp' hp
    rcases hs.answered p tr m hp with h | ⟨hnot, hdone⟩
    · exact .inl (hdev _ h)
    · refine .inr ⟨fun hmem => ?_, hdone⟩
      rcases howned _ hmem with h | ⟨p₁, tr₁, rfl, hp₁, hi, hh⟩
      · exact hnot h
      · have htr₁ : (s.device.place p₁).transport = some tr₁ := by rw [hp₁]; rfl
        have htr := Place.transport_of_posted hp
        have hne : p₁ ≠ p := by
          rintro rfl
          rw [hp₁] at hp
          cases hp
        refine hs.device.owns.disjoint p₁ p tr₁ tr hne htr₁ htr ?_
          (head_mem (hs.device.owns.ne_nil p₁ tr₁ htr₁))
          (hh ▸ head_mem (hs.device.owns.ne_nil p tr htr))
        rw [hs.queue_index htr₁, hs.queue_index htr]
  refine ⟨hsound, hfilled, fun p hp => hs.own p (hactive p hp),
    fun p p' hne hp hp' => hs.apart p p' hne (hactive p hp) (hactive p' hp'), fun p tr k reqs hp => ?_,
    fun p tr htr => ?_, fun p tr m hp => ?_⟩
  · cases goes hst ha p with
    | stay he => exact hs.rest p tr k reqs (he ▸ hp)
    | request h _ h' =>
      rcases h' with h' | ⟨h', -⟩
      · obtain ⟨rfl, rfl, rfl⟩ := Place.requesting.inj (h'.symm.trans hp)
        rw [← List.tail_drop, ← hs.rest p _ _ _ h]
        rfl
      · cases h'.symm.trans hp
    | trigger _ h => cases h.symm.trans hp
    | publish _ h => cases h.symm.trans hp
    | raise _ h => cases h.symm.trans hp
    | «return» _ h => rcases h with h | h <;> cases h.symm.trans hp
  · have hmove : (s.device.place p).transport = some tr → a ≠ .request p → a ≠ .return p →
        (d.place p).filled = (s.device.place p).filled →
        tr.descs.length = (s.call p).buffers.length ∧
          (d.queue 0).Encoded tr.descs (s.call p).buffers (d.place p).filled := by
      intro htr' hreq hret hfill
      rw [hfill]
      exact ⟨(hs.encoded p tr htr').1, hs.encoded_keep hst hind hreq hret htr'⟩
    cases goes hst ha p with
    | stay he hreq hret => exact hmove (he ▸ htr) hreq hret (by rw [he])
    | @request tr' k req reqs last h hdesc h' =>
      have htr₀ : (s.device.place p).transport = some tr' := by rw [h]; rfl
      obtain ⟨hlen, -⟩ := hs.encoded p tr' htr₀
      rw [hs.queue_index htr₀] at hdesc
      have henc := (@encoded_request s p tr' k req reqs last hs h).congr fun x _ => congrFun hdesc x
      rcases h' with h' | ⟨h', rfl⟩
      · rw [h'] at htr ⊢
        obtain rfl := Option.some.inj htr
        exact ⟨hlen, henc⟩
      · rw [h'] at htr ⊢
        obtain rfl := Option.some.inj htr
        have hcount := hs.filled.count p tr' k _ h
        rw [List.length_singleton] at hcount
        rw [hcount] at henc
        exact ⟨hlen, henc⟩
    | trigger h h' =>
      rw [h'] at htr
      exact hmove (by rw [h]; exact htr) (by simp) (by simp) (by rw [h, h']; rfl)
    | publish h h' =>
      rw [h'] at htr
      exact hmove (by rw [h]; exact htr) (by simp) (by simp) (by rw [h, h']; rfl)
    | raise h h' =>
      rw [h'] at htr
      exact hmove (by rw [h]; exact htr) (by simp) (by simp) (by rw [h, h']; rfl)
    | «return» _ h => rcases h with h | h <;> rw [h] at htr <;> cases htr
  · cases goes hst ha p with
    | stay he => exact hdone p tr m hp (he ▸ hp)
    | request _ _ h => rcases h with h | ⟨h, -⟩ <;> rw [h] at hp <;> cases hp
    | trigger _ h => rw [h] at hp; cases hp
    | publish h h' =>
      cases hst with
      | @publish _ tr' _ h₁ =>
        rw [h'] at hp
        obtain ⟨rfl, rfl⟩ := Prod.mk.inj (Option.some.inj hp)
        obtain rfl := Place.armed.inj (h₁.symm.trans h)
        have htr : (s.device.place p).transport = some tr' := by rw [h]; rfl
        have hrs := hs.device.rings _ (hs.device.owns.index p tr' htr)
        have hhead := hs.device.posted.armed p tr' h
        rw [← hs.queue_index htr, goTo_queue, setRings_queue_self, ← hhead]
        exact .inl hrs.advance_new
    | raise h h' =>
      refine hdone p tr m hp ?_
      rw [h, ← hp, h']
      rfl
    | «return» _ h => rcases h with h | h <;> rw [h] at hp <;> cases hp

theorem fetch (hs : Sound s)
    (hne : (s.device.queue 0).last_avail_idx ≠ (s.device.queue 0).avail_idx)
    (hfew : (s.device.queue 0).used.length < 2 ^ 16) :
    Sound { s with device := s.device.setRings 0 (s.device.queue 0).fetch } := by
  have hst : Device.Step 1 s.device (.serve 0) (s.device.setRings 0 (s.device.queue 0).fetch) :=
    .serve Nat.one_pos (.fetch hne)
  obtain ⟨hsound, hfilled⟩ := hs.device_step hst (by simp) hfew
  have hrs := hs.device.rings 0 Nat.one_pos
  refine ⟨hsound, hfilled, hs.own, hs.apart, hs.rest, fun p tr htr => ?_, fun p tr m hp => ?_⟩
  · exact ⟨(hs.encoded p tr htr).1, hs.encoded_keep hst (by simp) (by simp) (by simp) htr⟩
  · dsimp only
    rw [setRings_queue_self]
    refine (hs.answered p tr m hp).imp hrs.fetch_atDevice (.imp_left fun hnot hmem => hnot ?_)
    exact (hrs.fetch_owned hne).mem_iff.mp hmem

/-- The process that waits for a chain that the device has. -/
theorem exists_posted {c : Chain} (hs : Sound s) (hc : c ∈ (s.device.queue 0).outstanding) :
    ∃ p tr m, (s.device.place p).posted = some (tr, m) ∧ tr.head = c.head := by
  have hlive : c.head ∈ (s.device.queue 0).live :=
    List.mem_append_left _ (Rings.AtDevice.mem_owned (.inr hc))
  obtain ⟨p, tr, m, hp, -, hh⟩ := hs.device.posted.live 0 Nat.one_pos _ hlive
  exact ⟨p, tr, m, hp, hh⟩

/-- The device works off a chain only into the memory of the call that waits for it. -/
theorem complete_same {c : Chain} {m' : Memory} (hs : Sound s)
    (hp : (s.device.place p).posted = some (tr, m)) (hh : tr.head = c.head)
    (hm : Memory.Same s.mem m' fun x => ¬ (s.device.queue 0).Writable c.head x)
    (hne : p' ≠ p) (hp' : s.device.place p' ≠ .outside) :
    m' (s.call p').resp = s.mem (s.call p').resp := by
  refine hm _ fun hw => ?_
  have hout := place_ne_outside (Place.transport_of_posted hp)
  obtain ⟨hresp, hbuf⟩ := hs.apart p p' hne.symm hout hp'
  rcases hs.writable hp (hh ▸ hw) with h | h
  · exact hresp h
  · omega

theorem complete {c : Chain} {len : ℕ} {m' : Memory} (hs : Sound s)
    (hc : c ∈ (s.device.queue 0).outstanding)
    (hm : Memory.Same s.mem m' fun x => ¬ (s.device.queue 0).Writable c.head x)
    (hfew : (s.device.queue 0).used.length < 2 ^ 16) :
    Sound { s with
      device := s.device.setRings 0 ((s.device.queue 0).complete c len)
      mem := m'
      done := s.done ++ [(c, m' ((s.device.queue 0).statusAddr c.head))] } := by
  have hst : Device.Step 1 s.device (.serve 0)
      (s.device.setRings 0 ((s.device.queue 0).complete c len)) :=
    .serve Nat.one_pos (.complete hc)
  obtain ⟨hsound, hfilled⟩ := hs.device_step hst (by simp) hfew
  have hrs := hs.device.rings 0 Nat.one_pos
  have howned := Rings.Counters.complete_owned hc len
  obtain ⟨p₀, tr₀, m₀, hp₀, hh₀⟩ := hs.exists_posted hc
  refine ⟨hsound, hfilled, hs.own, hs.apart, hs.rest, fun p tr htr => ?_, fun p tr m hp => ?_⟩
  · exact ⟨(hs.encoded p tr htr).1, hs.encoded_keep hst (by simp) (by simp) (by simp) htr⟩
  · dsimp only
    rw [setRings_queue_self]
    have htr := Place.transport_of_posted hp
    by_cases hpp : p = p₀
    · subst hpp
      obtain ⟨rfl, rfl⟩ := Prod.mk.inj (Option.some.inj (hp.symm.trans hp₀))
      rcases hs.answered p tr m hp with hdev | ⟨hnot, -⟩
      · obtain rfl : (⟨m, tr.head⟩ : Chain) = c := hrs.atDevice_unique hc hdev hh₀
        have hnodup : (s.device.queue 0).owned.Nodup := (List.nodup_append.mp hrs.nodup).1
        refine .inr ⟨(List.nodup_cons.mp (howned.nodup_iff.mp hnodup)).1, ?_⟩
        rw [hs.statusAddr hp]
        exact List.mem_append_right _ (List.mem_singleton_self _)
      · exact absurd (hh₀ ▸ Rings.AtDevice.mem_owned (.inr hc)) hnot
    · have hne : tr.head ≠ c.head := by
        intro hh
        refine hpp (hs.device.posted_unique hp hp₀ ?_ (hh.trans hh₀.symm))
        rw [hs.queue_index htr, hs.queue_index (Place.transport_of_posted hp₀)]
      rcases hs.answered p tr m hp with hdev | ⟨hnot, hdone⟩
      · exact .inl (Rings.Counters.complete_atDevice hdev fun he => hne (congrArg Chain.head he))
      · refine .inr ⟨fun hmem => hnot (howned.mem_iff.mpr (List.mem_cons_of_mem _ hmem)), ?_⟩
        rw [hs.complete_same hp₀ hh₀ hm hpp (place_ne_outside htr)]
        exact List.mem_append_left _ hdone

theorem write {m' : Memory} (hs : Sound s)
    (hm : ∀ p, s.device.place p ≠ .outside → m' (s.call p).resp = s.mem (s.call p).resp) :
    Sound { s with mem := m' } := by
  refine ⟨hs.device, hs.filled, hs.own, hs.apart, hs.rest, hs.encoded, fun p tr m hp => ?_⟩
  dsimp only
  rw [hm p (place_ne_outside (Place.transport_of_posted hp))]
  exact hs.answered p tr m hp

theorem step (hs : Sound s) (hst : Step s e t) (hfew : (s.device.queue 0).used.length < 2 ^ 16) :
    Sound t := by
  cases hst with
  | call hst hown hapart => exact hs.call hst hown hapart hfew
  | run hst ha => exact hs.run hst ha hfew
  | fetch hne => exact hs.fetch hne hfew
  | complete hc hm => exact hs.complete hc hm hfew
  | write hm => exact hs.write hm

end Sound

theorem Next.sound (h : Reachable Initial Next s) (hfew : (s.device.queue 0).used.length < 2 ^ 16) :
    Sound s := by
  refine @Reachable.invariant _ _ _ _ (fun s => (s.device.queue 0).used.length < 2 ^ 16 → Sound s) h
    (fun s hs _ => hs.sound) ?_ hfew
  rintro s t ih ⟨e, hst⟩ hfew
  have hfew' := hst.used.trans_lt hfew
  exact (ih hfew').step hst hfew'

theorem NextSendable.reachable (h : Reachable Initial NextSendable s) : Reachable Initial Next s := by
  induction h with
  | start h => exact .start h
  | step _ ht ih =>
    obtain ⟨e, hst, -⟩ := ht
    exact ih.step ⟨e, hst⟩

/-- A process leaves `wait_complete` when the device has answered, or without having sent anything. -/
theorem MayReturn.cases (h : s.MayReturn p) :
    (∃ tr m, s.device.place p = .waiting tr m ∧ s.device.waiting_flag tr.head = false) ∨
      s.device.place p = .failed := by
  obtain ⟨d, hst⟩ := h
  cases hst with
  | «return» _ hp hflag => exact .inl ⟨_, _, hp, hflag⟩
  | returnPanic _ hp hflag => exact .inl ⟨_, _, hp, hflag⟩
  | returnFailed _ hp => exact .inr hp

/-- In every state `Operate` tells the truth unless it had no descriptors and its status was OK all
along. -/
theorem Sound.result_iff (hs : Sound s) (h : s.MayReturn p) :
    (s.result p = true → s.Performed p) ↔
      (s.device.place p = .failed → s.mem (s.call p).resp ≠ 0) := by
  constructor
  · rintro hr hfailed hzero
    obtain ⟨tr, m, hp, -⟩ := hr (decide_eq_true hzero)
    cases hp.symm.trans hfailed
  · intro hne hr
    rcases h.cases with ⟨tr, m, hp, hflag⟩ | hfailed
    · exact hs.performed hp hflag hr
    · exact absurd (of_decide_eq_true hr) (hne hfailed)

/-- A call that finds no descriptors starts with fewer than three free ones. -/
theorem free_lt {d : Device} (hst : Device.Step 1 s.device (.construct p 0 c.buffers) d)
    (hfailed : d.place p = .failed) : (s.device.queue 0).free < 3 := by
  cases hst with
  | construct =>
    rw [goTo_place_self] at hfailed
    cases hfailed
  | @constructFail _ _ _ descs q _ _ _ _ hq =>
    by_contra hge
    obtain ⟨descs', q', hq', -⟩ := ((s.device.queue 0).allocMultiDesc_all_or_none 3).1 (by omega)
    cases (Option.some.inj (hq'.symm.trans hq))

theorem construct_place {d : Device} (hst : Device.Step 1 s.device (.construct p 0 c.buffers) d)
    (hne : p' ≠ p) : d.place p' = s.device.place p' := by
  cases hst with
  | construct => exact goTo_place_ne _ hne
  | constructFail => exact goTo_place_ne _ hne

/-- When every call finds descriptors or a status that is not OK, no call without descriptors has
status OK. -/
theorem Sound.failed_status (hs : Sound s) (hst : Step s e t) (he : e.Sendable s)
    (hold : ∀ p, s.device.place p = .failed → s.mem (s.call p).resp ≠ 0)
    (hp : t.device.place p = .failed) : t.mem (t.call p).resp ≠ 0 := by
  cases hst with
  | @call p' c d hst hown hapart =>
    by_cases hpp : p = p'
    · subst hpp
      have hlt := free_lt hst hp
      dsimp only
      rw [Function.update_self]
      exact he.resolve_left (by omega)
    · dsimp only
      rw [Function.update_of_ne hpp]
      exact hold p ((construct_place hst hpp).symm.trans hp)
  | @run a d hst ha =>
    refine hold p ?_
    cases goes hst ha p with
    | stay h => exact h.symm.trans hp
    | request _ _ h => rcases h with h | ⟨h, -⟩ <;> cases h.symm.trans hp
    | trigger _ h => cases h.symm.trans hp
    | publish _ h => cases h.symm.trans hp
    | raise _ h => cases h.symm.trans hp
    | «return» _ h => rcases h with h | h <;> cases h.symm.trans hp
  | fetch => exact hold p hp
  | @complete c len m' hc hm =>
    obtain ⟨p₀, tr₀, m₀, hp₀, hh₀⟩ := hs.exists_posted hc
    have hp' : s.device.place p = .failed := hp
    have hne : p ≠ p₀ := by
      rintro rfl
      rw [hp'] at hp₀
      cases hp₀
    dsimp only
    rw [hs.complete_same hp₀ hh₀ hm hne (by rw [hp']; simp)]
    exact hold p hp
  | write hm =>
    have hp' : s.device.place p = .failed := hp
    dsimp only
    rw [hm p (by rw [hp']; simp)]
    exact hold p hp

theorem NextSendable.failed_status (h : Reachable Initial NextSendable s) :
    (s.device.queue 0).used.length < 2 ^ 16 →
      ∀ p, s.device.place p = .failed → s.mem (s.call p).resp ≠ 0 := by
  induction h with
  | start h =>
    intro _ p hp
    rw [h.1] at hp
    cases hp
  | step h ht ih =>
    obtain ⟨e, hst, he⟩ := ht
    intro hfew p hp
    have hfew' := hst.used.trans_lt hfew
    exact (Next.sound (reachable h) hfew').failed_status hst he (ih hfew') hp

/-- An operation that reports success has been sent and has been worked off with status OK, in every
run in which each call finds three free descriptors or a status that is not OK, as long as fewer
than `2 ^ 16` requests have completed. In any run a call reports a success that it did not have
exactly when it had no descriptors and its status was OK from the start. -/
theorem success_performed (hfew : (s.device.queue 0).used.length < 2 ^ 16) :
    (Reachable Initial NextSendable s → ∀ p, s.MayReturn p → s.result p = true → s.Performed p) ∧
    (Reachable Initial Next s → ∀ p, s.MayReturn p → ((s.result p = true → s.Performed p) ↔
      (s.device.place p = .failed → s.mem (s.call p).resp ≠ 0))) := by
  constructor
  · intro h p hp
    have hs := Next.sound (NextSendable.reachable h) hfew
    exact (hs.result_iff hp).mpr (NextSendable.failed_status h hfew p)
  · intro h p hp
    exact (Next.sound h hfew).result_iff hp

/-- One process has read a block. -/
theorem success_performed_read : ∃ s : Operations, s.MayReturn 0 ∧
    s.result 0 = true ∧ s.Performed 0 := by
  have halloc : Queue.zero.allocMultiDesc 3 =
      some (true, [0, 1, 2], ((Queue.zero.mark 0).mark 1).mark 2) := rfl
  have h₁ : Reachable Initial NextSendable _ := .step
    (.start (s := ⟨Device.init, fun _ => 0, fun _ => ⟨.read, 100, 200, 1000⟩, []⟩) ⟨rfl, rfl⟩)
    ⟨_, @Step.call _ 0 ⟨.read, 100, 200, 1000⟩ _
    (@Device.Step.construct 1 _ 0 0 _ _ _ rfl rfl (by decide)
      (by simp [Call.buffers, BlockDevice.operate]) halloc) (by decide) (fun _ h => absurd rfl h),
      .inl (by decide)⟩
  have h₂ := Reachable.step h₁
      ⟨_, .run (@Device.Step.request 1 _ 0 0 ⟨0, [0, 1, 2]⟩ _ _ _ rfl rfl) trivial,
    trivial⟩
  have h₃ := Reachable.step h₂
      ⟨_, .run (@Device.Step.request 1 _ 0 1 ⟨0, [0, 1, 2]⟩ _ _ _ rfl rfl) trivial,
    trivial⟩
  have h₄ := Reachable.step h₃
      ⟨_, .run (@Device.Step.requestLast 1 _ 0 2 ⟨0, [0, 1, 2]⟩ _ rfl rfl) trivial,
    trivial⟩
  have h₅ := Reachable.step h₄
      ⟨_, .run (@Device.Step.trigger 1 _ 0 ⟨0, [0, 1, 2]⟩ rfl rfl) trivial, trivial⟩
  have h₆ := Reachable.step h₅
      ⟨_, .run (@Device.Step.publish 1 _ 0 ⟨0, [0, 1, 2]⟩ rfl rfl) trivial, trivial⟩
  have h₇ := Reachable.step h₆
      ⟨_, .run (@Device.Step.raise 1 _ 0 0 ⟨0, [0, 1, 2]⟩ rfl rfl) trivial, trivial⟩
  have h₈ := Reachable.step h₇ ⟨_, .fetch (by decide), trivial⟩
  have h₉ := Reachable.step h₈ ⟨_, @Step.complete _ ⟨0, 0⟩ 513 (fun _ => 0) (by decide)
    (Memory.Same.refl _ _), trivial⟩
  have h₁₀ := Reachable.step h₉ ⟨_, .run (@Device.Step.interrupt 1 _ rfl) trivial, trivial⟩
  have h₁₁ := Reachable.step h₁₀
      ⟨_, .run (@Device.Step.consume 1 _ 0 rfl (by decide) (by decide)) trivial,
    trivial⟩
  have h₁₂ := Reachable.step h₁₁ ⟨_, .run (@Device.Step.next 1 _ 0 rfl (by decide) (by decide)) trivial,
    trivial⟩
  have h₁₃ := Reachable.step h₁₂ ⟨_, .run (@Device.Step.leave 1 _ rfl) trivial, trivial⟩
  refine ⟨_, ?may, ?ok, (success_performed ?few).1 h₁₃ 0 ?may ?ok⟩
  case may => exact ⟨_, @Device.Step.return 1 _ 0 0 ⟨0, [0, 1, 2]⟩ _ rfl rfl rfl rfl⟩
  case ok => rfl
  case few => decide

/-! ## Running out of descriptors -/

/-- Descriptors that are taken are not free any more. -/
theorem free_of_allocated {q q' : Queue} {descs : List ℕ} (h : q.Allocated descs q') :
    q.free = descs.length + q'.free := by
  have hnodup : ∀ q : Queue, ((List.range queue_buffer_size).filter fun i => ¬ q.taken i).Nodup :=
    fun q => List.nodup_range.filter _
  have hperm : ((List.range queue_buffer_size).filter fun i => ¬ q.taken i).Perm
      (descs ++ (List.range queue_buffer_size).filter fun i => ¬ q'.taken i) := by
    refine (List.perm_ext_iff_of_nodup (hnodup q) ?_).mpr fun d => ?_
    · refine List.nodup_append.mpr ⟨h.nodup, hnodup q', ?_⟩
      rintro d hd _ hd' rfl
      have htaken := (h.taken d).mpr (.inl hd)
      simp [htaken] at hd'
    · have hfresh := h.fresh d
      have htaken := h.taken d
      simp only [List.mem_append, List.mem_filter, List.mem_range, decide_eq_true_eq, htaken, not_or]
      constructor
      · rintro ⟨hlt, hfree⟩
        by_cases hd : d ∈ descs
        · exact .inl hd
        · exact .inr ⟨hlt, hd, hfree⟩
      · rintro (hd | ⟨hlt, -, hfree⟩)
        · exact hfresh hd
        · exact ⟨hlt, hfree⟩
  rw [Queue.free, hperm.length_eq, List.length_append, Queue.free]

/-- The calls of different processes, at addresses far enough apart. -/
def callAt (p : ℕ) : Call := ⟨.read, 0, 1024 * p, 1024 * p + 512⟩

theorem apart_callAt (hne : p ≠ p') : Call.Apart (callAt p) (callAt p') := by
  simp only [Call.Apart, callAt]
  omega

/-- Ten calls leave two descriptors. -/
theorem exists_calls (k : ℕ) (hk : k ≤ 10) : ∃ s, Reachable Initial Next s ∧ s.device.critical = none ∧
    (s.device.queue 0).used = [] ∧ (∀ p, k ≤ p → s.device.place p = .outside) ∧
    (s.device.queue 0).free + 3 * k = 32 ∧ s.mem = (fun _ => 0) ∧ s.call = callAt := by
  induction k with
  | zero =>
    exact ⟨⟨Device.init, fun _ => 0, callAt, []⟩, .start ⟨rfl, rfl⟩, rfl, rfl, fun _ _ => rfl,
      by decide, rfl, rfl⟩
  | succ k ih =>
    obtain ⟨s, hs, hcrit, hused, hout, hfree, hmem, hcall⟩ := ih (by omega)
    obtain ⟨r, hr, hres⟩ := Queue.allocMultiDesc_spec (s.device.queue 0) (callAt k).buffers.length
    have hdone := hres.done_of_free (show 3 ≤ _ by omega)
    cases hres with
    | fail => cases hdone
    | @done descs q halloc hlen =>
      have hst := Device.Step.construct (n := 1) hcrit (hout k le_rfl) Nat.one_pos
        (by simp [Call.buffers, BlockDevice.operate]) hr
      have hcalls : Function.update s.call k (callAt k) = callAt := by
        rw [hcall, Function.update_eq_self]
      refine ⟨_, hs.step ⟨_, .call hst (.inr (le_refl _)) fun p' hp' => ?_⟩, hcrit, ?_, fun p hp => ?_,
        ?_, hmem, hcalls⟩
      · have hne : k ≠ p' := by
          rintro rfl
          exact hp' (hout k le_rfl)
        rw [hcall]
        exact ⟨apart_callAt hne, apart_callAt hne.symm⟩
      · dsimp only
        rw [goTo_queue, setQueue_queue_self, halloc.rest, hused]
      · dsimp only
        rw [goTo_place_ne _ (by omega)]
        exact hout p (by omega)
      · have hthree : descs.length = 3 := hlen
        have hsum := free_of_allocated halloc
        dsimp only
        rw [goTo_queue, setQueue_queue_self]
        omega

/-- With ten requests under way an eleventh call finds two descriptors, sends nothing and reports
success. -/
theorem success_without_request : ∃ s, Reachable Initial Next s ∧ (s.device.queue 0).used = [] ∧
    s.MayReturn 10 ∧ s.result 10 = true ∧ ¬ s.Performed 10 := by
  obtain ⟨s, hs, hcrit, hused, hout, hfree, hmem, hcall⟩ := exists_calls 10 le_rfl
  obtain ⟨r, hr, hres⟩ := Queue.allocMultiDesc_spec (s.device.queue 0) (callAt 10).buffers.length
  cases hres with
  | done halloc hlen =>
    have hle := halloc.length_le_free
    have hthree : (callAt 10).buffers.length = 3 := rfl
    omega
  | @fail got q _ _ _ _ _ hrest =>
    have hst := Device.Step.constructFail (n := 1) hcrit (hout 10 le_rfl) Nat.one_pos
      (by simp [Call.buffers, BlockDevice.operate]) hr
    refine ⟨_, hs.step ⟨_, .call hst (.inr (le_refl _)) fun p' hp' => ?_⟩, ?_,
      ⟨_, .returnFailed hcrit (goTo_place_self _)⟩, ?_, ?_⟩
    · have hne : 10 ≠ p' := by
        rintro rfl
        exact hp' (hout 10 le_rfl)
      rw [hcall]
      exact ⟨apart_callAt hne, apart_callAt hne.symm⟩
    · dsimp only
      rw [goTo_queue, setQueue_queue_self, hrest, hused]
    · rw [result, hmem]
      rfl
    · rintro ⟨tr, m, hp, -⟩
      dsimp only at hp
      rw [goTo_place_self] at hp
      cases hp

end Operations

end OrangeOs.Driver
