import OrangeOs.Driver.Transport

/-! # Requests under way

The invariant of the processes, the handler and the device. The descriptors of different requests are
different, each head under way belongs to a request that waits for it, and the flag of a request
that waits stays up until the driver consumes its chain. A flag is shared by all queues, so the
handler may only consume an element if no request of another queue goes by the same number.
-/

namespace OrangeOs.Driver

/-- The transport that holds descriptors at a place. -/
def Place.transport : Place → Option Transport
  | requesting tr _ _ => some tr
  | constructed tr => some tr
  | armed tr => some tr
  | published tr _ => some tr
  | waiting tr _ => some tr
  | _ => none

/-- The transport whose chain has been made available, and the number of the chain. -/
def Place.posted : Place → Option (Transport × ℕ)
  | published tr number => some (tr, number)
  | waiting tr number => some (tr, number)
  | _ => none

theorem Place.transport_of_posted {l : Place} {tr : Transport} {m : ℕ}
    (h : l.posted = some (tr, m)) : l.transport = some tr := by
  cases l <;> simp_all [posted, transport]

namespace Device

variable {n i j p p' m : ℕ} {s t : Device} {a : Act} {tr tr' : Transport} {l : Place} {q : Queue}
  {r : Rings} {d h : ℕ} {reqs : List Buffer} {descs : List ℕ}

/-! ## Parts of a state -/

@[simp] theorem goTo_queue (s : Device) : (s.goTo p l).queue = s.queue := rfl
@[simp] theorem goTo_waiting_flag (s : Device) : (s.goTo p l).waiting_flag = s.waiting_flag := rfl
@[simp] theorem goTo_critical (s : Device) : (s.goTo p l).critical = s.critical := rfl
@[simp] theorem goTo_place_self (s : Device) : (s.goTo p l).place p = l := Function.update_self ..
theorem goTo_place_ne (s : Device) (hp : p' ≠ p) : (s.goTo p l).place p' = s.place p' :=
  Function.update_of_ne hp ..

@[simp] theorem setQueue_place (s : Device) : (s.setQueue i q).place = s.place := rfl
@[simp] theorem setQueue_waiting_flag (s : Device) :
    (s.setQueue i q).waiting_flag = s.waiting_flag := rfl
@[simp] theorem setQueue_critical (s : Device) : (s.setQueue i q).critical = s.critical := rfl
@[simp] theorem setQueue_queue_self (s : Device) : (s.setQueue i q).queue i = q :=
  Function.update_self ..
theorem setQueue_queue_ne (s : Device) (hj : j ≠ i) : (s.setQueue i q).queue j = s.queue j :=
  Function.update_of_ne hj ..

@[simp] theorem setRings_place (s : Device) : (s.setRings i r).place = s.place := rfl
@[simp] theorem setRings_waiting_flag (s : Device) :
    (s.setRings i r).waiting_flag = s.waiting_flag := rfl
@[simp] theorem setRings_critical (s : Device) : (s.setRings i r).critical = s.critical := rfl
@[simp] theorem setRings_queue_self (s : Device) :
    (s.setRings i r).queue i = { s.queue i with toRings := r } := Function.update_self ..
theorem setRings_queue_ne (s : Device) (hj : j ≠ i) : (s.setRings i r).queue j = s.queue j :=
  Function.update_of_ne hj ..

@[simp] theorem setFlag_queue (s : Device) (b : Bool) : (s.setFlag h b).queue = s.queue := rfl
@[simp] theorem setFlag_place (s : Device) (b : Bool) : (s.setFlag h b).place = s.place := rfl
@[simp] theorem setFlag_critical (s : Device) (b : Bool) :
    (s.setFlag h b).critical = s.critical := rfl
@[simp] theorem enter_queue (s : Device) (c : Option Holder) : (s.enter c).queue = s.queue := rfl
@[simp] theorem enter_place (s : Device) (c : Option Holder) : (s.enter c).place = s.place := rfl
@[simp] theorem enter_waiting_flag (s : Device) (c : Option Holder) :
    (s.enter c).waiting_flag = s.waiting_flag := rfl
@[simp] theorem enter_critical (s : Device) (c : Option Holder) : (s.enter c).critical = c := rfl

theorem setRings_taken (s : Device) (i j d : ℕ) (r : Rings) :
    ((s.setRings i r).queue j).taken d ↔ (s.queue j).taken d := by
  by_cases hj : j = i
  · subst hj
    rw [setRings_queue_self]
    rfl
  · rw [setRings_queue_ne s hj]

/-! ## The invariant -/

/-- The descriptors that a process holds are its own, and in use. -/
structure Owns (n : ℕ) (s : Device) : Prop where
  index : ∀ p tr, (s.place p).transport = some tr → tr.queue_index < n
  ne_nil : ∀ p tr, (s.place p).transport = some tr → tr.descs ≠ []
  nodup : ∀ p tr, (s.place p).transport = some tr → tr.descs.Nodup
  taken : ∀ p tr, (s.place p).transport = some tr → ∀ d ∈ tr.descs,
    d < queue_buffer_size ∧ (s.queue tr.queue_index).taken d
  disjoint : ∀ p p' tr tr', p ≠ p' → (s.place p).transport = some tr →
    (s.place p').transport = some tr' → tr.queue_index = tr'.queue_index →
    tr.descs.Disjoint tr'.descs

/-- The chains under way belong to the requests that have been made available. -/
structure Posted (n : ℕ) (s : Device) : Prop where
  critical : ∀ p tr, s.place p = .armed tr → s.critical = some (.process p)
  raising : ∀ p tr m, s.place p = .published tr m → s.critical = some (.process p)
  armed : ∀ p tr, s.place p = .armed tr →
    (s.queue tr.queue_index).avail_ring ((s.queue tr.queue_index).posted % queue_buffer_size) =
      tr.head
  live : ∀ i < n, ∀ h ∈ (s.queue i).live, ∃ p tr m,
    (s.place p).posted = some (tr, m) ∧ tr.queue_index = i ∧ tr.head = h
  chain : ∀ p tr m, (s.place p).posted = some (tr, m) →
    (s.queue tr.queue_index).AtDevice ⟨m, tr.head⟩ ∨ ⟨m, tr.head⟩ ∈ (s.queue tr.queue_index).used
  flag : ∀ p tr m, s.place p = .waiting tr m → tr.head ∈ (s.queue tr.queue_index).live →
    s.waiting_flag tr.head = true

structure Sound (n : ℕ) (s : Device) : Prop where
  rings : ∀ i < n, (s.queue i).Sound
  owns : Owns n s
  posted : Posted n s

theorem sound_init : Sound n init where
  rings _ _ := Rings.sound_zero
  owns := ⟨by simp [init, Place.transport], by simp [init, Place.transport],
    by simp [init, Place.transport], by simp [init, Place.transport],
    by simp [init, Place.transport]⟩
  posted := ⟨by simp [init], by simp [init], by simp [init],
    fun _ _ _ hh => absurd hh List.not_mem_nil, by simp [init, Place.posted], by simp [init]⟩

theorem head_mem (h : tr.descs ≠ []) : tr.head ∈ tr.descs := by
  cases hd : tr.descs with
  | nil => exact absurd hd h
  | cons d ds => simp [Transport.head, hd]

namespace Owns

/-- A step that keeps the bits and the transports. -/
theorem congr (ho : Owns n s)
    (htr : ∀ p tr, (t.place p).transport = some tr → (s.place p).transport = some tr)
    (htaken : ∀ p tr, (s.place p).transport = some tr → (t.place p).transport = some tr →
      ∀ d ∈ tr.descs, (s.queue tr.queue_index).taken d → (t.queue tr.queue_index).taken d) :
    Owns n t where
  index p tr h := ho.index p tr (htr p tr h)
  ne_nil p tr h := ho.ne_nil p tr (htr p tr h)
  nodup p tr h := ho.nodup p tr (htr p tr h)
  taken p tr h d hd :=
    (ho.taken p tr (htr p tr h) d hd).imp_right (htaken p tr (htr p tr h) h d hd)
  disjoint p p' tr tr' hne h h' := ho.disjoint p p' tr tr' hne (htr p tr h) (htr p' tr' h')

/-- A process goes to a place where it has the same transport or none. -/
theorem move (ho : Owns n s) (hbits : ∀ j d, (s.queue j).taken d → (t.queue j).taken d)
    (hplace : ∀ p', p' ≠ p → t.place p' = s.place p')
    (hp : ∀ tr, (t.place p).transport = some tr → (s.place p).transport = some tr) : Owns n t := by
  refine ho.congr (fun p' tr h => ?_) fun _ tr _ _ d _ => hbits _ d
  by_cases he : p' = p
  · exact he ▸ hp tr (he ▸ h)
  · rwa [hplace p' he] at h

/-- A process gets descriptors. -/
theorem construct (ho : Owns n s) (hi : i < n) (hreqs : reqs ≠ [])
    (hq : (s.queue i).Allocated descs q) (hlen : descs.length = reqs.length) :
    Owns n ((s.setQueue i q).goTo p (.requesting ⟨i, descs⟩ 0 reqs)) := by
  have hcases : ∀ p' tr, (((s.setQueue i q).goTo p (.requesting ⟨i, descs⟩ 0 reqs)).place
      p').transport = some tr → (p' = p ∧ tr = ⟨i, descs⟩) ∨
      (p' ≠ p ∧ (s.place p').transport = some tr) := by
    intro p' tr h
    by_cases he : p' = p
    · subst he
      rw [goTo_place_self] at h
      exact .inl ⟨rfl, (Option.some.inj h).symm⟩
    · rw [goTo_place_ne _ he] at h
      exact .inr ⟨he, h⟩
  have hfresh : ∀ p' tr, (s.place p').transport = some tr → tr.queue_index = i →
      tr.descs.Disjoint descs := by
    intro p' tr h he d hd hd'
    exact (hq.fresh d hd').2 (he ▸ (ho.taken p' tr h d hd).2)
  refine ⟨fun p' tr h => ?_, fun p' tr h => ?_, fun p' tr h => ?_, fun p' tr h d hd => ?_, ?_⟩
  · rcases hcases p' tr h with ⟨-, rfl⟩ | ⟨-, h⟩
    · exact hi
    · exact ho.index p' tr h
  · rcases hcases p' tr h with ⟨-, rfl⟩ | ⟨-, h⟩
    · rintro rfl
      exact hreqs (List.eq_nil_of_length_eq_zero hlen.symm)
    · exact ho.ne_nil p' tr h
  · rcases hcases p' tr h with ⟨-, rfl⟩ | ⟨-, h⟩
    · exact hq.nodup
    · exact ho.nodup p' tr h
  · rcases hcases p' tr h with ⟨-, rfl⟩ | ⟨-, h⟩
    · exact ⟨(hq.fresh d hd).1, by simpa using (hq.taken d).mpr (.inl hd)⟩
    · refine ⟨(ho.taken p' tr h d hd).1, ?_⟩
      have hold := (ho.taken p' tr h d hd).2
      by_cases he : tr.queue_index = i
      · rw [he] at hold ⊢
        simpa using (hq.taken d).mpr (.inr hold)
      · rwa [goTo_queue, setQueue_queue_ne _ he]
  · intro p₁ p₂ tr₁ tr₂ hne h₁ h₂ he
    rcases hcases p₁ tr₁ h₁ with ⟨rfl, rfl⟩ | ⟨-, hold₁⟩ <;>
      rcases hcases p₂ tr₂ h₂ with ⟨rfl, rfl⟩ | ⟨-, hold₂⟩
    · exact absurd rfl hne
    · exact (hfresh p₂ tr₂ hold₂ he.symm).symm
    · exact hfresh p₁ tr₁ hold₁ he
    · exact ho.disjoint p₁ p₂ tr₁ tr₂ hne hold₁ hold₂ he

/-- A process gives its descriptors back. -/
theorem release (ho : Owns n s) (htr : (s.place p).transport = some tr)
    (hl : l.transport = none)
    (hq : (s.queue tr.queue_index).Freed tr.descs q) :
    Owns n ((s.setQueue tr.queue_index q).goTo p l) := by
  have hne : ∀ p' tr', (((s.setQueue tr.queue_index q).goTo p l).place p').transport = some tr' →
      p' ≠ p ∧ (s.place p').transport = some tr' := by
    intro p' tr' h
    by_cases he : p' = p
    · subst he
      rw [goTo_place_self, hl] at h
      simp at h
    · exact ⟨he, by rwa [goTo_place_ne _ he] at h⟩
  refine ho.congr (fun p' tr' h => (hne p' tr' h).2) fun p' tr' h ht d hd hold => ?_
  by_cases he : tr'.queue_index = tr.queue_index
  · have hdisj := ho.disjoint p' p tr' tr (hne p' tr' ht).1 h htr he
    rw [he] at hold ⊢
    simpa using (hq.taken d).mpr ⟨fun hmem => hdisj hd hmem, hold⟩
  · rwa [goTo_queue, setQueue_queue_ne _ he]

end Owns

namespace Sound

/-- The head of a request that has not been made available is not under way. -/
theorem head_not_live (hs : Sound n s) (htr : (s.place p).transport = some tr)
    (hp : (s.place p).posted = none) : tr.head ∉ (s.queue tr.queue_index).live := by
  intro hmem
  obtain ⟨p', tr', m, hp', hi, hh⟩ :=
    hs.posted.live _ (hs.owns.index p tr htr) _ hmem
  have hne : p ≠ p' := by
    rintro rfl
    simp [hp] at hp'
  have htr' := Place.transport_of_posted hp'
  exact hs.owns.disjoint p p' tr tr' hne htr htr' hi.symm (head_mem (hs.owns.ne_nil p tr htr))
    (hh ▸ head_mem (hs.owns.ne_nil p' tr' htr'))

theorem head_lt (hs : Sound n s) (htr : (s.place p).transport = some tr) :
    tr.head < queue_buffer_size :=
  (hs.owns.taken p tr htr _ (head_mem (hs.owns.ne_nil p tr htr))).1

/-- The head of a chain that is under way tells its request. -/
theorem posted_unique (hs : Sound n s) {m' : ℕ} (hp : (s.place p).posted = some (tr, m))
    (hp' : (s.place p').posted = some (tr', m')) (hi : tr.queue_index = tr'.queue_index)
    (hh : tr.head = tr'.head) : p = p' := by
  by_contra hne
  have htr := Place.transport_of_posted hp
  have htr' := Place.transport_of_posted hp'
  exact hs.owns.disjoint p p' tr tr' hne htr htr' hi (head_mem (hs.owns.ne_nil p tr htr))
    (hh ▸ head_mem (hs.owns.ne_nil p' tr' htr'))

end Sound

/-- A step that leaves the rings and the flags alone, in which at most one process moves, from a place
and to a place where it has no chain under way. -/
theorem Posted.quiet (hp : Posted n s) (hrings : ∀ j, (t.queue j).toRings = (s.queue j).toRings)
    (hflag : t.waiting_flag = s.waiting_flag) (hcrit : t.critical = s.critical)
    (hplace : ∀ p', p' ≠ p → t.place p' = s.place p') (hnew : (t.place p).posted = none)
    (harmed : ∀ tr, t.place p ≠ .armed tr)
    (hold : ∀ tr m, (s.place p).posted = some (tr, m) →
      tr.head ∉ (s.queue tr.queue_index).live) : Posted n t := by
  have hback : ∀ p' l, t.place p' = l → (l.posted ≠ none ∨ ∃ tr, l = .armed tr) →
      s.place p' = l := by
    rintro p' l rfl hl
    have hne : p' ≠ p := by
      rintro rfl
      rcases hl with hl | ⟨tr, hl⟩
      · exact hl hnew
      · exact harmed tr hl
    exact (hplace p' hne).symm
  refine ⟨fun p' tr h => ?_, fun p' tr m h => ?_, fun p' tr h => ?_, fun i hi h hh => ?_,
    fun p' tr m h => ?_, fun p' tr m h => ?_⟩
  · exact hcrit ▸ hp.critical p' tr (hback p' _ h (.inr ⟨tr, rfl⟩))
  · exact hcrit ▸ hp.raising p' tr m (hback p' _ h (.inl (by simp [Place.posted])))
  · rw [hrings]
    exact hp.armed p' tr (hback p' _ h (.inr ⟨tr, rfl⟩))
  · rw [hrings] at hh
    obtain ⟨p', tr, m, hp', htr, hhead⟩ := hp.live i hi h hh
    refine ⟨p', tr, m, ?_, htr, hhead⟩
    rwa [hplace p']
    rintro rfl
    exact hold tr m hp' (by rwa [htr, hhead])
  · rw [hrings]
    refine hp.chain p' tr m ?_
    rwa [hback p' _ rfl (.inl (by simp [h]))]
  · rw [hrings, hflag]
    exact hp.flag p' tr m (hback p' _ h (.inl (by simp [Place.posted])))

namespace Sound

/-! ## Steps -/

theorem construct (hs : Sound n s) (hi : i < n) (hreqs : reqs ≠ [])
    (hplace : s.place p = .outside) (hq : (s.queue i).Allocated descs q)
    (hlen : descs.length = reqs.length) :
    Sound n ((s.setQueue i q).goTo p (.requesting ⟨i, descs⟩ 0 reqs)) := by
  have hrings : ∀ j, ((s.setQueue i q).queue j).toRings = (s.queue j).toRings := by
    intro j
    by_cases hj : j = i
    · rw [hj, setQueue_queue_self, hq.rest]
    · rw [setQueue_queue_ne _ hj]
  refine ⟨fun j hj => ?_, hs.owns.construct hi hreqs hq hlen, ?_⟩
  · rw [goTo_queue, hrings]
    exact hs.rings j hj
  · exact hs.posted.quiet hrings rfl rfl (fun p' hp' => goTo_place_ne _ hp')
      (by simp [Place.posted]) (by simp) (by simp [hplace, Place.posted])

/-- A step of one process that changes descriptors, but neither their bits nor the rings. -/
theorem write (hs : Sound n s) (hrings : ∀ j, (t.queue j).toRings = (s.queue j).toRings)
    (hbits : ∀ j d, (s.queue j).taken d → (t.queue j).taken d)
    (hflag : t.waiting_flag = s.waiting_flag) (hcrit : t.critical = s.critical)
    (hplace : ∀ p', p' ≠ p → t.place p' = s.place p')
    (htr : ∀ tr, (t.place p).transport = some tr → (s.place p).transport = some tr)
    (hnew : (t.place p).posted = none) (harmed : ∀ tr, t.place p ≠ .armed tr)
    (hold : ∀ tr m, (s.place p).posted = some (tr, m) →
      tr.head ∉ (s.queue tr.queue_index).live) : Sound n t where
  rings i hi := hrings i ▸ hs.rings i hi
  owns := hs.owns.move hbits hplace htr
  posted := hs.posted.quiet hrings hflag hcrit hplace hnew harmed hold

theorem release (hs : Sound n s) (hplace : s.place p = .waiting tr m)
    (hflag : s.waiting_flag tr.head = false)
    (hq : (s.queue tr.queue_index).Freed tr.descs q) :
    Sound n ((s.setQueue tr.queue_index q).goTo p .outside) := by
  have hrings : ∀ j, ((s.setQueue tr.queue_index q).queue j).toRings = (s.queue j).toRings := by
    intro j
    by_cases hj : j = tr.queue_index
    · rw [hj, setQueue_queue_self, hq.rest]
    · rw [setQueue_queue_ne _ hj]
  have htr : (s.place p).transport = some tr := by simp [hplace, Place.transport]
  refine ⟨fun j hj => ?_, hs.owns.release htr rfl hq, ?_⟩
  · rw [goTo_queue, hrings]
    exact hs.rings j hj
  · refine hs.posted.quiet hrings rfl rfl (fun p' hp' => goTo_place_ne _ hp')
      (by simp [Place.posted]) (by simp) fun tr' m' hp hmem => ?_
    obtain ⟨rfl, rfl⟩ : tr = tr' ∧ m = m' := by simpa [hplace, Place.posted] using hp
    simp [hs.posted.flag p tr m hplace hmem] at hflag

theorem trigger (hs : Sound n s) (hcrit : s.critical = none)
    (hplace : s.place p = .constructed tr) : Sound n (((s.setRings tr.queue_index
      ((s.queue tr.queue_index).setAvail tr.head)).goTo p (.armed tr)).enter
        (some (.process p))) := by
  have htr : (s.place p).transport = some tr := by simp [hplace, Place.transport]
  have hrs := hs.rings _ (hs.owns.index p tr htr)
  have hroom := hrs.room (hs.head_not_live htr (by simp [hplace, Place.posted])) (hs.head_lt htr)
  have hlive : ∀ j, (((s.setRings tr.queue_index ((s.queue tr.queue_index).setAvail
      tr.head)).queue j).live = (s.queue j).live) := by
    intro j
    by_cases hj : j = tr.queue_index
    · rw [hj, setRings_queue_self]
      exact hrs.setAvail_live hroom
    · rw [setRings_queue_ne _ hj]
  refine ⟨fun j hj => ?_, ?_, ?_⟩
  · by_cases hji : j = tr.queue_index
    · subst hji
      simpa using hrs.setAvail hroom
    · simpa [setRings_queue_ne _ hji] using hs.rings j hj
  · refine hs.owns.move (p := p) (fun j d hd => ?_) (fun p' hp' => goTo_place_ne _ hp') ?_
    · exact (setRings_taken s _ j d _).mpr hd
    · simp [hplace, Place.transport]
  · have hback : ∀ p', p' ≠ p → (((s.setRings tr.queue_index ((s.queue tr.queue_index).setAvail
        tr.head)).goTo p (.armed tr)).enter (some (.process p))).place p' = s.place p' :=
      fun p' hp' => goTo_place_ne _ hp'
    have hself : (((s.setRings tr.queue_index ((s.queue tr.queue_index).setAvail
        tr.head)).goTo p (.armed tr)).enter (some (.process p))).place p = .armed tr :=
      goTo_place_self _
    refine ⟨fun p' tr' h => ?_, fun p' tr' m h => ?_, fun p' tr' h => ?_, fun j hj h hh => ?_,
      fun p' tr' m h => ?_, fun p' tr' m h => ?_⟩
    · by_cases hpp : p' = p
      · rw [hpp]
        rfl
      · simp [hs.posted.critical p' tr' (hback p' hpp ▸ h)] at hcrit
    · have hpp : p' ≠ p := by
        rintro rfl
        simp [hself] at h
      simp [hs.posted.raising p' tr' m (hback p' hpp ▸ h)] at hcrit
    · by_cases hpp : p' = p
      · subst hpp
        obtain rfl : tr = tr' := by simpa [hself] using h
        simp only [enter_queue, goTo_queue, setRings_queue_self, hrs.setAvail_ring]
        exact Function.update_self ..
      · simp [hs.posted.critical p' tr' (hback p' hpp ▸ h)] at hcrit
    · rw [enter_queue, goTo_queue, hlive] at hh
      obtain ⟨p', tr', m, hp', htr', hhead⟩ := hs.posted.live j hj h hh
      refine ⟨p', tr', m, ?_, htr', hhead⟩
      rwa [hback]
      rintro rfl
      simp [hplace, Place.posted] at hp'
    · have hpp : p' ≠ p := by
        rintro rfl
        simp [hself, Place.posted] at h
      have hold := hs.posted.chain p' tr' m (hback p' hpp ▸ h)
      by_cases hj : tr'.queue_index = tr.queue_index
      · rw [hj] at hold ⊢
        rw [enter_queue, goTo_queue, setRings_queue_self]
        exact hold.imp_left (hrs.setAvail_atDevice hroom)
      · simpa [setRings_queue_ne _ hj] using hold
    · have hpp : p' ≠ p := by
        rintro rfl
        simp [hself] at h
      intro hmem
      rw [enter_queue, goTo_queue, hlive] at hmem
      exact hs.posted.flag p' tr' m (hback p' hpp ▸ h) hmem

theorem publish (hs : Sound n s) (hcrit : s.critical = some (.process p))
    (hplace : s.place p = .armed tr) :
    Sound n ((s.setRings tr.queue_index (s.queue tr.queue_index).advance).goTo p
      (.published tr (s.queue tr.queue_index).posted)) := by
  have htr : (s.place p).transport = some tr := by simp [hplace, Place.transport]
  have hposted : (s.place p).posted = none := by simp [hplace, Place.posted]
  have hrs := hs.rings _ (hs.owns.index p tr htr)
  have hhead := hs.posted.armed p tr hplace
  have hfresh := hs.head_not_live htr hposted
  have hlive : ∀ j, ∀ h ∈ ((s.setRings tr.queue_index
      (s.queue tr.queue_index).advance).queue j).live,
      (j = tr.queue_index ∧ h = tr.head) ∨ h ∈ (s.queue j).live := by
    intro j h hh
    by_cases hj : j = tr.queue_index
    · subst hj
      rw [setRings_queue_self] at hh
      rcases List.mem_cons.mp (hrs.advance_live.mem_iff.mp hh) with he | hh
      · exact .inl ⟨rfl, he.trans hhead⟩
      · exact .inr hh
    · rw [setRings_queue_ne _ hj] at hh
      exact .inr hh
  refine ⟨fun j hj => ?_, ?_, ?_⟩
  · by_cases hji : j = tr.queue_index
    · subst hji
      simpa using hrs.advance (hhead ▸ hfresh) (hhead ▸ hs.head_lt htr)
    · simpa [setRings_queue_ne _ hji] using hs.rings j hj
  · refine hs.owns.move (p := p) (fun j d hd => ?_) (fun p' hp' => goTo_place_ne _ hp') ?_
    · exact (setRings_taken s _ j d _).mpr hd
    · simp [hplace, Place.transport]
  · refine ⟨fun p' tr' h => ?_, fun p' tr' m h => ?_, fun p' tr' h => ?_, fun j hj h hh => ?_,
      fun p' tr' m h => ?_, fun p' tr' m h => ?_⟩
    · have hpp : p' ≠ p := by
        rintro rfl
        simp at h
      exact hs.posted.critical p' tr' (goTo_place_ne _ hpp ▸ h)
    · by_cases hpp : p' = p
      · exact hpp ▸ hcrit
      · exact hs.posted.raising p' tr' m (goTo_place_ne _ hpp ▸ h)
    · have hpp : p' ≠ p := by
        rintro rfl
        simp at h
      have hcrit' := hs.posted.critical p' tr' (goTo_place_ne _ hpp ▸ h)
      exact absurd (Holder.process.inj (Option.some.inj (hcrit'.symm.trans hcrit))) hpp
    · rcases hlive j h hh with ⟨hj', rfl⟩ | hh
      · exact ⟨p, tr, _, by rw [goTo_place_self]; rfl, hj'.symm, rfl⟩
      · obtain ⟨p', tr', m, hp', htr', hhead'⟩ := hs.posted.live j hj h hh
        have hpp : p' ≠ p := by
          rintro rfl
          simp [hposted] at hp'
        exact ⟨p', tr', m, by rwa [goTo_place_ne _ hpp], htr', hhead'⟩
    · by_cases hpp : p' = p
      · subst hpp
        rw [goTo_place_self] at h
        obtain ⟨rfl, rfl⟩ : tr = tr' ∧ (s.queue tr.queue_index).posted = m := by
          simpa [Place.posted] using h
        left
        rw [goTo_queue, setRings_queue_self, ← hhead]
        exact hrs.advance_new
      · have hold := hs.posted.chain p' tr' m (goTo_place_ne _ hpp ▸ h)
        by_cases hj : tr'.queue_index = tr.queue_index
        · rw [hj] at hold ⊢
          rw [goTo_queue, setRings_queue_self]
          exact hold.imp_left Rings.AtDevice.advance
        · simpa [setRings_queue_ne _ hj] using hold
    · have hpp : p' ≠ p := by
        rintro rfl
        simp at h
      have hold : s.place p' = .waiting tr' m := goTo_place_ne _ hpp ▸ h
      intro hmem
      rcases hlive _ _ hmem with ⟨hj, hh⟩ | hmem
      · have htr' : (s.place p').transport = some tr' := by simp [hold, Place.transport]
        exact absurd (head_mem (hs.owns.ne_nil p' tr' htr')) fun hd =>
          hs.owns.disjoint p' p tr' tr hpp htr' htr hj hd
            (hh ▸ head_mem (hs.owns.ne_nil p tr htr))
      · exact hs.posted.flag p' tr' m hold hmem

theorem raise (hs : Sound n s) (hcrit : s.critical = some (.process p))
    (hplace : s.place p = .published tr m) :
    Sound n (((s.setFlag tr.head true).goTo p (.waiting tr m)).enter none) := by
  have hback : ∀ p', p' ≠ p →
      (((s.setFlag tr.head true).goTo p (.waiting tr m)).enter none).place p' = s.place p' :=
    fun p' hp' => goTo_place_ne _ hp'
  have hself : (((s.setFlag tr.head true).goTo p (.waiting tr m)).enter none).place p =
      .waiting tr m := goTo_place_self _
  have hposted : ∀ p', ((((s.setFlag tr.head true).goTo p (.waiting tr m)).enter none).place
      p').posted = (s.place p').posted := by
    intro p'
    by_cases hpp : p' = p
    · rw [hpp, hself, hplace]
      rfl
    · rw [hback p' hpp]
  have hother : ∀ p', p' ≠ p → s.critical ≠ some (.process p') := by
    intro p' hpp he
    exact hpp (Holder.process.inj (Option.some.inj (he.symm.trans hcrit)))
  refine ⟨hs.rings, ?_, ?_⟩
  · refine hs.owns.move (p := p) (fun _ _ hd => hd) hback ?_
    rw [hself, hplace]
    exact fun _ h => h
  · refine ⟨fun p' tr' h => ?_, fun p' tr' m h => ?_, fun p' tr' h => ?_, fun j hj h hh => ?_,
      fun p' tr' m h => ?_, fun p' tr' m' h hmem => ?_⟩
    · have hpp : p' ≠ p := by
        rintro rfl
        simp [hself] at h
      exact absurd (hs.posted.critical p' tr' (hback p' hpp ▸ h)) (hother p' hpp)
    · have hpp : p' ≠ p := by
        rintro rfl
        simp [hself] at h
      exact absurd (hs.posted.raising p' tr' m (hback p' hpp ▸ h)) (hother p' hpp)
    · have hpp : p' ≠ p := by
        rintro rfl
        simp [hself] at h
      exact absurd (hs.posted.critical p' tr' (hback p' hpp ▸ h)) (hother p' hpp)
    · obtain ⟨p', tr', m', hp', hrest⟩ := hs.posted.live j hj h hh
      exact ⟨p', tr', m', (hposted p').trans hp', hrest⟩
    · exact hs.posted.chain p' tr' m ((hposted p').symm.trans h)
    · by_cases hh : tr'.head = tr.head
      · simp [setFlag, enter, goTo, hh]
      · have hpp : p' ≠ p := by
          rintro rfl
          rw [hself] at h
          exact hh (by rw [(Place.waiting.inj h).1])
        simpa [setFlag, hh] using hs.posted.flag p' tr' m' (hback p' hpp ▸ h) hmem

/-- The handler takes a chain from the used ring. No chain of another queue under way may start with the
same number. -/
theorem consume (hs : Sound n s) (hcrit : ∀ p, s.critical ≠ some (.process p)) (hi : i < n)
    (hne : (s.queue i).last_seen_used_idx ≠ (s.queue i).used_idx)
    (hfew : (s.queue i).used.length < 2 ^ 16)
    (hclear : ∀ j < n, j ≠ i → (s.queue i).element.id ∉ (s.queue j).live) :
    Sound n ((s.setFlag (s.queue i).element.id false).setRings i (s.queue i).consume) := by
  have hrs := hs.rings i hi
  have hlive : ∀ j < n, ∀ h ∈ (((s.setFlag (s.queue i).element.id false).setRings i
      (s.queue i).consume).queue j).live,
      h ∈ (s.queue j).live ∧ h ≠ (s.queue i).element.id := by
    intro j hj h hh
    by_cases hji : j = i
    · subst hji
      rw [setRings_queue_self] at hh
      refine ⟨(hrs.consume_live hne hfew).mem_iff.mpr (List.mem_cons_of_mem _ hh), ?_⟩
      rintro rfl
      exact hrs.element_not_live hne hfew hh
    · rw [setRings_queue_ne _ hji] at hh
      exact ⟨hh, fun he => hclear j hj hji (he ▸ hh)⟩
  refine ⟨fun j hj => ?_, ?_, ?_⟩
  · by_cases hji : j = i
    · subst hji
      simpa using hrs.consume hne hfew
    · simpa [setRings_queue_ne _ hji] using hs.rings j hj
  · exact hs.owns.congr (fun _ _ h => h) fun _ tr _ _ d _ => (setRings_taken _ i _ d _).mpr
  · refine ⟨hs.posted.critical, hs.posted.raising, fun p tr h => absurd
      (hs.posted.critical p tr h) (hcrit p), fun j hj h hh => ?_, fun p tr m h => ?_,
      fun p tr m h hmem => ?_⟩
    · exact hs.posted.live j hj h (hlive j hj h hh).1
    · have hold := hs.posted.chain p tr m h
      by_cases hj : tr.queue_index = i
      · subst hj
        rw [setRings_queue_self]
        exact hold
      · simpa [setRings_queue_ne _ hj] using hold
    · have htr : (s.place p).transport = some tr := by simp [show s.place p = _ from h,
        Place.transport]
      obtain ⟨hold, hh⟩ := hlive _ (hs.owns.index p tr htr) _ hmem
      simpa [setFlag, setRings, setQueue, hh] using hs.posted.flag p tr m h hold

theorem serve (hs : Sound n s) (hi : i < n) (hr : Rings.Serves (s.queue i).toRings r) :
    Sound n (s.setRings i r) := by
  have hrs := hs.rings i hi
  have hlive : ∀ j, ∀ h, h ∈ ((s.setRings i r).queue j).live ↔ h ∈ (s.queue j).live := by
    intro j h
    by_cases hji : j = i
    · subst hji
      rw [setRings_queue_self]
      exact (hrs.serves_live hr).mem_iff
    · rw [setRings_queue_ne _ hji]
  refine ⟨fun j hj => ?_, ?_, ?_⟩
  · by_cases hji : j = i
    · subst hji
      simpa using hrs.serves hr
    · simpa [setRings_queue_ne _ hji] using hs.rings j hj
  · exact hs.owns.congr (fun _ _ h => h) fun _ tr _ _ d _ => (setRings_taken _ i _ d _).mpr
  · refine ⟨hs.posted.critical, hs.posted.raising, fun p tr h => ?_, fun j hj h hh => ?_,
      fun p tr m h => ?_, fun p tr m h hmem => hs.posted.flag p tr m h ((hlive _ _).mp hmem)⟩
    · have hold := hs.posted.armed p tr h
      by_cases hj : tr.queue_index = i
      · subst hj
        rw [setRings_queue_self]
        cases hr <;> exact hold
      · simpa [setRings_queue_ne _ hj] using hold
    · exact hs.posted.live j hj h ((hlive j h).mp hh)
    · have hold := hs.posted.chain p tr m h
      by_cases hj : tr.queue_index = i
      · subst hj
        rw [setRings_queue_self]
        rcases hold with hold | hold
        · exact hrs.serves_atDevice hr hold
        · exact .inr (hr.used.subset hold)
      · simpa [setRings_queue_ne _ hj] using hold

theorem enter (hs : Sound n s) (hcrit : ∀ p, s.critical ≠ some (.process p)) (c : Option Holder) :
    Sound n (s.enter c) where
  rings := hs.rings
  owns := hs.owns.congr (fun _ _ h => h) fun _ _ _ _ _ _ => id
  posted := ⟨fun p tr h => absurd (hs.posted.critical p tr h) (hcrit p),
    fun p tr m h => absurd (hs.posted.raising p tr m h) (hcrit p), hs.posted.armed,
    hs.posted.live, hs.posted.chain, hs.posted.flag⟩

end Sound

/-- The condition on the elements that the handler consumes. The device has used fewer than `2 ^ 16`
chains of the queue, and no chain of another queue that is under way starts with the same number. -/
def Clear (n : ℕ) (s : Device) (a : Act) : Prop :=
  ∀ i < n, a = .consume → s.critical = some (.handler i) → (s.queue i).used.length < 2 ^ 16 ∧
    ∀ j < n, j ≠ i → (s.queue i).element.id ∉ (s.queue j).live

theorem setQueue_rings {d : ℕ → VirtqDesc} (s : Device) (i j : ℕ) :
    ((s.setQueue i { s.queue i with desc := d }).queue j).toRings = (s.queue j).toRings := by
  by_cases hj : j = i
  · rw [hj, setQueue_queue_self]
  · rw [setQueue_queue_ne _ hj]

theorem setQueue_taken {d : ℕ → VirtqDesc} (s : Device) (i j k : ℕ) :
    ((s.setQueue i { s.queue i with desc := d }).queue j).taken k ↔ (s.queue j).taken k := by
  by_cases hj : j = i
  · rw [hj, setQueue_queue_self]
    rfl
  · rw [setQueue_queue_ne _ hj]

namespace Sound

theorem freeDescs (hs : Sound n s) (htr : (s.place p).transport = some tr) :
    ∃ q, (s.queue tr.queue_index).freeDescs tr.descs = some q :=
  Queue.freeDescs_total (hs.owns.nodup p tr htr) (hs.owns.taken p tr htr)

theorem step (hs : Sound n s) (hst : Step n s a t) (hc : Clear n s a) : Sound n t := by
  cases hst with
  | @construct p i reqs descs q hcrit hplace hi hreqs hq =>
    obtain ⟨r, hr, hres⟩ := Queue.allocMultiDesc_spec (s.queue i) reqs.length
    obtain rfl := Option.some.inj (hr.symm.trans hq)
    cases hres with
    | done halloc hlen => exact hs.construct hi hreqs hplace halloc hlen
  | @constructFail p i reqs descs q hcrit hplace hi hreqs hq =>
    obtain ⟨r, hr, hres⟩ := Queue.allocMultiDesc_spec (s.queue i) reqs.length
    obtain rfl := Option.some.inj (hr.symm.trans hq)
    cases hres with
    | fail hlen hall hgot htaken hdesc hrest =>
      refine hs.write (p := p) (fun j => ?_) (fun j d => ?_) rfl rfl
        (fun p' hp' => goTo_place_ne _ hp') (by simp [Place.transport]) (by simp [Place.posted])
        (by simp) (by simp [hplace, Place.posted])
      · by_cases hj : j = i
        · subst hj
          rw [goTo_queue, setQueue_queue_self, hrest]
        · rw [goTo_queue, setQueue_queue_ne _ hj]
      · by_cases hj : j = i
        · subst hj
          rw [goTo_queue, setQueue_queue_self]
          exact (htaken d).mpr
        · rw [goTo_queue, setQueue_queue_ne _ hj]
          exact id
  | @request p k tr req req' reqs hcrit hplace =>
    exact hs.write (p := p) (setQueue_rings s _) (fun j d => (setQueue_taken s _ j d).mpr) rfl rfl
      (fun p' hp' => goTo_place_ne _ hp') (by simp [hplace, Place.transport])
      (by simp [Place.posted]) (by simp) (by simp [hplace, Place.posted])
  | @requestLast p k tr req hcrit hplace =>
    exact hs.write (p := p) (setQueue_rings s _) (fun j d => (setQueue_taken s _ j d).mpr) rfl rfl
      (fun p' hp' => goTo_place_ne _ hp') (by simp [hplace, Place.transport])
      (by simp [Place.posted]) (by simp) (by simp [hplace, Place.posted])
  | @setIndirectFlag p k tr hcrit hplace =>
    exact hs.write (p := p) (setQueue_rings s _) (fun j d => (setQueue_taken s _ j d).mpr) rfl rfl
      (fun _ _ => rfl) (fun _ h => h)
      (show (s.place p).posted = none by simp [hplace, Place.posted])
      (fun tr' h => by simp [show s.place p = .armed tr' from h] at hplace)
      (by simp [hplace, Place.posted])
  | trigger hcrit hplace => exact hs.trigger hcrit hplace
  | publish hcrit hplace => exact hs.publish hcrit hplace
  | raise hcrit hplace => exact hs.raise hcrit hplace
  | «return» hcrit hplace hflag hq => exact hs.release hplace hflag (Queue.freeDescs_spec hq)
  | @returnPanic p m tr hcrit hplace hflag hq =>
    have htr : (s.place p).transport = some tr := by simp [hplace, Place.transport]
    obtain ⟨q, hq'⟩ := hs.freeDescs htr
    simp [hq] at hq'
  | @returnFailed p hcrit hplace =>
    exact hs.write (p := p) (fun _ => rfl) (fun _ _ => id) rfl rfl
      (fun p' hp' => goTo_place_ne _ hp') (by simp [Place.transport]) (by simp [Place.posted])
      (by simp) (by simp [hplace, Place.posted])
  | interrupt hcrit => exact hs.enter (by simp [hcrit]) _
  | consume hcrit hi hne =>
    obtain ⟨hfew, hclear⟩ := hc _ hi rfl hcrit
    exact hs.consume (by simp [hcrit]) hi hne hfew hclear
  | next hcrit hi he => exact hs.enter (by simp [hcrit]) _
  | leave hcrit => exact hs.enter (by simp [hcrit]) _
  | serve hi hr => exact hs.serve hi hr

/-- A process gets its transport when it allocates the descriptors. -/
theorem transport_step (hst : Step n s a t) (htr : (t.place p).transport = some tr) :
    (s.place p).transport = some tr ∨ ∃ reqs, a = .construct p tr.queue_index reqs := by
  have hgo : ∀ (u : Device) p' l l', u.place = s.place → s.place p' = l' →
      (∀ tr, l.transport = some tr → l'.transport = some tr) →
      ((u.goTo p' l).place p).transport = some tr → (s.place p).transport = some tr := by
    intro u p' l l' hu hp' hl ht
    by_cases hp : p = p'
    · subst hp
      rw [goTo_place_self] at ht
      exact hp' ▸ hl tr ht
    · rwa [goTo_place_ne _ hp, hu] at ht
  cases hst with
  | @construct p' i reqs descs q _ hp =>
    by_cases he : p = p'
    · subst he
      rw [goTo_place_self] at htr
      obtain rfl : (⟨i, descs⟩ : Transport) = tr := Option.some.inj htr
      exact .inr ⟨reqs, rfl⟩
    · rw [goTo_place_ne _ he] at htr
      exact .inl htr
  | constructFail _ hp => exact .inl (hgo _ _ _ _ rfl hp (by simp [Place.transport]) htr)
  | request _ hp => exact .inl (hgo _ _ _ _ rfl hp (by simp [Place.transport]) htr)
  | requestLast _ hp => exact .inl (hgo _ _ _ _ rfl hp (by simp [Place.transport]) htr)
  | trigger _ hp => exact .inl (hgo _ _ _ _ rfl hp (by simp [Place.transport]) htr)
  | publish _ hp => exact .inl (hgo _ _ _ _ rfl hp (by simp [Place.transport]) htr)
  | raise _ hp => exact .inl (hgo _ _ _ _ rfl hp (by simp [Place.transport]) htr)
  | «return» _ hp => exact .inl (hgo _ _ _ _ rfl hp (by simp [Place.transport]) htr)
  | returnPanic _ hp => exact .inl (hgo _ _ _ _ rfl hp (by simp [Place.transport]) htr)
  | returnFailed _ hp => exact .inl (hgo _ _ _ _ rfl hp (by simp [Place.transport]) htr)
  | _ => exact .inl htr

/-- A process comes to `wait_complete` from `trigger_notify`. -/
theorem waiting_of_step (hst : Step n s a t) (hplace : t.place p = .waiting tr m) :
    s.place p = .waiting tr m ∨ a = .raise p ∧ s.place p = .published tr m := by
  have hgo : ∀ (u : Device) p' l, u.place = s.place → (∀ tr m, l ≠ .waiting tr m) →
      (u.goTo p' l).place p = .waiting tr m → s.place p = .waiting tr m := by
    intro u p' l hu hl ht
    by_cases hp : p = p'
    · subst hp
      rw [goTo_place_self] at ht
      exact absurd ht (hl tr m)
    · rwa [goTo_place_ne _ hp, hu] at ht
  cases hst with
  | @raise p' m' tr' _ hp =>
    by_cases he : p = p'
    · subst he
      obtain ⟨rfl, rfl⟩ := Place.waiting.inj ((goTo_place_self _).symm.trans hplace)
      exact .inr ⟨rfl, hp⟩
    · exact .inl ((goTo_place_ne _ he).symm.trans hplace)
  | construct => exact .inl (hgo _ _ _ rfl (by simp) hplace)
  | constructFail => exact .inl (hgo _ _ _ rfl (by simp) hplace)
  | request => exact .inl (hgo _ _ _ rfl (by simp) hplace)
  | requestLast => exact .inl (hgo _ _ _ rfl (by simp) hplace)
  | trigger => exact .inl (hgo _ _ _ rfl (by simp) hplace)
  | publish => exact .inl (hgo _ _ _ rfl (by simp) hplace)
  | «return» => exact .inl (hgo _ _ _ rfl (by simp) hplace)
  | returnPanic => exact .inl (hgo _ _ _ rfl (by simp) hplace)
  | returnFailed => exact .inl (hgo _ _ _ rfl (by simp) hplace)
  | _ => exact .inl hplace

/-- A process stays in `wait_complete` as long as its flag is up. -/
theorem waiting_step (hst : Step n s a t) (hplace : s.place p = .waiting tr m)
    (hne : t.place p ≠ s.place p) : s.waiting_flag tr.head = false ∧ a = .return p := by
  have hgo : ∀ (u : Device) p' l l', u.place = s.place → s.place p' = l' →
      (∀ tr m, l' ≠ .waiting tr m) → t.place = (u.goTo p' l).place → False := by
    intro u p' l l' hu hp' hl' ht
    by_cases hp : p = p'
    · subst hp
      exact hl' tr m (hp'.symm.trans hplace)
    · exact hne (by rw [ht, goTo_place_ne _ hp, hu])
  cases hst with
  | construct _ hp => exact (hgo _ _ _ _ rfl hp (by simp) rfl).elim
  | constructFail _ hp => exact (hgo _ _ _ _ rfl hp (by simp) rfl).elim
  | request _ hp => exact (hgo _ _ _ _ rfl hp (by simp) rfl).elim
  | requestLast _ hp => exact (hgo _ _ _ _ rfl hp (by simp) rfl).elim
  | trigger _ hp => exact (hgo _ _ _ _ rfl hp (by simp) rfl).elim
  | publish _ hp => exact (hgo _ _ _ _ rfl hp (by simp) rfl).elim
  | raise _ hp => exact (hgo _ _ _ _ rfl hp (by simp) rfl).elim
  | @«return» p' m' tr' q hcrit hp hflag =>
    by_cases he : p = p'
    · subst he
      obtain ⟨rfl, rfl⟩ := Place.waiting.inj (hplace.symm.trans hp)
      exact ⟨hflag, rfl⟩
    · exact absurd (goTo_place_ne _ he) hne
  | @returnPanic p' m' tr' hcrit hp hflag =>
    by_cases he : p = p'
    · subst he
      obtain ⟨rfl, rfl⟩ := Place.waiting.inj (hplace.symm.trans hp)
      exact ⟨hflag, rfl⟩
    · exact absurd (goTo_place_ne _ he) hne
  | returnFailed _ hp => exact (hgo _ _ _ _ rfl hp (by simp) rfl).elim
  | _ => exact absurd rfl hne

/-- A process that may leave `wait_complete` has its chain on the used ring, and the device does not have
it any more. -/
theorem answered (hs : Sound n s) (hplace : s.place p = .waiting tr m)
    (hflag : s.waiting_flag tr.head = false) :
    ⟨m, tr.head⟩ ∈ (s.queue tr.queue_index).used ∧
      tr.head ∉ (s.queue tr.queue_index).live := by
  have hdead : tr.head ∉ (s.queue tr.queue_index).live := fun hmem => by
    simp [hs.posted.flag p tr m hplace hmem] at hflag
  refine ⟨?_, hdead⟩
  rcases hs.posted.chain p tr m (by simp [hplace, Place.posted]) with hdev | hused
  · exact absurd (List.mem_append_left _ hdev.mem_owned) hdead
  · exact hused

end Sound

end Device

end OrangeOs.Driver
