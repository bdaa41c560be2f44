import OrangeOs.Driver.Requests

/-! # The block device

Any number of processes in `BlockDevice::Operate`. Nobody touches the descriptors of a chain that
the device has, and `wait_complete` returns when the device has used that chain, as long as the
counter of the used ring has not wrapped.
-/

namespace OrangeOs.Driver

namespace Queue

/-- The descriptors of a chain as the device finds them, at most `fuel` of them. -/
def chain (q : Queue) : ℕ → ℕ → List ℕ
  | 0, _ => []
  | fuel + 1, d =>
    d :: if (q.desc d).flags &&& VIRTQ_DESC_F_NEXT ≠ 0 then q.chain fuel (q.desc d).next else []

/-- The first `k` descriptors of a list lead from each one to the next, and the last one to none. -/
def Linked (q : Queue) (descs : List ℕ) (k : ℕ) : Prop :=
  ∀ j d, j < k → descs[j]? = some d →
    ((q.desc d).flags &&& VIRTQ_DESC_F_NEXT ≠ 0 ↔ j + 1 < descs.length) ∧
    ∀ d', descs[j + 1]? = some d' → (q.desc d).next = d'

variable {q q' : Queue} {descs : List ℕ} {k : ℕ}

theorem Linked.congr (h : q.Linked descs k) (hd : ∀ d ∈ descs, q'.desc d = q.desc d) :
    q'.Linked descs k := by
  intro j d hj hjd
  rw [hd d (List.mem_of_getElem? hjd)]
  exact h j d hj hjd

theorem Linked.chain_drop (h : q.Linked descs descs.length) {j d fuel : ℕ} (hd : descs[j]? = some d)
    (hfuel : descs.length ≤ j + fuel) : q.chain fuel d = descs.drop j := by
  induction fuel generalizing j d with
  | zero => simp [List.getElem?_eq_none_iff.mpr (show descs.length ≤ j by omega)] at hd
  | succ fuel ih =>
    obtain ⟨hj, hjd⟩ := List.getElem?_eq_some_iff.mp hd
    obtain ⟨hflag, hnext⟩ := h j d hj hd
    rw [chain, List.drop_eq_getElem_cons hj, hjd]
    by_cases hlast : j + 1 < descs.length
    · rw [if_pos (hflag.mpr hlast), hnext _ (List.getElem?_eq_getElem hlast),
        ih (List.getElem?_eq_getElem hlast) (by omega)]
    · rw [if_neg fun he => hlast (hflag.mp he), List.drop_eq_nil_of_le (by omega)]

/-- The device finds the descriptors of a list that is linked. -/
theorem Linked.chain_eq (h : q.Linked descs descs.length) {d fuel : ℕ} (hd : descs.head? = some d)
    (hfuel : descs.length ≤ fuel) : q.chain fuel d = descs := by
  rw [List.head?_eq_getElem?] at hd
  simpa using h.chain_drop hd (by simpa using hfuel)

/-- One call of `request`. -/
def request (q : Queue) (descs : List ℕ) (desc_index : ℕ) (req : Buffer) (last : Bool) : Queue :=
  q.setDesc (descs.getD desc_index 0)
    (fillDesc req (Device.requestFlag req last) (descs.getD (desc_index + 1) 0))

theorem requestFlag_next (req : Buffer) (last : Bool) :
    Device.requestFlag req last &&& VIRTQ_DESC_F_NEXT ≠ 0 ↔ last = false := by
  cases last <;> cases hc : req.const <;> simp [Device.requestFlag, hc]

theorem request_desc_self {req : Buffer} {last : Bool} {d : ℕ} (hd : descs[k]? = some d) :
    (q.request descs k req last).desc d =
      fillDesc req (Device.requestFlag req last) (descs.getD (k + 1) 0) := by
  rw [request, List.getD_eq_getElem?_getD, hd]
  exact Function.update_self ..

theorem request_desc_of_ne {req : Buffer} {last : Bool} {d : ℕ} (hlt : k < descs.length)
    (hd : descs[k]? ≠ some d) : (q.request descs k req last).desc d = q.desc d := by
  refine Function.update_of_ne ?_ ..
  rintro rfl
  rw [List.getD_eq_getElem?_getD, List.getElem?_eq_getElem hlt] at hd
  exact hd rfl

/-- In a list without duplicates the descriptors at other places are others. -/
theorem getElem?_ne_of_ne {j d : ℕ} (hn : descs.Nodup) (hj : descs[j]? = some d) (hne : j ≠ k) :
    descs[k]? ≠ some d := by
  intro hk
  obtain ⟨hjlt, hjd⟩ := List.getElem?_eq_some_iff.mp hj
  obtain ⟨hklt, hkd⟩ := List.getElem?_eq_some_iff.mp hk
  exact hne (hn.getElem_inj_iff.mp (hjd.trans hkd.symm))

/-- The descriptor that one call of `request` fills leads to the next one. -/
theorem Linked.request {req : Buffer} {last : Bool} (h : q.Linked descs k) (hn : descs.Nodup)
    (hsmall : ∀ d ∈ descs, d < 2 ^ 16) (hlt : k < descs.length)
    (hlast : last = true ↔ k + 1 = descs.length) :
    (q.request descs k req last).Linked descs (k + 1) := by
  intro j d hj hjd
  by_cases hjk : j = k
  · subst hjk
    rw [request_desc_self hjd, fillDesc]
    refine ⟨?_, fun d' hd' => ?_⟩
    · rw [requestFlag_next, ← Bool.not_eq_true, hlast]
      omega
    · have hnext := (List.getElem?_eq_some_iff.mp hd').1
      have hl : last = false := by
        rw [← Bool.not_eq_true, hlast]
        omega
      dsimp only
      rw [if_pos ((requestFlag_next req last).mpr hl), List.getD_eq_getElem?_getD, hd']
      exact Nat.mod_eq_of_lt (hsmall d' (List.mem_of_getElem? hd'))
  · rw [request_desc_of_ne hlt (getElem?_ne_of_ne hn hjd hjk)]
    exact h j d (by omega) hjd

end Queue

/-- The number of descriptors that the constructor has filled at a place. -/
def Place.filled : Place → ℕ
  | requesting _ desc_index _ => desc_index
  | constructed tr => tr.descs.length
  | armed tr => tr.descs.length
  | published tr _ => tr.descs.length
  | waiting tr _ => tr.descs.length
  | _ => 0

namespace Device

variable {n i j p p' m : ℕ} {s t : Device} {a : Act} {tr tr' : Transport} {d h : ℕ}

/-- The descriptors of a request are filled in order and lead from each one to the next. -/
structure Filled (s : Device) : Prop where
  count : ∀ p tr k reqs, s.place p = .requesting tr k reqs → k + reqs.length = tr.descs.length
  linked : ∀ p tr, (s.place p).transport = some tr →
    (s.queue tr.queue_index).Linked tr.descs (s.place p).filled

theorem filled_init : Filled init :=
  ⟨by simp [init], by simp [init, Place.transport]⟩

theorem Filled.enter (hf : Filled s) (c : Option Holder) : Filled (s.enter c) :=
  ⟨hf.count, hf.linked⟩

/-- The descriptors of a request change only by its own process. -/
theorem Sound.untouched (hs : Sound n s) (hf : Filled s) (hst : Step n s a t) (hreq : a ≠ .request p)
    (hret : a ≠ .return p) (hind : ∀ p' k, a ≠ .setIndirectFlag p' k)
    (htr : (s.place p).transport = some tr) (hd : d ∈ tr.descs) :
    (t.queue tr.queue_index).desc d = (s.queue tr.queue_index).desc d ∧
      (t.queue tr.queue_index).taken d := by
  have htaken := (hs.owns.taken p tr htr d hd).2
  have hother : ∀ p' tr', p' ≠ p → (s.place p').transport = some tr' →
      tr.queue_index = tr'.queue_index → d ∉ tr'.descs := by
    intro p' tr' hne htr' hi hd'
    exact hs.owns.disjoint p p' tr tr' hne.symm htr htr' hi hd hd'
  have hwrite : ∀ p' tr' reqs k, p' ≠ p → tr.queue_index = tr'.queue_index →
      s.place p' = .requesting tr' k reqs → 0 < reqs.length → ∀ x : VirtqDesc,
      Function.update (s.queue tr'.queue_index).desc (tr'.descs.getD k 0) x d =
        (s.queue tr'.queue_index).desc d := by
    intro p' tr' reqs k hne hi hplace hpos x
    have hk : k < tr'.descs.length := by
      have := hf.count p' tr' k reqs hplace
      omega
    refine Function.update_of_ne ?_ ..
    rintro rfl
    refine hother p' tr' hne (by simp [hplace, Place.transport]) hi ?_
    rw [List.getD_eq_getElem?_getD, List.getElem?_eq_getElem hk]
    exact List.getElem_mem hk
  have hrings : ∀ (i : ℕ) (r : Rings), ((s.setRings i r).queue tr.queue_index).desc d =
      (s.queue tr.queue_index).desc d ∧ ((s.setRings i r).queue tr.queue_index).taken d := by
    intro i r
    refine ⟨?_, (setRings_taken s i _ d r).mpr htaken⟩
    by_cases hi : tr.queue_index = i
    · rw [hi, setRings_queue_self]
    · rw [setRings_queue_ne _ hi]
  have hset : ∀ (i : ℕ) (q : Queue), (tr.queue_index = i → q.desc d = (s.queue i).desc d ∧
      ((s.queue i).taken d → q.taken d)) →
      ((s.setQueue i q).queue tr.queue_index).desc d = (s.queue tr.queue_index).desc d ∧
        ((s.setQueue i q).queue tr.queue_index).taken d := by
    intro i q hq
    by_cases hi : tr.queue_index = i
    · obtain ⟨h₁, h₂⟩ := hq hi
      rw [hi] at htaken ⊢
      rw [setQueue_queue_self]
      exact ⟨h₁, h₂ htaken⟩
    · rw [setQueue_queue_ne _ hi]
      exact ⟨rfl, htaken⟩
  cases hst with
  | @construct p' i reqs descs q hcrit hplace hi hreqs hq =>
    obtain ⟨r, hr, hres⟩ := Queue.allocMultiDesc_spec (s.queue i) reqs.length
    obtain rfl := Option.some.inj (hr.symm.trans hq)
    cases hres with
    | done halloc hlen =>
      exact hset i q fun _ => ⟨by rw [halloc.desc], fun ht => (halloc.taken d).mpr (.inr ht)⟩
  | @constructFail p' i reqs descs q hcrit hplace hi hreqs hq =>
    obtain ⟨r, hr, hres⟩ := Queue.allocMultiDesc_spec (s.queue i) reqs.length
    obtain rfl := Option.some.inj (hr.symm.trans hq)
    cases hres with
    | fail hlen hall hgot htaken' hdesc hrest =>
      refine hset i q fun he => ⟨hdesc d fun hmem => ?_, (htaken' d).mpr⟩
      exact hgot d hmem (he ▸ htaken)
  | @request p' k tr' req req' reqs hcrit hplace =>
    have hp : p' ≠ p := fun he => hreq (he ▸ rfl)
    exact hset _ _ fun he => ⟨hwrite p' tr' _ k hp he hplace (by simp) _, id⟩
  | @requestLast p' k tr' req hcrit hplace =>
    have hp : p' ≠ p := fun he => hreq (he ▸ rfl)
    exact hset _ _ fun he => ⟨hwrite p' tr' _ k hp he hplace (by simp) _, id⟩
  | setIndirectFlag => exact absurd rfl (hind _ _)
  | trigger => exact hrings _ _
  | publish => exact hrings _ _
  | raise => exact ⟨rfl, htaken⟩
  | @«return» p' m tr' q hcrit hplace hflag hq =>
    have hp : p' ≠ p := fun he => hret (he ▸ rfl)
    have hfreed := Queue.freeDescs_spec hq
    refine hset _ q fun he => ?_
    have hmem := hother p' tr' hp (by simp [hplace, Place.transport]) he
    exact ⟨by rw [hfreed.desc, if_neg hmem], fun ht => (hfreed.taken d).mpr ⟨hmem, ht⟩⟩
  | returnPanic => exact ⟨rfl, htaken⟩
  | returnFailed => exact ⟨rfl, htaken⟩
  | interrupt => exact ⟨rfl, htaken⟩
  | consume => exact hrings _ _
  | next => exact ⟨rfl, htaken⟩
  | leave => exact ⟨rfl, htaken⟩
  | serve => exact hrings _ _

/-- The descriptor that one call of `request` fills leads to the next one. -/
theorem Sound.linked_request (hs : Sound n s) {k : ℕ} {req : Buffer} {last : Bool}
    (htr : (s.place p).transport = some tr) (hlt : k < tr.descs.length)
    (hlast : last = true ↔ k + 1 = tr.descs.length)
    (hold : (s.queue tr.queue_index).Linked tr.descs k) :
    ((s.request tr k req last).queue tr.queue_index).Linked tr.descs (k + 1) := by
  rw [request, setQueue_queue_self]
  refine Queue.Linked.request hold (hs.owns.nodup p tr htr) (fun d hd => ?_) hlt hlast
  exact (hs.owns.taken p tr htr d hd).1.trans (by decide)

theorem Filled.step (hf : Filled s) (hs : Sound n s) (hst : Step n s a t)
    (hind : ∀ p' k, a ≠ .setIndirectFlag p' k) : Filled t := by
  -- a process that stays, or moves on with its descriptors filled
  have hkeep : ∀ p tr, a ≠ .request p → a ≠ .return p → (s.place p).transport = some tr →
      (s.place p).filled = (t.place p).filled →
      (t.queue tr.queue_index).Linked tr.descs (t.place p).filled := by
    intro p tr hreq hret htr hfill
    rw [← hfill]
    exact (hf.linked p tr htr).congr fun d hd => (hs.untouched hf hst hreq hret hind htr hd).1
  have hstay : t.place = s.place → (∀ p, a ≠ .request p ∧ a ≠ .return p) → Filled t := by
    intro he ha
    refine ⟨he ▸ hf.count, fun p tr htr => ?_⟩
    exact hkeep p tr (ha p).1 (ha p).2 (he ▸ htr) (by rw [he])
  have hmove : ∀ p l, (∀ p', p' ≠ p → t.place p' = s.place p') → t.place p = l →
      (∀ p', p' ≠ p → a ≠ .request p' ∧ a ≠ .return p') →
      (∀ tr k reqs, l = .requesting tr k reqs → k + reqs.length = tr.descs.length) →
      (∀ tr, l.transport = some tr → (t.queue tr.queue_index).Linked tr.descs l.filled) →
      Filled t := by
    intro p l hother hl ha hcount hlinked
    refine ⟨fun p' tr k reqs h => ?_, fun p' tr htr => ?_⟩
    · by_cases hp : p' = p
      · exact hcount tr k reqs (hl.symm.trans (hp ▸ h))
      · exact hf.count p' tr k reqs (hother p' hp ▸ h)
    · by_cases hp : p' = p
      · subst hp
        rw [hl] at htr ⊢
        exact hlinked tr htr
      · exact hkeep p' tr (ha p' hp).1 (ha p' hp).2 (hother p' hp ▸ htr) (by rw [hother p' hp])
  have hnext : ∀ p tr l, (∀ p', p' ≠ p → t.place p' = s.place p') → t.place p = l →
      (∀ p', a ≠ .request p' ∧ a ≠ .return p') → (s.place p).transport = some tr →
      (s.place p).filled = l.filled → l.transport = some tr →
      (∀ tr k reqs, l ≠ .requesting tr k reqs) → Filled t := by
    intro p tr l hother hl ha htr hfill htr' hreq
    refine hmove p l hother hl (fun p' _ => ha p') (fun tr k reqs he => absurd he (hreq tr k reqs)) ?_
    intro tr₁ he
    obtain rfl : tr = tr₁ := Option.some.inj (htr'.symm.trans he)
    subst hl
    exact hkeep p tr (ha p).1 (ha p).2 htr hfill
  cases hst with
  | @construct p i reqs descs q hcrit hplace hi hreqs hq =>
    obtain ⟨r, hr, hres⟩ := Queue.allocMultiDesc_spec (s.queue i) reqs.length
    obtain rfl := Option.some.inj (hr.symm.trans hq)
    cases hres with
    | done halloc hlen =>
      refine hmove p _ (fun p' hp => goTo_place_ne _ hp) (goTo_place_self _) (by simp) ?_ ?_
      · rintro _ _ _ he
        obtain ⟨rfl, rfl, rfl⟩ := Place.requesting.inj he
        simpa using hlen.symm
      · exact fun _ _ j d hj => absurd hj (Nat.not_lt_zero _)
  | @constructFail p =>
    exact hmove p _ (fun p' hp => goTo_place_ne _ hp) (goTo_place_self _) (by simp) (by simp)
      (by simp [Place.transport])
  | @request p k tr req req' reqs hcrit hplace =>
    have htr : (s.place p).transport = some tr := by simp [hplace, Place.transport]
    have hcount := hf.count p tr k _ hplace
    simp only [List.length_cons] at hcount
    refine hmove p _ (fun p' hp => goTo_place_ne _ hp) (goTo_place_self _)
      (fun p' hp => ⟨fun he => hp (Act.request.inj he).symm, by simp⟩) ?_ ?_
    · rintro _ _ _ he
      obtain ⟨rfl, rfl, rfl⟩ := Place.requesting.inj he
      rw [List.length_cons]
      omega
    · intro tr' he
      obtain rfl : tr = tr' := Option.some.inj he
      refine hs.linked_request htr (by omega) (by simp; omega) ?_
      simpa [hplace, Place.filled] using hf.linked p tr htr
  | @requestLast p k tr req hcrit hplace =>
    have htr : (s.place p).transport = some tr := by simp [hplace, Place.transport]
    have hcount : k + 1 = tr.descs.length := hf.count p tr k _ hplace
    refine hmove p _ (fun p' hp => goTo_place_ne _ hp) (goTo_place_self _)
      (fun p' hp => ⟨fun he => hp (Act.request.inj he).symm, by simp⟩) (by simp) ?_
    intro tr' he
    obtain rfl : tr = tr' := Option.some.inj he
    have hlinked := @hs.linked_request _ _ _ _ k req true htr (by omega) (by simp [hcount])
      (by simpa [hplace, Place.filled] using hf.linked p tr htr)
    rwa [hcount] at hlinked
  | setIndirectFlag => exact absurd rfl (hind _ _)
  | @trigger p tr hcrit hplace =>
    exact hnext p tr _ (fun p' hp => goTo_place_ne _ hp) (goTo_place_self _) (by simp)
      (by simp [hplace, Place.transport]) (by simp [hplace, Place.filled]) rfl (by simp)
  | @publish p tr hcrit hplace =>
    exact hnext p tr _ (fun p' hp => goTo_place_ne _ hp) (goTo_place_self _) (by simp)
      (by simp [hplace, Place.transport]) (by simp [hplace, Place.filled]) rfl (by simp)
  | @raise p m tr hcrit hplace =>
    exact hnext p tr _ (fun p' hp => goTo_place_ne _ hp) (goTo_place_self _) (by simp)
      (by simp [hplace, Place.transport]) (by simp [hplace, Place.filled]) rfl (by simp)
  | @«return» p =>
    exact hmove p _ (fun p' hp => goTo_place_ne _ hp) (goTo_place_self _)
      (fun p' hp => ⟨by simp, fun he => hp (Act.return.inj he).symm⟩) (by simp)
      (by simp [Place.transport])
  | @returnPanic p =>
    exact hmove p _ (fun p' hp => goTo_place_ne _ hp) (goTo_place_self _)
      (fun p' hp => ⟨by simp, fun he => hp (Act.return.inj he).symm⟩) (by simp)
      (by simp [Place.transport])
  | @returnFailed p =>
    exact hmove p _ (fun p' hp => goTo_place_ne _ hp) (goTo_place_self _)
      (fun p' hp => ⟨by simp, fun he => hp (Act.return.inj he).symm⟩) (by simp)
      (by simp [Place.transport])
  | interrupt => exact hstay rfl (by simp)
  | consume => exact hstay rfl (by simp)
  | next => exact hstay rfl (by simp)
  | leave => exact hstay rfl (by simp)
  | serve => exact hstay rfl (by simp)

/-- The device finds the descriptors of a request. -/
theorem Sound.chain_eq (hs : Sound n s) (hf : Filled s) (hp : (s.place p).posted = some (tr, m)) :
    (s.queue tr.queue_index).chain queue_buffer_size tr.head = tr.descs := by
  have htr := Place.transport_of_posted hp
  have hfill : (s.place p).filled = tr.descs.length := by
    generalize s.place p = l at hp
    cases l <;> simp_all [Place.posted, Place.filled]
  have hlen : tr.descs.length ≤ queue_buffer_size :=
    length_le_of_nodup_lt (hs.owns.nodup p tr htr) fun d hd => (hs.owns.taken p tr htr d hd).1
  refine Queue.Linked.chain_eq (hfill ▸ hf.linked p tr htr) ?_ hlen
  have hne := hs.owns.ne_nil p tr htr
  cases hd : tr.descs with
  | nil => exact absurd hd hne
  | cons d ds => simp [Transport.head, hd]

/-- The used ring of a queue only grows. -/
theorem used_step (hst : Step n s a t) (j : ℕ) : (s.queue j).used <+: (t.queue j).used := by
  have hset : ∀ i (q : Queue), q.used = (s.queue i).used →
      (s.queue j).used <+: ((s.setQueue i q).queue j).used := by
    intro i q hq
    by_cases hj : j = i
    · rw [hj, setQueue_queue_self, hq]
    · rw [setQueue_queue_ne _ hj]
  have hrings : ∀ i (r : Rings), (s.queue i).used <+: r.used →
      (s.queue j).used <+: ((s.setRings i r).queue j).used := by
    intro i r hr
    by_cases hj : j = i
    · rw [hj, setRings_queue_self]
      exact hr
    · rw [setRings_queue_ne _ hj]
  cases hst with
  | @construct p i reqs descs q hcrit hplace hi hreqs hq =>
    obtain ⟨r, hr, hres⟩ := Queue.allocMultiDesc_spec (s.queue i) reqs.length
    obtain rfl := Option.some.inj (hr.symm.trans hq)
    cases hres with
    | done halloc => exact hset i q (by rw [halloc.rest])
  | @constructFail p i reqs descs q hcrit hplace hi hreqs hq =>
    obtain ⟨r, hr, hres⟩ := Queue.allocMultiDesc_spec (s.queue i) reqs.length
    obtain rfl := Option.some.inj (hr.symm.trans hq)
    cases hres with
    | fail hlen hall hgot htaken hdesc hrest => exact hset i q (by rw [hrest])
  | request => exact hset _ _ rfl
  | requestLast => exact hset _ _ rfl
  | setIndirectFlag => exact hset _ _ rfl
  | trigger => exact hrings _ _ List.prefix_rfl
  | publish => exact hrings _ _ List.prefix_rfl
  | «return» _ _ _ hq => exact hset _ _ (by rw [(Queue.freeDescs_spec hq).rest])
  | consume => exact hrings _ _ List.prefix_rfl
  | serve _ hr => exact hrings _ _ hr.used
  | _ => exact List.prefix_rfl

end Device

/-! ## `BlockDevice::Operate` -/

inductive Operation where
  | read
  | write
  deriving DecidableEq

/-- The buffers of a request of `BlockDevice::Operate`: the header, the block and the status. -/
def BlockDevice.operate (op : Operation) (req buf resp : ℕ) : List Buffer :=
  [⟨req, 16, true⟩, ⟨buf, 512, op = .write⟩, ⟨resp, 1, false⟩]

namespace BlockDevice

open Device

variable {s t : Device} {a : Act} {p p' m : ℕ} {tr tr' : Transport} {d h : ℕ}

/-- A step of the block device, which has one queue and requests of `Operate` only. -/
def Next (s t : Device) : Prop :=
  ∃ a, Step 1 s a t ∧ (∀ p i reqs, a = .construct p i reqs →
    ∃ op req buf resp, reqs = operate op req buf resp) ∧ ∀ p k, a ≠ .setIndirectFlag p k

abbrev Reached (s : Device) : Prop := Reachable (· = Device.init) Next s

/-- The invariant holds as long as the device has used fewer than `2 ^ 16` chains. -/
theorem Reached.sound (h : Reached s) :
    (s.queue 0).used.length < 2 ^ 16 → Device.Sound 1 s ∧ Filled s := by
  refine @Reachable.invariant _ _ _ _
    (fun s => (s.queue 0).used.length < 2 ^ 16 → Device.Sound 1 s ∧ Filled s) h ?_ ?_
  · rintro _ rfl -
    exact ⟨sound_init, filled_init⟩
  · rintro s t ih ⟨a, hst, -, hind⟩ hfew
    have hfew' := (used_step hst 0).length_le.trans_lt hfew
    obtain ⟨hs, hf⟩ := ih hfew'
    exact ⟨hs.step hst fun i hi _ _ => ⟨by rwa [Nat.lt_one_iff.mp hi], fun j hj hne => by omega⟩,
      hf.step hs hst hind⟩

/-- The requests under way have different descriptors, no step changes or frees a descriptor of
a chain that the device has, and a process leaves `wait_complete` only when the device has used
its chain, as long as fewer than `2 ^ 16` requests have completed. -/
theorem requests_exclusive (h : Reached s) (hfew : (s.queue 0).used.length < 2 ^ 16) :
    (∀ p p' tr tr', p ≠ p' → (s.place p).transport = some tr →
      (s.place p').transport = some tr' → tr.descs.Disjoint tr'.descs) ∧
    (∀ t, Next s t → ∀ h ∈ (s.queue 0).owned, ∀ d ∈ (s.queue 0).chain queue_buffer_size h,
      (t.queue 0).desc d = (s.queue 0).desc d ∧ (t.queue 0).taken d) ∧
    (∀ t p tr m, Next s t → s.place p = .waiting tr m → t.place p ≠ s.place p →
      ⟨m, tr.head⟩ ∈ (s.queue 0).used ∧ tr.head ∉ (s.queue 0).owned) := by
  obtain ⟨hs, hf⟩ := h.sound hfew
  have hzero : ∀ p tr, (s.place p).transport = some tr → tr.queue_index = 0 :=
    fun p tr htr => Nat.lt_one_iff.mp (hs.owns.index p tr htr)
  refine ⟨fun p p' tr tr' hne htr htr' => ?_, ?_, ?_⟩
  · exact hs.owns.disjoint p p' tr tr' hne htr htr' ((hzero p tr htr).trans (hzero p' tr' htr').symm)
  · rintro t ⟨a, hst, -, hind⟩ h hh d hd
    have hlive : h ∈ (s.queue 0).live := List.mem_append_left _ hh
    obtain ⟨p, tr, m, hp, hi, rfl⟩ := hs.posted.live 0 Nat.one_pos h hlive
    rw [← hi, hs.chain_eq hf hp] at hd
    rw [← hi] at hlive ⊢
    refine hs.untouched hf hst ?_ ?_ hind (Place.transport_of_posted hp) hd
    · rintro rfl
      cases hst with
      | request _ hp' => simp [hp', Place.posted] at hp
      | requestLast _ hp' => simp [hp', Place.posted] at hp
    · rintro rfl
      have hdead : ∀ {m'}, s.place p = .waiting tr m' → s.waiting_flag tr.head = false → False :=
        fun hp' hflag => (hs.answered hp' hflag).2 hlive
      cases hst with
      | @«return» _ m' tr' _ _ hp' hflag =>
        obtain ⟨rfl, -⟩ : tr' = tr ∧ m' = m := by simpa [hp', Place.posted] using hp
        exact hdead hp' hflag
      | @returnPanic _ m' tr' _ hp' hflag =>
        obtain ⟨rfl, -⟩ : tr' = tr ∧ m' = m := by simpa [hp', Place.posted] using hp
        exact hdead hp' hflag
      | returnFailed _ hp' => simp [hp', Place.posted] at hp
  · rintro t p tr m ⟨a, hst, -, -⟩ hp hne
    obtain ⟨hflag, -⟩ := Sound.waiting_step hst hp hne
    obtain ⟨hused, hdead⟩ := hs.answered hp hflag
    rw [hzero p tr (by simp [hp, Place.transport])] at hused hdead
    exact ⟨hused, fun hmem => hdead (List.mem_append_left _ hmem)⟩

/-- A process has sent a read request and the device has fetched it. -/
theorem requests_exclusive_read : ∃ s : Device, s.place 0 = .waiting ⟨0, [0, 1, 2]⟩ 0 ∧
    0 ∈ (s.queue 0).owned ∧ ∀ t, Next s t → ∀ d ∈ [0, 1, 2],
      (t.queue 0).desc d = (s.queue 0).desc d ∧ (t.queue 0).taken d := by
  have halloc : Queue.zero.allocMultiDesc 3 =
      some (true, [0, 1, 2], ((Queue.zero.mark 0).mark 1).mark 2) := rfl
  have h₁ : Reached ((Device.init.setQueue 0 (((Queue.zero.mark 0).mark 1).mark 2)).goTo 0
      (.requesting ⟨0, [0, 1, 2]⟩ 0 (operate .read 100 200 300))) :=
    .step (.start rfl) ⟨_, @Step.construct 1 _ 0 0 _ _ _ rfl rfl (by decide)
      (by simp [operate]) halloc,
      fun _ _ _ he => ⟨_, _, _, _, (Act.construct.inj he).2.2.symm⟩, by simp⟩
  have h₂ := Reachable.step h₁
    ⟨_, @Step.request 1 _ 0 0 ⟨0, [0, 1, 2]⟩ _ _ _ rfl rfl, by simp, by simp⟩
  have h₃ := Reachable.step h₂
    ⟨_, @Step.request 1 _ 0 1 ⟨0, [0, 1, 2]⟩ _ _ _ rfl rfl, by simp, by simp⟩
  have h₄ := Reachable.step h₃
    ⟨_, @Step.requestLast 1 _ 0 2 ⟨0, [0, 1, 2]⟩ _ rfl rfl, by simp, by simp⟩
  have h₅ := Reachable.step h₄
    ⟨_, @Step.trigger 1 _ 0 ⟨0, [0, 1, 2]⟩ rfl rfl, by simp, by simp⟩
  have h₆ := Reachable.step h₅
    ⟨_, @Step.publish 1 _ 0 ⟨0, [0, 1, 2]⟩ rfl rfl, by simp, by simp⟩
  have h₇ := Reachable.step h₆
    ⟨_, @Step.raise 1 _ 0 0 ⟨0, [0, 1, 2]⟩ rfl rfl, by simp, by simp⟩
  have h₈ := Reachable.step h₇
    ⟨_, @Step.serve 1 _ 0 _ (by decide) (.fetch (by decide)), by simp, by simp⟩
  obtain ⟨-, hkeep, -⟩ := requests_exclusive h₈ (by decide)
  exact ⟨_, rfl, by decide, fun t ht d hd => hkeep t ht 0 (by decide) d hd⟩

end BlockDevice

end OrangeOs.Driver
