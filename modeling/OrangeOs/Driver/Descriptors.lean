import OrangeOs.Driver.Block

/-! # Descriptors and chains

`AllocMultiDesc` takes all descriptors that it is asked for or none, and the constructor of
`mmio_transport` writes the list of its requests into the chain that starts at the first of them.
-/

namespace OrangeOs.Driver

namespace Queue

variable {q q' q'' : Queue} {n k d : ℕ} {descs order : List ℕ} {req : Buffer} {reqs : List Buffer}

/-! ## All or none -/

/-- The bits make up the bitmap. -/
theorem bit_map_eq_of_taken (h : ∀ j, q'.taken j ↔ q.taken j) : q'.bit_map = q.bit_map := by
  funext b
  ext k hk
  have hdiv : (8 * b + k) / 8 = b := by omega
  have hmod : (8 * b + k) % 8 = k := by omega
  have hbit := h (8 * b + k)
  rw [taken_iff, taken_iff, hdiv, hmod] at hbit
  simpa [BitVec.getLsbD_eq_getElem hk] using Bool.eq_iff_iff.mpr hbit

/-- The descriptors that were taken were free. -/
theorem Allocated.length_le_free (h : q.Allocated descs q') : descs.length ≤ q.free := by
  refine (h.nodup.subperm fun d hd => ?_).length_le
  obtain ⟨hlt, hfree⟩ := h.fresh d hd
  exact List.mem_filter.mpr ⟨List.mem_range.mpr hlt, decide_eq_true hfree⟩

/-- `FreeDesc` of the descriptors in any order gives the bitmap back. -/
theorem Allocated.freeDescs_perm (h : q.Allocated descs q') (hp : order.Perm descs) :
    ∃ q'', q'.freeDescs order = some q'' ∧ q''.bit_map = q.bit_map := by
  obtain ⟨q'', hfree⟩ := @freeDescs_total q' order (hp.nodup_iff.mpr h.nodup) fun d hd =>
    ⟨(h.fresh d (hp.mem_iff.mp hd)).1, (h.taken d).mpr (.inl (hp.mem_iff.mp hd))⟩
  refine ⟨q'', hfree, bit_map_eq_of_taken fun j => ?_⟩
  rw [(freeDescs_spec hfree).taken, h.taken, hp.mem_iff]
  constructor
  · tauto
  · exact fun hj => ⟨fun hmem => (h.fresh j hmem).2 hj, .inr hj⟩

/-- `AllocMultiDesc` takes `n` free descriptors, and then `FreeDesc` of them gives the bitmap back, or it
fails with the bitmap as it was; it fails exactly when fewer than `n` are free. -/
theorem allocMultiDesc_all_or_none (q : Queue) (n : ℕ) :
    (n ≤ q.free → ∃ descs q', q.allocMultiDesc n = some (true, descs, q') ∧ descs.length = n ∧
      descs.Nodup ∧ (∀ d ∈ descs, d < queue_buffer_size ∧ ¬ q.taken d) ∧
      (∀ j, q'.taken j ↔ j ∈ descs ∨ q.taken j) ∧
      ∀ order : List ℕ, order.Perm descs →
        ∃ q'', q'.freeDescs order = some q'' ∧ q''.bit_map = q.bit_map) ∧
    (q.free < n → ∃ descs q', q.allocMultiDesc n = some (false, descs, q') ∧
      q'.bit_map = q.bit_map) := by
  obtain ⟨r, hr, hres⟩ := allocMultiDesc_spec q n
  constructor
  · intro hle
    have htrue := hres.done_of_free hle
    cases hres with
    | done halloc hlen =>
      exact ⟨_, _, hr, hlen, halloc.nodup, halloc.fresh, halloc.taken,
        fun order hp => halloc.freeDescs_perm hp⟩
    | fail => cases htrue
  · intro hlt
    cases hres with
    | done halloc hlen => exact absurd halloc.length_le_free (by omega)
    | fail _ _ _ htaken => exact ⟨_, _, hr, bit_map_eq_of_taken htaken⟩

/-! ## The chain of a request -/

/-- The calls of `request` for a list of buffers. -/
def requests (q : Queue) (descs : List ℕ) : ℕ → List Buffer → Queue
  | _, [] => q
  | desc_index, [req] => q.request descs desc_index req true
  | desc_index, req :: req' :: reqs =>
    (q.request descs desc_index req false).requests descs (desc_index + 1) (req' :: reqs)

/-- The constructor of `mmio_transport`: `desc_alloc_succ`, `descs_` and the queue. -/
def mmioTransport (q : Queue) (reqs : List Buffer) : Option (Bool × List ℕ × Queue) :=
  (q.allocMultiDesc reqs.length).map fun (ret, descs, q) =>
    if ret then (true, descs, q.requests descs 0 reqs) else (false, descs, q)

/-- A descriptor has the address and the length of a buffer, and is for the device to write unless the
buffer is constant. The length has 32 bits. -/
structure Encodes (d : VirtqDesc) (req : Buffer) : Prop where
  addr : d.addr = req.addr
  len : d.len = req.size % 2 ^ 32
  write : d.flags &&& VIRTQ_DESC_F_WRITE ≠ 0 ↔ req.const = false

theorem encodes_fillDesc (req : Buffer) (last : Bool) (next : ℕ) :
    Encodes (fillDesc req (Device.requestFlag req last) next) req := by
  refine ⟨rfl, rfl, ?_⟩
  cases last <;> cases hc : req.const <;> simp [fillDesc, Device.requestFlag, hc]

/-- The first `k` descriptors of a list encode the first `k` buffers. -/
def Encoded (q : Queue) (descs : List ℕ) (reqs : List Buffer) (k : ℕ) : Prop :=
  ∀ j d req, j < k → descs[j]? = some d → reqs[j]? = some req → Encodes (q.desc d) req

theorem Encoded.congr (h : q.Encoded descs reqs k) (hd : ∀ d ∈ descs, q'.desc d = q.desc d) :
    q'.Encoded descs reqs k := by
  intro j d req hj hjd hreq
  rw [hd d (List.mem_of_getElem? hjd)]
  exact h j d req hj hjd hreq

theorem Encoded.request {last : Bool} (h : q.Encoded descs reqs k) (hn : descs.Nodup)
    (hlt : k < descs.length) (hreq : reqs[k]? = some req) :
    (q.request descs k req last).Encoded descs reqs (k + 1) := by
  intro j d req' hj hjd hreq'
  by_cases hjk : j = k
  · subst hjk
    obtain rfl := Option.some.inj (hreq.symm.trans hreq')
    rw [request_desc_self hjd]
    exact encodes_fillDesc req last _
  · rw [request_desc_of_ne hlt (getElem?_ne_of_ne hn hjd hjk)]
    exact h j d req' (by omega) hjd hreq'

theorem requests_eq (q : Queue) (descs : List ℕ) (k : ℕ) (req : Buffer) (reqs : List Buffer) :
    q.requests descs k (req :: reqs) =
      (q.request descs k req reqs.isEmpty).requests descs (k + 1) reqs := by
  cases reqs <;> rfl

/-- The recursion over the requests fills the descriptors in order, and no others. -/
theorem requests_spec {all : List Buffer} (hn : descs.Nodup) (hsmall : ∀ d ∈ descs, d < 2 ^ 16)
    (hall : all.drop k = reqs) (hlen : k + reqs.length = descs.length) (hl : q.Linked descs k)
    (he : q.Encoded descs all k) :
    (q.requests descs k reqs).Linked descs descs.length ∧
      (q.requests descs k reqs).Encoded descs all descs.length ∧
      ∀ d ∉ descs, (q.requests descs k reqs).desc d = q.desc d := by
  induction reqs generalizing q k with
  | nil =>
    obtain rfl : k = descs.length := hlen
    exact ⟨hl, he, fun _ _ => rfl⟩
  | cons req reqs ih =>
    rw [List.length_cons] at hlen
    have hlt : k < descs.length := by omega
    have hlast : reqs.isEmpty = true ↔ k + 1 = descs.length := by
      rw [List.isEmpty_iff, ← List.length_eq_zero_iff]
      omega
    have hreq : all[k]? = some req := by
      rw [← List.head?_drop, hall]
      rfl
    have hrest : all.drop (k + 1) = reqs := by
      rw [← List.tail_drop, hall]
      rfl
    rw [requests_eq]
    obtain ⟨hl', he', hout⟩ := ih hrest (by omega) (hl.request hn hsmall hlt hlast)
      (he.request hn hlt hreq)
    refine ⟨hl', he', fun d hd => ?_⟩
    rw [hout d hd, request_desc_of_ne hlt fun hk => hd (List.mem_of_getElem? hk)]

/-- After the constructor a device that starts at the first descriptor and follows `next` finds one
descriptor for each buffer, in order, and stops after the last; all other descriptors are as they
were. -/
theorem mmioTransport_encodes (hne : reqs ≠ []) (h : q.mmioTransport reqs = some (true, descs, q')) :
    descs.length = reqs.length ∧ descs.Nodup ∧
      (∀ fuel, reqs.length ≤ fuel → q'.chain fuel (descs.headD 0) = descs) ∧
      (∀ (k d : ℕ) (req : Buffer), descs[k]? = some d → reqs[k]? = some req →
        Encodes (q'.desc d) req) ∧
      ∀ d ∉ descs, q'.desc d = q.desc d := by
  obtain ⟨r, hr, hres⟩ := allocMultiDesc_spec q reqs.length
  rw [mmioTransport, hr, Option.map_some] at h
  cases hres with
  | fail => simp at h
  | @done descs₁ q₁ halloc hlen =>
    simp only [if_true, Option.some.injEq, Prod.mk.injEq, true_and] at h
    obtain ⟨rfl, rfl⟩ := h
    have hsmall : ∀ d ∈ descs₁, d < 2 ^ 16 := fun d hd => (halloc.fresh d hd).1.trans (by decide)
    obtain ⟨hl, he, hout⟩ :=
      requests_spec (k := 0) (q := q₁) halloc.nodup hsmall (List.drop_zero (l := reqs))
      (by rw [Nat.zero_add, hlen]) (fun j _ hj => absurd hj (Nat.not_lt_zero j))
      (fun j _ _ hj => absurd hj (Nat.not_lt_zero j))
    refine ⟨hlen, halloc.nodup, fun fuel hfuel => ?_, fun k d req hd hreq => ?_, fun d hd => ?_⟩
    · refine hl.chain_eq ?_ (by rwa [hlen])
      cases hd : descs₁ with
      | nil =>
        rw [hd] at hlen
        exact absurd (List.eq_nil_of_length_eq_zero hlen.symm) hne
      | cons d ds => rfl
    · exact he k d req (List.getElem?_eq_some_iff.mp hd).1 hd hreq
    · rw [hout d hd, halloc.desc]

theorem mmioTransport_encodes_read : ∃ descs q',
    Queue.zero.mmioTransport [⟨100, 16, true⟩, ⟨200, 512, false⟩, ⟨300, 1, false⟩] =
      some (true, descs, q') ∧ q'.chain queue_buffer_size (descs.headD 0) = descs ∧
        descs.length = 3 := by
  have hcall : Queue.zero.mmioTransport [⟨100, 16, true⟩, ⟨200, 512, false⟩, ⟨300, 1, false⟩] =
      some (true, [0, 1, 2], Queue.requests (((Queue.zero.mark 0).mark 1).mark 2) [0, 1, 2] 0
        [⟨100, 16, true⟩, ⟨200, 512, false⟩, ⟨300, 1, false⟩]) := rfl
  obtain ⟨hlen, -, hchain, -⟩ := mmioTransport_encodes (by simp) hcall
  exact ⟨_, _, hcall, hchain _ (by decide), hlen⟩

/-- The length of a descriptor loses the high bits of the size of a buffer. -/
theorem mmioTransport_truncates : ∃ descs q',
    Queue.zero.mmioTransport [⟨100, 2 ^ 32, true⟩] = some (true, descs, q') ∧
      (q'.desc (descs.headD 0)).len ≠ 2 ^ 32 :=
  ⟨[0], _, rfl, by decide⟩

end Queue

end OrangeOs.Driver
