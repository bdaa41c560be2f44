import OrangeOs.Kernel.VirtualMemory

/-! # `MemoryList`

The intrusive list of `kernel/virtual_memory.h`, for chunks at any addresses where they do not overlap.
`ChunkList C v L` says that the members of the list and the links in memory describe the list `L`.
`Push`, `Pop` and `Erase` change `L` and nothing outside its chunks.
-/

namespace OrangeOs.Kernel

open Memory

/-- Where chunks can be: objects of 24 bytes that do not overlap. -/
structure Chunks where
  IsChunk : ℕ → Prop
  ne_zero : ∀ c, IsChunk c → c ≠ 0
  lt_word : ∀ c, IsChunk c → c < 2 ^ 64
  apart : ∀ c d, IsChunk c → IsChunk d → d ≠ c → c + 24 ≤ d ∨ d + 24 ≤ c

/-- The addresses of some chunks. -/
def InChunks (L : List ℕ) (i : ℕ) : Prop := ∃ c ∈ L, c ≤ i ∧ i < c + 24

/-- A pointer, with the null pointer left out. -/
def ptr (p : ℕ) : Option ℕ := if p = 0 then none else some p

variable {C : Chunks} {m m' : Memory} {c d p i : ℕ} {L A B : List ℕ} {v : VirtualMemory}

theorem ptr_eq_some : ptr p = some c ↔ p = c ∧ c ≠ 0 := by
  unfold ptr
  split <;> grind

theorem ptr_eq_none : ptr p = none ↔ p = 0 := by
  unfold ptr
  split <;> simp_all

namespace Chunks.IsChunk

theorem ne_zero (hc : C.IsChunk c) : c ≠ 0 := C.ne_zero c hc

theorem lt_word (hc : C.IsChunk c) : c < 2 ^ 64 := C.lt_word c hc

theorem ptr_eq (hc : C.IsChunk c) : ptr c = some c := if_neg hc.ne_zero

end Chunks.IsChunk

section Fields

variable (hc : C.IsChunk c) (hd : C.IsChunk d) (hp : p < 2 ^ 64)
include hc hd hp

theorem next_setNext : next (setNext m c p) d = if d = c then p else next m d := by
  simpa [next, setNext] using load_store_slot m 0 0 (C.apart c d hc hd) rfl rfl (by omega)
    (by omega) hp

theorem next_setPrevious : next (setPrevious m c p) d = next m d := by
  simpa [next, setPrevious] using load_store_slot m 8 0 (C.apart c d hc hd) rfl rfl (by omega)
    (by omega) hp

theorem next_setIdentify : next (setIdentify m c p) d = next m d := by
  simpa [next, setIdentify] using load_store_slot m 16 0 (C.apart c d hc hd) rfl rfl (by omega)
    (by omega) hp

theorem previous_setNext : previous (setNext m c p) d = previous m d := by
  simpa [previous, setNext] using load_store_slot m 0 8 (C.apart c d hc hd) rfl rfl (by omega)
    (by omega) hp

theorem previous_setPrevious :
    previous (setPrevious m c p) d = if d = c then p else previous m d := by
  simpa [previous, setPrevious] using load_store_slot m 8 8 (C.apart c d hc hd) rfl rfl (by omega)
    (by omega) hp

theorem previous_setIdentify : previous (setIdentify m c p) d = previous m d := by
  simpa [previous, setIdentify] using load_store_slot m 16 8 (C.apart c d hc hd) rfl rfl (by omega)
    (by omega) hp

theorem identify_setNext : identify (setNext m c p) d = identify m d := by
  simpa [identify, setNext] using load_store_slot m 0 16 (C.apart c d hc hd) rfl rfl (by omega)
    (by omega) hp

theorem identify_setPrevious : identify (setPrevious m c p) d = identify m d := by
  simpa [identify, setPrevious] using load_store_slot m 8 16 (C.apart c d hc hd) rfl rfl (by omega)
    (by omega) hp

theorem identify_setIdentify :
    identify (setIdentify m c p) d = if d = c then p else identify m d := by
  simpa [identify, setIdentify] using load_store_slot m 16 16 (C.apart c d hc hd) rfl rfl (by omega)
    (by omega) hp

end Fields

/-- The members of the list and the links of its chunks. -/
structure ChunkList (C : Chunks) (v : VirtualMemory) (L : List ℕ) : Prop where
  linked : Linked (fun c => ptr (next v.mem c)) (fun c => ptr (previous v.mem c)) L
  head : ptr v.head_ = L.head?
  tail : ptr v.tail_ = L.getLast?
  size : v.size_ = L.length
  marked : ∀ c ∈ L, identify v.mem c = v.self.toNat
  chunk : ∀ c ∈ L, C.IsChunk c

@[simp]
theorem VirtualMemory.push_bit_map_ (v : VirtualMemory) (c : ℕ) : (v.push c).bit_map_ = v.bit_map_ := by
  unfold VirtualMemory.push
  split <;> rfl

@[simp]
theorem VirtualMemory.push_self (v : VirtualMemory) (c : ℕ) : (v.push c).self = v.self := by
  unfold VirtualMemory.push
  split <;> rfl

namespace ChunkList

/-- Only the links and the marks of the chunks of the list matter. -/
theorem of_fields (h : ChunkList C v L) (hnext : ∀ d ∈ L, next m' d = next v.mem d)
    (hprevious : ∀ d ∈ L, previous m' d = previous v.mem d)
    (hidentify : ∀ d ∈ L, identify m' d = identify v.mem d) :
    ChunkList C { v with mem := m' } L := by
  refine ⟨⟨h.linked.nodup, fun A x B he => ?_, fun A x B he => ?_⟩, h.head, h.tail, h.size, ?_, h.chunk⟩
  · simp only [hnext x (by simp [he])]
    exact h.linked.next_eq A x B he
  · simp only [hprevious x (by simp [he])]
    exact h.linked.prev_eq A x B he
  · intro x hx
    rw [← h.marked x hx]
    exact hidentify x hx

/-- Memory outside the chunks of the list does not matter. -/
theorem of_same (h : ChunkList C v L) (hm : Same v.mem m' (InChunks L)) :
    ChunkList C { v with mem := m' } L := by
  have hload : ∀ x ∈ L, ∀ o, o + 8 ≤ 24 → m'.load (x + o) 8 = v.mem.load (x + o) 8 :=
    fun x hx o ho => hm.load_eq fun i _ _ => ⟨x, hx, by omega, by omega⟩
  exact h.of_fields (fun x hx => hload x hx 0 (by omega)) (fun x hx => hload x hx 8 (by omega))
    fun x hx => hload x hx 16 (by omega)

theorem head_eq (h : ChunkList C v (c :: L)) : v.head_ = c := (ptr_eq_some.mp h.head).1

theorem head_nil (h : ChunkList C v []) : v.head_ = 0 := ptr_eq_none.mp h.head

theorem head_cases (h : ChunkList C v L) :
    v.head_ = 0 ∧ L = [] ∨ ∃ B, L = v.head_ :: B ∧ C.IsChunk v.head_ := by
  cases L with
  | nil => exact .inl ⟨h.head_nil, rfl⟩
  | cons c B =>
    obtain rfl := h.head_eq
    exact .inr ⟨B, rfl, h.chunk _ (by simp)⟩

/-- The members and the links describe one list. -/
theorem unique {L' : List ℕ} (h : ChunkList C v L) (h' : ChunkList C v L') : L = L' :=
  h.linked.unique h'.linked (h.head.symm.trans h'.head)

theorem head_lt (h : ChunkList C v L) : v.head_ < 2 ^ 64 := by
  rcases h.head_cases with ⟨h0, -⟩ | ⟨B, -, hp⟩
  · omega
  · exact hp.lt_word

/-- The links of a chunk after a push. -/
theorem push_fields (h : ChunkList C v L) (hc : C.IsChunk c) (hd : C.IsChunk d) :
    next (v.push c).mem d = (if d = c then v.head_ else next v.mem d) ∧
      previous (v.push c).mem d =
        (if d = v.head_ then c else if d = c then 0 else previous v.mem d) ∧
      identify (v.push c).mem d =
        (if d = c then v.self.toNat else identify v.mem d) := by
  have hself : v.self.toNat < 2 ^ 64 := v.self.toNat_lt
  have hzero : 0 < 2 ^ 64 := by omega
  have hlinks : ∀ m, next (setIdentify (setPrevious (setNext m c v.head_) c 0) c v.self.toNat) d =
        (if d = c then v.head_ else next m d) ∧
      previous (setIdentify (setPrevious (setNext m c v.head_) c 0) c v.self.toNat) d =
        (if d = c then 0 else previous m d) ∧
      identify (setIdentify (setPrevious (setNext m c v.head_) c 0) c v.self.toNat) d =
        (if d = c then v.self.toNat else identify m d) := by
    intro m
    rw [next_setIdentify hc hd hself, next_setPrevious hc hd hzero, next_setNext hc hd h.head_lt,
      previous_setIdentify hc hd hself, previous_setPrevious hc hd hzero,
      previous_setNext hc hd h.head_lt, identify_setIdentify hc hd hself,
      identify_setPrevious hc hd hzero, identify_setNext hc hd h.head_lt]
    exact ⟨rfl, rfl, rfl⟩
  obtain ⟨hn, hp, hi⟩ := hlinks v.mem
  rcases h.head_cases with ⟨h0, -⟩ | ⟨B, -, hchunk⟩
  · simp only [VirtualMemory.push, if_pos h0, if_neg (h0 ▸ hd.ne_zero)]
    exact ⟨hn, hp, hi⟩
  · simp only [VirtualMemory.push, if_neg hchunk.ne_zero]
    rw [next_setPrevious hchunk hd hc.lt_word, previous_setPrevious hchunk hd hc.lt_word,
      identify_setPrevious hchunk hd hc.lt_word, hn, hp, hi]
    exact ⟨rfl, rfl, rfl⟩

theorem push_same (h : ChunkList C v L) (c : ℕ) :
    Same v.mem (v.push c).mem fun i => ¬ InChunks (c :: L) i := by
  have hlinks : Same v.mem (setIdentify (setPrevious (setNext v.mem c v.head_) c 0) c v.self.toNat)
      fun i => ¬ InChunks (c :: L) i := by
    intro i hi
    have hout : ¬ (c ≤ i ∧ i < c + 24) := fun hr => hi ⟨c, by simp, hr⟩
    simp only [setIdentify, setPrevious, setNext]
    rw [store_same _ _ _ _ _ (by omega), store_same _ _ _ _ _ (by omega),
      store_same _ _ _ _ _ (by omega)]
  rcases h.head_cases with ⟨h0, -⟩ | ⟨B, hB, hchunk⟩
  · simpa only [VirtualMemory.push, if_pos h0] using hlinks
  · simp only [VirtualMemory.push, if_neg hchunk.ne_zero]
    refine hlinks.trans fun i hi => ?_
    have hout : ¬ (v.head_ ≤ i ∧ i < v.head_ + 24) :=
      fun hr => hi ⟨v.head_, by rw [hB]; simp, hr⟩
    exact store_same _ _ _ _ _ (by omega)

theorem push (h : ChunkList C v L) (hc : C.IsChunk c) (hn : c ∉ L) : ChunkList C (v.push c) (c :: L) := by
  have hfields : ∀ d, C.IsChunk d → _ := fun d hd => h.push_fields hc hd
  have hne : ∀ d ∈ L, d ≠ c := fun d hd he => hn (he ▸ hd)
  have hhead : ∀ d, C.IsChunk d → (L.head? = some d ↔ d = v.head_) := by
    intro d hd
    rw [← h.head, ptr_eq_some]
    grind [hd.ne_zero]
  refine ⟨?_, ?_, ?_, ?_, ?_, ?_⟩
  · refine h.linked.push hn ?_ ?_ ?_ ?_ ?_
    · rw [(hfields c hc).1, if_pos rfl, h.head]
    · have hch : c ≠ v.head_ := fun he => hn (List.mem_of_head? ((hhead c hc).mpr he))
      rw [(hfields c hc).2.1, if_neg hch, if_pos rfl]
      rfl
    · intro d hd
      rw [(hfields d (h.chunk d hd)).1, if_neg (hne d hd)]
    · intro d hd
      have hdL := List.mem_of_head? hd
      rw [(hfields d (h.chunk d hdL)).2.1, if_pos ((hhead d (h.chunk d hdL)).mp hd), hc.ptr_eq]
    · intro d hd hnd
      rw [(hfields d (h.chunk d hd)).2.1, if_neg fun he => hnd ((hhead d (h.chunk d hd)).mpr he),
        if_neg (hne d hd)]
  · simp only [VirtualMemory.push]
    split <;> simpa using hc.ptr_eq
  · rcases h.head_cases with ⟨h0, rfl⟩ | ⟨B, hB, hchunk⟩
    · simp only [VirtualMemory.push, if_pos h0]
      simpa using hc.ptr_eq
    · simp only [VirtualMemory.push, if_neg hchunk.ne_zero]
      rw [h.tail, hB, List.getLast?_cons_cons]
  · simp only [VirtualMemory.push]
    split <;> simp [h.size]
  · intro d hd
    have hd' : C.IsChunk d := (List.mem_cons.mp hd).elim (fun he => he ▸ hc) (h.chunk d)
    rw [(hfields d hd').2.2, VirtualMemory.push_self]
    split
    · rfl
    · next hdc => exact h.marked d ((List.mem_cons.mp hd).resolve_left hdc)
  · exact List.forall_mem_cons.mpr ⟨hc, h.chunk⟩

theorem next_eq (h : ChunkList C v (A ++ c :: B)) : ptr (next v.mem c) = B.head? :=
  h.linked.next_eq A c B rfl

theorem previous_eq (h : ChunkList C v (A ++ c :: B)) : ptr (previous v.mem c) = A.getLast? :=
  h.linked.prev_eq A c B rfl

/-- The chunks before and after `c` are linked to each other. -/
theorem unlink {v' : VirtualMemory} (h : ChunkList C v (A ++ c :: B))
    (hnext : ∀ d, C.IsChunk d → ptr (next v'.mem d) =
      if A.getLast? = some d then B.head? else ptr (next v.mem d))
    (hprevious : ∀ d, C.IsChunk d → ptr (previous v'.mem d) =
      if B.head? = some d then A.getLast? else ptr (previous v.mem d))
    (hidentify : ∀ d, C.IsChunk d → identify v'.mem d = identify v.mem d)
    (hhead : ptr v'.head_ = (A ++ B).head?) (htail : ptr v'.tail_ = (A ++ B).getLast?)
    (hsize : v'.size_ = (A ++ B).length) (hself : v'.self = v.self) : ChunkList C v' (A ++ B) := by
  have hsub : ∀ d ∈ A ++ B, d ∈ A ++ c :: B := by
    intro d hd
    simp only [List.mem_append, List.mem_cons] at hd ⊢
    tauto
  have hchunk : ∀ d ∈ A ++ B, C.IsChunk d := fun d hd => h.chunk d (hsub d hd)
  refine ⟨h.linked.erase ?_ ?_ ?_ ?_, hhead, htail, hsize, ?_, hchunk⟩
  · intro d hd
    rw [hnext d (hchunk d (List.mem_append_left _ (List.mem_of_getLast? hd))), if_pos hd]
  · intro d hd hne
    rw [hnext d (hchunk d hd), if_neg hne]
  · intro d hd
    rw [hprevious d (hchunk d (List.mem_append_right _ (List.mem_of_head? hd))), if_pos hd]
  · intro d hd hne
    rw [hprevious d (hchunk d hd), if_neg hne]
  · intro d hd
    rw [hidentify d (hchunk d hd), hself, h.marked d (hsub d hd)]

/-- `Pop` takes the first chunk. -/
theorem pop (h : ChunkList C v (c :: L)) :
    ∃ v', v.pop = (c, v') ∧ ChunkList C v' L ∧ v'.bit_map_ = v.bit_map_ ∧ v'.self = v.self ∧
      Same v.mem v'.mem fun i => ¬ InChunks L i := by
  have hc : C.IsChunk c := h.chunk c (by simp)
  have hnext : ptr (next v.mem c) = L.head? := h.next_eq (A := [])
  have hzero : 0 < 2 ^ 64 := by omega
  have hhead := h.head_eq
  have hsize : v.size_ = L.length + 1 := h.size
  cases L with
  | nil =>
    have h0 : next v.mem c = 0 := ptr_eq_none.mp hnext
    refine ⟨{ v with head_ := 0, size_ := v.size_ - 1, tail_ := 0 }, ?_, ?_, rfl, rfl,
      Same.refl _ _⟩
    · simp only [VirtualMemory.pop, hhead, if_neg hc.ne_zero, h0, if_true]
    · exact ⟨.nil, rfl, rfl, by simp [hsize], by simp, by simp⟩
  | cons d B =>
    obtain ⟨hd, -⟩ := ptr_eq_some.mp hnext
    have hd' : C.IsChunk d := h.chunk d (by simp)
    refine ⟨{ v with head_ := d, size_ := v.size_ - 1, mem := setPrevious v.mem d 0 }, ?_, ?_, rfl,
      rfl, ?_⟩
    · simp only [VirtualMemory.pop, hhead, if_neg hc.ne_zero, hd, if_neg hd'.ne_zero]
    · refine h.unlink (A := []) ?_ ?_ ?_ hd'.ptr_eq ?_ ?_ rfl
      · intro e he
        simp [next_setPrevious hd' he hzero]
      · intro e he
        simp only [previous_setPrevious hd' he hzero, List.head?_cons, Option.some.injEq, eq_comm]
        split <;> rfl
      · intro e he
        exact identify_setPrevious hd' he hzero
      · rw [h.tail, List.getLast?_cons_cons]
        rfl
      · simp [hsize]
    · intro i hi
      have hout : ¬ (d ≤ i ∧ i < d + 24) := fun hr => hi ⟨d, by simp, hr⟩
      exact store_same _ _ _ _ _ (by omega)

/-- The first half of `Erase`: the chunk after `c` is linked to the chunk before it. -/
theorem eraseNext (h : ChunkList C v (A ++ c :: B)) :
    ∃ v', v.eraseNext c = some v' ∧ v'.head_ = v.head_ ∧ ptr v'.tail_ = (A ++ B).getLast? ∧
      v'.size_ = v.size_ ∧ v'.self = v.self ∧ v'.bit_map_ = v.bit_map_ ∧
      (∀ d, C.IsChunk d → next v'.mem d = next v.mem d) ∧
      (∀ d, C.IsChunk d → ptr (previous v'.mem d) =
        if B.head? = some d then A.getLast? else ptr (previous v.mem d)) ∧
      (∀ d, C.IsChunk d → identify v'.mem d = identify v.mem d) ∧
      Same v.mem v'.mem fun i => ¬ InChunks (A ++ B) i := by
  have hnext := h.next_eq
  have hprevious := h.previous_eq
  have htail := h.tail
  cases B with
  | nil =>
    have h0 : next v.mem c = 0 := ptr_eq_none.mp hnext
    obtain ⟨ht, -⟩ := ptr_eq_some.mp (htail.trans List.getLast?_concat)
    refine ⟨{ v with tail_ := previous v.mem c }, ?_, rfl, ?_, rfl, rfl, rfl, fun _ _ => rfl,
      ?_, fun _ _ => rfl, Same.refl _ _⟩
    · simp only [VirtualMemory.eraseNext, if_pos h0, ht, ne_eq, not_true, if_false]
    · rw [hprevious, List.append_nil]
    · simp
  | cons b B =>
    obtain ⟨hb, -⟩ := ptr_eq_some.mp hnext
    have hb' : C.IsChunk b := h.chunk b (by simp)
    have hlt : previous v.mem c < 2 ^ 64 := load_lt v.mem (c + 8) 8
    refine ⟨{ v with mem := setPrevious v.mem b (previous v.mem c) }, ?_, rfl, ?_, rfl, rfl, rfl,
      fun d hd => next_setPrevious hb' hd hlt, ?_, fun d hd => identify_setPrevious hb' hd hlt, ?_⟩
    · simp only [VirtualMemory.eraseNext, hb, if_neg hb'.ne_zero]
    · rw [htail]
      simp
    · intro d hd
      simp only [previous_setPrevious hb' hd hlt, List.head?_cons, Option.some.injEq,
        eq_comm (a := b)]
      split
      · exact hprevious
      · rfl
    · intro i hi
      have hout : ¬ (b ≤ i ∧ i < b + 24) := fun hr => hi ⟨b, by simp, hr⟩
      exact store_same _ _ _ _ _ (by omega)

/-- The second half of `Erase`: the chunk before `c` is linked to the chunk after it. -/
theorem erasePrevious (hchunk : ∀ d ∈ A ++ c :: B, C.IsChunk d) (hnext : ptr (next v.mem c) = B.head?)
    (hprevious : ptr (previous v.mem c) = A.getLast?) (hhead : ptr v.head_ = (A ++ c :: B).head?) :
    ∃ v', v.erasePrevious c = some v' ∧ v'.tail_ = v.tail_ ∧ ptr v'.head_ = (A ++ B).head? ∧
      v'.size_ = v.size_ ∧ v'.self = v.self ∧ v'.bit_map_ = v.bit_map_ ∧
      (∀ d, C.IsChunk d → ptr (next v'.mem d) =
        if A.getLast? = some d then B.head? else ptr (next v.mem d)) ∧
      (∀ d, C.IsChunk d → previous v'.mem d = previous v.mem d) ∧
      (∀ d, C.IsChunk d → identify v'.mem d = identify v.mem d) ∧
      Same v.mem v'.mem fun i => ¬ InChunks (A ++ B) i := by
  rcases A.eq_nil_or_concat' with rfl | ⟨A, a, rfl⟩
  · have h0 : previous v.mem c = 0 := ptr_eq_none.mp hprevious
    obtain ⟨hh, -⟩ := ptr_eq_some.mp hhead
    refine ⟨{ v with head_ := next v.mem c }, ?_, rfl, hnext, rfl, rfl, rfl, ?_, fun _ _ => rfl,
      fun _ _ => rfl, Same.refl _ _⟩
    · simp only [VirtualMemory.erasePrevious, if_pos h0, hh, ne_eq, not_true, if_false]
    · simp
  · rw [List.getLast?_concat] at hprevious ⊢
    obtain ⟨ha, -⟩ := ptr_eq_some.mp hprevious
    have ha' : C.IsChunk a := hchunk a (by simp)
    have hlt : next v.mem c < 2 ^ 64 := load_lt v.mem c 8
    refine ⟨{ v with mem := setNext v.mem a (next v.mem c) }, ?_, rfl, ?_, rfl, rfl, rfl, ?_,
      fun d hd => previous_setNext ha' hd hlt, fun d hd => identify_setNext ha' hd hlt, ?_⟩
    · simp only [VirtualMemory.erasePrevious, ha, if_neg ha'.ne_zero]
    · rw [hhead]
      cases A <;> rfl
    · intro d hd
      simp only [next_setNext ha' hd hlt, Option.some.injEq, eq_comm (a := a)]
      split
      · exact hnext
      · rfl
    · intro i hi
      have hout : ¬ (a ≤ i ∧ i < a + 24) := fun hr => hi ⟨a, by simp, hr⟩
      exact store_same _ _ _ _ _ (by omega)

/-- `Erase` takes a chunk out of a list of at least two. -/
theorem erase (h : ChunkList C v (A ++ c :: B)) (hne : A ++ B ≠ []) :
    ∃ v', v.erase c = (true, v') ∧ ChunkList C v' (A ++ B) ∧ v'.bit_map_ = v.bit_map_ ∧
      v'.self = v.self ∧ Same v.mem v'.mem fun i => ¬ InChunks (A ++ B) i := by
  have hc : C.IsChunk c := h.chunk c (by simp)
  obtain ⟨hcA, hcB⟩ : c ∉ A ∧ c ∉ B := by
    have := h.linked.nodup
    rw [List.nodup_append] at this
    exact ⟨fun hA => this.2.2 c hA c (by simp) rfl, (List.nodup_cons.mp this.2.1).1⟩
  obtain ⟨v₁, he₁, hh₁, ht₁, hs₁, hf₁, hb₁, hn₁, hp₁, hi₁, hm₁⟩ := h.eraseNext
  obtain ⟨v₂, he₂, ht₂, hh₂, hs₂, hf₂, hb₂, hn₂, hp₂, hi₂, hm₂⟩ :=
    @erasePrevious C c A B v₁ h.chunk (by rw [hn₁ c hc, h.next_eq])
      (by rw [hp₁ c hc, if_neg fun hx => hcB (List.mem_of_head? hx), h.previous_eq])
      (by rw [hh₁, h.head])
  have hlinked : ¬ (next v.mem c = 0 ∧ previous v.mem c = 0) := by
    rw [← ptr_eq_none, ← ptr_eq_none, h.next_eq, h.previous_eq]
    simpa [and_comm] using hne
  refine ⟨{ v₂ with size_ := v₂.size_ - 1 }, ?_, ?_, hb₂.trans hb₁, hf₂.trans hf₁, hm₁.trans hm₂⟩
  · rw [VirtualMemory.erase, if_neg]
    · simp only [he₁, he₂]
    · rintro (hx | hx)
      · exact hx (h.marked c (by simp))
      · exact hlinked hx
  · refine h.unlink ?_ ?_ ?_ hh₂ ?_ ?_ (hf₂.trans hf₁)
    · intro d hd
      rw [hn₂ d hd, hn₁ d hd]
    · intro d hd
      rw [hp₂ d hd, hp₁ d hd]
    · intro d hd
      rw [hi₂ d hd, hi₁ d hd]
    · rw [ht₂, ht₁]
    · simp only [hs₂, hs₁, h.size, List.length_append, List.length_cons]
      omega

end ChunkList

end OrangeOs.Kernel
