import OrangeOs.Kernel.MemoryList

/-! # Runs of `MemoryList`

A deque of chunks is a list of addresses, the chunk pushed last first. Every run of `Push`, `Pop` and
`Erase` refines it, whatever the owners of other memory do in between, as long as no `Erase` meets the
only chunk of the list or the stale links of a chunk that has left it.
-/

namespace OrangeOs.Kernel

open Memory

variable {C : Chunks} {c d : ℕ} {L A B : List ℕ} {v : VirtualMemory}

/-! ## `Erase` of a chunk that is not on the list -/

namespace ChunkList

theorem tail_ne (h : ChunkList C v L) (hc : C.IsChunk c) (hn : c ∉ L) : c ≠ v.tail_ := by
  rintro rfl
  refine hn (List.mem_of_getLast? ?_)
  rw [← h.tail, hc.ptr_eq]

theorem head_ne (h : ChunkList C v L) (hc : C.IsChunk c) (hn : c ∉ L) : c ≠ v.head_ := by
  rintro rfl
  refine hn (List.mem_of_head? ?_)
  rw [← h.head, hc.ptr_eq]

/-- The only chunk of a list looks like one that is on no list. -/
theorem erase_only (h : ChunkList C v [c]) : v.erase c = (false, v) := by
  have hnext : next v.mem c = 0 := ptr_eq_none.mp (h.next_eq (A := []))
  have hprevious : previous v.mem c = 0 := ptr_eq_none.mp (h.previous_eq (A := []))
  rw [VirtualMemory.erase, if_pos (.inr ⟨hnext, hprevious⟩)]

end ChunkList

/-- The links of a chunk that is not on the list do not lead `Erase` into it: the chunk has another mark,
or it has no next chunk, or it had been the first chunk and its next chunk is the first one now or is not
on the list. -/
def Detached (C : Chunks) (v : VirtualMemory) (L : List ℕ) (c : ℕ) : Prop :=
  identify v.mem c ≠ v.self.toNat ∨ next v.mem c = 0 ∨
    previous v.mem c = 0 ∧ C.IsChunk (next v.mem c) ∧
      (next v.mem c ∈ L → next v.mem c = v.head_)

namespace ChunkList

/-- `Erase` of a chunk with a next chunk and no previous one, which is not the first of the list. -/
theorem erase_of_previous (h : ChunkList C v L) (hc : C.IsChunk c) (hn : c ∉ L)
    (hmark : identify v.mem c = v.self.toNat) (hnext : C.IsChunk (next v.mem c))
    (hprevious : previous v.mem c = 0) :
    v.erase c = (false, { v with mem := setPrevious v.mem (next v.mem c) 0 }) := by
  have hnot : ¬ (identify v.mem c ≠ v.self.toNat ∨ next v.mem c = 0 ∧ previous v.mem c = 0) := by
    simp [hmark, hnext.ne_zero]
  have hback : previous (setPrevious v.mem (next v.mem c) 0) c = 0 := by
    rw [previous_setPrevious hnext hc (by omega), hprevious, ite_self]
  rw [VirtualMemory.erase, if_neg hnot, VirtualMemory.eraseNext, if_neg hnext.ne_zero, hprevious]
  simp only [VirtualMemory.erasePrevious, hback, if_true, if_pos (h.head_ne hc hn)]

/-- `Erase` of a detached chunk returns false and leaves the list alone. -/
theorem erase_detached (h : ChunkList C v L) (hc : C.IsChunk c) (hn : c ∉ L)
    (hd : Detached C v L c) :
    ∃ v', v.erase c = (false, v') ∧ ChunkList C v' L ∧ v'.self = v.self := by
  by_cases hmark : identify v.mem c = v.self.toNat
  · rcases hd with hmark' | hnext | ⟨hprevious, hchunk, hhead⟩
    · exact absurd hmark hmark'
    · by_cases hprevious : previous v.mem c = 0
      · exact ⟨v, by rw [VirtualMemory.erase, if_pos (.inr ⟨hnext, hprevious⟩)], h, rfl⟩
      · refine ⟨v, ?_, h, rfl⟩
        have hnot : ¬ (identify v.mem c ≠ v.self.toNat ∨
            next v.mem c = 0 ∧ previous v.mem c = 0) := by simp [hmark, hprevious]
        simp only [VirtualMemory.erase, if_neg hnot, VirtualMemory.eraseNext, if_pos hnext,
          if_pos (h.tail_ne hc hn)]
    · refine ⟨_, h.erase_of_previous hc hn hmark hchunk hprevious, h.of_fields ?_ ?_ ?_, rfl⟩
      · exact fun d hd => next_setPrevious hchunk (h.chunk d hd) (by omega)
      · intro d hd
        rw [previous_setPrevious hchunk (h.chunk d hd) (by omega)]
        split
        · next he =>
          subst he
          cases L with
          | nil => simp at hd
          | cons e B =>
            rw [hhead hd, h.head_eq]
            exact (ptr_eq_none.mp (h.previous_eq (A := []))).symm
        · rfl
      · exact fun d hd => identify_setPrevious hchunk (h.chunk d hd) (by omega)
  · exact ⟨v, by rw [VirtualMemory.erase, if_pos (.inl hmark)], h, rfl⟩

/-- The condition is exact for chunks with the links of a list, such as one that has been taken out. -/
theorem erase_detached_iff (h : ChunkList C v L) (hc : C.IsChunk c) (hn : c ∉ L)
    (hnext : next v.mem c ≠ 0 → C.IsChunk (next v.mem c))
    (hprevious : previous v.mem c ≠ 0 → C.IsChunk (previous v.mem c)) :
    (v.erase c).1 = false ∧ ChunkList C (v.erase c).2 L ↔ Detached C v L c := by
  constructor
  · rintro ⟨hfalse, hl⟩
    by_contra hd
    simp only [Detached, not_or, not_not] at hd
    obtain ⟨hmark, hn0, hlink⟩ := hd
    have hnc := hnext hn0
    by_cases hp0 : previous v.mem c = 0
    · rw [h.erase_of_previous hc hn hmark hnc hp0] at hl
      obtain ⟨hmem, hhead⟩ : next v.mem c ∈ L ∧ next v.mem c ≠ v.head_ := by
        simpa [hp0, hnc] using hlink
      obtain ⟨A, B, he⟩ := List.append_of_mem hmem
      -- The next chunk has lost its link back to the one before it.
      have hback : previous (setPrevious v.mem (next v.mem c) 0) (next v.mem c) = 0 := by
        rw [previous_setPrevious hnc hnc (by omega), if_pos rfl]
      have hlast : A.getLast? = none := by
        rw [← hl.linked.prev_eq A _ B he]
        exact ptr_eq_none.mpr hback
      rw [List.getLast?_eq_none_iff] at hlast
      refine hhead (ptr_eq_some.mp (h.head.trans ?_)).1.symm
      rw [he, hlast]
      rfl
    · have hpc := hprevious hp0
      have hnot : ¬ (identify v.mem c ≠ v.self.toNat ∨ next v.mem c = 0 ∧ previous v.mem c = 0) := by
        simp [hmark, hp0]
      have hback : previous (setPrevious v.mem (next v.mem c) (previous v.mem c)) c ≠ 0 := by
        rw [previous_setPrevious hnc hc hpc.lt_word, ite_self]
        exact hp0
      rw [VirtualMemory.erase, if_neg hnot, VirtualMemory.eraseNext, if_neg hn0] at hfalse
      simp only [VirtualMemory.erasePrevious, if_neg hback] at hfalse
      cases hfalse
  · intro hd
    obtain ⟨v', heq, hl, -⟩ := h.erase_detached hc hn hd
    rw [heq]
    exact ⟨rfl, hl⟩

end ChunkList

namespace MemoryList

/-! ## Runs -/

/-- The operations of the list, and a write of a byte by the owner of other memory. -/
inductive Op where
  | push (chunk : ℕ)
  | pop
  | erase (chunk : ℕ)
  | write (address : ℕ) (byte : UInt8)
  deriving DecidableEq

/-- What an operation returns. -/
inductive Answer where
  | unit
  | chunk (p : ℕ)
  | erased (ok : Bool)
  deriving DecidableEq

def exec (v : VirtualMemory) : Op → Answer × VirtualMemory
  | .push c => (.unit, v.push c)
  | .pop => (.chunk v.pop.1, v.pop.2)
  | .erase c => (.erased (v.erase c).1, (v.erase c).2)
  | .write a b => (.unit, { v with mem := v.mem.set a b })

def run (v : VirtualMemory) : List Op → List Answer × VirtualMemory
  | [] => ([], v)
  | op :: ops =>
    let r := exec v op
    let rest := run r.2 ops
    (r.1 :: rest.1, rest.2)

/-- The operations on the deque, with 0 for no chunk. -/
def spec (L : List ℕ) : Op → Answer × List ℕ
  | .push c => (.unit, c :: L)
  | .pop => (.chunk (L.head?.getD 0), L.tail)
  | .erase c => (.erased (c ∈ L), L.erase c)
  | .write _ _ => (.unit, L)

def specRun (L : List ℕ) : List Op → List Answer × List ℕ
  | [] => ([], L)
  | op :: ops =>
    let r := spec L op
    let rest := specRun r.2 ops
    (r.1 :: rest.1, rest.2)

/-- What is asked of a call: `Push` gets a chunk that is not on the list, `Erase` a chunk, and no one
else writes to the chunks of the list. -/
def Asked (C : Chunks) (L : List ℕ) : Op → Prop
  | .push c => C.IsChunk c ∧ c ∉ L
  | .pop => True
  | .erase c => C.IsChunk c
  | .write a _ => ¬ InChunks L a

/-- `Erase` meets neither the only chunk of the list nor the links of a chunk that has left it. -/
def Spared (C : Chunks) (v : VirtualMemory) (L : List ℕ) : Op → Prop
  | .erase c => L ≠ [c] ∧ (c ∉ L → Detached C v L c)
  | _ => True

/-- Every operation of a run meets a condition on the state and the deque before it. -/
def Every (P : VirtualMemory → List ℕ → Op → Prop) (v : VirtualMemory) (L : List ℕ) : List Op → Prop
  | [] => True
  | op :: ops => P v L op ∧ Every P (exec v op).2 (spec L op).2 ops

/-- The members of the list and the links describe the deque in both directions. -/
structure Deque (v : VirtualMemory) (L : List ℕ) : Prop where
  nodup : L.Nodup
  forward : ∀ n, L.length ≤ n → follow (fun c => ptr (next v.mem c)) n (ptr v.head_) = L
  backward : ∀ n, L.length ≤ n →
    follow (fun c => ptr (previous v.mem c)) n (ptr v.tail_) = L.reverse
  size : v.size_ = L.length

/-- The members of a `MemoryList` as its constructor leaves them. -/
structure Constructed (v : VirtualMemory) : Prop where
  head : v.head_ = 0
  tail : v.tail_ = 0
  size : v.size_ = 0

theorem Constructed.chunkList (h : Constructed v) (C : Chunks) : ChunkList C v [] :=
  ⟨.nil, ptr_eq_none.mpr h.head, ptr_eq_none.mpr h.tail, h.size, by simp, by simp⟩

theorem deque_of_chunkList (h : ChunkList C v L) : Deque v L where
  nodup := h.linked.nodup
  forward n hn := by rw [h.head, h.linked.follow_eq hn]
  backward n hn := by rw [h.tail, h.linked.follow_back_eq hn]
  size := h.size

/-- One operation. -/
theorem exec_spec {op : Op} (h : ChunkList C v L) (ha : Asked C L op) (hs : Spared C v L op) :
    (exec v op).1 = (spec L op).1 ∧ ChunkList C (exec v op).2 (spec L op).2 := by
  cases op with
  | push c => exact ⟨rfl, h.push ha.1 ha.2⟩
  | pop =>
    cases L with
    | nil =>
      have hpop : v.pop = (0, v) := by rw [VirtualMemory.pop, if_pos h.head_nil]
      rw [exec, hpop]
      exact ⟨rfl, h⟩
    | cons c L =>
      obtain ⟨v', heq, hl, -⟩ := h.pop
      rw [exec, heq]
      exact ⟨rfl, hl⟩
  | erase c =>
    by_cases hc : c ∈ L
    · obtain ⟨A, B, rfl⟩ := List.append_of_mem hc
      have hnodup := h.linked.nodup
      have hcA : c ∉ A := fun hA => by
        rw [List.nodup_append] at hnodup
        exact hnodup.2.2 c hA c (by simp) rfl
      have hne : A ++ B ≠ [] := by
        intro he
        obtain ⟨rfl, rfl⟩ := List.append_eq_nil_iff.mp he
        exact hs.1 rfl
      obtain ⟨v', heq, hl, -⟩ := h.erase hne
      have herase : (A ++ c :: B).erase c = A ++ B := by
        rw [List.erase_append_right _ hcA, List.erase_cons_head]
      rw [exec, heq, spec, herase]
      exact ⟨by simp, hl⟩
    · obtain ⟨v', heq, hl, -⟩ := h.erase_detached ha hc (hs.2 hc)
      rw [exec, heq, spec, List.erase_of_not_mem hc]
      exact ⟨by simp [hc], hl⟩
  | write a b =>
    refine ⟨rfl, h.of_same ((set_same v.mem a b).mono fun i hi => ?_)⟩
    rintro rfl
    exact ha hi

/-- A run. -/
theorem run_spec {ops : List Op} (h : ChunkList C v L)
    (hops : Every (fun v L op => Asked C L op ∧ Spared C v L op) v L ops) :
    (run v ops).1 = (specRun L ops).1 ∧ ChunkList C (run v ops).2 (specRun L ops).2 := by
  induction ops generalizing v L with
  | nil => exact ⟨rfl, h⟩
  | cons op ops ih =>
    obtain ⟨⟨ha, hs⟩, hrest⟩ := hops
    obtain ⟨hanswer, hl⟩ := exec_spec h ha hs
    obtain ⟨hanswers, hl'⟩ := ih hl hrest
    exact ⟨by rw [run, specRun, hanswer, hanswers], hl'⟩

/-- As long as no `Erase` meets the only chunk of the list or the links of a chunk that has left it, the
answers are those of a deque, and the members and the links describe the deque in both directions. -/
theorem memoryList_refines_deque (C : Chunks) (hv : Constructed v) (ops : List Op)
    (hops : Every (fun v L op => Asked C L op ∧ Spared C v L op) v [] ops) :
    (run v ops).1 = (specRun [] ops).1 ∧ Deque (run v ops).2 (specRun [] ops).2 := by
  obtain ⟨hanswers, hl⟩ := run_spec (hv.chunkList C) hops
  exact ⟨hanswers, deque_of_chunkList hl⟩

/-- A list that has been constructed, in an empty memory. -/
def emptyList : VirtualMemory where
  mem := fun _ => 0
  self := 2147500032
  has_init_ := false
  head_ := 0
  tail_ := 0
  size_ := 0
  bit_map_ := .ofFn fun _ => 0

theorem isPage_sample : IsPage 2147516416 ∧ IsPage 2147520512 :=
  ⟨⟨by decide, by decide, by decide⟩, ⟨by decide, by decide, by decide⟩⟩

/-- Two chunks are pushed, the first of them is erased, the other one popped. -/
theorem memoryList_refines_deque_sample :
    (run emptyList [.push 2147516416, .push 2147520512, .erase 2147516416, .pop, .pop]).1 =
      [.unit, .unit, .erased true, .chunk 2147520512, .chunk 0] := by
  obtain ⟨ha, hb⟩ := isPage_sample
  refine (memoryList_refines_deque pageChunks ⟨rfl, rfl, rfl⟩ _ ?_).1
  refine ⟨⟨⟨ha, by simp⟩, trivial⟩, ⟨⟨hb, by simp [spec]⟩, trivial⟩, ⟨ha, by simp [spec], ?_⟩,
    ⟨trivial, trivial⟩, ⟨trivial, trivial⟩, trivial⟩
  exact fun hn => absurd hn (by simp [spec])

/-- A chunk that is pushed on the empty list cannot be erased. -/
theorem erase_misses_only_chunk : ¬ ∀ (C : Chunks) (v : VirtualMemory) (ops : List Op),
    Constructed v → Every (fun _ L op => Asked C L op) v [] ops →
      (run v ops).1 = (specRun [] ops).1 := by
  intro h
  obtain ⟨ha, -⟩ := isPage_sample
  have hempty : Constructed emptyList := ⟨rfl, rfl, rfl⟩
  have hpushed : ChunkList pageChunks (emptyList.push 2147516416) [2147516416] :=
    (hempty.chunkList pageChunks).push ha (by simp)
  have hrun := h pageChunks emptyList [.push 2147516416, .erase 2147516416] hempty
    ⟨⟨ha, by simp⟩, ha, trivial⟩
  simp [run, exec, specRun, spec, hpushed.erase_only] at hrun

end MemoryList

end OrangeOs.Kernel
