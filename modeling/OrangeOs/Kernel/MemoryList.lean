import OrangeOs.Kernel.ChunkList

/-! # The list of free pages

`OnList v L` says that `memory_list_` is the list `L` of pages, which are the chunks here. `Push`, `Pop`
and `Erase` change `L` and nothing outside its pages.
-/

namespace OrangeOs.Kernel

open Memory

/-- The start of a page of the managed memory. -/
structure IsPage (c : ℕ) : Prop where
  aligned : c % 4096 = 0
  base : 2147483648 ≤ c
  lt : c < 2281701376

/-- The addresses of some pages. -/
def InPages (L : List ℕ) (i : ℕ) : Prop := ∃ c ∈ L, c ≤ i ∧ i < c + 4096

theorem inPages_mono {L L' : List ℕ} {x : ℕ} (h : ∀ c ∈ L', c ∈ L) (hx : InPages L' x) :
    InPages L x := by
  obtain ⟨c, hc, hr⟩ := hx
  exact ⟨c, h c hc, hr⟩

variable {m m' : Memory} {c d p i : ℕ} {L A B : List ℕ} {v : VirtualMemory}

theorem IsPage.apart (hc : IsPage c) (hd : IsPage d) (h : c ≠ d) : c + 4096 ≤ d ∨ d + 4096 ≤ c := by
  have := hc.aligned
  have := hd.aligned
  omega

/-- Two members of two pages are one or do not overlap. -/
theorem load_store_field (m : Memory) (hc : IsPage c) (hd : IsPage d) (o o' : ℕ) (ho : o % 8 = 0)
    (ho' : o' % 8 = 0) (hlt : o < 4096) (hlt' : o' < 4096) (hp : p < 2 ^ 64) :
    (m.store (c + o) 8 p).load (d + o') 8 =
      if d = c ∧ o' = o then p else m.load (d + o') 8 :=
  load_store_slot m o o' (fun h => hc.apart hd (Ne.symm h)) ho ho' (by omega) (by omega) hp

/-- The chunks on `memory_list_`. -/
structure OnList (v : VirtualMemory) (L : List ℕ) : Prop where
  linked : Linked (fun c => ptr (next v.mem c)) (fun c => ptr (previous v.mem c)) L
  head : ptr v.head_ = L.head?
  tail : ptr v.tail_ = L.getLast?
  size : v.size_ = L.length
  identify : ∀ c ∈ L, identify v.mem c = v.self.toNat
  page : ∀ c ∈ L, IsPage c

theorem IsPage.ne_zero (hc : IsPage c) : c ≠ 0 := by
  have := hc.base
  omega

theorem IsPage.lt_word (hc : IsPage c) : c < 2 ^ 64 := by
  have := hc.lt
  omega

/-- The pages as chunks. -/
def pageChunks : Chunks where
  IsChunk := IsPage
  ne_zero _ hc := hc.ne_zero
  lt_word _ hc := hc.lt_word
  apart c d hc hd h := by
    have := hc.apart hd (Ne.symm h)
    omega

theorem inPages_of_inChunks (h : InChunks L i) : InPages L i := by
  obtain ⟨c, hc, hr⟩ := h
  exact ⟨c, hc, by omega⟩

theorem OnList.chunkList (h : OnList v L) : ChunkList pageChunks v L :=
  ⟨h.linked, h.head, h.tail, h.size, h.identify, h.page⟩

theorem ChunkList.onList (h : ChunkList pageChunks v L) : OnList v L :=
  ⟨h.linked, h.head, h.tail, h.size, h.marked, h.chunk⟩

namespace OnList

/-- Memory outside the free pages does not matter. -/
theorem of_same (h : OnList v L) (hm : Same v.mem m' (InPages L)) :
    OnList { v with mem := m' } L :=
  (h.chunkList.of_same (hm.mono fun _ => inPages_of_inChunks)).onList

theorem head_nil (h : OnList v []) : v.head_ = 0 := h.chunkList.head_nil

/-- There is one list of free pages. -/
theorem unique {L' : List ℕ} (h : OnList v L) (h' : OnList v L') : L = L' :=
  h.chunkList.unique h'.chunkList

theorem push_same (h : OnList v L) (c : ℕ) :
    Same v.mem (v.push c).mem fun i => ¬ InPages (c :: L) i :=
  (h.chunkList.push_same c).mono fun _ hi hc => hi (inPages_of_inChunks hc)

theorem push (h : OnList v L) (hc : IsPage c) (hn : c ∉ L) : OnList (v.push c) (c :: L) :=
  (h.chunkList.push hc hn).onList

/-- `Pop` takes the first chunk. -/
theorem pop (h : OnList v (c :: L)) :
    ∃ v', v.pop = (c, v') ∧ OnList v' L ∧ v'.bit_map_ = v.bit_map_ ∧ v'.self = v.self ∧
      Same v.mem v'.mem fun i => ¬ InPages L i := by
  obtain ⟨v', heq, hl, hb, hs, hm⟩ := h.chunkList.pop
  exact ⟨v', heq, hl.onList, hb, hs, hm.mono fun _ hi hc => hi (inPages_of_inChunks hc)⟩

/-- `Erase` takes a chunk out of a list of at least two. -/
theorem erase (h : OnList v (A ++ c :: B)) (hne : A ++ B ≠ []) :
    ∃ v', v.erase c = (true, v') ∧ OnList v' (A ++ B) ∧ v'.bit_map_ = v.bit_map_ ∧
      v'.self = v.self ∧ Same v.mem v'.mem fun i => ¬ InPages (A ++ B) i := by
  obtain ⟨v', heq, hl, hb, hs, hm⟩ := h.chunkList.erase hne
  exact ⟨v', heq, hl.onList, hb, hs, hm.mono fun _ hi hc => hi (inPages_of_inChunks hc)⟩

end OnList

end OrangeOs.Kernel
