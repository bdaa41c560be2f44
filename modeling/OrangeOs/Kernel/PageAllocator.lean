import OrangeOs.Kernel.MemoryList
import OrangeOs.Kernel.PageSearch
import OrangeOs.Library.Runs

/-! # The free pages

The list of free pages and the bit map describe one set of pages over every run of the allocator.
-/

namespace OrangeOs.Kernel

open Memory VirtualMemory

variable {m m' : Memory} {c d p i k n beg : ℕ} {L A B : List ℕ} {v v' : VirtualMemory}

/-- The rest of a computation after a step that succeeds. -/
theorem ok_bind {ε α β : Type} (a : α) (f : α → Except ε β) :
    (Except.ok a >>= f) = f a := (rfl)

/-- The steps of a computation that succeeds. -/
theorem bind_eq_ok {ε α β : Type} {x : Except ε α} {f : α → Except ε β} {r : β} :
    x >>= f = .ok r ↔ ∃ a, x = .ok a ∧ f a = .ok r := by
  cases x with
  | error e => exact ⟨fun h => (by cases h), fun ⟨a, h, _⟩ => (by cases h)⟩
  | ok a =>
    constructor
    · exact fun h => ⟨a, rfl, h⟩
    · rintro ⟨b, hb, h⟩
      obtain rfl := Except.ok.inj hb
      exact h

/-! ## The bit map -/

theorem MEMORY_END_eq : MEMORY_END = 2281701376 := rfl

/-- The bit of a page is set. -/
def VirtualMemory.used (v : VirtualMemory) (c : ℕ) : Bool := bitAt v.bit_map_.byte (pageIndex c)

theorem IsPage.pageIndex_eq (hc : IsPage c) : pageIndex c = (c - 2147483648) / 4096 := by
  have := hc.base
  have := hc.lt
  simp only [pageIndex, KERNEL_BASE, PGSIZE]
  omega

theorem IsPage.pageIndex_lt (hc : IsPage c) : pageIndex c < 32768 := by
  have := hc.lt
  rw [hc.pageIndex_eq]
  omega

theorem IsPage.pageIndex_inj (hc : IsPage c) (hd : IsPage d) : pageIndex c = pageIndex d ↔ c = d := by
  have := hc.aligned
  have := hd.aligned
  have := hc.base
  have := hd.base
  rw [hc.pageIndex_eq, hd.pageIndex_eq]
  omega

/-- The page of a bit. -/
theorem isPage_of_lt (hk : k < 32768) :
    IsPage (k * PGSIZE + KERNEL_BASE) ∧ pageIndex (k * PGSIZE + KERNEL_BASE) = k := by
  have hp : IsPage (k * PGSIZE + KERNEL_BASE) := by
    refine ⟨?_, ?_, ?_⟩ <;> simp only [PGSIZE, KERNEL_BASE] <;> omega
  refine ⟨hp, ?_⟩
  rw [hp.pageIndex_eq]
  simp only [PGSIZE, KERNEL_BASE]
  omega

/-- `UpdateBitMap` changes the bit of its page and nothing else. -/
theorem updateBitMap_eq (v : VirtualMemory) (hc : IsPage c) (a : BitMapAction) :
    ∃ v', v.updateBitMap c a = .ok v' ∧ v' = { v with bit_map_ := v'.bit_map_ } ∧
      ∀ d, IsPage d → v'.used d = if d = c then decide (a = .alloc) else v.used d := by
  have hlt := hc.pageIndex_lt
  refine ⟨_, if_pos (by omega), rfl, fun d hd => ?_⟩
  have hinj := hd.pageIndex_inj hc
  have hdlt := hd.pageIndex_lt
  simp only [VirtualMemory.used, bitAt]
  by_cases hb : pageIndex d / 8 = pageIndex c / 8
  · rw [hb, Buffer.byte_patch_of_mem (by omega) (by omega) (by omega)]
    cases a with
    | alloc =>
      rw [testBit_or_bitMask _ (Nat.mod_lt _ (by omega))]
      by_cases hdc : d = c
      · simp [hdc]
      · have : pageIndex c % 8 ≠ pageIndex d % 8 := by omega
        simp [hdc, this]
    | free =>
      rw [testBit_and_not_bitMask _ (Nat.mod_lt _ (by omega)) (Nat.mod_lt _ (by omega))]
      by_cases hdc : d = c
      · simp [hdc]
      · have : pageIndex c % 8 ≠ pageIndex d % 8 := by omega
        simp [hdc, this]
  · have hdc : d ≠ c := by
      rintro rfl
      exact hb rfl
    rw [Buffer.byte_patch_of_not_mem (by omega), if_neg hdc]

/-! ## The search for a window of free pages -/

/-- The pages of a window are free. -/
def Window (bit_map_ : Buffer 4096) (n : ℕ) (r : ℕ × ℕ) : Prop :=
  r.1 < 4096 ∧ n + r.2 ≤ r.1 * 8 + 8 ∧
    ∀ j < n, bitAt bit_map_.byte (r.1 * 8 + 8 - n - r.2 + j) = false

/-- The search of `AllocContinuousPage`. -/
theorem findWindow_eq (bm : Buffer 4096) (hfull : bm.byte 0 = 0xff) (hn : n = 1 ∨ n = 2) :
    ∃ r, findWindow bm (windowMask n) 4096 = .ok r ∧ ∀ w, r = some w → Window bm n w := by
  obtain ⟨r, hr, hlt, hlast⟩ := findWindow_spec hfull (n := n) (by omega) (by omega) 4096
  refine ⟨r, hr, fun w hw => ?_⟩
  have hw' := hlt w hw
  obtain ⟨-, -, hpass, -⟩ := hlast.some (w.1 * 8 + 7 - w.2) (by rw [hw]; rfl)
  have hfree := hpass.runFree (by omega)
  have hfirst := hpass.start_le hfull (by omega) (by omega)
  exact ⟨hw'.1, by omega, fun j hj => hfree _ (by omega) (by omega)⟩

/-! ## Runs -/

/-- The free pages are on the list and have their bits clear; `out` are the pages that were handed
out and not freed since. -/
structure Accounted (beg : ℕ) (v : VirtualMemory) (L out : List ℕ) : Prop where
  onList : OnList v L
  free_iff : ∀ c, c ∈ L ↔ IsPage c ∧ beg ≤ c ∧ v.used c = false
  out_iff : ∀ c, c ∈ out ↔ IsPage c ∧ beg ≤ c ∧ v.used c = true
  out_nodup : out.Nodup
  kernel : ∀ c, IsPage c → c < beg → v.used c = true

/-- A page that holds zeros. -/
def ZeroPage (m : Memory) (c : ℕ) : Prop := ∀ i, c ≤ i → i < c + PGSIZE → m i = 0

namespace Accounted

variable {out : List ℕ}

/-- Holders of pages write into them, and the kernel into its own memory. -/
theorem write (h : Accounted beg v L out)
    (hm : Same v.mem m' fun i => beg ≤ i ∧ i < MEMORY_END ∧ ¬ InPages out i) :
    Accounted beg { v with mem := m' } L out := by
  refine ⟨h.onList.of_same (hm.mono ?_), h.free_iff, h.out_iff, h.out_nodup, h.kernel⟩
  rintro i ⟨c, hc, hle, hlt⟩
  obtain ⟨hp, hbeg, hfree⟩ := (h.free_iff c).mp hc
  have := hp.lt
  have := hp.aligned
  rw [MEMORY_END_eq]
  refine ⟨by omega, by omega, ?_⟩
  rintro ⟨d, hd, hdle, hdlt⟩
  obtain ⟨hdp, -, hused⟩ := (h.out_iff d).mp hd
  have hne : c ≠ d := by
    rintro rfl
    rw [hfree] at hused
    exact Bool.noConfusion hused
  have := hp.apart hdp hne
  omega

/-- A page moves from the list to its holder. -/
theorem take (h : Accounted beg v (A ++ c :: B) out) (hl : OnList v' (A ++ B))
    (hused : ∀ d, IsPage d → v'.used d = if d = c then true else v.used d) :
    Accounted beg v' (A ++ B) (c :: out) := by
  have hcn : c ∉ A ++ B := by
    have := h.onList.linked.nodup
    rw [List.nodup_middle] at this
    exact (List.nodup_cons.mp this).1
  obtain ⟨hc, hbeg, hfree⟩ := (h.free_iff c).mp (by simp)
  refine ⟨hl, fun d => ?_, fun d => ?_, ?_, ?_⟩
  · have hd := h.free_iff d
    by_cases hdc : d = c
    · subst hdc
      simp only [hcn, hused d hc, if_true, false_iff]
      simp
    · constructor
      · intro hm
        have hmem : d ∈ A ++ c :: B := by
          simp only [List.mem_append, List.mem_cons] at hm ⊢
          tauto
        obtain ⟨hp, hb, hf⟩ := hd.mp hmem
        exact ⟨hp, hb, by rw [hused d hp, if_neg hdc, hf]⟩
      · rintro ⟨hp, hb, hf⟩
        rw [hused d hp, if_neg hdc] at hf
        have hmem := hd.mpr ⟨hp, hb, hf⟩
        simp only [List.mem_append, List.mem_cons, hdc, false_or] at hmem
        exact List.mem_append.mpr hmem
  · have hd := h.out_iff d
    by_cases hdc : d = c
    · subst hdc
      simp [hc, hbeg, hused d hc]
    · rw [List.mem_cons, hd]
      constructor
      · rintro (he | ⟨hp, hb, hu⟩)
        · exact absurd he hdc
        · exact ⟨hp, hb, by rw [hused d hp, if_neg hdc, hu]⟩
      · rintro ⟨hp, hb, hu⟩
        rw [hused d hp, if_neg hdc] at hu
        exact .inr ⟨hp, hb, hu⟩
  · refine List.nodup_cons.mpr ⟨fun hm => ?_, h.out_nodup⟩
    have := ((h.out_iff c).mp hm).2.2
    rw [hfree] at this
    exact Bool.noConfusion this
  · intro d hd hlt
    rw [hused d hd]
    split
    · rfl
    · exact h.kernel d hd hlt

/-- A page moves from its holder to the front of the list. -/
theorem give (h : Accounted beg v L out) (hcm : c ∈ out) (hl : OnList v' (c :: L))
    (hused : ∀ d, IsPage d → v'.used d = if d = c then false else v.used d) :
    Accounted beg v' (c :: L) (out.erase c) := by
  obtain ⟨hc, hbeg, hset⟩ := (h.out_iff c).mp hcm
  refine ⟨hl, fun d => ?_, fun d => ?_, h.out_nodup.erase c, fun d hd hlt => ?_⟩
  · have hd := h.free_iff d
    by_cases hdc : d = c
    · subst hdc
      simp [hc, hbeg, hused d hc]
    · rw [List.mem_cons, hd]
      constructor
      · rintro (he | ⟨hp, hb, hf⟩)
        · exact absurd he hdc
        · exact ⟨hp, hb, by rw [hused d hp, if_neg hdc, hf]⟩
      · rintro ⟨hp, hb, hf⟩
        rw [hused d hp, if_neg hdc] at hf
        exact .inr ⟨hp, hb, hf⟩
  · rw [h.out_nodup.mem_erase_iff, h.out_iff d]
    constructor
    · rintro ⟨hne, hp, hb, hu⟩
      exact ⟨hp, hb, by rw [hused d hp, if_neg hne, hu]⟩
    · rintro ⟨hp, hb, hu⟩
      rw [hused d hp] at hu
      split at hu
      · exact Bool.noConfusion hu
      · next hne => exact ⟨hne, hp, hb, hu⟩
  · have hne : d ≠ c := by omega
    rw [hused d hd, if_neg hne]
    exact h.kernel d hd hlt

theorem perm {out' : List ℕ} (h : Accounted beg v L out) (hp : out.Perm out') :
    Accounted beg v L out' :=
  ⟨h.onList, h.free_iff, fun c => by rw [← hp.mem_iff, h.out_iff], hp.nodup h.out_nodup, h.kernel⟩

/-- As many pages are free and in use together at any time. -/
theorem length_add {L' out' : List ℕ} (h : Accounted beg v L out) (h' : Accounted beg v' L' out') :
    L.length + out.length = L'.length + out'.length := by
  have hnodup {w : VirtualMemory} {F o : List ℕ} (h : Accounted beg w F o) : (F ++ o).Nodup := by
    refine h.onList.linked.nodup.append h.out_nodup fun c hc hc' => ?_
    have hfree := ((h.free_iff c).mp hc).2.2
    rw [((h.out_iff c).mp hc').2.2] at hfree
    exact Bool.noConfusion hfree
  have hmem {w : VirtualMemory} {F o : List ℕ} (h : Accounted beg w F o) (c : ℕ) :
      c ∈ F ++ o ↔ IsPage c ∧ beg ≤ c := by
    rw [List.mem_append, h.free_iff, h.out_iff]
    cases w.used c <;> simp
  rw [← List.length_append, ← List.length_append]
  apply List.Perm.length_eq
  rw [List.perm_ext_iff_of_nodup (hnodup h) (hnodup h')]
  intro c
  rw [hmem h, hmem h']

end Accounted

/-- Pages outside the list can be cleared. -/
theorem OnList.clear (h : OnList v L) (hc : IsPage c) (hn : c ∉ L) : OnList (v.clear c) L := by
  refine h.of_same fun i hi => ?_
  obtain ⟨d, hd, hle, hlt⟩ := hi
  have := hc.apart (h.page d hd) (fun he => hn (he ▸ hd))
  exact fill_same _ _ _ _ _ (by simp only [PGSIZE]; omega)

theorem OnList.bits (h : OnList v L) (hv : v' = { v with bit_map_ := v'.bit_map_ }) : OnList v' L := by
  rw [hv]
  exact ⟨h.linked, h.head, h.tail, h.size, h.identify, h.page⟩

theorem zeroPage_clear (v : VirtualMemory) (c : ℕ) : ZeroPage (v.clear c).mem c := by
  intro i hle hlt
  exact if_pos ⟨hle, hlt⟩

theorem ZeroPage.of_same (h : ZeroPage m c) (hs : Same m m' fun i => ¬ InPages L i) (hc : IsPage c)
    (hp : ∀ d ∈ L, IsPage d) (hn : c ∉ L) : ZeroPage m' c := by
  intro i hle hlt
  rw [hs i ?_, h i hle hlt]
  rintro ⟨d, hd, hdle, hdlt⟩
  have := hc.apart (hp d hd) (fun he => hn (he ▸ hd))
  simp only [PGSIZE] at hlt
  omega

/-- `Alloc` takes the first chunk and clears it. -/
theorem OnList.alloc (h : OnList v (c :: L)) :
    ∃ v', v.alloc = .ok (c, v') ∧ OnList v' L ∧
      (∀ d, IsPage d → v'.used d = if d = c then true else v.used d) ∧ ZeroPage v'.mem c ∧
      Same v.mem v'.mem fun i => ¬ InPages (c :: L) i := by
  have hc : IsPage c := h.page c (by simp)
  have hn : c ∉ L := (List.nodup_cons.mp h.linked.nodup).1
  obtain ⟨v₁, hpop, hl₁, hb₁, -, hm₁⟩ := h.pop
  obtain ⟨v₂, hup, hv₂, hused⟩ := updateBitMap_eq (v₁.clear c) hc .alloc
  refine ⟨v₂, ?_, (hl₁.clear hc hn).bits hv₂, fun d hd => ?_, ?_, ?_⟩
  · rw [VirtualMemory.alloc, hpop]
    simp only [hup]
    rfl
  · rw [hused d hd]
    simp only [VirtualMemory.used, VirtualMemory.clear, hb₁, decide_true]
  · rw [hv₂]
    exact zeroPage_clear v₁ c
  · rw [hv₂]
    intro i hi
    have hout : ¬ (c ≤ i ∧ i < c + 4096) := fun hr => hi ⟨c, by simp, hr⟩
    have hclear : (v₁.clear c).mem i = v₁.mem i :=
      fill_same _ _ _ _ _ (by simp only [PGSIZE]; omega)
    rw [hclear, hm₁ i]
    rintro ⟨d, hd, hr⟩
    exact hi ⟨d, List.mem_cons_of_mem c hd, hr⟩

namespace Accounted

variable {out : List ℕ}

/-- `Alloc` hands out a free page and clears it. -/
theorem alloc (h : Accounted beg v L out) (hne : v.size_ ≠ 0) :
    ∃ p v' L', v.alloc = .ok (p, v') ∧ Accounted beg v' L' (p :: out) ∧ ZeroPage v'.mem p := by
  cases L with
  | nil => exact absurd h.onList.size hne
  | cons c L =>
    obtain ⟨v', heq, hl, hused, hzero, -⟩ := h.onList.alloc
    exact ⟨c, v', L, heq, take (A := []) h hl hused, hzero⟩

/-- `FreePage` puts a page that was handed out on the list. -/
theorem freePage (h : Accounted beg v L out) (hp : p ∈ out) :
    ∃ v', v.freePage p = .ok v' ∧ Accounted beg v' (p :: L) (out.erase p) := by
  obtain ⟨hc, -, hset⟩ := (h.out_iff p).mp hp
  have hn : p ∉ L := by
    intro hm
    have := ((h.free_iff p).mp hm).2.2
    rw [hset] at this
    exact Bool.noConfusion this
  obtain ⟨v', hup, hv', hused⟩ := updateBitMap_eq (v.push p) hc .free
  refine ⟨v', ?_, h.give hp ((h.onList.push hc hn).bits hv') fun d hd => ?_⟩
  · rw [VirtualMemory.freePage, if_neg hc.ne_zero, hup]
  · rw [hused d hd]
    simp only [VirtualMemory.used, VirtualMemory.push_bit_map_, decide_false, reduceCtorEq]

/-- One round of the loop of `AllocContinuousPage`. -/
theorem takePage (h : Accounted beg v L out) (hc : c ∈ L) (hlen : 1 < L.length) :
    ∃ v₁ L', v.updateBitMap c .alloc = .ok v₁ ∧ L'.length + 1 = L.length ∧
      (∀ d, d ∈ L ↔ d = c ∨ d ∈ L') ∧ c ∉ L' ∧
      Accounted beg ((v₁.erase c).2.clear c) L' (c :: out) ∧
      Same v.mem ((v₁.erase c).2.clear c).mem fun i => ¬ InPages L i := by
  obtain ⟨A, B, rfl⟩ := List.append_of_mem hc
  have hcp : IsPage c := h.onList.page c hc
  obtain ⟨v₁, hup, hv₁, hused⟩ := updateBitMap_eq v hcp .alloc
  have hne : A ++ B ≠ [] := by
    intro he
    have : (A ++ B).length = 0 := by rw [he]; rfl
    simp only [List.length_append, List.length_cons] at this hlen
    omega
  have hn : c ∉ A ++ B := by
    have := h.onList.linked.nodup
    rw [List.nodup_middle] at this
    exact (List.nodup_cons.mp this).1
  have hmem : ∀ d, d ∈ A ++ c :: B ↔ d = c ∨ d ∈ A ++ B := by
    intro d
    simp only [List.mem_append, List.mem_cons]
    tauto
  obtain ⟨v₂, he, hl₂, hb₂, -, hm₂⟩ := (h.onList.bits hv₁).erase hne
  refine ⟨v₁, A ++ B, hup, by simp; omega, hmem, hn, ?_, ?_⟩
  · rw [he]
    refine h.take (hl₂.clear hcp hn) fun d hd => ?_
    have hu := hused d hd
    simp only [VirtualMemory.used, VirtualMemory.clear, hb₂] at hu ⊢
    simpa using hu
  · rw [he]
    have hmv : v₁.mem = v.mem := by rw [hv₁]
    intro i hi
    have hout : ¬ (c ≤ i ∧ i < c + 4096) := fun hr => hi ⟨c, hc, hr⟩
    have hclear : (v₂.clear c).mem i = v₂.mem i :=
      fill_same _ _ _ _ _ (by simp only [PGSIZE]; omega)
    rw [hclear, hm₂ i, hmv]
    rintro ⟨d, hd, hr⟩
    exact hi ⟨d, (hmem d).mpr (.inr hd), hr⟩

end Accounted

/-- There are lists of free pages. -/
theorem exists_onList (n : ℕ) (hn : n ≤ 1000) :
    ∃ v L, OnList v L ∧ L.length = n ∧ ∀ c ∈ L, c < 2147483648 + 4096 * n := by
  induction n with
  | zero =>
    exact ⟨⟨fun _ => 0, 0, true, 0, 0, 0, .ofFn fun _ => 0⟩, [],
      ⟨.nil, rfl, rfl, rfl, by simp, by simp⟩, rfl, by simp⟩
  | succ n ih =>
    obtain ⟨v, L, hl, hlen, hlt⟩ := ih (by omega)
    have hc : IsPage (2147483648 + 4096 * n) := ⟨by omega, by omega, by omega⟩
    refine ⟨_, _, hl.push hc fun hmem => absurd (hlt _ hmem) (by omega), by simp [hlen], ?_⟩
    intro c hmem
    rcases List.mem_cons.mp hmem with rfl | hmem
    · omega
    · have := hlt c hmem
      omega

/-- The pages with the numbers from `k` on. -/
def pagesFrom (k n : ℕ) : List ℕ := (List.range' k n).map fun k => k * PGSIZE + KERNEL_BASE

/-- The loop of `AllocContinuousPage` hands out free pages and clears them. -/
theorem Accounted.takePages {out : List ℕ} (h : Accounted beg v L out) (j : ℕ)
    (hlen : k < L.length) (hfree : ∀ c ∈ pagesFrom (n + j) k, c ∈ L) :
    ∃ v' L', v.takePages n j k = .ok v' ∧
      Accounted beg v' L' ((pagesFrom (n + j) k).reverse ++ out) ∧
      (∀ c ∈ pagesFrom (n + j) k, ZeroPage v'.mem c) ∧ Same v.mem v'.mem fun i => ¬ InPages L i := by
  induction k generalizing v L out j with
  | zero => exact ⟨v, L, rfl, h, by simp [pagesFrom], Same.refl _ _⟩
  | succ k ih =>
    have hpages : pagesFrom (n + j) (k + 1) =
        ((n + j) * PGSIZE + KERNEL_BASE) :: pagesFrom (n + (j + 1)) k := rfl
    rw [hpages] at hfree ⊢
    generalize hm : (n + j) * PGSIZE + KERNEL_BASE = c at hfree ⊢
    obtain ⟨hcL, hrest⟩ := List.forall_mem_cons.mp hfree
    obtain ⟨v₁, L₁, hup, hlen₁, hmem, hn, hacc, hsame⟩ := h.takePage hcL (by omega)
    have hne : ∀ d ∈ pagesFrom (n + (j + 1)) k, d ≠ c := by
      intro d hd
      simp only [pagesFrom, List.mem_map, List.mem_range'_1] at hd
      obtain ⟨x, hx, rfl⟩ := hd
      simp only [PGSIZE] at hm ⊢
      omega
    obtain ⟨v', L', htake, hacc', hzero, hsame'⟩ := ih hacc (j + 1) (by omega) fun d hd =>
      ((hmem d).mp (hrest d hd)).resolve_left (hne d hd)
    refine ⟨v', L', ?_, ?_, ?_, ?_⟩
    · rw [VirtualMemory.takePages, hm, hup]
      exact htake
    · rw [List.reverse_cons, List.append_assoc]
      exact hacc'
    · refine List.forall_mem_cons.mpr ⟨?_, hzero⟩
      exact (zeroPage_clear _ c).of_same hsame' (h.onList.page c hcL) hacc.onList.page hn
    · refine hsame.trans (hsame'.mono ?_)
      rintro i hi ⟨d, hd, hr⟩
      exact hi ⟨d, (hmem d).mpr (.inr hd), hr⟩

/-- `AllocContinuousPage` finds a window of free pages, or changes nothing. The pages that are in use stay
as they are. -/
theorem Accounted.allocContinuousPage_same {out : List ℕ} (h : Accounted beg v L out)
    (hbeg : KERNEL_BASE + 8 * PGSIZE ≤ beg) (hn : n = 1 ∨ n = 2) (hlt : n < v.size_) :
    v.allocContinuousPage n = .ok (0, v) ∨
      ∃ k v' L', v.allocContinuousPage n = .ok (k * PGSIZE + KERNEL_BASE, v') ∧
        Accounted beg v' L' (pagesFrom k n ++ out) ∧ (∀ c ∈ pagesFrom k n, ZeroPage v'.mem c) ∧
        Same v.mem v'.mem fun i => ¬ InPages L i := by
  have hfull : v.bit_map_.byte 0 = 0xff := by
    by_contra hne
    obtain ⟨k, hk, hbit⟩ := exists_testBit_false hne
    obtain ⟨hp, hi⟩ := isPage_of_lt (k := k) (by omega)
    have hlt' : k * PGSIZE + KERNEL_BASE < beg := by
      simp only [PGSIZE] at hbeg ⊢
      omega
    have hused := h.kernel _ hp hlt'
    rw [VirtualMemory.used, hi, bitAt, Nat.div_eq_of_lt hk, Nat.mod_eq_of_lt hk, hbit] at hused
    exact Bool.noConfusion hused
  obtain ⟨r, hr, hw⟩ := findWindow_eq v.bit_map_ hfull hn
  simp only [windowMask] at hr
  simp only [VirtualMemory.allocContinuousPage, if_neg (show ¬ n > 8 by omega), hr]
  cases r with
  | none =>
    left
    rfl
  | some w =>
    obtain ⟨b, i⟩ := w
    right
    obtain ⟨hb, hle, hbits⟩ := hw (b, i) rfl
    simp only at hb hle hbits
    have hfree : ∀ c ∈ pagesFrom (b * 8 + 8 - n - i + 0) n, c ∈ L := by
      intro c hc
      simp only [pagesFrom, List.mem_map, List.mem_range'_1] at hc
      obtain ⟨x, hx, rfl⟩ := hc
      obtain ⟨hp, hix⟩ := isPage_of_lt (k := x) (by omega)
      have hclear : v.used (x * PGSIZE + KERNEL_BASE) = false := by
        have := hbits (x - (b * 8 + 8 - n - i)) (by omega)
        rwa [show b * 8 + 8 - n - i + (x - (b * 8 + 8 - n - i)) = x by omega, ← hix] at this
      refine (h.free_iff _).mpr ⟨hp, ?_, hclear⟩
      by_contra hlt'
      rw [h.kernel _ hp (by omega)] at hclear
      exact Bool.noConfusion hclear
    obtain ⟨v', L', htake, hacc, hzero, hsame⟩ :=
      h.takePages 0 (by rw [← h.onList.size]; exact hlt) hfree
    refine ⟨b * 8 + 8 - n - i, v', L', ?_, hacc.perm ?_, hzero, hsame⟩
    · change (do let v ← v.takePages (b * 8 + 8 - n - i) 0 n; pure _) = _
      rw [htake]
      rfl
    · exact (List.reverse_perm _).append_right out

theorem Accounted.allocContinuousPage {out : List ℕ} (h : Accounted beg v L out)
    (hbeg : KERNEL_BASE + 8 * PGSIZE ≤ beg) (hn : n = 1 ∨ n = 2) (hlt : n < v.size_) :
    v.allocContinuousPage n = .ok (0, v) ∨
      ∃ k v' L', v.allocContinuousPage n = .ok (k * PGSIZE + KERNEL_BASE, v') ∧
        Accounted beg v' L' (pagesFrom k n ++ out) ∧ ∀ c ∈ pagesFrom k n, ZeroPage v'.mem c := by
  obtain hnone | ⟨k, v', L', halloc, hacc, hzero, -⟩ := h.allocContinuousPage_same hbeg hn hlt
  · exact .inl hnone
  · exact .inr ⟨k, v', L', halloc, hacc, hzero⟩

/-- The loop of `Init` over the free pages. -/
theorem OnList.pushFrom (h : OnList v L) (hi : i % 4096 = 0) (hbase : 2147483648 ≤ i)
    (hlt : ∀ c ∈ L, c < i) :
    ∃ L', OnList (v.pushFrom i) L' ∧ ∀ c, c ∈ L' ↔ c ∈ L ∨ IsPage c ∧ i ≤ c := by
  fun_induction VirtualMemory.pushFrom generalizing L with
  | case1 v i hend ih =>
    rw [MEMORY_END_eq] at hend
    have hp : IsPage i := ⟨hi, hbase, hend⟩
    have hn : i ∉ L := fun hm => absurd (hlt i hm) (by omega)
    have hsize : PGSIZE = 4096 := rfl
    obtain ⟨L', hL', hmem⟩ := ih (h.push hp hn) (by omega) (by omega) (by
      intro c hc
      rcases List.mem_cons.mp hc with rfl | hc
      · omega
      · have := hlt c hc
        omega)
    refine ⟨L', hL', fun c => ?_⟩
    rw [hmem c, List.mem_cons]
    constructor
    · rintro ((rfl | hc) | ⟨hc, hle⟩)
      · exact .inr ⟨hp, le_rfl⟩
      · exact .inl hc
      · exact .inr ⟨hc, by omega⟩
    · rintro (hc | ⟨hc, hle⟩)
      · exact .inl (.inr hc)
      · by_cases hci : c = i
        · exact .inl (.inl hci)
        · have := hc.aligned
          exact .inr ⟨hc, by omega⟩
  | case2 v i hend =>
    rw [MEMORY_END_eq] at hend
    refine ⟨L, h, fun c => ⟨.inl, ?_⟩⟩
    rintro (hc | ⟨hc, hle⟩)
    · exact hc
    · have := hc.lt
      omega

/-- The loop of `Init` over the pages of the kernel. -/
theorem markFrom_eq (v : VirtualMemory) (hi : i % 4096 = 0) (hbase : 2147483648 ≤ i)
    (hbeg : beg ≤ MEMORY_END) :
    ∃ v', v.markFrom beg i = .ok v' ∧ v' = { v with bit_map_ := v'.bit_map_ } ∧
      ∀ d, IsPage d → v'.used d = (v.used d || decide (i ≤ d ∧ d < beg)) := by
  rw [MEMORY_END_eq] at hbeg
  fun_induction VirtualMemory.markFrom with
  | case1 v i hlt ih =>
    have hp : IsPage i := ⟨hi, hbase, by omega⟩
    obtain ⟨v₁, hup, hv₁, hused₁⟩ := updateBitMap_eq v hp .alloc
    have hsize : PGSIZE = 4096 := rfl
    obtain ⟨v', hmark, hv', hused⟩ := ih v₁ (by omega) (by omega)
    refine ⟨v', ?_, ?_, fun d hd => ?_⟩
    · rw [hup, ok_bind, hmark]
    · rw [hv', hv₁]
    · have := hd.aligned
      rw [hused d hd, hused₁ d hd]
      by_cases hdi : d = i
      · simp [hdi, hlt]
      · have : (i + PGSIZE ≤ d ∧ d < beg) ↔ (i ≤ d ∧ d < beg) := by omega
        simp [hdi, this]
  | case2 v i hge =>
    refine ⟨v, rfl, rfl, fun d hd => ?_⟩
    have : ¬ (i ≤ d ∧ d < beg) := by omega
    simp [this]

/-- The members of `VirtualMemory` before `Init`. -/
structure Fresh (v : VirtualMemory) : Prop where
  has_init_ : v.has_init_ = false
  head_ : v.head_ = 0
  tail_ : v.tail_ = 0
  size_ : v.size_ = 0

/-- `Init` makes every page from `beg` on free. -/
theorem Fresh.init (h : Fresh v) (hbeg : KERNEL_BASE ≤ beg) (hend : beg ≤ MEMORY_END)
    (halign : beg % PGSIZE = 0) :
    ∃ v' L, v.init beg = .ok (true, v') ∧ Accounted beg v' L [] := by
  have hnil : OnList { v with has_init_ := true } [] :=
    ⟨.nil, by simp [h.head_, ptr], by simp [h.tail_, ptr], h.size_, by simp, by simp⟩
  obtain ⟨L, hL, hmem⟩ := hnil.pushFrom halign hbeg (by simp)
  obtain ⟨v', hmark, hv', hused⟩ := markFrom_eq
    { VirtualMemory.pushFrom { v with has_init_ := true } beg with bit_map_ := .ofFn fun _ => 0 }
    (i := KERNEL_BASE) rfl le_rfl hend
  have hclear : ∀ d, IsPage d → v'.used d = decide (d < beg) := by
    intro d hd
    have hbase : KERNEL_BASE ≤ d := hd.base
    have hz : bitAt (Buffer.ofFn (n := 4096) fun _ => 0).byte (pageIndex d) = false := by
      have := hd.pageIndex_lt
      rw [bitAt, Buffer.byte_ofFn (by omega)]
      simp
    rw [hused d hd, VirtualMemory.used, hz, Bool.false_or]
    simp [hbase]
  refine ⟨v', L, ?_, OnList.bits (v := { VirtualMemory.pushFrom _ beg with bit_map_ := _ })
    ⟨hL.linked, hL.head, hL.tail, hL.size, hL.identify, hL.page⟩ hv', ?_, ?_, List.nodup_nil, ?_⟩
  · simp only [VirtualMemory.init, h.has_init_, halign, ne_eq, not_true, if_false, hmark,
      Bool.false_eq_true]
    rfl
  · intro c
    rw [hmem c]
    constructor
    · rintro (hc | ⟨hc, hle⟩)
      · simp at hc
      · exact ⟨hc, hle, by simp [hclear c hc, hle]⟩
    · rintro ⟨hc, hle, -⟩
      exact .inr ⟨hc, hle⟩
  · intro c
    constructor
    · simp
    · rintro ⟨hc, hle, hu⟩
      rw [hclear c hc] at hu
      have := of_decide_eq_true hu
      omega
  · intro c hc hlt
    simp [hclear c hc, hlt]

/-- The allocator and the pages that were handed out and not freed since, the last one first. -/
structure Pages where
  v : VirtualMemory
  out : List ℕ

/-- The calls of the allocator, and writes to memory that is not free. -/
inductive Pages.Step (beg : ℕ) : Pages → Pages → Prop where
  | alloc {s p v'} (hne : s.v.size_ ≠ 0) (h : s.v.alloc = .ok (p, v')) : Step beg s ⟨v', p :: s.out⟩
  | freePage {s p v'} (hp : p ∈ s.out) (h : s.v.freePage p = .ok v') :
    Step beg s ⟨v', s.out.erase p⟩
  | allocContinuousPage {s n p v'} (hn : n = 1 ∨ n = 2) (hlt : n < s.v.size_)
    (h : s.v.allocContinuousPage n = .ok (p, v')) :
    Step beg s ⟨v', if p = 0 then s.out else (List.range n).map (p + · * PGSIZE) ++ s.out⟩
  | write {s m'} (h : Same s.v.mem m' fun i => beg ≤ i ∧ i < MEMORY_END ∧ ¬ InPages s.out i) :
    Step beg s ⟨{ s.v with mem := m' }, s.out⟩

/-- The allocator after `Init`. -/
def Pages.Initialised (beg : ℕ) (s : Pages) : Prop :=
  s.out = [] ∧ ∃ v, Fresh v ∧ v.init beg = .ok (true, s.v)

namespace Pages

variable {s t : Pages}

theorem pageAt_ne_zero (k : ℕ) : k * PGSIZE + KERNEL_BASE ≠ 0 := by
  have h : 0 < KERNEL_BASE := by decide
  generalize KERNEL_BASE = b at h
  omega

theorem range_map_eq (k n a b : ℕ) :
    (List.range n).map (k * a + b + · * a) = (List.range' k n).map fun k => k * a + b := by
  rw [List.range'_eq_map_range, List.map_map]
  refine List.map_congr_left fun j _ => ?_
  simp only [Function.comp]
  ring

theorem range_map_eq_pagesFrom (k n : ℕ) :
    (List.range n).map (k * PGSIZE + KERNEL_BASE + · * PGSIZE) = pagesFrom k n :=
  range_map_eq k n PGSIZE KERNEL_BASE

theorem Step.accounted (hbeg : KERNEL_BASE + 8 * PGSIZE ≤ beg) (h : Step beg s t)
    (hs : ∃ L, Accounted beg s.v L s.out) : ∃ L, Accounted beg t.v L t.out := by
  obtain ⟨L, hs⟩ := hs
  cases h with
  | alloc hne h =>
    obtain ⟨p, v', L', heq, hacc, -⟩ := hs.alloc hne
    rw [h] at heq
    cases heq
    exact ⟨L', hacc⟩
  | freePage hp h =>
    obtain ⟨v', heq, hacc⟩ := hs.freePage hp
    rw [h] at heq
    cases heq
    exact ⟨_, hacc⟩
  | @allocContinuousPage n p v' hn hlt h =>
    rcases hs.allocContinuousPage hbeg hn hlt with heq | ⟨k, v', L', heq, hacc, -⟩
    · obtain ⟨rfl, rfl⟩ := Prod.mk.inj (Except.ok.inj (h.symm.trans heq))
      exact ⟨L, hs⟩
    · obtain ⟨rfl, rfl⟩ := Prod.mk.inj (Except.ok.inj (h.symm.trans heq))
      refine ⟨L', ?_⟩
      dsimp only
      rw [if_neg (pageAt_ne_zero k), range_map_eq_pagesFrom]
      exact hacc
  | write h => exact ⟨L, hs.write h⟩

/-- In every state of a run the pages on the list are the free ones of the bit map. -/
theorem accounted (hbeg : KERNEL_BASE + 8 * PGSIZE ≤ beg) (hend : beg ≤ MEMORY_END)
    (h : Reachable (Initialised beg) (Step beg) s) : ∃ L, Accounted beg s.v L s.out := by
  refine @Reachable.invariant _ _ _ _ (fun s => ∃ L, Accounted beg s.v L s.out) h ?_
    fun s t hs ht => ht.accounted hbeg hs
  rintro s ⟨hout, v, hv, hinit⟩
  have halign : beg % PGSIZE = 0 := by
    by_contra hne
    simp [VirtualMemory.init, hv.has_init_, hne] at hinit
  obtain ⟨v', L, heq, hacc⟩ := hv.init (by omega) hend halign
  rw [hinit] at heq
  cases heq
  exact ⟨L, hout ▸ hacc⟩

/-- Over every run of the allocator `memory_list_` holds the pages whose bits are clear, each once,
and every call that its callers make succeeds: it hands out pages that hold zeros and that nobody
holds. -/
theorem free_list_matches_bit_map (hbeg : KERNEL_BASE + 8 * PGSIZE ≤ beg) (hend : beg ≤ MEMORY_END) :
    (∀ v, Fresh v → beg % PGSIZE = 0 → ∃ v', v.init beg = .ok (true, v')) ∧
      ∀ s, Reachable (Initialised beg) (Step beg) s →
        (∃ L, OnList s.v L ∧ (∀ c, c ∈ L ↔ IsPage c ∧ beg ≤ c ∧ s.v.used c = false) ∧
          ∀ c ∈ L, ∀ d ∈ L, next s.v.mem c = d ↔ previous s.v.mem d = c) ∧
        s.out.Nodup ∧ (∀ p ∈ s.out, IsPage p ∧ beg ≤ p ∧ s.v.used p = true) ∧
        (s.v.size_ ≠ 0 → ∃ p v', s.v.alloc = .ok (p, v') ∧ p ≠ 0 ∧ p ∉ s.out ∧ ZeroPage v'.mem p) ∧
        (∀ p ∈ s.out, ∃ v', s.v.freePage p = .ok v') ∧
        ∀ n, n = 1 ∨ n = 2 → n < s.v.size_ → s.v.allocContinuousPage n = .ok (0, s.v) ∨
          ∃ p v', s.v.allocContinuousPage n = .ok (p, v') ∧ p ≠ 0 ∧
            ((List.range n).map (p + · * PGSIZE) ++ s.out).Nodup ∧
            ∀ c ∈ (List.range n).map (p + · * PGSIZE), ZeroPage v'.mem c := by
  refine ⟨fun v hv halign => ?_, fun s hs => ?_⟩
  · obtain ⟨v', -, hinit, -⟩ := hv.init (le_trans (Nat.le_add_right _ _) hbeg) hend halign
    exact ⟨v', hinit⟩
  · obtain ⟨L, hacc⟩ := accounted hbeg hend hs
    refine ⟨⟨L, hacc.onList, hacc.free_iff, fun c hc d hd => ?_⟩, hacc.out_nodup,
      fun p hp => (hacc.out_iff p).mp hp, fun hne => ?_, fun p hp => ?_, fun n hn hlt => ?_⟩
    · have hlinked := hacc.onList.linked.next_eq_some_iff hc hd
      have hc0 := (hacc.onList.page c hc).ne_zero
      have hd0 := (hacc.onList.page d hd).ne_zero
      simpa [ptr_eq_some, hc0, hd0] using hlinked
    · obtain ⟨p, v', L', heq, hacc', hzero⟩ := hacc.alloc hne
      exact ⟨p, v', heq, ((hacc'.out_iff p).mp (by simp)).1.ne_zero,
        (List.nodup_cons.mp hacc'.out_nodup).1, hzero⟩
    · obtain ⟨v', heq, -⟩ := hacc.freePage hp
      exact ⟨v', heq⟩
    · rcases hacc.allocContinuousPage hbeg hn hlt with heq | ⟨k, v', L', heq, hacc', hzero⟩
      · exact .inl heq
      · refine .inr ⟨k * PGSIZE + KERNEL_BASE, v', heq, pageAt_ne_zero k, ?_, ?_⟩
        · rw [range_map_eq_pagesFrom]
          exact hacc'.out_nodup
        · rw [range_map_eq_pagesFrom]
          exact hzero

theorem free_list_matches_bit_map_eight :
    ∃ s, Reachable (Initialised (KERNEL_BASE + 8 * PGSIZE)) (Step (KERNEL_BASE + 8 * PGSIZE)) s ∧
      ∃ L, OnList s.v L ∧
        ∀ c, c ∈ L ↔ IsPage c ∧ KERNEL_BASE + 8 * PGSIZE ≤ c ∧ s.v.used c = false := by
  obtain ⟨hinit, hrun⟩ := @free_list_matches_bit_map (KERNEL_BASE + 8 * PGSIZE) le_rfl (by decide)
  have hfresh : Fresh ⟨fun _ => 0, 0, false, 0, 0, 0, .ofFn fun _ => 0⟩ := ⟨rfl, rfl, rfl, rfl⟩
  obtain ⟨v, hv⟩ := hinit _ hfresh (by decide)
  have hs : Reachable (Initialised (KERNEL_BASE + 8 * PGSIZE)) (Step (KERNEL_BASE + 8 * PGSIZE))
      ⟨v, []⟩ := .start ⟨rfl, _, hfresh, hv⟩
  obtain ⟨⟨L, hL, hmem, -⟩, -⟩ := hrun _ hs
  exact ⟨_, hs, L, hL, hmem⟩

end Pages

end OrangeOs.Kernel
