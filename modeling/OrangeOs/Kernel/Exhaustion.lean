import OrangeOs.Kernel.PageTable

/-! # The last page

`Alloc` clears the page that `Pop` returns and sets its bit before it returns. `Pop` of an empty
list returns the null pointer, and neither step tests for it: the bit of page 0 is outside
`bit_map_`. So `Alloc` keeps its word exactly while a page is free.
-/

namespace OrangeOs.Kernel

variable {v : VirtualMemory} {L out : List ℕ} {beg root_page va_beg va_end privilege : ℕ}

namespace VirtualMemory

/-- `Alloc` hands out a page of the list, or returns the null pointer with nothing changed; the index of
the bit that it sets is inside `bit_map_`. -/
def Reports (v : VirtualMemory) (L : List ℕ) : Prop :=
  ∃ p v', v.alloc = .ok (p, v') ∧ pageIndex v.pop.1 / 8 < 4096 ∧ (p ∈ L ∧ p ≠ 0 ∨ p = 0 ∧ v' = v)

/-- The bit of the null pointer is outside the array. -/
theorem updateBitMap_zero (v : VirtualMemory) (action : BitMapAction) :
    v.updateBitMap 0 action = .error .outOfBounds := by
  have hindex : ¬ pageIndex 0 / 8 < 4096 := by decide
  simp only [updateBitMap, if_neg hindex]

theorem pop_of_head_eq_zero (h : v.head_ = 0) : v.pop = (0, v) := by
  rw [pop, if_pos h]

theorem alloc_of_head_eq_zero (h : v.head_ = 0) : v.alloc = .error .outOfBounds := by
  unfold alloc
  rw [pop_of_head_eq_zero h]
  dsimp only
  rw [updateBitMap_zero]
  rfl

theorem not_reports_of_head_eq_zero (h : v.head_ = 0) : ¬ v.Reports L := by
  rintro ⟨p, v', halloc, -⟩
  rw [alloc_of_head_eq_zero h] at halloc
  cases halloc

/-- `MapMemory` faults when it needs a page and there is none. -/
theorem mapMemory_of_head_eq_zero (h : v.head_ = 0) (hlt : addrCastDown va_beg < addrCastUp va_end) :
    v.mapMemory root_page va_beg va_end privilege = .error .outOfBounds := by
  rw [mapMemory, mapFrom, dif_pos hlt, alloc_of_head_eq_zero h]
  rfl

end VirtualMemory

/-- While a page is free `Alloc` hands out the first one. -/
theorem OnList.reports (h : OnList v L) (hne : L ≠ []) : v.Reports L := by
  cases L with
  | nil => exact absurd rfl hne
  | cons c B =>
    have hc : IsPage c := h.page c (List.mem_cons_self ..)
    obtain ⟨v₀, hpop, -⟩ := h.pop
    obtain ⟨v', halloc, -⟩ := h.alloc
    refine ⟨c, v', halloc, ?_, .inl ⟨List.mem_cons_self .., hc.ne_zero⟩⟩
    have hindex := hc.pageIndex_lt
    rw [hpop]
    dsimp only
    omega

theorem OnList.reports_iff (h : OnList v L) : v.Reports L ↔ L ≠ [] := by
  constructor
  · rintro hr rfl
    exact VirtualMemory.not_reports_of_head_eq_zero h.head_nil hr
  · exact h.reports

namespace Pages

/-- In every run `Alloc` reports what it does exactly when a page is free; without one `MapMemory`, which
tests what `Alloc` returns, faults as well. -/
theorem alloc_reports (hbeg : KERNEL_BASE + 8 * PGSIZE ≤ beg) (hend : beg ≤ MEMORY_END) :
    ∀ s, Reachable (Initialised beg) (Step beg) s → ∃ L, OnList s.v L ∧ (s.v.Reports L ↔ L ≠ []) ∧
      (L = [] → ∀ root_page va_beg va_end privilege, addrCastDown va_beg < addrCastUp va_end →
        s.v.mapMemory root_page va_beg va_end privilege = .error .outOfBounds) := by
  intro s hs
  obtain ⟨L, hacc⟩ := accounted hbeg hend hs
  refine ⟨L, hacc.onList, hacc.onList.reports_iff, ?_⟩
  rintro rfl root_page va_beg va_end privilege hlt
  exact VirtualMemory.mapMemory_of_head_eq_zero hacc.onList.head_nil hlt

/-- The allocator after `Init` with eight pages of kernel. -/
theorem exists_initialised : ∃ s, Initialised (KERNEL_BASE + 8 * PGSIZE) s := by
  have hfresh : Fresh ⟨fun _ => 0, 0, false, 0, 0, 0, .ofFn fun _ => 0⟩ := ⟨rfl, rfl, rfl, rfl⟩
  obtain ⟨v, -, hv, -⟩ :=
    @Fresh.init (KERNEL_BASE + 8 * PGSIZE) _ hfresh (by decide) (by decide) (by decide)
  exact ⟨⟨v, []⟩, rfl, _, hfresh, hv⟩

theorem alloc_reports_eight :
    ∃ s, Reachable (Initialised (KERNEL_BASE + 8 * PGSIZE)) (Step (KERNEL_BASE + 8 * PGSIZE)) s ∧
      ∃ L, OnList s.v L ∧ (s.v.Reports L ↔ L ≠ []) := by
  obtain ⟨s, hs⟩ := exists_initialised
  obtain ⟨L, hL, hiff, -⟩ := @alloc_reports (KERNEL_BASE + 8 * PGSIZE) le_rfl (by decide) s (.start hs)
  exact ⟨s, .start hs, L, hL, hiff⟩

/-- Calls of `Alloc` use up the free pages. -/
theorem reaches_exhaustion {s : Pages} (hs : Reachable (Initialised beg) (Step beg) s)
    (hacc : Accounted beg s.v L s.out) :
    ∃ t, Reachable (Initialised beg) (Step beg) t ∧ OnList t.v [] := by
  obtain ⟨n, hn⟩ : ∃ n, n = L.length := ⟨_, rfl⟩
  induction n generalizing s L with
  | zero =>
    obtain rfl := List.eq_nil_of_length_eq_zero hn.symm
    exact ⟨s, hs, hacc.onList⟩
  | succ n ih =>
    have hne : s.v.size_ ≠ 0 := by
      rw [hacc.onList.size, ← hn]
      exact Nat.succ_ne_zero n
    obtain ⟨p, v', L', halloc, hacc', -⟩ := hacc.alloc hne
    have hstep : Step beg s ⟨v', p :: s.out⟩ := .alloc hne halloc
    refine ih (hs.step hstep) hacc' ?_
    cases L with
    | nil => exact absurd hn (Nat.succ_ne_zero n)
    | cons c B =>
      obtain ⟨v₁, halloc₁, hl₁, -⟩ := hacc.onList.alloc
      obtain ⟨rfl, rfl⟩ := Prod.mk.inj (Except.ok.inj (halloc.symm.trans halloc₁))
      rw [hacc'.onList.unique hl₁]
      exact Nat.succ.inj hn

/-- A run in which every page has been handed out ends in a state where `Alloc` faults. -/
theorem alloc_faults :
    ¬ ∀ s, Reachable (Initialised (KERNEL_BASE + 8 * PGSIZE)) (Step (KERNEL_BASE + 8 * PGSIZE)) s →
      ∀ L, OnList s.v L → s.v.Reports L := by
  intro hall
  obtain ⟨s, hs⟩ := exists_initialised
  obtain ⟨L, hacc⟩ := accounted le_rfl (by decide) (.start hs)
  obtain ⟨t, ht, hnil⟩ := reaches_exhaustion (.start hs) hacc
  exact VirtualMemory.not_reports_of_head_eq_zero hnil.head_nil (hall t ht [] hnil)

end Pages

end OrangeOs.Kernel
