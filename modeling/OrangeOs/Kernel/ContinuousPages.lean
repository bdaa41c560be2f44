import OrangeOs.Kernel.PageAllocator

/-! # Runs of pages

`AllocContinuousPage` takes the last window that passes its test. The window has a page in use when
the test, which of the pages in the lower byte looks at the first only, misses one.
-/

namespace OrangeOs.Kernel

open VirtualMemory

variable {c j k n x : ℕ} {v : VirtualMemory}

/-- The bit of the page with number `k`. -/
def VirtualMemory.bit (v : VirtualMemory) (k : ℕ) : Bool := bitAt v.bit_map_.byte k

theorem used_page (v : VirtualMemory) (hk : k < 32768) :
    v.used (k * PGSIZE + KERNEL_BASE) = v.bit k := by
  rw [VirtualMemory.used, (isPage_of_lt hk).2, VirtualMemory.bit]

theorem eraseNext_bit_map_ {w : VirtualMemory} (h : v.eraseNext c = some w) :
    w.bit_map_ = v.bit_map_ := by
  unfold VirtualMemory.eraseNext at h
  split_ifs at h
  all_goals
    obtain rfl := Option.some.inj h
    rfl

theorem erasePrevious_bit_map_ {w : VirtualMemory} (h : v.erasePrevious c = some w) :
    w.bit_map_ = v.bit_map_ := by
  unfold VirtualMemory.erasePrevious at h
  split_ifs at h
  all_goals
    obtain rfl := Option.some.inj h
    rfl

theorem erase_bit_map_ (v : VirtualMemory) (c : ℕ) : (v.erase c).2.bit_map_ = v.bit_map_ := by
  unfold VirtualMemory.erase
  split
  · rfl
  · split
    · rfl
    · next w hw =>
      split
      · exact eraseNext_bit_map_ hw
      · next w' hw' => exact (erasePrevious_bit_map_ hw').trans (eraseNext_bit_map_ hw)

/-- The loop over the pages of the window sets their bits, whatever the list of free pages is. -/
theorem takePages_bits (v : VirtualMemory) (n j : ℕ) (hk : n + j + k ≤ 32768) :
    ∃ v', v.takePages n j k = .ok v' ∧
      ∀ x < 32768, v'.bit x = (v.bit x || decide (n + j ≤ x ∧ x < n + j + k)) := by
  induction k generalizing v j with
  | zero =>
    refine ⟨v, rfl, fun x _ => ?_⟩
    rw [decide_eq_false (by omega), Bool.or_false]
  | succ k ih =>
    have hlt : n + j < 32768 := by omega
    obtain ⟨v₁, hup, -, hused⟩ := updateBitMap_eq v (isPage_of_lt hlt).1 .alloc
    obtain ⟨v', htake, hbits⟩ :=
      ih ((v₁.erase _).2.clear ((n + j) * PGSIZE + KERNEL_BASE)) (j + 1) (by omega)
    refine ⟨v', ?_, fun x hx => ?_⟩
    · rw [VirtualMemory.takePages, hup]
      exact htake
    · have hbit : v₁.bit x = (v.bit x || decide (x = n + j)) := by
        have hxu := hused _ (isPage_of_lt hx).1
        rw [used_page v₁ hx, used_page v hx] at hxu
        have hinj := (isPage_of_lt hx).1.pageIndex_inj (isPage_of_lt hlt).1
        rw [(isPage_of_lt hx).2, (isPage_of_lt hlt).2] at hinj
        rw [hxu]
        by_cases he : x = n + j
        · rw [if_pos (hinj.mp he), decide_eq_true he, Bool.or_true]
          rfl
        · rw [if_neg fun h => he (hinj.mpr h), decide_eq_false he, Bool.or_false]
      have hsame : ((v₁.erase ((n + j) * PGSIZE + KERNEL_BASE)).2.clear
          ((n + j) * PGSIZE + KERNEL_BASE)).bit x = v₁.bit x := by
        rw [VirtualMemory.bit, VirtualMemory.clear, erase_bit_map_, VirtualMemory.bit]
      rw [hbits x hx, hsame, hbit, Bool.or_assoc, ← Bool.decide_or]
      congr 2
      apply propext
      omega

/-- What `AllocContinuousPage` does to the bit map: it takes the last window that passes the test. -/
theorem allocContinuousPage_spec (hfull : v.bit_map_.byte 0 = 0xff) (hn : 1 ≤ n) (hn' : n ≤ 8) :
    (∃ v', v.allocContinuousPage n = .ok (0, v') ∧ ∀ t < 32768, ¬ Passes v.bit_map_.byte n t) ∨
      ∃ t v', v.allocContinuousPage n = .ok ((t + 1 - n) * PGSIZE + KERNEL_BASE, v') ∧
      t < 32768 ∧ n ≤ t + 1 ∧
        Passes v.bit_map_.byte n t ∧ (∀ t', t < t' → t' < 32768 → ¬ Passes v.bit_map_.byte n t') ∧
        ∀ x < 32768, v'.bit x = (v.bit x || decide (t + 1 - n ≤ x ∧ x ≤ t)) := by
  obtain ⟨r, hr, hlt, hlast⟩ := findWindow_spec hfull hn hn' 4096
  simp only [windowMask] at hr
  simp only [VirtualMemory.allocContinuousPage, if_neg (show ¬ n > 8 by omega), hr]
  cases r with
  | none => exact .inl ⟨v, rfl, fun t ht => hlast.none rfl t (Nat.zero_le t) ht⟩
  | some w =>
    obtain ⟨b, i⟩ := w
    obtain ⟨hb, hi⟩ := hlt _ rfl
    obtain ⟨-, ht, hpass, hmax⟩ := hlast.some (b * 8 + 7 - i) rfl
    have hstart := hpass.start_le hfull hn hn'
    dsimp only at hb hi
    have hindex : b * 8 + 8 - n - i = b * 8 + 7 - i + 1 - n := by omega
    obtain ⟨v', htake, hbits⟩ := takePages_bits v (b * 8 + 7 - i + 1 - n) 0 (k := n) (by omega)
    refine .inr ⟨b * 8 + 7 - i, v', ?_, by omega, hstart, hpass, hmax, fun x hx => ?_⟩
    · change (do let v ← v.takePages (b * 8 + 8 - n - i) 0 n; pure _) = _
      rw [hindex, htake]
      rfl
    · rw [hbits x hx]
      congr 2
      apply propext
      omega

/-- A run of free pages passes the test. -/
theorem passes_of_run (hn : 1 ≤ n) (hfree : ∀ j < n, v.bit (k + j) = false) :
    Passes v.bit_map_.byte n (k + n - 1) := by
  refine RunFree.passes (fun x hx hxn => ?_) (by omega)
  have := hfree (x - k) (by omega)
  rwa [VirtualMemory.bit, show k + (x - k) = x by omega] at this

end OrangeOs.Kernel
