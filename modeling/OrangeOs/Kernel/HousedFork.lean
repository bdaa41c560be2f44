import OrangeOs.Kernel.Housed

/-! # New processes

`Init` gives a new process its own pages from the list, and `CopyFrom` copies the regions of another
process to it. No page of the other process changes hands.
-/

namespace OrangeOs.Kernel

open Memory VirtualMemory TaskMemory

variable {c j k : ℕ} {L L' : List ℕ} {v v' : VirtualMemory} {r : Bool} {t t' src : TaskMemory}

/-- A page that has been taken from the list. -/
theorem OnList.alloc_ok (h : OnList v L) (halloc : v.alloc = .ok (c, v')) :
    ∃ L', L = c :: L' ∧ c ≠ 0 ∧ OnList v' L' ∧ ZeroPage v'.mem c ∧
      Same v.mem v'.mem fun x => ¬ InPages L x := by
  cases L with
  | nil => exact absurd h.head_nil (alloc_ne_zero halloc).1
  | cons d L =>
    obtain ⟨w, heq, hw, -, hzero, hsame⟩ := h.alloc
    obtain ⟨rfl, rfl⟩ := Prod.mk.inj (Except.ok.inj (heq.symm.trans halloc))
    exact ⟨L, rfl, (alloc_ne_zero halloc).2, hw, hzero, hsame⟩

/-- The pages that `Init` has taken, the state before it writes the frame, and the pages that are
left. -/
structure InitPages (L : List ℕ) (v : VirtualMemory) (f root b k : ℕ) (w : VirtualMemory) (L' :
    List ℕ) :
    Prop where
  mem : f ∈ L ∧ b ∈ L ∧ k ∈ L
  space : AddressSpace w root (pageTree w.mem root) L'
  sub : ∀ c ∈ L', c ∈ L
  node : ∀ q c, pageTree w.mem root q = some c → c ∈ L
  frame : f ∉ L' ∧ ∀ q, pageTree w.mem root q ≠ some f
  kernel : k ∉ L' ∧ ∀ q, pageTree w.mem root q ≠ some k
  ne : f ≠ k
  stack : pageTree w.mem root (path userStackVa) = some b
  same : Same v.mem w.mem fun x => ¬ InPages L x

/-- The run of `Init` with a kernel stack. -/
theorem init_run (hl : OnList v L) (ht : t.console = .none) (hrun : t.init v true = .ok (r, t', v')) :
    r = true ∧ ∃ f root b k w L', InitPages L v f root b k w L' ∧
      t' = { t with
        frame := f, page_table := root, user_sp := b, kernel_sp := k, saved_sp := k + PGSIZE
        console := .device } ∧
      v' = { w with
        mem := setFrameSp (setFrameKernelSp w.mem f (k + PGSIZE)) f (userStackVa + PGSIZE) } := by
  rw [TaskMemory.init] at hrun
  obtain ⟨⟨f, v₁⟩, halloc₁, hrun⟩ := bind_eq_ok.mp hrun
  obtain ⟨L₁, rfl, hf, hl₁, -, hsame₁⟩ := hl.alloc_ok halloc₁
  simp only [if_neg hf] at hrun
  obtain ⟨⟨root, v₂⟩, halloc₂, hrun⟩ := bind_eq_ok.mp hrun
  obtain ⟨L₂, rfl, hroot, hl₂, hzero, hsame₂⟩ := hl₁.alloc_ok halloc₂
  simp only [if_neg hroot] at hrun
  obtain ⟨⟨b, v₃⟩, halloc₃, hrun⟩ := bind_eq_ok.mp hrun
  obtain ⟨L₃, rfl, hb, -, -, -⟩ := hl₂.alloc_ok halloc₃
  simp only [if_neg hb] at hrun
  obtain ⟨⟨mapped, v₄⟩, hmap, hrun⟩ := bind_eq_ok.mp hrun
  have hnodup := List.nodup_cons.mp hl.linked.nodup
  have hspace : AddressSpace v₂ root (rootOnly root) (b :: L₃) := addressSpace_iff.mpr
    (.of_zeroPage hl₂ hzero (hl₁.page root (by simp)) (List.nodup_cons.mp hnodup.2).1)
  have hconfined : Confined { c | c ∈ root :: b :: L₃ } v₂.mem root v₂ := by
    refine .of_space hspace (fun c hc => List.mem_cons_of_mem root hc) (fun q c hq => ?_)
        (Same.refl _ _)
    rw [(rootOnly_eq_some.mp hq).2]
    simp
  obtain ⟨h₄, hcase⟩ := hconfined.mapRound (show userStackVa % 4096 = 0 by decide)
    (show PTE.R ||| PTE.W ||| PTE.U < 1024 by decide) halloc₃ hmap
  rcases hcase with ⟨rfl, -, hstack, -⟩ | ⟨-, hmax, -⟩
  · simp only [not_true_eq_false, if_false, if_true] at hrun
    -- the page of the kernel stack comes last
    obtain ⟨⟨k, w⟩, halloc₄, hrun⟩ := bind_eq_ok.mp hrun
    rw [pure_bind] at hrun
    obtain ⟨L₄, hspace₄, hL₄⟩ := h₄.space
    obtain ⟨L₅, rfl, hk, -, -, -⟩ := hspace₄.list.alloc_ok halloc₄
    simp only [hk, and_false, if_false, ht, ne_eq, not_true_eq_false] at hrun
    obtain ⟨rfl, hrest⟩ := Prod.mk.inj (Except.ok.inj hrun)
    obtain ⟨rfl, rfl⟩ := Prod.mk.inj hrest
    obtain ⟨h₅, htree₅⟩ := h₄.alloc halloc₄
    have hspace₅ : AddressSpace w root (pageTree w.mem root) L₅ := by
      obtain ⟨w', heq, hw', -⟩ := hspace₄.alloc
      obtain rfl := (Prod.mk.inj (Except.ok.inj (heq.symm.trans halloc₄))).2
      exact hw'.pageTree_eq.symm ▸ hw'
    have hmem : ∀ c, c ∈ root :: b :: L₃ → c ∈ f :: root :: b :: L₃ := fun c hc =>
      List.mem_cons_of_mem f hc
    have hkF : k ∈ root :: b :: L₃ := hL₄ k (by simp)
    refine ⟨rfl, f, root, b, k, w, L₅, ⟨⟨by simp, by simp, hmem k hkF⟩, hspace₅, ?_, ?_, ⟨?_, ?_⟩,
      ⟨?_, ?_⟩, ?_, ?_, ?_⟩, rfl, rfl⟩
    · exact fun c hc => hmem c (hL₄ c (List.mem_cons_of_mem k hc))
    · exact fun q c hq => hmem c (h₅.node q c hq)
    · exact fun hin => hnodup.1 (hL₄ f (List.mem_cons_of_mem k hin))
    · exact fun q hq => hnodup.1 (h₅.node q f hq)
    · exact (List.nodup_cons.mp hspace₄.list.linked.nodup).1
    · rw [htree₅]
      exact fun q hq => hspace₄.fresh q k hq (by simp)
    · rintro rfl
      exact hnodup.1 hkF
    · rw [htree₅, hstack]
    · refine (hsame₁.trans (hsame₂.mono ?_)).trans (h₅.same.mono ?_)
      · exact fun x hx hin => hx (inPages_mono hmem hin)
      · rintro x hx ⟨c, hc, hr⟩
        exact hx ⟨c, hmem c hc, hr⟩
  · exact absurd hmax (by decide)

/-- A process has been made of free pages. -/
structure Started (L : List ℕ) (v : VirtualMemory) (t : TaskMemory) (v' : VirtualMemory) (L' : List ℕ) :
    Prop where
  housed : t.Housed v' L'
  sub : ∀ c ∈ L', c ∈ L
  pages : ∀ c ∈ t.pages v'.mem, c ∈ L
  user_sp : t.user_sp ∈ L ∧ t.user_sp ∉ L' ∧ t.user_sp ≠ t.frame ∧
    ∀ q, pageTree v'.mem t.page_table q = some t.user_sp → q.length = 3
  same : Same v.mem v'.mem fun x => ¬ InPages L x

/-- `Init` of a slot that is not used, with a kernel stack. -/
theorem init_started (hl : OnList v L) (ht : t.console = .none) (hsize : t.used_address_size = 0)
    (hrun : t.init v true = .ok (r, t', v')) : r = true ∧ ∃ L', Started L v t' v' L' := by
  obtain ⟨hr, f, root, b, k, w, L', h, rfl, rfl⟩ := init_run hl ht hrun
  obtain ⟨hfL, hbL, hkL⟩ := h.mem
  have hfpage := hl.page f hfL
  have hframe := setFrame_same w.mem f (k + PGSIZE) (userStackVa + PGSIZE)
  obtain ⟨m, hm⟩ : ∃ m, m = setFrameSp (setFrameKernelSp w.mem f (k + PGSIZE))
      f (userStackVa + PGSIZE) :=
    ⟨_, rfl⟩
  rw [← hm] at hframe ⊢
  have hspace := h.space.of_page hfpage h.frame.1 (fun q _ => h.frame.2 q) hframe
  have htree : pageTree m root = pageTree w.mem root := hspace.pageTree_eq
  refine ⟨hr, L', ⟨?_, ?_, ?_, ?_, .of_zero hsize⟩, h.sub, ?_, ⟨hbL, ?_, ?_, ?_⟩, ?_⟩
  · exact htree.symm ▸ hspace
  · exact ⟨hfpage, h.frame.1, htree.symm ▸ h.frame.2⟩
  · exact ⟨hl.page k hkL, h.kernel.1, htree.symm ▸ h.kernel.2⟩
  · exact h.ne
  · rintro c (⟨q, hq⟩ | rfl | rfl)
    · exact h.node q c (htree ▸ hq)
    · exact hfL
    · exact hkL
  · exact h.space.fresh _ b h.stack
  · show b ≠ f
    exact fun he => h.frame.2 _ (he ▸ h.stack)
  · intro q hq
    have hq' : pageTree w.mem root q = some b := htree ▸ hq
    rw [h.space.inj q _ b hq' h.stack]
    exact length_indices userStackVa 2 3
  · refine h.same.trans (hframe.mono fun x hx => ?_)
    by_contra hin
    exact hx ⟨f, hfL, by omega, by omega⟩

/-! ## `CopyFrom` -/

/-- The pages of the parent stay apart from the free ones. -/
theorem TaskMemory.Housed.source (h : t.Housed v L) :
    Source v t.page_table (pageTree v.mem t.page_table) L :=
  ⟨h.space.isTree, h.space.page, h.space.fresh, h.space.list.page⟩

/-- A copy has its own pages. -/
theorem Started.copyMemoryOf {w : VirtualMemory} (hl : OnList v L) (h : Started L v t v' L')
    (hsrc : src.Housed v L) (hrun : t.copyMemoryOf src v' = .ok (r, t', w)) :
    r = true ∧ ∃ L₂, UsesOnly { c | c ∈ L } v t' w L₂ := by
  have hT : ∀ q c, pageTree v'.mem t.page_table q = some c → c ∈ L := fun q c hq =>
      h.pages c (.inl ⟨q, hq⟩)
  rw [TaskMemory.copyMemoryOf] at hrun
  obtain ⟨⟨copied, v₂⟩, hcopy, hrun⟩ := bind_eq_ok.mp hrun
  obtain ⟨rfl, L₂, hgrowth, hmapped⟩ := copyRegions_growth hsrc.source h.housed.space h.same h.sub hT
    hsrc.regions rfl (Nat.zero_add _) hcopy
  have hsize := hsrc.regions.size_le
  simp only [not_true_eq_false, if_false, if_neg (show ¬ src.used_address_size > 16 by omega)] at hrun
  obtain ⟨rfl, hrest⟩ := Prod.mk.inj (Except.ok.inj hrun)
  obtain ⟨ht', hw⟩ := Prod.mk.inj hrest
  obtain rfl : t.inherit src = t' := ht'
  obtain rfl : { v₂ with mem := t.copyRest src v₂.mem } = w := hw
  -- the stack page and the frame are not tables
  have hframe : t.frame ∉ L₂ ∧ ∀ q, pageTree v₂.mem t.page_table q ≠ some t.frame :=
    ⟨fun hin => h.housed.frame.2.1 (hgrowth.sub _ hin), fun q hq =>
      (hgrowth.node q _ hq).elim h.housed.frame.2.1 (h.housed.frame.2.2 q)⟩
  have hkernel : t.kernel_sp ∉ L₂ ∧ ∀ q, pageTree v₂.mem t.page_table q ≠ some t.kernel_sp :=
    ⟨fun hin => h.housed.kernel_sp.2.1 (hgrowth.sub _ hin), fun q hq =>
      (hgrowth.node q _ hq).elim h.housed.kernel_sp.2.1 (h.housed.kernel_sp.2.2 q)⟩
  have hframeL : t.frame ∈ L := h.pages _ (.inr (.inl rfl))
  obtain ⟨hspL, hspL', -, hsp⟩ := h.user_sp
  have haddr : ∀ i : Fin 16, i < src.used_address_size →
      (t.inherit src).used_address i = src.used_address i := fun i hi => if_pos hi
  have hrest' := copyRest_same t src v₂.mem
  have hspace := hgrowth.space.of_same (hrest'.mono fun x hx => ⟨?_, ?_⟩)
  · have htree : pageTree (t.copyRest src v₂.mem) t.page_table = pageTree v₂.mem t.page_table :=
      hspace.pageTree_eq
    have hmem : ∀ c ∈ (t.inherit src).pages (t.copyRest src v₂.mem), c ∈ L := by
      rintro c (⟨q, hq⟩ | rfl | rfl)
      · exact hgrowth.node_mem h.sub hT (show pageTree v₂.mem t.page_table q = some c from htree ▸ hq)
      · exact hframeL
      · exact h.pages _ (.inr (.inr rfl))
    refine ⟨rfl, L₂, hspace.list, fun c hc => h.sub c (hgrowth.sub c hc), ?_, fun _ => ⟨?_, hmem⟩,
      fun hnot => absurd h.housed.space.root_page.ne_zero hnot⟩
    · refine (h.same.mono ?_).trans ((hgrowth.same_inPages h.sub hT).mono ?_ |>.trans (hrest'.mono ?_))
      · exact fun x hx hin => hx hin
      · exact fun x hx hin => hx hin
      · intro x hx
        refine ⟨?_, ?_⟩
        · by_contra hin
          exact hx ⟨t.user_sp, hspL, by omega, by omega⟩
        · by_contra hin
          exact hx ⟨t.frame, hframeL, by omega, by omega⟩
    · refine ⟨htree.symm ▸ hspace, ⟨h.housed.frame.1, hframe.1, ?_⟩, ⟨h.housed.kernel_sp.1,
          hkernel.1, ?_⟩,
        h.housed.frame_ne, ⟨hsize, fun i hi => ?_, fun i hi x hx => ?_⟩⟩
      · exact fun q hq => hframe.2 q (htree ▸ hq)
      · exact fun q hq => hkernel.2 q (htree ▸ hq)
      · rw [haddr i hi]
        exact hsrc.regions.le i hi
      · rw [Region, haddr i hi] at hx
        show pageTree (t.copyRest src v₂.mem) t.page_table (path x) ≠ none
        rw [htree]
        exact hmapped i (Nat.zero_le _) (by rw [Nat.zero_add]; exact hi) x hx
  · refine hgrowth.space.apart (hl.page _ hspL) (fun hin => hspL' (hgrowth.sub _ hin))
        (fun q hlt hq => ?_) hx
    have := (hgrowth.node q _ hq).elim (fun hin => absurd hin hspL') (hsp q)
    omega
  · exact hgrowth.space.apart h.housed.frame.1 hframe.1 (fun q _ => hframe.2 q) hx

end OrangeOs.Kernel
