import OrangeOs.Kernel.Growth
import OrangeOs.Kernel.RegionTable

/-! # The pages of a process

A process has the tables and the pages of its page table, its frame page and its kernel stack page.
Each system call that changes memory does it for one process, which may use its own pages and those
that are free; it leaves a process that has its own pages again.
-/

namespace OrangeOs.Kernel

open Memory VirtualMemory TaskMemory

variable {F : Set ℕ} {m m' : Memory} {a c n : ℕ} {L L' : List ℕ}
  {v v' : VirtualMemory} {t t' : TaskMemory}

/-! ## One process -/

namespace TaskMemory

/-- The slot has a process with memory. -/
def Live (t : TaskMemory) : Prop := t.page_table ≠ 0

/-- The pages of a process. -/
def pages (t : TaskMemory) (m : Memory) : Set ℕ :=
  { c | (∃ q, pageTree m t.page_table q = some c) ∨ c = t.frame ∨ c = t.kernel_sp }

/-- A process has its own pages, and its regions are mapped. -/
structure Housed (t : TaskMemory) (v : VirtualMemory) (L : List ℕ) : Prop where
  space : AddressSpace v t.page_table (pageTree v.mem t.page_table) L
  frame : IsPage t.frame ∧ t.frame ∉ L ∧ ∀ q, pageTree v.mem t.page_table q ≠ some t.frame
  kernel_sp : IsPage t.kernel_sp ∧ t.kernel_sp ∉ L ∧
    ∀ q, pageTree v.mem t.page_table q ≠ some t.kernel_sp
  frame_ne : t.frame ≠ t.kernel_sp
  regions : t.RegionsMapped v.mem

namespace Housed

theorem isPage (h : t.Housed v L) (hc : c ∈ t.pages v.mem) : IsPage c := by
  rcases hc with ⟨q, hq⟩ | rfl | rfl
  · exact h.space.page q c hq
  · exact h.frame.1
  · exact h.kernel_sp.1

theorem not_free (h : t.Housed v L) (hc : c ∈ t.pages v.mem) : c ∉ L := by
  rcases hc with ⟨q, hq⟩ | rfl | rfl
  · exact h.space.fresh q c hq
  · exact h.frame.2.1
  · exact h.kernel_sp.2.1

/-- Writes elsewhere leave the page table alone. -/
theorem tree_eq (h : t.Housed v L) (hm : ∀ c ∈ t.pages v.mem, ∀ x, c ≤ x → x < c + 4096 →
    m' x = v.mem x) :
    pageTree m' t.page_table = pageTree v.mem t.page_table :=
  (h.space.isTree.congr fun q c i _ hq =>
    child_congr (fun x hx hx' => hm c (.inl ⟨q, hq⟩) x hx hx') i).eq_tree.symm

/-- Whatever happens to other pages, the process keeps its own. -/
theorem of_same (h : t.Housed v L)
    (hm : ∀ c ∈ t.pages v.mem, ∀ x, c ≤ x → x < c + 4096 → v'.mem x = v.mem x) (hl : OnList v' L')
    (hL : ∀ c ∈ L', c ∉ t.pages v.mem) : t.Housed v' L' := by
  have htree := h.tree_eq hm
  refine ⟨⟨hl, ?_, ?_, ?_, ?_⟩, ⟨h.frame.1, fun hin => hL _ hin (.inr (.inl rfl)), ?_⟩,
    ⟨h.kernel_sp.1, fun hin => hL _ hin (.inr (.inr rfl)), ?_⟩, h.frame_ne, ?_⟩
  · exact isTree_tree _ _ _
  · rw [htree]
    exact h.space.page
  · rw [htree]
    exact h.space.inj
  · rw [htree]
    exact fun q c hq hin => hL c hin (.inl ⟨q, hq⟩)
  · rw [htree]
    exact h.frame.2.2
  · rw [htree]
    exact h.kernel_sp.2.2
  · exact h.regions.mono fun i _ x _ hx => by rwa [htree]

end Housed

end TaskMemory

/-- The pages that a process can reach: its own and those that are free. -/
def reachOf (t : TaskMemory) (m : Memory) (L : List ℕ) : Set ℕ := { c | t.Live ∧ c ∈ t.pages m ∨ c ∈ L }

/-- What a call for one process leaves behind: it has used pages of `F` only. -/
structure UsesOnly (F : Set ℕ) (v : VirtualMemory) (t : TaskMemory) (v' : VirtualMemory) (L : List ℕ) :
    Prop where
  list : OnList v' L
  free : ∀ c ∈ L, c ∈ F
  same : Same v.mem v'.mem fun x => ¬ InSet F x
  housed : t.Live → t.Housed v' L ∧ ∀ c ∈ t.pages v'.mem, c ∈ F
  idle : ¬ t.Live → t.console = .none ∧ t.used_address_size = 0

theorem UsesOnly.mono {F' : Set ℕ} (h : UsesOnly F v t v' L) (hF : ∀ c ∈ F, c ∈ F') :
    UsesOnly F' v t v' L where
  list := h.list
  free c hc := hF c (h.free c hc)
  same := h.same.mono fun _ hx ⟨c, hc, hr⟩ => hx ⟨c, hF c hc, hr⟩
  housed hlive := ⟨(h.housed hlive).1, fun c hc => hF c ((h.housed hlive).2 c hc)⟩
  idle := h.idle

/-! ## The calls -/

/-- Nothing has happened but in free pages. -/
theorem TaskMemory.Housed.keeps (h : t.Housed v L) (hl : OnList v' L') (hL : ∀ c ∈ L', c ∈ L)
    (hm : Same v.mem v'.mem fun x => ¬ InPages L x) : t.Housed v' L' ∧
        t.pages v'.mem = t.pages v.mem := by
  have hown : ∀ c ∈ t.pages v.mem, ∀ x, c ≤ x → x < c + 4096 → v'.mem x = v.mem x := by
    intro c hc x hx hx'
    refine hm x ?_
    rintro ⟨d, hd, hr⟩
    have := (h.isPage hc).apart (h.space.list.page d hd) fun he => h.not_free hc (he ▸ hd)
    omega
  refine ⟨h.of_same hown hl fun c hc hin => h.not_free hin (hL c hc), ?_⟩
  rw [pages, pages, h.tree_eq hown]

theorem TaskMemory.Housed.usesOnly (h : t.Housed v L) (hl : OnList v' L') (hL : ∀ c ∈ L', c ∈ L)
    (hm : Same v.mem v'.mem fun x => ¬ InPages L x) : UsesOnly (reachOf t v.mem L) v t v' L' := by
  obtain ⟨hhoused, hpages⟩ := h.keeps hl hL hm
  have hlive : t.Live := h.space.root_page.ne_zero
  refine ⟨hl, fun c hc => .inr (hL c hc), hm.mono fun x hx hin => hx (inSet_of_inPages (fun c hc =>
      .inr hc) hin),
    fun _ => ⟨hhoused, fun c hc => .inl ⟨hlive, hpages ▸ hc⟩⟩, fun hnot => absurd hlive hnot⟩

/-- A page that is not free and not a table is apart from both. -/
theorem AddressSpace.apart {root x : ℕ} {T : List (Fin 512) → Option ℕ} (h : AddressSpace v root T L)
    (hc : IsPage c) (hcL : c ∉ L) (hcT : ∀ q, q.length < 3 → T q ≠ some c)
    (hx : InPages L x ∨ InTables T x) : x < c ∨ c + 4096 ≤ x := by
  rcases hx with ⟨d, hd, hr⟩ | ⟨q, d, hq, hlt, hr⟩
  · have := (h.list.page d hd).apart hc fun he => hcL (he ▸ hd)
    omega
  · have := (h.page q d hq).apart hc fun he => hcT q hlt (he ▸ hq)
    omega

/-- The pages that a process writes while it runs: those that are mapped, its frame and its kernel
stack. -/
def TaskMemory.data (t : TaskMemory) (m : Memory) : Set ℕ :=
  { c | (∃ q, q.length = 3 ∧ pageTree m t.page_table q = some c) ∨ c = t.frame ∨ c = t.kernel_sp }

/-- A process runs. -/
theorem TaskMemory.Housed.write (h : t.Housed v L)
    (hm : Same v.mem m fun x => ¬ InSet (t.data v.mem) x) :
    UsesOnly (reachOf t v.mem L) v t { v with mem := m } L := by
  have hlive : t.Live := h.space.root_page.ne_zero
  have hsub : ∀ c ∈ t.data v.mem, c ∈ t.pages v.mem := by
    rintro c (⟨q, -, hq⟩ | rfl | rfl)
    · exact .inl ⟨q, hq⟩
    · exact .inr (.inl rfl)
    · exact .inr (.inr rfl)
  have hspace := h.space.of_same (hm.mono fun x hx hin => by
    obtain ⟨c, hc, hr⟩ := hin
    have := h.space.apart (h.isPage (hsub c hc)) (h.not_free (hsub c hc)) (fun q hlt hq => ?_) hx
    · omega
    · rcases hc with ⟨q', hlen, hq'⟩ | rfl | rfl
      · rw [h.space.inj q q' c hq hq'] at hlt
        omega
      · exact h.frame.2.2 q hq
      · exact h.kernel_sp.2.2 q hq)
  have htree : pageTree m t.page_table = pageTree v.mem t.page_table := hspace.pageTree_eq
  refine ⟨hspace.list, fun c hc => .inr hc, hm.mono fun x hx hin => hx ?_, fun _ =>
      ⟨⟨htree.symm ▸ hspace,
    ⟨h.frame.1, h.frame.2.1, htree.symm ▸ h.frame.2.2⟩,
    ⟨h.kernel_sp.1, h.kernel_sp.2.1, htree.symm ▸ h.kernel_sp.2.2⟩, h.frame_ne,
    h.regions.mono fun i _ x _ hx => ?_⟩, fun c hc => .inl ⟨hlive, ?_⟩⟩, fun hnot => absurd hlive hnot⟩
  · obtain ⟨c, hc, hr⟩ := hin
    exact ⟨c, .inl ⟨hlive, hsub c hc⟩, hr⟩
  · rwa [show pageTree ({ v with mem := m } : VirtualMemory).mem t.page_table = _ from htree]
  · rw [pages] at hc ⊢
    rwa [← htree]

/-- The page table and the free pages. -/
def treeAndFree (t : TaskMemory) (m : Memory) (L : List ℕ) : Set ℕ :=
  { c | c ∈ L ∨ ∃ q, pageTree m t.page_table q = some c }

theorem TaskMemory.Housed.confined (h : t.Housed v L) :
    Confined (treeAndFree t v.mem L) v.mem t.page_table v :=
  .of_space h.space (fun _ hc => .inl hc) (fun q _ hq => .inr ⟨q, hq⟩) (Same.refl _ _)

theorem TaskMemory.Housed.notMem (h : t.Housed v L) :
    t.frame ∉ treeAndFree t v.mem L ∧ t.kernel_sp ∉ treeAndFree t v.mem L := by
  constructor
  · rintro (hc | ⟨q, hq⟩)
    · exact h.frame.2.1 hc
    · exact h.frame.2.2 q hq
  · rintro (hc | ⟨q, hq⟩)
    · exact h.kernel_sp.2.1 hc
    · exact h.kernel_sp.2.2 q hq

/-- The page table has been changed, at will. -/
theorem TaskMemory.Housed.usesOnly_confined (h : t.Housed v L)
    (hc : Confined (treeAndFree t v.mem L) v.mem t.page_table v') (hkept : Kept t t')
    (hkernel : t'.kernel_sp = t.kernel_sp) (hregions : t'.RegionsMapped v'.mem) :
    ∃ L', UsesOnly (reachOf t v.mem L) v t' v' L' := by
  obtain ⟨L', hspace, hL'⟩ := hc.space
  obtain ⟨hframeG, hkernelG⟩ := h.notMem
  have hroot := hkept.page_table
  have hframe := hkept.frame
  have hlive : t.Live := h.space.root_page.ne_zero
  have hlive' : t'.Live := by rwa [Live, hroot]
  have hsub : ∀ c ∈ treeAndFree t v.mem L, c ∈ reachOf t v.mem L := by
    rintro c (hc | hc)
    · exact .inr hc
    · exact .inl ⟨hlive, .inl hc⟩
  refine ⟨L', hspace.list, fun c hc => hsub c (hL' c hc), hc.same.mono fun x hx hin => hx ?_,
    fun _ => ⟨?_, ?_⟩, fun hnot => absurd hlive' hnot⟩
  · obtain ⟨c, hc, hr⟩ := hin
    exact ⟨c, hsub c hc, hr⟩
  · refine ⟨hroot ▸ hspace, ?_, ?_, by rw [hframe, hkernel]; exact h.frame_ne, hregions⟩
    · rw [hroot, hframe]
      exact ⟨h.frame.1, fun hin => hframeG (hL' _ hin), fun q hq => hframeG (hc.node q _ hq)⟩
    · rw [hroot, hkernel]
      exact ⟨h.kernel_sp.1, fun hin => hkernelG (hL' _ hin), fun q hq => hkernelG (hc.node q _ hq)⟩
  · rintro c (⟨q, hq⟩ | rfl | rfl)
    · rw [hroot] at hq
      exact hsub c (hc.node q c hq)
    · exact .inl ⟨hlive, .inr (.inl hframe)⟩
    · exact .inl ⟨hlive, .inr (.inr hkernel)⟩

/-- `ExpandMemory`. -/
theorem TaskMemory.Housed.expandMemory (h : t.Housed v L) (hn : n < 2 ^ 32)
    (hrun : t.expandMemory v n = .ok (a, t', v')) :
    ∃ L', UsesOnly (reachOf t v.mem L) v t' v' L' := by
  rw [TaskMemory.expandMemory] at hrun
  split at hrun
  · obtain ⟨-, hrest⟩ := Prod.mk.inj (Except.ok.inj hrun)
    obtain ⟨rfl, rfl⟩ := Prod.mk.inj hrest
    exact h.usesOnly_confined h.confined (Kept.refl _) rfl h.regions
  · obtain ⟨M, hM, -, hmax, hfrom⟩ := maxMemAddr_eq (p := t) (i := 0) (m := 0)
      (show 0 + t.used_address_size ≤ 16 from by have := h.regions.size_le; omega)
    have hM38 : M ≤ 2 ^ 38 := by
      rcases hfrom with rfl | ⟨j, -, hj, rfl⟩
      · omega
      · exact (h.regions.le j (by omega)).2
    have hup := addrCastUp_eq (show M + 4095 < 2 ^ 64 by omega)
    rw [hM, lift_ok_bind] at hrun
    simp only at hrun
    obtain ⟨lo, hlo⟩ : ∃ lo, lo = addrCastUp M := ⟨_, rfl⟩
    rw [← hlo] at hup hrun
    have hdown := addrCastDown_eq (show lo < 2 ^ 64 by omega)
    rw [Nat.mod_eq_of_lt (show lo + n < 2 ^ 64 by omega)] at hrun
    obtain ⟨⟨mapped, v₁⟩, hmap, hrun⟩ := bind_eq_ok.mp hrun
    rw [lift_eq_ok] at hmap
    have hk : PTE.R ||| PTE.W ||| PTE.U < 1024 := by decide
    obtain ⟨hconfined, htree⟩ := h.confined.mapMemory (show lo < 2 ^ 64 by omega) hk hmap
    simp only at hrun
    split at hrun
    · -- what was mapped is freed again, above all regions
      obtain ⟨-, hrest⟩ := Prod.mk.inj (Except.ok.inj hrun)
      obtain ⟨rfl, rfl⟩ := Prod.mk.inj hrest
      refine h.usesOnly_confined hconfined (Kept.refl _) rfl (h.regions.mono fun i hi x hx hne => ?_)
      have hout := htree (path x) (length_indices x 2 3) fun va hva hbeg _ he => ?_
      · rwa [hout]
      · have hMAX : MAX_SUPPORT_VA = 2 ^ 38 - 1 := rfl
        have hi38 := (h.regions.le i hi).2
        have hend := hmax i (Nat.zero_le _) (by omega)
        have hxlt := hx.2
        have := (path_inj (show va < 2 ^ 39 by omega) (show x < 2 ^ 39 by omega)).mp he
        omega
    · next hmapped =>
      obtain rfl : mapped = true := by simpa using hmapped
      have hend : lo + n ≤ 2 ^ 38 := by
        have hup' := addrCastUp_eq (show lo + n + 4095 < 2 ^ 64 by omega)
        have := h.confined.mapFrom_end_le (show addrCastDown lo % 4096 = 0 by omega)
          (show addrCastUp (lo + n) % 4096 = 0 by omega) hk hmap (by omega)
        omega
      obtain ⟨-, L₁, hgrowth, hrange⟩ := h.space.mapMemory_growth (Nat.le_add_right lo n) hend hk hmap
      obtain ⟨t₁, hadd, hrun⟩ := bind_eq_ok.mp hrun
      obtain ⟨-, hrest⟩ := Prod.mk.inj (Except.ok.inj hrun)
      obtain ⟨rfl, rfl⟩ := Prod.mk.inj hrest
      exact h.usesOnly_confined hconfined (addRegion_kept hadd) (addRegion_kernel_sp hadd)
        ((h.regions.growth hgrowth).addRegion hadd (Nat.le_add_right _ _) hend hrange)

/-- `FreePageTable` of a process that has ended. -/
theorem TaskMemory.Housed.freePageTable (h : t.Housed v L) (hrun : t.freePageTable v true = .ok v') :
    ∃ L', UsesOnly (reachOf t v.mem L) v (zero 0) v' L' := by
  obtain ⟨hframeG, hkernelG⟩ := h.notMem
  have hlive : t.Live := h.space.root_page.ne_zero
  obtain ⟨v₁, L₁, heq, hl₁, hL₁, hsame₁⟩ :=
      freePageTable_confined h.confined h.regions.size_le h.frame.1
    hframeG
  have hkernel : t.kernel_sp ∉ L₁ := by
    intro hin
    rcases hL₁ _ hin with he | hin
    · exact h.frame_ne he.symm
    · exact hkernelG hin
  obtain ⟨v₂, hpage, hl₂, hsame₂⟩ := freePage_same hl₁ h.kernel_sp.1 hkernel
  have hrun' : t.freePageTable v true = t.freePageTable v false >>= fun v =>
      v.freePage t.kernel_sp := by
    simp only [TaskMemory.freePageTable, bind_assoc]
    rfl
  rw [hrun', heq, ok_bind, hpage] at hrun
  obtain rfl := Except.ok.inj hrun
  have hsub : ∀ c ∈ insert t.frame (treeAndFree t v.mem L), c ∈ reachOf t v.mem L := by
    rintro c (rfl | hc | hc)
    · exact .inl ⟨hlive, .inr (.inl rfl)⟩
    · exact .inr hc
    · exact .inl ⟨hlive, .inl hc⟩
  have hfree : ∀ c ∈ t.kernel_sp :: L₁, c ∈ reachOf t v.mem L := by
    intro c hc
    rcases List.mem_cons.mp hc with rfl | hc
    · exact .inl ⟨hlive, .inr (.inr rfl)⟩
    · exact hsub c (hL₁ c hc)
  refine ⟨_, hl₂, hfree, (hsame₁.mono ?_).trans (hsame₂.mono ?_), fun hnot => absurd rfl hnot,
    fun _ => ⟨rfl, rfl⟩⟩
  · rintro x hx ⟨c, hc, hr⟩
    exact hx ⟨c, hsub c hc, hr⟩
  · exact fun x hx hin => hx (inSet_of_inPages hfree hin)

end OrangeOs.Kernel
