import OrangeOs.Kernel.MapMemory

/-! # The copy of an address space

`CopyMemory` maps a new page for every page that a region touches and copies the bytes of the region in
it. The addresses that are copied grow from the start of each region to its end.
-/

namespace OrangeOs.Kernel

open Memory VirtualMemory

variable {root sroot x y z u a b c k n pte : ℕ} {L F : List ℕ} {v₀ v v' : VirtualMemory}
  {m' : Memory} {S T T' : List (Fin 512) → Option ℕ} {P : ℕ → Prop} {M : Finset (List (Fin 512))}

/-- The state of the copy of the address space with the tree `S`. The new tree and the free pages are
among the pages `F`; the addresses of `P` are copied, and `stack` is the page of the stack. -/
structure Copying (v₀ : VirtualMemory) (S : List (Fin 512) → Option ℕ) (F : List ℕ) (stack : ℕ)
    (v : VirtualMemory) (root : ℕ) (T : List (Fin 512) → Option ℕ) (L : List ℕ) (P : ℕ → Prop) :
    Prop where
  space : AddressSpace v root T L
  same : Same v₀.mem v.mem fun x => ¬ InPages F x
  free_sub : ∀ c ∈ L, c ∈ F
  tree_sub : ∀ q a, T q = some a → a ∈ F
  mapped : ∀ x, P x → ∃ a b, S (path x) = some a ∧ T (path x) = some b ∧
    v.mem (b + x % 4096) = v₀.mem (a + x % 4096) ∧ perm v.mem T x = perm v₀.mem S x
  only : ∀ q, q ≠ [] → T q ≠ none → ∃ x, (x = TaskMemory.userStackVa ∨ P x) ∧
    ∃ j < 3, q = indices x 2 (j + 1)
  stack_mapped : T (path TaskMemory.userStackVa) = some stack
  stack_perm : perm v.mem T TaskMemory.userStackVa = PTE.R ||| PTE.W ||| PTE.U

/-- The source of a copy: pages of the memory outside `F`. -/
structure Source (v₀ : VirtualMemory) (sroot : ℕ) (S : List (Fin 512) → Option ℕ) (F : List ℕ) :
    Prop where
  isTree : IsTree (child v₀.mem) 3 sroot S
  page : ∀ q a, S q = some a → IsPage a
  out : ∀ q a, S q = some a → a ∉ F
  pages : ∀ c ∈ F, IsPage c

namespace Source

variable {stack : ℕ}

/-- The pages of the source keep their bytes. -/
theorem byte_eq (h : Source v₀ sroot S F) (hs : Same v₀.mem v.mem fun x => ¬ InPages F x)
    {q : List (Fin 512)} (ha : S q = some a) (hx : a ≤ x) (hx' : x < a + 4096) :
    v.mem x = v₀.mem x := by
  refine hs x ?_
  rintro ⟨c, hc, hcx, hcx'⟩
  have hne : a ≠ c := fun he => h.out q a ha (he ▸ hc)
  have := (h.page q a ha).apart (h.pages c hc) hne
  omega

/-- The page table of the source is as before. -/
theorem tree (h : Source v₀ sroot S F) (hs : Same v₀.mem v.mem fun x => ¬ InPages F x) :
    IsTree (child v.mem) 3 sroot S :=
  h.isTree.congr fun _ _ i _ hq => child_congr (fun _ hx hx' => h.byte_eq hs hq hx hx') i

theorem perm (h : Source v₀ sroot S F) (hs : Same v₀.mem v.mem fun x => ¬ InPages F x) :
    Kernel.perm v.mem S = Kernel.perm v₀.mem S := by
  funext x
  cases hb : S (indices x 2 2) with
  | none => simp only [Kernel.perm, hb]
  | some b =>
    have hentry : entry v.mem b (index x 0) = entry v₀.mem b (index x 0) := by
      refine load_congr fun k hk => h.byte_eq hs hb (by omega) ?_
      have := (index x 0).isLt
      omega
    simp only [Kernel.perm, hb, hentry]

/-- The page table of the source can still be read. -/
theorem vaToPA (h : Source v₀ sroot S F) (hs : Same v₀.mem v.mem fun x => ¬ InPages F x)
    (hx : x < 2 ^ 64) (ha : S (path x) = some a) (o : ℕ) :
    v.vaToPA sroot x o = .ok (a + x % 4096, Kernel.perm v₀.mem S x) := by
  rw [vaToPA_eq (h.tree hs) h.page hx ha o, h.perm hs]

end Source

/-- The permissions fit `PTE_MASK`. -/
theorem perm_lt (m : Memory) (T : List (Fin 512) → Option ℕ) (x : ℕ) :
    perm m T x < 32 ∧ perm m T x &&& PTE_MASK = perm m T x := by
  unfold perm
  split
  · exact ⟨by omega, Nat.zero_and _⟩
  · exact ⟨Nat.and_lt_two_pow _ (show PTE_MASK < 2 ^ 5 by decide), by rw [Nat.and_assoc, Nat.and_self]⟩

theorem perm_of_same {m : Memory} (h : Same m m' (InTables T)) (x : ℕ) : perm m' T x = perm m T x := by
  cases hb : T (indices x 2 2) with
  | none => simp only [perm, hb]
  | some b =>
    have hentry : entry m' b (index x 0) = entry m b (index x 0) := by
      refine load_congr fun k hk => h _ ⟨_, b, hb, by rw [length_indices]; omega, by omega, ?_⟩
      have := (index x 0).isLt
      omega
    simp only [perm, hb, hentry]

theorem perm_congr (h : x / 4096 = y / 4096) (m : Memory) (T : List (Fin 512) → Option ℕ) :
    perm m T x = perm m T y := by
  have hindex : index x 0 = index y 0 := by
    have hone := indices_congr h 0 1
    simpa [indices] using hone
  rw [perm, perm, indices_congr h, hindex]

namespace Copying

variable {stack : ℕ}

/-- The pages that are mapped. -/
theorem only_path (h : Copying v₀ S F stack v root T L P) {q : List (Fin 512)} (hq : q.length = 3)
    (hne : T q ≠ none) : ∃ x, (x = TaskMemory.userStackVa ∨ P x) ∧ q = path x := by
  obtain ⟨x, hx, j, hj, rfl⟩ := h.only q (by rintro rfl; simp at hq) hne
  rw [length_indices] at hq
  obtain rfl : j = 2 := by omega
  exact ⟨x, hx, rfl⟩

/-- A page that the copy has not reached is not mapped. -/
theorem path_none (h : Copying v₀ S F stack v root T L P) (hx : x ≤ MAX_SUPPORT_VA)
    (hmax : ∀ z, P z → z ≤ MAX_SUPPORT_VA) (hstack : x / 4096 ≠ TaskMemory.userStackVa / 4096)
    (hout : ∀ z, P z → z / 4096 ≠ x / 4096) : T (path x) = none := by
  have hlt : ∀ z, z ≤ MAX_SUPPORT_VA → z < 2 ^ 39 := by
    intro z hz
    simp only [MAX_SUPPORT_VA] at hz
    omega
  by_contra hne
  obtain ⟨z, hz, hp⟩ := h.only_path (length_indices x 2 3) hne
  rcases hz with rfl | hz
  · exact hstack ((path_inj (hlt x hx) (by decide)).mp hp)
  · exact hout z hz ((path_inj (hlt x hx) (hlt z (hmax z hz))).mp hp).symm

/-- One round of the loop of `CopyMemory`: the bytes of a region in one page. -/
theorem page (h : Copying v₀ S F stack v root T L P) (hs : Source v₀ sroot S F) (hxy : x < y)
    (hpage : (y - 1) / 4096 = x / 4096) (hx : x ≤ MAX_SUPPORT_VA) (ha : S (path x) = some a)
    (hnone : T (path x) = none) (hM : Enough T M n L) (hwant : ∀ j < 3, indices x 2 (j + 1) ∈ M) :
    ∃ v' T' L' c, v.mapMemory root x y (perm v₀.mem S x) = .ok (true, v') ∧
      (∀ o, v'.vaToPA root x o = .ok (c + x % 4096, perm v₀.mem S x)) ∧
      Copying v₀ S F stack { v' with mem := v'.mem.copy (c + x % 4096) (a + x % 4096) (y - x) } root
        T' L' (fun z => P z ∨ x ≤ z ∧ z < y) ∧ Enough T' M n L' := by
  obtain ⟨hperm, hperm'⟩ := perm_lt v₀.mem S x
  obtain ⟨v', T', L', c, heq, hspace, hext, hc, hpermc, hM', hnew⟩ :=
    h.space.mapMemory_page hxy hpage hx hnone hperm hperm' hM hwant
  have hx64 : x < 2 ^ 64 := by
    simp only [MAX_SUPPORT_VA] at hx
    omega
  have hcF : c ∈ F := by
    rcases hext.new _ c hc with hc' | hc'
    · simp [hnone] at hc'
    · exact h.free_sub c hc'
  have hlen : (path x).length = 3 := length_indices x 2 3
  have hsame : Same v₀.mem v'.mem fun i => ¬ InPages F i := by
    refine h.same.trans (hext.same.mono fun i hi => ⟨?_, ?_⟩)
    · rintro ⟨d, hd, hr⟩
      exact hi ⟨d, h.free_sub d hd, hr⟩
    · rintro ⟨q, d, hd, -, hr⟩
      exact hi ⟨d, h.tree_sub q d hd, hr⟩
  -- the bytes are written into the new page only
  have hcopy : Same v'.mem (v'.mem.copy (c + x % 4096) (a + x % 4096) (y - x))
      fun i => i < c ∨ c + 4096 ≤ i :=
    (copy_same _ _ _ _).mono fun i hi => by omega
  have hcp : IsPage c := hspace.page _ c hc
  have htables : Same v'.mem (v'.mem.copy (c + x % 4096) (a + x % 4096) (y - x)) (InTables T') := by
    refine hcopy.mono fun i hi => ?_
    obtain ⟨q, d, hd, hlt, hdi, hdi'⟩ := hi
    have hne : d ≠ c := by
      rintro rfl
      rw [hspace.inj q (path x) d hd hc, hlen] at hlt
      omega
    have := (hspace.page q d hd).apart hcp hne
    omega
  have hbyte : ∀ z b, T (path z) = some b → ∀ i, b ≤ i → i < b + 4096 →
      v'.mem.copy (c + x % 4096) (a + x % 4096) (y - x) i = v.mem i := by
    intro z b hb i hi hi'
    have hbp := h.space.page _ b hb
    have hne : b ≠ c := by
      rintro rfl
      rw [hspace.inj _ (path x) b (hext.keep _ b hb) hc, hnone] at hb
      simp at hb
    have happ := hbp.apart hcp hne
    rw [hcopy i (by omega), hext.same i ⟨?_, ?_⟩]
    · rintro ⟨d, hd, hdi, hdi'⟩
      have hbd : b ≠ d := fun he => h.space.fresh _ b hb (he ▸ hd)
      have := hbp.apart (h.space.list.page d hd) hbd
      omega
    · rintro ⟨q, d, hd, hlt, hdi, hdi'⟩
      have hbd : b ≠ d := by
        rintro rfl
        rw [h.space.inj q _ b hd hb, path, length_indices] at hlt
        omega
      have := hbp.apart (h.space.page q d hd) hbd
      omega
  have hpermT : ∀ z b, T (path z) = some b →
      perm (v'.mem.copy (c + x % 4096) (a + x % 4096) (y - x)) T' z = perm v.mem T z := by
    intro z b hb
    rw [perm_of_same htables, hext.perm_eq hb h.space.isTree]
  refine ⟨v', T', L', c, heq, fun o => ?_, ⟨?_, ?_, ?_, ?_, ?_, ?_, ?_, ?_⟩, hM'⟩
  · rw [vaToPA_eq hspace.isTree hspace.page hx64 hc o, hpermc]
  · refine hspace.of_same fun i hi => ?_
    rcases hi with ⟨d, hd, hdi, hdi'⟩ | hi
    · have hne : c ≠ d := fun he => hspace.fresh _ c hc (he ▸ hd)
      have := hcp.apart (hspace.list.page d hd) hne
      exact hcopy i (by omega)
    · exact htables i hi
  · refine hsame.trans (hcopy.mono fun i hi => ?_)
    by_contra hin
    exact hi ⟨c, hcF, by omega, by omega⟩
  · exact fun d hd => h.free_sub d (hext.sub d hd)
  · intro q d hd
    rcases hext.new q d hd with hd | hd
    · exact h.tree_sub q d hd
    · exact h.free_sub d hd
  · rintro z (hz | ⟨hz, hz'⟩)
    · obtain ⟨a', b, ha', hb, hbytes, hp⟩ := h.mapped z hz
      refine ⟨a', b, ha', hext.keep _ b hb, ?_, ?_⟩
      · rw [← hbytes]
        exact hbyte z b hb _ (by omega) (by omega)
      · rw [hpermT z b hb, hp]
    · have hzx : z / 4096 = x / 4096 := by omega
      have hpath : path z = path x := indices_congr hzx 2 3
      refine ⟨a, c, by rw [hpath, ha], by rw [hpath, hc], ?_, ?_⟩
      · have hcell : v'.mem.copy (c + x % 4096) (a + x % 4096) (y - x) (c + z % 4096) =
            v'.mem (a + z % 4096) := by
          rw [copy, if_pos (by omega)]
          congr 1
          omega
        exact hcell.trans (hs.byte_eq hsame ha (by omega) (by omega))
      · rw [perm_congr hzx, perm_of_same htables, hpermc, perm_congr hzx]
  · intro q hq hne
    by_cases hold : T q = none
    · exact ⟨x, .inr (.inr ⟨le_rfl, hxy⟩), hnew q hold hne⟩
    · obtain ⟨z, hz, hp⟩ := h.only q hq hold
      exact ⟨z, hz.imp_right .inl, hp⟩
  · exact hext.keep _ _ h.stack_mapped
  · rw [hpermT _ _ h.stack_mapped, h.stack_perm]

end Copying

/-- One round of the inner loop of `CopyMemory`. -/
theorem copyFrom_step {size len src_pa dst_pa o o' e : ℕ} (hsize : 0 < size)
    (hsrc : v.vaToPA sroot x o = .ok (src_pa, o'))
    (hlen : (if size > PGSIZE - src_pa % PGSIZE then PGSIZE - src_pa % PGSIZE else size) = len)
    (hmap : v.mapMemory root x ((x + len) % 2 ^ 64) o' = .ok (true, v'))
    (hdst : v'.vaToPA root x 0 = .ok (dst_pa, e)) :
    TaskMemory.copyFrom v sroot root x size o =
      TaskMemory.copyFrom { v' with mem := v'.mem.copy dst_pa src_pa len } sroot root
        ((addrCastDown x + PGSIZE) % 2 ^ 64) (size - len) o' := by
  rw [TaskMemory.copyFrom, dif_pos hsize, hsrc, ok_bind]
  simp only [hlen, hmap, hdst, ok_bind, if_true]

namespace Copying

variable {stack : ℕ}

theorem congr {P' : ℕ → Prop} (h : Copying v₀ S F stack v root T L P) (hP : ∀ z, P z ↔ P' z) :
    Copying v₀ S F stack v root T L P' := by
  obtain rfl : P = P' := funext fun z => propext (hP z)
  exact h

/-- The inner loop of `CopyMemory` copies the rest of a region. -/
theorem copyFrom (h : Copying v₀ S F stack v root T L P) (hs : Source v₀ sroot S F)
    (hhi : x < u → u ≤ MAX_SUPPORT_VA + 1) (hsrc : ∀ y, x ≤ y → y < u → S (path y) ≠ none)
    (hmax : ∀ z, P z → z ≤ MAX_SUPPORT_VA)
    (hout : ∀ y, x ≤ y → y < u → y / 4096 ≠ TaskMemory.userStackVa / 4096 ∧
      ∀ z, P z → z / 4096 ≠ y / 4096)
    (hM : Enough T M n L) (hwant : ∀ y, x ≤ y → y < u → ∀ j < 3, indices y 2 (j + 1) ∈ M) (o : ℕ) :
    ∃ v' T' L' o', TaskMemory.copyFrom v sroot root x (u - x) o = .ok (true, o', v') ∧
      Copying v₀ S F stack v' root T' L' (fun z => P z ∨ x ≤ z ∧ z < u) ∧ Enough T' M n L' := by
  induction hsize : u - x using Nat.strong_induction_on generalizing v T L P x o with
  | _ size ih =>
    rcases Nat.eq_zero_or_pos size with rfl | hpos
    · refine ⟨v, T, L, o, by rw [TaskMemory.copyFrom, dif_neg (by omega)], h.congr fun z => ?_, hM⟩
      constructor
      · exact .inl
      · rintro (hz | hz)
        · exact hz
        · omega
    · have hhi := hhi (by omega)
      have hmax' : MAX_SUPPORT_VA = 274877906943 := rfl
      have hpg : PGSIZE = 4096 := rfl
      obtain ⟨a, ha⟩ := Option.ne_none_iff_exists'.mp (hsrc x le_rfl (by omega))
      have hal := (hs.page _ a ha).aligned
      obtain ⟨len, hlen⟩ : ∃ len, len = if size > PGSIZE - (a + x % 4096) % PGSIZE then
        PGSIZE - (a + x % 4096) % PGSIZE else size := ⟨_, rfl⟩
      have hlen' : (size ≤ 4096 - x % 4096 ∧ len = size) ∨
          (4096 - x % 4096 < size ∧ len = 4096 - x % 4096) := by
        rw [hpg] at hlen
        split at hlen <;> omega
      have hnone := h.path_none (x := x) (by omega) hmax (hout x le_rfl (by omega)).1
        (hout x le_rfl (by omega)).2
      obtain ⟨v₁, T₁, L₁, c, hmap, hdst, hcopy, hM₁⟩ := h.page hs (y := x + len) (by omega) (by omega)
        (by omega) ha hnone hM (hwant x le_rfl (by omega))
      have hstep := copyFrom_step hpos (hs.vaToPA h.same (by omega) ha o) hlen.symm
        (by rw [Nat.mod_eq_of_lt (by omega)]; exact hmap) (hdst 0)
      rw [Nat.add_sub_cancel_left] at hcopy
      have hnext : (addrCastDown x + PGSIZE) % 2 ^ 64 = x - x % 4096 + 4096 := by
        rw [addrCastDown_eq (by omega), hpg, Nat.mod_eq_of_lt (by omega)]
      rw [hnext] at hstep
      rcases hlen' with ⟨hle, rfl⟩ | ⟨hgt, rfl⟩
      · -- the region ends in this page
        refine ⟨_, T₁, L₁, perm v₀.mem S x, ?_, hcopy.congr fun z => ?_, hM₁⟩
        · rw [hstep, Nat.sub_self, TaskMemory.copyFrom, dif_neg (by omega)]
        · rw [show x + len = u by omega]
      · have hend : x + (4096 - x % 4096) = x - x % 4096 + 4096 := by omega
        rw [hend] at hcopy
        obtain ⟨v', T', L', o', heq, hcopy', hM'⟩ := ih (u - (x - x % 4096 + 4096)) (by omega) hcopy
          (x := x - x % 4096 + 4096) (fun _ => hhi)
          (fun y hy hy' => hsrc y (by omega) hy')
          (by
            rintro z (hz | hz)
            · exact hmax z hz
            · omega)
          (fun y hy hy' => ⟨(hout y (by omega) hy').1, by
            rintro z (hz | hz)
            · exact (hout y (by omega) hy').2 z hz
            · omega⟩)
          hM₁ (fun y hy hy' => hwant y (by omega) hy') _ rfl
        refine ⟨v', T', L', o', ?_, hcopy'.congr fun z => ?_, hM'⟩
        · have hrest : size - (4096 - x % 4096) = u - (x - x % 4096 + 4096) := by omega
          rw [hstep, hrest, heq]
        · constructor
          · rintro ((hz | hz) | hz)
            · exact .inl hz
            · exact .inr (by omega)
            · exact .inr (by omega)
          · rintro (hz | hz)
            · exact .inl (.inl hz)
            · by_cases hlt : z < x - x % 4096 + 4096
              · exact .inl (.inr (by omega))
              · exact .inr (by omega)

end Copying

/-! ## The regions of a process -/

namespace TaskMemory

variable {src p : TaskMemory} {stack j : ℕ}

/-- An address of region `i`. -/
def Region (p : TaskMemory) (i : Fin 16) (x : ℕ) : Prop :=
  (p.used_address i).1.toNat ≤ x ∧ x < (p.used_address i).2.toNat

/-- A process that can be copied: its regions and its stack page are mapped, no two of them share a page,
and none of its pages is free. -/
structure Forkable (src : TaskMemory) (v : VirtualMemory) (L : List ℕ) : Prop where
  size_le : src.used_address_size ≤ 16
  le : ∀ i : Fin 16, i < src.used_address_size →
    (src.used_address i).1.toNat ≤ (src.used_address i).2.toNat
  mapped : ∀ i : Fin 16, i < src.used_address_size → ∀ x, src.Region i x →
    x ≤ MAX_SUPPORT_VA ∧ pageTree v.mem src.page_table (path x) ≠ none
  disjoint : ∀ i j : Fin 16, i < src.used_address_size → j < src.used_address_size → i ≠ j →
    ∀ x y, src.Region i x → src.Region j y → x / PGSIZE ≠ y / PGSIZE
  stack_disjoint : ∀ i : Fin 16, i < src.used_address_size → ∀ x, src.Region i x →
    x / PGSIZE ≠ userStackVa / PGSIZE
  stack_mapped : pageTree v.mem src.page_table (path userStackVa) = some src.user_sp
  stack_perm : perm v.mem (pageTree v.mem src.page_table) userStackVa = PTE.R ||| PTE.W ||| PTE.U
  page : ∀ q a, pageTree v.mem src.page_table q = some a → IsPage a ∧ a ∉ L
  frame : IsPage src.frame ∧ src.frame ∉ L

/-- The regions before number `j`. -/
def Before (src : TaskMemory) (j : ℕ) (x : ℕ) : Prop := ∃ i : Fin 16, i < j ∧ src.Region i x

/-- The outer loop of `CopyMemory`. -/
theorem copyRegions_eq (hsrc : src.Forkable v₀ F)
    (hs : Source v₀ src.page_table (pageTree v₀.mem src.page_table) F)
    (h : Copying v₀ (pageTree v₀.mem src.page_table) F stack v root T L (src.Before j))
    (hk : j + k = src.used_address_size) (hM : Enough T M n L)
    (hwant : ∀ x, src.InRegion x → ∀ j < 3, indices x 2 (j + 1) ∈ M) :
    ∃ v' T' L', src.copyRegions v root j k = .ok (true, v') ∧
      Copying v₀ (pageTree v₀.mem src.page_table) F stack v' root T' L' src.InRegion ∧
      Enough T' M n L' := by
  induction k generalizing v T L j with
  | zero =>
    exact ⟨v, T, L, rfl, h.congr fun z => by simp [Before, InRegion, Region, ← hk], hM⟩
  | succ k ih =>
    have hsize := hsrc.size_le
    have hj : j < 16 := by omega
    have hpg : PGSIZE = 4096 := rfl
    obtain ⟨i, rfl⟩ : ∃ i : Fin 16, (i : ℕ) = j := ⟨⟨j, hj⟩, rfl⟩
    have hi : (i : ℕ) < src.used_address_size := by omega
    have hle := hsrc.le i hi
    have hlt := (src.used_address i).2.toNat_lt
    have hregion : src.region i = .ok ((src.used_address i).1.toNat, (src.used_address i).2.toNat) :=
      dif_pos hj
    have hin : ∀ x, (src.used_address i).1.toNat ≤ x → x < (src.used_address i).2.toNat →
        src.Region i x := fun x hx hx' => ⟨hx, hx'⟩
    obtain ⟨v₁, T₁, L₁, o, heq, hcopy, hM₁⟩ := h.copyFrom hs
      (x := (src.used_address i).1.toNat) (u := (src.used_address i).2.toNat)
      (fun hlt' => by
        have := (hsrc.mapped i hi _ (hin ((src.used_address i).2.toNat - 1) (by omega) (by omega))).1
        omega)
      (fun y hy hy' => (hsrc.mapped i hi y (hin y hy hy')).2)
      (fun z ⟨i', hi', hz⟩ => (hsrc.mapped i' (by omega) z hz).1)
      (fun y hy hy' => ⟨by
        have := hsrc.stack_disjoint i hi y (hin y hy hy')
        rwa [hpg] at this, fun z ⟨i', hi', hz⟩ => by
        have := hsrc.disjoint i' i (by omega) hi (fun he => by rw [he] at hi'; omega) z y hz
          (hin y hy hy')
        rwa [hpg] at this⟩)
      hM (fun y hy hy' => hwant y ⟨i, hi, hin y hy hy'⟩) 0
    obtain ⟨v', T', L', heq', hcopy', hM'⟩ := ih (j := i + 1) (hcopy.congr fun z => by
      constructor
      · rintro (⟨i', hi', hz⟩ | hz)
        · exact ⟨i', by omega, hz⟩
        · exact ⟨i, by omega, hz⟩
      · rintro ⟨i', hi', hz⟩
        by_cases he : i' = i
        · subst he
          exact .inr hz
        · have hne : (i' : ℕ) ≠ i := fun hv => he (Fin.ext hv)
          exact .inl ⟨i', by omega, hz⟩) (by omega) hM₁
    refine ⟨v', T', L', ?_, hcopy', hM'⟩
    have hdiff : ((src.used_address i).2.toNat + 2 ^ 64 - (src.used_address i).1.toNat) % 2 ^ 64 =
        (src.used_address i).2.toNat - (src.used_address i).1.toNat := by omega
    rw [copyRegions, hregion, ok_bind]
    simp only [hdiff, heq, ok_bind, if_true]
    exact heq'

end TaskMemory

end OrangeOs.Kernel
