import Mathlib.Data.Set.Card
import Mathlib.Data.Set.Finite.List
import OrangeOs.Kernel.CopyMemory

/-! # The address space of a child

`Init` builds a page table with the stack page, and `CopyFrom` copies the regions, the stack page and the
frame of the parent. The child then has the pages of its parent in pages that were free, and its page
table is one that the teardown accepts.
-/

namespace OrangeOs.Kernel

open Memory VirtualMemory

variable {root x a k n : ℕ} {L F L' L₂ : List ℕ} {v v₁ v₂ w v' : VirtualMemory}
  {T : List (Fin 512) → Option ℕ} {M : Finset (List (Fin 512))}

namespace TaskMemory

variable {src p p₁ : TaskMemory}

/-- What `Init` leaves: a page table that maps the stack page, and two pages more. -/
structure Initialised (v : VirtualMemory) (L : List ℕ) (p : TaskMemory) (v' : VirtualMemory)
    (T' : List (Fin 512) → Option ℕ) (L' : List ℕ) : Prop where
  space : AddressSpace v' p.page_table T' L'
  same : Same v.mem v'.mem fun i => ¬ InPages L i
  free_sub : ∀ c ∈ L', c ∈ L
  tree_sub : ∀ q a, T' q = some a → a ∈ L
  stack_mapped : T' (path userStackVa) = some p.user_sp
  stack_perm : perm v'.mem T' userStackVa = PTE.R ||| PTE.W ||| PTE.U
  only : ∀ q, q ≠ [] → T' q ≠ none → ∃ j < 3, q = indices userStackVa 2 (j + 1)
  frame : p.frame ∈ L ∧ p.frame ∉ L' ∧ ∀ q, T' q ≠ some p.frame
  kernel_sp : p.kernel_sp ∈ L ∧ p.kernel_sp ∉ L' ∧ ∀ q, T' q ≠ some p.kernel_sp
  frame_ne : p.frame ≠ p.kernel_sp

theorem setFrame_same (m : Memory) (f x y : ℕ) :
    Same m (setFrameSp (setFrameKernelSp m f x) f y) fun i => i < f ∨ f + 4096 ≤ i :=
  (((store_same m (f + 33 * 8) 8 x).mono fun i hi => by omega).trans
    ((store_same _ (f + 8) 8 y).mono fun i hi => by omega))

theorem init_eq (hl : OnList v L) (hp : p.console = .none) (hM : M.card + 3 + n ≤ v.size_)
    (hnil : [] ∉ M) (hwant : ∀ j < 3, indices userStackVa 2 (j + 1) ∈ M) :
    ∃ p' v' T' L', p.init v true = .ok (true, p', v') ∧ Initialised v L p' v' T' L' ∧
      Enough T' M n L' := by
  rw [hl.size] at hM
  obtain ⟨f, L, rfl⟩ := List.exists_cons_of_length_pos (show 0 < L.length by omega)
  obtain ⟨v₁, heq₁, hl₁, -, -, hm₁⟩ := hl.alloc
  rw [List.length_cons] at hM
  obtain ⟨r, L, rfl⟩ := List.exists_cons_of_length_pos (show 0 < L.length by omega)
  obtain ⟨v₂, heq₂, hl₂, -, hzero, hm₂⟩ := hl₁.alloc
  rw [List.length_cons] at hM
  have hf : IsPage f := hl.page f (by simp)
  have hr : IsPage r := hl₁.page r (by simp)
  obtain ⟨hfr, hfL⟩ : f ≠ r ∧ f ∉ L := by
    have := (List.nodup_cons.mp hl.linked.nodup).1
    rwa [List.mem_cons, not_or] at this
  have hrL : r ∉ L := (List.nodup_cons.mp hl₁.linked.nodup).1
  -- the new root
  have hspace₂ : AddressSpace v₂ r (rootOnly r) L :=
    addressSpace_iff.mpr (.of_zeroPage hl₂ hzero hr hrL)
  have hEnough : Enough (rootOnly r) M (n + 1) L := by
    have hfilter : (M.filter fun q => rootOnly r q = none) = M := by
      refine Finset.filter_true_of_mem fun q hq => if_neg ?_
      rintro rfl
      exact hnil hq
    rw [Enough, hfilter]
    omega
  obtain ⟨s, L, rfl, -⟩ := hEnough.cons_of_none (hwant 2 (by omega)) (rootOnly_path _)
  obtain ⟨v₃, heq₃, hspace₃, hext₃, -, hs, hsL, hsT⟩ := hspace₂.alloc
  obtain ⟨v₄, T, L₄, heq₄, hspace₄, hext₄, hstack, hperm, hM₄, hnew⟩ := hspace₃.mapPage (n := n + 1)
    (k := PTE.R ||| PTE.W ||| PTE.U) hs hsL hsT (show userStackVa % 4096 = 0 by decide) (by decide)
    (rootOnly_path _) (by decide) (by decide)
    (hEnough.erase (hwant 2 (by omega)) (rootOnly_path _)) hwant
  obtain ⟨k, L₅, rfl, hM₅⟩ := hM₄.cons (Nat.succ_pos n)
  obtain ⟨v₅, heq₅, hspace₅, hext₅, -, hk, hkL, hkT⟩ := hspace₄.alloc
  have htree : ∀ q a, T q = some a → a = r ∨ a ∈ s :: L := by
    intro q a hq
    exact (hext₄.new q a hq).imp_left fun hq => (rootOnly_eq_some.mp hq).2
  have hfT : ∀ q, T q ≠ some f := fun q hq => (htree q f hq).elim hfr hfL
  have hkf : k ≠ f := fun he => hfL (he ▸ hext₄.sub k (by simp))
  have hfL₅ : f ∉ L₅ := fun hf' => hfL (hext₄.sub f (List.mem_cons_of_mem k hf'))
  have hframe := setFrame_same v₅.mem f (k + PGSIZE) (userStackVa + PGSIZE)
  have htables : Same v₅.mem (setFrameSp (setFrameKernelSp v₅.mem f (k + PGSIZE)) f
      (userStackVa + PGSIZE)) fun x => InPages L₅ x ∨ InTables T x := by
    refine hframe.mono fun x hx => ?_
    rcases hx with ⟨d, hd, hdx, hdx'⟩ | ⟨q, d, hd, -, hdx, hdx'⟩
    · have := hf.apart (hspace₅.list.page d hd) fun he => hfL₅ (he ▸ hd)
      omega
    · have := hf.apart (hspace₅.page q d hd) fun he => hfT q (he ▸ hd)
      omega
  have hstack₄ := hext₅.keep _ _ hstack
  refine ⟨TaskMemory.mk f r p.used_address_size p.used_address k s (k + PGSIZE) .device, _, T, L₅, ?_,
    ⟨hspace₅.of_same htables, ?_, ?_, ?_, hstack₄, ?_, ?_, ?_, ?_, ?_⟩, hM₅⟩
  · rw [TaskMemory.init, heq₁, ok_bind]
    simp only [if_neg hf.ne_zero, heq₂, ok_bind, if_neg hr.ne_zero, heq₃, if_neg hs.ne_zero, heq₄,
      heq₅, if_true, hk.ne_zero, hp, not_true, and_false, if_false, ne_eq, pure_bind]
    rfl
  · have htree' : ∀ q a, T q = some a → a ∈ f :: r :: s :: L := by
      intro q a hq
      rcases htree q a hq with rfl | ha
      · simp
      · exact List.mem_cons_of_mem f (List.mem_cons_of_mem r ha)
    have hroot : ∀ i, ¬ InPages (f :: r :: s :: L) i →
        ¬ InTables (rootOnly r) i := by
      rintro i hi ⟨q, d, hd, -, hr'⟩
      exact hi ⟨d, by simp [(rootOnly_eq_some.mp hd).2], hr'⟩
    refine hm₁.trans (((hm₂.mono ?_).trans (hext₃.same.mono ?_)).trans
      (((hext₄.same.mono ?_).trans (hext₅.same.mono ?_)).trans (hframe.mono ?_)))
    · exact fun i hi hin => hi (inPages_mono (fun c hc => List.mem_cons_of_mem f hc) hin)
    · exact fun i hi => ⟨fun hin => hi (inPages_mono
        (fun c hc => List.mem_cons_of_mem f (List.mem_cons_of_mem r hc)) hin), hroot i hi⟩
    · refine fun i hi => ⟨fun hin => hi (inPages_mono
        (fun c hc => List.mem_cons_of_mem f (List.mem_cons_of_mem r hc)) hin), hroot i hi⟩
    · refine fun i hi => ⟨fun hin => hi (inPages_mono (fun c hc => List.mem_cons_of_mem f
        (List.mem_cons_of_mem r (hext₄.sub c hc))) hin), ?_⟩
      rintro ⟨q, d, hd, -, hr'⟩
      exact hi ⟨d, htree' q d hd, hr'⟩
    · intro i hi
      by_contra hin
      exact hi ⟨f, by simp, by omega, by omega⟩
  · exact fun c hc => List.mem_cons_of_mem f (List.mem_cons_of_mem r
      (hext₄.sub c (List.mem_cons_of_mem k hc)))
  · intro q a hq
    rcases htree q a hq with rfl | ha
    · simp
    · exact List.mem_cons_of_mem f (List.mem_cons_of_mem r ha)
  · rw [perm_of_same (htables.mono fun x hx => .inr hx), hext₅.perm_eq hstack hspace₄.isTree, hperm]
  · exact fun q hq hne => hnew q (if_neg hq) hne
  · exact ⟨by simp, hfL₅, hfT⟩
  · exact ⟨List.mem_cons_of_mem f (List.mem_cons_of_mem r (hext₄.sub k (by simp))), hkL, hkT⟩
  · exact hkf.symm

/-- The paths of the pages and the tables below the root that a process needs. -/
def treePaths (p : TaskMemory) : Set (List (Fin 512)) :=
  {q | ∃ x, p.Uses x ∧ ∃ j < 3, q = indices x 2 (j + 1)}

theorem finite_treePaths (p : TaskMemory) : p.treePaths.Finite := by
  refine (List.finite_length_le (Fin 512) 3).subset ?_
  rintro q ⟨x, -, j, hj, rfl⟩
  rw [Set.mem_ofPred_eq, length_indices]
  omega

/-- The writes of `CopyFrom` after the regions: the stack page, the frame and its kernel stack. -/
def copyRest (p src : TaskMemory) (m : Memory) : Memory :=
  setFrameKernelSp ((m.copy p.user_sp src.user_sp PGSIZE).copy p.frame src.frame frameSize) p.frame
    (p.kernel_sp + PGSIZE)

theorem copyRest_same (p src : TaskMemory) (m : Memory) :
    Same m (p.copyRest src m) fun i => (i < p.user_sp ∨ p.user_sp + 4096 ≤ i) ∧
      (i < p.frame ∨ p.frame + 4096 ≤ i) := by
  have hsize : PGSIZE = 4096 := rfl
  have hframe : frameSize = 2048 := rfl
  refine ((copy_same m _ _ _).mono ?_).trans (((copy_same _ _ _ _).mono ?_).trans
    ((store_same _ _ _ _).mono ?_))
  · rintro i ⟨hi, -⟩
    omega
  · rintro i ⟨-, hi⟩
    omega
  · rintro i ⟨-, hi⟩
    omega

theorem copyRest_stack (p src : TaskMemory) (m : Memory) (hne : p.user_sp + 4096 ≤ p.frame ∨
    p.frame + 4096 ≤ p.user_sp) (hx : x < 4096) :
    p.copyRest src m (p.user_sp + x) = m (src.user_sp + x) := by
  have hsize : PGSIZE = 4096 := rfl
  have hframe : frameSize = 2048 := rfl
  rw [copyRest, setFrameKernelSp, store_same _ _ _ _ _ (by omega), copy_same _ _ _ _ _ (by omega), copy,
    if_pos (by omega), Nat.add_sub_cancel_left]

/-- The members that `CopyFrom` gives to the child. -/
def inherit (p src : TaskMemory) : TaskMemory :=
  { p with
    used_address := fun i => if i < src.used_address_size then src.used_address i else p.used_address i
    used_address_size := src.used_address_size }

theorem inherit_inRegion (p src : TaskMemory) (x : ℕ) :
    (p.inherit src).InRegion x ↔ src.InRegion x := by
  refine exists_congr fun i => and_congr_right fun hi => ?_
  have hi' : (i : ℕ) < src.used_address_size := hi
  simp only [inherit, if_pos hi']

theorem inherit_uses (p src : TaskMemory) (x : ℕ) : (p.inherit src).Uses x ↔ src.Uses x :=
  or_congr_left (inherit_inRegion p src x)

/-- `CopyFrom` after a copy of the regions that succeeds. -/
theorem copyMemoryOf_eq (h : src.copyRegions v p.page_table 0 src.used_address_size = .ok (true, v'))
    (hsize : src.used_address_size ≤ 16) :
    p.copyMemoryOf src v = .ok (true, p.inherit src, { v' with mem := p.copyRest src v'.mem }) := by
  rw [copyMemoryOf, h, ok_bind]
  simp only [not_true, if_false, if_neg (show ¬ src.used_address_size > 16 by omega)]
  rfl

/-! ## The copy -/

theorem Forkable.source (h : src.Forkable v L) (hl : OnList v L) :
    Source v src.page_table (pageTree v.mem src.page_table) L :=
  ⟨isTree_tree _ _ _, fun q a hq => (h.page q a hq).1, fun q a hq => (h.page q a hq).2, hl.page⟩

theorem Forkable.va_le (h : src.Forkable v L) (hx : src.Uses x) : x ≤ MAX_SUPPORT_VA := by
  rcases hx with ⟨i, hi, hx⟩ | ⟨-, hx⟩
  · exact (h.mapped i hi x hx).1
  · rw [getUserSpVa_eq] at hx
    simp only [MAX_SUPPORT_VA]
    omega

/-- The free pages without the two pages of the child that are not in its tree. -/
def spare (p : TaskMemory) (L : List ℕ) : List ℕ :=
  L.filter fun c => c ≠ p.frame ∧ c ≠ p.kernel_sp

theorem mem_spare {c : ℕ} : c ∈ p.spare L ↔ c ∈ L ∧ c ≠ p.frame ∧ c ≠ p.kernel_sp := by
  rw [spare, List.mem_filter, decide_eq_true_eq]

/-- The parent is not changed by `Init`. -/
theorem Forkable.after_init (h : src.Forkable v L) (hl : OnList v L)
    (h₁ : Initialised v L p₁ v₁ T L') :
    pageTree v₁.mem src.page_table = pageTree v.mem src.page_table ∧
      perm v₁.mem (pageTree v.mem src.page_table) = perm v.mem (pageTree v.mem src.page_table) ∧
      Source v₁ src.page_table (pageTree v₁.mem src.page_table) (p₁.spare L) ∧
      src.Forkable v₁ (p₁.spare L) := by
  have hs := h.source hl
  have htree : pageTree v₁.mem src.page_table = pageTree v.mem src.page_table :=
    (hs.tree h₁.same).eq_tree.symm
  have hperm := hs.perm h₁.same
  refine ⟨htree, hperm, ?_, h.size_le, h.le, ?_, h.disjoint, h.stack_disjoint, ?_, ?_, ?_, ?_⟩
  · rw [htree]
    exact ⟨hs.tree h₁.same, hs.page, fun q a hq ha => hs.out q a hq (mem_spare.mp ha).1,
      fun c hc => hl.page c (mem_spare.mp hc).1⟩
  · rw [htree]
    exact h.mapped
  · rw [htree]
    exact h.stack_mapped
  · rw [htree, hperm]
    exact h.stack_perm
  · rw [htree]
    exact fun q a hq => ⟨hs.page q a hq, fun ha => hs.out q a hq (mem_spare.mp ha).1⟩
  · exact ⟨h.frame.1, fun ha => h.frame.2 (mem_spare.mp ha).1⟩

/-- After `Init` nothing is copied yet. -/
theorem Initialised.copying (h : Initialised v L p₁ v₁ T L') (S : List (Fin 512) → Option ℕ) :
    Copying v₁ S (p₁.spare L) p₁.user_sp v₁ p₁.page_table T L' (src.Before 0) := by
  refine ⟨h.space, Same.refl _ _, fun c hc => mem_spare.mpr ⟨h.free_sub c hc, ?_, ?_⟩,
    fun q a hq => mem_spare.mpr ⟨h.tree_sub q a hq, ?_, ?_⟩, ?_,
    fun q hq hne => ⟨userStackVa, .inl rfl, h.only q hq hne⟩, h.stack_mapped, h.stack_perm⟩
  · exact fun he => h.frame.2.1 (he ▸ hc)
  · exact fun he => h.kernel_sp.2.1 (he ▸ hc)
  · exact fun he => h.frame.2.2 q (he ▸ hq)
  · exact fun he => h.kernel_sp.2.2 q (he ▸ hq)
  · rintro x ⟨i, hi, -⟩
    exact absurd hi (Nat.not_lt_zero _)

/-- The address space of a child after `Init` and `CopyFrom` of `src`, which had the tree `S`. -/
structure Copied (src p : TaskMemory) (v : VirtualMemory) (S : List (Fin 512) → Option ℕ)
    (L : List ℕ) (w : VirtualMemory) (T : List (Fin 512) → Option ℕ) (L' : List ℕ) : Prop where
  space : AddressSpace w p.page_table T L'
  same : Same v.mem w.mem fun i => ¬ InPages L i
  mapped : ∀ x, src.Uses x → ∃ a b, S (path x) = some a ∧ T (path x) = some b ∧
    w.mem (b + x % 4096) = v.mem (a + x % 4096) ∧ perm w.mem T x = perm v.mem S x
  only : ∀ q, q ≠ [] → T q ≠ none → q ∈ src.treePaths
  tree_sub : ∀ q a, T q = some a → a ∈ p.spare L
  free_sub : ∀ c ∈ L', c ∈ p.spare L
  frame : p.frame ∈ L
  kernel_sp : p.kernel_sp ∈ L
  frame_ne : p.frame ≠ p.kernel_sp

/-- The last writes of `CopyFrom` finish the copy. -/
theorem Copied.of_copying (hl : OnList v L) (hsrc : src.Forkable v L) (h₁ : Initialised v L p₁ v₁ T L')
    {T₂ : List (Fin 512) → Option ℕ}
    (h : Copying v₁ (pageTree v₁.mem src.page_table) (p₁.spare L) p₁.user_sp v₂ p₁.page_table T₂ L₂
      src.InRegion) :
    src.Copied p₁ v (pageTree v.mem src.page_table) L
    { v₂ with mem := p₁.copyRest src v₂.mem } T₂ L₂ := by
  obtain ⟨htree₁, hperm₁, hs₁, -⟩ := hsrc.after_init hl h₁
  have hs := hsrc.source hl
  have hstackF : p₁.user_sp ∈ p₁.spare L := h.tree_sub _ _ h.stack_mapped
  have hframe : IsPage p₁.frame := hl.page _ h₁.frame.1
  have hstackp : IsPage p₁.user_sp := hs₁.pages _ hstackF
  have hapart := hstackp.apart hframe (mem_spare.mp hstackF).2.1
  have hrest := copyRest_same p₁ src v₂.mem
  -- only the stack page of the tree is written
  have hpage : ∀ q a, T₂ q = some a → q ≠ path userStackVa → ∀ i, a ≤ i → i < a + 4096 →
      p₁.copyRest src v₂.mem i = v₂.mem i := by
    intro q a hq hne i hi hi'
    have hap := h.space.page q a hq
    have hu := hap.apart hstackp fun he => hne (h.space.inj q _ a hq (he ▸ h.stack_mapped))
    have hf := hap.apart hframe (mem_spare.mp (h.tree_sub q a hq)).2.1
    exact hrest i ⟨by omega, by omega⟩
  have htables : Same v₂.mem (p₁.copyRest src v₂.mem) (InTables T₂) := by
    rintro i ⟨q, a, hq, hlt, hi, hi'⟩
    refine hpage q a hq ?_ i hi hi'
    rintro rfl
    rw [path, length_indices] at hlt
    omega
  refine ⟨h.space.of_same ?_, ?_, fun x hx => ?_, fun q hq hne => ?_, h.tree_sub, h.free_sub, h₁.frame.1,
    h₁.kernel_sp.1, h₁.frame_ne⟩
  · rintro i (⟨c, hc, hi, hi'⟩ | hi)
    · have hcp := h.space.list.page c hc
      have hu := hcp.apart hstackp fun he => h.space.fresh _ _ h.stack_mapped (he ▸ hc)
      have hf := hcp.apart hframe (mem_spare.mp (h.free_sub c hc)).2.1
      exact hrest i ⟨by omega, by omega⟩
    · exact htables i hi
  · refine h₁.same.trans ((h.same.mono fun i hi hin => hi (inPages_mono
      (fun c hc => (mem_spare.mp hc).1) hin)).trans (hrest.mono fun i hi => ⟨?_, ?_⟩))
    · by_contra hin
      exact hi ⟨p₁.user_sp, (mem_spare.mp hstackF).1, by omega, by omega⟩
    · by_contra hin
      exact hi ⟨p₁.frame, h₁.frame.1, by omega, by omega⟩
  · have hmod : x % 4096 < 4096 := Nat.mod_lt _ (by omega)
    rcases hx with hx | hx
    · obtain ⟨a, b, ha, hb, hbyte, hk⟩ := h.mapped x hx
      rw [htree₁] at ha hk
      obtain ⟨i, hi, hxi⟩ := hx
      have hne : path x ≠ path userStackVa := by
        intro he
        refine hsrc.stack_disjoint i hi x hxi ((path_inj ?_ (by decide)).mp he)
        have := (hsrc.mapped i hi x hxi).1
        simp only [MAX_SUPPORT_VA] at this
        omega
      refine ⟨a, b, ha, hb, ?_, by rw [perm_of_same htables, hk, hperm₁]⟩
      calc p₁.copyRest src v₂.mem (b + x % 4096) = v₂.mem (b + x % 4096) :=
            hpage _ b hb hne _ (by omega) (by omega)
        _ = v₁.mem (a + x % 4096) := hbyte
        _ = v.mem (a + x % 4096) := hs.byte_eq h₁.same ha (by omega) (by omega)
    · have hdiv : x / 4096 = userStackVa / 4096 := by
        rw [getUserSpVa_eq, userStackVa_eq] at hx
        rw [userStackVa_eq]
        omega
      have hpath : path x = path userStackVa := indices_congr hdiv 2 3
      have hsp := hsrc.stack_mapped
      refine ⟨src.user_sp, p₁.user_sp, by rw [hpath, hsp], by rw [hpath, h.stack_mapped], ?_, ?_⟩
      · calc p₁.copyRest src v₂.mem (p₁.user_sp + x % 4096) = v₂.mem (src.user_sp + x % 4096) :=
              copyRest_stack p₁ src v₂.mem hapart hmod
          _ = v₁.mem (src.user_sp + x % 4096) :=
              hs₁.byte_eq h.same (by rw [htree₁]; exact hsp) (by omega) (by omega)
          _ = v.mem (src.user_sp + x % 4096) := hs.byte_eq h₁.same hsp (by omega) (by omega)
      · rw [perm_congr hdiv, perm_of_same htables, h.stack_perm, perm_congr hdiv, hsrc.stack_perm]
  · obtain ⟨x, hx, hj⟩ := h.only q hq hne
    refine ⟨x, ?_, hj⟩
    rcases hx with rfl | hx
    · exact .inr (by decide)
    · exact .inl hx

/-- The mapped pages of a child are those of its parent. -/
theorem Copied.mapped_iff {S : List (Fin 512) → Option ℕ} (h : src.Copied p v S L w T L')
    {q : List (Fin 512)} (hq : q.length = 3) : T q ≠ none ↔ ∃ x, src.Uses x ∧ q = path x := by
  constructor
  · intro hne
    obtain ⟨x, hx, j, hj, rfl⟩ := h.only q (by rintro rfl; simp at hq) hne
    rw [length_indices] at hq
    obtain rfl : j = 2 := by omega
    exact ⟨x, hx, rfl⟩
  · rintro ⟨x, hx, rfl⟩
    obtain ⟨a, b, -, hb, -⟩ := h.mapped x hx
    rw [hb]
    simp

/-- A child that has the pages of its parent, each copied to a page that was free. -/
structure ForkOf (src child : TaskMemory) (v : VirtualMemory) (L : List ℕ) (w : VirtualMemory) :
    Prop where
  copied : ∀ x, src.Uses x → ∃ a b k,
    w.vaToPA src.page_table x 0 = .ok (a + x % PGSIZE, k) ∧
      w.vaToPA child.page_table x 0 = .ok (b + x % PGSIZE, k) ∧
      pageTree w.mem child.page_table (path x) = some b ∧
      w.mem (b + x % PGSIZE) = w.mem (a + x % PGSIZE)
  only : ∀ q, q.length = 3 →
    (pageTree w.mem child.page_table q ≠ none ↔ ∃ x, src.Uses x ∧ q = path x)
  inj : ∀ q q' a, pageTree w.mem child.page_table q = some a →
    pageTree w.mem child.page_table q' = some a → q = q'
  new : ∀ q a, pageTree w.mem child.page_table q = some a → a ∈ L ∧ a ≠ child.frame ∧
    a ≠ child.kernel_sp ∧ a ≠ src.frame ∧ ∀ q', pageTree v.mem src.page_table q' ≠ some a
  regions : ∀ x, child.InRegion x ↔ src.InRegion x
  parent : pageTree w.mem src.page_table = pageTree v.mem src.page_table
  same : Same v.mem w.mem fun i => ¬ InPages L i

theorem Copied.forkOf (hl : OnList v L) (hsrc : src.Forkable v L)
    (h : src.Copied p v (pageTree v.mem src.page_table) L w T L') :
    src.ForkOf (p.inherit src) v L w := by
  have hs := hsrc.source hl
  have htree : pageTree w.mem (p.inherit src).page_table = T := h.space.isTree.eq_tree.symm
  refine ⟨fun x hx => ?_, ?_, ?_, ?_, inherit_inRegion p src, (hs.tree h.same).eq_tree.symm, h.same⟩
  · obtain ⟨a, b, ha, hb, hbyte, hk⟩ := h.mapped x hx
    have hle := hsrc.va_le hx
    have hlt : x < 2 ^ 64 := by
      simp only [MAX_SUPPORT_VA] at hle
      omega
    have hmod : x % 4096 < 4096 := Nat.mod_lt _ (by omega)
    refine ⟨a, b, _, hs.vaToPA h.same hlt ha 0, ?_, by rw [htree, hb], ?_⟩
    · rw [← hk]
      exact vaToPA_eq h.space.isTree h.space.page hlt hb 0
    · exact hbyte.trans (hs.byte_eq h.same ha (by omega) (by omega)).symm
  · rw [htree]
    exact fun q hq => h.mapped_iff hq
  · rw [htree]
    exact h.space.inj
  · rw [htree]
    intro q a hq
    obtain ⟨haL, hf, hk⟩ := mem_spare.mp (h.tree_sub q a hq)
    exact ⟨haL, hf, hk, fun he => hsrc.frame.2 (he ▸ haL), fun q' hq' => hs.out q' a hq' haL⟩

/-- The child can be torn down. -/
theorem Copied.proper (hl : OnList v L) (hsrc : src.Forkable v L) {S : List (Fin 512) → Option ℕ}
    (h : src.Copied p v S L w T L') : (p.inherit src).Proper w L' := by
  have htree : pageTree w.mem (p.inherit src).page_table = T := h.space.isTree.eq_tree.symm
  have hframe : p.frame ∉ L' := fun hf => (mem_spare.mp (h.free_sub _ hf)).2.1 rfl
  have hkernel : p.kernel_sp ∉ L' := fun hk => (mem_spare.mp (h.free_sub _ hk)).2.2 rfl
  refine ⟨h.space.list, hsrc.size_le, ?_, ?_, ?_, ?_,
    fun x hx => hsrc.va_le ((inherit_uses p src x).mp hx), ⟨hl.page _ h.frame, hframe, ?_⟩,
    ⟨hl.page _ h.kernel_sp, hkernel, ?_⟩, h.frame_ne⟩
  all_goals rw [htree]
  · exact fun q a hq => ⟨h.space.page q a hq, h.space.fresh q a hq⟩
  · exact h.space.inj
  · intro q hq
    rw [h.mapped_iff hq]
    exact exists_congr fun x => and_congr_left' (inherit_uses p src x).symm
  · intro q hq
    obtain ⟨x, hx, j, hj, hpre⟩ : ∃ x, src.Uses x ∧ ∃ j ≤ 3, q = indices x 2 j := by
      by_cases hnil : q = []
      · exact ⟨userStackVa, .inr (by decide), 0, by omega, hnil⟩
      · obtain ⟨x, hx, j, hj, he⟩ := h.only q hnil hq
        exact ⟨x, hx, j + 1, by omega, he⟩
    obtain ⟨q', hq'⟩ : ∃ q', q ++ q' = path x := by
      rw [hpre]
      obtain rfl | rfl | rfl | rfl : j = 0 ∨ j = 1 ∨ j = 2 ∨ j = 3 := by omega
      · exact ⟨path x, rfl⟩
      · exact ⟨indices x 1 2, rfl⟩
      · exact ⟨indices x 0 1, rfl⟩
      · exact ⟨[], List.append_nil _⟩
    refine ⟨q', ?_⟩
    rw [hq']
    exact ⟨length_indices x 2 3, (h.mapped_iff (length_indices x 2 3)).mpr ⟨x, hx, rfl⟩⟩
  · exact fun q hq => (mem_spare.mp (h.tree_sub q _ hq)).2.1 rfl
  · exact fun q hq => (mem_spare.mp (h.tree_sub q _ hq)).2.2 rfl

/-- The run of `Init` and `CopyFrom`. -/
theorem fork_eq (hl : OnList v L) (hsrc : src.Forkable v L) (hp : p.console = .none)
    (hfree : src.treePaths.ncard + 3 ≤ v.size_) :
    ∃ p₁ v₁ w T L', p.init v true = .ok (true, p₁, v₁) ∧
      p₁.copyMemoryOf src v₁ = .ok (true, p₁.inherit src, w) ∧
      src.Copied p₁ v (pageTree v.mem src.page_table) L w T L' := by
  have hpaths := src.finite_treePaths
  rw [Set.ncard_eq_toFinset_card _ hpaths] at hfree
  have hwant : ∀ x, src.Uses x → ∀ j < 3, indices x 2 (j + 1) ∈ hpaths.toFinset := fun x hx j hj =>
    hpaths.mem_toFinset.mpr ⟨x, hx, j, hj, rfl⟩
  have hnil : [] ∉ hpaths.toFinset := by
    intro hmem
    obtain ⟨x, -, j, -, he⟩ := hpaths.mem_toFinset.mp hmem
    have hlen := congrArg List.length he
    rw [length_indices, List.length_nil] at hlen
    omega
  obtain ⟨p₁, v₁, T₁, L₁, hinit, h₁, hM₁⟩ :=
    init_eq (n := 0) hl hp hfree hnil (hwant userStackVa (.inr (by decide)))
  obtain ⟨-, -, hs₁, hsrc₁⟩ := hsrc.after_init hl h₁
  obtain ⟨v₂, T₂, L₂, heq, hcopy, -⟩ := copyRegions_eq hsrc₁ hs₁ (h₁.copying _) (Nat.zero_add _) hM₁
    fun x hx => hwant x (.inl hx)
  exact ⟨p₁, v₁, _, T₂, L₂, hinit, copyMemoryOf_eq heq hsrc.size_le, .of_copying hl hsrc h₁ hcopy⟩

/-- `Init` and `CopyFrom` give the child a copy of the address space of its parent and leave the parent
as it is. -/
theorem fork_copies_memory (hl : OnList v L) (hsrc : src.Forkable v L) (hp : p.console = .none)
    (hfree : src.treePaths.ncard + 3 ≤ v.size_) :
    ∃ p₁ v₁ child w, p.init v true = .ok (true, p₁, v₁) ∧
      p₁.copyMemoryOf src v₁ = .ok (true, child, w) ∧ src.ForkOf child v L w := by
  obtain ⟨p₁, v₁, w, T, L', hinit, hcopy, hcopied⟩ := fork_eq hl hsrc hp hfree
  exact ⟨p₁, v₁, _, w, hinit, hcopy, hcopied.forkOf hl hsrc⟩

/-- The child of a fork can be torn down. -/
theorem fork_child_proper (hl : OnList v L) (hsrc : src.Forkable v L) (hp : p.console = .none)
    (hfree : src.treePaths.ncard + 3 ≤ v.size_) :
    ∃ p₁ v₁ child w, p.init v true = .ok (true, p₁, v₁) ∧
      p₁.copyMemoryOf src v₁ = .ok (true, child, w) ∧ ∃ L', child.Proper w L' ∧ ∀ c ∈ L', c ∈ L := by
  obtain ⟨p₁, v₁, w, T, L', hinit, hcopy, hcopied⟩ := fork_eq hl hsrc hp hfree
  exact ⟨p₁, v₁, _, w, hinit, hcopy, L', hcopied.proper hl hsrc,
    fun c hc => (mem_spare.mp (hcopied.free_sub c hc)).1⟩

/-! ## A process with one region -/

/-- A process that `Init` made and that has the region from 5 to 105. -/
theorem exists_forkable :
    ∃ (src p : TaskMemory) (v : VirtualMemory) (L : List ℕ), OnList v L ∧ src.Forkable v L ∧
      p.console = .none ∧
      src.treePaths.ncard + 3 ≤ v.size_ ∧ src.used_address_size = 1 ∧ src.used_address 0 = (5, 105) := by
  obtain ⟨M, hM⟩ : ∃ M : Finset (List (Fin 512)), M =
      (Finset.range 3).image (fun j => indices userStackVa 2 (j + 1)) ∪
        (Finset.range 3).image (fun j => indices 5 2 (j + 1)) := ⟨_, rfl⟩
  have hmem : ∀ q, q ∈ M ↔ ∃ x, (x = userStackVa ∨ x = 5) ∧ ∃ j < 3, q = indices x 2 (j + 1) := by
    intro q
    simp [hM, eq_comm]
  have hcard : M.card ≤ 3 + 3 := by
    rw [hM]
    exact (Finset.card_union_le _ _).trans (Nat.add_le_add Finset.card_image_le Finset.card_image_le)
  have hwant : ∀ x, x = userStackVa ∨ x = 5 → ∀ j < 3, indices x 2 (j + 1) ∈ M := fun x hx j hj =>
    (hmem _).mpr ⟨x, hx, j, hj, rfl⟩
  have hnil : [] ∉ M := by
    intro hq
    obtain ⟨x, -, j, -, he⟩ := (hmem _).mp hq
    simp [indices] at he
  obtain ⟨v, L, hl, hlen, -⟩ := exists_onList 18 (by omega)
  obtain ⟨p, v₁, T, L₁, -, h₁, hM₁⟩ := init_eq (n := 9) (p := ⟨0, 0, 0, fun _ => (0, 0), 0, 0, 0, .none⟩)
    hl rfl (by rw [hl.size]; omega) hnil (hwant _ (.inl rfl))
  have hnone : T (path 5) = none := by
    by_contra hne
    obtain ⟨j, hj, he⟩ := h₁.only (path 5) (by simp [path, indices]) hne
    have hlen := congrArg List.length he
    rw [path, length_indices, length_indices] at hlen
    obtain rfl : j = 2 := by omega
    exact absurd ((path_inj (by omega) (by decide)).mp he) (by decide)
  obtain ⟨w, T', L', c, -, hspace, hext, hc, -, hM', -⟩ := h₁.space.mapMemory_page (x := 5) (y := 105)
    (k := PTE.R ||| PTE.W ||| PTE.U) (by omega) (by omega) (by decide) hnone (by decide) (by decide) hM₁
    (hwant _ (.inr rfl))
  have htree : pageTree w.mem p.page_table = T' := hspace.isTree.eq_tree.symm
  have hpath : ∀ x, 5 ≤ x → x < 105 → indices x = indices 5 := by
    intro x hx hx'
    funext i k
    exact indices_congr (by omega) i k
  refine ⟨{ p with used_address_size := 1, used_address := fun _ => (5, 105) },
    ⟨0, 0, 0, fun _ => (0, 0), 0, 0, 0, .none⟩, w, L', hspace.list, ⟨?_, fun i _ => ?_,
      fun i _ x hx => ?_, fun i j hi hj hne => ?_, fun i _ x hx => ?_, ?_, ?_, ?_, ?_⟩, rfl, ?_,
      rfl, rfl⟩
  · exact show 1 ≤ 16 by omega
  · exact show (5 : UInt64).toNat ≤ (105 : UInt64).toNat by decide
  · obtain ⟨hx, hx'⟩ : 5 ≤ x ∧ x < 105 := hx
    refine ⟨by simp only [MAX_SUPPORT_VA]; omega, ?_⟩
    rw [htree, path, hpath x hx hx', ← path, hc]
    simp
  · exact absurd (Fin.ext (by simp only at hi hj; omega)) hne
  · obtain ⟨hx, hx'⟩ : 5 ≤ x ∧ x < 105 := hx
    rw [userStackVa_eq]
    simp only [PGSIZE]
    omega
  · rw [htree]
    exact hext.keep _ _ h₁.stack_mapped
  · rw [htree, hext.perm_eq h₁.stack_mapped h₁.space.isTree, h₁.stack_perm]
  · rw [htree]
    exact fun q a hq => ⟨hspace.page q a hq, hspace.fresh q a hq⟩
  · exact ⟨hl.page _ h₁.frame.1, fun hf => h₁.frame.2.1 (hext.sub _ hf)⟩
  · have hsub : treePaths { p with used_address_size := 1, used_address := fun _ => (5, 105) } ⊆ ↑M := by
      rintro q ⟨x, hx, j, hj, rfl⟩
      rw [Finset.mem_coe, hmem]
      rcases hx with ⟨i, -, hx, hx'⟩ | ⟨hx, hx'⟩
      · exact ⟨5, .inr rfl, j, hj, by rw [hpath x hx hx']⟩
      · refine ⟨userStackVa, .inl rfl, j, hj, indices_congr ?_ 2 _⟩
        rw [getUserSpVa_eq, userStackVa_eq] at *
        omega
    have hle := Set.ncard_le_ncard hsub M.finite_toSet
    rw [Set.ncard_coe_finset] at hle
    have hM'' : _ + 9 ≤ L'.length := hM'
    rw [hspace.list.size]
    omega

theorem fork_copies_memory_one :
    ∃ (src child : TaskMemory) (v w : VirtualMemory) (L : List ℕ), src.used_address_size = 1 ∧
      src.used_address 0 = (5, 105) ∧ src.ForkOf child v L w := by
  obtain ⟨src, p, v, L, hl, hsrc, hp, hfree, hsize, hregion⟩ := exists_forkable
  obtain ⟨-, -, child, w, -, -, hfork⟩ := fork_copies_memory hl hsrc hp hfree
  exact ⟨src, child, v, w, L, hsize, hregion, hfork⟩

theorem freePageTable_conserves_one :
    ∃ (p : TaskMemory) (v v' : VirtualMemory) (L P : List ℕ), p.used_address_size = 1 ∧
      p.used_address 0 = (5, 105) ∧ p.freePageTable v true = .ok v' ∧ OnList v' (P ++ L) ∧
      p.page_table ∈ P := by
  obtain ⟨src, p, v, L, hl, hsrc, hp, hfree, hsize, hregion⟩ := exists_forkable
  obtain ⟨p₁, -, w, T, L', -, -, hcopied⟩ := fork_eq hl hsrc hp hfree
  obtain ⟨v', P, heq, hlist, -, hmem⟩ := freePageTable_conserves (hcopied.proper hl hsrc)
  refine ⟨p₁.inherit src, w, v', L', P, hsize, ?_, heq, hlist, (hmem _).mpr (.inl ⟨[], ?_⟩)⟩
  · have hpos : ((0 : Fin 16) : ℕ) < src.used_address_size := by rw [hsize]; decide
    simp only [inherit, if_pos hpos, hregion]
  · exact (isTree_tree _ _ _).root

end TaskMemory

end OrangeOs.Kernel
