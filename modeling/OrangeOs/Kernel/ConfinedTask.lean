import OrangeOs.Kernel.Confined
import OrangeOs.Kernel.FailedFork
import OrangeOs.Kernel.LoadImage

/-! # A new process that stays within the free pages

`Init` builds a process from free pages, `ExecuteImpl` loads any file into it, and `FreePageTable`
frees what it finds. None of them leaves the pages that were free, and only the last one can put the
frame page back.
-/

namespace OrangeOs.Kernel

open Memory VirtualMemory TaskMemory Elf

variable {σ : Type} {S : StreamBase σ} {F : Set ℕ} {A : ℕ → Prop} {m m' : Memory}
    {a b k i n offset target_type : ℕ}
  {ph h junk : List UInt8} {s s' s'' : Loading σ} {t t' t'' : TaskMemory} {L : List ℕ}
  {v v' : VirtualMemory}
  {r : Bool}

/-! ## `ExecuteImpl` -/

/-- The members that say where the pages of the process are. -/
structure Kept (t t' : TaskMemory) : Prop where
  page_table : t'.page_table = t.page_table
  frame : t'.frame = t.frame
  user_sp : t'.user_sp = t.user_sp

theorem Kept.refl (t : TaskMemory) : Kept t t := ⟨rfl, rfl, rfl⟩

theorem Kept.trans (h : Kept t t') (h' : Kept t' t'') : Kept t t'' :=
  ⟨h'.page_table.trans h.page_table, h'.frame.trans h.frame, h'.user_sp.trans h.user_sp⟩

theorem addRegion_kept (hadd : t.addRegion a b = .ok t') : Kept t t' := by
  rw [TaskMemory.addRegion] at hadd
  split at hadd
  · obtain rfl := Except.ok.inj hadd
    exact ⟨rfl, rfl, rfl⟩
  · cases hadd

theorem addrCastUp_aligned (y : ℕ) : addrCastUp y % 4096 = 0 := by
  have hdown : addrCastUp y = addrCastDown ((y + PGSIZE - 1) % 2 ^ 64) := (rfl)
  rw [hdown, addrCastDown_eq (Nat.mod_lt _ (by decide))]
  omega

/-- `MapMemory` of the segment comes to the page of an address. -/
def Segment.Reaches (sg : Segment) (a : ℕ) : Prop :=
  addrCastDown sg.vaddr ≤ a ∧ a < addrCastUp ((sg.vaddr + sg.memsz) % 2 ^ 64)

/-- `s'` is `s` after a part of the loader, which keeps the pages of the addresses in `A`. -/
structure LoadsWithin (S : StreamBase σ) (F : Set ℕ) (m : Memory) (A : ℕ → Prop)
    (s s' : Loading σ) : Prop where
  after : ∀ f, S.After f s.stream → S.After f s'.stream
  confined : Confined F m s.process.page_table s'.vm
  kept : Kept s.process.toTaskMemory s'.process.toTaskMemory
  tree : ∀ a < 2 ^ 38, A a → pageTree s'.vm.mem s.process.page_table (path a) =
    pageTree s.vm.mem s.process.page_table (path a)

namespace LoadsWithin

/-- Nothing of the memory has changed. -/
theorem still (hc : Confined F m s.process.page_table s.vm) (hvm : s'.vm = s.vm)
    (hprocess : s'.process.toTaskMemory = s.process.toTaskMemory)
    (hafter : ∀ f, S.After f s.stream → S.After f s'.stream) : LoadsWithin S F m A s s' where
  after := hafter
  confined := by rwa [hvm]
  kept := by
    rw [hprocess]
    exact Kept.refl _
  tree a _ _ := by rw [hvm]

theorem trans (h : LoadsWithin S F m A s s') (h' : LoadsWithin S F m A s' s'') :
    LoadsWithin S F m A s s'' where
  after f hf := h'.after f (h.after f hf)
  confined := h.kept.page_table ▸ h'.confined
  kept := h.kept.trans h'.kept
  tree a ha hA := by
    have hlast := h'.tree a ha hA
    rw [h.kept.page_table] at hlast
    rw [hlast, h.tree a ha hA]

end LoadsWithin

/-- A segment, whatever its header says. -/
theorem loadSegmentOf_within (hc : Confined F m s.process.page_table s.vm)
    (hA : ∀ a, A a → ¬ (Segment.ofHeader offset ph).Reaches a)
    (hrun : loadSegmentOf S offset ph s = .ok (r, s')) : LoadsWithin S F m A s s' := by
  rw [loadSegmentOf] at hrun
  split at hrun
  · obtain ⟨-, rfl⟩ := Prod.mk.inj (Except.ok.inj hrun)
    exact .still hc rfl rfl fun _ hf => hf
  · obtain ⟨⟨mapped, v₁⟩, hmap, hrun⟩ := bind_eq_ok.mp hrun
    obtain ⟨⟨loaded, v₂, st⟩, hload, hrun⟩ := bind_eq_ok.mp hrun
    have hva : (p_vaddr ph + offset) % 2 ^ 64 < 2 ^ 64 := Nat.mod_lt _ (by decide)
    obtain ⟨h₁, htree₁⟩ := hc.mapMemory hva (privi_lt ph) (lift_eq_ok.mp hmap)
    obtain ⟨h₂, htree₂⟩ := h₁.loadSegment hva (lift_eq_ok.mp hload)
    have hfilled : LoadsWithin S F m A s { s with vm := v₂, stream := st } := by
      refine ⟨fun f hf => loadSegment_after (hf.seek _) (lift_eq_ok.mp hload), h₂,
        Kept.refl _, fun a ha hAa => ?_⟩
      refine (congrFun htree₂ _).trans
        (htree₁ _ (length_indices a 2 3) fun va hle hbeg hend he => hA a hAa ?_)
      have hMAX : MAX_SUPPORT_VA = 2 ^ 38 - 1 := rfl
      have hpage := (path_inj (by omega) (by omega)).mp he
      have hdown := addrCastDown_eq hva
      have hup := addrCastUp_aligned (((p_vaddr ph + offset) % 2 ^ 64 + p_memsz ph) % 2 ^ 64)
      exact ⟨show addrCastDown ((p_vaddr ph + offset) % 2 ^ 64) ≤ a by omega,
        show a < addrCastUp (((p_vaddr ph + offset) % 2 ^ 64 + p_memsz ph) % 2 ^ 64) by omega⟩
    simp only at hrun
    split at hrun
    · obtain ⟨-, rfl⟩ := Prod.mk.inj (Except.ok.inj hrun)
      exact hfilled
    split at hrun
    · obtain ⟨-, rfl⟩ := Prod.mk.inj (Except.ok.inj hrun)
      exact hfilled
    · obtain ⟨t, hadd, hrun⟩ := bind_eq_ok.mp hrun
      obtain ⟨-, rfl⟩ := Prod.mk.inj (Except.ok.inj hrun)
      exact { hfilled with kept := addRegion_kept hadd }

theorem loadHeader_within (hc : Confined F m s.process.page_table s.vm)
    (hA : p_type ph = PT_LOAD → ∀ a, A a → ¬ (Segment.ofHeader offset ph).Reaches a)
    (hrun : loadHeader S target_type offset ph s = .ok (r, s')) : LoadsWithin S F m A s s' := by
  obtain ⟨s₁, heq, hvm, hstream, hprocess⟩ := loadHeader_eq S target_type offset ph s
  have hfirst : LoadsWithin S F m A s s₁ := .still hc hvm hprocess fun _ hf => hstream ▸ hf
  rw [heq] at hrun
  split at hrun
  · obtain ⟨-, rfl⟩ := Prod.mk.inj (Except.ok.inj hrun)
    exact hfirst
  · next htype =>
    refine hfirst.trans (loadSegmentOf_within ?_ (hA (not_not.mp htype)) hrun)
    rw [hprocess]
    exact hfirst.confined

/-- The program headers that can be read spare an address. -/
def HeadersSpare (S : StreamBase σ) (f : σ) (offset : ℕ) (h junk : List UInt8) (n a : ℕ) : Prop :=
  ∀ st, S.After f st → ∀ j < n, ∀ ph,
    ph = (S.readForType (S.seek st ((e_phoff h + j * e_phentsize h) % 2 ^ 64)) junk phdrSize).1 →
      p_type ph = PT_LOAD → ¬ (Segment.ofHeader offset ph).Reaches a

/-- The loop over the program headers. -/
theorem loadFrom_within {f : σ} (hc : Confined F m s.process.page_table s.vm)
    (hf : S.After f s.stream) (hn : i + k = n)
    (hrun : loadFrom S target_type offset h junk s i k = .ok (r, s')) :
    LoadsWithin S F m (HeadersSpare S f offset h junk n) s s' := by
  induction k generalizing s i with
  | zero =>
    obtain ⟨-, rfl⟩ := Prod.mk.inj (Except.ok.inj hrun)
    exact .still hc rfl rfl fun _ hf => hf
  | succ k ih =>
    obtain ⟨ph, st, hread⟩ : ∃ ph st,
        S.readForType (S.seek s.stream ((e_phoff h + i * e_phentsize h) % 2 ^ 64)) junk phdrSize =
        (ph, st) := ⟨_, _, rfl⟩
    have hst : ∀ g, S.After g s.stream → S.After g st := fun g hg => by
      obtain rfl := congrArg Prod.snd hread
      exact (hg.seek _).read _
    rw [loadFrom, hread] at hrun
    obtain ⟨⟨loaded, s₁⟩, hheader, hrun⟩ := bind_eq_ok.mp hrun
    have hone : LoadsWithin S F m (HeadersSpare S f offset h junk n) s s₁ := by
      have hload := loadHeader_within (s := { s with stream := st })
          (A := HeadersSpare S f offset h junk n) hc
        (fun htype a ha => ha s.stream hf i (by omega) ph (by rw [hread]) htype) hheader
      exact ⟨fun g hg => hload.after g (hst g hg), hload.confined, hload.kept, hload.tree⟩
    cases loaded with
    | false =>
      obtain ⟨-, rfl⟩ := Prod.mk.inj (Except.ok.inj hrun)
      exact hone
    | true =>
      refine hone.trans (ih ?_ (hone.after f hf) (by omega) hrun)
      rw [hone.kept.page_table]
      exact hone.confined

/-- The header of the file spares an address, and so do its program headers. -/
def FileSpares (S : StreamBase σ) (f : σ) (offset : ℕ) (junk : List UInt8) (a : ℕ) : Prop :=
  HeadersSpare S f offset (header S f junk).1 junk (e_phnum (header S f junk).1) a

theorem load_within {entry : ℕ} (hc : Confined F m s.process.page_table s.vm)
    (hrun : load S target_type offset junk s = .ok (r, entry, s')) :
    LoadsWithin S F m (FileSpares S s.stream offset junk) s s' := by
  have hread : ∀ f, S.After f s.stream → S.After f (header S s.stream junk).2 :=
    fun f hf => (hf.seek 0).read _
  unfold load at hrun
  simp only at hrun
  split at hrun
  · obtain ⟨-, hrest⟩ := Prod.mk.inj (Except.ok.inj hrun)
    obtain ⟨-, rfl⟩ := Prod.mk.inj hrest
    exact .still hc rfl rfl hread
  · obtain ⟨⟨loaded, s₁⟩, hfrom, hrun⟩ := bind_eq_ok.mp hrun
    obtain ⟨-, hrest⟩ := Prod.mk.inj (Except.ok.inj hrun)
    obtain ⟨-, rfl⟩ := Prod.mk.inj hrest
    have hload := loadFrom_within
        (s := { s with stream := (header S s.stream junk).2 }) hc (hread _ .start)
      (Nat.zero_add _) hfrom
    exact ⟨fun f hf => hload.after f (hread f hf), hload.confined, hload.kept, hload.tree⟩

/-- The free pages are pages. -/
theorem apart_of_notMem {f x : ℕ} (hF : ∀ c ∈ F, IsPage c) (hf : IsPage f)
    (hfF : f ∉ F) (hx : InSet F x) :
    x < f ∨ f + 4096 ≤ x := by
  obtain ⟨c, hc, hcx, hcx'⟩ := hx
  have := (hF c hc).apart hf fun he => hfF (he ▸ hc)
  omega

/-- `ExecuteImpl` of any file. -/
theorem executeImpl_within {p p' : Task} {f : σ} (hF : ∀ c ∈ F, IsPage c)
    (hc : Confined F m p.page_table v)
    (hframe : IsPage p.frame) (hframeF : p.frame ∉ F)
    (hrun : executeImpl S junk f p v = .ok (r, p', v')) :
    Confined F v'.mem p.page_table v' ∧ Kept p.toTaskMemory p'.toTaskMemory ∧
      Same m v'.mem (fun x => ¬ InSet F x ∧ (x < p.frame + 248 ∨ p.frame + 256 ≤ x)) ∧
      ∀ a < 2 ^ 38, FileSpares S f 0 junk a →
        pageTree v'.mem p.page_table (path a) = pageTree v.mem p.page_table (path a) := by
  rw [executeImpl] at hrun
  obtain ⟨⟨loaded, entry, s₁⟩, hload, hrun⟩ := bind_eq_ok.mp hrun
  have hwithin := load_within (s := ⟨p, {}, v, f⟩) hc hload
  obtain ⟨-, hconfined, hkept, htree⟩ := hwithin
  simp only at hrun
  split at hrun
  · obtain ⟨-, hrest⟩ := Prod.mk.inj (Except.ok.inj hrun)
    obtain ⟨rfl, rfl⟩ := Prod.mk.inj hrest
    exact ⟨(hconfined.of_same (Same.refl _ _)).1, hkept, hconfined.same.mono fun x hx => hx.1, htree⟩
  · obtain ⟨-, hrest⟩ := Prod.mk.inj (Except.ok.inj hrun)
    obtain ⟨rfl, rfl⟩ := Prod.mk.inj hrest
    have hmepc : Same s₁.vm.mem (setFrameMepc s₁.vm.mem s₁.process.frame entry) fun x =>
        x < p.frame + 248 ∨ p.frame + 256 ≤ x := by
      rw [show s₁.process.frame = p.frame from hkept.frame]
      exact (store_same _ _ 8 entry).mono fun x hx => by omega
    obtain ⟨hconfined', htree'⟩ := hconfined.of_same (hmepc.mono fun x hx => by
      have := apart_of_notMem hF hframe hframeF hx
      omega)
    exact ⟨hconfined', hkept, (hconfined.same.mono fun x hx => hx.1).trans (hmepc.mono fun x hx => hx.2),
      fun a ha hA => (congrFun htree' _).trans (htree a ha hA)⟩

/-! ## `Init` -/

/-- `Init` takes the frame page, the root and the stack page from the list, and maps the last one. -/
theorem init_confined (hl : OnList v L) (ht : t.console = .none)
    (hrun : t.init v false = .ok (r, t', v')) :
    ∃ f root b L', L = f :: root :: b :: L' ∧ r = true ∧
      t' = { t with frame := f, page_table := root, user_sp := b, console := .device } ∧
      Confined { c | c ∈ root :: b :: L' } v'.mem root v' ∧
      pageTree v'.mem root (path userStackVa) = some b ∧
      Same v.mem v'.mem (fun x => ¬ InPages L x) ∧ v'.mem.load (f + 8) 8 = userStackVa + PGSIZE := by
  have hpop : ∀ {w w' : VirtualMemory} {L₀ : List ℕ} {c : ℕ}, OnList w L₀ → w.alloc = .ok (c, w') →
      ∃ L₁, L₀ = c :: L₁ ∧ c ≠ 0 ∧ OnList w' L₁ ∧ ZeroPage w'.mem c ∧
        Same w.mem w'.mem fun x => ¬ InPages L₀ x := by
    intro w w' L₀ c hw halloc
    cases L₀ with
    | nil => exact absurd hw.head_nil (alloc_ne_zero halloc).1
    | cons d L₁ =>
      obtain ⟨w₁, heq, hw₁, -, hzero, hsame⟩ := hw.alloc
      obtain ⟨rfl, rfl⟩ := Prod.mk.inj (Except.ok.inj (heq.symm.trans halloc))
      exact ⟨L₁, rfl, (alloc_ne_zero halloc).2, hw₁, hzero, hsame⟩
  rw [TaskMemory.init] at hrun
  obtain ⟨⟨f, v₁⟩, halloc₁, hrun⟩ := bind_eq_ok.mp hrun
  obtain ⟨L₁, rfl, hf, hl₁, -, hsame₁⟩ := hpop hl halloc₁
  simp only [if_neg hf] at hrun
  obtain ⟨⟨root, v₂⟩, halloc₂, hrun⟩ := bind_eq_ok.mp hrun
  obtain ⟨L₂, rfl, hroot, hl₂, hzero, hsame₂⟩ := hpop hl₁ halloc₂
  simp only [if_neg hroot] at hrun
  obtain ⟨⟨b, v₃⟩, halloc₃, hrun⟩ := bind_eq_ok.mp hrun
  obtain ⟨L₃, rfl, hb, hl₃, -, hsame₃⟩ := hpop hl₂ halloc₃
  simp only [if_neg hb] at hrun
  obtain ⟨⟨mapped, v₄⟩, hmap, hrun⟩ := bind_eq_ok.mp hrun
  have hnodup := hl.linked.nodup
  have hfpage := hl.page f (by simp)
  -- the tree of the new root
  have hspace : AddressSpace v₂ root (rootOnly root) (b :: L₃) := addressSpace_iff.mpr
    (.of_zeroPage hl₂ hzero (hl₁.page root (by simp)) (List.nodup_cons.mp hl₁.linked.nodup).1)
  have hconfined : Confined { c | c ∈ root :: b :: L₃ } v₂.mem root v₂ := by
    refine .of_space hspace (fun c hc => List.mem_cons_of_mem root hc) (fun q c hq => ?_) (Same.refl _ _)
    rw [(rootOnly_eq_some.mp hq).2]
    simp
  obtain ⟨h₄, hcase⟩ := hconfined.mapRound (show userStackVa % 4096 = 0 by decide)
    (show PTE.R ||| PTE.W ||| PTE.U < 1024 by decide) halloc₃ hmap
  rcases hcase with ⟨rfl, -, hstack, -⟩ | ⟨-, hmax, -⟩
  · simp only [not_true_eq_false, Bool.false_eq_true, false_and, if_false] at hrun
    obtain ⟨⟨kernel_sp, saved_sp, v₅⟩, hkernel, hrun⟩ := bind_eq_ok.mp hrun
    obtain ⟨rfl, hrest⟩ := Prod.mk.inj (Except.ok.inj hkernel)
    obtain ⟨rfl, rfl⟩ := Prod.mk.inj hrest
    simp only [ht, ne_eq, not_true_eq_false, if_false] at hrun
    obtain ⟨rfl, hrest⟩ := Prod.mk.inj (Except.ok.inj hrun)
    obtain ⟨rfl, rfl⟩ := Prod.mk.inj hrest
    have hframe := setFrame_same v₄.mem f (t.kernel_sp + PGSIZE) (userStackVa + PGSIZE)
    obtain ⟨h₅, htree⟩ := h₄.of_same (hframe.mono fun x hx =>
      apart_of_notMem (fun c hc => hl₁.page c hc) hfpage (List.nodup_cons.mp hnodup).1 hx)
    refine ⟨f, root, b, L₃, rfl, rfl, rfl, h₅, (congrFun htree _).trans hstack, ?_, ?_⟩
    · refine (hsame₁.trans (hsame₂.mono ?_)).trans ((h₄.same.mono ?_).trans (hframe.mono ?_))
      · exact fun x hx hin => hx (inPages_mono (fun c hc => List.mem_cons_of_mem f hc) hin)
      · rintro x hx ⟨c, hc, hr⟩
        exact hx ⟨c, List.mem_cons_of_mem f hc, hr⟩
      · intro x hx
        by_contra hin
        exact hx ⟨f, by simp, by omega, by omega⟩
    · exact load_store_of_lt _ _ (by decide)
  · exact absurd hmax (by decide)

/-- With five free pages it returns true. -/
theorem init_true (hl : OnList v L) (hlen : 5 ≤ L.length) (ht : t.console = .none) :
    ∃ t' v' L', t.init v false = .ok (true, t', v') ∧ OnList v' L' ∧ L'.length + 5 = L.length := by
  match L, hl with
  | f :: root :: b :: L, hl =>
    obtain ⟨v₁, heq₁, -, hl₁, -, -⟩ := allocOrNull_cons hl
    obtain ⟨v₂, heq₂, -, hl₂, hzero, -⟩ := allocOrNull_cons hl₁
    obtain ⟨v₃, heq₃, -, hl₃, -, hsame⟩ := allocOrNull_cons hl₂
    obtain ⟨hf, hroot, hb⟩ : f ≠ 0 ∧ root ≠ 0 ∧ b ≠ 0 :=
      ⟨(hl.page f (by simp)).ne_zero, (hl.page root (by simp)).ne_zero, (hl.page b (by simp)).ne_zero⟩
    have hnodup := hl.linked.nodup
    have hrootL := (List.nodup_cons.mp (List.nodup_cons.mp hnodup).2).1
    have hzero₃ : ZeroPage v₃.mem root := hzero.of_same hsame (hl₁.page root (by simp)) hl₂.page hrootL
    have htables : Tables 2 v₃ root (rootOnly root) L :=
      .of_zeroPage hl₃ hzero₃ (hl.page root (by simp)) fun hin => hrootL (List.mem_cons_of_mem b hin)
    have hbp := hl.page b (by simp)
    have hlt := hbp.lt
    obtain ⟨r, v₄, T', L', hmap, h', hgrown, hcase⟩ :=
      htables.mapPage_spec hbp.aligned (by rw [MEMORY_END_eq]; omega)
      (show userStackVa % 4096 = 0 by decide) (show userStackVa ≤ MAX_SUPPORT_VA by decide)
      (show PTE.R ||| PTE.W ||| PTE.U < 1024 by decide)
    have hmissing := missing_stack root
    simp only [List.length_cons] at hlen
    rcases hcase with ⟨-, -, hshort, -⟩ | ⟨rfl, hadds, -⟩
    · omega
    · have hcount := hadds.1
      have hfL : f ∉ L' := fun hin => (List.nodup_cons.mp hnodup).1 (by simp [hgrown.suffix.subset hin])
      have hframe := h'.list.setFrame (hl.page f (by simp)) hfL (t.kernel_sp + PGSIZE)
          (userStackVa + PGSIZE)
      refine ⟨{ t with frame := f, page_table := root, user_sp := b, console := .device }, _, L',
        ?_, hframe, by
        simp only [List.length_cons]
        omega⟩
      rw [TaskMemory.init, alloc_of_allocOrNull heq₁ hf, ok_bind]
      simp only [if_neg hf]
      rw [alloc_of_allocOrNull heq₂ hroot, ok_bind]
      simp only [if_neg hroot]
      rw [alloc_of_allocOrNull heq₃ hb, ok_bind]
      simp only [if_neg hb]
      rw [mapPage_of_true hmap, ok_bind]
      simp only [not_true_eq_false, Bool.false_eq_true, false_and, if_false, ht, ne_eq]
      rfl

/-! ## `FreePageTable` -/

theorem freeRegions_confined (hc : Confined F m t.page_table v) (hk : 1 ≤ k)
    (hk' : k ≤ 3) (hn : i + n ≤ 16) :
    ∃ v', t.freeRegions v k i n = .ok v' ∧ Confined F m t.page_table v' := by
  induction n generalizing v i with
  | zero => exact ⟨v, rfl, hc⟩
  | succ n ih =>
    obtain ⟨v₁, hone, h₁, -⟩ := hc.freeMemory (t.used_address ⟨i, by omega⟩).1.toNat
      (t.used_address ⟨i, by omega⟩).2.toNat hk hk'
    obtain ⟨v', hrest, h'⟩ := ih h₁ (show i + 1 + n ≤ 16 by omega)
    refine ⟨v', ?_, h'⟩
    rw [freeRegions, region, dif_pos (by omega), ok_bind, hone, ok_bind, hrest]

theorem freeLevel_confined (hc : Confined F m t.page_table v)
    (hsize : t.used_address_size ≤ 16) (hk : 1 ≤ k)
    (hk' : k ≤ 3) : ∃ v', t.freeLevel v k = .ok v' ∧ Confined F m t.page_table v' := by
  obtain ⟨v₁, hregions, h₁⟩ := freeRegions_confined hc hk hk' ((Nat.zero_add _).trans_le hsize)
  obtain ⟨v', hstack, h', -⟩ := h₁.freeMemory userStackVa getUserSpVa hk hk'
  exact ⟨v', by rw [freeLevel, hregions, ok_bind, hstack], h'⟩

/-- A page is put on the list. -/
theorem freePage_same (h : OnList v L) (hc : IsPage a) (hn : a ∉ L) :
    ∃ v', v.freePage a = .ok v' ∧ OnList v' (a :: L) ∧
    Same v.mem v'.mem fun x => ¬ InPages (a :: L) x := by
  obtain ⟨v', hup, hv', -⟩ := updateBitMap_eq (v.push a) hc .free
  refine ⟨v', by rw [VirtualMemory.freePage, if_neg hc.ne_zero, hup], (h.push hc hn).bits hv', ?_⟩
  have hmem : v'.mem = (v.push a).mem := by rw [hv']
  rw [hmem]
  exact h.push_same a

/-- `FreePageTable` puts only pages of the page table on the list, and the frame page. -/
theorem freePageTable_confined (hc : Confined F m t.page_table v) (hsize : t.used_address_size ≤ 16)
    (hframe : IsPage t.frame) (hF : t.frame ∉ F) :
    ∃ v' L', t.freePageTable v false = .ok v' ∧ OnList v' L' ∧ (∀ c ∈ L', c = t.frame ∨ c ∈ F) ∧
      Same m v'.mem fun x => ¬ InSet (insert t.frame F) x := by
  obtain ⟨v₃, heq₃, h₃⟩ := freeLevel_confined hc hsize (show 1 ≤ 3 by omega) le_rfl
  obtain ⟨v₂, heq₂, h₂⟩ := freeLevel_confined h₃ hsize (show 1 ≤ 2 by omega) (by omega)
  obtain ⟨v₁, heq₁, h₁⟩ := freeLevel_confined h₂ hsize le_rfl (show 1 ≤ 3 by omega)
  obtain ⟨L₁, hspace, hL₁⟩ := h₁.space
  obtain ⟨v₄, heq₄, hl₄, hsame₄⟩ := freePage_same hspace.list hframe fun hin => hF (hL₁ _ hin)
  have hroot := hspace.isTree.root
  have hrootF := h₁.node _ _ hroot
  have hrootL : t.page_table ∉ t.frame :: L₁ := by
    rw [List.mem_cons, not_or]
    exact ⟨fun he => hF (he ▸ hrootF), hspace.fresh _ _ hroot⟩
  obtain ⟨v₅, heq₅, hl₅, hsame₅⟩ := freePage_same hl₄ hspace.root_page hrootL
  have hmem : ∀ c ∈ t.page_table :: t.frame :: L₁, c = t.frame ∨ c ∈ F := by
    intro c hc
    rcases List.mem_cons.mp hc with rfl | hc
    · exact .inr hrootF
    · rcases List.mem_cons.mp hc with rfl | hc
      · exact .inl rfl
      · exact .inr (hL₁ c hc)
  refine ⟨v₅, _, ?_, hl₅, hmem, ?_⟩
  · rw [freePageTable, heq₃, ok_bind, heq₂, ok_bind, heq₁, ok_bind, heq₄, ok_bind, heq₅, ok_bind]
    rfl
  · refine (h₁.same.mono ?_).trans ((hsame₄.mono ?_).trans (hsame₅.mono ?_))
    · rintro x hx ⟨c, hc, hr⟩
      exact hx ⟨c, .inr hc, hr⟩
    · exact fun x hx hin => hx (inSet_of_inPages (fun c hc => hmem c (List.mem_cons_of_mem _ hc)) hin)
    · exact fun x hx hin => hx (inSet_of_inPages hmem hin)

end OrangeOs.Kernel
