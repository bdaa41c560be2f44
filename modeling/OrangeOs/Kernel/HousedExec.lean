import OrangeOs.Kernel.ExecResult
import OrangeOs.Kernel.HousedFork

/-! # A process with a new program

`sys_exec` builds the new program beside the old one, in free pages, and the old pages go back to the
list after that. A file in the address space and arguments that fit are enough: neither the loading
nor the copy of the arguments leaves the free pages, and the list has no page of the new program.
-/

namespace OrangeOs.Kernel

open Memory VirtualMemory TaskMemory

variable {σ : Type} {S : StreamBase σ} {openFile : Memory → ℕ → Option σ} {junk : List UInt8} {f : σ}
  {process tmp t' : Task} {v v' v₁ v₂ w : VirtualMemory} {m : Memory} {L L' L₁ : List ℕ} {o :
      Option (ℕ × ℕ × Task)}
  {argv argc c k new_page user_sp : ℕ} {r : Option ℕ}

/-- A program has been loaded into free pages beside the process. -/
structure Prepared (L : List ℕ) (v : VirtualMemory) (new_page : ℕ) (tmp : TaskMemory) (v₁ :
    VirtualMemory)
    (L₁ : List ℕ) : Prop where
  space : AddressSpace v₁ tmp.page_table (pageTree v₁.mem tmp.page_table) L₁
  sub : ∀ c ∈ L₁, c ∈ L
  node : ∀ q c, pageTree v₁.mem tmp.page_table q = some c → c ∈ L ∧ c ≠ new_page ∧ c ≠ tmp.frame
  temporary : new_page ∈ L ∧ new_page ∉ L₁
  frame : tmp.frame ∈ L ∧ tmp.frame ∉ L₁ ∧ tmp.frame ≠ new_page
  user_sp : tmp.user_sp ∈ L ∧ tmp.user_sp ∉ L₁ ∧
    ∀ q, q.length < 3 → pageTree v₁.mem tmp.page_table q ≠ some tmp.user_sp
  same : Same v.mem v₁.mem fun x => ¬ InPages L x
  regions : tmp.RegionsMapped v₁.mem

/-- The run of `sys_exec` up to the loading: it stops, or it comes to a result of the loader. -/
theorem execLoad_run (hl : OnList v L) (hrun : execLoad S openFile junk process v = .ok (o, v')) :
    o = none ∧ v' = v ∨ ∃ f c t v₂ L₁ loaded tmp v₃, openFile v.mem (pathName process v) = some f ∧
      L = c :: t.frame :: t.page_table :: t.user_sp :: L₁ ∧ t.used_address_size = 0 ∧
      Confined { d | d ∈ t.page_table :: t.user_sp :: L₁ } v₂.mem t.page_table v₂ ∧
      pageTree v₂.mem t.page_table (path userStackVa) = some t.user_sp ∧
      Same v.mem v₂.mem (fun x => ¬ InPages L x) ∧
      executeImpl S junk f ⟨t, {}⟩ v₂ = .ok (loaded, tmp, v₃) ∧
      (loaded = false ∧ o = none ∧ tmp.freePageTable v₃ false = .ok v' ∨
        loaded = true ∧ o = some (argvOf process v, c, tmp) ∧ v' = v₃) := by
  obtain ⟨o₀, hpath⟩ := vaToPA_physical v process.page_table (getRawArg v.mem process.frame 0)
  obtain ⟨o₁, hargv⟩ := vaToPA_physical v process.page_table (getRawArg v.mem process.frame 1)
  rw [execLoad, hpath, lift_ok_bind] at hrun
  dsimp only at hrun
  rw [hargv, lift_ok_bind] at hrun
  dsimp only at hrun
  split at hrun
  · obtain ⟨rfl, rfl⟩ := Prod.mk.inj (Except.ok.inj hrun)
    exact .inl ⟨rfl, rfl⟩
  · rw [show physical v process.page_table (getRawArg v.mem process.frame 0) =
      pathName process v from rfl] at hrun
    cases hfile : openFile v.mem (pathName process v) with
    | none =>
      rw [hfile] at hrun
      obtain ⟨rfl, rfl⟩ := Prod.mk.inj (Except.ok.inj hrun)
      exact .inl ⟨rfl, rfl⟩
    | some f =>
      rw [hfile] at hrun
      obtain ⟨⟨c, v₁⟩, halloc, hrun⟩ := bind_eq_ok.mp hrun
      rw [lift_eq_ok] at halloc
      obtain ⟨L, rfl, hc, hl₁, -, hsame₁⟩ := hl.alloc_ok halloc
      simp only [if_neg hc] at hrun
      obtain ⟨⟨r, t, v₂⟩, hinit, hrun⟩ := bind_eq_ok.mp hrun
      obtain ⟨fr, root, b, L₁, rfl, rfl, ht, hc₂, hstack, hsame₂, -⟩ :=
        init_confined hl₁ rfl (lift_eq_ok.mp hinit)
      simp only [not_true_eq_false, if_false] at hrun
      obtain ⟨⟨loaded, tmp, v₃⟩, hexec, hrun⟩ := bind_eq_ok.mp hrun
      refine .inr ⟨f, c, t, v₂, L₁, loaded, tmp, v₃, rfl, ?_, ?_, ?_, ?_, ?_, hexec, ?_⟩
      · rw [ht]
      · rw [ht]
        rfl
      · rw [ht]
        exact hc₂
      · rw [ht]
        exact hstack
      · exact hsame₁.trans (hsame₂.mono fun x hx hin =>
          hx (inPages_mono (fun d hd => List.mem_cons_of_mem c hd) hin))
      · cases loaded with
        | false =>
          obtain ⟨v₄, hfree, hrun⟩ := bind_eq_ok.mp hrun
          obtain ⟨rfl, rfl⟩ := Prod.mk.inj (Except.ok.inj hrun)
          exact .inl ⟨rfl, rfl, lift_eq_ok.mp hfree⟩
        | true =>
          obtain ⟨rfl, rfl⟩ := Prod.mk.inj (Except.ok.inj hrun)
          exact .inr ⟨rfl, rfl, rfl⟩

/-- The loading takes free pages only; where it fails they are free again, or lost. -/
theorem execLoad_prepared (hl : OnList v L)
    (hfile : ∀ f, openFile v.mem (pathName process v) = some f → FileInSpace S f junk)
    (hrun : execLoad S openFile junk process v = .ok (o, v')) :
    (o = none → ∃ L', OnList v' L' ∧ (∀ c ∈ L', c ∈ L) ∧ Same v.mem v'.mem fun x => ¬ InPages L x) ∧
    ∀ argv new_page tmp, o = some (argv, new_page, tmp) →
      ∃ L₁, Prepared L v new_page tmp.toTaskMemory v' L₁ := by
  rcases execLoad_run hl hrun with ⟨rfl, rfl⟩ | ⟨f, c, t, v₂, L₁, loaded, tmp, v₃, hf, rfl, hsize,
    hconfined, hstack, hsame, hexec, hcase⟩
  · exact ⟨fun _ => ⟨L, hl, fun _ hc => hc, Same.refl _ _⟩, nofun⟩
  · obtain ⟨L₂, hspace, hL₂⟩ := hconfined.space
    have hnodup := List.nodup_cons.mp hl.linked.nodup
    have hnodup' := List.nodup_cons.mp hnodup.2
    have hframepage := hl.page t.frame (by simp)
    have hmem : ∀ d ∈ t.page_table :: t.user_sp :: L₁, d ∈ c :: t.frame :: t.page_table ::
        t.user_sp :: L₁ :=
      fun d hd => List.mem_cons_of_mem c (List.mem_cons_of_mem _ hd)
    have hsp := hspace.fresh _ _ hstack
    obtain ⟨L₃, hexecuted⟩ := executeImpl_executed (p := ⟨t, {}⟩) hspace (.of_zero hsize) hframepage
      (fun hin => hnodup'.1 (hL₂ _ hin)) (fun q hq => hnodup'.1 (hconfined.node q _ hq)) (hfile f hf)
          hexec
    obtain ⟨hroot, hframe, huser⟩ := hexecuted.kept
    have hnode : ∀ q d, pageTree v₃.mem t.page_table q = some d → d ∈ t.page_table :: t.user_sp :: L₁ :=
      fun q d hq => (hexecuted.node q d hq).elim (hL₂ d) (hconfined.node q d)
    have hL₃ : ∀ d ∈ L₃, d ∈ t.page_table :: t.user_sp :: L₁ := fun d hd => hL₂ d (hexecuted.sub d hd)
    have hsame₃ : Same v.mem v₃.mem fun x => ¬ InPages (c :: t.frame :: t.page_table :: t.user_sp ::
        L₁) x := by
      refine hsame.trans (hexecuted.same.mono fun x hx => ⟨?_, ?_, ?_⟩)
      · rintro ⟨d, hd, hr⟩
        exact hx ⟨d, hmem d (hL₂ d hd), hr⟩
      · rintro ⟨q, d, hq, hr⟩
        exact hx ⟨d, hmem d (hconfined.node q d hq), hr⟩
      · by_contra hin
        exact hx ⟨t.frame, by simp, by simp only at hin; omega, by simp only at hin; omega⟩
    rcases hcase with ⟨-, rfl, hfree⟩ | ⟨-, rfl, rfl⟩
    · refine ⟨fun _ => ?_, nofun⟩
      have hconfined₃ : Confined { d | d ∈ t.page_table :: t.user_sp ::
          L₁ } v₃.mem tmp.page_table v₃ := by
        rw [show tmp.page_table = t.page_table from hroot]
        exact .of_space hexecuted.space hL₃ hnode (Same.refl _ _)
      obtain ⟨v₄, L₄, heq, hl₄, hL₄, hsame₄⟩ := freePageTable_confined (t := tmp.toTaskMemory)
          hconfined₃
        hexecuted.regions.size_le (hframe ▸ hframepage) (hframe ▸ hnodup'.1)
      obtain rfl := Except.ok.inj (heq.symm.trans hfree)
      have hback : ∀ d, d = tmp.frame ∨ d ∈ t.page_table :: t.user_sp :: L₁ →
          d ∈ c :: t.frame :: t.page_table :: t.user_sp :: L₁ := by
        rintro d (rfl | hd)
        · rw [show tmp.frame = t.frame from hframe]
          simp
        · exact hmem d hd
      refine ⟨L₄, hl₄, fun d hd => hback d (hL₄ d hd), hsame₃.trans (hsame₄.mono ?_)⟩
      rintro x hx ⟨d, hd, hr⟩
      exact hx ⟨d, hback d hd, hr⟩
    · refine ⟨nofun, fun argv new_page tmp' htmp => ?_⟩
      obtain ⟨-, hrest⟩ := Prod.mk.inj (Option.some.inj htmp)
      obtain ⟨rfl, rfl⟩ := Prod.mk.inj hrest
      refine ⟨L₃, ?_, fun d hd => hmem d (hL₃ d hd), ?_, ⟨by simp, ?_⟩, ⟨?_, ?_, ?_⟩, ⟨?_, ?_, ?_⟩,
          hsame₃,
        hexecuted.regions⟩
      · rw [hroot]
        exact hexecuted.space
      · rw [hroot, hframe]
        refine fun q d hq => ⟨hmem d (hnode q d hq), ?_, ?_⟩
        · rintro rfl
          exact hnodup.1 (List.mem_cons_of_mem _ (hnode q _ hq))
        · rintro rfl
          exact hnodup'.1 (hnode q _ hq)
      · exact fun hin => hnodup.1 (List.mem_cons_of_mem _ (hL₃ _ hin))
      · rw [hframe]
        simp
      · rw [hframe]
        exact fun hin => hnodup'.1 (hL₃ _ hin)
      · rw [hframe]
        rintro rfl
        exact hnodup.1 (by simp)
      · rw [huser]
        simp
      · rw [huser]
        exact fun hin => hsp (hexecuted.sub _ hin)
      · rw [hroot, huser]
        intro q hlt hq
        have hold := (hexecuted.node q _ hq).resolve_left hsp
        rw [hspace.inj q _ _ hold hstack, path, length_indices] at hlt
        omega

/-- The pages that go back to the list: those of the process but its kernel stack, and page `c`. -/
def released (t : TaskMemory) (v : VirtualMemory) (L : List ℕ) (c : ℕ) : Set ℕ :=
  { d | d ∈ L ∨ d = c ∨ d ∈ t.pages v.mem ∧ d ≠ t.kernel_sp }

theorem TaskMemory.Housed.release {t : TaskMemory} (h : t.Housed v L) (hc : IsPage c) (hcL : c ∉ L)
    (hct : c ∉ t.pages v.mem) : ∃ v₁ v₂ L', t.freePageTable v false = .ok v₁ ∧ v₁.freePage c = .ok v₂ ∧
      OnList v₂ L' ∧ (∀ d ∈ L', d ∈ released t v L c) ∧
      Same v.mem v₂.mem fun x => ¬ InSet (released t v L c) x := by
  obtain ⟨v₁, L₁, hfree, hl₁, hL₁, hsame₁⟩ :=
      freePageTable_confined h.confined h.regions.size_le h.frame.1
    h.notMem.1
  have hold : ∀ d ∈ insert t.frame (treeAndFree t v.mem L), d ∈ L ∨ d ∈ t.pages v.mem ∧
      d ≠ t.kernel_sp := by
    rintro d (rfl | hd | ⟨q, hq⟩)
    · exact .inr ⟨.inr (.inl rfl), h.frame_ne⟩
    · exact .inl hd
    · refine .inr ⟨.inl ⟨q, hq⟩, ?_⟩
      rintro rfl
      exact h.kernel_sp.2.2 q hq
  obtain ⟨v₂, hpage, hl₂, hsame₂⟩ := freePage_same hl₁ hc fun hin =>
    (hold c (hL₁ c hin)).elim hcL fun hin => hct hin.1
  have hback : ∀ d ∈ c :: L₁, d ∈ released t v L c := by
    intro d hd
    rcases List.mem_cons.mp hd with rfl | hd
    · exact .inr (.inl rfl)
    · exact (hold d (hL₁ d hd)).imp_right .inr
  refine ⟨v₁, v₂, _, hfree, hpage, hl₂, hback, (hsame₁.mono ?_).trans (hsame₂.mono ?_)⟩
  · rintro x hx ⟨d, hd, hr⟩
    exact hx ⟨d, (hold d hd).imp_right .inr, hr⟩
  · exact fun x hx hin => hx (inSet_of_inPages hback hin)

namespace Prepared

/-- The pages of the new program are apart from those that go back. -/
theorem not_released (h : Prepared L v new_page tmp.toTaskMemory v₁ L₁)
    (hown : process.toTaskMemory.Housed v L) (hw : w.mem = m)
    (hpages : process.pages m = process.pages v.mem) (hc : c ∈ L) (hcL : c ∉ L₁) (hne : c ≠ new_page) :
    c ∉ released process.toTaskMemory w L₁ new_page := by
  rintro (hin | rfl | hin)
  · exact hcL hin
  · exact hne rfl
  · rw [hw, hpages] at hin
    exact hown.not_free hin.1 hc

/-- The rest of `sys_exec`, after a copy of the arguments that stays in the new stack page. -/
theorem replace (h : Prepared L v new_page tmp.toTaskMemory v₁ L₁)
    (hown : process.toTaskMemory.Housed v L)
    (hcopy : copyArgv process.toTaskMemory tmp.toTaskMemory argv v₁ = .ok (argc, user_sp, v₂))
    (hrest : v₂ = { v₁ with mem := v₂.mem })
    (hsame : Same v₁.mem v₂.mem fun x => x < tmp.user_sp ∨ tmp.user_sp + 4096 ≤ x)
    (hrun : execReplace process argv new_page tmp v₁ = .ok (r, t', v')) :
    ∃ L', UsesOnly (reachOf process.toTaskMemory v.mem L) v t'.toTaskMemory v' L' := by
  have hl := hown.space.list
  have hlive : process.Live := hown.space.root_page.ne_zero
  obtain ⟨hnewL, hnewL₁⟩ := h.temporary
  obtain ⟨hframeL, hframeL₁, hframenew⟩ := h.frame
  obtain ⟨hspL, hspL₁, hsptable⟩ := h.user_sp
  obtain ⟨m, hm⟩ : ∃ m, m = setFrameArgv v₂.mem tmp.frame (tmp.user_sp + PGSIZE) user_sp := ⟨_, rfl⟩
  have hargv := setFrameArgv_same v₂.mem tmp.frame (tmp.user_sp + PGSIZE) user_sp
  rw [← hm] at hargv
  -- so far only the new stack page and the new frame are written
  have hwritten : Same v₁.mem m fun x => (x < tmp.user_sp ∨ tmp.user_sp + 4096 ≤ x) ∧
      (x < tmp.frame ∨ tmp.frame + 4096 ≤ x) :=
    (hsame.mono fun x hx => hx.1).trans (hargv.mono fun x hx => hx.2)
  have hbefore : Same v.mem m fun x => ¬ InPages L x := by
    refine h.same.trans (hwritten.mono fun x hx => ⟨?_, ?_⟩)
    · by_contra hin
      exact hx ⟨tmp.user_sp, hspL, by omega, by omega⟩
    · by_contra hin
      exact hx ⟨tmp.frame, hframeL, by omega, by omega⟩
  have hlist : OnList { v₂ with mem := m } L₁ := by
    rw [hrest]
    exact h.space.list.of_same (hwritten.mono fun x hx =>
      ⟨h.space.apart (hl.page _ hspL) hspL₁ hsptable (.inl hx),
        h.space.apart (hl.page _ hframeL) hframeL₁ (fun q _ hq => (h.node q _ hq).2.2 rfl) (.inl hx)⟩)
  -- the caller has its pages, and they go back to the list
  obtain ⟨howner, hpages⟩ := hown.keeps hlist h.sub hbefore
  have hout : ∀ c ∈ L, c ∉ L₁ → c ≠ new_page →
      c ∉ released process.toTaskMemory { v₂ with mem := m } L₁ new_page := fun c hc hcL hne =>
    h.not_released hown rfl hpages hc hcL hne
  obtain ⟨v₃, v₄, L₃, hfree, hpage, hl₄, hL₃, hsame₄⟩ := howner.release (hl.page _ hnewL) hnewL₁
    fun hin => hown.not_free (hpages ▸ hin) hnewL
  have hresult : execReplace process argv new_page tmp v₁ = .ok (some argc,
      process.copyMemoryFrom tmp, v₄) := by
    rw [execReplace, hcopy]
    show (liftExec (lift (process.freePageTable
      { v₂ with mem := setFrameArgv v₂.mem tmp.frame (tmp.user_sp + PGSIZE) user_sp } false)) >>= _) = _
    rw [← hm, hfree]
    show (liftExec (lift (v₃.freePage new_page)) >>= _) = _
    rw [hpage]
    rfl
  obtain ⟨-, hpair⟩ := Prod.mk.inj (Except.ok.inj (hresult.symm.trans hrun))
  obtain ⟨rfl, rfl⟩ := Prod.mk.inj hpair
  have hreleased : ∀ c ∈ released process.toTaskMemory { v₂ with mem := m } L₁ new_page,
      IsPage c ∧ c ∈ reachOf process.toTaskMemory v.mem L := by
    rintro c (hc | rfl | hc)
    · exact ⟨hl.page c (h.sub c hc), .inr (h.sub c hc)⟩
    · exact ⟨hl.page _ hnewL, .inr hnewL⟩
    · have hc' : c ∈ process.pages v.mem := hpages ▸ hc.1
      exact ⟨hown.isPage hc', .inl ⟨hlive, hc'⟩⟩
  -- the page table of the new program is as it was
  have htree : pageTree v₄.mem tmp.page_table = pageTree v₁.mem tmp.page_table := by
    refine (h.space.isTree.congr fun q c i hlt hq => child_congr (fun x hx hx' => ?_) i).eq_tree.symm
    obtain ⟨hcL, hcnew, hcframe⟩ := h.node q c hq
    have hfr := (hl.page c hcL).apart (hl.page _ hframeL) hcframe
    have hsp := (hl.page c hcL).apart (hl.page _ hspL) fun he => hsptable q hlt (he ▸ hq)
    refine (hsame₄ x fun hin => ?_).trans (hwritten x ⟨by omega, by omega⟩)
    have := apart_of_notMem (fun d hd => (hreleased d hd).1) (hl.page c hcL)
      (hout c hcL (h.space.fresh q c hq) hcnew) hin
    omega
  have hkernel : process.kernel_sp ∉ L₃ := by
    intro hin
    rcases hL₃ _ hin with hin | he | hin
    · exact hown.kernel_sp.2.1 (h.sub _ hin)
    · exact hown.kernel_sp.2.1 (he ▸ hnewL)
    · exact hin.2 rfl
  refine ⟨L₃, hl₄, fun c hc => (hreleased c (hL₃ c hc)).2, ?_, fun _ => ⟨⟨⟨hl₄, isTree_tree _ _ _,
      ?_, ?_, ?_⟩,
    ⟨hl.page _ hframeL, fun hin => hout _ hframeL hframeL₁ hframenew (hL₃ _ hin), ?_⟩,
    ⟨hown.kernel_sp.1, hkernel, ?_⟩, ?_, ?_⟩, ?_⟩, fun hnot => absurd h.space.root_page.ne_zero hnot⟩
  · refine (hbefore.mono ?_).trans (hsame₄.mono ?_)
    · exact fun x hx hin => hx (inSet_of_inPages (fun c hc => .inr hc) hin)
    · rintro x hx ⟨c, hc, hr⟩
      exact hx ⟨c, (hreleased c hc).2, hr⟩
  · show ∀ q c, pageTree v₄.mem tmp.page_table q = some c → _
    rw [htree]
    exact h.space.page
  · show ∀ q q' c, pageTree v₄.mem tmp.page_table q = some c →
      pageTree v₄.mem tmp.page_table q' = some c → q = q'
    rw [htree]
    exact h.space.inj
  · show ∀ q c, pageTree v₄.mem tmp.page_table q = some c → _
    rw [htree]
    exact fun q c hq hin => hout c (h.node q c hq).1 (h.space.fresh q c hq)
        (h.node q c hq).2.1 (hL₃ c hin)
  · show ∀ q, pageTree v₄.mem tmp.page_table q ≠ some tmp.frame
    rw [htree]
    exact fun q hq => (h.node q _ hq).2.2 rfl
  · show ∀ q, pageTree v₄.mem tmp.page_table q ≠ some process.kernel_sp
    rw [htree]
    exact fun q hq => hown.kernel_sp.2.1 (h.node q _ hq).1
  · exact fun he => hown.kernel_sp.2.1 (show process.kernel_sp ∈ L from he ▸ hframeL)
  · refine ⟨h.regions.size_le, h.regions.le, fun i hi x hx => ?_⟩
    show pageTree v₄.mem tmp.page_table (path x) ≠ none
    rw [htree]
    exact h.regions.mapped i hi x hx
  · rintro c (⟨q, hq⟩ | rfl | rfl)
    · exact .inr (h.node q c (htree ▸ hq)).1
    · exact .inr hframeL
    · exact .inl ⟨hlive, .inr (.inr rfl)⟩

end Prepared

/-- `sys_exec` of a file in the address space, with arguments that fit. -/
theorem TaskMemory.Housed.sysExec (h : process.toTaskMemory.Housed v L)
    (hfile : ∀ f, openFile v.mem (pathName process v) = some f → FileInSpace S f junk)
    (hargs : ∀ argv new_page tmp v₁,
      execLoad S openFile junk process v = .ok (some (argv, new_page, tmp), v₁) →
        ArgFits v₁ process.page_table argv)
    (hrun : sysExec S openFile junk process v = .ok (r, t', v')) :
    ∃ L', UsesOnly (reachOf process.toTaskMemory v.mem L) v t'.toTaskMemory v' L' := by
  obtain ⟨⟨o, v₁⟩, hload, hrest⟩ := bind_eq_ok.mp hrun
  rw [liftExec_eq_ok] at hload
  obtain ⟨hnone, hsome⟩ := execLoad_prepared h.space.list hfile hload
  cases o with
  | none =>
    obtain ⟨-, hpair⟩ := Prod.mk.inj (Except.ok.inj hrest)
    obtain ⟨rfl, rfl⟩ := Prod.mk.inj hpair
    obtain ⟨L', hl', hL', hsame⟩ := hnone rfl
    exact ⟨L', h.usesOnly hl' hL' hsame⟩
  | some x =>
    obtain ⟨argv, new_page, tmp⟩ := x
    obtain ⟨L₁, hprepared⟩ := hsome _ _ _ rfl
    obtain ⟨lens, hlist, hlen, hfits⟩ := hargs _ _ _ _ hload
    obtain ⟨rfl, f, L', -, hloaded⟩ := execLoad_some h.space.list hload
    obtain ⟨v₂, hcopy, hbuilt⟩ := copyArgv_eq (hloaded.argStage h.space) hfits hlist hlen
    obtain ⟨hend, -⟩ := argEnd_bounds tmp.toTaskMemory hfits
    have hsize : PGSIZE = 4096 := rfl
    exact hprepared.replace h hcopy hbuilt.rest (hbuilt.same.mono fun x hx => by omega) hrest

end OrangeOs.Kernel
