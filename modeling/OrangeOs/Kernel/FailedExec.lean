import OrangeOs.Kernel.Exec

/-! # An exec that fails

`sys_exec` takes a page for the temporary process before it knows whether the file can be loaded. A
file that cannot be loaded costs that page: `FreePageTable` gives back the pages of the process, and
never this one.
-/

namespace OrangeOs.Kernel

open Memory VirtualMemory TaskMemory

variable {σ : Type} {S : StreamBase σ} {openFile : Memory → ℕ → Option σ} {junk : List UInt8}
  {process process' : Task} {v v' : VirtualMemory} {L : List ℕ} {new_page argv : ℕ} {tmp : Task} {f : σ}
  {o : Option (ℕ × ℕ × Task)}

/-- The address of the path, as the kernel sees it. -/
def pathName (process : Task) (v : VirtualMemory) : ℕ :=
  physical v process.page_table (getRawArg v.mem process.frame 0)

/-- The address of the arguments, as the kernel sees it. -/
def argvOf (process : Task) (v : VirtualMemory) : ℕ :=
  physical v process.page_table (getRawArg v.mem process.frame 1)

/-- The file has been loaded into a temporary process, with pages from the list. -/
structure ExecLoaded (S : StreamBase σ) (junk : List UInt8) (f : σ) (v : VirtualMemory)
    (L : List ℕ) (new_page : ℕ)
    (tmp : Task) (v' : VirtualMemory) (L' : List ℕ) : Prop where
  list : OnList v L
  pages : L = new_page :: tmp.frame :: tmp.page_table :: tmp.user_sp :: L'
  size_le : tmp.used_address_size ≤ 16
  confined : Confined { c | c ∈ tmp.page_table :: tmp.user_sp :: L' } v'.mem tmp.page_table v'
  same : Same v.mem v'.mem fun x => ¬ InPages L x
  sp : v'.mem.load (tmp.frame + 8) 8 = userStackVa + PGSIZE
  stack : FileSpares S f 0 junk userStackVa →
    pageTree v'.mem tmp.page_table (path userStackVa) = some tmp.user_sp

/-- Before `Alloc` nothing has happened; after it the file is loaded, or the page of the temporary
process is lost. -/
theorem execLoad_cases (hl : OnList v L) (hrun : execLoad S openFile junk process v = .ok (o, v')) :
    (argvOf process v = 0 ∨ openFile v.mem (pathName process v) = none) ∧ o = none ∧ v' = v ∨
      argvOf process v ≠ 0 ∧ ∃ f, openFile v.mem (pathName process v) = some f ∧
        (o = none ∧ (∃ c ∈ L, ∃ L', OnList v' L' ∧ c ∉ L') ∨
          ∃ new_page tmp L', o = some (argvOf process v, new_page, tmp) ∧
            ExecLoaded S junk f v L new_page tmp v' L') := by
  obtain ⟨o₀, hpath⟩ := vaToPA_physical v process.page_table (getRawArg v.mem process.frame 0)
  obtain ⟨o₁, hargv⟩ := vaToPA_physical v process.page_table (getRawArg v.mem process.frame 1)
  rw [execLoad, hpath, lift_ok_bind] at hrun
  dsimp only at hrun
  rw [hargv, lift_ok_bind] at hrun
  dsimp only at hrun
  split at hrun
  · next h0 =>
    obtain ⟨rfl, rfl⟩ := Prod.mk.inj (Except.ok.inj hrun)
    exact .inl ⟨.inl h0, rfl, rfl⟩
  · next hne =>
    rw [show physical v process.page_table (getRawArg v.mem process.frame 0) =
      pathName process v from rfl] at hrun
    cases hfile : openFile v.mem (pathName process v) with
    | none =>
      rw [hfile] at hrun
      obtain ⟨rfl, rfl⟩ := Prod.mk.inj (Except.ok.inj hrun)
      exact .inl ⟨.inr rfl, rfl, rfl⟩
    | some f =>
      rw [hfile] at hrun
      refine .inr ⟨hne, f, rfl, ?_⟩
      obtain ⟨⟨new_page, v₁⟩, halloc, hrun⟩ := bind_eq_ok.mp hrun
      rw [lift_eq_ok] at halloc
      cases L with
      | nil => exact absurd hl.head_nil (alloc_ne_zero halloc).1
      | cons c L =>
        obtain ⟨w, heq, hl₁, -, -, hsame₁⟩ := hl.alloc
        obtain ⟨rfl, rfl⟩ := Prod.mk.inj (Except.ok.inj (heq.symm.trans halloc))
        simp only [if_neg (alloc_ne_zero halloc).2] at hrun
        obtain ⟨⟨r, t, v₂⟩, hinit, hrun⟩ := bind_eq_ok.mp hrun
        obtain ⟨fr, root, b, L', rfl, rfl, ht, hc₂, hstack, hsame₂, hsp⟩ :=
          init_confined hl₁ rfl (lift_eq_ok.mp hinit)
        simp only [not_true_eq_false, if_false] at hrun
        obtain ⟨⟨loaded, tmp, v₃⟩, hexec, hrun⟩ := bind_eq_ok.mp hrun
        have hnodup := hl.linked.nodup
        have hF : ∀ d ∈ { d | d ∈ root :: b :: L' }, IsPage d := fun d hd =>
          hl₁.page d (List.mem_cons_of_mem fr hd)
        have hfr : IsPage fr := hl₁.page fr (by simp)
        have hfrF : fr ∉ { d | d ∈ root :: b :: L' } := (List.nodup_cons.mp hl₁.linked.nodup).1
        have hsize : t.used_address_size ≤ 16 := by
          rw [ht]
          exact Nat.zero_le _
        have happended := Outcome.result (executeImpl_yields (p := ⟨t, {}⟩) hsize) _ hexec
        obtain ⟨hc₃, ⟨hroot', hframe', hsp'⟩, hsame₃, htree₃⟩ := executeImpl_within hF (p := ⟨t, {}⟩)
          (by rw [ht]; exact hc₂) (by rw [ht]; exact hfr) (by rw [ht]; exact hfrF) hexec
        simp only [ht] at hroot' hframe' hsp' hc₃ hsame₃ htree₃
        simp only at hrun
        split at hrun
        · -- the pages of the temporary process are freed, and its own page is not among them
          obtain ⟨v₄, hfree, hrun⟩ := bind_eq_ok.mp hrun
          obtain ⟨rfl, rfl⟩ := Prod.mk.inj (Except.ok.inj hrun)
          obtain ⟨w, L₄, heq₄, hl₄, hmem, -⟩ := freePageTable_confined (t := tmp.toTaskMemory)
            (by rw [hroot']; exact hc₃) happended.size_le (by rw [hframe']; exact hfr)
            (by rw [hframe']; exact hfrF)
          obtain rfl := Except.ok.inj (heq₄.symm.trans (lift_eq_ok.mp hfree))
          refine .inl ⟨rfl, c, by simp, L₄, hl₄, fun hin => (List.nodup_cons.mp hnodup).1 ?_⟩
          rcases hmem c hin with he | hin
          · rw [he, hframe']
            simp
          · exact List.mem_cons_of_mem fr hin
        · obtain ⟨rfl, rfl⟩ := Prod.mk.inj (Except.ok.inj hrun)
          refine .inr ⟨c, tmp, L', rfl, ?_⟩
          constructor
          · exact hl
          · rw [hframe', hroot', hsp']
          · exact happended.size_le
          · rw [hroot', hsp']
            exact hc₃
          · refine hsame₁.trans ((hsame₂.mono ?_).trans (hsame₃.mono ?_))
            · exact fun x hx hin => hx (inPages_mono (fun d hd => List.mem_cons_of_mem c hd) hin)
            · refine fun x hx => ⟨?_, ?_⟩
              · rintro ⟨d, hd, hr⟩
                exact hx ⟨d, List.mem_cons_of_mem c (List.mem_cons_of_mem fr hd), hr⟩
              · by_contra hin
                exact hx ⟨fr, by simp, by omega, by omega⟩
          · rw [hframe', ← hsp]
            refine hsame₃.load_eq fun x hx hx' => ⟨fun hin => ?_, by omega⟩
            have := apart_of_notMem hF hfr hfrF hin
            omega
          · intro hspare
            rw [hroot', hsp', ← hstack]
            exact htree₃ _ (by decide) hspare

/-- The rest of `sys_exec` does not return -1. -/
theorem execReplace_ne_none {r : Option ℕ × Task × VirtualMemory}
    (h : execReplace process argv new_page tmp v = .ok r) :
    r.1 ≠ none := by
  obtain ⟨⟨argc, user_sp, v₁⟩, -, h⟩ := bind_eq_ok.mp h
  obtain ⟨v₂, -, h⟩ := bind_eq_ok.mp h
  obtain ⟨v₃, -, h⟩ := bind_eq_ok.mp h
  obtain rfl := Except.ok.inj h
  exact Option.some_ne_none argc

/-- So a call that returns -1 has stopped before. -/
theorem sysExec_none (hrun : sysExec S openFile junk process v = .ok (none, process', v')) :
    process' = process ∧ execLoad S openFile junk process v = .ok (none, v') := by
  obtain ⟨⟨o, v₁⟩, hload, hrun⟩ := bind_eq_ok.mp hrun
  cases o with
  | none =>
    obtain ⟨-, hrest⟩ := Prod.mk.inj (Except.ok.inj hrun)
    obtain ⟨rfl, rfl⟩ := Prod.mk.inj hrest
    exact ⟨rfl, liftExec_eq_ok.mp hload⟩
  | some x => exact absurd rfl (execReplace_ne_none hrun)

/-- A call of `sys_exec` that returns -1 leaves everything as it was just when it stops before
`Alloc`. -/
theorem sysExec_unchanged_iff (hl : OnList v L)
    (hrun : sysExec S openFile junk process v = .ok (none, process', v')) :
    process' = process ∧ Same v.mem v'.mem (fun x => ¬ InPages L x) ∧ FreePages v' L ↔
      argvOf process v = 0 ∨ openFile v.mem (pathName process v) = none := by
  obtain ⟨rfl, hload⟩ := sysExec_none hrun
  rcases execLoad_cases hl hload with ⟨hcond, -, rfl⟩ | ⟨hargv, f, hfile, hcase⟩
  · exact iff_of_true ⟨rfl, Same.refl _ _, hl.freePages⟩ hcond
  · refine iff_of_false ?_ ?_
    · rintro ⟨-, -, L₂, hl₂, hperm⟩
      rcases hcase with ⟨-, c, hc, L', hl', hlost⟩ | ⟨new_page, tmp, L', hsome, -⟩
      · rw [hl₂.unique hl'] at hperm
        exact hlost (hperm.mem_iff.mpr hc)
      · cases hsome
    · rintro (h0 | hnone)
      · exact hargv h0
      · rw [hfile] at hnone
        cases hnone

/-- An argument list that is not mapped costs nothing. -/
theorem sysExec_unchanged_unmapped : ∃ (v : VirtualMemory) (L : List ℕ), OnList v L ∧ L.length = 3 ∧
    sysExec StringStream.base (fun _ _ => none) [] ⟨zero 0, {}⟩ v =
      .ok (none, ⟨zero 0, {}⟩, v) ∧ FreePages v L := by
  obtain ⟨v, L, hl, hlen, -⟩ := exists_onList 3 (by decide)
  have hrun : sysExec StringStream.base (fun _ _ => none) [] ⟨zero 0, {}⟩ v =
      .ok (none, ⟨zero 0, {}⟩, v) := rfl
  exact ⟨v, L, hl, hlen, hrun, ((sysExec_unchanged_iff hl hrun).mpr (.inl rfl)).2.2⟩

/-! ## A file that is not an ELF file -/

/-- With six free pages `sys_exec` comes to `ExecuteImpl`. -/
theorem execLoad_eq (hl : OnList v L) (hlen : 6 ≤ L.length) (hargv : argvOf process v ≠ 0)
    (hfile : openFile v.mem (pathName process v) = some f) :
    ∃ c t v₁ v₂ L₁, OnList v₁ L₁ ∧ L.length = L₁.length + 1 ∧
      (zero process.kernel_sp).init v₁ false = .ok (true, t, v₂) ∧
      execLoad S openFile junk process v = (do
        let (loaded, tmp, v₃) ← executeImpl S junk f ⟨t, {}⟩ v₂
        if ¬ loaded then
          let v₃ ← lift (tmp.freePageTable v₃ false)
          return (none, v₃)
        else return (some (argvOf process v, c, tmp), v₃)) := by
  obtain ⟨o₀, hpath⟩ := vaToPA_physical v process.page_table (getRawArg v.mem process.frame 0)
  obtain ⟨o₁, hargv'⟩ := vaToPA_physical v process.page_table (getRawArg v.mem process.frame 1)
  match L, hl with
  | c :: L, hl =>
    obtain ⟨v₁, halloc, hl₁, -⟩ := hl.alloc
    rw [List.length_cons] at hlen
    obtain ⟨t, v₂, L₂, hinit, -, -⟩ := init_true (t := zero process.kernel_sp) hl₁ (by omega) rfl
    refine ⟨c, t, v₁, v₂, L, hl₁, rfl, hinit, ?_⟩
    rw [execLoad, hpath, lift_ok_bind]
    dsimp only
    rw [hargv', lift_ok_bind]
    dsimp only
    rw [if_neg (show ¬ physical v process.page_table (getRawArg v.mem process.frame 1) = 0 from hargv),
      show openFile v.mem (physical v process.page_table (getRawArg v.mem process.frame 0)) =
        some f from hfile]
    dsimp only
    rw [halloc, lift_ok_bind]
    dsimp only
    rw [if_neg (hl.page c (by simp)).ne_zero, hinit, lift_ok_bind]
    simp only [not_true_eq_false, if_false]
    rfl

/-- A file without an ELF header is refused. -/
theorem sysExec_not_elf (hl : OnList v L) (hlen : 6 ≤ L.length) (hargv : argvOf process v ≠ 0)
    (hfile : openFile v.mem (pathName process v) = some f)
    (hvalid : Elf.valid (header S f junk).1 Elf.ET_EXEC = false) :
    ∃ v', sysExec S openFile junk process v = .ok (none, process, v') := by
  obtain ⟨c, t, v₁, v₂, L₁, hl₁, -, hinit, heq⟩ := execLoad_eq hl hlen hargv hfile
  obtain ⟨fr, root, b, L', rfl, -, ht, hc₂, -⟩ := init_confined hl₁ rfl hinit
  have hexec : executeImpl S junk f ⟨t, {}⟩ v₂ = .ok (false, ⟨t, {}⟩, v₂) := by
    rw [executeImpl, load]
    simp only [hvalid, Bool.false_eq_true, not_false_eq_true, if_true]
    rfl
  obtain ⟨v₃, L₃, hfree, -⟩ :=
    freePageTable_confined (t := t) (F := { c | c ∈ root :: b :: L' }) (v := v₂)
    (m := v₂.mem) (by rw [ht]; exact hc₂) (by rw [ht]; exact Nat.zero_le _)
    (by rw [ht]; exact hl₁.page fr (by simp))
    (by rw [ht]; exact (List.nodup_cons.mp hl₁.linked.nodup).1)
  refine ⟨v₃, ?_⟩
  rw [sysExec, heq, hexec]
  show (liftExec (do
    let v ← lift (t.freePageTable v₂ false)
    pure (none, v)) >>= _) = _
  rw [hfree]
  rfl

/-- A process whose frame page and the pages of its page table are its own. -/
structure OwnPages (v : VirtualMemory) (process : TaskMemory) (T : List (Fin 512) → Option ℕ)
    (L : List ℕ) : Prop where
  space : AddressSpace v process.page_table T L
  frame : IsPage process.frame
  frame_fresh : process.frame ∉ L
  frame_out : ∀ q, T q ≠ some process.frame
  size_le : process.used_address_size ≤ 16

/-- A process whose argument list is at the start of its stack page, with the words `ws` there. -/
theorem exists_caller (ws : List ℕ) (hlen : ws.length ≤ 512) (hws : ∀ w ∈ ws, w < 2 ^ 64) :
    ∃ (process : Task) (v : VirtualMemory) (L : List ℕ) (T : List (Fin 512) → Option ℕ) (b : ℕ),
      OwnPages v process.toTaskMemory T L ∧ 9 ≤ L.length ∧ T (path userStackVa) = some b ∧ IsPage b ∧
        getRawArg v.mem process.frame 1 = userStackVa ∧
          ∀ j (hj : j < ws.length), v.mem.load (b + 8 * j) 8 = ws[j] := by
  obtain ⟨v, L, hl, hsize, -⟩ := exists_onList 15 (by decide)
  obtain ⟨t, v₁, L₁, hinit, hl₁, hlen₁⟩ := init_true (t := zero 0) hl (by omega) rfl
  obtain ⟨fr, root, b, L', rfl, -, ht, hc, hstack, -⟩ := init_confined hl rfl hinit
  obtain ⟨L₂, hspace, hL₂⟩ := hc.space
  obtain rfl : L₂ = L₁ := hspace.list.unique hl₁
  have hfr := hl.page fr (by simp)
  have hb := hl.page b (by simp)
  have hfrF : fr ∉ { c | c ∈ root :: b :: L' } := (List.nodup_cons.mp hl.linked.nodup).1
  have hwords := storeWords_same v₁.mem b ws
  obtain ⟨m, hm⟩ : ∃ m, m = storeWords v₁.mem b ws := ⟨_, rfl⟩
  rw [← hm] at hwords
  have hspace₂ : AddressSpace { v₁ with mem := m } root (pageTree v₁.mem root) L₂ := by
    refine hspace.of_page hb (hspace.fresh _ b hstack) (fun q hlt hq => ?_)
      (hwords.mono fun x hx => by omega)
    rw [hspace.inj q _ b hq hstack, path, length_indices] at hlt
    omega
  have hframe : Same m (setFrameA1 m fr userStackVa) fun x => x < fr ∨ fr + 4096 ≤ x :=
    (store_same m (fr + 10 * 8) 8 userStackVa).mono fun x hx => by omega
  have hspace₃ : AddressSpace { v₁ with mem := setFrameA1 m fr userStackVa } root
      (pageTree v₁.mem root) L₂ := by
    refine hspace₂.of_same (hframe.mono fun x hx => ?_)
    refine apart_of_notMem (fun c hc => hl.page c (List.mem_cons_of_mem fr hc)) hfr hfrF ?_
    rcases hx with hx | ⟨q, a, hq, -, hr⟩
    · exact inSet_of_inPages hL₂ hx
    · exact ⟨a, hc.node q a hq, hr⟩
  have hown : OwnPages { v₁ with mem := setFrameA1 m fr userStackVa } t (pageTree v₁.mem root) L₂ := by
    rw [ht]
    constructor
    · exact hspace₃
    · exact hfr
    · exact fun hin => hfrF (hL₂ fr hin)
    · exact fun q hq => hfrF (hc.node q fr hq)
    · exact Nat.zero_le 16
  refine ⟨⟨t, {}⟩, _, L₂, _, b, hown, by omega, hstack, hb, ?_, fun j hj => ?_⟩
  · rw [ht]
    exact load_store_of_lt _ _ (by decide)
  · have hapart := hfr.apart hb fun he => hfrF (he ▸ by simp)
    rw [hframe.load_eq fun x hx hx' => by omega, hm]
    exact load_storeWords v₁.mem b hj hws

/-- Its argument list is mapped to the stack page. -/
theorem argvOf_eq {T : List (Fin 512) → Option ℕ} {b : ℕ} (h : AddressSpace v process.page_table T L)
    (hb : T (path userStackVa) = some b) (ha1 : getRawArg v.mem process.frame 1 = userStackVa) :
    argvOf process v = b := by
  rw [argvOf, ha1, physical_eq_getD, translate_eq h (by decide), hb]
  exact Nat.add_zero b

/-- A file that is empty costs a page. -/
theorem sysExec_loses_page : ¬ ∀ (process process' : Task) (v v' : VirtualMemory) (L : List ℕ)
    (file : StringStream),
    OnList v L → (∃ T, AddressSpace v process.page_table T L) →
      sysExec StringStream.base (fun _ _ => some file) [] process v = .ok (none, process', v') →
        process' = process ∧ Same v.mem v'.mem (fun x => ¬ InPages L x) ∧ FreePages v' L := by
  intro hall
  obtain ⟨process, v, L, T, b, hown, hlen, hb, hpage, ha1, -⟩ := exists_caller [] (by simp) (by simp)
  have hspace := hown.space
  have hl := hspace.list
  have hargv : argvOf process v ≠ 0 := by
    rw [argvOf_eq hspace hb ha1]
    exact hpage.ne_zero
  obtain ⟨v', hrun⟩ : ∃ v', sysExec StringStream.base (fun _ _ => some ⟨[], 0⟩) [] process v =
    .ok (none, process, v') :=
    sysExec_not_elf hl (by omega) hargv rfl (by decide)
  obtain ⟨-, -, L₂, hl₂, hperm⟩ := hall process process v v' L ⟨[], 0⟩ hl ⟨T, hspace⟩ hrun
  obtain ⟨-, hload⟩ := sysExec_none hrun
  rcases execLoad_cases hl hload with ⟨hcond | hnone, -⟩ |
    ⟨-, f, -, ⟨-, c, hc, L', hl', hlost⟩ | ⟨_, _, _, hsome, -⟩⟩
  · exact hargv hcond
  · cases hnone
  · rw [hl₂.unique hl'] at hperm
    exact hlost (hperm.mem_iff.mpr hc)
  · cases hsome

end OrangeOs.Kernel
