import OrangeOs.Kernel.ExecArgs

/-! # Argument lists that do not fit

`sys_exec` tests neither the number of the arguments nor the room on the stack, and once the file is
loaded it no longer returns -1. An argument list that does not fit is copied all the same.
-/

namespace OrangeOs.Kernel

open Memory VirtualMemory TaskMemory

variable {σ : Type} {S : StreamBase σ} {openFile : Memory → ℕ → Option σ} {junk : List UInt8} {f : σ}
  {process tmp : Task} {v v₁ : VirtualMemory} {L L' : List ℕ} {T : List (Fin 512) → Option ℕ}
  {root a argv new_page : ℕ} {m' : Memory}

/-! ## The pages of the caller -/

/-- The page table of the caller is not in the free pages. -/
theorem AddressSpace.isTree_of_same (h : AddressSpace v root T L)
    (hm : Same v.mem m' fun x => ¬ InPages L x) :
    IsTree (child m') 3 root T :=
  h.isTree.congr fun _ _ i _ hq => child_congr
    (fun x hx hx' => hm x ((addressSpace_iff.mp h).not_inPages hq hx hx')) i

/-- A node is apart from a free page. -/
theorem AddressSpace.node_apart (h : AddressSpace v root T L) {q : List (Fin 512)}
    {b c : ℕ} (hq : T q = some b)
    (hc : c ∈ L) : b + 4096 ≤ c ∨ c + 4096 ≤ b :=
  (h.page q b hq).apart (h.list.page c hc) fun he => h.fresh q b hq (he ▸ hc)

/-- What an address of the caller stands for is not in a free page. -/
theorem AddressSpace.physical_apart (h : AddressSpace v root T L)
    (hm : Same v.mem v₁.mem fun x => ¬ InPages L x)
    {c : ℕ} (hc : c ∈ L) (ha : a < 2 ^ 64) :
    physical v₁ root a < c ∨ c + 4096 ≤ physical v₁ root a := by
  have hpage := h.list.page c hc
  rw [physical_eq_getD, translate_tree (h.isTree_of_same hm) (fun _ _ hq => (h.page _ _ hq).ne_zero) ha]
  cases hb : T (path a) with
  | none =>
    have := hpage.ne_zero
    exact .inl (by simp only [Option.map_none, Option.getD_none]; omega)
  | some b =>
    have hapart := h.node_apart hb hc
    have hal := (h.page _ b hb).aligned
    have hal' := hpage.aligned
    have hmod : a % 4096 < 4096 := Nat.mod_lt _ (by omega)
    simp only [Option.map_some, Option.getD_some]
    omega

/-- The loading has succeeded. -/
theorem execLoad_some (hl : OnList v L)
    (hload : execLoad S openFile junk process v = .ok (some (argv, new_page, tmp), v₁)) :
    argv = argvOf process v ∧ ∃ f L', openFile v.mem (pathName process v) = some f ∧
      ExecLoaded S junk f v L new_page tmp v₁ L' := by
  rcases execLoad_cases hl hload with ⟨-, hnone, -⟩ |
    ⟨-, f, hfile, ⟨hnone, -⟩ | ⟨_, _, L', hsome, hloaded⟩⟩
  · cases hnone
  · cases hnone
  · obtain ⟨rfl, rfl, rfl⟩ : argv = argvOf process v ∧ _ ∧ _ := by simpa using hsome
    exact ⟨rfl, f, L', hfile, hloaded⟩

/-- After the loading the caller is as it was. -/
theorem ExecLoaded.argStage (h : ExecLoaded S junk f v L new_page tmp v₁ L')
    (hcaller : AddressSpace v process.page_table T L) :
    ArgStage process.toTaskMemory tmp.toTaskMemory (argvOf process v) v₁ := by
  have hnodup := h.list.linked.nodup
  have hmem : ∀ c ∈ [tmp.frame, tmp.user_sp], c ∈ L := by
    intro c hc
    rw [h.pages]
    rcases List.mem_cons.mp hc with rfl | hc
    · simp
    · rw [List.mem_singleton.mp hc]
      simp
  have hsp := hmem tmp.user_sp (by simp)
  have hpage := h.list.page _ hsp
  constructor
  · exact hpage
  · exact h.list.page _ (hmem tmp.frame (by simp))
  · rw [h.pages] at hnodup
    have hframe := (List.nodup_cons.mp (List.nodup_cons.mp hnodup).2).1
    exact fun he => hframe (by rw [he]; simp)
  · exact h.sp
  · rintro x ⟨q, b, hq, -, hx, hx'⟩
    have htables := ((hcaller.isTree_of_same h.same).truncate (show 2 ≤ 3 by omega)).eq_tree
    have hq' := congrFun htables q
    rw [show tree (child v₁.mem) 2 process.page_table q = some b from hq] at hq'
    split at hq'
    · have := hcaller.node_apart hq' hsp
      omega
    · cases hq'
  · exact fun a ha => hcaller.physical_apart h.same hsp ha
  · exact hcaller.physical_apart (Same.refl _ _) hsp (load_lt v.mem _ 8)

/-! ## The bounds -/

/-- The copy stays inside the stack page and inside `argv_addr`, or -1 is returned. -/
structure ArgsSafe (S : StreamBase σ) (openFile : Memory → ℕ → Option σ)
    (junk : List UInt8) (process : Task)
    (v : VirtualMemory) (argv : ℕ) (tmp : Task) (v₁ : VirtualMemory) : Prop where
  inside : ∀ argc user_sp v₂,
    copyArgv process.toTaskMemory tmp.toTaskMemory argv v₁ = .ok (argc, user_sp, v₂) →
    Same v₁.mem v₂.mem fun x => x < tmp.user_sp ∨ tmp.user_sp + PGSIZE ≤ x
  index : ∀ argc, copyArgv process.toTaskMemory tmp.toTaskMemory argv v₁ ≠ .error (.pastArgv argc)
  refused : ¬ ArgFits v₁ process.page_table argv →
    ∃ process' v', sysExec S openFile junk process v = .ok (none, process', v')

/-- Once the file is loaded, -1 is not returned. -/
theorem sysExec_ne_none (hload : execLoad S openFile junk process v =
    .ok (some (argv, new_page, tmp), v₁))
    {process' : Task} {v' : VirtualMemory} :
    sysExec S openFile junk process v ≠ .ok (none, process', v') := by
  intro hrun
  have hnone := (sysExec_none hrun).2
  rw [hload] at hnone
  cases hnone

/-- In a call that comes to the copy it is safe just when the argument list fits. -/
theorem argsSafe_iff (hcaller : AddressSpace v process.page_table T L)
    (hload : execLoad S openFile junk process v = .ok (some (argv, new_page, tmp), v₁)) :
    ArgsSafe S openFile junk process v argv tmp v₁ ↔ ArgFits v₁ process.page_table argv := by
  constructor
  · intro hsafe
    by_contra hfits
    obtain ⟨process', v', hrun⟩ := hsafe.refused hfits
    exact sysExec_ne_none hload hrun
  · rintro ⟨lens, hl, hlen, htotal⟩
    obtain ⟨rfl, f, L', -, hloaded⟩ := execLoad_some hcaller.list hload
    obtain ⟨v₂, hcopy, hbuilt⟩ := copyArgv_eq (hloaded.argStage hcaller) htotal hl hlen
    constructor
    · intro argc user_sp v₃ hcopy'
      obtain ⟨-, hrest⟩ := Prod.mk.inj (Except.ok.inj (hcopy.symm.trans hcopy'))
      obtain ⟨-, rfl⟩ := Prod.mk.inj hrest
      have hend := (argEnd_bounds tmp.toTaskMemory htotal).1
      exact hbuilt.same.mono fun x hx => by omega
    · intro argc hcopy'
      rw [hcopy] at hcopy'
      cases hcopy'
    · exact fun hnot => absurd ⟨lens, hl, hlen, htotal⟩ hnot

/-! ## A program without segments -/

/-- An ELF header, and no program headers. -/
def emptyProgram : List UInt8 :=
  Elf.magic ++ [2, 1, 1] ++ List.replicate 9 0 ++ [2, 0, 243, 0] ++ List.replicate 44 0

theorem emptyProgram_valid :
    Elf.valid (header StringStream.base ⟨emptyProgram, 0⟩ []).1 Elf.ET_EXEC = true ∧
    Elf.e_phnum (header StringStream.base ⟨emptyProgram, 0⟩ []).1 = 0 := by
  decide +kernel

/-- It can be loaded. -/
theorem executeImpl_empty (p : Task) (v : VirtualMemory) : ∃ entry,
    executeImpl StringStream.base [] ⟨emptyProgram, 0⟩ p v =
      .ok (true, p, { v with mem := setFrameMepc v.mem p.frame entry }) := by
  obtain ⟨hvalid, hphnum⟩ := emptyProgram_valid
  refine ⟨Elf.e_entry (header StringStream.base ⟨emptyProgram, 0⟩ []).1, ?_⟩
  rw [executeImpl, load]
  simp only [hvalid, hphnum, not_true_eq_false, if_false, loadFrom]
  rfl

theorem execLoad_empty (hl : OnList v L) (hlen : 6 ≤ L.length) (hargv : argvOf process v ≠ 0) :
    ∃ new_page tmp v₁, execLoad StringStream.base (fun _ _ => some ⟨emptyProgram, 0⟩) [] process v =
      .ok (some (argvOf process v, new_page, tmp), v₁) := by
  obtain ⟨c, t, v₁, v₂, L₁, -, -, -, heq⟩ : ∃ c t v₁ v₂ L₁, OnList v₁ L₁ ∧ _ ∧ _ ∧
      execLoad StringStream.base (fun _ _ => some ⟨emptyProgram, 0⟩) [] process v = _ :=
    execLoad_eq hl hlen hargv rfl
  obtain ⟨entry, hexec⟩ := executeImpl_empty ⟨t, {}⟩ v₂
  refine ⟨c, ⟨t, {}⟩, { v₂ with mem := setFrameMepc v₂.mem t.frame entry }, ?_⟩
  rw [heq, hexec]
  rfl

/-- A process whose array is `ws` comes to the copy. -/
theorem exists_copy (ws : List ℕ) (hlen : ws.length ≤ 512) (hws : ∀ w ∈ ws, w < 2 ^ 64) :
    ∃ (process : Task) (v v₁ : VirtualMemory) (L : List ℕ)
    (T : List (Fin 512) → Option ℕ) (argv new_page : ℕ)
      (tmp : Task), AddressSpace v process.page_table T L ∧
        execLoad StringStream.base (fun _ _ => some ⟨emptyProgram, 0⟩) [] process v =
          .ok (some (argv, new_page, tmp), v₁) ∧
        ∀ i (hi : i < ws.length), argWord v₁ argv i = ws[i] := by
  obtain ⟨process, v, L, T, b, hown, hfree, hb, hpage, ha1, hword⟩ := exists_caller ws hlen hws
  have hspace := hown.space
  have hargv := argvOf_eq hspace hb ha1
  obtain ⟨new_page, tmp, v₁, hload⟩ :=
    execLoad_empty hspace.list (show 6 ≤ L.length by omega) (by rw [hargv]; exact hpage.ne_zero)
  refine ⟨process, v, v₁, L, T, argvOf process v, new_page, tmp, hspace, hload, fun i hi => ?_⟩
  obtain ⟨-, f, L', -, hloaded⟩ := execLoad_some hspace.list hload
  rw [argWord, hargv, ← hword i hi]
  refine hloaded.same.load_eq fun x hx hx' => ?_
  rintro ⟨c, hc, hr⟩
  have := hspace.node_apart hb hc
  omega

/-- No arguments fit. -/
theorem argsSafe_none : ∃ (process : Task) (v v₁ : VirtualMemory) (L : List ℕ)
    (T : List (Fin 512) → Option ℕ)
    (argv new_page : ℕ) (tmp : Task), AddressSpace v process.page_table T L ∧
      execLoad StringStream.base (fun _ _ => some ⟨emptyProgram, 0⟩) [] process v =
        .ok (some (argv, new_page, tmp), v₁) ∧
      ArgsSafe StringStream.base (fun _ _ => some ⟨emptyProgram, 0⟩) [] process v argv tmp v₁ := by
  obtain ⟨process, v, v₁, L, T, argv, new_page, tmp, hspace, hload, hword⟩ :=
    exists_copy [0] (by decide) (by decide)
  have hlist : ArgList v₁ process.page_table argv [] := by
    constructor
    · exact fun i hi => absurd hi (Nat.not_lt_zero i)
    · exact hword 0 (by decide)
    · exact fun i hi => absurd hi (Nat.not_lt_zero i)
  exact ⟨process, v, v₁, L, T, argv, new_page, tmp, hspace, hload,
    (argsSafe_iff hspace hload).mpr ⟨[], hlist, by decide, by decide⟩⟩

/-- Seventeen empty strings do not fit, and -1 is not returned. -/
theorem not_argsSafe : ¬ ∀ (process : Task) (v v₁ : VirtualMemory) (L : List ℕ)
    (T : List (Fin 512) → Option ℕ)
    (argv new_page : ℕ) (tmp : Task), AddressSpace v process.page_table T L →
      execLoad StringStream.base (fun _ _ => some ⟨emptyProgram, 0⟩) [] process v =
        .ok (some (argv, new_page, tmp), v₁) →
      ArgsSafe StringStream.base (fun _ _ => some ⟨emptyProgram, 0⟩) [] process v argv tmp v₁ := by
  intro hall
  obtain ⟨process, v, v₁, L, T, argv, new_page, tmp, hspace, hload, hword⟩ :=
    exists_copy (List.replicate 17 userStackVa ++ [0]) (by decide) (by decide)
  have hfits : ¬ ArgFits v₁ process.page_table argv := by
    rintro ⟨lens, hl, hlen, -⟩
    have hlast := hl.last
    rw [hword lens.length (by simp; omega), List.getElem_append_left (by simp; omega),
      List.getElem_replicate] at hlast
    exact absurd hlast (by decide)
  obtain ⟨process', v', hrun⟩ := (hall process v v₁ L T argv new_page tmp hspace hload).refused hfits
  exact sysExec_ne_none hload hrun

end OrangeOs.Kernel
