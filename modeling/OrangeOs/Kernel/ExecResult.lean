import OrangeOs.Kernel.ExecBounds

/-! # The arguments that a new program finds

The new program reads its memory through its page table, as the process has read its own before.
What the copy builds in the stack page is what the new program finds there: the pages that are freed
afterwards are not among its pages. Only a segment that lies over the stack page takes this page
away.
-/

namespace OrangeOs.Kernel

open Memory VirtualMemory TaskMemory

variable {σ : Type} {S : StreamBase σ} {openFile : Memory → ℕ → Option σ} {junk : List UInt8} {f : σ}
  {process process' : Task} {v v' v₁ v₂ : VirtualMemory} {L L₁ L' : List ℕ}
  {T : List (Fin 512) → Option ℕ}
  {root a argv b i k n new_page user_sp : ℕ} {tmp : Task} {args : List (List UInt8)}

/-! ## Arguments in the memory of a process -/

/-- The number in the 8 bytes at an address of a process. -/
def userWord (v : VirtualMemory) (root a : ℕ) : ℕ :=
  Memory.load (fun x => (userByte v root x).getD 0) a 8

/-- A string and the 0 after it. -/
def StringAt (v : VirtualMemory) (root a : ℕ) (s : List UInt8) : Prop :=
  0 ∉ s ∧ ∀ k ≤ s.length, userByte v root (a + k) = some (charAt s k)

/-- An array with the addresses of the strings, and 0 after them. -/
structure Argv (v : VirtualMemory) (root argv : ℕ) (args : List (List UInt8)) : Prop where
  mapped : ∀ k < 8 * (args.length + 1), userByte v root (argv + k) ≠ none
  word : ∀ i < args.length, userWord v root (argv + 8 * i) ≠ 0
  last : userWord v root (argv + 8 * args.length) = 0
  string : ∀ i (hi : i < args.length), StringAt v root (userWord v root (argv + 8 * i)) args[i]

/-- The array lies within one page, and so does every string. -/
structure PageEach (v : VirtualMemory) (root argv : ℕ) (args : List (List UInt8)) : Prop where
  array : argv % PGSIZE + 8 * (args.length + 1) ≤ PGSIZE
  string : ∀ i (hi : i < args.length),
    userWord v root (argv + 8 * i) % PGSIZE + args[i].length + 1 ≤ PGSIZE

section Tree

variable (hT : ∀ a < 2 ^ 64, translate v root a = (T (path a)).map (· + a % 4096))

include hT

theorem userByte_tree (ha : a < 2 ^ 64) : userByte v root a =
    (T (path a)).map fun b => v.mem (b + a % 4096) := by
  rw [userByte, hT a ha, Option.map_map]
  rfl

/-- An address of a page that is mapped. -/
theorem userByte_page (hb : T (path a) = some b) (ha : a < 2 ^ 64) (hk : a % 4096 + k < 4096) :
    userByte v root (a + k) = some (v.mem (b + a % 4096 + k)) := by
  have hpath : path (a + k) = path a := indices_congr (by omega) 2 3
  rw [userByte_tree hT (by omega), hpath, hb, Option.map_some,
    show (a + k) % 4096 = a % 4096 + k by omega, Nat.add_assoc]

theorem userWord_page (hb : T (path a) = some b) (ha : a < 2 ^ 64) (hk : a % 4096 + 8 ≤ 4096) :
    userWord v root a = v.mem.load (b + a % 4096) 8 := by
  refine leNat_congr fun k hk' => ?_
  rw [userByte_page hT hb ha (by omega), Option.getD_some]

/-- An address where something can be read. -/
theorem exists_userPage (ha : a < 2 ^ 64) (hne : userByte v root a ≠ none) :
    ∃ b, T (path a) = some b ∧ physical v root a = b + a % 4096 := by
  rw [userByte_tree hT ha] at hne
  cases hb : T (path a) with
  | none =>
    rw [hb] at hne
    exact absurd rfl hne
  | some b =>
    refine ⟨b, rfl, ?_⟩
    rw [physical_eq_getD, hT a ha, hb]
    rfl

end Tree

/-- What the caller has at an address is still there when the file is loaded. -/
theorem AddressSpace.physical_same (h : AddressSpace v root T L)
    (hm : Same v.mem v₁.mem fun x => ¬ InPages L x)
    (ha : a < 2 ^ 64) : physical v₁ root a = physical v root a := by
  have hne : ∀ q b, T q = some b → b ≠ 0 := fun q b hq => (h.page q b hq).ne_zero
  rw [physical_eq_getD, physical_eq_getD, translate_tree (h.isTree_of_same hm) hne ha, translate_eq h ha]

theorem AddressSpace.mem_same (h : AddressSpace v root T L)
    (hm : Same v.mem v₁.mem fun x => ¬ InPages L x)
    {q : List (Fin 512)} (hb : T q = some b) (hk : k < 4096) : v₁.mem (b + k) = v.mem (b + k) := by
  refine hm _ ?_
  rintro ⟨c, hc, hr⟩
  have := h.node_apart hb hc
  omega

/-- Within its pages the process and the kernel read the same arguments. -/
theorem Argv.argList (hargs : Argv v root argv args) (hpages : PageEach v root argv args)
    (h : AddressSpace v root T L) (hm : Same v.mem v₁.mem fun x => ¬ InPages L x)
    (hargv : argv < 2 ^ 64) :
    ArgList v₁ root (physical v root argv) (args.map List.length) ∧
    ∀ i (hi : i < args.length), ∀ k ≤ args[i].length,
      v₁.mem (argStr v₁ root (physical v root argv) i + k) = charAt args[i] k := by
  have hsize : PGSIZE = 4096 := rfl
  have harray := hpages.array
  rw [hsize] at harray
  have hT : ∀ a < 2 ^ 64, translate v root a = (T (path a)).map (· + a % 4096) :=
    fun a ha => translate_eq h ha
  obtain ⟨b, hb, hphysical⟩ := exists_userPage hT hargv (hargs.mapped 0 (by omega))
  have hword : ∀ i ≤ args.length,
      argWord v₁ (physical v root argv) i = userWord v root (argv + 8 * i) := by
    intro i hi
    have hpath : path (argv + 8 * i) = path argv := indices_congr (by omega) 2 3
    rw [userWord_page hT ((congrArg T hpath).trans hb) (by omega) (by omega), argWord, hphysical,
      show (argv + 8 * i) % 4096 = argv % 4096 + 8 * i by omega, ← Nat.add_assoc]
    refine load_congr fun k hk => ?_
    rw [Nat.add_assoc, Nat.add_assoc, h.mem_same hm hb (by omega)]
  have hstring : ∀ i (hi : i < args.length),
      argStr v₁ root (physical v root argv) i + args[i].length < 2 ^ 64 ∧
      ∀ k ≤ args[i].length, v₁.mem (argStr v₁ root (physical v root argv) i + k) = charAt args[i] k := by
    intro i hi
    have hlt : userWord v root (argv + 8 * i) < 2 ^ 64 := load_lt _ (argv + 8 * i) 8
    have hin := hpages.string i hi
    rw [hsize] at hin
    obtain ⟨-, hbytes⟩ := hargs.string i hi
    obtain ⟨c, hc, hphysical'⟩ := exists_userPage hT hlt (by
      rw [← Nat.add_zero (userWord _ _ _), hbytes 0 (Nat.zero_le _)]
      exact Option.some_ne_none _)
    have hcp := (h.page _ c hc).lt
    rw [argStr, hword i hi.le, h.physical_same hm hlt, hphysical']
    refine ⟨by omega, fun k hk => ?_⟩
    have hbyte := hbytes k hk
    rw [userByte_page hT hc hlt (by omega)] at hbyte
    rw [Nat.add_assoc, h.mem_same hm hc (by omega), ← Nat.add_assoc, Option.some.inj hbyte]
  refine ⟨?_, fun i hi => (hstring i hi).2⟩
  constructor
  · intro i hi
    rw [List.length_map] at hi
    rw [hword i hi.le]
    exact hargs.word i hi
  · rw [List.length_map, hword _ le_rfl]
    exact hargs.last
  · intro i hi
    rw [List.length_map] at hi
    obtain ⟨hlt, hbytes⟩ := hstring i hi
    rw [List.getElem_map]
    refine strlenAt_eq_some.mpr ⟨hlt, ?_, fun j hj => ?_⟩
    · rw [hbytes _ le_rfl, charAt_of_le le_rfl]
    · rw [hbytes j hj.le, charAt_eq_getElem hj]
      exact fun he => (hargs.string i hi).1 (he ▸ List.getElem_mem hj)

/-! ## The pages of the caller -/

/-- The free pages are some of those that were free before. -/
theorem ExecLoaded.free (h : ExecLoaded S junk f v L new_page tmp v₁ L') : ∃ L₁,
    AddressSpace v₁ tmp.page_table (pageTree v₁.mem tmp.page_table) L₁ ∧
    (∀ c ∈ L₁, c ∈ L) ∧ new_page ∉ L₁ ∧
      tmp.frame ∉ L₁ ∧ tmp.frame ≠ new_page := by
  obtain ⟨L₁, hspace, hL₁⟩ := h.confined.space
  have hnodup := h.list.linked.nodup
  rw [h.pages] at hnodup
  obtain ⟨hnew, hrest⟩ := List.nodup_cons.mp hnodup
  refine ⟨L₁, hspace, fun c hc => ?_, fun hin => ?_, fun hin => ?_, fun he => hnew (by rw [← he]; simp)⟩
  · rw [h.pages]
    exact List.mem_cons_of_mem _ (List.mem_cons_of_mem _ (hL₁ c hc))
  · exact hnew (List.mem_cons_of_mem _ (hL₁ _ hin))
  · exact (List.nodup_cons.mp hrest).1 (hL₁ _ hin)

/-- The pages of the new process were free, and are not the page of the temporary process. -/
theorem ExecLoaded.node (h : ExecLoaded S junk f v L new_page tmp v₁ L') {q : List (Fin 512)}
    (hq : pageTree v₁.mem tmp.page_table q = some b) : b ∈ L ∧ b ≠ new_page ∧ b ≠ tmp.frame := by
  have hb := h.confined.node q b hq
  have hnodup := h.list.linked.nodup
  rw [h.pages] at hnodup
  obtain ⟨hnew, hrest⟩ := List.nodup_cons.mp hnodup
  refine ⟨?_, ?_, ?_⟩
  · rw [h.pages]
    exact List.mem_cons_of_mem _ (List.mem_cons_of_mem _ hb)
  · rintro rfl
    exact hnew (List.mem_cons_of_mem _ hb)
  · rintro rfl
    exact (List.nodup_cons.mp hrest).1 hb

theorem setFrameArgv_same (m : Memory) (frame user_sp_begin user_sp : ℕ) :
    Same m (setFrameArgv m frame user_sp_begin user_sp) fun x => x < frame ∨ frame + 4096 ≤ x :=
  ((store_same m (frame + 8) 8 _).mono fun x hx => by omega).trans
    ((store_same _ (frame + 10 * 8) 8 _).mono fun x hx => by omega)

/-- The addresses of the pages of a process. -/
def InProcess (m : Memory) (t : TaskMemory) (x : ℕ) : Prop :=
  (t.frame ≤ x ∧ x < t.frame + 4096) ∨ ∃ q c, pageTree m t.page_table q = some c ∧ c ≤ x ∧ x < c + 4096

/-- What `sys_exec` does after the copy leaves the pages of the new process alone. -/
theorem ExecLoaded.replace {argc : ℕ} (h : ExecLoaded S junk f v L new_page tmp v₁ L')
    (hown : OwnPages v process.toTaskMemory T L) (hfresh : ∀ L₁, OnList v₁ L₁ → tmp.user_sp ∉ L₁)
    (hcopy : copyArgv process.toTaskMemory tmp.toTaskMemory argv v₁ = .ok (argc, user_sp, v₂))
    (hrest : v₂ = { v₁ with mem := v₂.mem })
    (hsame : Same v₁.mem v₂.mem fun x => x < tmp.user_sp ∨ tmp.user_sp + 4096 ≤ x) :
    ∃ v', execReplace process argv new_page tmp v₁ = .ok (some argc, process.copyMemoryFrom tmp, v') ∧
      Same (setFrameArgv v₂.mem tmp.frame (tmp.user_sp + PGSIZE) user_sp) v'.mem
        (InProcess v₁.mem tmp.toTaskMemory) := by
  obtain ⟨L₁, hspace, hsub, hnew, hframe, hframenew⟩ := h.free
  have hspL : tmp.user_sp ∈ L := by rw [h.pages]; simp
  have hframeL : tmp.frame ∈ L := by rw [h.pages]; simp
  have hnewL : new_page ∈ L := by rw [h.pages]; simp
  have hsppage := h.list.page _ hspL
  have hframepage := h.list.page _ hframeL
  obtain ⟨m, hm⟩ : ∃ m, m = setFrameArgv v₂.mem tmp.frame (tmp.user_sp + PGSIZE) user_sp := ⟨_, rfl⟩
  have hargv := setFrameArgv_same v₂.mem tmp.frame (tmp.user_sp + PGSIZE) user_sp
  rw [← hm] at hargv ⊢
  -- the caller, whose pages the copy has not written
  have hcaller : AddressSpace v₁ process.page_table T L₁ := by
    constructor
    · exact hspace.list
    · exact hown.space.isTree_of_same h.same
    · exact hown.space.page
    · exact hown.space.inj
    · exact fun q c hq hin => hown.space.fresh q c hq (hsub c hin)
  have hapart : ∀ c x, c ∈ L → c ∉ L₁ → InPages L₁ x ∨ InTables T x → x < c ∨ c + 4096 ≤ x := by
    rintro c x hc hcL (⟨d, hd, hr⟩ | ⟨q, d, hq, -, hr⟩)
    · have := (h.list.page d (hsub d hd)).apart (h.list.page c hc) fun he => hcL (he ▸ hd)
      omega
    · have := hown.space.node_apart hq hc
      omega
  have hcaller₂ : AddressSpace { v₂ with mem := m } process.page_table T L₁ := by
    rw [hrest]
    refine hcaller.of_same ((hsame.mono fun x hx => ?_).trans (hargv.mono fun x hx => ?_))
    · exact hapart _ x hspL (hfresh L₁ hspace.list) hx
    · exact hapart _ x hframeL hframe hx
  have hconfined : Confined { c | c ∈ L₁ ∨
      ∃ q, T q = some c } m process.page_table { v₂ with mem := m } :=
    .of_space hcaller₂ (fun c hc => .inl hc) (fun q c hq => .inr ⟨q, hq⟩) (Same.refl _ _)
  obtain ⟨v₃, L₃, hfree, hl₃, hmem₃, hsame₃⟩ :=
    freePageTable_confined (t := process.toTaskMemory) hconfined
    hown.size_le hown.frame (by
      rintro (hin | ⟨q, hq⟩)
      · exact hown.frame_fresh (hsub _ hin)
      · exact hown.frame_out q hq)
  have hkept : ∀ c ∈ L, c ∉ L₁ → c ≠ process.frame ∧ ¬ (c ∈ L₁ ∨ ∃ q, T q = some c) := by
    intro c hc hcL
    refine ⟨fun he => hown.frame_fresh (he ▸ hc), ?_⟩
    rintro (hin | ⟨q, hq⟩)
    · exact hcL hin
    · exact hown.space.fresh q c hq hc
  have hnew₃ : new_page ∉ L₃ := by
    intro hin
    obtain ⟨hne, hout⟩ := hkept new_page hnewL hnew
    rcases hmem₃ _ hin with he | hin
    · exact hne he
    · exact hout hin
  obtain ⟨v₄, hpage, hl₄, hsame₄⟩ := freePage_same hl₃ (h.list.page _ hnewL) hnew₃
  refine ⟨v₄, ?_, ?_⟩
  · rw [execReplace, hcopy]
    show (liftExec (lift (process.freePageTable
      { v₂ with mem := setFrameArgv v₂.mem tmp.frame (tmp.user_sp + PGSIZE) user_sp } false)) >>= _) = _
    rw [← hm, hfree]
    show (liftExec (lift (v₃.freePage new_page)) >>= _) = _
    rw [hpage]
    rfl
  · -- all that is written now is in pages that are free or of the caller
    have hpages : ∀ c ∈ insert process.frame { c | c ∈ L₁ ∨ ∃ q, T q = some c }, IsPage c := by
      rintro c (rfl | hc | ⟨q, hq⟩)
      · exact hown.frame
      · exact h.list.page c (hsub c hc)
      · exact hown.space.page q c hq
    have hout : ∀ c ∈ L, c ∉ L₁ → c ≠ new_page → ∀ x, c ≤ x → x < c + 4096 →
        ¬ InSet (insert process.frame { c | c ∈ L₁ ∨ ∃ q, T q = some c }) x ∧
        ¬ InPages (new_page :: L₃) x := by
      intro c hc hcL hne x hx hx'
      obtain ⟨hneframe, hnot⟩ := hkept c hc hcL
      have hnotin : c ∉ insert process.frame { c | c ∈ L₁ ∨ ∃ q, T q = some c } := by
        rintro (he | hin)
        · exact hneframe he
        · exact hnot hin
      refine ⟨fun hin => ?_, ?_⟩
      · have := apart_of_notMem hpages (h.list.page c hc) hnotin hin
        omega
      · rintro ⟨d, hd, hr⟩
        have hdapart : d + 4096 ≤ c ∨ c + 4096 ≤ d := by
          rcases List.mem_cons.mp hd with rfl | hd
          · exact (h.list.page _ hnewL).apart (h.list.page c hc) (Ne.symm hne)
          · exact (hpages d (hmem₃ d hd)).apart (h.list.page c hc) fun he => hnotin (he ▸ hmem₃ d hd)
        omega
    have hof : ∀ x, InProcess v₁.mem tmp.toTaskMemory x →
        ∃ c ∈ L, c ∉ L₁ ∧ c ≠ new_page ∧ c ≤ x ∧ x < c + 4096 := by
      rintro x (hx | ⟨q, c, hq, hx⟩)
      · exact ⟨tmp.frame, hframeL, hframe, hframenew, hx⟩
      · exact ⟨c, (h.node hq).1, hspace.fresh q c hq, (h.node hq).2.1, hx⟩
    refine (hsame₃.mono fun x hx => ?_).trans (hsame₄.mono fun x hx => ?_)
    · obtain ⟨c, hc, hcL, hne, hle, hlt⟩ := hof x hx
      exact (hout c hc hcL hne x hle hlt).1
    · obtain ⟨c, hc, hcL, hne, hle, hlt⟩ := hof x hx
      exact (hout c hc hcL hne x hle hlt).2

/-- The page table of the new process is as it was, and so are its pages. -/
theorem ExecLoaded.tree_same (h : ExecLoaded S junk f v L new_page tmp v₁ L')
    (htable : ∀ q, q.length < 3 → pageTree v₁.mem tmp.page_table q ≠ some tmp.user_sp)
    (hsame : Same v₁.mem v₂.mem fun x => x < tmp.user_sp ∨ tmp.user_sp + 4096 ≤ x)
    (hend : Same (setFrameArgv v₂.mem tmp.frame (tmp.user_sp + PGSIZE) user_sp) v'.mem
      (InProcess v₁.mem tmp.toTaskMemory)) :
    (∀ a < 2 ^ 64, translate v' tmp.page_table a =
    (pageTree v₁.mem tmp.page_table (path a)).map (· + a % 4096)) ∧
      ∀ q b, pageTree v₁.mem tmp.page_table q = some b → ∀ k < 4096,
      v'.mem (b + k) = v₂.mem (b + k) := by
  obtain ⟨L₁, hspace, -, -, -, -⟩ := h.free
  have hframeL : tmp.frame ∈ L := by rw [h.pages]; simp
  have hspL : tmp.user_sp ∈ L := by rw [h.pages]; simp
  have hpage : ∀ q b, pageTree v₁.mem tmp.page_table q = some b → ∀ k < 4096,
      v'.mem (b + k) = v₂.mem (b + k) := by
    intro q b hq k hk
    have hapart := (h.list.page b (h.node hq).1).apart (h.list.page _ hframeL) (h.node hq).2.2
    rw [hend _ (.inr ⟨q, b, hq, by omega, by omega⟩)]
    exact setFrameArgv_same v₂.mem tmp.frame _ _ _ (by omega)
  refine ⟨fun a ha => ?_, hpage⟩
  refine translate_tree (hspace.isTree.congr fun q b i hlt hq => ?_)
    (fun q b hq => (hspace.page q b hq).ne_zero) ha
  refine child_congr (fun x hx hx' => ?_) i
  have hapart := (hspace.page q b hq).apart (h.list.page _ hspL) fun he => htable q hlt (he ▸ hq)
  obtain ⟨k, rfl⟩ := Nat.exists_eq_add_of_le hx
  rw [hpage q b hq k (by omega)]
  exact hsame _ (by omega)

/-! ## What the new program finds -/

/-- The stack pointer of a process that enters user mode. -/
def frameSp (process : Task) (v : VirtualMemory) : ℕ := v.mem.load (process.frame + 8) 8

/-- The arguments are passed: their number is returned, and the array and the strings are in the
stack page, one below the other. -/
structure Passed (args : List (List UInt8)) (n : ℕ) (process : Task) (v : VirtualMemory) : Prop where
  argc : n = args.length
  a1 : getRawArg v.mem process.frame 1 = frameSp process v
  aligned : frameSp process v % 16 = 0
  inside : userStackVa ≤ frameSp process v ∧ frameSp process v < userStackVa + PGSIZE
  argv : Argv v process.page_table (frameSp process v) args
  copy : ∀ i (hi : i < args.length),
    frameSp process v + 8 * (args.length + 1) ≤
    userWord v process.page_table (frameSp process v + 8 * i) ∧
      userWord v process.page_table
      (frameSp process v + 8 * i) + args[i].length + 1 ≤ userStackVa + PGSIZE
  apart : ∀ i j (hj : j < args.length), i < j →
    userWord v process.page_table (frameSp process v + 8 * j) + args[j].length + 1 ≤
      userWord v process.page_table (frameSp process v + 8 * i)

/-- The stack pointer goes down by as much as the copy has gone down in the stack page. -/
theorem setFrameArgv_sp {m : Memory} {frame d : ℕ} (hsp : m.load (frame + 8) 8 = userStackVa + PGSIZE)
    (hd : d < PGSIZE) :
    (setFrameArgv m frame (b + PGSIZE) (b + d)).load (frame + 8) 8 = userStackVa + d ∧
      getRawArg (setFrameArgv m frame (b + PGSIZE) (b + d)) frame 1 = userStackVa + d := by
  have hsize : PGSIZE = 4096 := rfl
  have hlt : userStackVa + d < 2 ^ 64 := by
    rw [userStackVa_eq]
    omega
  have hnew : (m.load (frame + 8) 8 + 2 ^ 64 - (b + PGSIZE + 2 ^ 64 - (b + d)) % 2 ^ 64) % 2 ^ 64 =
      userStackVa + d := by
    rw [hsp]
    rw [userStackVa_eq] at hlt ⊢
    omega
  have hfirst : (setFrameSp m frame (userStackVa + d)).load (frame + 8) 8 = userStackVa + d :=
    load_store_of_lt _ _ hlt
  rw [setFrameArgv, hnew]
  simp only [hfirst]
  constructor
  · rw [setFrameA1, (store_same _ (frame + 10 * 8) 8 _).load_eq fun x hx hx' => by omega]
    exact hfirst
  · exact load_store_of_lt _ _ hlt

/-- What the copy has built, read through the page table. -/
theorem Built.passed {lens : List ℕ} {p : Task}
    (hbuilt : Built process.toTaskMemory tmp.toTaskMemory argv lens v₁ v₂)
    (hfits : argTotal lens ≤ PGSIZE) (hlens : lens = args.map List.length) (hzero : ∀ s ∈ args, 0 ∉ s)
    (hbytes : ∀ i (hi : i < args.length), ∀ k ≤ args[i].length,
      v₁.mem (argStr v₁ process.page_table argv i + k) = charAt args[i] k)
    (hbyte : ∀ k < 4096, userByte v' p.page_table (userStackVa + k) = some (v₂.mem (tmp.user_sp + k)))
    (hsp : frameSp p v' = userStackVa + (argEnd tmp.toTaskMemory lens - tmp.user_sp))
    (ha1 : getRawArg v'.mem p.frame 1 = userStackVa + (argEnd tmp.toTaskMemory lens - tmp.user_sp))
    (hal : tmp.user_sp % 4096 = 0) : Passed args lens.length p v' := by
  have hsize : PGSIZE = 4096 := rfl
  have hlength : lens.length = args.length := by rw [hlens, List.length_map]
  obtain ⟨hend, hroom⟩ := argEnd_bounds tmp.toTaskMemory hfits
  obtain ⟨-, htop⟩ := argTop_bounds tmp.toTaskMemory hfits (le_refl lens.length)
  have hle := le_rounded ((lens.length + 1) * 8)
  have hmod := rounded_mod ((lens.length + 1) * 8)
  have hmodSize := argSize_mod lens lens.length
  obtain ⟨d, hd⟩ := Nat.exists_eq_add_of_le hend
  rw [hd, Nat.add_sub_cancel_left] at hsp ha1
  have hword : ∀ k, k + 8 ≤ 4096 →
      userWord v' p.page_table (userStackVa + k) = v₂.mem.load (tmp.user_sp + k) 8 := by
    refine fun k hk => leNat_congr fun j hj => ?_
    rw [Nat.add_assoc, hbyte (k + j) (by omega), Option.getD_some, Nat.add_assoc]
  have hptr : ∀ j < args.length, userWord v' p.page_table (userStackVa + d + 8 * j) =
      userStackVa + (argTop tmp.toTaskMemory lens (j + 1) - tmp.user_sp) := by
    intro j hj
    obtain ⟨hlow, hj'⟩ := argTop_bounds tmp.toTaskMemory hfits (show j + 1 ≤ lens.length by omega)
    rw [Nat.add_assoc, hword _ (by omega), ← Nat.add_assoc, ← hd, hbuilt.ptr j (by omega), argPtr]
    omega
  have hstring : ∀ j (hj : j < args.length),
      argTop tmp.toTaskMemory lens lens.length ≤ argTop tmp.toTaskMemory lens (j + 1) ∧
      argTop tmp.toTaskMemory lens (j + 1) + args[j].length + 1 ≤ argTop tmp.toTaskMemory lens j ∧
      argTop tmp.toTaskMemory lens j ≤ tmp.user_sp + PGSIZE := by
    intro j hj
    have hj' : j < lens.length := by omega
    have hlen : lens[j] = args[j].length := by simp only [hlens, List.getElem_map]
    have hstep := argTop_succ tmp.toTaskMemory hfits hj'
    obtain ⟨-, htop'⟩ := argTop_bounds tmp.toTaskMemory hfits hj'.le
    have hone := le_rounded (args[j].length + 1)
    rw [hlen] at hstep
    exact ⟨argTop_mono tmp.toTaskMemory hfits (by omega) le_rfl, by omega, by omega⟩
  constructor
  · exact hlength
  · exact ha1.trans hsp.symm
  · rw [hsp, userStackVa_eq]
    omega
  · omega
  · rw [hsp]
    constructor
    · intro k hk
      rw [Nat.add_assoc, hbyte _ (by omega)]
      exact Option.some_ne_none _
    · intro j hj
      rw [hptr j hj, userStackVa_eq]
      omega
    · rw [Nat.add_assoc, hword _ (by omega), ← Nat.add_assoc, ← hd, ← hlength]
      exact hbuilt.last
    · intro j hj
      obtain ⟨hlow, hhigh, htop'⟩ := hstring j hj
      have hj' : j < lens.length := by omega
      have hlen : lens[j] = args[j].length := by simp only [hlens, List.getElem_map]
      refine ⟨hzero _ (List.getElem_mem hj), fun k hk => ?_⟩
      rw [hptr j hj, Nat.add_assoc, hbyte _ (by omega), ← hbytes j hj k hk,
        ← hbuilt.copy j (by omega) k (by rw [hlen]; exact hk)]
      congr 2
      omega
  · intro j hj
    obtain ⟨hlow, hhigh, htop'⟩ := hstring j hj
    rw [hsp, hptr j hj]
    omega
  · intro i j hj hij
    obtain ⟨hlow, hhigh, htop'⟩ := hstring j hj
    have hmono := argTop_mono tmp.toTaskMemory hfits hij (show j ≤ lens.length by omega)
    rw [hsp, hptr j hj, hptr i (by omega)]
    omega

/-- Arguments that fit are copied, whatever the file. The call has a result when the stack page is
not free. -/
theorem sysExec_some (hown : OwnPages v process.toTaskMemory T L)
    (hargs : Argv v process.page_table (getRawArg v.mem process.frame 1) args)
    (hpages : PageEach v process.page_table (getRawArg v.mem process.frame 1) args)
    (hlen : args.length ≤ 16)
    (htotal : argTotal (args.map List.length) ≤ PGSIZE)
    (hload : execLoad S openFile junk process v = .ok (some (argvOf process v, new_page, tmp), v₁))
    (hfresh : ∀ L₁, OnList v₁ L₁ → tmp.user_sp ∉ L₁) : ∃ v₂ v',
      sysExec S openFile junk process v =
        .ok (some (args.map List.length).length, process.copyMemoryFrom tmp, v') ∧
      Built process.toTaskMemory tmp.toTaskMemory (argvOf process v) (args.map List.length) v₁ v₂ ∧
      (∀ i (hi : i < args.length), ∀ k ≤ args[i].length,
        v₁.mem (argStr v₁ process.page_table (argvOf process v) i + k) = charAt args[i] k) ∧
      Same v₁.mem v₂.mem (fun x => x < tmp.user_sp ∨ tmp.user_sp + 4096 ≤ x) ∧
      Same (setFrameArgv v₂.mem tmp.frame (tmp.user_sp + PGSIZE)
      (argEnd tmp.toTaskMemory (args.map List.length))) v'.mem
        (InProcess v₁.mem tmp.toTaskMemory) := by
  obtain ⟨-, f, L', -, hloaded⟩ := execLoad_some hown.space.list hload
  obtain ⟨hlist, hbytes⟩ := hargs.argList hpages hown.space hloaded.same (load_lt v.mem _ 8)
  obtain ⟨v₂, hcopy, hbuilt⟩ :=
    copyArgv_eq (hloaded.argStage hown.space) htotal hlist (by rw [List.length_map]; exact hlen)
  obtain ⟨hend, -⟩ := argEnd_bounds tmp.toTaskMemory htotal
  have hsize : PGSIZE = 4096 := rfl
  have hsame : Same v₁.mem v₂.mem fun x => x < tmp.user_sp ∨ tmp.user_sp + 4096 ≤ x :=
    hbuilt.same.mono fun x hx => by omega
  obtain ⟨v', hreplace, hkept⟩ := hloaded.replace hown hfresh hcopy hbuilt.rest hsame
  refine ⟨v₂, v', ?_, hbuilt, hbytes, hsame, hkept⟩
  rw [sysExec, hload]
  exact hreplace

/-- A call that succeeds passes the arguments, unless a segment of the file comes to the stack page. -/
theorem sysExec_passes (hown : OwnPages v process.toTaskMemory T L)
    (hargs : Argv v process.page_table (getRawArg v.mem process.frame 1) args)
    (hpages : PageEach v process.page_table (getRawArg v.mem process.frame 1) args)
    (hlen : args.length ≤ 16)
    (htotal : argTotal (args.map List.length) ≤ PGSIZE)
    (hspare : ∀ f, openFile v.mem (pathName process v) = some f → FileSpares S f 0 junk userStackVa)
    (hrun : sysExec S openFile junk process v = .ok (some n, process', v')) :
    Passed args n process' v' := by
  obtain ⟨⟨o, v₁⟩, hload, hrest⟩ := bind_eq_ok.mp hrun
  rw [liftExec_eq_ok] at hload
  cases o with
  | none => cases hrest
  | some x =>
    obtain ⟨argv, new_page, tmp⟩ := x
    obtain ⟨rfl, f, L', hfile, hloaded⟩ := execLoad_some hown.space.list hload
    have hsize : PGSIZE = 4096 := rfl
    have hstage := hloaded.argStage hown.space
    have hstack := hloaded.stack (hspare f hfile)
    obtain ⟨L₁, hspace, -⟩ := hloaded.free
    obtain ⟨v₂, v₃, hresult, hbuilt, hbytes, hsame, hkept⟩ :=
      sysExec_some hown hargs hpages hlen htotal hload fun L₂ hl₂ => by
        rw [hl₂.unique hspace.list]
        exact hspace.fresh _ _ hstack
    obtain ⟨hn, hpair⟩ := Prod.mk.inj (Except.ok.inj (hresult.symm.trans hrun))
    obtain rfl := Option.some.inj hn
    obtain ⟨rfl, rfl⟩ := Prod.mk.inj hpair
    -- the stack page, through the new page table
    obtain ⟨hT, hmem⟩ := hloaded.tree_same (fun q hlt hq => by
      rw [hspace.inj q _ _ hq hstack, path, length_indices] at hlt
      omega) hsame hkept
    have hbyte : ∀ k < 4096, userByte v₃ tmp.page_table (userStackVa + k) =
        some (v₂.mem (tmp.user_sp + k)) := by
      intro k hk
      rw [userByte_page hT hstack (by decide) (by rw [userStackVa_eq]; omega),
        show userStackVa % 4096 = 0 by decide,
        Nat.add_zero, hmem _ _ hstack k hk]
    -- the stack pointer of the new frame
    obtain ⟨hend, hroom⟩ := argEnd_bounds tmp.toTaskMemory htotal
    obtain ⟨-, htop⟩ := argTop_bounds tmp.toTaskMemory htotal (le_refl (args.map List.length).length)
    have hle := le_rounded (((args.map List.length).length + 1) * 8)
    obtain ⟨d, hd⟩ := Nat.exists_eq_add_of_le hend
    have hbefore : v₂.mem.load (tmp.frame + 8) 8 = userStackVa + PGSIZE := by
      have hapart := hstage.frame.apart hstage.page hstage.frame_ne
      rw [← hstage.sp]
      exact hsame.load_eq fun x hx hx' => by omega
    obtain ⟨hsp, ha1⟩ := setFrameArgv_sp (b := tmp.user_sp) (d := d) hbefore (by omega)
    rw [← hd] at hsp ha1
    have hsp' : frameSp tmp v₃ =
        userStackVa + (argEnd tmp.toTaskMemory (args.map List.length) - tmp.user_sp) := by
      rw [frameSp, hkept.load_eq fun x hx hx' => .inl ⟨by omega, by omega⟩, hsp, hd,
        Nat.add_sub_cancel_left]
    have ha1' : getRawArg v₃.mem tmp.frame 1 =
        userStackVa + (argEnd tmp.toTaskMemory (args.map List.length) - tmp.user_sp) := by
      rw [getRawArg, hkept.load_eq fun x hx hx' => .inl ⟨by omega, by omega⟩, ← getRawArg, ha1, hd,
        Nat.add_sub_cancel_left]
    refine hbuilt.passed htotal rfl (fun s hs => ?_) hbytes hbyte hsp' ha1' hstage.page.aligned
    obtain ⟨i, hi, rfl⟩ := List.getElem_of_mem hs
    exact (hargs.string i hi).1

/-! ## A caller with one argument -/

theorem load_mod (m : Memory) (a : ℕ) : m a = UInt8.ofNat (m.load a 8) := by
  have hload : m.load a 8 = (m a).toNat + 256 * leNat m (a + 1) 7 := rfl
  have hlt := (m a).toNat_lt
  refine UInt8.toNat_inj.mp ?_
  rw [UInt8.toNat_ofNat', hload]
  omega

/-- A caller that passes one empty string. -/
theorem exists_argv : ∃ (process : Task) (v : VirtualMemory) (L : List ℕ)
    (T : List (Fin 512) → Option ℕ),
    OwnPages v process.toTaskMemory T L ∧ 9 ≤ L.length ∧ argvOf process v ≠ 0 ∧
      Argv v process.page_table (getRawArg v.mem process.frame 1) [[]] ∧
        PageEach v process.page_table (getRawArg v.mem process.frame 1) [[]] := by
  obtain ⟨process, v, L, T, b, hown, hfree, hb, hpage, ha1, hword⟩ :=
    exists_caller [userStackVa, 0] (by decide) (by decide)
  have hT : ∀ a < 2 ^ 64, translate v process.page_table a = (T (path a)).map (· + a % 4096) :=
    fun a ha => translate_eq hown.space ha
  have hstack : userStackVa < 2 ^ 64 := by decide
  have hbyte : ∀ k < 4096, userByte v process.page_table (userStackVa + k) = some (v.mem (b + k)) := by
    intro k hk
    rw [userByte_page hT hb hstack (by rw [userStackVa_eq]; omega),
      show userStackVa % 4096 = 0 by decide, Nat.add_zero]
  have hread : ∀ j < 2, userWord v process.page_table (userStackVa + 8 * j) =
      v.mem.load (b + 8 * j) 8 := by
    refine fun j hj => leNat_congr fun k hk => ?_
    rw [Nat.add_assoc, hbyte (8 * j + k) (by omega), Option.getD_some, Nat.add_assoc]
  have hfirst : userWord v process.page_table (userStackVa + 8 * 0) = userStackVa :=
    (hread 0 (by decide)).trans (hword 0 (by decide))
  refine ⟨process, v, L, T, hown, hfree, ?_, ?_, ?_⟩
  · rw [argvOf_eq hown.space hb ha1]
    exact hpage.ne_zero
  · rw [ha1]
    constructor
    · intro k hk
      rw [hbyte k (by simp at hk; omega)]
      exact Option.some_ne_none _
    · intro i hi
      obtain rfl : i = 0 := by simpa using hi
      rw [hfirst]
      decide
    · exact (hread 1 (by decide)).trans (hword 1 (by decide))
    · intro i hi
      obtain rfl : i = 0 := by simpa using hi
      refine ⟨by simp, fun k hk => ?_⟩
      obtain rfl : k = 0 := by simpa using hk
      have hload : v.mem.load b 8 = userStackVa := hword 0 (by decide)
      have hzero : v.mem b = 0 := by
        rw [load_mod v.mem b, hload]
        decide
      rw [hfirst, hbyte 0 (by decide)]
      exact congrArg some hzero
  · rw [ha1]
    constructor
    · decide
    · intro i hi
      obtain rfl : i = 0 := by simpa using hi
      rw [hfirst]
      simp only [List.getElem_cons_zero, List.length_nil]
      decide

/-- An empty string is passed to a program without segments. -/
theorem sysExec_passes_empty : ∃ (process process' : Task) (v v' : VirtualMemory) (L : List ℕ)
    (T : List (Fin 512) → Option ℕ), OwnPages v process.toTaskMemory T L ∧
      Argv v process.page_table (getRawArg v.mem process.frame 1) [[]] ∧
      PageEach v process.page_table (getRawArg v.mem process.frame 1) [[]] ∧
      sysExec StringStream.base (fun _ _ => some ⟨emptyProgram, 0⟩) [] process v =
      .ok (some 1, process', v') ∧
      Passed [[]] 1 process' v' := by
  obtain ⟨process, v, L, T, hown, hfree, hne, hargs, hpages⟩ := exists_argv
  have hspare : ∀ g, some (⟨emptyProgram, 0⟩ : StringStream) = some g →
      FileSpares StringStream.base g 0 [] userStackVa := by
    rintro g hg
    obtain rfl := Option.some.inj hg
    intro st hst j hj
    rw [emptyProgram_valid.2] at hj
    exact absurd hj (Nat.not_lt_zero j)
  obtain ⟨new_page, tmp, v₁, hload⟩ := execLoad_empty hown.space.list (show 6 ≤ L.length by omega) hne
  obtain ⟨-, f, L', hfile, hloaded⟩ := execLoad_some hown.space.list hload
  obtain ⟨L₁, hspace, -⟩ := hloaded.free
  obtain ⟨v₂, v', hrun, -⟩ :=
    sysExec_some hown hargs hpages (by decide) (by decide) hload fun L₂ hl₂ => by
    rw [hl₂.unique hspace.list]
    exact hspace.fresh _ _ (hloaded.stack (hspare f hfile))
  exact ⟨process, _, v, v', L, T, hown, hargs, hpages, hrun,
    sysExec_passes hown hargs hpages (by decide) (by decide) hspare hrun⟩

/-! ## A segment over the stack page -/

/-- The program header of a segment that has the addresses of the stack page and no bytes of the file. -/
def stackHeader : List UInt8 :=
  [1, 0, 0, 0, 6, 0, 0, 0] ++ List.replicate 8 0 ++ [0, 0xe0, 0xff, 0xff, 0x3f, 0, 0, 0] ++
  List.replicate 16 0 ++
    [0, 0x10, 0, 0, 0, 0, 0, 0] ++ List.replicate 8 0

def stackProgram : List UInt8 :=
  Elf.magic ++ [2, 1, 1] ++ List.replicate 9 0 ++ [2, 0, 243, 0, 1, 0, 0, 0] ++ List.replicate 8 0 ++
    [64, 0, 0, 0, 0, 0, 0, 0] ++ List.replicate 12 0 ++ [64, 0, 56, 0, 1, 0] ++
    List.replicate 6 0 ++ stackHeader

theorem stackHeader_eq : Elf.p_type stackHeader = Elf.PT_LOAD ∧ Elf.p_vaddr stackHeader = userStackVa ∧
    Elf.p_memsz stackHeader = PGSIZE ∧ Elf.p_filesz stackHeader = 0 := by
  decide +kernel

/-- Another page, of zeros, is where page `b` was in the stack. -/
structure Covered (v : VirtualMemory) (root b : ℕ) : Prop where
  space : ∃ L, AddressSpace v root (pageTree v.mem root) L ∧ b ∉ L
  table : ∀ q, q.length < 3 → pageTree v.mem root q ≠ some b
  zero : ∃ c, pageTree v.mem root (path userStackVa) = some c ∧ c ≠ b ∧ ∀ k < 4096, v.mem (c + k) = 0

/-- `MapMemory` of the stack page, which is mapped. -/
theorem covered_of_map {r : Bool} (h : AddressSpace v root T L)
    (hb : T (path userStackVa) = some b) (hk : k < 1024)
    (hmap : v.mapMemory root userStackVa (userStackVa + PGSIZE) k = .ok (r, v')) :
    Covered v' root b := by
  have hbL := h.fresh _ b hb
  have hcount : pageCount userStackVa (userStackVa + PGSIZE) = 1 := by decide
  have hdown : addrCastDown userStackVa = userStackVa := by decide
  obtain ⟨-, P, T', L', hrange, hP⟩ :=
    h.userSpace.toTables.mapMemory_ok (by decide) (by rw [hcount, hdown]; decide) hk hmap
  rw [hcount] at hP
  have hspace := (h.userSpace.mapped hrange hk).addressSpace
  have hmem : ∀ c ∈ P ++ L', c ≠ b := fun c hc he => hbL (he ▸ hrange.sub hc)
  have hc : P[0] ∈ P := List.getElem_mem (by omega)
  have hmapped := hrange.mapped 0 (by omega)
  rw [hdown, Nat.mul_zero, Nat.add_zero] at hmapped
  have hpage := (hrange.page _ hc).1
  have hlt := hpage.lt
  obtain ⟨-, hvalid, htarget, -⟩ := entry_flags hpage.aligned (by rw [MEMORY_END_eq]; omega) hk
  constructor
  · exact ⟨L', hspace, fun hin => hmem b (List.mem_append_right P hin) rfl⟩
  · intro q hq hqb
    rw [hrange.tables.pageTree_table (by omega)] at hqb
    rcases hrange.new q b hqb with hold | hin
    · split at hold
      · have hpath := h.inj q _ b hold hb
        rw [hpath, path, length_indices] at hq
        omega
      · cases hold
    · exact hbL hin
  · refine ⟨P[0], ?_, hmem _ (List.mem_append_left L' hc), fun k hk => ?_⟩
    · rw [hrange.tables.pageTree_path, hmapped, entryTarget, if_neg hvalid, htarget]
    · exact hrange.zero _ hc _ (by omega) (Nat.add_lt_add_left hk _)

/-- A write that is apart from the free pages and from the pages of the process. -/
theorem Covered.of_same {m' : Memory} (h : Covered v root b)
    (hm : ∀ L, OnList v L → Same v.mem m' fun x => InPages L x ∨
      ∃ q c, pageTree v.mem root q = some c ∧ c ≤ x ∧ x < c + 4096) :
      Covered { v with mem := m' } root b := by
  obtain ⟨L, hspace, hbL⟩ := h.space
  obtain ⟨c, hc, hne, hzero⟩ := h.zero
  have hsame := hm L hspace.list
  have hspace' : AddressSpace { v with mem := m' } root (pageTree v.mem root) L :=
    hspace.of_same (hsame.mono fun x hx => by
    rcases hx with hx | ⟨q, c, hq, -, hr⟩
    · exact .inl hx
    · exact .inr ⟨q, c, hq, hr⟩)
  have htree := hspace'.pageTree_eq
  constructor
  · exact ⟨L, by rw [htree]; exact hspace', hbL⟩
  · rw [htree]
    exact h.table
  · rw [htree]
    refine ⟨c, hc, hne, fun k hk => ?_⟩
    rw [← hzero k hk]
    exact hsame _ (.inr ⟨_, c, hc, by omega, by omega⟩)

/-- Its only program header is this one. -/
theorem stackProgram_reads : ∃ h st ph st', header StringStream.base ⟨stackProgram, 0⟩ [] = (h, st) ∧
    Elf.valid h Elf.ET_EXEC = true ∧ Elf.e_phnum h = 1 ∧
      StringStream.base.readForType
      (StringStream.base.seek st ((Elf.e_phoff h + 0 * Elf.e_phentsize h) % 2 ^ 64)) []
        Elf.phdrSize = (ph, st') ∧ ph = stackHeader := by
  refine ⟨_, _, _, _, rfl, ?_, ?_, rfl, ?_⟩
  · decide +kernel
  · decide +kernel
  · decide +kernel

/-- The segment is mapped, and there is nothing to read. -/
theorem loadSegmentOf_stack {s : Loading StringStream} {w : VirtualMemory}
    (hsize : s.process.used_address_size = 0)
    (hmap : s.vm.mapMemory s.process.page_table userStackVa (userStackVa + PGSIZE)
    (Elf.privi stackHeader ||| PTE.U) =
      .ok (true, w)) :
    ∃ s', loadSegmentOf StringStream.base 0 stackHeader s = .ok (true, s') ∧ s'.vm = w ∧
      s'.process.frame = s.process.frame := by
  obtain ⟨htype, hvaddr, hmemsz, hfilesz⟩ := stackHeader_eq
  have hbeg : (userStackVa + 0) % 2 ^ 64 = userStackVa := by decide
  have hend : (userStackVa + PGSIZE) % 2 ^ 64 = userStackVa + PGSIZE := by decide
  have hnone : ∀ st, loadSegment StringStream.base st w s.process.page_table userStackVa 0 =
      .ok (true, w, st) :=
    fun st => by rw [loadSegment, dif_neg (by omega)]
  obtain ⟨t, hadd⟩ : ∃ t, s.process.addRegion userStackVa (userStackVa + PGSIZE) = .ok t := by
    rw [TaskMemory.addRegion, dif_pos (by omega)]
    exact ⟨_, rfl⟩
  refine ⟨{ s with
    process := { s.process with toTaskMemory := t }
    vm := w
    stream := StringStream.base.seek s.stream (Elf.p_offset stackHeader) }, ?_, rfl,
      (addRegion_kept hadd).frame⟩
  rw [loadSegmentOf, if_neg (by rw [hmemsz, hfilesz]; decide)]
  simp only [hvaddr, hmemsz, hfilesz, hbeg, hend, hmap, lift_ok_bind, hnone, not_true_eq_false, if_false]
  rw [if_neg (by rw [hsize]; decide), hadd]
  rfl

/-- `ExecuteImpl` takes the stack page away. -/
theorem executeImpl_stack {F : Set ℕ} {m : Memory} {p : Task} (hF : ∀ c ∈ F, IsPage c)
    (hc : Confined F m p.page_table v)
    (hb : pageTree v.mem p.page_table (path userStackVa) = some b) (hl : OnList v L)
    (hlen : 3 ≤ L.length) (hframe : IsPage p.frame) (hframeF : p.frame ∉ F)
    (hsize : p.used_address_size = 0) :
    ∃ p' v', executeImpl StringStream.base [] ⟨stackProgram, 0⟩ p v = .ok (true, p', v') ∧
    Covered v' p.page_table b := by
  obtain ⟨L₁, hspace, hL₁⟩ := hc.space
  obtain rfl : L = L₁ := hl.unique hspace.list
  have hcount : pageCount userStackVa (userStackVa + PGSIZE) = 1 := by decide
  have hdown : addrCastDown userStackVa = userStackVa := by decide
  obtain ⟨w, hmap⟩ : ∃ w,
    v.mapMemory p.page_table userStackVa (userStackVa + PGSIZE) (Elf.privi stackHeader ||| PTE.U) =
      .ok (true, w) :=
    hspace.userSpace.toTables.mapMemory_true (by decide) (by rw [hcount, hdown]; decide)
    (privi_lt stackHeader)
      ((cost_le _ _ _).trans (by rw [hcount]; omega))
  have hcovered := covered_of_map hspace hb (privi_lt stackHeader) hmap
  obtain ⟨hw, -⟩ := hc.mapMemory (by decide) (privi_lt stackHeader) hmap
  -- the run
  obtain ⟨h, st, ph, st', hheader, hvalid, hphnum, hread, rfl⟩ := stackProgram_reads
  obtain ⟨s₁, heq, hvm, -, hprocess⟩ :=
    loadHeader_eq StringStream.base Elf.ET_EXEC 0 stackHeader ⟨p, {}, v, st'⟩
  obtain ⟨s', hsegment, hvm', hframe'⟩ :=
    loadSegmentOf_stack (s := s₁) (w := w) (by rw [hprocess]; exact hsize)
    (by rw [hprocess, hvm]; exact hmap)
  rw [if_neg (not_not.mpr stackHeader_eq.1), hsegment] at heq
  refine ⟨s'.process, { s'.vm with mem := setFrameMepc s'.vm.mem s'.process.frame (Elf.e_entry h) },
    ?_, ?_⟩
  · rw [executeImpl, load]
    simp only [hheader, hvalid, hphnum, not_true_eq_false, if_false, loadFrom, hread]
    rw [heq]
    rfl
  · rw [hvm', hframe', hprocess]
    refine hcovered.of_same fun L₂ hl₂ => (store_same w.mem (p.frame + 31 * 8) 8 _).mono fun x hx => ?_
    obtain ⟨L₃, hspace₃, hL₃⟩ := hw.space
    rw [hl₂.unique hspace₃.list] at hx
    have hin : InSet F x := by
      rcases hx with hx | ⟨q, c, hq, hr⟩
      · exact inSet_of_inPages hL₃ hx
      · exact ⟨c, hw.node q c hq, hr⟩
    have := apart_of_notMem hF hframe hframeF hin
    omega

/-- So the new program finds zeros where its arguments should be. -/
theorem sysExec_loses_argument : ¬ ∀ (process process' : Task) (v v' : VirtualMemory) (L : List ℕ)
    (T : List (Fin 512) → Option ℕ) (args : List (List UInt8)) (n : ℕ) (file : StringStream),
    OwnPages v process.toTaskMemory T L →
      Argv v process.page_table (getRawArg v.mem process.frame 1) args →
        PageEach v process.page_table (getRawArg v.mem process.frame 1) args → args.length ≤ 16 →
          argTotal (args.map List.length) ≤ PGSIZE →
            sysExec StringStream.base (fun _ _ => some file) [] process v = .ok (some n, process', v') →
              Passed args n process' v' := by
  intro hall
  obtain ⟨process, v, L, T, hown, hfree, hne, hargs, hpages⟩ := exists_argv
  -- the run
  obtain ⟨c, t, w₁, w₂, L₁, hl₁, hlen₁, hinit, heq⟩ : ∃ c t w₁ w₂ L₁, OnList w₁ L₁ ∧
    L.length = L₁.length + 1 ∧
      (zero process.kernel_sp).init w₁ false = .ok (true, t, w₂) ∧
        execLoad StringStream.base (fun _ _ => some ⟨stackProgram, 0⟩) [] process v = _ :=
    execLoad_eq hown.space.list (by omega) hne rfl
  obtain ⟨t', w', L₂, hinit', hl₂, hlen₂⟩ := init_true (t := zero process.kernel_sp) hl₁ (by omega) rfl
  obtain ⟨-, hpair⟩ := Prod.mk.inj (Except.ok.inj (hinit.symm.trans hinit'))
  obtain ⟨rfl, rfl⟩ := Prod.mk.inj hpair
  obtain ⟨fr, root, b, L', rfl, -, ht, hc, hstack, -⟩ := init_confined hl₁ rfl hinit
  have hF : ∀ d ∈ { d | d ∈ root :: b :: L' }, IsPage d :=
    fun d hd => hl₁.page d (List.mem_cons_of_mem fr hd)
  have hfr : IsPage fr := hl₁.page fr (by simp)
  have hfrF : fr ∉ { d | d ∈ root :: b :: L' } := (List.nodup_cons.mp hl₁.linked.nodup).1
  obtain ⟨tmp, w₃, hexec, hcovered⟩ := executeImpl_stack hF (p := ⟨t, {}⟩) (by rw [ht]; exact hc)
    (by rw [ht]; exact hstack) hl₂ (by omega) (by rw [ht]; exact hfr)
    (by rw [ht]; exact hfrF) (by rw [ht]; rfl)
  obtain ⟨-, ⟨hroot, hframe, hsp⟩, -⟩ := executeImpl_within hF (p := ⟨t, {}⟩) (by rw [ht]; exact hc)
    (by rw [ht]; exact hfr) (by rw [ht]; exact hfrF) hexec
  rw [ht] at hcovered hroot hsp
  simp only at hcovered hroot hsp
  rw [← hroot, ← hsp] at hcovered
  have hload : execLoad StringStream.base (fun _ _ => some ⟨stackProgram, 0⟩) [] process v =
      .ok (some (argvOf process v, c, tmp), w₃) := by
    rw [heq, hexec]
    rfl
  obtain ⟨-, f, L₃, -, hloaded⟩ := execLoad_some hown.space.list hload
  obtain ⟨L₄, hspace₄, hspL⟩ := hcovered.space
  obtain ⟨v₂, v', hrun, -, -, hsame, hkept⟩ :=
    sysExec_some hown hargs hpages (by decide) (by decide) hload
    fun L₅ hl₅ => by
      rw [hl₅.unique hspace₄.list]
      exact hspL
  have hpassed := hall process _ v v' L T [[]] 1 ⟨stackProgram, 0⟩ hown hargs hpages
      (by decide) (by decide) hrun
  -- the page in the place of the stack page is still zero
  obtain ⟨hT, hmem⟩ := hloaded.tree_same hcovered.table hsame hkept
  obtain ⟨d, hd, hdne, hzero⟩ := hcovered.zero
  have hapart := (hspace₄.page _ d hd).apart
      (hloaded.list.page tmp.user_sp (by rw [hloaded.pages]; simp)) hdne
  have hbyte : ∀ k < 4096, userByte v' tmp.page_table (userStackVa + k) = some 0 := by
    intro k hk
    rw [userByte_page hT hd (by decide) (by rw [userStackVa_eq]; omega),
      show userStackVa % 4096 = 0 by decide,
      Nat.add_zero, hmem _ _ hd k hk, hsame _ (by omega), hzero k hk]
  obtain ⟨k, hk⟩ := Nat.exists_eq_add_of_le hpassed.inside.1
  have hlt := hpassed.inside.2
  have hal := hpassed.aligned
  have hsize : PGSIZE = 4096 := rfl
  rw [hk, hsize] at hlt
  rw [hk, userStackVa_eq] at hal
  refine hpassed.argv.word 0 (by decide) ?_
  rw [hk]
  refine (leNat_of_leByte (v := 0) fun j hj => ?_).trans (Nat.zero_mod _)
  show (userByte v' tmp.page_table (userStackVa + k + 8 * 0 + j)).getD 0 = leByte 0 j
  rw [Nat.mul_zero, Nat.add_zero, Nat.add_assoc, hbyte (k + j) (by omega), leByte, Nat.zero_div]
  rfl

end OrangeOs.Kernel
