import OrangeOs.Kernel.ForkMemory
import OrangeOs.Kernel.Loader
import OrangeOs.Kernel.MapPage
import OrangeOs.Kernel.Scheduler

/-! # A fork that fails

`sys_fork` with an `Alloc` that returns the null pointer when no page is free. `Init` gives back the
pages that it asked for itself, but not the tables that `MapPage` took for it, and `sys_fork` gives
back nothing of a process whose memory it could not copy.
-/

namespace OrangeOs.Kernel

open Memory VirtualMemory TaskMemory

variable {root va a c k n : ℕ} {L L' P : List ℕ} {v v' v₀ : VirtualMemory}
    {p p' : TaskMemory} {need r : Bool}

/-! ## The calls -/

section

variable (alloc : VirtualMemory → Except Fault (ℕ × VirtualMemory))

namespace TaskMemory

/-- `Init` with any `Alloc`. -/
def initWith (p : TaskMemory) (v : VirtualMemory) (need_init_kernel_info : Bool) :
    Except Fault (Bool × TaskMemory × VirtualMemory) := do
  let (frame_page, v) ← alloc v
  if frame_page = 0 then return (false, p, v)
  let (root_page_table, v) ← alloc v
  if root_page_table = 0 then
    return (false, p, ← v.freePages [frame_page])
  let (user_stack_page, v) ← alloc v
  if user_stack_page = 0 then
    return (false, p, ← v.freePages [frame_page, root_page_table])
  let (mapped, v) ← mapPageWith alloc v root_page_table userStackVa user_stack_page
    (PTE.R ||| PTE.W ||| PTE.U)
  if ¬ mapped then
    return (false, p, ← v.freePages [frame_page, root_page_table, user_stack_page])
  let (kernel_sp, saved_sp, v) ← if need_init_kernel_info then do
      let (sp_page, v) ← alloc v
      pure (sp_page, sp_page + PGSIZE, v)
    else pure (p.kernel_sp, p.saved_sp, v)
  if need_init_kernel_info ∧ kernel_sp = 0 then
    return (false, { p with frame := 0 },
      ← v.freePages [frame_page, root_page_table, user_stack_page])
  let mem := setFrameSp (setFrameKernelSp v.mem frame_page (kernel_sp + PGSIZE)) frame_page
    (userStackVa + PGSIZE)
  let p := { p with
    kernel_sp := kernel_sp
    saved_sp := saved_sp
    page_table := root_page_table
    frame := frame_page
    user_sp := user_stack_page }
  if p.console ≠ .none then return (false, p, { v with mem := mem })
  else return (true, { p with console := .device }, { v with mem := mem })

/-- The inner loop of `CopyMemory` with any `Alloc`. -/
def copyFromWith (v : VirtualMemory) (src_root_page dst_root_page va_beg size pte : ℕ) :
    Except Fault (Bool × ℕ × VirtualMemory) :=
  if _h : size > 0 then do
    let (src_pa, pte) ← v.vaToPA src_root_page va_beg pte
    let remain_size := PGSIZE - src_pa % PGSIZE
    let len := if size > remain_size then remain_size else size
    let (mapped, v) ← mapMemoryWith alloc v dst_root_page va_beg ((va_beg + len) % 2 ^ 64) pte
    if mapped then
      let (dst_pa, _) ← v.vaToPA dst_root_page va_beg 0
      copyFromWith { v with mem := v.mem.copy dst_pa src_pa len } src_root_page dst_root_page
        ((addrCastDown va_beg + PGSIZE) % 2 ^ 64) (size - len) pte
    else return (false, pte, v)
  else .ok (true, pte, v)
termination_by size
decreasing_by
  have hrest : src_pa % PGSIZE < PGSIZE := Nat.mod_lt _ (by decide)
  show size - len < size
  have hlen : 0 < len := by
    show 0 < if _ : size > PGSIZE - src_pa % PGSIZE then PGSIZE - src_pa % PGSIZE else size
    split <;> omega
  omega

/-- The outer loop. -/
def copyRegionsWith (src : TaskMemory) (v : VirtualMemory) (dst_root_page i : ℕ) :
    ℕ → Except Fault (Bool × VirtualMemory)
  | 0 => .ok (true, v)
  | k + 1 => do
    let r ← src.region i
    let size := (r.2 + 2 ^ 64 - r.1) % 2 ^ 64
    let (copied, _, v) ← copyFromWith alloc v src.page_table dst_root_page r.1 size 0
    if copied then copyRegionsWith src v dst_root_page (i + 1) k else return (false, v)

/-- `CopyFrom` with any `Alloc`. -/
def copyMemoryOfWith (p src : TaskMemory) (v : VirtualMemory) :
    Except Fault (Bool × TaskMemory × VirtualMemory) := do
  let (copied, v) ← copyRegionsWith alloc src v p.page_table 0 src.used_address_size
  if ¬ copied then return (false, p, v)
  else if src.used_address_size > 16 then .error .outOfBounds
  else
    let mem := v.mem.copy p.user_sp src.user_sp PGSIZE
    let mem := mem.copy p.frame src.frame frameSize
    let mem := setFrameKernelSp mem p.frame (p.kernel_sp + PGSIZE)
    return (true,
      { p with
        used_address := fun i =>
          if i < src.used_address_size then src.used_address i else p.used_address i
        used_address_size := src.used_address_size },
      { v with mem := mem })

end TaskMemory

/-- A slot of the process table, as `sys_fork` uses it. -/
structure ForkTask extends Task where
  state : ProcessState
  parent_process : Option Slot

/-- The process table and the memory. -/
structure ForkTable where
  task : Slot → ForkTask
  vm : VirtualMemory

namespace ForkTable

def setTask (s : ForkTable) (p : Slot) (t : ForkTask) (v : VirtualMemory) : ForkTable :=
  ⟨Function.update s.task p t, v⟩

def setMemory (s : ForkTable) (p : Slot) (t : TaskMemory) (v : VirtualMemory) : ForkTable :=
  s.setTask p { s.task p with toTaskMemory := t } v

/-- The first slot that is not used. -/
def firstUnused (s : ForkTable) : Option Slot :=
  (List.finRange MAX_PROCESS_NUM).find? fun p => (s.task p).state = .unused

/-- `AllocProc`. -/
def allocProc (s : ForkTable) : Except Fault (Option Slot × ForkTable) :=
  match s.firstUnused with
  | none => .ok (none, s)
  | some p => do
    let (initialised, t, v) ← initWith alloc (s.task p).toTaskMemory s.vm true
    let s := s.setMemory p t v
    if ¬ initialised then return (none, s)
    else return (some p, s.setTask p { s.task p with state := .used } s.vm)

/-- The member `a0` of `RegFrame`. -/
def setFrameA0 (m : Memory) (frame a0 : ℕ) : Memory := m.store (frame + 9 * 8) 8 a0

/-- `sys_fork`. The result is the slot of the new process, and none stands for -1. -/
def sysFork (s : ForkTable) (src_pro : Slot) : Except Fault (Option Slot × ForkTable) := do
  let (dst_pro, s) ← s.allocProc alloc
  match dst_pro with
  | none => return (none, s)
  | some dst_pro =>
    let (copied, t, v) ← copyMemoryOfWith alloc (s.task dst_pro).toTaskMemory
      (s.task src_pro).toTaskMemory s.vm
    if ¬ copied then return (none, s.setMemory dst_pro t v)
    else return (some dst_pro, s.setTask dst_pro
      ⟨⟨t, (s.task src_pro).dynamic_info⟩, .runnable, some src_pro⟩
      { v with mem := setFrameA0 v.mem t.frame 0 })

end ForkTable

end

theorem initWith_alloc (p : TaskMemory) (v : VirtualMemory) (need : Bool) :
    initWith VirtualMemory.alloc p v need = p.init v need := by
  simp only [initWith, TaskMemory.init, mapPageWith_alloc]

theorem copyFromWith_alloc (v : VirtualMemory) (src_root_page dst_root_page va_beg size pte : ℕ) :
    copyFromWith VirtualMemory.alloc v src_root_page dst_root_page va_beg size pte =
      copyFrom v src_root_page dst_root_page va_beg size pte := by
  induction size using Nat.strong_induction_on generalizing v va_beg pte with
  | _ size ih =>
    rw [copyFromWith, copyFrom]
    split
    · next hsize =>
      simp only [mapMemoryWith_alloc]
      congr 1
      funext r
      congr 1
      funext r'
      split
      · congr 1
        funext r''
        refine ih _ ?_ _ _ _
        have hrest : r.1 % PGSIZE < PGSIZE := Nat.mod_lt _ (by decide)
        split <;> omega
      · rfl
    · rfl

theorem copyMemoryOfWith_alloc (p src : TaskMemory) (v : VirtualMemory) :
    copyMemoryOfWith VirtualMemory.alloc p src v = p.copyMemoryOf src v := by
  have hregions : ∀ (n i : ℕ) (v : VirtualMemory),
      copyRegionsWith VirtualMemory.alloc src v p.page_table i n =
        src.copyRegions v p.page_table i n := by
    intro n
    induction n with
    | zero => exact fun i v => rfl
    | succ n ih => simp only [copyRegionsWith, copyRegions, copyFromWith_alloc, ih, implies_true]
  simp only [copyMemoryOfWith, copyMemoryOf, hregions]

/-! ## What `Init` leaves -/

/-- The free pages are those of a list. -/
def FreePages (v : VirtualMemory) (L : List ℕ) : Prop := ∃ L', OnList v L' ∧ L'.Perm L

theorem OnList.freePages (h : OnList v L) : FreePages v L := ⟨L, h, .refl L⟩

/-- A list that is shorter has lost pages. -/
theorem not_freePages (h : OnList v L') (hlt : L'.length < L.length) : ¬ FreePages v L := by
  rintro ⟨L'', h', hperm⟩
  rw [h'.unique h] at hperm
  have := hperm.length_eq
  omega

theorem allocOrNull_nil (h : OnList v []) : v.allocOrNull = .ok (0, v) := if_pos h.head_nil

theorem allocOrNull_cons (h : OnList v (c :: L)) : ∃ v',
    v.allocOrNull = .ok (c, v') ∧ c ≠ 0 ∧ OnList v' L ∧
    ZeroPage v'.mem c ∧ Same v.mem v'.mem fun x => ¬ InPages (c :: L) x := by
  obtain ⟨v', heq, h', -, hzero, hsame⟩ := h.alloc
  exact ⟨v', allocOrNull_of_alloc heq, (h.page c (by simp)).ne_zero, h', hzero, hsame⟩

theorem freePages_eq (h : OnList v L) (hpage : ∀ c ∈ P, IsPage c) (hnodup : (P ++ L).Nodup) :
    ∃ v', v.freePages P = .ok v' ∧ OnList v' (P.reverse ++ L) := by
  induction P generalizing v L with
  | nil => exact ⟨v, rfl, h⟩
  | cons c P ih =>
    obtain ⟨hc, hrest⟩ := List.nodup_cons.mp hnodup
    obtain ⟨v₁, heq, h₁⟩ := freePage_eq h (hpage c (by simp)) fun hL => hc (List.mem_append_right P hL)
    obtain ⟨v', heq', h'⟩ := ih h₁ (fun d hd => hpage d (List.mem_cons_of_mem c hd))
      ((List.perm_middle.nodup_iff).mpr hnodup)
    refine ⟨v', ?_, ?_⟩
    · rw [VirtualMemory.freePages, heq, ok_bind, heq']
    · rwa [List.reverse_cons, List.append_assoc]

/-- Pages that are given back to the list that they come from. -/
theorem freePages_suffix (hl : OnList v₀ (P ++ L)) (h : OnList v L') (hsuffix : L' <:+ L) :
    ∃ v', v.freePages P = .ok v' ∧ OnList v' (P.reverse ++ L') := by
  refine freePages_eq h (fun c hc => hl.page c (List.mem_append_left L hc)) ?_
  exact hl.linked.nodup.sublist ((List.Sublist.refl P).append hsuffix.sublist)

/-- The tables for the stack. -/
theorem missing_stack (root : ℕ) : missing (rootOnly root) (tablesOf userStackVa) = 2 := by
  have hlen : ∀ i, rootOnly root (indices userStackVa 2 (i + 1)) = none := fun i => if_neg fun he => by
    have hlen := congrArg List.length he
    rw [length_indices, List.length_nil] at hlen
    omega
  have hne : indices userStackVa 2 1 ≠ indices userStackVa 2 2 := fun he => by
    have hlen := congrArg List.length he
    rw [length_indices, length_indices] at hlen
    omega
  have hfilter : (tablesOf userStackVa).filter (fun q => rootOnly root q = none) =
      tablesOf userStackVa := by
    rw [Finset.filter_eq_self, tablesOf]
    intro q hq
    rw [Finset.mem_insert, Finset.mem_singleton] at hq
    rcases hq with rfl | rfl
    · exact hlen 0
    · exact hlen 1
  rw [missing, hfilter, tablesOf, Finset.card_pair hne]

/-- The page of the stack is mapped, unless the tables take all that is left. -/
theorem mapStack_spec {f b : ℕ} (hl : OnList v₀ (f :: root :: b :: L)) (h : OnList v L)
    (hzero : ZeroPage v.mem root) :
    ∃ r v' L', mapPageWith allocOrNull v root userStackVa b (PTE.R ||| PTE.W ||| PTE.U) = .ok (r, v') ∧
      OnList v' L' ∧ L' <:+ L ∧ (r = false → L' = []) ∧ (r = true → L'.length + 2 = L.length) := by
  have hrootL : root ∉ L := fun hL => by
    have hnodup := (List.nodup_cons.mp hl.linked.nodup).2
    exact (List.nodup_cons.mp hnodup).1 (List.mem_cons_of_mem b hL)
  have htables : Tables 2 v root (rootOnly root) L :=
    .of_zeroPage h hzero (hl.page root (by simp)) hrootL
  have hb := hl.page b (by simp)
  have hlt := hb.lt
  obtain ⟨r, v', T', L', heq, h', hgrown, hcase⟩ :=
    htables.mapPage_spec hb.aligned (by rw [MEMORY_END_eq]; omega)
    (show userStackVa % 4096 = 0 by decide) (show userStackVa ≤ MAX_SUPPORT_VA by decide)
    (show PTE.R ||| PTE.W ||| PTE.U < 1024 by decide)
  refine ⟨r, v', L', heq, h'.list, hgrown.suffix, fun hr => ?_, fun hr => ?_⟩
  · rcases hcase with ⟨-, hnil, -⟩ | ⟨htrue, -⟩
    · exact hnil
    · rw [hr] at htrue
      cases htrue
  · rcases hcase with ⟨hfalse, -⟩ | ⟨-, hadds, -⟩
    · rw [hr] at hfalse
      cases hfalse
    · have hmissing := missing_stack root
      have hcount := hadds.1
      omega

/-- The members of `RegFrame` are not in the free pages. -/
theorem OnList.setFrame {f : ℕ} (h : OnList v L) (hf : IsPage f) (hL : f ∉ L) (x y : ℕ) :
    OnList { v with mem := setFrameSp (setFrameKernelSp v.mem f x) f y } L := by
  refine h.of_same ((setFrame_same v.mem f x y).mono ?_)
  rintro z ⟨c, hc, hz, hz'⟩
  have hapart := (h.page c hc).apart hf fun he => hL (he ▸ hc)
  omega

/-- The end of `Init`. -/
theorem initEnd_eq (p : TaskMemory) (v : VirtualMemory) (f kernel_sp saved_sp root b : ℕ) : ∃ r p', (
    let p := { p with
      kernel_sp := kernel_sp
      saved_sp := saved_sp
      page_table := root
      frame := f
      user_sp := b }
    let v := { v with
      mem := setFrameSp (setFrameKernelSp v.mem f (kernel_sp + PGSIZE)) f (userStackVa + PGSIZE) }
    if p.console ≠ .none then return (false, p, v)
    else return (true, { p with console := .device }, v)) =
      (.ok (r, p', { v with
        mem := setFrameSp (setFrameKernelSp v.mem f (kernel_sp + PGSIZE)) f (userStackVa + PGSIZE) }) :
          Except Fault (Bool × TaskMemory × VirtualMemory)) := by
  simp only
  split
  · exact ⟨_, _, rfl⟩
  · exact ⟨_, _, rfl⟩

/-- With more than three free pages a call of `Init` that returns false loses some; with three or
fewer it returns false and nothing has changed. -/
theorem initWith_spec (h : OnList v L) (p : TaskMemory) (need : Bool) :
    ∃ r p' v', initWith allocOrNull p v need = .ok (r, p', v') ∧
      (L.length ≤ 3 → r = false ∧ p' = p ∧ FreePages v' L) ∧
      (3 < L.length → r = false → ∃ L', OnList v' L' ∧ L'.length < L.length) ∧
      (r = true → 5 ≤ L.length) := by
  have hshort : ∀ {v' : VirtualMemory}, L.length ≤ 3 → FreePages v' L →
      initWith allocOrNull p v need = .ok (false, p, v') → ∃ r p' v',
      initWith allocOrNull p v need = .ok (r, p', v') ∧
        (L.length ≤ 3 → r = false ∧ p' = p ∧ FreePages v' L) ∧
        (3 < L.length → r = false → ∃ L', OnList v' L' ∧ L'.length < L.length) ∧
        (r = true → 5 ≤ L.length) :=
    fun hle hfree heq => ⟨_, _, _, heq, fun _ => ⟨rfl, rfl, hfree⟩,
    fun hlt => absurd hlt (by omega), nofun⟩
  match L, h with
  | [], h =>
    refine hshort (by simp) h.freePages ?_
    rw [initWith, allocOrNull_nil h, ok_bind]
    rfl
  | [f], h =>
    obtain ⟨v₁, heq₁, hf, h₁, -⟩ := allocOrNull_cons h
    obtain ⟨v', hfree, h'⟩ := freePages_suffix (P := [f]) h h₁ List.suffix_rfl
    refine hshort (by simp) ⟨_, h', by simp⟩ ?_
    rw [initWith, heq₁, ok_bind]
    simp only [if_neg hf]
    rw [allocOrNull_nil h₁, ok_bind]
    simp only [if_true]
    rw [hfree]
    rfl
  | [f, root], h =>
    obtain ⟨v₁, heq₁, hf, h₁, -⟩ := allocOrNull_cons h
    obtain ⟨v₂, heq₂, hroot, h₂, -⟩ := allocOrNull_cons h₁
    obtain ⟨v', hfree, h'⟩ := freePages_suffix (P := [f, root]) h h₂ List.suffix_rfl
    refine hshort (by simp) ⟨_, h', by simpa using List.reverse_perm [f, root]⟩ ?_
    rw [initWith, heq₁, ok_bind]
    simp only [if_neg hf]
    rw [heq₂, ok_bind]
    simp only [if_neg hroot]
    rw [allocOrNull_nil h₂, ok_bind]
    simp only [if_true]
    rw [hfree]
    rfl
  | f :: root :: b :: L, h =>
    obtain ⟨v₁, heq₁, hf, h₁, -⟩ := allocOrNull_cons h
    obtain ⟨v₂, heq₂, hroot, h₂, hzero₂, -⟩ := allocOrNull_cons h₁
    obtain ⟨v₃, heq₃, hb, h₃, -, hsame⟩ := allocOrNull_cons h₂
    have hrootL : root ∉ b :: L := (List.nodup_cons.mp (List.nodup_cons.mp h.linked.nodup).2).1
    have hzero₃ := hzero₂.of_same hsame (h.page root (by simp)) h₂.page hrootL
    obtain ⟨mapped, v₄, L₄, heq₄, h₄, hsuffix, hfalse, htrue⟩ := mapStack_spec h h₃ hzero₃
    have hlen := hsuffix.length_le
    rw [initWith, heq₁, ok_bind]
    simp only [if_neg hf]
    rw [heq₂, ok_bind]
    simp only [if_neg hroot]
    rw [heq₃, ok_bind]
    simp only [if_neg hb]
    rw [heq₄, ok_bind]
    cases mapped with
    | false =>
      -- the tables took all the pages that were left
      obtain rfl := hfalse rfl
      obtain ⟨v', hfree, h'⟩ := freePages_suffix (P := [f, root, b]) h h₄ hsuffix
      simp only [Bool.false_eq_true, not_false_eq_true, if_true]
      rw [hfree]
      refine ⟨false, p, v', rfl, fun hle => ⟨rfl, rfl, _, h', ?_⟩, fun hlt _ => ⟨_, h', ?_⟩, nofun⟩
      · rw [List.length_cons, List.length_cons, List.length_cons] at hle
        obtain rfl := List.length_eq_zero_iff.mp (show L.length = 0 by omega)
        simpa using List.reverse_perm [f, root, b]
      · simpa using hlt
    | true =>
      have hlt := htrue rfl
      have hfive : 5 ≤ (f :: root :: b :: L).length := by
        simp only [List.length_cons]
        omega
      have hlong : ¬ (f :: root :: b :: L).length ≤ 3 := by omega
      have hf' : f ∉ L₄ := fun hL => (List.nodup_cons.mp h.linked.nodup).1
        (List.mem_cons_of_mem root (List.mem_cons_of_mem b (hsuffix.subset hL)))
      simp only [not_true_eq_false, if_false]
      cases need with
      | false =>
        simp only [Bool.false_eq_true, false_and, if_false, pure_bind]
        obtain ⟨r, p', heq⟩ := initEnd_eq p v₄ f p.kernel_sp p.saved_sp root b
        refine ⟨r, p', _, heq, fun hle => absurd hle hlong, fun _ _ => ⟨L₄, ?_, ?_⟩, fun _ => hfive⟩
        · exact h₄.setFrame (h.page f (by simp)) hf' _ _
        · simp only [List.length_cons]
          omega
      | true =>
        cases L₄ with
        | nil =>
          obtain ⟨v', hfree, h'⟩ := freePages_suffix (P := [f, root, b]) h h₄ hsuffix
          simp only [if_true, true_and]
          rw [allocOrNull_nil h₄, ok_bind]
          simp only [pure_bind, if_true]
          rw [hfree]
          refine ⟨false, _, v', rfl, fun hle => absurd hle hlong, fun _ _ => ⟨_, h', ?_⟩, nofun⟩
          simp only [List.length_append, List.length_reverse, List.length_cons, List.length_nil] at hlt ⊢
          omega
        | cons sp L₅ =>
          obtain ⟨v₅, heq₅, hsp, h₅, -⟩ := allocOrNull_cons h₄
          simp only [if_true, true_and]
          rw [heq₅, ok_bind]
          simp only [pure_bind, if_neg hsp]
          obtain ⟨r, p', heq⟩ := initEnd_eq p v₅ f sp (sp + PGSIZE) root b
          refine ⟨r, p', _, heq, fun hle => absurd hle hlong, fun _ _ => ⟨L₅, ?_, ?_⟩, fun _ => hfive⟩
          · exact h₅.setFrame (h.page f (by simp)) (fun hL => hf' (List.mem_cons_of_mem sp hL)) _ _
          · simp only [List.length_cons] at hlen ⊢
            omega

/-! ## What `sys_fork` leaves -/

namespace ForkTable

variable {s s' : ForkTable} {src d : Slot} {o : Option Slot}

theorem firstUnused_eq_none : s.firstUnused = none ↔ ∀ q, (s.task q).state ≠ .unused := by
  rw [firstUnused, List.find?_eq_none]
  simp only [List.mem_finRange, true_implies, decide_eq_true_eq]

theorem state_of_firstUnused (h : s.firstUnused = some d) : (s.task d).state = .unused := by
  have hfound := List.find?_some h
  simpa using hfound

/-- A call that comes to `CopyFrom` has taken the slot. -/
theorem allocProc_some (h : s.allocProc allocOrNull = .ok (some d, s')) :
    (s.task d).state = .unused ∧ (s'.task d).state = .used ∧ ∃ p' v',
      initWith allocOrNull (s.task d).toTaskMemory s.vm true = .ok (true, p', v') := by
  unfold allocProc at h
  cases hfirst : s.firstUnused with
  | none =>
    rw [hfirst] at h
    cases h
  | some p =>
    rw [hfirst] at h
    obtain ⟨⟨initialised, t, v⟩, hinit, hrest⟩ := bind_eq_ok.mp h
    cases initialised with
    | false => cases hrest
    | true =>
      obtain ⟨hp, rfl⟩ := Prod.mk.inj (Except.ok.inj hrest)
      obtain rfl := Option.some.inj hp
      refine ⟨state_of_firstUnused hfirst, ?_, t, v, hinit⟩
      simp only [setTask, Function.update_self]

/-- A call that does not. -/
theorem allocProc_none (h : s.allocProc allocOrNull = .ok (none, s')) :
    (s.firstUnused = none ∧ s' = s) ∨ ∃ d p' v', s.firstUnused = some d ∧
      initWith allocOrNull (s.task d).toTaskMemory s.vm true = .ok (false, p', v') ∧
        s' = s.setMemory d p' v' := by
  unfold allocProc at h
  cases hfirst : s.firstUnused with
  | none =>
    rw [hfirst] at h
    exact .inl ⟨rfl, (Prod.mk.inj (Except.ok.inj h)).2.symm⟩
  | some p =>
    rw [hfirst] at h
    obtain ⟨⟨initialised, t, v⟩, hinit, hrest⟩ := bind_eq_ok.mp h
    cases initialised with
    | false => exact .inr ⟨p, t, v, rfl, hinit, (Prod.mk.inj (Except.ok.inj hrest)).2.symm⟩
    | true => cases hrest

theorem setMemory_self (s : ForkTable) (d : Slot) (v : VirtualMemory) :
    (s.setMemory d (s.task d).toTaskMemory v).task = s.task := Function.update_eq_self d s.task

/-- `sys_fork` fails in `AllocProc` or after it, and then the slot stays taken. -/
theorem sysFork_none (h : s.sysFork allocOrNull src = .ok (none, s')) :
    s.allocProc allocOrNull = .ok (none, s') ∨
    ∃ d p' v', (s.task d).state = .unused ∧ (s'.task d).state = .used ∧
      initWith allocOrNull (s.task d).toTaskMemory s.vm true = .ok (true, p', v') := by
  obtain ⟨⟨o, s₁⟩, halloc, hrest⟩ := bind_eq_ok.mp h
  cases o with
  | none =>
    obtain ⟨-, rfl⟩ := Prod.mk.inj (Except.ok.inj hrest)
    exact .inl halloc
  | some d =>
    obtain ⟨hunused, hused, p', v', hinit⟩ := allocProc_some halloc
    obtain ⟨⟨copied, t, v⟩, -, hrest⟩ := bind_eq_ok.mp hrest
    cases copied with
    | false =>
      obtain ⟨-, rfl⟩ := Prod.mk.inj (Except.ok.inj hrest)
      refine .inr ⟨d, p', v', hunused, ?_, hinit⟩
      simpa only [setMemory, setTask, Function.update_self] using hused
    | true => cases hrest

/-- A failure of `Init` or of `sys_fork` changes nothing just when at most three pages were free, or
when the process table was full. -/
theorem failed_fork_iff (h : OnList s.vm L) (src : Slot) :
    (∀ p need p' v', initWith allocOrNull p s.vm need = .ok (false, p', v') →
      (p' = p ∧ FreePages v' L ↔ L.length ≤ 3)) ∧
    ∀ s', s.sysFork allocOrNull src = .ok (none, s') →
      (s'.task = s.task ∧ FreePages s'.vm L ↔ (∀ q, (s.task q).state ≠ .unused) ∨ L.length ≤ 3) := by
  have hinit : ∀ p need p' v', initWith allocOrNull p s.vm need = .ok (false, p', v') →
      (p' = p ∧ FreePages v' L ↔ L.length ≤ 3) := by
    intro p need p' v' heq
    obtain ⟨r, q, w, heq', hshort, hlong, -⟩ := initWith_spec h p need
    rw [heq] at heq'
    obtain ⟨hr, hrest⟩ := Prod.mk.inj (Except.ok.inj heq')
    obtain ⟨hq, hw⟩ := Prod.mk.inj hrest
    subst hr hq hw
    constructor
    · rintro ⟨-, hfree⟩
      by_contra hlt
      obtain ⟨L', h', hlost⟩ := hlong (not_le.mp hlt) rfl
      exact not_freePages h' hlost hfree
    · exact fun hle => (hshort hle).2
  refine ⟨hinit, fun s' hfork => ?_⟩
  rcases sysFork_none hfork with halloc | ⟨d, p', v', hunused, hused, hok⟩
  · rcases allocProc_none halloc with ⟨hfull, rfl⟩ | ⟨d, p', v', hfirst, heq, rfl⟩
    · exact iff_of_true ⟨rfl, h.freePages⟩ (.inl (firstUnused_eq_none.mp hfull))
    · have hany : ¬ ∀ q, (s.task q).state ≠ .unused := fun hall => hall d (state_of_firstUnused hfirst)
      rw [or_iff_right hany, ← hinit _ _ _ _ heq]
      refine and_congr_left fun _ => ⟨fun htask => ?_, fun hp => ?_⟩
      · have hd := congrFun htask d
        simp only [setMemory, setTask, Function.update_self] at hd
        exact congrArg (fun t => t.toTaskMemory) hd
      · rw [hp, setMemory_self]
  · -- the slot is taken, and `Init` has found its pages
    refine iff_of_false (fun hsame => ?_) fun hcond => ?_
    · rw [hsame.1, hunused] at hused
      cases hused
    · rcases hcond with hfull | hle
      · exact hfull d hunused
      · obtain ⟨r, q, w, heq, hshort, -⟩ := initWith_spec h (s.task d).toTaskMemory true
        rw [(hshort hle).1, hok] at heq
        cases heq

/-- A process table without a process. -/
def empty (v : VirtualMemory) : ForkTable :=
  ⟨fun _ => ⟨⟨⟨0, 0, 0, fun _ => (0, 0), 0, 0, 0, .none⟩, {}⟩, .unused, none⟩, v⟩

theorem sysFork_of_init (src : Slot) {v v' : VirtualMemory} {p' : TaskMemory}
    (h : initWith allocOrNull ((empty v).task 0).toTaskMemory v true = .ok (false, p', v')) :
    (empty v).sysFork allocOrNull src = .ok (none, (empty v).setMemory 0 p' v') := by
  have hfirst : (empty v).firstUnused = some 0 := rfl
  rw [sysFork, allocProc, hfirst]
  simp only
  rw [show (empty v).vm = v from rfl, h]
  rfl

/-- Three free pages are given back. -/
theorem failed_fork_three : ∃ (s s' : ForkTable) (L : List ℕ), OnList s.vm L ∧ L.length = 3 ∧
    s.sysFork allocOrNull 0 = .ok (none, s') ∧ s'.task = s.task ∧ FreePages s'.vm L := by
  obtain ⟨v, L, hl, hlen, -⟩ := exists_onList 3 (by decide)
  obtain ⟨r, p', v', heq, hshort, -⟩ := initWith_spec hl ((empty v).task 0).toTaskMemory true
  obtain ⟨rfl, -, -⟩ := hshort hlen.le
  have hfork := sysFork_of_init 0 heq
  exact ⟨empty v, _, L, hl, hlen, hfork,
    ((failed_fork_iff (s := empty v) hl 0).2 _ hfork).mpr (.inr hlen.le)⟩

/-- Of four free pages one is lost. -/
theorem failed_fork_loses_page : ¬ ∀ (s s' : ForkTable) (L : List ℕ) (src : Slot), OnList s.vm L →
    s.sysFork allocOrNull src = .ok (none, s') → s'.task = s.task ∧ FreePages s'.vm L := by
  intro hall
  obtain ⟨v, L, hl, hlen, -⟩ := exists_onList 4 (by decide)
  obtain ⟨r, p', v', heq, -, hlong, hfive⟩ := initWith_spec hl ((empty v).task 0).toTaskMemory true
  have hr : r = false := by
    cases r with
    | false => rfl
    | true =>
      have := hfive rfl
      omega
  subst hr
  obtain ⟨L', h', hlost⟩ := hlong (by omega) rfl
  exact not_freePages h' hlost (hall (empty v) _ L 0 hl (sysFork_of_init 0 heq)).2

end ForkTable

end OrangeOs.Kernel
