import OrangeOs.Kernel.FailedExec
import OrangeOs.Kernel.UserSpace

/-! # The arguments of a new program

The strings are copied one below the other, and the array of their addresses below the last one. The
copy reads physical memory from the address of a string to the next 0 byte, so what it copies is not
always what the process passed. As long as everything fits in the stack page, no copy changes a
string that is still to be read.
-/

namespace OrangeOs.Kernel

open Memory VirtualMemory TaskMemory

variable {process tmp : TaskMemory} {argv i j k n root top : ℕ} {lens : List ℕ} {v v' v₁ : VirtualMemory}
  {m m' : Memory}

/-! ## The argument list -/

/-- Entry `i` of the array. -/
def argWord (v : VirtualMemory) (argv i : ℕ) : ℕ := v.mem.load (argv + 8 * i) 8

/-- The address of string `i`. -/
def argStr (v : VirtualMemory) (root argv i : ℕ) : ℕ := physical v root (argWord v argv i)

/-- The array ends after as many strings as `lens` has entries, which are their lengths. -/
structure ArgList (v : VirtualMemory) (root argv : ℕ) (lens : List ℕ) : Prop where
  word : ∀ i < lens.length, argWord v argv i ≠ 0
  last : argWord v argv lens.length = 0
  str : ∀ i (hi : i < lens.length), strlenAt v.mem (argStr v root argv i) = some lens[i]

/-- A number of bytes, up to a multiple of 16. -/
def rounded (n : ℕ) : ℕ := (n + 15) / 16 * 16

/-- The bytes that the first `i` strings take on the stack. -/
def argSize (lens : List ℕ) (i : ℕ) : ℕ := ((lens.take i).map fun n => rounded (n + 1)).sum

/-- The bytes of the strings and of the array. -/
def argTotal (lens : List ℕ) : ℕ := argSize lens lens.length + rounded ((lens.length + 1) * 8)

/-- There are at most 16 strings, and they and the array fit in a page. -/
def ArgFits (v : VirtualMemory) (root argv : ℕ) : Prop :=
  ∃ lens, ArgList v root argv lens ∧ lens.length ≤ 16 ∧ argTotal lens ≤ PGSIZE

theorem argSize_succ (hi : i < lens.length) : argSize lens (i + 1) =
    argSize lens i + rounded (lens[i] + 1) := by
  rw [argSize, List.take_succ_eq_append_getElem hi, List.map_append, List.sum_append, argSize]
  simp

theorem argSize_zero (lens : List ℕ) : argSize lens 0 = 0 := rfl

theorem rounded_mod (n : ℕ) : rounded n % 16 = 0 := Nat.mul_mod_left _ 16

theorem le_rounded (n : ℕ) : n ≤ rounded n := by
  rw [rounded]
  omega

theorem argSize_mod (lens : List ℕ) (i : ℕ) : argSize lens i % 16 = 0 := by
  rw [argSize]
  induction lens.take i with
  | nil => rfl
  | cons n ns ih =>
    have hn := rounded_mod (n + 1)
    rw [List.map_cons, List.sum_cons]
    omega

/-- The strings that are left take 16 bytes each. -/
theorem argSize_le (hi : i ≤ lens.length) : argSize lens i + 16 * (lens.length - i) ≤
    argSize lens lens.length := by
  obtain ⟨d, hd⟩ := Nat.exists_eq_add_of_le hi
  induction d generalizing i with
  | zero =>
    obtain rfl : i = lens.length := by omega
    omega
  | succ d ih =>
    have hnext := ih (i := i + 1) (by omega) (by omega)
    have hsucc := argSize_succ (show i < lens.length by omega)
    have hone := le_rounded (lens[i] + 1)
    have hmod := rounded_mod (lens[i] + 1)
    omega

theorem pushed_eq (htop : top % 16 = 0) (hlt : top < 2 ^ 64) (hn : rounded n ≤ top) :
    pushed top n = top - rounded n := by
  have hle := le_rounded n
  have hsub : (top + 2 ^ 64 - n) % 2 ^ 64 = top - n := by omega
  simp only [pushed, hsub]
  rw [rounded] at hn ⊢
  omega

/-! ## The state before the copy -/

/-- A process whose page table and pages are apart from the stack page of the new process. -/
structure ArgStage (process tmp : TaskMemory) (argv : ℕ) (v : VirtualMemory) : Prop where
  page : IsPage tmp.user_sp
  frame : IsPage tmp.frame
  frame_ne : tmp.frame ≠ tmp.user_sp
  sp : v.mem.load (tmp.frame + 8) 8 = userStackVa + PGSIZE
  tables : ∀ x, InTables (tableTree v.mem process.page_table) x → x < tmp.user_sp ∨
    tmp.user_sp + 4096 ≤ x
  target : ∀ a < 2 ^ 64, physical v process.page_table a < tmp.user_sp ∨
    tmp.user_sp + 4096 ≤ physical v process.page_table a
  argv : argv < tmp.user_sp ∨ tmp.user_sp + 4096 ≤ argv

/-- Where the stack is after `i` strings. -/
def argTop (tmp : TaskMemory) (lens : List ℕ) (i : ℕ) : ℕ := tmp.user_sp + PGSIZE - argSize lens i

/-- The address of copy `i`, as the new process sees it. -/
def argPtr (lens : List ℕ) (i : ℕ) : ℕ := userStackVa + PGSIZE - argSize lens (i + 1)

/-- The first `i` strings are copied. -/
structure Copied (process tmp : TaskMemory) (argv : ℕ) (lens : List ℕ) (v₁ : VirtualMemory)
    (i : ℕ) (v : VirtualMemory) :
    Prop where
  rest : v = { v₁ with mem := v.mem }
  same : Same v₁.mem v.mem fun x => x < argTop tmp lens i ∨ tmp.user_sp + PGSIZE ≤ x
  copy : ∀ j (hj : j < lens.length), j < i → ∀ k ≤ lens[j],
    v.mem (argTop tmp lens (j + 1) + k) = v₁.mem (argStr v₁ process.page_table argv j + k)

theorem Copied.start (process tmp : TaskMemory) (argv : ℕ) (lens : List ℕ) (v₁ : VirtualMemory) :
    Copied process tmp argv lens v₁ 0 v₁ :=
  ⟨rfl, Same.refl _ _, fun _ _ hj => absurd hj (Nat.not_lt_zero _)⟩

/-- Below the copies there is room for the strings that are left and for the array. -/
theorem argTop_bounds (tmp : TaskMemory) (hfits : argTotal lens ≤ PGSIZE) (hi : i ≤ lens.length) :
    tmp.user_sp + 16 * (lens.length - i) + 8 * (lens.length + 1) ≤ argTop tmp lens i ∧
      argTop tmp lens i + argSize lens i = tmp.user_sp + PGSIZE := by
  have hle := argSize_le hi
  have harray := le_rounded ((lens.length + 1) * 8)
  rw [argTotal] at hfits
  rw [argTop]
  omega

theorem argTop_succ (tmp : TaskMemory) (hfits : argTotal lens ≤ PGSIZE) (hi : i < lens.length) :
    argTop tmp lens i = argTop tmp lens (i + 1) + rounded (lens[i] + 1) := by
  obtain ⟨-, htop⟩ := argTop_bounds tmp hfits hi.le
  obtain ⟨-, htop'⟩ := argTop_bounds tmp hfits (show i + 1 ≤ lens.length by omega)
  have hsucc := argSize_succ hi
  omega

theorem argTop_mono (tmp : TaskMemory) (hfits : argTotal lens ≤ PGSIZE) (hj : j < i)
    (hi : i ≤ lens.length) :
    argTop tmp lens i ≤ argTop tmp lens (j + 1) := by
  obtain ⟨d, rfl⟩ := Nat.exists_eq_add_of_lt hj
  induction d with
  | zero => exact le_rfl
  | succ d ih =>
    have hstep := argTop_succ tmp hfits (show j + d + 1 < lens.length by omega)
    have hrest := ih (by omega) (by omega)
    rw [show j + (d + 1) + 1 = j + d + 1 + 1 by omega]
    omega

/-- A string that is still to be read ends below the copies. -/
theorem ArgStage.below (hs : ArgStage process tmp argv v₁) (hfits : argTotal lens ≤ PGSIZE)
    (hi : i < lens.length)
    {a : ℕ} (ha : a < 2 ^ 64) (hk : k ≤ lens[i]) :
    physical v₁ process.page_table a + k < argTop tmp lens i ∨
      tmp.user_sp + PGSIZE ≤ physical v₁ process.page_table a + k := by
  have hsize : PGSIZE = 4096 := rfl
  obtain ⟨hroom, -⟩ := argTop_bounds tmp hfits (show i + 1 ≤ lens.length by omega)
  have hstep := argTop_succ tmp hfits hi
  have hle := le_rounded (lens[i] + 1)
  rcases hs.target a ha with hlt | hge
  · omega
  · omega

namespace Copied

variable (hs : ArgStage process tmp argv v₁) (hfits : argTotal lens ≤ PGSIZE)
  (h : Copied process tmp argv lens v₁ i v)

include hfits h

/-- Nothing outside the stack page has changed. -/
theorem outside (hi : i ≤ lens.length) {x : ℕ} (hx : x < tmp.user_sp ∨ tmp.user_sp + 4096 ≤ x) :
    v.mem x = v₁.mem x := by
  have hsize : PGSIZE = 4096 := rfl
  obtain ⟨hroom, -⟩ := argTop_bounds tmp hfits hi
  exact h.same x (by omega)

include hs

/-- The array is read as it was. -/
theorem word (hi : i ≤ lens.length) : v.mem.load (argv + 8 * i) 8 = argWord v₁ argv i := by
  have hsize : PGSIZE = 4096 := rfl
  obtain ⟨hroom, -⟩ := argTop_bounds tmp hfits hi
  refine h.same.load_eq fun x hx hx' => ?_
  rcases hs.argv with hlt | hge
  · omega
  · omega

/-- So is the page table. -/
theorem physical_eq (hi : i ≤ lens.length) {a : ℕ} (ha : a < 2 ^ 64) :
    physical v process.page_table a = physical v₁ process.page_table a := by
  rw [physical_eq_getD, physical_eq_getD, h.rest,
    translate_of_same (fun x hx => h.outside hfits hi (hs.tables x hx)) ha]

/-- So is the stack pointer of the new process. -/
theorem frame_sp (hi : i ≤ lens.length) : v.mem.load (tmp.frame + 8) 8 = userStackVa + PGSIZE := by
  rw [← hs.sp]
  refine load_congr fun k hk => h.outside hfits hi ?_
  have := hs.frame.apart hs.page hs.frame_ne
  omega

/-- A string that is not copied yet has its length. -/
theorem strlen_eq (hl : ArgList v₁ process.page_table argv lens) (hi : i < lens.length) :
    strlenAt v.mem (argStr v₁ process.page_table argv i) = some lens[i] := by
  obtain ⟨hend, hzero, hne⟩ := strlenAt_eq_some.mp (hl.str i hi)
  have hread : ∀ k ≤ lens[i], v.mem (argStr v₁ process.page_table argv i + k) =
      v₁.mem (argStr v₁ process.page_table argv i + k) := by
    intro k hk
    refine h.same _ ?_
    have hbelow := hs.below hfits hi (load_lt v₁.mem (argv + 8 * i) 8) hk
    exact hbelow
  refine strlenAt_eq_some.mpr ⟨hend, ?_, fun j hj => ?_⟩
  · rw [hread _ le_rfl, hzero]
  · rw [hread j hj.le]
    exact hne j hj

/-- One more string. -/
theorem step (hi : i < lens.length) : Copied process tmp argv lens v₁ (i + 1)
    { v with
      mem := v.mem.copy (argTop tmp lens (i + 1)) (argStr v₁ process.page_table argv i) (lens[i] + 1) } := by
  have hstep := argTop_succ tmp hfits hi
  have hle := le_rounded (lens[i] + 1)
  obtain ⟨-, htop⟩ := argTop_bounds tmp hfits hi.le
  constructor
  · rw [h.rest]
  · exact (h.same.mono fun x hx => by omega).trans ((copy_same v.mem _ _ _).mono fun x hx => by omega)
  · intro j hj hji k hk
    by_cases hlast : j = i
    · subst hlast
      refine (if_pos (by omega)).trans ?_
      rw [Nat.add_sub_cancel_left]
      exact h.same _ (hs.below hfits hi (load_lt v₁.mem (argv + 8 * j) 8) hk)
    · rw [← h.copy j hj (by omega) k hk]
      have hmono := argTop_mono tmp hfits (show j < i by omega) hi.le
      exact copy_same v.mem _ _ _ _ (by omega)

end Copied

/-! ## The copy -/

/-- Where the array is. -/
def argEnd (tmp : TaskMemory) (lens : List ℕ) : ℕ :=
  argTop tmp lens lens.length - rounded ((lens.length + 1) * 8)

/-- The entries of the array. -/
def argPtrs (lens : List ℕ) (n : ℕ) : List ℕ := (List.range n).map (argPtr lens)

theorem argPtrs_succ (lens : List ℕ) (n : ℕ) : argPtrs lens (n + 1) =
    argPtrs lens n ++ [argPtr lens n] := by
  rw [argPtrs, List.range_succ, List.map_append, argPtrs]
  rfl

theorem argEnd_bounds (tmp : TaskMemory) (hfits : argTotal lens ≤ PGSIZE) :
    tmp.user_sp ≤ argEnd tmp lens ∧
      argEnd tmp lens + rounded ((lens.length + 1) * 8) = argTop tmp lens lens.length := by
  obtain ⟨-, htop⟩ := argTop_bounds tmp hfits (le_refl lens.length)
  rw [argTotal] at hfits
  rw [argEnd]
  omega

/-- The loop over the arguments that are left. -/
theorem copyArgs_eq (hs : ArgStage process tmp argv v₁) (hfits : argTotal lens ≤ PGSIZE)
    (hl : ArgList v₁ process.page_table argv lens) (hlen : lens.length ≤ 16)
    (h : Copied process tmp argv lens v₁ i v) (hi : i + n = lens.length) :
    ∃ v', copyArgs process tmp argv (tmp.user_sp + PGSIZE) v (argTop tmp lens i) i (argPtrs lens i) =
        .ok (lens.length, argEnd tmp lens, argPtrs lens lens.length ++ [0], v') ∧
      Copied process tmp argv lens v₁ lens.length v' := by
  have hsize : PGSIZE = 4096 := rfl
  have hlt := hs.page.lt
  have hal := hs.page.aligned
  have hmod : ∀ j, argTop tmp lens j % 16 = 0 ∧ argTop tmp lens j < 2 ^ 64 := fun j => by
    have := argSize_mod lens j
    rw [argTop]
    omega
  induction n generalizing i v with
  | zero =>
    obtain rfl : i = lens.length := by omega
    obtain ⟨hroom, hend⟩ := argEnd_bounds tmp hfits
    refine ⟨v, ?_, h⟩
    rw [copyArgs, h.word hs hfits le_rfl, if_pos hl.last, if_pos (by omega),
      pushed_eq (hmod _).1 (hmod _).2 (by omega), argEnd]
  | succ n ih =>
    have hi' : i < lens.length := by omega
    obtain ⟨hroom, htop⟩ := argTop_bounds tmp hfits (show i + 1 ≤ lens.length by omega)
    have hstep := argTop_succ tmp hfits hi'
    have hword : argWord v₁ argv i < 2 ^ 64 := load_lt v₁.mem (argv + 8 * i) 8
    obtain ⟨o, hstr⟩ := vaToPA_physical v process.page_table (argWord v₁ argv i)
    rw [h.physical_eq hs hfits hi'.le hword] at hstr
    obtain ⟨v', heq, hcopied⟩ := ih (h.step hs hfits hi') (by omega)
    refine ⟨v', ?_, hcopied⟩
    rw [← heq, copyArgs, h.word hs hfits hi'.le, if_neg (hl.word i hi'), hstr, liftExec_lift_bind]
    dsimp only
    have hstrlen := h.strlen_eq hs hfits hl hi'
    rw [argStr] at hstrlen
    rw [hstrlen]
    have hpushed : pushed (argTop tmp lens i) (lens[i] + 1) = argTop tmp lens (i + 1) := by
      rw [pushed_eq (hmod _).1 (hmod _).2 (by omega)]
      omega
    have hptr : (userStackVa + PGSIZE + 2 ^ 64 -
        (tmp.user_sp + PGSIZE + 2 ^ 64 - argTop tmp lens (i + 1)) % 2 ^ 64) % 2 ^ 64 =
        argPtr lens i := by
      rw [argPtr, userStackVa_eq]
      omega
    simp only [hpushed, h.frame_sp hs hfits hi'.le, hptr,
      if_pos (show i < 17 by omega), argPtrs_succ, argStr]

/-- The new stack holds the strings and, below them, the array of their addresses. -/
structure Built (process tmp : TaskMemory) (argv : ℕ) (lens : List ℕ) (v₁ v : VirtualMemory) : Prop where
  rest : v = { v₁ with mem := v.mem }
  same : Same v₁.mem v.mem fun x => x < argEnd tmp lens ∨ tmp.user_sp + PGSIZE ≤ x
  copy : ∀ j (hj : j < lens.length), ∀ k ≤ lens[j],
    v.mem (argTop tmp lens (j + 1) + k) = v₁.mem (argStr v₁ process.page_table argv j + k)
  ptr : ∀ j < lens.length, v.mem.load (argEnd tmp lens + 8 * j) 8 = argPtr lens j
  last : v.mem.load (argEnd tmp lens + 8 * lens.length) 8 = 0

/-- An argument list that fits is copied. -/
theorem copyArgv_eq (hs : ArgStage process tmp argv v₁) (hfits : argTotal lens ≤ PGSIZE)
    (hl : ArgList v₁ process.page_table argv lens) (hlen : lens.length ≤ 16) :
    ∃ v, copyArgv process tmp argv v₁ = .ok (lens.length, argEnd tmp lens, v) ∧
    Built process tmp argv lens v₁ v := by
  obtain ⟨v, heq, hcopied⟩ :=
    copyArgs_eq hs hfits hl hlen (.start process tmp argv lens v₁) (Nat.zero_add _)
  obtain ⟨hroom, hend⟩ := argEnd_bounds tmp hfits
  obtain ⟨-, htop⟩ := argTop_bounds tmp hfits (le_refl lens.length)
  have hle := le_rounded ((lens.length + 1) * 8)
  have hlength : (argPtrs lens lens.length ++ [0]).length = lens.length + 1 := by simp [argPtrs]
  have hwords : ∀ w ∈ argPtrs lens lens.length ++ [0], w < 2 ^ 64 := by
    intro w hw
    rcases List.mem_append.mp hw with hw | hw
    · obtain ⟨j, -, rfl⟩ := List.mem_map.mp hw
      rw [argPtr, userStackVa_eq, show PGSIZE = 4096 from rfl]
      omega
    · rw [List.mem_singleton.mp hw]
      omega
  have hload := fun j hj => load_storeWords (j := j) v.mem (argEnd tmp lens) hj hwords
  have hsame := storeWords_same v.mem (argEnd tmp lens) (argPtrs lens lens.length ++ [0])
  rw [hlength] at hsame
  refine ⟨{ v with mem := storeWords v.mem (argEnd tmp lens) (argPtrs lens lens.length ++ [0]) }, ?_, ?_⟩
  · have hbegin : argTop tmp lens 0 = tmp.user_sp + PGSIZE := by rw [argTop, argSize_zero, Nat.sub_zero]
    rw [hbegin] at heq
    show (copyArgs process tmp argv (tmp.user_sp + PGSIZE) v₁ (tmp.user_sp + PGSIZE) 0 [] >>= _) = _
    rw [show ([] : List ℕ) = argPtrs lens 0 from rfl, heq]
    rfl
  · constructor
    · rw [hcopied.rest]
    · exact (hcopied.same.mono fun x hx => by omega).trans (hsame.mono fun x hx => by omega)
    · intro j hj k hk
      rw [← hcopied.copy j hj hj k hk]
      have hmono : argTop tmp lens lens.length ≤ argTop tmp lens (j + 1) :=
        argTop_mono tmp hfits hj le_rfl
      exact hsame _ (by omega)
    · intro j hj
      have hj' := hload j (by omega)
      rw [hj', List.getElem_append_left (by simpa [argPtrs] using hj)]
      simp [argPtrs]
    · have hlast := hload lens.length (by omega)
      rw [hlast, List.getElem_append_right (by simp [argPtrs])]
      simp [argPtrs]

end OrangeOs.Kernel
