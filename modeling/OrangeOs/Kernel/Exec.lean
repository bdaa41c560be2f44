import OrangeOs.Kernel.ConfinedTask
import OrangeOs.Kernel.FailedFork
import OrangeOs.Kernel.RegionTable

/-! # `sys_exec`

The program is loaded into a temporary process, which lies in a page of its own; then the arguments
are copied to the new stack, the old pages are freed and the new ones take their place. The copy is
done with physical addresses, and it tests neither the number of the arguments nor their length.
-/

namespace OrangeOs.Kernel

open Memory VirtualMemory TaskMemory

variable {σ : Type} {S : StreamBase σ} {openFile : Memory → ℕ → Option σ} {junk : List UInt8}
  {process process' : Task} {v v' : VirtualMemory} {ws : List ℕ} {m : Memory} {a j k n : ℕ}

/-- How `sys_exec` ends early: in one of the functions that it calls; with a write of `argv_addr`
past its 17 entries; with a string that does not end. -/
inductive ExecFault where
  | crash (c : Crash)
  | pastArgv (argc : ℕ)
  | unterminated
  deriving DecidableEq, Repr

/-- A computation of the loader inside `sys_exec`. -/
def liftExec {α : Type} (x : Except Crash α) : Except ExecFault α := x.mapError .crash

/-- `GetRawArg`: the registers from `a0` on. -/
def getRawArg (m : Memory) (frame order : ℕ) : ℕ := m.load (frame + (9 + order) * 8) 8

def strlenFrom (m : Memory) (str : ℕ) : ℕ → Option ℕ
  | 0 => none
  | k + 1 => if m str = 0 then some 0 else (strlenFrom m (str + 1) k).map (· + 1)

/-- `strlen`, which has no result where the string does not end. -/
def strlenAt (m : Memory) (str : ℕ) : Option ℕ := strlenFrom m str (2 ^ 64 - str)

/-- `std::copy` of numbers of 64 bits. -/
def storeWords (m : Memory) (dst : ℕ) : List ℕ → Memory
  | [] => m
  | w :: ws => storeWords (m.store dst 8 w) (dst + 8) ws

/-- The stack pointer below `n` bytes, aligned. -/
def pushed (user_sp n : ℕ) : ℕ :=
  let user_sp := (user_sp + 2 ^ 64 - n) % 2 ^ 64
  user_sp - user_sp % 16

/-- The loop over the arguments, from number `argc` on. The result has the number of the arguments,
the stack pointer, the entries of `argv_addr` and the memory. -/
def copyArgs (process tmp : TaskMemory) (argv user_sp_begin : ℕ) (v : VirtualMemory) (user_sp argc : ℕ)
    (argv_addr : List ℕ) : Except ExecFault (ℕ × ℕ × List ℕ × VirtualMemory) :=
  if v.mem.load (argv + 8 * argc) 8 = 0 then
    if argc < 17 then .ok (argc, pushed user_sp ((argc + 1) * 8), argv_addr ++ [0],
      v) else .error (.pastArgv argc)
  else do
    let (str, _) ← liftExec (lift (v.vaToPA process.page_table (v.mem.load (argv + 8 * argc) 8) 0))
    match strlenAt v.mem str with
    | none => .error .unterminated
    | some n =>
      let user_sp := pushed user_sp (n + 1)
      if argc < 17 then
        copyArgs process tmp argv user_sp_begin
          { v with mem := v.mem.copy user_sp str (n + 1) } user_sp (argc + 1)
          (argv_addr ++ [(v.mem.load
          (tmp.frame + 8) 8 + 2 ^ 64 - (user_sp_begin + 2 ^ 64 - user_sp) % 2 ^ 64) % 2 ^ 64])
      else .error (.pastArgv argc)
termination_by 17 - argc

/-- The copy of the arguments. The result has their number and the stack pointer. -/
def copyArgv (process tmp : TaskMemory) (argv : ℕ) (v : VirtualMemory) :
    Except ExecFault (ℕ × ℕ × VirtualMemory) := do
  let user_sp_begin := tmp.user_sp + PGSIZE
  let (argc, user_sp, argv_addr, v) ← copyArgs process tmp argv user_sp_begin v user_sp_begin 0 []
  return (argc, user_sp, { v with mem := storeWords v.mem user_sp argv_addr })

/-- The member `a1` of `RegFrame`. -/
def setFrameA1 (m : Memory) (frame a1 : ℕ) : Memory := m.store (frame + 10 * 8) 8 a1

/-- The stack pointer of the new process, which is its second argument too. -/
def setFrameArgv (m : Memory) (frame user_sp_begin user_sp : ℕ) : Memory :=
  let m := setFrameSp m frame
    ((m.load (frame + 8) 8 + 2 ^ 64 - (user_sp_begin + 2 ^ 64 - user_sp) % 2 ^ 64) % 2 ^ 64)
  setFrameA1 m frame (m.load (frame + 8) 8)

/-- `sys_exec` up to the loading, where `openFile` is the file that `Open` finds for the path at an
address. The result has the address of the arguments, the page of the temporary process and the
process, or none where `sys_exec` returns -1. -/
def execLoad (S : StreamBase σ) (openFile : Memory → ℕ → Option σ) (junk : List UInt8) (process : Task)
    (v : VirtualMemory) : Except Crash (Option (ℕ × ℕ × Task) × VirtualMemory) := do
  let (path_name, _) ← lift (v.vaToPA process.page_table (getRawArg v.mem process.frame 0) 0)
  let (argv, _) ← lift (v.vaToPA process.page_table (getRawArg v.mem process.frame 1) 0)
  if argv = 0 then return (none, v)
  else
    match openFile v.mem path_name with
    | none => return (none, v)
    | some filestream =>
      let (new_page, v) ← lift v.alloc
      if new_page = 0 then return (none, v)
      else
        let (initialised, tmp, v) ← lift ((zero process.kernel_sp).init v false)
        if ¬ initialised then return (none, v)
        else
          let (loaded, tmp, v) ← executeImpl S junk filestream ⟨tmp, {}⟩ v
          if ¬ loaded then
            let v ← lift (tmp.freePageTable v false)
            return (none, v)
          else return (some (argv, new_page, tmp), v)

/-- The rest of `sys_exec`. -/
def execReplace (process : Task) (argv new_page : ℕ) (tmp : Task) (v : VirtualMemory) :
    Except ExecFault (Option ℕ × Task × VirtualMemory) := do
  let (argc, user_sp, v) ← copyArgv process.toTaskMemory tmp.toTaskMemory argv v
  let mem := setFrameArgv v.mem tmp.frame (tmp.user_sp + PGSIZE) user_sp
  let v ← liftExec (lift (process.freePageTable { v with mem := mem } false))
  let v ← liftExec (lift (v.freePage new_page))
  return (some argc, process.copyMemoryFrom tmp, v)

/-- `sys_exec`. None stands for -1. -/
def sysExec (S : StreamBase σ) (openFile : Memory → ℕ → Option σ) (junk : List UInt8) (process : Task)
    (v : VirtualMemory) : Except ExecFault (Option ℕ × Task × VirtualMemory) := do
  let (loaded, v) ← liftExec (execLoad S openFile junk process v)
  match loaded with
  | none => return (none, process, v)
  | some (argv, new_page, tmp) => execReplace process argv new_page tmp v

theorem liftExec_eq_ok {α : Type} {x : Except Crash α} {y : α} : liftExec x = .ok y ↔ x = .ok y := by
  cases x with
  | ok b => rw [liftExec, Except.mapError, Except.ok.injEq, Except.ok.injEq]
  | error e => exact ⟨nofun, nofun⟩

theorem liftExec_lift_bind {α β : Type} (a : α) (g : α → Except ExecFault β) :
    (liftExec (lift (.ok a)) >>= g) = g a := (rfl)

theorem strlenFrom_eq_some : strlenFrom m a k = some n ↔ n < k ∧ m (a + n) = 0 ∧
    ∀ j < n, m (a + j) ≠ 0 := by
  induction k generalizing a n with
  | zero => simp [strlenFrom]
  | succ k ih =>
    rw [strlenFrom]
    split
    · next hzero =>
      rw [Option.some.injEq]
      constructor
      · rintro rfl
        exact ⟨Nat.succ_pos k, hzero, fun j hj => absurd hj (Nat.not_lt_zero j)⟩
      · rintro ⟨-, -, hne⟩
        by_contra h0
        exact hne 0 (by omega) hzero
    · next hne =>
      rw [Option.map_eq_some_iff]
      constructor
      · rintro ⟨n, hn, rfl⟩
        obtain ⟨hlt, hzero, hall⟩ := ih.mp hn
        refine ⟨by omega, by rwa [Nat.add_right_comm] at hzero, fun j hj => ?_⟩
        cases j with
        | zero => exact hne
        | succ j =>
          have hj' := hall j (by omega)
          rwa [Nat.add_right_comm] at hj'
      · rintro ⟨hlt, hzero, hall⟩
        cases n with
        | zero => exact absurd hzero hne
        | succ n =>
          refine ⟨n, ih.mpr ⟨by omega, by rwa [Nat.add_right_comm], fun j hj => ?_⟩, rfl⟩
          have hj' := hall (j + 1) (by omega)
          rwa [Nat.add_right_comm]

theorem strlenAt_eq_some : strlenAt m a = some n ↔ a + n < 2 ^ 64 ∧ m (a + n) = 0 ∧
    ∀ j < n, m (a + j) ≠ 0 := by
  rw [strlenAt, strlenFrom_eq_some]
  refine and_congr_left fun _ => ?_
  omega

theorem storeWords_same (m : Memory) (dst : ℕ) (ws : List ℕ) :
    Same m (storeWords m dst ws) fun x => x < dst ∨ dst + 8 * ws.length ≤ x := by
  induction ws generalizing m dst with
  | nil => exact Same.refl _ _
  | cons w ws ih =>
    refine ((store_same m dst 8 w).mono fun x hx => ?_).trans ((ih _ _).mono fun x hx => ?_)
    · simp only [List.length_cons] at hx
      omega
    · simp only [List.length_cons] at hx
      omega

theorem load_storeWords (m : Memory) (dst : ℕ) (hj : j < ws.length) (hw : ∀ w ∈ ws, w < 2 ^ 64) :
    (storeWords m dst ws).load (dst + 8 * j) 8 = ws[j] := by
  induction ws generalizing m dst j with
  | nil => exact absurd hj (Nat.not_lt_zero j)
  | cons w ws ih =>
    cases j with
    | zero =>
      rw [storeWords, (storeWords_same _ (dst + 8) ws).load_eq fun x _ _ => by omega]
      exact load_store_of_lt _ _ (hw w (by simp))
    | succ j =>
      rw [List.length_cons] at hj
      rw [storeWords, show dst + 8 * (j + 1) = dst + 8 + 8 * j by omega]
      exact ih _ _ (by omega) fun w hw' => hw w (List.mem_cons_of_mem _ hw')

/-- `VAToPA` has a result. -/
theorem vaToPA_physical (v : VirtualMemory) (root va : ℕ) : ∃ o,
    v.vaToPA root va 0 = .ok (physical v root va, o) := by
  obtain ⟨o, h⟩ := vaToPA_translate v root va
  exact ⟨o, by rw [h, physical_eq_getD]⟩

end OrangeOs.Kernel
