import OrangeOs.Kernel.Chdir
import OrangeOs.Kernel.Wait

/-! # The current path of a child

`CopyFrom` copies the current path of the parent without its NUL into whatever the slot of the child
holds, and `ResetProcess` clears a slot only up to the first NUL. The calls of this module
run one at a time; the parts of the process table that they change are those of
`Kernel.Scheduler`.
-/

namespace OrangeOs.Kernel

open Fs Prog Scheduler

/-- The process table with the member `current_path` of each slot. -/
structure Processes where
  table : Scheduler
  current_path : Slot → PathBuffer

/-- The process table after `ExcuteInitProcess`. -/
def Processes.boot : Processes := ⟨.boot, fun _ => Cwd.initial.current_path⟩

/-- `ResetProcess` on the member `current_path`. -/
def resetPath (current_path : PathBuffer) : Except Fault PathBuffer := do
  let len ← strlen current_path
  store (current_path.patch 0 len fun _ => 0) 0 [slash, 0]

/-- `CopyFrom` on the member `current_path`. -/
def inheritPath (src dst : PathBuffer) : Except Fault PathBuffer := do
  let len ← strlen src
  return dst.patch 0 len src.byte

namespace Processes

/-- The slot that `AllocProc` takes. -/
def firstUnused (t : Processes) : Option Slot :=
  (List.finRange MAX_PROCESS_NUM).find? fun p => (t.table.task p).state = .unused

/-- `sys_fork` of `src`. `init` and `copied` are the results of `Init` and `CopyMemory`, which depend
on the free pages. The source returns the pid of the child or -1. -/
def sysFork (t : Processes) (src : Slot) (init copied : Bool) :
    Except Fault (Option Slot × Processes) :=
  match t.firstUnused with
  | none => .ok (none, t)
  | some dst =>
    if ¬ init then .ok (none, t)
    else if ¬ copied then .ok (none, { t with table := t.table.allocProc dst })
    else do
      let path ← inheritPath (t.current_path src) (t.current_path dst)
      return (some dst,
        { table := ((t.table.allocProc dst).release dst).link src dst
          current_path := Function.update t.current_path dst path })

/-- The zombie child that `FindFirslZombieChild` finds. -/
def firstZombie (t : Processes) (p : Slot) : Option Slot :=
  (List.finRange MAX_PROCESS_NUM).find? fun q =>
    (t.table.task q).parent_process = some p ∧ (t.table.task q).state = .zombie

/-- `sys_wait` of `p`, if it finds a zombie child. -/
def sysWait (t : Processes) (p : Slot) : Except Fault (Option Slot × Processes) :=
  match t.firstZombie p with
  | none => .ok (none, t)
  | some child => do
    let path ← resetPath (t.current_path child)
    return (some child,
      { table := t.table.reap p child
        current_path := Function.update t.current_path child path })

/-- The process can make a call. -/
def Live (t : Processes) (p : Slot) : Prop := t.table.Alive p ∧ (t.table.task p).state ≠ .used

instance (t : Processes) (p : Slot) : Decidable (t.Live p) :=
  inferInstanceAs (Decidable ((_ ∧ _) ∧ _))

/-- One call of a process, on the disk that it finds. -/
inductive Call (t : Processes) : Processes → Prop
  | fork {src : Slot} {init copied : Bool} {r : Option Slot} {t' : Processes} : t.Live src →
      t.sysFork src init copied = .ok (r, t') → Call t t'
  | chdir {p : Slot} {d : Disk} {path_name : Option CString} {r : ℤ} {b : PathBuffer}
      {opened : Option (ℕ × InodeDef)} : t.Live p →
      (sysChdir (t.current_path p) path_name).run d = (.ok (r, b, opened), d) →
      Call t { t with current_path := Function.update t.current_path p b }
  | exit {p : Slot} {code : Int32} {low : Channel} : t.Live p →
      Call t { t with table := t.table.exit p code low }
  | wait {p : Slot} {r : Option Slot} {t' : Processes} : t.Live p →
      t.sysWait p = .ok (r, t') → Call t t'

/-- The process tables that sequences of calls reach. -/
abbrev Reached (t : Processes) : Prop := Reachable (· = boot) Call t

end Processes

variable {b src dst : PathBuffer} {s u : List UInt8} {o : ℕ}

/-! ## The last byte of a buffer -/

/-- A buffer that ends in a NUL holds the string before its first NUL. -/
theorem holds_cstr (h : b.byte 127 = 0) : Holds b b.cstr := by
  have hsplit : b.cstr ++ ((List.range 128).map b.byte).dropWhile (· ≠ 0) =
      (List.range 128).map b.byte := List.takeWhile_append_dropWhile
  have hzero := zero_notMem_cstr b
  have hbyte : ∀ k < 128, charAt (b.cstr ++ ((List.range 128).map b.byte).dropWhile (· ≠ 0)) k =
      b.byte k := by
    intro k hk
    rw [hsplit, charAt_map_range hk]
  have hlen := congrArg List.length hsplit
  rw [List.length_append, List.length_map, List.length_range] at hlen
  cases hrest : ((List.range 128).map b.byte).dropWhile (· ≠ 0) with
  | nil =>
    -- the last byte is in the string, but it is zero
    exfalso
    rw [hrest, List.append_nil] at hsplit
    apply hzero
    rw [hsplit]
    exact List.mem_map.mpr ⟨127, by simp, h⟩
  | cons c rest =>
    rw [hrest] at hbyte hlen
    have hc : c = 0 := by
      have hhead := List.head?_dropWhile_not (fun x : UInt8 => decide (x ≠ 0))
        ((List.range 128).map b.byte)
      rw [hrest] at hhead
      simpa using hhead
    rw [List.length_cons] at hlen
    refine ⟨by omega, hzero, fun k hk => ?_⟩
    rw [← hbyte k (by omega)]
    rcases Nat.lt_or_ge k b.cstr.length with hlt | hge
    · rw [charAt_append_left hlt]
    · obtain rfl : k = b.cstr.length := by omega
      rw [charAt_append_right le_rfl, charAt_of_le (s := b.cstr) le_rfl, Nat.sub_self, hc]
      rfl

theorem byte_store (h : b.byte 127 = 0) {b' : PathBuffer} (hs : store b o (u ++ [0]) = .ok b') :
    b'.byte 127 = 0 := by
  unfold store at hs
  split at hs
  · next hlen =>
    rw [List.length_append, List.length_singleton] at hlen
    obtain rfl := Except.ok.inj hs
    by_cases ho : 127 < o + (u ++ [0]).length
    · have : (u ++ [0]).length = u.length + 1 := by simp
      rw [Buffer.byte_patch_of_mem (by omega) (by omega) ho, charAt_append_right (by omega),
        show 127 - o - u.length = 0 by omega]
      rfl
    · rw [Buffer.byte_patch_of_not_mem (by omega), h]
  · simp at hs

theorem bind_ok {α β : Type} {x : Except Fault α} {f : α → Except Fault β} {r : β}
    (h : (x >>= f) = .ok r) : ∃ a, x = .ok a ∧ f a = .ok r := by
  cases x with
  | error e => simp [Bind.bind, Except.bind] at h
  | ok a => exact ⟨a, rfl, h⟩

theorem byte_removeLast (h : b.byte 127 = 0) {b' : PathBuffer} (hr : removeLast b = .ok b') :
    b'.byte 127 = 0 := by
  obtain ⟨len, -, hr⟩ := bind_ok hr
  split at hr
  · exact byte_store (u := []) h hr
  · obtain rfl := Except.ok.inj hr
    exact h

theorem byte_joinCurrent (h : b.byte 127 = 0) {b' : PathBuffer} (hj : joinCurrent b u = .ok b') :
    b'.byte 127 = 0 := by
  obtain ⟨len, -, hj⟩ := bind_ok hj
  split at hj
  · simp at hj
  · dsimp only at hj
    split at hj
    · obtain ⟨b₁, hb₁, hj⟩ := bind_ok hj
      obtain ⟨len', -, hj⟩ := bind_ok hj
      exact byte_store (byte_store (u := [slash]) h hb₁) hj
    · obtain ⟨b₁, hb₁, hj⟩ := bind_ok hj
      obtain rfl := Except.ok.inj hb₁
      obtain ⟨len', -, hj⟩ := bind_ok hj
      exact byte_store h hj

theorem byte_updatePath (h : b.byte 127 = 0) {b' : PathBuffer} (hu : updatePath b u = .ok b') :
    b'.byte 127 = 0 := by
  unfold updatePath at hu
  dsimp only at hu
  split at hu
  · obtain ⟨b₁, hb₁, hu⟩ := bind_ok hu
    exact byte_removeLast (byte_joinCurrent h hb₁) hu
  · obtain ⟨b₁, hb₁, hu⟩ := bind_ok hu
    exact byte_removeLast (byte_store h hb₁) hu

theorem byte_resetPath (h : b.byte 127 = 0) {b' : PathBuffer} (hr : resetPath b = .ok b') :
    b'.byte 127 = 0 := by
  have hh := holds_cstr h
  obtain ⟨len, hlen, hr⟩ := bind_ok hr
  obtain rfl : b.cstr.length = len := by simpa [hh.strlen_eq] using hlen
  refine byte_store (u := [slash]) ?_ hr
  have := hh.lt
  rw [Buffer.byte_patch_of_not_mem (.inr (by omega)), h]

/-- `sys_chdir` leaves a NUL at the end of the buffer. -/
theorem byte_sysChdir (h : b.byte 127 = 0) {d : Disk} {path_name : Option CString} {r : ℤ}
    {b' : PathBuffer} {opened : Option (ℕ × InodeDef)}
    (hr : (sysChdir b path_name).run d = (.ok (r, b', opened), d)) : b'.byte 127 = 0 := by
  have hh := holds_cstr h
  have hread := (readOnly_openPath b.cstr path_name).run_snd d
  cases hopen : (openPath b.cstr path_name).run d with
  | mk x d' =>
  obtain rfl : d' = d := by rw [← hread, hopen]
  rcases x with e | x
  · unfold sysChdir at hr
    rw [if_neg (by simp [hh.readable]), run_bind_error hopen] at hr
    simp at hr
  · rw [run_sysChdir hh hopen] at hr
    split at hr
    · split at hr
      · simp only [Prod.mk.injEq, Except.ok.injEq, and_true] at hr
        rwa [← hr.2.1]
      · split at hr
        · simp at hr
        · next hu =>
          simp only [Prod.mk.injEq, Except.ok.injEq, and_true] at hr
          rw [← hr.2.1]
          exact byte_updatePath h hu
    · simp only [Prod.mk.injEq, Except.ok.injEq, and_true] at hr
      rwa [← hr.2.1]

/-- The copy is the path of the parent exactly if the slot has a NUL where that path ends. -/
theorem inheritPath_spec (hs : src.byte 127 = 0) (hd : dst.byte 127 = 0) :
    ∃ b', inheritPath src dst = .ok b' ∧ b'.byte 127 = 0 ∧
      (b'.cstr = src.cstr ↔ dst.byte src.cstr.length = 0) := by
  have hh := holds_cstr hs
  have hlt := hh.lt
  have hat : (dst.patch 0 src.cstr.length src.byte).byte src.cstr.length =
      dst.byte src.cstr.length := Buffer.byte_patch_of_not_mem (.inr (by omega))
  have hlast : (dst.patch 0 src.cstr.length src.byte).byte 127 = 0 := by
    rw [Buffer.byte_patch_of_not_mem (.inr (by omega)), hd]
  refine ⟨_, by rw [inheritPath, hh.strlen_eq]; rfl, hlast, fun he => ?_, fun hz => ?_⟩
  · have hb := (holds_cstr hlast).bytes _ le_rfl
    rw [charAt_of_le le_rfl, he] at hb
    rw [← hat, hb]
  · refine Holds.cstr_eq ⟨hlt, hh.zero, fun k hk => ?_⟩
    rcases Nat.lt_or_ge k src.cstr.length with hk' | hk'
    · rw [Buffer.byte_patch_of_mem (by omega) (by omega) (by omega), Nat.sub_zero, hh.bytes k hk]
    · obtain rfl : k = src.cstr.length := by omega
      rw [hat, hz, charAt_of_le le_rfl]

namespace Processes

variable {t t' : Processes}

/-- What `sys_fork` does to the paths. -/
theorem sysFork_cases {src : Slot} {init copied : Bool} {r : Option Slot}
    (h : t.sysFork src init copied = .ok (r, t')) :
    r = none ∧ t'.current_path = t.current_path ∨
      ∃ dst path, r = some dst ∧ inheritPath (t.current_path src) (t.current_path dst) = .ok path ∧
        t'.current_path = Function.update t.current_path dst path := by
  unfold sysFork at h
  split at h
  · obtain ⟨rfl, rfl⟩ := Prod.mk.inj (Except.ok.inj h)
    exact .inl ⟨rfl, rfl⟩
  · next dst _ =>
    split at h
    · obtain ⟨rfl, rfl⟩ := Prod.mk.inj (Except.ok.inj h)
      exact .inl ⟨rfl, rfl⟩
    · split at h
      · obtain ⟨rfl, rfl⟩ := Prod.mk.inj (Except.ok.inj h)
        exact .inl ⟨rfl, rfl⟩
      · obtain ⟨path, hp, h⟩ := bind_ok h
        obtain ⟨rfl, rfl⟩ := Prod.mk.inj (Except.ok.inj h)
        exact .inr ⟨dst, path, rfl, hp, rfl⟩

/-- Every slot ends in a NUL. -/
def Terminated (t : Processes) : Prop := ∀ p, (t.current_path p).byte 127 = 0

theorem Terminated.update (h : t.Terminated) {p : Slot} {b : PathBuffer}
    (hb : b.byte 127 = 0) (q : Slot) : (Function.update t.current_path p b q).byte 127 = 0 := by
  by_cases hq : q = p
  · rw [hq, Function.update_self, hb]
  · rw [Function.update_of_ne hq, h q]

theorem Terminated.call (h : t.Terminated) (hc : Call t t') : t'.Terminated := by
  cases hc with
  | @fork src _ _ _ _ _ hf =>
    rcases sysFork_cases hf with ⟨-, he⟩ | ⟨dst, path, -, hp, he⟩
    · exact fun p => by rw [he, h p]
    · obtain ⟨path', hp', hlast, -⟩ := inheritPath_spec (h src) (h dst)
      obtain rfl := Except.ok.inj (hp.symm.trans hp')
      exact fun p => by rw [he, h.update hlast p]
  | @chdir p _ _ _ _ _ _ hr => exact h.update (byte_sysChdir (h p) hr)
  | exit => exact h
  | @wait p r t' _ hw =>
    unfold sysWait at hw
    split at hw
    · obtain ⟨rfl, rfl⟩ := Prod.mk.inj (Except.ok.inj hw)
      exact h
    · next child _ =>
      obtain ⟨path, hp, hw⟩ := bind_ok hw
      obtain ⟨rfl, rfl⟩ := Prod.mk.inj (Except.ok.inj hw)
      exact h.update (byte_resetPath (h child) hp)

theorem Reached.terminated (h : Reached t) : t.Terminated :=
  h.invariant (by rintro _ rfl p; rfl) fun _ _ ht hc => ht.call hc

/-- A child starts in the directory of its parent exactly if the slot of the child holds a NUL where
the path of the parent ends. -/
theorem fork_inherits_path_iff {src dst : Slot} {init copied : Bool}
    (h : Reached t) (hf : t.sysFork src init copied = .ok (some dst, t')) :
    (t'.current_path dst).cstr = (t'.current_path src).cstr ↔
      (t.current_path dst).byte (t.current_path src).cstr.length = 0 := by
  have ht := h.terminated
  rcases sysFork_cases hf with ⟨hr, -⟩ | ⟨dst', path, hr, hp, he⟩
  · simp at hr
  · obtain rfl := Option.some.inj hr
    obtain ⟨path', hp', -, hiff⟩ := inheritPath_spec (ht src) (ht dst)
    obtain rfl := Except.ok.inj (hp.symm.trans hp')
    rw [he, Function.update_self]
    by_cases hsd : src = dst
    · subst hsd
      have hz := (holds_cstr (ht src)).bytes _ le_rfl
      rw [charAt_of_le le_rfl] at hz
      simp [hz]
    · rwa [Function.update_of_ne hsd]

theorem fork_inherits_path_first : ∃ t' : Processes,
    boot.sysFork 0 true true = .ok (some 1, t') ∧
      (t'.current_path 1).cstr = (t'.current_path 0).cstr := by
  obtain ⟨t', ht'⟩ : ∃ t', boot.sysFork 0 true true = .ok (some 1, t') := ⟨_, rfl⟩
  exact ⟨t', ht', (fork_inherits_path_iff (.start rfl) ht').mpr (by decide)⟩

/-! ## A path from two processes -/

/-- The disk after `/a/b` is made on a disk with an empty root directory. -/
def nestedDisk : Disk :=
  ((create (fun _ => .ofFn fun _ => 0) [slash] (some ⟨[47, 97, 47, 98], by decide⟩) .directory 0
    0).run (rootDisk 100)).2

theorem nestedDisk_spec : Walkable nestedDisk ∧
    (∃ j, resolve nestedDisk [] 0 = some j ∧ (inodeAt nestedDisk j).type = .directory) ∧
    (∃ j, resolve nestedDisk [[97]] 0 = some j ∧ (inodeAt nestedDisk j).type = .directory) ∧
    ∃ j, resolve nestedDisk [[97], [98]] 0 = some j ∧
      (inodeAt nestedDisk j).type = .directory := by
  obtain ⟨htree, -⟩ := fsTree_rootDisk (n := 100) (by omega)
  have hroot := inodeAt_rootDisk 100
  have hneed : appendNeed (inodeAt (rootDisk 100) 0) = 1 := by rw [hroot]; rfl
  have hp : parsePath [slash] (some ⟨[47, 97, 47, 98], by decide⟩) .zero =
      .ok (2, putRows .zero 0 [[97], [98]]) :=
    parsePath_abs [[97], [98]] [] (by simp [IsComponent, slash]) (.inl rfl) (by simp [Fitting])
      (by simp) (by simp [joinPath]) (by decide)
  have hrows : (putRows .zero 0 [[97], [98]]).rows 2 = [[97], [98]] :=
    rows_putRows (by simp [IsName])
  obtain ⟨r, d', hrun, hw, hg, -, -, hnew⟩ := run_createFrom_room (fun _ => .ofFn fun _ => 0)
    .directory 0 0 0 {} htree htree.tree.root (by rw [hroot]; rfl)
    (show ∀ c ∈ [[97], [98]], IsName c by simp [IsName])
    (by rw [RoomFor, hneed, freeCount_rootDisk (by omega), freeInodes_rootDisk]; simp)
  have hd : nestedDisk = d' := by
    rw [nestedDisk, run_create hp (by omega), show (2 : ℤ).toNat = 2 from rfl, hrows, hrun]
  obtain ⟨j, -, -, -, hj, hres⟩ := hnew (by rw [freeInodes_rootDisk]; simp)
  have htype : (inodeAt d' 0).type = .directory := by rw [hg.type, hroot]
  rw [hd]
  refine ⟨hw, ⟨0, rfl, htype⟩, ?_, j, hres, by rw [hj]; rfl⟩
  -- the first component resolves, because the path through it does
  simp only [resolve, if_pos htype] at hres ⊢
  cases hk : (dirEntries d' (inodeAt d' 0)).lookup [97] with
  | none => simp [hk] at hres
  | some k =>
    simp only [hk, Option.bind_some] at hres ⊢
    refine ⟨k, rfl, ?_⟩
    by_contra hne
    simp [hne] at hres

/-- An absolute path to a directory of that disk changes the path buffer alone. -/
theorem run_sysChdir_nested {b b' : PathBuffer} (hb : b.byte 127 = 0) (p : CString)
    (cs : List (List UInt8)) (t : List UInt8) (hp : p.1 = joinPath cs ++ t) (hne : p.1 ≠ [])
    (hcs : ∀ c ∈ cs, IsComponent c) (ht : IsTail t) (hf : Fitting t cs) (hl : cs.length ≤ 16)
    (hres : ∃ j, resolve nestedDisk cs 0 = some j ∧ (inodeAt nestedDisk j).type = .directory)
    (hu : updatePath b p.1 = .ok b') :
    ∃ opened, (sysChdir b (some p)).run nestedDisk = (.ok (0, b', opened), nestedDisk) := by
  obtain ⟨j, hj, htype⟩ := hres
  have hopen : (openPath b.cstr (some p)).run nestedDisk =
      (.ok (some (j, inodeAt nestedDisk j)), nestedDisk) := by
    rw [(openPath_abs b.cstr hp (hp ▸ hne) hcs ht hf hl).2, ROOT_INODE,
      nestedDisk_spec.1.run_openImpl (by omega), hj]
    rfl
  have hrun := run_sysChdir (holds_cstr hb) hopen
  simp only [htype, ne_eq, not_true_eq_false, if_false, hu] at hrun
  exact ⟨_, hrun⟩

/-- A child moves to `/a/b` and back to `/` and exits. The next child in its slot, forked in `/a`, starts
in `/a/b`. -/
theorem fork_mixes_paths : ∃ t t' : Processes, Reached t ∧ t.Live 0 ∧
    t.sysFork 0 true true = .ok (some 1, t') ∧
    (t'.current_path 0).cstr = [47, 97] ∧ (t'.current_path 1).cstr = [47, 97, 47, 98] := by
  obtain ⟨-, hroot, ha, hab⟩ := nestedDisk_spec
  have h₀ : Reached boot := .start rfl
  have h₁ : Reached _ := .step h₀ (@Call.fork _ 0 true true _ _ (by decide) rfl)
  obtain ⟨_, hr⟩ := run_sysChdir_nested (Reached.terminated h₁ 1) ⟨[47, 97, 47, 98], by decide⟩
    [[97], [98]] [] rfl (by simp) (by simp [IsComponent, slash]) (.inl rfl) (by simp [Fitting])
    (by simp) hab rfl
  have h₂ : Reached _ := .step h₁ (.chdir (by decide) hr)
  obtain ⟨_, hr⟩ := run_sysChdir_nested (Reached.terminated h₂ 1) ⟨[47], by decide⟩ [] [47] rfl
    (by simp) (by simp) (.inr rfl) (by simp [Fitting]) (by simp) hroot rfl
  have h₃ : Reached _ := .step h₂ (.chdir (by decide) hr)
  have h₄ : Reached _ := .step h₃ (@Call.exit _ 1 0 (.other 0) (by decide))
  have h₅ : Reached _ := .step h₄ (@Call.wait _ 0 _ _ (by decide) rfl)
  obtain ⟨_, hr⟩ := run_sysChdir_nested (Reached.terminated h₅ 0) ⟨[47, 97], by decide⟩ [[97]] [] rfl
    (by simp) (by simp [IsComponent, slash]) (.inl rfl) (by simp [Fitting]) (by simp) ha rfl
  have h₆ : Reached _ := .step h₅ (.chdir (by decide) hr)
  exact ⟨_, _, h₆, by decide, rfl, by decide, by decide⟩

end Processes

end OrangeOs.Kernel
