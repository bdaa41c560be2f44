import OrangeOs.Filesystem.CreateSpec
import OrangeOs.Library.Runs

/-! # The current path of a process

`sys_chdir` opens its argument and then builds the new current path as text, in a buffer
of 128 bytes. The text and the path that was opened agree as long as the text fits, the
argument is accepted on its own, and the last component leaves room for the slash after it.
-/

namespace OrangeOs.Kernel

open Prog Fs

/-- The member `current_path` of a process. -/
abbrev PathBuffer := Buffer 128

def no_such_file_or_directory : ℤ := -2
def not_a_directory : ℤ := -1

/-- `strlen` of a buffer; a fault if no NUL stops it. -/
def strlen (b : PathBuffer) : Except Fault ℕ :=
  if 0 ∈ (List.range 128).map b.byte then .ok b.cstr.length else .error .outOfBounds

/-- Copy bytes into a buffer. -/
def store (b : PathBuffer) (o : ℕ) (s : List UInt8) : Except Fault PathBuffer :=
  if o + s.length ≤ 128 then .ok (b.patch o s.length (charAt s)) else .error .outOfBounds

/-- The part of `sys_chdir` that joins a relative path to the current one. -/
def joinCurrent (current_path : PathBuffer) (path_name : List UInt8) : Except Fault PathBuffer := do
  let cur_path_len ← strlen current_path
  if cur_path_len = 0 then .error .outOfBounds
  else
    let current_path ← if current_path.byte (cur_path_len - 1) ≠ slash
      then store current_path cur_path_len [slash, 0]
      else pure current_path
    let cur_path_len ← strlen current_path
    store current_path cur_path_len (path_name ++ [0])

/-- The part of `sys_chdir` that removes the last slash. -/
def removeLast (current_path : PathBuffer) : Except Fault PathBuffer := do
  let cur_path_len ← strlen current_path
  if cur_path_len > 1 ∧ current_path.byte (cur_path_len - 1) = slash
    then store current_path (cur_path_len - 1) [0]
    else pure current_path

/-- The part of `sys_chdir` after the directory is open. -/
def updatePath (current_path : PathBuffer) (path_name : List UInt8) : Except Fault PathBuffer := do
  let current_path ← if path_name.head? ≠ some slash
    then joinCurrent current_path path_name
    else store current_path 0 (path_name ++ [0])
  removeLast current_path

/-- `ParsePath` reads the current path for a relative path, and runs past a buffer without NUL. -/
def readable (current_path : PathBuffer) : Option CString → Bool
  | some ⟨c :: _, _⟩ => c = slash || (strlen current_path).isOk
  | _ => true

/-- `sys_chdir`. The last part of the result is the directory that a successful call opened. -/
def sysChdir (current_path : PathBuffer) (path_name : Option CString) :
    FsProg (ℤ × PathBuffer × Option (ℕ × InodeDef)) := do
  if ¬ readable current_path path_name then fail .outOfBounds
  match ← openPath current_path.cstr path_name, path_name with
  | some (inode_index, inode), some path_name =>
    if inode.type ≠ .directory then return (not_a_directory, current_path, none)
    match updatePath current_path path_name.1 with
    | .error e => fail e
    | .ok current_path => return (0, current_path, some (inode_index, inode))
  | _, _ => return (no_such_file_or_directory, current_path, none)

/-- The current path of a process and the directory that its last successful `sys_chdir`
opened. -/
structure Cwd where
  current_path : PathBuffer
  opened : Option (ℕ × InodeDef)

/-- A process starts with the current path `"/"`. -/
def Cwd.initial : Cwd := ⟨.ofFn fun o => if o = 0 then slash else 0, none⟩

theorem zero_notMem_cstr {n : ℕ} (b : Buffer n) : 0 ∉ b.cstr := by
  intro h
  have := List.mem_takeWhile_imp h
  simp at this

/-- The current path as an argument. -/
def currentPath (b : PathBuffer) : CString := ⟨b.cstr, zero_notMem_cstr b⟩

/-- The current path is a string within its buffer that `ParsePath` accepts as an absolute path, and
it opens to the directory that the last successful call opened. -/
structure Consistent (d : Disk) (s : Cwd) : Prop where
  terminated : 0 ∈ (List.range 128).map s.current_path.byte
  absolute : s.current_path.cstr.head? = some slash
  accepted : ∃ level tbl, parsePath s.current_path.cstr (some (currentPath s.current_path)) .zero =
    .ok (level, tbl) ∧ 0 ≤ level
  opened : ∀ i x, s.opened = some (i, x) → x.type = .directory ∧
    (openPath s.current_path.cstr (some (currentPath s.current_path))).run d =
      (.ok (some (i, x)), d)

/-- The length of the last component of a path. -/
def lastLength (p : List UInt8) : ℕ := (p.reverse.takeWhile (· ≠ slash)).length

/-- The text of an argument can be joined to the current path. `Open` takes the argument without a
fault. If it opens a directory, then an absolute argument fits into the buffer; a relative one is
accepted on its own, fits into the buffer after the current path, and follows a component with
room for a slash. -/
structure Joinable (d : Disk) (b : PathBuffer) (path_name : Option CString) : Prop where
  returns : ∃ r, (openPath b.cstr path_name).run d = (.ok r, d)
  joins : ∀ p i x, path_name = some p → (openPath b.cstr path_name).run d = (.ok (some (i, x)), d) →
    x.type = .directory →
    if p.1.head? = some slash then p.1.length ≤ 127
    else (∃ level tbl, parsePathImpl p.1 0 .zero true = .ok (level, tbl) ∧ 0 ≤ level) ∧
      lastLength b.cstr ≤ 12 ∧
      b.cstr.length + (if b.cstr.getLast? = some slash then 0 else 1) + p.1.length ≤ 127

/-- One call of `sys_chdir` that returns. -/
def Call (d : Disk) (s s' : Cwd) (path_name : Option CString) : Prop :=
  ∃ r op, (sysChdir s.current_path path_name).run d = (.ok (r, s'.current_path, op), d) ∧
    s'.opened = op.or s.opened

variable {d : Disk} {b b' : PathBuffer} {s t u c : List UInt8} {cs cs' : List (List UInt8)} {o i : ℕ}

/-! ## Strings in a buffer -/

theorem charAt_append_zero {k : ℕ} (hk : k ≤ u.length) : charAt (u ++ [0]) k = charAt u k := by
  by_cases hlt : k < u.length
  · rw [charAt_append_left hlt]
  · rw [charAt_append_right (by omega), charAt_of_le (s := u) (by omega),
      show k - u.length = 0 by omega]
    rfl

/-- The buffer holds a string and the NUL after it. -/
structure Holds (b : PathBuffer) (s : List UInt8) : Prop where
  lt : s.length < 128
  zero : 0 ∉ s
  bytes : ∀ k ≤ s.length, b.byte k = charAt s k

namespace Holds

theorem mem_zero (h : Holds b s) : 0 ∈ (List.range 128).map b.byte :=
  List.mem_map.mpr ⟨s.length, List.mem_range.mpr h.lt, by
    rw [h.bytes _ le_rfl, charAt_of_le le_rfl]⟩

theorem cstr_eq (h : Holds b s) : b.cstr = s := by
  have hlt := h.lt
  have hs : (List.range s.length).map b.byte = s := by
    apply ext_charAt
    · simp
    · intro k hk
      rw [List.length_map, List.length_range] at hk
      rw [charAt_map_range hk, h.bytes k hk.le]
  have hzero : b.byte s.length = 0 := by rw [h.bytes _ le_rfl, charAt_of_le le_rfl]
  have hsplit : (List.range 128).map b.byte =
      s ++ 0 :: (List.range (127 - s.length)).map fun k => b.byte (s.length + 1 + k) := by
    have hrange : List.range 128 = List.range (s.length + 1 + (127 - s.length)) := by
      congr 1
      omega
    rw [hrange, List.range_add, List.map_append, List.range_succ, List.map_append, hs,
      List.map_singleton, hzero, List.map_map,
      List.append_assoc]
    rfl
  rw [Buffer.cstr, hsplit, List.takeWhile_append_of_pos]
  · simp
  · intro a ha
    simp only [ne_eq, decide_eq_true_eq]
    rintro rfl
    exact h.zero ha

theorem strlen_eq (h : Holds b s) : strlen b = .ok s.length := by
  rw [strlen, if_pos h.mem_zero, h.cstr_eq]

/-- Storing a string with its NUL over the end of another. -/
theorem store (h : Holds b s) (ho : o ≤ s.length) (hu : 0 ∉ u) (hlen : o + u.length < 128) :
    ∃ b', store b o (u ++ [0]) = .ok b' ∧ Holds b' (s.take o ++ u) := by
  have hul : (u ++ [0]).length = u.length + 1 := by simp
  have htake : (s.take o).length = o := by rw [List.length_take]; omega
  have hlen' : (s.take o ++ u).length = o + u.length := by rw [List.length_append, htake]
  refine ⟨_, if_pos (by omega), by omega, ?_, fun k hk => ?_⟩
  · rw [List.mem_append]
    rintro (hm | hm)
    · exact h.zero (List.mem_of_mem_take hm)
    · exact hu hm
  · by_cases hlt : k < o
    · rw [Buffer.byte_patch_of_not_mem (.inl hlt), h.bytes k (by omega), charAt_append_left (by omega),
        charAt_take hlt]
    · rw [Buffer.byte_patch_of_mem (by omega) (by omega) (by omega),
        charAt_append_right (s := s.take o) (by omega), htake, charAt_append_zero (by omega)]

end Holds

/-- Storing a string with its NUL at the start. -/
theorem store_zero (hu : 0 ∉ u) (hlen : u.length < 128) (b : PathBuffer) :
    ∃ b', store b 0 (u ++ [0]) = .ok b' ∧ Holds b' u := by
  have hul : (u ++ [0]).length = u.length + 1 := by simp
  refine ⟨_, if_pos (by omega), hlen, hu, fun k hk => ?_⟩
  rw [Buffer.byte_patch_of_mem (by omega) (by omega) (by omega), Nat.sub_zero,
    charAt_append_zero hk]

/-! ## The new current path as text -/

/-- The text that `sys_chdir` builds, before it removes the last slash. -/
def joinText (cur path_name : List UInt8) : List UInt8 :=
  if path_name.head? ≠ some slash then
    (if cur.getLast? = some slash then cur else cur ++ [slash]) ++ path_name
  else path_name

/-- Remove the last slash, unless it is the whole text. -/
def strip (p : List UInt8) : List UInt8 :=
  if p.length > 1 ∧ p.getLast? = some slash then p.dropLast else p

theorem charAt_last (hs : s ≠ []) : charAt s (s.length - 1) = slash ↔ s.getLast? = some slash := by
  have hpos := List.length_pos_iff.mpr hs
  rw [charAt_eq_getElem (by omega), List.getLast?_eq_getElem?, List.getElem?_eq_getElem (by omega)]
  simp

theorem run_removeLast (h : Holds b s) : ∃ b', removeLast b = .ok b' ∧ Holds b' (strip s) := by
  unfold removeLast strip
  simp only [h.strlen_eq, bind, Except.bind]
  by_cases hlen : s.length > 1
  · have hs : s ≠ [] := by rintro rfl; simp at hlen
    have hbyte : b.byte (s.length - 1) = slash ↔ s.getLast? = some slash := by
      rw [h.bytes _ (by omega), charAt_last hs]
    simp only [hbyte]
    by_cases hlast : s.getLast? = some slash
    · obtain ⟨b', hb', hh⟩ := h.store (o := s.length - 1) (u := []) (by omega) (by simp)
        (by have := h.lt; simp; omega)
      rw [if_pos ⟨hlen, hlast⟩, if_pos ⟨hlen, hlast⟩, List.dropLast_eq_take]
      exact ⟨b', hb', by simpa using hh⟩
    · rw [if_neg (by simp [hlast]), if_neg (by simp [hlast])]
      exact ⟨b, rfl, h⟩
  · rw [if_neg (by simp [hlen]), if_neg (by simp [hlen])]
    exact ⟨b, rfl, h⟩

theorem run_joinCurrent (h : Holds b s) (hs : s ≠ []) (hu : 0 ∉ u)
    (hlen : s.length + (if s.getLast? = some slash then 0 else 1) + u.length ≤ 127) :
    ∃ b', joinCurrent b u = .ok b' ∧
      Holds b' ((if s.getLast? = some slash then s else s ++ [slash]) ++ u) := by
  have hpos := List.length_pos_iff.mpr hs
  unfold joinCurrent
  have hbyte : b.byte (s.length - 1) = slash ↔ s.getLast? = some slash := by
    rw [h.bytes _ (by omega), charAt_last hs]
  simp only [h.strlen_eq, bind, Except.bind, if_neg (show s.length ≠ 0 by omega), ne_eq, hbyte]
  by_cases hlast : s.getLast? = some slash
  · simp only [hlast, not_true_eq_false, if_false, if_true, pure, Except.pure, h.strlen_eq] at hlen ⊢
    obtain ⟨b', hb', hh⟩ := h.store (u := u) le_rfl hu (by omega)
    exact ⟨b', hb', by simpa using hh⟩
  · simp only [hlast, not_false_eq_true, if_false, if_true] at hlen ⊢
    obtain ⟨b₁, hb₁, hh₁⟩ := h.store (u := [slash]) le_rfl (by decide) (by simp; omega)
    rw [List.take_length] at hh₁
    have hb₁' : Kernel.store b s.length [slash, 0] = .ok b₁ := hb₁
    have hl₁ : (s ++ [slash]).length = s.length + 1 := by simp
    obtain ⟨b₂, hb₂, hh₂⟩ := hh₁.store (u := u) le_rfl hu (by omega)
    rw [List.take_length] at hh₂
    simp only [hb₁', hh₁.strlen_eq]
    exact ⟨b₂, hb₂, hh₂⟩

theorem run_updatePath (h : Holds b s) (hs : s ≠ []) (hu : 0 ∉ u)
    (hlen : if u.head? = some slash then u.length ≤ 127
      else s.length + (if s.getLast? = some slash then 0 else 1) + u.length ≤ 127) :
    ∃ b', updatePath b u = .ok b' ∧ Holds b' (strip (joinText s u)) := by
  unfold updatePath joinText
  by_cases hhead : u.head? = some slash
  · simp only [hhead, if_true] at hlen
    obtain ⟨b₁, hb₁, hh₁⟩ := store_zero hu (by omega) b
    simp only [hhead, ne_eq, not_true_eq_false, if_false, hb₁, bind, Except.bind]
    exact run_removeLast hh₁
  · simp only [hhead, if_false] at hlen
    obtain ⟨b₁, hb₁, hh₁⟩ := run_joinCurrent h hs hu hlen
    simp only [hhead, ne_eq, not_false_eq_true, if_true, hb₁, bind, Except.bind]
    exact run_removeLast hh₁

/-! ## Text and components -/

/-- The current path of a process in the directory with the given components. -/
def curText (cs : List (List UInt8)) : List UInt8 := if cs = [] then [slash] else joinPath cs

/-- The tail of a current path. -/
def curTail (cs : List (List UInt8)) : List UInt8 := if cs = [] then [slash] else []

theorem curText_eq (cs : List (List UInt8)) : curText cs = joinPath cs ++ curTail cs := by
  cases cs <;> simp [curText, curTail, joinPath]

theorem isTail_curTail (cs : List (List UInt8)) : IsTail (curTail cs) := by
  unfold curTail
  split
  · exact .inr rfl
  · exact .inl rfl

theorem fitting_curTail (h : Fitting t cs) : Fitting (curTail cs) cs := by
  cases cs with
  | nil => trivial
  | cons c cs =>
    rw [curTail, if_neg (by simp)]
    exact h.nil

theorem curText_ne_nil (cs : List (List UInt8)) : curText cs ≠ [] := by
  cases cs <;> simp [curText, joinPath]

theorem joinPath_concat (cs : List (List UInt8)) (c : List UInt8) :
    joinPath (cs ++ [c]) = joinPath cs ++ slash :: c := by
  simp [joinPath_append, joinPath]

theorem getLast?_joinPath (hcs : ∀ c ∈ cs, IsComponent c) :
    (joinPath cs).getLast? ≠ some slash := by
  cases cs using List.reverseRecOn with
  | nil => simp [joinPath]
  | append_singleton cs c =>
    obtain ⟨hne, hns⟩ := hcs c (by simp)
    rw [joinPath_concat, List.getLast?_append, List.getLast?_cons]
    obtain ⟨a, ha⟩ := Option.ne_none_iff_exists'.mp (mt List.getLast?_eq_none_iff.mp hne)
    simp only [ha, Option.getD_some, Option.some_or, ne_eq, Option.some.injEq]
    rintro rfl
    exact hns (List.mem_of_getLast? ha)

theorem strip_join (hcs : ∀ c ∈ cs, IsComponent c) (ht : IsTail t) (hne : joinPath cs ++ t ≠ []) :
    strip (joinPath cs ++ t) = curText cs := by
  have hlast := getLast?_joinPath hcs
  cases cs with
  | nil =>
    rcases ht with rfl | rfl
    · simp [joinPath] at hne
    · simp [strip, joinPath, curText]
  | cons c cs =>
    rw [curText, if_neg (by simp)]
    rcases ht with rfl | rfl
    · simp [strip, hlast]
    · rw [strip, if_pos ⟨by simp [joinPath], List.getLast?_concat⟩, List.dropLast_concat]

theorem lastLength_curText (hcs : ∀ b ∈ cs ++ [c], IsComponent b) :
    lastLength (curText (cs ++ [c])) = c.length := by
  have hns := (hcs c (by simp)).2
  rw [curText, if_neg (by simp), joinPath_concat, lastLength, List.reverse_append, List.reverse_cons,
    List.append_assoc, List.takeWhile_append_of_pos]
  · simp
  · intro a ha
    simp only [ne_eq, decide_eq_true_eq]
    rintro rfl
    exact hns (List.mem_reverse.mp ha)

/-- All components of the current path leave room for a slash if the last one does. -/
theorem length_le_of_lastLength (hcs : ∀ c ∈ cs, IsComponent c) (hf : Fitting [] cs)
    (hlast : lastLength (curText cs) ≤ 12) : ∀ c ∈ cs, c.length ≤ 12 := by
  cases cs using List.reverseRecOn with
  | nil => simp
  | append_singleton cs c =>
    rw [lastLength_curText hcs] at hlast
    intro a ha
    rcases List.mem_append.mp ha with ha | ha
    · exact hf.of_concat a ha
    · rw [List.mem_singleton.mp ha]
      exact hlast

theorem joinText_rel (hcs : ∀ c ∈ cs, IsComponent c) (hc : IsComponent c) :
    joinText (curText cs) (c ++ joinPath cs' ++ t) = joinPath (cs ++ c :: cs') ++ t := by
  have hhead : (c ++ joinPath cs' ++ t).head? ≠ some slash := by
    obtain ⟨a, c, rfl⟩ := List.exists_cons_of_ne_nil hc.1
    simp only [List.cons_append, List.head?_cons, ne_eq, Option.some.injEq]
    rintro rfl
    exact hc.2 (by simp)
  rw [joinText, if_pos hhead]
  cases cs with
  | nil => simp [curText, joinPath]
  | cons b cs =>
    have hcur : curText (b :: cs) = joinPath (b :: cs) := if_neg (by simp)
    rw [hcur, if_neg (getLast?_joinPath hcs), joinPath_append]
    simp [joinPath]

/-! ## One call -/

/-- The current path is the text of fitting components, and these open to the directory that the
last successful call opened. -/
def Inv (d : Disk) (s : Cwd) : Prop :=
  ∃ cs, (∀ c ∈ cs, IsComponent c) ∧ Fitting [] cs ∧ cs.length ≤ 16 ∧
    Holds s.current_path (curText cs) ∧
    ∀ i x, s.opened = some (i, x) → x.type = .directory ∧
      (openImpl cs ROOT_INODE).run d = (.ok (some (i, x)), d)

theorem notMem_of_joinPath (h0 : 0 ∉ joinPath cs ++ t) : ∀ c ∈ cs, 0 ∉ c := by
  induction cs with
  | nil => simp
  | cons b cs ih =>
    intro c hc hmem
    rw [joinPath] at h0
    rcases List.mem_cons.mp hc with rfl | hc
    · exact h0 (by simp [hmem])
    · refine ih (fun hm => h0 ?_) c hc hmem
      rcases List.mem_append.mp hm with hm | hm <;> simp [hm]

/-- An absolute path of this form opens what its components open. -/
theorem openPath_abs {p : CString} (cwd : List UInt8) (hp : p.1 = joinPath cs ++ t)
    (hne : joinPath cs ++ t ≠ []) (hcs : ∀ c ∈ cs, IsComponent c) (ht : IsTail t)
    (hf : Fitting t cs) (hl : cs.length ≤ 16) :
    parsePath cwd (some p) .zero = .ok (cs.length, putRows .zero 0 cs) ∧
      openPath cwd (some p) = openImpl cs ROOT_INODE := by
  obtain ⟨p, h0⟩ := p
  subst hp
  have hparse : parsePath cwd (some ⟨joinPath cs ++ t, h0⟩) .zero =
      .ok (cs.length, putRows .zero 0 cs) := parsePath_abs cs t hcs ht hf hl hne h0
  have hnames : ∀ c ∈ cs, IsName c := fun c hc => ⟨notMem_of_joinPath h0 c hc, hf.length_le c hc⟩
  refine ⟨hparse, ?_⟩
  unfold openPath
  simp only [hparse, if_neg (show ¬ (cs.length : ℤ) < 0 by omega), Int.toNat_natCast,
    rows_putRows hnames]

theorem Inv.consistent {s : Cwd} (h : Inv d s) : Consistent d s := by
  obtain ⟨cs, hcs, hf, hl, hh, hop⟩ := h
  have hcur := hh.cstr_eq
  rw [curText_eq] at hcur
  have hne : joinPath cs ++ curTail cs ≠ [] := by
    rw [← curText_eq]
    exact curText_ne_nil cs
  obtain ⟨hparse, hopen⟩ := openPath_abs s.current_path.cstr
    (show (currentPath s.current_path).1 = _ from hcur) hne hcs (isTail_curTail cs)
    (fitting_curTail hf) hl
  refine ⟨hh.mem_zero, ?_, ⟨_, _, hparse, by omega⟩, fun i x hx => ?_⟩
  · rw [hh.cstr_eq]
    cases cs <;> simp [curText, joinPath]
  · rw [hopen]
    exact hop i x hx

/-- A relative path of this form opens what its components open after those of the current path. -/
theorem openPath_rel {p : CString} (hp : p.1 = c ++ joinPath cs' ++ t)
    (hcs : ∀ b ∈ cs, IsComponent b) (hf : Fitting [] cs) (hl : cs.length ≤ 16)
    (h0 : 0 ∉ curText cs) (hcs' : ∀ b ∈ c :: cs', IsComponent b) (ht : IsTail t)
    (hf' : Fitting t (c :: cs')) (hl' : (c :: cs').length ≤ 16) :
    openPath (curText cs) (some p) = if cs.length + (c :: cs').length ≤ 16
      then openImpl (cs ++ c :: cs') ROOT_INODE else fail .outOfBounds := by
  obtain ⟨p, hp0⟩ := p
  obtain ⟨a, r, ha⟩ := List.exists_cons_of_ne_nil (hcs' c (by simp)).1
  have hne : a ≠ slash := by
    rintro rfl
    exact (hcs' c (by simp)).2 (by simp [ha])
  have hp' : p = c ++ joinPath cs' ++ t := hp
  obtain ⟨q, hq⟩ : ∃ q, p = a :: q := ⟨r ++ joinPath cs' ++ t, by rw [hp', ha]; simp⟩
  have hcur : parsePathImpl (curText cs) 0 .zero false = .ok (cs.length, putRows .zero 0 cs) := by
    rw [curText_eq]
    exact parsePathImpl_abs hcs (isTail_curTail cs) (fitting_curTail hf) hl
  have hparse : parsePath (curText cs) (some ⟨p, hp0⟩) .zero =
      (parsePathImpl p cs.length (putRows .zero 0 cs) true).bind fun r =>
        .ok (r.1 + cs.length, r.2) := by
    subst hq
    simp only [parsePath, hne, ne_eq, not_false_eq_true, if_true, hcur, bind, Except.bind]
    rfl
  unfold openPath
  by_cases hle : cs.length + (c :: cs').length ≤ 16
  · have hrel : parsePathImpl p cs.length (putRows .zero 0 cs) true =
        .ok ((c :: cs').length, putRows .zero 0 (cs ++ c :: cs')) := by
      rw [putRows_append, Nat.zero_add, hp']
      exact parsePathImpl_rel hcs' ht hf' hle
    have hnames : ∀ b ∈ cs ++ c :: cs', IsName b := by
      intro b hb
      rcases List.mem_append.mp hb with hb | hb
      · rw [curText_eq] at h0
        exact ⟨notMem_of_joinPath h0 b hb, hf.length_le b hb⟩
      · refine ⟨?_, hf'.length_le b hb⟩
        have hp0' : 0 ∉ joinPath (c :: cs') ++ t := by
          rw [joinPath, List.cons_append, List.cons_append, List.mem_cons, not_or]
          exact ⟨by decide, by rwa [← hp']⟩
        exact notMem_of_joinPath hp0' b hb
    have hlevel : ¬ ((c :: cs').length : ℤ) + cs.length < 0 := by omega
    have htoNat : (((c :: cs').length : ℤ) + cs.length).toNat = (cs ++ c :: cs').length := by
      rw [List.length_append]
      omega
    simp only [hparse, hrel, Except.bind, pure, if_neg hlevel, htoNat, rows_putRows hnames,
      if_pos hle]
  · have hrel : parsePathImpl p cs.length (putRows .zero 0 cs) true = .error .outOfBounds := by
      rw [hp']
      exact parsePathImpl_rel_overflow hcs' ht hf' hl' hl (by omega)
    simp only [hparse, hrel, Except.bind, if_neg hle]

/-- The text built for an argument that opens a directory is that of the components it opened. -/
theorem joinText_of_open {p : CString} {x : InodeDef} (hcs : ∀ b ∈ cs, IsComponent b)
    (hf : Fitting [] cs) (hl : cs.length ≤ 16) (h0 : 0 ∉ curText cs)
    (hopen : (openPath (curText cs) (some p)).run d = (.ok (some (i, x)), d))
    (hjoin : p.1.head? ≠ some slash →
      (∃ level tbl, parsePathImpl p.1 0 .zero true = .ok (level, tbl) ∧ 0 ≤ level) ∧
        lastLength (curText cs) ≤ 12) :
    ∃ cs' t, joinText (curText cs) p.1 = joinPath cs' ++ t ∧ joinPath cs' ++ t ≠ [] ∧
      (∀ b ∈ cs', IsComponent b) ∧ IsTail t ∧ Fitting t cs' ∧ cs'.length ≤ 16 ∧
      (openImpl cs' ROOT_INODE).run d = (.ok (some (i, x)), d) := by
  obtain ⟨level, tbl, hparse, hlev⟩ : ∃ level tbl,
      parsePath (curText cs) (some p) .zero = .ok (level, tbl) ∧ 0 ≤ level := by
    rcases hparse : parsePath (curText cs) (some p) .zero with f | ⟨level, tbl⟩
    · simp [openPath, hparse] at hopen
    · refine ⟨level, tbl, rfl, ?_⟩
      by_contra hlt
      simp [openPath, hparse, not_le.mp hlt] at hopen
  by_cases hhead : p.1.head? = some slash
  · have himpl : parsePathImpl p.1 0 .zero false = .ok (level, tbl) := by
      obtain ⟨_ | ⟨a, q⟩, hp0⟩ := p
      · simp at hhead
      · obtain rfl : a = slash := by simpa using hhead
        simpa [parsePath] using hparse
    obtain ⟨cs', t, hp, hcs', ht, hf', hl', -, -⟩ := of_parsePathImpl_abs hhead himpl hlev
    have hne : joinPath cs' ++ t ≠ [] := by
      rw [← hp]
      intro he
      simp [he] at hhead
    refine ⟨cs', t, ?_, hne, hcs', ht, hf', hl', ?_⟩
    · rw [joinText, if_neg (by simp [hhead]), hp]
    · rw [← (openPath_abs (curText cs) hp hne hcs' ht hf' hl').2]
      exact hopen
  · obtain ⟨⟨level', tbl', himpl, hlev'⟩, hlast⟩ := hjoin hhead
    have hpne : p.1 ≠ [] := by
      obtain ⟨p, hp0⟩ := p
      rintro rfl
      simp only [parsePath, pure, Except.pure, Except.ok.injEq, Prod.mk.injEq] at hparse
      omega
    obtain ⟨c, cs', t, hp, hcs', ht, hf', -, hl', -, -⟩ := of_parsePathImpl_rel hpne hhead himpl hlev'
    have hlen : (c :: cs').length ≤ 16 := by omega
    rw [openPath_rel hp hcs hf hl h0 hcs' ht hf' hlen] at hopen
    by_cases hle : cs.length + (c :: cs').length ≤ 16
    · rw [if_pos hle] at hopen
      refine ⟨cs ++ c :: cs', t, ?_, by simp [joinPath_append, joinPath], ?_, ht,
        hf'.append (length_le_of_lastLength hcs hf hlast) (by simp), ?_, hopen⟩
      · rw [hp, joinText_rel hcs (hcs' c (by simp))]
      · intro b hb
        rcases List.mem_append.mp hb with hb | hb
        · exact hcs b hb
        · exact hcs' b hb
      · rw [List.length_append]
        exact hle
    · rw [if_neg hle] at hopen
      simp at hopen

theorem Holds.readable (h : Holds b s) (path_name : Option CString) :
    readable b path_name = true := by
  unfold Kernel.readable
  split
  · simp [h.strlen_eq, Except.isOk, Except.toBool]
  · rfl

theorem run_sysChdir {path_name : Option CString} {r : Option (ℕ × InodeDef)} (h : Holds b s)
    (hopen : (openPath b.cstr path_name).run d = (.ok r, d)) :
    (sysChdir b path_name).run d =
      match r, path_name with
      | some (i, x), some p =>
        if x.type ≠ .directory then (.ok (not_a_directory, b, none), d)
        else match updatePath b p.1 with
          | .error e => (.error e, d)
          | .ok b' => (.ok (0, b', some (i, x)), d)
      | _, _ => (.ok (no_such_file_or_directory, b, none), d) := by
  unfold sysChdir
  rw [if_neg (by simp [h.readable]), run_bind_ok hopen]
  rcases r with _ | ⟨i, x⟩
  · rfl
  rcases path_name with _ | p
  · rfl
  by_cases hx : x.type = .directory
  · simp only [hx, ne_eq, not_true_eq_false, if_false]
    cases updatePath b p.1 <;> rfl
  · simp [hx]

/-- What a call returns decides the state after it. -/
theorem call_of_run {s s' : Cwd} {path_name : Option CString} {r : ℤ} {op : Option (ℕ × InodeDef)}
    (h : (sysChdir s.current_path path_name).run d = (.ok (r, b, op), d)) :
    Call d s s' path_name ↔ s' = ⟨b, op.or s.opened⟩ := by
  constructor
  · rintro ⟨r', op', hrun, hop⟩
    rw [h] at hrun
    simp only [Prod.mk.injEq, Except.ok.injEq, and_true] at hrun
    obtain ⟨-, hb, rfl⟩ := hrun
    cases s'
    subst hb hop
    rfl
  · rintro rfl
    exact ⟨r, op, h, rfl⟩

/-- A call that opens a directory with a joinable argument. -/
theorem Inv.updatePath {s : Cwd} {p : CString} {x : InodeDef} (h : Inv d s)
    (hj : Joinable d s.current_path (some p))
    (hopen : (openPath s.current_path.cstr (some p)).run d = (.ok (some (i, x)), d))
    (hx : x.type = .directory) :
    ∃ b', updatePath s.current_path p.1 = .ok b' ∧ Inv d ⟨b', some (i, x)⟩ := by
  obtain ⟨cs, hcs, hf, hl, hh, hop⟩ := h
  have hjoin := hj.joins p i x rfl hopen hx
  rw [hh.cstr_eq] at hopen hjoin
  have hlen : if p.1.head? = some slash then p.1.length ≤ 127
      else (curText cs).length + (if (curText cs).getLast? = some slash then 0 else 1) +
        p.1.length ≤ 127 := by
    split
    · rwa [if_pos ‹_›] at hjoin
    · rw [if_neg ‹_›] at hjoin
      exact hjoin.2.2
  obtain ⟨b', hb', hh'⟩ := run_updatePath hh (curText_ne_nil cs) p.2 hlen
  obtain ⟨cs', t, htext, hne, hcs', ht, hf', hl', hopen'⟩ := joinText_of_open hcs hf hl hh.zero hopen
    fun hhead => by
      rw [if_neg hhead] at hjoin
      exact ⟨hjoin.1, hjoin.2.1⟩
  rw [htext, strip_join hcs' ht hne] at hh'
  refine ⟨b', hb', cs', hcs', hf'.nil, hl', hh', fun j y hy => ?_⟩
  obtain ⟨rfl, rfl⟩ : i = j ∧ x = y := by simpa using hy
  exact ⟨hx, hopen'⟩

/-- A call with a joinable argument returns, and keeps the invariant. -/
theorem Inv.call {s : Cwd} {path_name : Option CString} (h : Inv d s)
    (hj : Joinable d s.current_path path_name) :
    ∃ s', Inv d s' ∧ ∀ u, Call d s u path_name ↔ u = s' := by
  obtain ⟨r, hopen⟩ := hj.returns
  obtain ⟨cs, -, -, -, hh, -⟩ := id h
  have hrun := run_sysChdir hh hopen
  rcases r with _ | ⟨i, x⟩
  · exact ⟨s, h, fun u => call_of_run hrun⟩
  rcases path_name with _ | p
  · exact ⟨s, h, fun u => call_of_run hrun⟩
  by_cases hx : x.type = .directory
  · obtain ⟨b', hb', hinv⟩ := h.updatePath hj hopen hx
    simp only [hx, ne_eq, not_true_eq_false, if_false, hb'] at hrun
    exact ⟨_, hinv, fun u => call_of_run hrun⟩
  · simp only [hx, ne_eq, not_false_eq_true, if_true] at hrun
    exact ⟨s, h, fun u => call_of_run hrun⟩

theorem holds_initial : Holds Cwd.initial.current_path [slash] := by
  refine ⟨by simp, by decide, fun k hk => ?_⟩
  have hk : k ≤ 1 := hk
  rw [Cwd.initial, Buffer.byte_ofFn (by omega)]
  obtain rfl | rfl : k = 0 ∨ k = 1 := by omega
  · rfl
  · rfl

theorem inv_initial (d : Disk) : Inv d Cwd.initial :=
  ⟨[], by simp, trivial, by simp, holds_initial, by simp [Cwd.initial]⟩

/-- The states of a process whose calls all have joinable arguments. -/
def ChdirRun (d : Disk) : Cwd → Prop :=
  Reachable (· = Cwd.initial) fun s s' =>
    ∃ path_name, Joinable d s.current_path path_name ∧ Call d s s' path_name

theorem ChdirRun.inv {s : Cwd} (h : ChdirRun d s) : Inv d s :=
  h.invariant (by rintro _ rfl; exact inv_initial d) fun s t hs ⟨path_name, hj, hcall⟩ => by
    obtain ⟨s', hinv, hs'⟩ := hs.call hj
    obtain rfl := (hs' t).mp hcall
    exact hinv

/-- In every state of a process whose calls all have joinable arguments, the current path is
consistent, and the next such call returns. -/
theorem chdir_consistent {s : Cwd} (h : ChdirRun d s) :
    Consistent d s ∧
      ∀ path_name, Joinable d s.current_path path_name → ∃ s', Call d s s' path_name := by
  refine ⟨h.inv.consistent, fun path_name hj => ?_⟩
  obtain ⟨s', -, hs'⟩ := h.inv.call hj
  exact ⟨s', (hs' s').mpr rfl⟩

/-! ## A disk with one subdirectory -/

/-- The disk after `/a` is made on a disk with an empty root directory. -/
def subdirDisk : Disk :=
  ((create (fun _ => .ofFn fun _ => 0) [slash] (some ⟨[47, 97], by decide⟩) .directory 0 0).run
    (rootDisk 100)).2

theorem subdirDisk_spec : Walkable subdirDisk ∧ (inodeAt subdirDisk 0).type = .directory ∧
    ∃ j, resolve subdirDisk [[97]] 0 = some j ∧ (inodeAt subdirDisk j).type = .directory := by
  obtain ⟨htree, -⟩ := fsTree_rootDisk (n := 100) (by omega)
  have hroot := inodeAt_rootDisk 100
  have hneed : appendNeed (inodeAt (rootDisk 100) 0) = 1 := by rw [hroot]; rfl
  have hp : parsePath [slash] (some ⟨[47, 97], by decide⟩) .zero = .ok (1, putRows .zero 0 [[97]]) :=
    parsePath_abs [[97]] [] (by simp [IsComponent, slash]) (.inl rfl) (by simp [Fitting]) (by simp)
      (by simp [joinPath]) (by decide)
  have hrows : (putRows .zero 0 [[97]]).rows 1 = [[97]] := rows_putRows (by simp [IsName])
  obtain ⟨r, d', hrun, hw, hg, -, -, hnew⟩ := run_createFrom_room (fun _ => .ofFn fun _ => 0)
    .directory 0 0 0 {} htree htree.tree.root (by rw [hroot]; rfl)
    (show ∀ c ∈ [[97]], IsName c by simp [IsName])
    (by rw [RoomFor, hneed, freeCount_rootDisk (by omega), freeInodes_rootDisk]; simp)
  have hd : subdirDisk = d' := by
    rw [subdirDisk, run_create hp (by omega), show (1 : ℤ).toNat = 1 from rfl, hrows, hrun]
  obtain ⟨j, -, -, -, hj, hres⟩ := hnew (by rw [freeInodes_rootDisk]; simp)
  rw [hd]
  refine ⟨hw, ?_, j, hres, by rw [hj]; rfl⟩
  rw [hg.type, hroot]

/-- `/a` opens a directory there. -/
theorem run_openPath_subdir : ∃ x, x.type = .directory ∧ ∃ j,
    (openPath [slash] (some ⟨[47, 97], by decide⟩)).run subdirDisk =
      (.ok (some (j, x)), subdirDisk) := by
  obtain ⟨hw, -, j, hj, ht⟩ := subdirDisk_spec
  refine ⟨_, ht, j, ?_⟩
  rw [(openPath_abs [slash] (show [47, 97] = joinPath [[97]] ++ [] from rfl) (by simp [joinPath])
    (by simp [IsComponent, slash]) (.inl rfl) (by simp [Fitting]) (by simp)).2, ROOT_INODE,
    hw.run_openImpl (by omega), hj]
  rfl

/-- The first call of a process, to `/a`. -/
theorem call_subdir : ∃ s i x, Call subdirDisk Cwd.initial s (some ⟨[47, 97], by decide⟩) ∧
    Joinable subdirDisk Cwd.initial.current_path (some ⟨[47, 97], by decide⟩) ∧
    Holds s.current_path [47, 97] ∧ s.opened = some (i, x) := by
  obtain ⟨x, hx, i, hopen⟩ := run_openPath_subdir
  rw [← holds_initial.cstr_eq] at hopen
  obtain ⟨b, hb, hh⟩ := run_updatePath holds_initial (u := [47, 97]) (by simp) (by decide) (by decide)
  have hrun := run_sysChdir holds_initial hopen
  simp only [hx, ne_eq, not_true_eq_false, if_false, hb] at hrun
  refine ⟨⟨b, some (i, x)⟩, i, x, (call_of_run hrun).mpr rfl, ⟨⟨_, hopen⟩, ?_⟩, hh, rfl⟩
  rintro p - - ⟨⟩ - -
  rw [if_pos (by decide)]
  decide

/-- After a call to `/a` the current path is consistent. -/
theorem chdir_consistent_subdir : ∃ s, ChdirRun subdirDisk s ∧ s.opened.isSome ∧
    Consistent subdirDisk s := by
  obtain ⟨s, i, x, hcall, hj, -, hop⟩ := call_subdir
  have hs : ChdirRun subdirDisk s := .step (.start rfl) ⟨_, hj, hcall⟩
  exact ⟨s, hs, by rw [hop]; rfl, (chdir_consistent hs).1⟩

theorem of_map_fst {r : Except Fault (ℤ × PathTable)} {l : ℤ} (h : r.map Prod.fst = .ok l) :
    ∃ tbl, r = .ok (l, tbl) := by
  rcases r with _ | ⟨l', tbl⟩
  · simp [Except.map] at h
  · obtain rfl : l' = l := by simpa [Except.map] using h
    exact ⟨tbl, rfl⟩

/-- The argument `x//y` in the directory `/a`: the -1 of its own parse and the one component
of the current path add up to a path without components, so the call opens the root, and
leaves a current path that `ParsePath` rejects. -/
theorem chdir_inconsistent : ∃ s s', Call subdirDisk Cwd.initial s (some ⟨[47, 97], by decide⟩) ∧
    Call subdirDisk s s' (some ⟨[120, 47, 47, 121], by decide⟩) ∧ ¬ Consistent subdirDisk s' := by
  obtain ⟨s, i, x, hcall, -, hs, -⟩ := call_subdir
  obtain ⟨hw, hroot, -⟩ := subdirDisk_spec
  obtain ⟨tbl, hparse⟩ : ∃ tbl, parsePath [47, 97] (some ⟨[120, 47, 47, 121], by decide⟩) .zero =
      .ok (0, tbl) := of_map_fst (by decide)
  have hopen : (openPath s.current_path.cstr (some ⟨[120, 47, 47, 121], by decide⟩)).run
      subdirDisk = (.ok (some (0, inodeAt subdirDisk 0)), subdirDisk) := by
    rw [hs.cstr_eq, run_openPath hw hparse le_rfl]
    rfl
  obtain ⟨b, hb, hh⟩ := run_updatePath hs (u := [120, 47, 47, 121]) (by simp) (by decide)
    (by decide)
  have hrun := run_sysChdir hs hopen
  simp only [hroot, ne_eq, not_true_eq_false, if_false, hb] at hrun
  refine ⟨s, ⟨b, _⟩, hcall, (call_of_run hrun).mpr rfl, fun hcon => ?_⟩
  obtain ⟨level, tbl, hparse, hlev⟩ := hcon.accepted
  have htext : b.cstr = [47, 97, 47, 120, 47, 47, 121] := hh.cstr_eq
  obtain ⟨tbl', hneg⟩ : ∃ tbl, parsePath [47, 97, 47, 120, 47, 47, 121]
      (some ⟨[47, 97, 47, 120, 47, 47, 121], by decide⟩) .zero = .ok (-1, tbl) :=
    of_map_fst (by decide)
  have hcur : currentPath b = ⟨[47, 97, 47, 120, 47, 47, 121], by decide⟩ := Subtype.ext htext
  rw [htext, hcur, hneg] at hparse
  simp only [Except.ok.injEq, Prod.mk.injEq] at hparse
  omega

end OrangeOs.Kernel
