import OrangeOs.Filesystem.Create

/-! # Paths

`ParsePathImpl` splits a path at its slashes. The strings it accepts are the components, each after a
slash, with at most one slash at the end; a relative path has its first component in front. The
length check counts the slash after a component.
-/

namespace OrangeOs.Fs

/-- The components, each after a slash. -/
def joinPath : List (List UInt8) → List UInt8
  | [] => []
  | c :: cs => slash :: c ++ joinPath cs

/-- The starts of the components in the string of a path with the tail `t`. -/
def suffixes (t : List UInt8) : List (List UInt8) → List (List UInt8)
  | [] => []
  | c :: cs => (c ++ joinPath cs ++ t) :: suffixes t cs

/-- What may stand between two slashes. -/
def IsComponent (c : List UInt8) : Prop := c ≠ [] ∧ slash ∉ c

/-- What may stand after the last component. -/
def IsTail (t : List UInt8) : Prop := t = [] ∨ t = [slash]

/-- The components pass the length check of `ParsePathImpl`. -/
def Fitting (t : List UInt8) : List (List UInt8) → Prop
  | [] => True
  | [c] => c.length + t.length ≤ 13
  | c :: c' :: cs => c.length ≤ 12 ∧ Fitting t (c' :: cs)

/-- Copy the components to consecutive rows. -/
def putRows (out_paths : PathTable) (row : ℕ) : List (List UInt8) → PathTable
  | [] => out_paths
  | c :: cs => putRows (Function.update out_paths row
      ((out_paths row).patch 0 c.length (charAt c))) (row + 1) cs

variable {p w t c : List UInt8} {cs cs' starts : List (List UInt8)} {l : ℕ} {row : ℤ}
  {out_paths tbl : PathTable}

/-! ## Splitting -/

theorem splitPath_cons_of_ne {a : UInt8} (ha : a ≠ slash) : splitPath l (a :: p) = splitPath l p := by
  cases p <;> simp [splitPath, ha]

theorem splitPath_slash_cons {b : UInt8} (hb : b ≠ slash) : splitPath l (slash :: b :: p) =
    if l < 16 then
      match splitPath (l + 1) (b :: p) with
      | .ok (some paths) => .ok (some ((b :: p) :: paths))
      | r => r
    else .error .outOfBounds := by
  rw [splitPath.eq_def]
  exact (if_neg (not_not_intro rfl)).trans (if_neg hb)

theorem splitPath_of_not_mem (hw : slash ∉ w) : splitPath l (w ++ p) = splitPath l p := by
  induction w with
  | nil => rfl
  | cons c w ih =>
    have hc : c ≠ slash := fun he => hw (by simp [he])
    rw [List.cons_append, splitPath_cons_of_ne hc, ih fun hm => hw (List.mem_cons_of_mem _ hm)]

theorem splitPath_tail (ht : IsTail t) : splitPath l t = .ok (some []) := by
  rcases ht with rfl | rfl <;> simp [splitPath]

/-- The loop finds the components, unless there are too many for its array. -/
theorem splitPath_join (hw : slash ∉ w) (hcs : ∀ c ∈ cs, IsComponent c) (ht : IsTail t)
    (hl : l + cs.length ≤ 16) :
    splitPath l (w ++ joinPath cs ++ t) = .ok (some (suffixes t cs)) := by
  rw [List.append_assoc, splitPath_of_not_mem hw]
  induction cs generalizing l with
  | nil => exact splitPath_tail ht
  | cons c cs ih =>
    obtain ⟨hne, hns⟩ := hcs c (by simp)
    obtain ⟨a, c, rfl⟩ := List.exists_cons_of_ne_nil hne
    have ha : a ≠ slash := fun he => hns (by simp [he])
    rw [List.length_cons] at hl
    have hrest := ih (l := l + 1) (fun b hb => hcs b (List.mem_cons_of_mem _ hb)) (by omega)
    have hstep : splitPath (l + 1) (a :: (c ++ (joinPath cs ++ t))) = .ok (some (suffixes t cs)) := by
      rw [← List.cons_append, splitPath_of_not_mem hns, hrest]
    simp only [joinPath, List.cons_append, List.append_assoc, suffixes]
    rw [splitPath_slash_cons ha, if_pos (by omega), hstep]

theorem joinPath_append (cs cs' : List (List UInt8)) :
    joinPath (cs ++ cs') = joinPath cs ++ joinPath cs' := by
  induction cs with
  | nil => rfl
  | cons c cs ih => simp [joinPath, ih]

/-- Only a slash can stand where a component is due. -/
theorem head_joinPath {a : UInt8} (ht : IsTail t) (h : joinPath cs ++ t = a :: p) : a = slash := by
  cases cs with
  | nil => rcases ht with rfl | rfl <;> simp [joinPath] at h; exact h.1.symm
  | cons c cs => simp only [joinPath, List.cons_append, List.cons.injEq] at h; exact h.1.symm

/-- Every string that the loop accepts has this form. -/
theorem of_splitPath (h : splitPath l p = .ok (some starts)) :
    ∃ w cs t, p = w ++ joinPath cs ++ t ∧ slash ∉ w ∧ (∀ c ∈ cs, IsComponent c) ∧ IsTail t ∧
      starts = suffixes t cs ∧ (cs ≠ [] → l + cs.length ≤ 16) := by
  induction p generalizing l starts with
  | nil =>
    simp only [splitPath, Except.ok.injEq, Option.some.injEq] at h
    exact ⟨[], [], [], rfl, by simp, by simp, .inl rfl, h.symm, by simp⟩
  | cons a p ih =>
    by_cases ha : a = slash
    · subst ha
      cases p with
      | nil =>
        simp only [splitPath, ne_eq, not_true_eq_false, if_false, Except.ok.injEq,
          Option.some.injEq] at h
        exact ⟨[], [], [slash], rfl, by simp, by simp, .inr rfl, h.symm, by simp⟩
      | cons b p =>
        by_cases hb : b = slash
        · simp [splitPath, hb] at h
        rw [splitPath_slash_cons hb] at h
        by_cases hl : l < 16
        · rw [if_pos hl] at h
          rcases hs : splitPath (l + 1) (b :: p) with f | _ | rest
          · simp [hs] at h
          · simp [hs] at h
          · simp only [hs, Except.ok.injEq, Option.some.injEq] at h
            obtain ⟨w, cs, t, hp, hw, hcs, ht, rfl, hlen⟩ := ih hs
            have hwne : w ≠ [] := by
              rintro rfl
              exact hb (head_joinPath ht hp.symm)
            refine ⟨[], w :: cs, t, by simp [joinPath, hp], by simp, ?_, ht, ?_, fun _ => ?_⟩
            · rintro c hc
              rcases List.mem_cons.mp hc with rfl | hc
              · exact ⟨hwne, hw⟩
              · exact hcs c hc
            · rw [← h, suffixes, ← hp]
            · rw [List.length_cons]
              by_cases hnil : cs = []
              · subst hnil
                simp only [List.length_nil]
                omega
              · have := hlen hnil
                omega
        · simp [hl] at h
    · rw [splitPath_cons_of_ne ha] at h
      obtain ⟨w, cs, t, rfl, hw, hcs, ht, hst, hl⟩ := ih h
      refine ⟨a :: w, cs, t, by simp, ?_, hcs, ht, hst, hl⟩
      simp [Ne.symm ha, hw]

/-! ## Copying -/

/-- The number of bytes after a component that count for its length: the slash before the next
one, or the tail. -/
def afterLength (t : List UInt8) (cs : List (List UInt8)) : ℕ := if cs = [] then t.length else 1

theorem fitting_cons : Fitting t (c :: cs) ↔ c.length + afterLength t cs ≤ 13 ∧ Fitting t cs := by
  cases cs with
  | nil => simp [Fitting, afterLength]
  | cons c' cs =>
    simp only [Fitting, afterLength, reduceCtorEq, if_false]
    exact and_congr_left fun _ => by omega

theorem Fitting.length_le (h : Fitting t cs) : ∀ c ∈ cs, c.length ≤ 13 := by
  induction cs with
  | nil => simp
  | cons c cs ih =>
    obtain ⟨hc, hcs⟩ := fitting_cons.mp h
    intro b hb
    rcases List.mem_cons.mp hb with rfl | hb
    · omega
    · exact ih hcs b hb

theorem Fitting.nil (h : Fitting t cs) : Fitting [] cs := by
  induction cs with
  | nil => trivial
  | cons c cs ih =>
    obtain ⟨hc, hcs⟩ := fitting_cons.mp h
    refine fitting_cons.mpr ⟨?_, ih hcs⟩
    unfold afterLength at *
    split at hc <;> simp_all
    omega

/-- Components with room for a slash can stand in front. -/
theorem Fitting.append (h : Fitting t cs') (hcs : ∀ c ∈ cs, c.length ≤ 12) (hne : cs' ≠ []) :
    Fitting t (cs ++ cs') := by
  induction cs with
  | nil => exact h
  | cons c cs ih =>
    rw [List.cons_append]
    refine fitting_cons.mpr ⟨?_, ih fun b hb => hcs b (List.mem_cons_of_mem _ hb)⟩
    have := hcs c (by simp)
    rw [afterLength, if_neg (by simp [hne])]
    omega

theorem Fitting.of_concat (h : Fitting t (cs ++ [c])) : ∀ b ∈ cs, b.length ≤ 12 := by
  induction cs with
  | nil => simp
  | cons a cs ih =>
    rw [List.cons_append] at h
    obtain ⟨ha, hcs⟩ := fitting_cons.mp h
    rw [afterLength, if_neg (by simp)] at ha
    intro b hb
    rcases List.mem_cons.mp hb with rfl | hb
    · omega
    · exact ih hcs b hb

theorem patch_append (b : Buffer 14) (c p : List UInt8) :
    b.patch 0 c.length (charAt (c ++ p)) = b.patch 0 c.length (charAt c) := by
  apply Buffer.ext_byte
  intro o ho
  by_cases hlt : o < c.length
  · rw [Buffer.byte_patch_of_mem ho (by omega) (by omega),
      Buffer.byte_patch_of_mem ho (by omega) (by omega), charAt_append_left (by omega)]
  · rw [Buffer.byte_patch_of_not_mem (by omega), Buffer.byte_patch_of_not_mem (by omega)]

/-- One round of the second loop. -/
theorem copyPath_cons (hc : IsComponent c) (ht : IsTail t) :
    copyPath row out_paths (suffixes t (c :: cs)) =
      if c.length + afterLength t cs ≥ 14 then .ok (false, out_paths)
      else if 0 ≤ row ∧ row < 16 then
        copyPath (row + 1) (Function.update out_paths row.toNat
          ((out_paths row.toNat).patch 0 c.length (charAt c))) (suffixes t cs)
      else .error .outOfBounds := by
  have hpos : 0 < c.length := List.length_pos_iff.mpr hc.1
  have hlast : charAt c (c.length - 1) ≠ slash := by
    rw [charAt_eq_getElem (by omega)]
    exact fun he => hc.2 (he ▸ List.getElem_mem _)
  have hlen : componentLen (c ++ joinPath cs ++ t) (suffixes t cs) =
      c.length + afterLength t cs := by
    cases cs with
    | nil => simp [componentLen, suffixes, joinPath, afterLength]
    | cons c' cs =>
      have ha : afterLength t (c' :: cs) = 1 := if_neg (by simp)
      change (c ++ joinPath (c' :: cs) ++ t).length - (c' ++ joinPath cs ++ t).length = _
      rw [ha, joinPath]
      simp only [List.length_append, List.length_cons]
      omega
  have hstrip : (if charAt (c ++ joinPath cs ++ t) (c.length + afterLength t cs - 1) = slash
      then c.length + afterLength t cs - 1 else c.length + afterLength t cs) = c.length := by
    cases cs with
    | nil =>
      rcases ht with rfl | rfl
      · simp [afterLength, joinPath, hlast]
      · have hchar : charAt (c ++ [slash]) c.length = slash := by
          rw [charAt_append_right le_rfl, Nat.sub_self]; rfl
        simp [afterLength, joinPath, hchar]
    | cons c' cs =>
      have hchar : charAt (c ++ (joinPath (c' :: cs) ++ t)) c.length = slash := by
        rw [charAt_append_right le_rfl, Nat.sub_self]; rfl
      simp [afterLength, hchar]
  rw [suffixes, copyPath]
  simp only [hlen, MAX_FILE_NAME_LEN, hstrip]
  rw [List.append_assoc, patch_append]

theorem copyPath_fitting {r : ℕ} (hcs : ∀ c ∈ cs, IsComponent c) (ht : IsTail t)
    (hf : Fitting t cs) (hr : r + cs.length ≤ 16) :
    copyPath r out_paths (suffixes t cs) = .ok (true, putRows out_paths r cs) := by
  induction cs generalizing r out_paths with
  | nil => rfl
  | cons c cs ih =>
    obtain ⟨hlen, hf⟩ := fitting_cons.mp hf
    rw [List.length_cons] at hr
    rw [copyPath_cons (hcs c (by simp)) ht, if_neg (by omega), if_pos (by omega), putRows]
    exact ih (r := r + 1) (fun b hb => hcs b (List.mem_cons_of_mem _ hb)) hf (by omega)

/-- Too many components run past the rows. -/
theorem copyPath_overflow {r : ℕ} (hcs : ∀ c ∈ cs, IsComponent c) (ht : IsTail t)
    (hf : Fitting t cs) (hr : r ≤ 16) (hover : 16 < r + cs.length) :
    copyPath r out_paths (suffixes t cs) = .error .outOfBounds := by
  induction cs generalizing r out_paths with
  | nil => simp only [List.length_nil] at hover; omega
  | cons c cs ih =>
    obtain ⟨hlen, hf⟩ := fitting_cons.mp hf
    rw [List.length_cons] at hover
    rw [copyPath_cons (hcs c (by simp)) ht, if_neg (by omega)]
    by_cases hlt : r < 16
    · rw [if_pos (by omega)]
      exact ih (r := r + 1) (fun b hb => hcs b (List.mem_cons_of_mem _ hb)) hf hlt (by omega)
    · rw [if_neg (by omega)]

theorem of_copyPath (hcs : ∀ c ∈ cs, IsComponent c) (ht : IsTail t)
    (h : copyPath row out_paths (suffixes t cs) = .ok (true, tbl)) :
    Fitting t cs ∧ (cs ≠ [] → 0 ≤ row ∧ row + cs.length ≤ 16) ∧
      tbl = putRows out_paths row.toNat cs := by
  induction cs generalizing row out_paths with
  | nil =>
    simp only [suffixes, copyPath, Except.ok.injEq, Prod.mk.injEq, true_and] at h
    exact ⟨trivial, by simp, h.symm⟩
  | cons c cs ih =>
    rw [copyPath_cons (hcs c (by simp)) ht] at h
    by_cases hlen : c.length + afterLength t cs ≥ 14
    · simp [hlen] at h
    by_cases hrow : 0 ≤ row ∧ row < 16
    · rw [if_neg hlen, if_pos hrow] at h
      obtain ⟨hf, hb, rfl⟩ := ih (fun b hb => hcs b (List.mem_cons_of_mem _ hb)) h
      refine ⟨fitting_cons.mpr ⟨by omega, hf⟩, fun _ => ⟨hrow.1, ?_⟩, ?_⟩
      · by_cases hnil : cs = []
        · simp only [hnil, List.length_cons, List.length_nil]
          omega
        · have := (hb hnil).2
          rw [List.length_cons]
          omega
      · rw [putRows, show (row + 1).toNat = row.toNat + 1 by omega]
    · simp [hlen, hrow] at h

/-! ## Rows -/

theorem putRows_append (r : ℕ) : putRows out_paths r (cs ++ cs') =
    putRows (putRows out_paths r cs) (r + cs.length) cs' := by
  induction cs generalizing r out_paths with
  | nil => rfl
  | cons c cs ih =>
    rw [List.cons_append, putRows, ih, putRows, List.length_cons]
    congr 1
    omega

theorem putRows_of_lt {r k : ℕ} (hk : k < r) : putRows out_paths r cs k = out_paths k := by
  induction cs generalizing r out_paths with
  | nil => rfl
  | cons c cs ih => rw [putRows, ih (by omega), Function.update_of_ne (by omega)]

/-- A name is read back from its row. -/
theorem cstr_patch_zero (h0 : 0 ∉ c) (hlen : c.length ≤ 13) :
    ((PathTable.zero l).patch 0 c.length (charAt c)).cstr = c := by
  have hbyte : ∀ o < 14, ((PathTable.zero l).patch 0 c.length (charAt c)).byte o = charAt c o := by
    intro o ho
    by_cases hlt : o < c.length
    · rw [Buffer.byte_patch_of_mem ho (by omega) (by omega), Nat.sub_zero]
    · rw [Buffer.byte_patch_of_not_mem (by omega), charAt_of_le (by omega), PathTable.zero,
        Buffer.byte_ofFn ho]
  rw [Buffer.cstr, List.map_congr_left fun o ho => hbyte o (List.mem_range.mp ho)]
  exact takeWhile_charAt h0 (by omega)

theorem putRows_of_ge {r k : ℕ} (hk : r + cs.length ≤ k) :
    putRows out_paths r cs k = out_paths k := by
  induction cs generalizing r out_paths with
  | nil => rfl
  | cons c cs ih =>
    rw [List.length_cons] at hk
    rw [putRows, ih (by omega), Function.update_of_ne (by omega)]

/-- The rows of a table that the parser has filled. -/
theorem rows_putRows (hcs : ∀ c ∈ cs, IsName c) : (putRows .zero 0 cs).rows cs.length = cs := by
  induction cs using List.reverseRecOn with
  | nil => rfl
  | append_singleton cs c ih =>
    have hc := hcs c (by simp)
    have hold : (putRows .zero 0 (cs ++ [c])).rows cs.length = cs := by
      conv_rhs => rw [← ih fun b hb => hcs b (by simp [hb])]
      apply List.map_congr_left
      intro k hk
      rw [List.mem_range] at hk
      rw [putRows_append, putRows_of_lt (by omega)]
    have hnew : (putRows .zero 0 (cs ++ [c]) cs.length).cstr = c := by
      rw [putRows_append, Nat.zero_add, putRows, putRows, Function.update_self,
        putRows_of_ge (by omega), cstr_patch_zero hc.1 hc.2]
    rw [PathTable.rows] at hold
    rw [PathTable.rows, List.length_append, List.length_singleton, List.range_succ, List.map_append,
      hold, List.map_singleton, hnew]

/-! ## Parsing -/

theorem length_suffixes (t : List UInt8) (cs : List (List UInt8)) :
    (suffixes t cs).length = cs.length := by
  induction cs with
  | nil => rfl
  | cons c cs ih => simp [suffixes, ih]

theorem parsePathImpl_abs (hcs : ∀ c ∈ cs, IsComponent c) (ht : IsTail t) (hf : Fitting t cs)
    (hl : cs.length ≤ 16) :
    parsePathImpl (joinPath cs ++ t) 0 out_paths false =
      .ok (cs.length, putRows out_paths 0 cs) := by
  have hsplit := splitPath_join (l := 0) (w := []) (by simp) hcs ht (by omega)
  have hcopy : copyPath 0 out_paths (suffixes t cs) = .ok (true, putRows out_paths 0 cs) :=
    copyPath_fitting (r := 0) hcs ht hf (by omega)
  rw [List.nil_append] at hsplit
  simp only [parsePathImpl, Bool.false_eq_true, if_false, hsplit, hcopy, bind, Except.bind, pure,
    Except.pure, length_suffixes]

/-- `ParsePath` accepts an absolute path with fitting components. -/
theorem parsePath_abs {cwd : List UInt8} (cs : List (List UInt8)) (t : List UInt8)
    (hcs : ∀ c ∈ cs, IsComponent c) (ht : IsTail t)
    (hf : Fitting t cs) (hl : cs.length ≤ 16) (hne : joinPath cs ++ t ≠ [])
    (h0 : 0 ∉ joinPath cs ++ t) :
    parsePath cwd (some ⟨joinPath cs ++ t, h0⟩) out_paths =
      .ok (cs.length, putRows out_paths 0 cs) := by
  obtain ⟨a, p, hp⟩ := List.exists_cons_of_ne_nil hne
  obtain rfl := head_joinPath ht hp
  simp only [parsePath, hp, ne_eq, not_true_eq_false, if_false]
  rw [← hp, parsePathImpl_abs hcs ht hf hl]

theorem parsePathImpl_rel {r : ℕ} (hcs : ∀ b ∈ c :: cs, IsComponent b) (ht : IsTail t)
    (hf : Fitting t (c :: cs)) (hl : r + (c :: cs).length ≤ 16) :
    parsePathImpl (c ++ joinPath cs ++ t) r out_paths true =
      .ok ((c :: cs).length, putRows out_paths r (c :: cs)) := by
  have hlen : (c :: cs).length = cs.length + 1 := rfl
  have hsplit := splitPath_join (l := 1) (w := c) (hcs c (by simp)).2
    (fun b hb => hcs b (List.mem_cons_of_mem _ hb)) ht (by omega)
  have hcopy : copyPath r out_paths (suffixes t (c :: cs)) =
      .ok (true, putRows out_paths r (c :: cs)) := copyPath_fitting hcs ht hf hl
  rw [suffixes] at hcopy
  simp only [parsePathImpl, if_true, hsplit, hcopy, bind, Except.bind, pure, Except.pure,
    List.length_cons, length_suffixes]

theorem parsePathImpl_rel_overflow {r : ℕ} (hcs : ∀ b ∈ c :: cs, IsComponent b) (ht : IsTail t)
    (hf : Fitting t (c :: cs)) (hl : (c :: cs).length ≤ 16) (hr : r ≤ 16)
    (hover : 16 < r + (c :: cs).length) :
    parsePathImpl (c ++ joinPath cs ++ t) r out_paths true = .error .outOfBounds := by
  have hlen : (c :: cs).length = cs.length + 1 := rfl
  have hsplit := splitPath_join (l := 1) (w := c) (hcs c (by simp)).2
    (fun b hb => hcs b (List.mem_cons_of_mem _ hb)) ht (by omega)
  have hcopy : copyPath r out_paths (suffixes t (c :: cs)) = .error .outOfBounds :=
    copyPath_overflow hcs ht hf hr hover
  rw [suffixes] at hcopy
  simp only [parsePathImpl, if_true, hsplit, hcopy, bind, Except.bind]

/-- An accepted path passed both loops. -/
theorem of_parsePathImpl {rel : Bool} {level : ℤ}
    (h : parsePathImpl p row out_paths rel = .ok (level, tbl)) (hl : 0 ≤ level) :
    ∃ starts, splitPath (if rel then 1 else 0) p = .ok (some starts) ∧
      copyPath row out_paths (if rel then p :: starts else starts) = .ok (true, tbl) ∧
      level = (if rel then p :: starts else starts).length := by
  unfold parsePathImpl at h
  rcases hs : splitPath (if rel then 1 else 0) p with f | _ | starts
  · simp [hs, bind, Except.bind] at h
  · simp only [hs, bind, Except.bind, pure, Except.pure, Except.ok.injEq, Prod.mk.injEq] at h
    omega
  · simp only [hs, bind, Except.bind, pure, Except.pure] at h
    rcases hc : copyPath row out_paths (if rel then p :: starts else starts) with f | ⟨_ | _, tbl'⟩
    · simp [hc] at h
    · simp only [hc, Except.ok.injEq, Prod.mk.injEq] at h
      omega
    · simp only [hc, Except.ok.injEq, Prod.mk.injEq] at h
      exact ⟨starts, rfl, by rw [hc, h.2], h.1.symm⟩

theorem of_parsePathImpl_abs {level : ℤ} (hp : p.head? = some slash)
    (h : parsePathImpl p row out_paths false = .ok (level, tbl)) (hl : 0 ≤ level) :
    ∃ cs t, p = joinPath cs ++ t ∧ (∀ c ∈ cs, IsComponent c) ∧ IsTail t ∧ Fitting t cs ∧
      cs.length ≤ 16 ∧ level = cs.length ∧ tbl = putRows out_paths row.toNat cs := by
  obtain ⟨starts, hs, hc, hlev⟩ := of_parsePathImpl h hl
  obtain ⟨w, cs, t, hpe, hw, hcs, ht, rfl, hlen⟩ := of_splitPath hs
  obtain rfl : w = [] := by
    cases w with
    | nil => rfl
    | cons a w => simp [hpe] at hp; simp [hp] at hw
  obtain ⟨hf, -, rfl⟩ := of_copyPath hcs ht hc
  refine ⟨cs, t, by simpa using hpe, hcs, ht, hf, ?_, by simpa [length_suffixes] using hlev, rfl⟩
  by_cases hnil : cs = []
  · simp [hnil]
  · simpa using hlen hnil

theorem of_parsePathImpl_rel {level : ℤ} (hp : p ≠ []) (hp' : p.head? ≠ some slash)
    (h : parsePathImpl p row out_paths true = .ok (level, tbl)) (hl : 0 ≤ level) :
    ∃ c cs t, p = c ++ joinPath cs ++ t ∧ (∀ b ∈ c :: cs, IsComponent b) ∧ IsTail t ∧
      Fitting t (c :: cs) ∧ 0 ≤ row ∧ row + (c :: cs).length ≤ 16 ∧
      level = (c :: cs).length ∧ tbl = putRows out_paths row.toNat (c :: cs) := by
  obtain ⟨starts, hs, hc, hlev⟩ := of_parsePathImpl h hl
  obtain ⟨w, cs, t, rfl, hw, hcs, ht, rfl, hlen⟩ := of_splitPath hs
  have hwne : w ≠ [] := by
    rintro rfl
    obtain ⟨a, q, hq⟩ := List.exists_cons_of_ne_nil hp
    have hq' : joinPath cs ++ t = a :: q := by simpa using hq
    rw [head_joinPath ht hq'] at hq
    exact hp' (by rw [hq]; rfl)
  have hall : ∀ b ∈ w :: cs, IsComponent b := by
    intro b hb
    rcases List.mem_cons.mp hb with rfl | hb
    · exact ⟨hwne, hw⟩
    · exact hcs b hb
  obtain ⟨hf, hrow, rfl⟩ := of_copyPath hall ht hc
  obtain ⟨hrow₀, hrow⟩ := hrow (by simp)
  exact ⟨w, cs, t, rfl, hall, ht, hf, hrow₀, hrow,
    by simpa [length_suffixes] using hlev, rfl⟩

/-! ## The rows are names -/

theorem copyPath_last {b : Bool} (h : ∀ r, (out_paths r).byte 13 = 0)
    (hc : copyPath row out_paths starts = .ok (b, tbl)) : ∀ r, (tbl r).byte 13 = 0 := by
  induction starts generalizing row out_paths with
  | nil =>
    simp only [copyPath, Except.ok.injEq, Prod.mk.injEq] at hc
    exact hc.2 ▸ h
  | cons p starts ih =>
    rw [copyPath] at hc
    by_cases hlen : componentLen p starts ≥ 14
    · simp only [MAX_FILE_NAME_LEN, hlen, if_true, Except.ok.injEq, Prod.mk.injEq] at hc
      exact hc.2 ▸ h
    · simp only [MAX_FILE_NAME_LEN, hlen, if_false] at hc
      by_cases hrow : 0 ≤ row ∧ row < 16
      · rw [if_pos hrow] at hc
        refine ih (fun r => ?_) hc
        by_cases hr : r = row.toNat
        · rw [hr, Function.update_self, Buffer.byte_patch_of_not_mem, h]
          right
          split <;> omega
        · rw [Function.update_of_ne hr, h]
      · simp [hrow] at hc

theorem parsePathImpl_last {rel : Bool} {level : ℤ} (h : ∀ r, (out_paths r).byte 13 = 0)
    (hp : parsePathImpl p row out_paths rel = .ok (level, tbl)) : ∀ r, (tbl r).byte 13 = 0 := by
  unfold parsePathImpl at hp
  rcases hs : splitPath (if rel then 1 else 0) p with f | _ | starts
  · simp [hs, bind, Except.bind] at hp
  · simp only [hs, bind, Except.bind, pure, Except.pure, Except.ok.injEq, Prod.mk.injEq] at hp
    exact hp.2 ▸ h
  · simp only [hs, bind, Except.bind, pure, Except.pure] at hp
    rcases hc : copyPath row out_paths (if rel then p :: starts else starts) with f | ⟨_ | _, tbl'⟩
    · simp [hc] at hp
    all_goals
      simp only [hc, Except.ok.injEq, Prod.mk.injEq] at hp
      exact hp.2 ▸ copyPath_last h hc

theorem parsePath_last {cwd : List UInt8} {path : Option CString} {level : ℤ}
    (hp : parsePath cwd path .zero = .ok (level, tbl)) : ∀ r, (tbl r).byte 13 = 0 := by
  have h0 : ∀ r, (PathTable.zero r).byte 13 = 0 := fun r => by
    rw [PathTable.zero, Buffer.byte_ofFn (by omega)]
  rcases path with _ | ⟨_ | ⟨c, path⟩, hpath⟩
  · simp only [parsePath, pure, Except.pure, Except.ok.injEq, Prod.mk.injEq] at hp
    exact hp.2 ▸ h0
  · simp only [parsePath, pure, Except.pure, Except.ok.injEq, Prod.mk.injEq] at hp
    exact hp.2 ▸ h0
  · by_cases hc : c = slash
    · simp only [parsePath, hc, ne_eq, not_true_eq_false, if_false] at hp
      exact parsePathImpl_last h0 hp
    · simp only [parsePath, hc, ne_eq, not_false_eq_true, if_true, bind, Except.bind] at hp
      rcases h₁ : parsePathImpl cwd 0 .zero false with f | ⟨l₁, tbl₁⟩
      · simp [h₁] at hp
      · simp only [h₁] at hp
        rcases h₂ : parsePathImpl (c :: path) l₁ tbl₁ true with f | ⟨l₂, tbl₂⟩
        · simp [h₂] at hp
        · simp only [h₂, pure, Except.pure, Except.ok.injEq, Prod.mk.injEq] at hp
          exact hp.2 ▸ parsePathImpl_last (parsePathImpl_last h0 h₁) h₂

theorem isName_cstr {b : Buffer 14} (h : b.byte 13 = 0) : IsName b.cstr := by
  refine ⟨fun hm => ?_, ?_⟩
  · have := List.mem_takeWhile_imp hm
    simp at this
  · have hsplit : (List.range 14).map b.byte = (List.range 13).map b.byte ++ [0] := by
      rw [List.range_succ, List.map_append, List.map_singleton, h]
    have hle := (List.takeWhile_prefix (· ≠ 0) (l := (List.range 13).map b.byte)).length_le
    rw [List.length_map, List.length_range] at hle
    rw [Buffer.cstr, hsplit, List.takeWhile_append]
    split
    · simp
    · exact hle

/-- Whatever `ParsePath` is given, its rows are names. -/
theorem isName_of_mem_rows {cwd : List UInt8} {path : Option CString} {level : ℤ} {n : ℕ}
    (hp : parsePath cwd path .zero = .ok (level, tbl)) : ∀ a ∈ tbl.rows n, IsName a := by
  intro a ha
  obtain ⟨r, -, rfl⟩ := List.mem_map.mp ha
  exact isName_cstr (parsePath_last hp r)

end OrangeOs.Fs
