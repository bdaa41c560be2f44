import OrangeOs.Filesystem.PathShape

/-! # What path parsing accepts

The strings that `ParsePathImpl` accepts, and where its length check depends on the position of a
component. `ParsePath` adds the results of two parses for a relative path, which is right when both
of them succeed.
-/

namespace OrangeOs.Fs

/-- The table with one component in each row, and zeros after it. -/
def componentTable (cs : List (List UInt8)) : PathTable := fun k => .ofFn (charAt (cs.getD k []))

/-- The strings that a parse without a leading slash, or with one, is for. -/
def Parsable (rel : Bool) (p : List UInt8) : Prop :=
  if rel then p ≠ [] ∧ p.head? ≠ some slash else p.head? = some slash

instance (rel : Bool) (p : List UInt8) : Decidable (Parsable rel p) := by
  unfold Parsable
  infer_instance

variable {p w u t : List UInt8} {cs : List (List UInt8)} {rel : Bool} {out_paths : PathTable}

/-! ## Rows -/

theorem putRows_apply (out_paths : PathTable) (cs : List (List UInt8)) (r k : ℕ) :
    putRows out_paths r cs k = if r ≤ k then
      (out_paths k).patch 0 (cs.getD (k - r) []).length
      (charAt (cs.getD (k - r) [])) else out_paths k := by
  have hzero : ∀ b : Buffer 14, b.patch 0 0 (charAt []) = b := fun b =>
    Buffer.ext_byte fun o _ => Buffer.byte_patch_of_not_mem (by omega)
  induction cs generalizing r out_paths with
  | nil =>
    rw [putRows, List.getD_nil, List.length_nil, hzero, ite_self]
  | cons c cs ih =>
    rw [putRows, ih]
    rcases lt_trichotomy k r with hk | rfl | hk
    · rw [if_neg (by omega), if_neg (by omega), Function.update_of_ne hk.ne]
    · rw [if_neg (by omega), if_pos le_rfl, Function.update_self, Nat.sub_self, List.getD_cons_zero]
    · rw [if_pos (by omega), if_pos hk.le, Function.update_of_ne hk.ne',
        show k - r = (k - (r + 1)) + 1 by omega, List.getD_cons_succ]

theorem putRows_zero (cs : List (List UInt8)) : putRows .zero 0 cs = componentTable cs := by
  funext k
  rw [putRows_apply, if_pos (Nat.zero_le k), Nat.sub_zero, componentTable]
  refine Buffer.ext_byte fun o ho => ?_
  rw [Buffer.byte_ofFn ho]
  by_cases hlt : o < (cs.getD k []).length
  · rw [Buffer.byte_patch_of_mem ho (Nat.zero_le o) (by omega), Nat.sub_zero]
  · rw [Buffer.byte_patch_of_not_mem (by omega), charAt_of_le (by omega),
      PathTable.zero, Buffer.byte_ofFn ho]

/-! ## Soundness -/

theorem Parsable.first_ne (h : Parsable rel p) (hs : Shape p w cs u) : rel = true → w ≠ [] := by
  rintro rfl rfl
  obtain ⟨hne, hhead⟩ := h
  refine hhead ?_
  rw [hs.eq, List.nil_append] at hne ⊢
  cases cs with
  | nil => rcases hs.rest with (rfl | rfl) | ⟨v, rfl⟩ <;> simp_all [joinPath]
  | cons c cs => rfl

theorem Parsable.first_eq (h : Parsable false p) (hs : Shape p w cs u) : w = [] := by
  have hhead : p.head? = some slash := h
  have hw := hs.first
  rw [hs.eq] at hhead
  cases w with
  | nil => rfl
  | cons a w =>
    obtain rfl : a = slash := by simpa using hhead
    exact absurd (List.mem_cons_self ..) hw

/-- A parsable string in terms of its components. -/
theorem Parsable.eq_intercalate (h : Parsable rel p) (hs : Shape p w cs t) (ht : IsTail t) :
    ∃ t', IsTail t' ∧ (names rel w cs = [] → t' = []) ∧
      p = (if rel then [] else [slash]) ++ [slash].intercalate (names rel w cs) ++ t' := by
  cases rel with
  | true =>
    refine ⟨t, ht, by simp [names], ?_⟩
    rw [hs.eq]
    simp [names, intercalate_cons]
  | false =>
    obtain rfl := h.first_eq hs
    cases cs with
    | nil =>
      refine ⟨[], .inl rfl, fun _ => rfl, ?_⟩
      have hhead : p.head? = some slash := h
      rw [hs.eq] at hhead ⊢
      rcases ht with rfl | rfl
      · simp [joinPath] at hhead
      · rfl
    | cons c cs =>
      refine ⟨t, ht, by simp [names], ?_⟩
      rw [hs.eq]
      simp [names, intercalate_cons, joinPath]

/-- A path of at most 16 components is rejected, or it consists of components with single slashes
between them and at most one at the end, and these components are what the table holds. -/
theorem parsePathImpl_sound (p : CString) (hp : Parsable rel p.1) (h16 : depth (parts p.1) ≤ 16) :
    ∃ n tbl, parsePathImpl p.1 0 .zero rel = .ok (n, tbl) ∧
      (0 ≤ n → ∃ cs t, p.1 = (if rel then [] else [slash]) ++ [slash].intercalate cs ++ t ∧
        (t = [] ∨ t = [slash] ∧ cs ≠ []) ∧ (∀ c ∈ cs, c ≠ [] ∧ slash ∉ c ∧ c.length ≤ 13) ∧
        n = cs.length ∧ tbl = componentTable cs ∧ tbl.rows cs.length = cs) ∧
      (DoubleSlash p.1 → n = -1) := by
  obtain ⟨w, cs, u, hs⟩ := exists_shape p.1
  have hw := hp.first_ne hs
  have hl := (hs.length_names_le hw).trans h16
  by_cases hd : [slash, slash] <+: u
  · exact ⟨-1, .zero, parsePathImpl_of_double hs hd hw hl, fun h => absurd h (by decide), fun _ => rfl⟩
  have ht := hs.rest.resolve_right hd
  have hk := fittingCount_le u (names rel w cs)
  refine ⟨_, _, parsePathImpl_of_tail (r := 0) hs ht hw (by omega) hl (by omega), fun hn => ?_,
    fun hdouble => absurd (hs.double_iff.mp hdouble) hd⟩
  have hfit : Fitting u (names rel w cs) := by
    by_contra hf
    rw [if_neg hf] at hn
    exact absurd hn (by decide)
  obtain ⟨t, htail, hnil, heq⟩ := hp.eq_intercalate hs ht
  have htake : (names rel w cs).take (fittingCount u (names rel w cs)) = names rel w cs := by
    rw [fittingCount_eq_length_iff.mpr hfit, List.take_length]
  have hname : ∀ c ∈ names rel w cs, IsName c := fun c hc =>
    ⟨fun hz => p.2 (hs.subset hc hz), hfit.length_le c hc⟩
  refine ⟨names rel w cs, t, heq, ?_, fun c hc => ?_, by rw [if_pos hfit], ?_, ?_⟩
  · refine htail.imp_right fun he => ⟨he, fun hnames => ?_⟩
    rw [hnil hnames] at he
    exact absurd he (by simp)
  · obtain ⟨hne, hns⟩ := hs.component hw c hc
    exact ⟨hne, hns, hfit.length_le c hc⟩
  · rw [htake, putRows_zero]
  · rw [htake, rows_putRows hname]

/-- The path `/a/b/` and the relative path `a/b`. -/
theorem parsePathImpl_sound_sample :
    (∃ n tbl, parsePathImpl [47, 97, 47, 98, 47] 0 .zero false = .ok (n, tbl) ∧
      (0 ≤ n → ∃ cs : List (List UInt8), n = cs.length ∧ tbl = componentTable cs)) ∧
    ∃ n tbl, parsePathImpl [97, 47, 98] 0 .zero true = .ok (n, tbl) ∧
      (0 ≤ n → ∃ cs : List (List UInt8), n = cs.length ∧ tbl = componentTable cs) := by
  constructor
  · obtain ⟨n, tbl, hrun, hok, -⟩ := @parsePathImpl_sound false ⟨[47, 97, 47, 98, 47], by decide⟩
      (by decide) (by decide)
    refine ⟨n, tbl, hrun, fun hn => ?_⟩
    obtain ⟨cs, -, -, -, -, hlen, htbl, -⟩ := hok hn
    exact ⟨cs, hlen, htbl⟩
  · obtain ⟨n, tbl, hrun, hok, -⟩ := @parsePathImpl_sound true ⟨[97, 47, 98], by decide⟩
      (by decide) (by decide)
    refine ⟨n, tbl, hrun, fun hn => ?_⟩
    obtain ⟨cs, -, -, -, -, hlen, htbl, -⟩ := hok hn
    exact ⟨cs, hlen, htbl⟩

/-! ## The length check -/

theorem afterLength_slash (cs : List (List UInt8)) : afterLength [slash] cs = 1 := by
  unfold afterLength
  split <;> rfl

theorem fitting_slash_iff : Fitting [slash] cs ↔ ∀ c ∈ cs, c.length ≤ 12 := by
  induction cs with
  | nil => simp [Fitting]
  | cons c cs ih =>
    rw [fitting_cons, ih, afterLength_slash, List.forall_mem_cons]
    exact and_congr_left fun _ => by omega

/-- A slash at the end of a path that fails the length check makes no difference. -/
theorem fittingCount_slash (hf : ¬ Fitting [] cs) : fittingCount [slash] cs = fittingCount [] cs := by
  induction cs with
  | nil => exact absurd trivial hf
  | cons c cs ih =>
    rw [fitting_cons] at hf
    rw [fittingCount, fittingCount, afterLength_slash]
    cases cs with
    | nil =>
      have hc : ¬ c.length + afterLength [] [] ≤ 13 := fun hc => hf ⟨hc, trivial⟩
      have hlong : 13 < c.length := by simpa [afterLength] using hc
      rw [if_neg (by omega), if_neg hc]
    | cons c' cs =>
      have hone : afterLength [] (c' :: cs) = 1 := if_neg (by simp)
      rw [hone] at hf ⊢
      split
      · next hc => rw [ih fun h => hf ⟨hc, h⟩]
      · rfl

/-- Parsing an absolute path of components. -/
theorem parsePathImpl_join (hcs : ∀ c ∈ cs, IsComponent c) (ht : IsTail t) (hl : cs.length ≤ 16) :
    parsePathImpl (joinPath cs ++ t) 0 out_paths false =
      .ok (if Fitting t cs then (cs.length : ℤ) else -1,
      putRows out_paths 0 (cs.take (fittingCount t cs))) := by
  have hk := fittingCount_le t cs
  have hs : Shape (joinPath cs ++ t) [] cs t := ⟨rfl, by simp, hcs, .inl ht⟩
  exact parsePathImpl_of_tail (r := 0) hs ht (by simp) (by omega) hl
    (show 0 + fittingCount t cs ≤ 16 by omega)

theorem parsePathImpl_join_eq_neg (hcs : ∀ c ∈ cs, IsComponent c) (ht : IsTail t) (hl : cs.length ≤ 16) :
    (∃ tbl, parsePathImpl (joinPath cs ++ t) 0 out_paths false = .ok (-1, tbl)) ↔ ¬ Fitting t cs := by
  rw [parsePathImpl_join hcs ht hl]
  constructor
  · rintro ⟨tbl, he⟩ hf
    rw [if_pos hf] at he
    have := (Prod.mk.inj (Except.ok.inj he)).1
    omega
  · exact fun hf => ⟨_, by rw [if_neg hf]⟩

/-- An absolute path is rejected only for a component of more than 13 characters, and a slash at its end
makes no difference, exactly when it has such a component or none of exactly 13 characters. -/
theorem parsePathImpl_limit_iff (hcs : ∀ c ∈ cs, IsComponent c) (ht : IsTail t) (hl : cs.length ≤ 16) :
    (((∃ tbl, parsePathImpl (joinPath cs ++ t) 0 .zero false = .ok (-1, tbl)) →
    ∃ c ∈ cs, 13 < c.length) ∧
      (t = [] → cs ≠ [] → parsePathImpl (joinPath cs ++ [slash]) 0 .zero false =
        parsePathImpl (joinPath cs ++ t) 0 .zero false)) ↔
      (∃ c ∈ cs, 13 < c.length) ∨ ∀ c ∈ cs, c.length ≠ 13 := by
  have hslash : IsTail [slash] := .inr rfl
  rw [parsePathImpl_join_eq_neg hcs ht hl]
  by_cases hlong : ∃ c ∈ cs, 13 < c.length
  · have hno : ¬ Fitting [] cs := fun hf => by
      obtain ⟨c, hc, hlt⟩ := hlong
      have := hf.length_le c hc
      omega
    refine iff_of_true ⟨fun _ => hlong, ?_⟩ (.inl hlong)
    rintro rfl -
    rw [parsePathImpl_join hcs hslash hl, parsePathImpl_join hcs ht hl,
      fittingCount_slash hno, if_neg hno,
      if_neg fun hf => hno hf.nil]
  · have hle : ∀ c ∈ cs, c.length ≤ 13 := fun c hc => not_lt.mp fun hlt => hlong ⟨c, hc, hlt⟩
    rw [or_iff_right hlong]
    constructor
    · rintro ⟨hlimit, htrailing⟩
      have hfit : Fitting t cs := not_not.mp fun hf => hlong (hlimit hf)
      have hfit' : Fitting [slash] cs := by
        rcases ht with rfl | rfl
        · by_cases hnil : cs = []
          · rw [hnil]
            trivial
          · by_contra hno
            obtain ⟨tbl, hneg⟩ := (parsePathImpl_join_eq_neg hcs hslash hl).mpr hno
            rw [htrailing rfl hnil] at hneg
            exact (parsePathImpl_join_eq_neg hcs (.inl rfl) hl).mp ⟨tbl, hneg⟩ hfit
        · exact hfit
      intro c hc
      have := fitting_slash_iff.mp hfit' c hc
      omega
    · intro hne
      have hfit' : Fitting [slash] cs := fitting_slash_iff.mpr fun c hc => by
        have := hle c hc
        have := hne c hc
        omega
      have hfit : Fitting t cs := by
        rcases ht with rfl | rfl
        · exact hfit'.nil
        · exact hfit'
      refine ⟨fun hno => absurd hfit hno, ?_⟩
      rintro rfl -
      rw [parsePathImpl_join hcs hslash hl, parsePathImpl_join hcs ht hl, if_pos hfit, if_pos hfit',
        fittingCount_eq_length_iff.mpr hfit, fittingCount_eq_length_iff.mpr hfit']

/-- The path `/a/`. -/
theorem parsePathImpl_limit_short : ¬ ∃ tbl,
    parsePathImpl [47, 97, 47] 0 .zero false = .ok (-1, tbl) := by
  have h := (@parsePathImpl_limit_iff [slash] [[97]] (by simp [IsComponent, slash]) (.inr rfl)
    (by decide)).mpr (.inr (by decide))
  intro hneg
  obtain ⟨c, hc, hlt⟩ := h.1 hneg
  rw [List.mem_singleton.mp hc] at hlt
  exact absurd hlt (by decide)

/-- A name of 13 characters is accepted at the end of a path, and rejected in front of another name
or a slash. -/
theorem parsePathImpl_limit_thirteen : ¬ ∀ (cs : List (List UInt8)) (t : List UInt8),
    (∀ c ∈ cs, IsComponent c) → IsTail t → cs.length ≤ 16 →
    (∃ tbl, parsePathImpl (joinPath cs ++ t) 0 .zero false = .ok (-1, tbl)) →
    ∃ c ∈ cs, 13 < c.length := by
  intro h
  obtain ⟨c, hc, hlt⟩ := h [List.replicate 13 97, [98]] [] (by simp [IsComponent, slash]) (.inl rfl)
    (by decide) ((parsePathImpl_join_eq_neg (by simp [IsComponent, slash]) (.inl rfl) (by decide)).mpr
      (by decide))
  simp only [List.mem_cons, List.not_mem_nil, or_false] at hc
  rcases hc with rfl | rfl <;> exact absurd hlt (by decide)

/-! ## Relative paths -/

/-- A relative path after the current path. -/
def joinCurrent (c r : CString) : CString :=
  ⟨if c.1.getLast? = some slash then c.1 ++ r.1 else c.1 ++ slash :: r.1, by
    have hc := c.2
    have hr := r.2
    split <;> simp [hc, hr, slash]⟩

/-- In a process with current path `c` the relative path `r` gives the same as the joined path. -/
def Agrees (c r : CString) : Prop :=
  ∃ n tbl n' tbl', parsePath c.1 (some r) .zero = .ok (n, tbl) ∧
    parsePath c.1 (some (joinCurrent c r)) .zero = .ok (n', tbl') ∧
    (n < 0 ↔ n' < 0) ∧ (0 ≤ n' → n = n' ∧ tbl = tbl')

theorem parsePath_of_abs (cwd : List UInt8) {p : CString} (hp : Parsable false p.1) :
    parsePath cwd (some p) out_paths = parsePathImpl p.1 0 out_paths false := by
  obtain ⟨p, hp0⟩ := p
  have hhead : p.head? = some slash := hp
  cases p with
  | nil => cases hhead
  | cons a p =>
    obtain rfl : a = slash := Option.some.inj hhead
    rfl

theorem parsePath_of_rel {cwd : List UInt8} {p : CString} (hp : Parsable true p.1) :
    parsePath cwd (some p) out_paths = (do
      let (level, out_paths) ← parsePathImpl cwd 0 out_paths false
      let (level', out_paths) ← parsePathImpl p.1 level out_paths true
      return (level' + level, out_paths)) := by
  obtain ⟨p, hp0⟩ := p
  obtain ⟨hne, hhead⟩ := hp
  cases p with
  | nil => exact absurd rfl hne
  | cons a p =>
    have ha : a ≠ slash := fun he => hhead (congrArg some he)
    simp only [parsePath, ne_eq, ha, not_false_eq_true, if_true]

/-- The second parse goes on where the first one stopped, and their results are added. -/
theorem parsePath_of_rel_ok {cwd : List UInt8} {p : CString} {level : ℤ} {tbl : PathTable}
    (hp : Parsable true p.1) (hcwd : parsePathImpl cwd 0 out_paths false = .ok (level, tbl)) :
    parsePath cwd (some p) out_paths =
      (parsePathImpl p.1 level tbl true).map fun r => (r.1 + level, r.2) := by
  rw [parsePath_of_rel hp, hcwd]
  change (parsePathImpl p.1 level tbl true >>= _) = _
  cases parsePathImpl p.1 level tbl true <;> rfl

theorem getLast?_joinPath (hcs : ∀ c ∈ cs, IsComponent c) : (joinPath cs).getLast? ≠ some slash := by
  induction cs using List.reverseRecOn with
  | nil => simp [joinPath]
  | append_singleton cs c ih =>
    obtain ⟨hne, hns⟩ := hcs c (by simp)
    rw [joinPath_append, joinPath, joinPath, List.append_nil, List.getLast?_append_of_ne_nil _ (by simp),
      ← List.singleton_append, List.getLast?_append_of_ne_nil _ hne]
    exact fun he => hns (List.mem_of_getLast? he)

/-- The joined path has the components of both. -/
theorem shape_joinCurrent {c r : CString} {cs₁ cs₂ : List (List UInt8)} {t₁ w₂ u₂ : List UInt8}
    (hc : Shape c.1 [] cs₁ t₁) (ht : IsTail t₁) (hr : Shape r.1 w₂ cs₂ u₂)
    (hw : w₂ ≠ []) : Shape (joinCurrent c r).1 [] (cs₁ ++ w₂ :: cs₂) u₂ := by
  have heq : (joinCurrent c r).1 = joinPath cs₁ ++ slash :: r.1 := by
    change (if c.1.getLast? = some slash then c.1 ++ r.1 else c.1 ++ slash :: r.1) = _
    rw [hc.eq, List.nil_append]
    rcases ht with rfl | rfl
    · rw [List.append_nil, if_neg (getLast?_joinPath hc.components)]
    · rw [if_pos (by simp), List.append_assoc]
      rfl
  refine ⟨?_, by simp, ?_, hr.rest⟩
  · rw [heq, hr.eq, joinPath_append]
    simp [joinPath]
  · intro b hb
    rcases List.mem_append.mp hb with hb | hb
    · exact hc.components b hb
    · exact hr.cons_first hw b hb

theorem fitting_append_iff {cs' : List (List UInt8)} (hne : cs' ≠ []) :
    Fitting t (cs ++ cs') ↔ (∀ c ∈ cs, c.length ≤ 12) ∧ Fitting t cs' := by
  induction cs with
  | nil => simp
  | cons c cs ih =>
    rw [List.cons_append, fitting_cons, ih, List.forall_mem_cons, and_assoc, afterLength,
      if_neg (by simp [hne])]
    exact and_congr_left fun _ => by omega

theorem Parsable.eq_root_iff (h : Parsable false p) (hs : Shape p [] cs t) (ht : IsTail t) :
    p = [slash] ↔ cs = [] := by
  have hhead : p.head? = some slash := h
  constructor
  · rintro rfl
    exact (hs.unique (⟨rfl, by simp, by simp, .inl (.inr rfl)⟩ : Shape [slash] [] [] [slash])).2.1
  · rintro rfl
    rw [hs.eq] at hhead ⊢
    rcases ht with rfl | rfl
    · simp [joinPath] at hhead
    · rfl

theorem Shape.forall_parts_iff (hs : Shape p [] cs t) (ht : IsTail t) :
    (∀ b ∈ parts p, b.length ≤ 12) ↔ ∀ b ∈ cs, b.length ≤ 12 := by
  have hparts : parts p = [] :: cs ++ (parts t).tail := hs.parts_eq
  have htail : ∀ b ∈ (parts t).tail, b = [] := by
    rcases ht with rfl | rfl
    · exact fun b hb => absurd hb (by simp [parts])
    · rw [parts_slash, List.tail_cons, parts, List.splitOn_nil]
      exact fun b hb => List.mem_singleton.mp hb
  rw [hparts]
  constructor
  · exact fun h b hb => h b (by simp [hb])
  · intro h b hb
    rcases List.mem_append.mp hb with hb | hb
    · rcases List.mem_cons.mp hb with rfl | hb
      · exact Nat.zero_le _
      · exact h b hb
    · rw [htail b hb]
      exact Nat.zero_le _

/-- A relative path agrees with the joined path exactly when the current path is the root, or no
component of it is as long as 13 characters and the relative path would be accepted. -/
theorem parsePath_rel_iff (c r : CString) {n₁ : ℤ} {tbl₁ : PathTable} (hc : Parsable false c.1)
    (hparse : parsePathImpl c.1 0 .zero false = .ok (n₁, tbl₁)) (hn : 0 ≤ n₁) (hr : Parsable true r.1)
    (h16 : depth (parts c.1) + depth (parts r.1) ≤ 16) :
    Agrees c r ↔ c.1 = [slash] ∨ (∀ b ∈ parts c.1, b.length ≤ 12) ∧ Accepted true r.1 := by
  obtain ⟨cs₁, t₁, heq₁, hcs₁, ht₁, hf₁, -, rfl, rfl⟩ := of_parsePathImpl_abs hc hparse hn
  have hs₁ : Shape c.1 [] cs₁ t₁ := ⟨heq₁, by simp, hcs₁, .inl ht₁⟩
  obtain ⟨w₂, cs₂, u₂, hs₂⟩ := exists_shape r.1
  have hw := hr.first_ne hs₂
  have hjoin := shape_joinCurrent hs₁ ht₁ hs₂ (hw rfl)
  have habs : Parsable false (joinCurrent c r).1 := by
    change (joinCurrent c r).1.head? = some slash
    rw [hjoin.eq]
    cases cs₁ <;> rfl
  have hlen₁ : cs₁.length ≤ depth (parts c.1) := @Shape.length_names_le _ _ _ _ false hs₁ (by simp)
  have hlen₂ : (w₂ :: cs₂).length ≤ depth (parts r.1) := hs₂.length_names_le hw
  have hlen : (cs₁ ++ w₂ :: cs₂).length = cs₁.length + (w₂ :: cs₂).length := List.length_append
  have hl₂ : (names true w₂ cs₂).length ≤ 16 := by rw [names_true]; omega
  have hl : (names false [] (cs₁ ++ w₂ :: cs₂)).length ≤ 16 := by rw [names_false]; omega
  -- both parses, as soon as that of the relative path is known
  have hboth : ∀ {n tbl n' tbl'},
      parsePathImpl r.1 cs₁.length (putRows .zero 0 cs₁) true = .ok (n, tbl) →
      parsePathImpl (joinCurrent c r).1 0 .zero false = .ok (n', tbl') →
      (Agrees c r ↔ (n + cs₁.length < 0 ↔ n' < 0) ∧ (0 ≤ n' → n + cs₁.length = n' ∧ tbl = tbl')) := by
    intro n tbl n' tbl' hrel hjoined
    have hrun : parsePath c.1 (some r) .zero = .ok (n + cs₁.length, tbl) := by
      rw [parsePath_of_rel_ok hr hparse]
      change (parsePathImpl r.1 cs₁.length (putRows .zero 0 cs₁) true).map _ = _
      rw [hrel]
      rfl
    have hrun' : parsePath c.1 (some (joinCurrent c r)) .zero = .ok (n', tbl') := by
      rw [parsePath_of_abs _ habs, hjoined]
    constructor
    · rintro ⟨m, tb, m', tb', h₁, h₂, h⟩
      obtain ⟨rfl, rfl⟩ := Prod.mk.inj (Except.ok.inj (hrun.symm.trans h₁))
      obtain ⟨rfl, rfl⟩ := Prod.mk.inj (Except.ok.inj (hrun'.symm.trans h₂))
      exact h
    · exact fun h => ⟨_, _, _, _, hrun, hrun', h⟩
  rw [hc.eq_root_iff hs₁ ht₁, hs₁.forall_parts_iff ht₁, hs₂.accepted_iff]
  by_cases hd : [slash, slash] <+: u₂
  · rw [hboth (parsePathImpl_of_double hs₂ hd hw hl₂) (parsePathImpl_of_double hjoin hd (by simp) hl)]
    simp only [hd, not_true_eq_false, false_and, and_false, or_false]
    rw [← List.length_eq_zero_iff]
    omega
  · have ht₂ := hs₂.rest.resolve_right hd
    have hk₂ := fittingCount_le u₂ (w₂ :: cs₂)
    have hk := fittingCount_le u₂ (cs₁ ++ w₂ :: cs₂)
    have hsplit : Fitting u₂ (names false [] (cs₁ ++ w₂ :: cs₂)) ↔
        (∀ b ∈ cs₁, b.length ≤ 12) ∧ Fitting u₂ (names true w₂ cs₂) := fitting_append_iff (by simp)
    rw [hboth (parsePathImpl_of_tail hs₂ ht₂ hw (by omega) hl₂ (by rw [names_true]; omega))
      (parsePathImpl_of_tail (r := 0) hjoin ht₂ (by simp) (by omega) hl (by rw [names_false]; omega))]
    by_cases hfit₂ : Fitting u₂ (names true w₂ cs₂)
    · by_cases hshort : ∀ b ∈ cs₁, b.length ≤ 12
      · have hfit := hsplit.mpr ⟨hshort, hfit₂⟩
        refine iff_of_true ?_ (.inr ⟨hshort, hd, hfit₂⟩)
        rw [if_pos hfit₂, if_pos hfit, fittingCount_eq_length_iff.mpr hfit₂,
          fittingCount_eq_length_iff.mpr hfit, List.take_length, List.take_length,
          names_true, names_false,
          putRows_append, hlen, Nat.zero_add]
        exact ⟨by omega, fun _ => ⟨by omega, rfl⟩⟩
      · have hnil : cs₁ ≠ [] := by
          rintro rfl
          exact hshort (by simp)
        refine iff_of_false ?_ ?_
        · rw [if_pos hfit₂, if_neg fun hf => hshort (hsplit.mp hf).1]
          rintro ⟨hiff, -⟩
          omega
        · rintro (he | ⟨h, -⟩)
          · exact hnil he
          · exact hshort h
    · rw [if_neg hfit₂, if_neg fun hf => hfit₂ (hsplit.mp hf).2]
      simp only [hfit₂, and_false, or_false]
      rw [← List.length_eq_zero_iff]
      omega

/-- The relative path `b` in `/a`. -/
theorem parsePath_rel_short : Agrees ⟨[47, 97], by decide⟩ ⟨[98], by decide⟩ := by
  have hs : Shape [98] [98] [] [] := ⟨rfl, by decide, by simp, .inl (.inl rfl)⟩
  have hparse : parsePathImpl [47, 97] 0 .zero false = .ok (1, putRows .zero 0 [[97]]) := rfl
  exact (parsePath_rel_iff ⟨[47, 97], by decide⟩ ⟨[98], by decide⟩ (by decide) hparse (by decide)
    (by decide) (by decide)).mpr (.inr ⟨by decide, hs.accepted_iff.mpr ⟨by decide, by decide⟩⟩)

/-- In `/a` the malformed path `b//c` gives 0, and `/a/b//c` gives -1. -/
theorem parsePath_rel_malformed : ¬ Agrees ⟨[47, 97], by decide⟩ ⟨[98, 47, 47, 99], by decide⟩ := by
  rintro ⟨n, tbl, n', tbl', h, h', hiff, -⟩
  have hn : (0 : ℤ) = n := (Prod.mk.inj (Except.ok.inj h)).1
  have hn' : (-1 : ℤ) = n' := (Prod.mk.inj (Except.ok.inj h')).1
  omega

/-! ## Staying inside the tables -/

/-- The number of components of a path, with those of the current path if it is relative. -/
def pathDepth (cwd : List UInt8) : Option CString → ℕ
  | none => 0
  | some p =>
    if p.1.head? = some slash then depth (parts p.1).tail
    else depth (parts cwd).tail + depth (parts p.1)

/-- The length of the first component, with the slash after it. -/
def firstLength (p : List UInt8) : ℕ := ((parts p).headD []).length + if slash ∈ p then 1 else 0

/-- There are at most 16 components before two slashes in a row, in the path and, for a relative
path, in the current path. After a current path that is accepted, and not the root, there are at
most 16 in all; after one that is not, the relative path is rejected before its first component is
copied. -/
def InTables (cwd : List UInt8) : Option CString → Prop
  | none => True
  | some p =>
    if p.1 = [] then True
    else if p.1.head? = some slash then (heads (parts p.1).tail).length ≤ 16
    else (heads (parts cwd).tail).length ≤ 16 ∧ (heads (parts p.1)).length ≤ 16 ∧
      (Accepted false cwd → heads (parts cwd).tail = [] ∨ pathDepth cwd (some p) ≤ 16) ∧
      (¬ Accepted false cwd → DoubleSlash p.1 ∨ 13 < firstLength p.1)

end OrangeOs.Fs
