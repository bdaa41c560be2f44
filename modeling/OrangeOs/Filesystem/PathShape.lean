import Mathlib.Data.List.Infix
import OrangeOs.Filesystem.Path

/-! # The shapes of paths

Every string is a first part without slashes, components that follow a slash each, and a rest: at
most one slash, or two slashes in a row and whatever comes after them. What `ParsePathImpl` does
depends on this shape and on the lengths of the components only.
-/

namespace OrangeOs.Fs

/-- The form of a string. -/
structure Shape (p w : List UInt8) (cs : List (List UInt8)) (u : List UInt8) : Prop where
  eq : p = w ++ joinPath cs ++ u
  first : slash ∉ w
  components : ∀ c ∈ cs, IsComponent c
  rest : IsTail u ∨ [slash, slash] <+: u

/-- What stands between the slashes of a string. -/
def parts (p : List UInt8) : List (List UInt8) := p.splitOn slash

/-- The components before the first two slashes in a row. -/
def heads (ps : List (List UInt8)) : List (List UInt8) := ps.takeWhile (· ≠ [])

/-- The number of components. -/
def depth (ps : List (List UInt8)) : ℕ := (ps.filter (· ≠ [])).length

/-- Two slashes in a row, with nothing between them. -/
def DoubleSlash (p : List UInt8) : Prop := [slash, slash] <:+: p

/-- The components that the second loop of `ParsePathImpl` goes through. -/
def names (rel : Bool) (w : List UInt8) (cs : List (List UInt8)) : List (List UInt8) :=
  if rel then w :: cs else cs

@[simp] theorem names_true (w : List UInt8) (cs : List (List UInt8)) : names true w cs = w :: cs := rfl

@[simp] theorem names_false (w : List UInt8) (cs : List (List UInt8)) : names false w cs = cs := rfl

/-- The number of components before the first one that fails the length check. -/
def fittingCount (t : List UInt8) : List (List UInt8) → ℕ
  | [] => 0
  | c :: cs => if c.length + afterLength t cs ≤ 13 then fittingCount t cs + 1 else 0

instance : ∀ (t : List UInt8) (cs : List (List UInt8)), Decidable (Fitting t cs)
  | _, [] => .isTrue trivial
  | t, [c] => inferInstanceAs (Decidable (c.length + t.length ≤ 13))
  | t, c :: c' :: cs =>
    have := instDecidableFitting t (c' :: cs)
    inferInstanceAs (Decidable (c.length ≤ 12 ∧ Fitting t (c' :: cs)))

variable {p w u v t : List UInt8} {cs : List (List UInt8)} {l : ℕ} {rel : Bool} {row : ℤ}
  {out_paths : PathTable}

/-! ## The shape of a string -/

theorem exists_shape (p : List UInt8) : ∃ w cs u, Shape p w cs u := by
  induction p with
  | nil => exact ⟨[], [], [], rfl, by simp, by simp, .inl (.inl rfl)⟩
  | cons a p ih =>
    obtain ⟨w, cs, u, rfl, hw, hcs, hu⟩ := ih
    by_cases ha : a = slash
    · subst ha
      by_cases hnil : w = []
      · subst hnil
        cases hp : [] ++ joinPath cs ++ u with
        | nil => exact ⟨[], [], [slash], rfl, by simp, by simp, .inl (.inr rfl)⟩
        | cons b q =>
          have hb : b = slash := by
            cases cs with
            | nil =>
              rcases hu with (rfl | rfl) | ⟨v, rfl⟩ <;> simp [joinPath] at hp <;> exact hp.1.symm
            | cons c cs =>
              simp only [joinPath, List.nil_append, List.cons_append, List.cons.injEq] at hp
              exact hp.1.symm
          exact ⟨[], [], slash :: b :: q, rfl, by simp, by simp, .inr ⟨q, by simp [hb]⟩⟩
      · refine ⟨[], w :: cs, u, by simp [joinPath], by simp, fun c hc => ?_, hu⟩
        rcases List.mem_cons.mp hc with rfl | hc
        · exact ⟨hnil, hw⟩
        · exact hcs c hc
    · exact ⟨a :: w, cs, u, rfl, by simp [Ne.symm ha, hw], hcs, hu⟩

theorem parts_append_slash (hw : slash ∉ w) (q : List UInt8) : parts (w ++ slash :: q) = w :: parts q :=
  List.splitOn_append_cons_self_of_not_mem hw ..

theorem parts_slash (q : List UInt8) : parts (slash :: q) = [] :: parts q :=
  parts_append_slash (w := []) (by simp) q

theorem parts_rest (hu : IsTail u ∨ [slash, slash] <+: u) (hw : slash ∉ w) :
    parts (w ++ u) = w :: (parts u).tail := by
  rcases hu with (rfl | rfl) | ⟨v, rfl⟩
  · rw [List.append_nil, parts, List.splitOn_eq_singleton hw]
    rfl
  · rw [parts_append_slash hw]
    rfl
  · change parts (w ++ slash :: slash :: v) = w :: (parts (slash :: slash :: v)).tail
    rw [parts_append_slash hw, parts_slash (slash :: v), List.tail_cons]

theorem intercalate_cons (w : List UInt8) (cs : List (List UInt8)) :
    [slash].intercalate (w :: cs) = w ++ joinPath cs := by
  induction cs generalizing w with
  | nil => simp [joinPath]
  | cons c cs ih => rw [List.intercalate_cons_cons, ih, joinPath]; simp

namespace Shape

theorem cons_first (h : Shape p w cs u) (hw : w ≠ []) : ∀ c ∈ w :: cs, IsComponent c := by
  intro c hc
  rcases List.mem_cons.mp hc with rfl | hc
  · exact ⟨hw, h.first⟩
  · exact h.components c hc

theorem parts_eq (h : Shape p w cs u) : parts p = w :: cs ++ (parts u).tail := by
  obtain ⟨rfl, hw, hcs, hu⟩ := h
  induction cs generalizing w with
  | nil =>
    rw [joinPath, List.append_nil]
    exact parts_rest hu hw
  | cons c cs ih =>
    have hc := (hcs c (by simp)).2
    have hrest := ih hc fun b hb => hcs b (List.mem_cons_of_mem _ hb)
    rw [joinPath, List.append_assoc, List.cons_append, List.cons_append, parts_append_slash hw, hrest]
    rfl

/-- After the components comes nothing or an empty part. -/
theorem tail_rest (h : Shape p w cs u) : (parts u).tail = [] ∨ ∃ ps, (parts u).tail = [] :: ps := by
  rcases h.rest with (rfl | rfl) | ⟨v, rfl⟩
  · exact .inl rfl
  · exact .inr ⟨[], rfl⟩
  · exact .inr ⟨parts v, by rw [List.cons_append, parts_slash, List.tail_cons]; exact parts_slash v⟩

theorem heads_append (h : Shape p w cs u) {ps : List (List UInt8)} (hps : ∀ c ∈ ps, IsComponent c) :
    heads (ps ++ (parts u).tail) = ps := by
  have hne : ∀ c ∈ ps, decide (c ≠ []) = true := fun c hc => by simpa using (hps c hc).1
  rw [heads, List.takeWhile_append_of_pos hne]
  rcases h.tail_rest with he | ⟨qs, he⟩ <;> simp [he]

theorem heads_eq (h : Shape p w cs u) : heads (parts p).tail = cs := by
  rw [h.parts_eq, List.cons_append, List.tail_cons, h.heads_append h.components]

theorem length_le_depth (h : Shape p w cs u) : cs.length ≤ depth (parts p).tail := by
  have hfilter : cs.filter (· ≠ []) = cs := by
    rw [List.filter_eq_self]
    exact fun c hc => by simpa using (h.components c hc).1
  rw [depth, h.parts_eq, List.cons_append, List.tail_cons, List.filter_append, hfilter,
    List.length_append]
  exact Nat.le_add_right ..

theorem double_iff (h : Shape p w cs u) : DoubleSlash p ↔ [slash, slash] <+: u := by
  obtain ⟨rfl, hw, hcs, hu⟩ := h
  constructor
  · intro hd
    refine hu.resolve_left fun ht => ?_
    induction cs generalizing w with
    | nil =>
      induction w with
      | nil =>
        rcases ht with rfl | rfl
        · exact absurd hd.length_le (by decide)
        · exact absurd hd.length_le (by decide)
      | cons a w ih =>
        refine ih (fun hm => hw (List.mem_cons_of_mem _ hm))
          ((List.infix_cons_iff.mp hd).resolve_left ?_)
        rintro ⟨q, hq⟩
        simp only [List.cons_append, List.cons.injEq] at hq
        exact hw (by simp [hq.1])
    | cons c cs ih =>
      obtain ⟨hne, hns⟩ := hcs c (by simp)
      induction w with
      | nil =>
        refine ih hns (fun b hb => hcs b (List.mem_cons_of_mem _ hb))
          ((List.infix_cons_iff.mp hd).resolve_left ?_)
        obtain ⟨a, c, rfl⟩ := List.exists_cons_of_ne_nil hne
        rintro ⟨q, hq⟩
        exact hns (List.mem_cons.mpr (.inl (List.cons.inj (List.cons.inj hq).2).1))
      | cons a w ihw =>
        refine ihw (fun hm => hw (List.mem_cons_of_mem _ hm))
          ((List.infix_cons_iff.mp hd).resolve_left ?_)
        rintro ⟨q, hq⟩
        simp only [List.cons_append, List.cons.injEq] at hq
        exact hw (by simp [hq.1])
  · exact fun hp => hp.isInfix.trans (List.suffix_append _ _).isInfix

end Shape

theorem Shape.unique {w' u' : List UInt8} {cs' : List (List UInt8)} (h : Shape p w cs u)
    (h' : Shape p w' cs' u') : w = w' ∧ cs = cs' ∧ u = u' := by
  have hcs : cs = cs' := h.heads_eq.symm.trans h'.heads_eq
  have hw : w = w' := by
    have he := h.parts_eq.symm.trans h'.parts_eq
    rw [List.cons_append, List.cons_append] at he
    exact (List.cons.inj he).1
  subst hcs hw
  exact ⟨rfl, rfl, List.append_cancel_left (h.eq.symm.trans h'.eq)⟩

/-- A string with at most one slash at its end whose components pass the length check. -/
def Accepted (rel : Bool) (p : List UInt8) : Prop :=
  ∃ w cs t, Shape p w cs t ∧ IsTail t ∧ Fitting t (names rel w cs)

theorem IsTail.not_double (ht : IsTail t) : ¬ [slash, slash] <+: t := by
  rcases ht with rfl | rfl <;> decide

theorem Shape.accepted_iff (h : Shape p w cs u) :
    Accepted rel p ↔ ¬ [slash, slash] <+: u ∧ Fitting u (names rel w cs) := by
  constructor
  · rintro ⟨w', cs', t, h', ht, hf⟩
    obtain ⟨rfl, rfl, rfl⟩ := h.unique h'
    exact ⟨ht.not_double, hf⟩
  · rintro ⟨hd, hf⟩
    exact ⟨w, cs, u, h, h.rest.resolve_right hd, hf⟩

theorem Shape.component (h : Shape p w cs u) (hw : rel = true → w ≠ []) :
    ∀ c ∈ names rel w cs, IsComponent c := by
  cases rel with
  | false => exact h.components
  | true => exact h.cons_first (hw rfl)

theorem Shape.length_names_le (h : Shape p w cs u) (hw : rel = true → w ≠ []) :
    (names rel w cs).length ≤ depth (parts p) := by
  have hle := h.length_le_depth
  rw [h.parts_eq, List.cons_append, List.tail_cons] at hle
  rw [depth, h.parts_eq, List.cons_append]
  rw [depth] at hle
  cases rel with
  | false =>
    refine hle.trans (List.Sublist.length_le ?_)
    exact (List.sublist_cons_self ..).filter _
  | true =>
    rw [List.filter_cons_of_pos (by simpa using hw rfl)]
    simpa [names] using hle

theorem mem_joinPath {a : UInt8} {c : List UInt8} (hc : c ∈ cs) (ha : a ∈ c) : a ∈ joinPath cs := by
  induction cs with
  | nil => cases hc
  | cons b cs ih =>
    rw [joinPath, List.mem_append]
    rcases List.mem_cons.mp hc with rfl | hc
    · exact .inl (List.mem_cons_of_mem _ ha)
    · exact .inr (ih hc)

theorem Shape.subset (h : Shape p w cs u) {c : List UInt8} (hc : c ∈ names rel w cs) : c ⊆ p := by
  have hcs : c ∈ cs → c ⊆ p := fun hc a ha => by
    rw [h.eq]
    exact List.mem_append_left _ (List.mem_append_right _ (mem_joinPath hc ha))
  cases rel with
  | false => exact hcs hc
  | true =>
    rcases List.mem_cons.mp hc with rfl | hc
    · exact fun a ha => by rw [h.eq]; simp [ha]
    · exact hcs hc

/-! ## The two loops -/

theorem splitPath_double (h : Shape p w cs u) (hd : [slash, slash] <+: u) (hl : l + cs.length ≤ 16) :
    splitPath l p = .ok none := by
  obtain ⟨rfl, hw, hcs, -⟩ := h
  rw [List.append_assoc, splitPath_of_not_mem hw]
  induction cs generalizing l with
  | nil =>
    obtain ⟨v, rfl⟩ := hd
    simp [joinPath, splitPath]
  | cons c cs ih =>
    obtain ⟨hne, hns⟩ := hcs c (by simp)
    obtain ⟨a, c, rfl⟩ := List.exists_cons_of_ne_nil hne
    have ha : a ≠ slash := fun he => hns (by simp [he])
    rw [List.length_cons] at hl
    have hrest := ih (l := l + 1) (by omega) fun b hb => hcs b (List.mem_cons_of_mem _ hb)
    have hstep : splitPath (l + 1) (a :: (c ++ (joinPath cs ++ u))) = .ok none := by
      rw [← List.cons_append, splitPath_of_not_mem hns, hrest]
    simp only [joinPath, List.cons_append, List.append_assoc]
    rw [splitPath_slash_cons ha, if_pos (by omega), hstep]

/-- Too many components run past the array. -/
theorem splitPath_overflow (h : Shape p w cs u) (hl : l ≤ 16) (hover : 16 < l + cs.length) :
    splitPath l p = .error .outOfBounds := by
  obtain ⟨rfl, hw, hcs, -⟩ := h
  rw [List.append_assoc, splitPath_of_not_mem hw]
  induction cs generalizing l with
  | nil =>
    simp only [List.length_nil] at hover
    omega
  | cons c cs ih =>
    obtain ⟨hne, hns⟩ := hcs c (by simp)
    obtain ⟨a, c, rfl⟩ := List.exists_cons_of_ne_nil hne
    have ha : a ≠ slash := fun he => hns (by simp [he])
    rw [List.length_cons] at hover
    simp only [joinPath, List.cons_append, List.append_assoc]
    rw [splitPath_slash_cons ha]
    by_cases hlt : l < 16
    · have hrest := ih (l := l + 1) hlt (by omega) fun b hb => hcs b (List.mem_cons_of_mem _ hb)
      have hstep : splitPath (l + 1) (a :: (c ++ (joinPath cs ++ u))) = .error .outOfBounds := by
        rw [← List.cons_append, splitPath_of_not_mem hns, hrest]
      rw [if_pos hlt, hstep]
    · rw [if_neg hlt]

theorem fittingCount_le (t : List UInt8) (cs : List (List UInt8)) : fittingCount t cs ≤ cs.length := by
  induction cs with
  | nil => exact le_rfl
  | cons c cs ih =>
    rw [fittingCount, List.length_cons]
    split <;> omega

theorem fittingCount_eq_length_iff : fittingCount t cs = cs.length ↔ Fitting t cs := by
  induction cs with
  | nil => exact iff_of_true rfl trivial
  | cons c cs ih =>
    rw [fittingCount, fitting_cons, List.length_cons, ← ih]
    split
    · next hc => simp [hc]
    · next hc => simp [hc]

/-- The second loop copies the components before the first one that is too long. -/
theorem copyPath_eq {r : ℕ} (hcs : ∀ c ∈ cs, IsComponent c) (ht : IsTail t) (hr : r ≤ 16) :
    copyPath r out_paths (suffixes t cs) =
      if r + fittingCount t cs ≤ 16 then
        .ok (decide (fittingCount t cs = cs.length), putRows out_paths r (cs.take (fittingCount t cs)))
      else .error .outOfBounds := by
  induction cs generalizing r out_paths with
  | nil => rw [fittingCount, if_pos (by omega)]; rfl
  | cons c cs ih =>
    rw [copyPath_cons (hcs c (by simp)) ht, fittingCount]
    by_cases hc : c.length + afterLength t cs ≤ 13
    · rw [if_neg (by omega), if_pos hc]
      by_cases hlt : r < 16
      · have hrest := @ih (Function.update out_paths r
          ((out_paths r).patch 0 c.length (charAt c))) (r + 1)
          (fun b hb => hcs b (List.mem_cons_of_mem _ hb)) hlt
        have hshift : r + 1 + fittingCount t cs = r + (fittingCount t cs + 1) := by omega
        rw [if_pos (by omega)]
        simp only [Int.toNat_natCast, ← Nat.cast_succ, Nat.succ_eq_add_one, hrest, hshift,
          List.length_cons, Nat.add_right_cancel_iff, List.take_succ_cons, putRows]
      · rw [if_neg (by omega), if_neg (by omega)]
    · rw [if_pos (by omega), if_neg hc, if_pos (by omega), List.take_zero, putRows]
      simp

/-- `ParsePathImpl` in terms of the shape of its string. -/
theorem parsePathImpl_eq (h : Shape p w cs u) (hw : rel = true → w ≠ []) :
    parsePathImpl p row out_paths rel =
      if 16 < (names rel w cs).length then .error .outOfBounds
      else if [slash, slash] <+: u then .ok (-1, out_paths)
      else (copyPath row out_paths (suffixes u (names rel w cs))).map
        fun r => (if r.1 then ((names rel w cs).length : ℤ) else -1, r.2) := by
  have hstart : (if rel then 1 else 0) + cs.length = (names rel w cs).length := by
    cases rel <;> simp [names, Nat.add_comm]
  have hl : (if rel then 1 else 0) ≤ 16 := by cases rel <;> decide
  rw [parsePathImpl]
  by_cases hover : 16 < (names rel w cs).length
  · rw [if_pos hover, splitPath_overflow h hl (by omega)]
    rfl
  rw [if_neg hover]
  by_cases hd : [slash, slash] <+: u
  · rw [if_pos hd, splitPath_double h hd (by omega)]
    rfl
  have hpaths : (if rel then p :: suffixes u cs else suffixes u cs) = suffixes u (names rel w cs) := by
    cases rel with
    | false => rfl
    | true => rw [h.eq]; rfl
  have hsplit : splitPath (if rel then 1 else 0) p = .ok (some (suffixes u cs)) := by
    rw [h.eq]
    exact splitPath_join h.first h.components (h.rest.resolve_right hd) (by omega)
  rw [if_neg hd, hsplit]
  change (copyPath row out_paths (if rel then p :: suffixes u cs else suffixes u cs) >>= _) = _
  rw [hpaths]
  cases hc : copyPath row out_paths (suffixes u (names rel w cs)) with
  | error e => rfl
  | ok r =>
    obtain ⟨b, tbl⟩ := r
    have hlen : (suffixes u (names rel w cs)).length = (names rel w cs).length := length_suffixes ..
    cases b with
    | false => rfl
    | true => simp [bind, Except.bind, pure, Except.pure, Except.map, hlen]

/-! ## Results -/

/-- A path without two slashes in a row, parsed from some row of the table on. -/
theorem parsePathImpl_of_tail {r : ℕ} (h : Shape p w cs t) (ht : IsTail t) (hw : rel = true → w ≠ [])
    (hr : r ≤ 16) (hl : (names rel w cs).length ≤ 16) (hk : r + fittingCount t (names rel w cs) ≤ 16) :
    parsePathImpl p r out_paths rel =
      .ok (if Fitting t (names rel w cs) then ((names rel w cs).length : ℤ) else -1,
        putRows out_paths r ((names rel w cs).take (fittingCount t (names rel w cs)))) := by
  rw [parsePathImpl_eq h hw, if_neg (by omega), if_neg ht.not_double,
    copyPath_eq (h.component hw) ht hr, if_pos hk]
  simp [Except.map, fittingCount_eq_length_iff]

theorem parsePathImpl_of_double (h : Shape p w cs u) (hd : [slash, slash] <+: u)
    (hw : rel = true → w ≠ []) (hl : (names rel w cs).length ≤ 16) :
    parsePathImpl p row out_paths rel = .ok (-1, out_paths) := by
  rw [parsePathImpl_eq h hw, if_neg (by omega), if_pos hd]

end OrangeOs.Fs
