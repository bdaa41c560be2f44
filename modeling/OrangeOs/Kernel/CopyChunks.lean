import OrangeOs.Kernel.SysWrite

/-! # The chunks of `safe_copy`

`VAToPA` returns 0 for an address that is not mapped, and the loop of `safe_copy` does not look for
that: it computes the length of the chunk from 0 and passes both on. The loop is compared with one
that stops there.
-/

namespace OrangeOs.Kernel

open Fs VirtualMemory
open Prog hiding ret

/-- What the function that `safe_copy` calls is given, and the memory at that time. -/
structure Chunk where
  memory : VirtualMemory
  pa : ℕ
  len : ℕ

section Copy

variable {σ : Type} (vm : σ → VirtualMemory) (page_table : ℕ) (call : ℕ → ℕ → σ → FsProg (ℕ × σ))

/-- The chunks that `safe_copy` passes. -/
def chunks (dst size : ℕ) (s : σ) (d : Disk) : List Chunk :=
  if _h : size > 0 then
    match (vm s).vaToPA page_table dst 0 with
    | .error _ => []
    | .ok (pa, _) =>
      let remain := PGSIZE - pa % PGSIZE
      let len := min remain size
      ⟨vm s, pa, len⟩ :: match (call pa len s).run d with
        | (.error _, _) => []
        | (.ok (ret, s), d) =>
          if ret < len then [] else chunks ((dst + len) % 2 ^ 64) (size - len) s d
  else []
termination_by size
decreasing_by
  have hp : pa % 4096 < 4096 := Nat.mod_lt _ (by omega)
  simp only [PGSIZE]
  omega

/-- Passes chunks to a function, as long as it takes them. -/
def eachChunk : List Chunk → ℕ → σ → FsProg (ℕ × σ)
  | [], done, s => return (done, s)
  | c :: cs, done, s => do
    let (ret, s) ← call c.pa c.len s
    if ret < c.len then return (done + ret, s) else eachChunk cs (done + ret) s

/-- What an address stands for, if it is mapped. -/
def translate (v : VirtualMemory) (page_table va : ℕ) : Option ℕ :=
  match v.getPTE page_table va false 3 with
  | .error _ => none
  | .ok (pte, v) =>
    if pte = 0 ∨ v.mem.load pte 8 &&& PTE.V = 0 then none
    else some (pteTarget (v.mem.load pte 8) + va % PGSIZE)

/-- A copy that touches mapped memory only: it stops at an address that is not mapped. -/
def copyMapped (dst size copied : ℕ) (s : σ) : FsProg (ℕ × σ) :=
  if _h : size > 0 then
    match translate (vm s) page_table dst with
    | none => return (copied, s)
    | some pa => do
      let len := min (PGSIZE - dst % PGSIZE) size
      let (ret, s) ← call pa len s
      if ret < len then return (copied + ret, s)
      else copyMapped ((dst + len) % 2 ^ 64) (size - len) (copied + ret) s
  else return (copied, s)
termination_by size
decreasing_by
  have hp : dst % 4096 < 4096 := Nat.mod_lt _ (by omega)
  simp only [PGSIZE]
  omega

/-- Every page of the buffer is mapped, up to the one of which the function takes a part only. -/
inductive MappedAhead : ℕ → ℕ → σ → Disk → Prop
  | done (dst : ℕ) (s : σ) (d : Disk) : MappedAhead dst 0 s d
  | page {dst size pa : ℕ} {s : σ} {d : Disk} (hpage : translate (vm s) page_table dst = some pa)
      (hrest : ∀ ret s' d', (call pa (min (PGSIZE - dst % PGSIZE) size) s).run d = (.ok (ret, s'), d') →
        min (PGSIZE - dst % PGSIZE) size ≤ ret →
        MappedAhead ((dst + min (PGSIZE - dst % PGSIZE) size) % 2 ^ 64)
          (size - min (PGSIZE - dst % PGSIZE) size) s' d') : MappedAhead dst size s d

/-- A chunk is what consecutive addresses of one page stand for. -/
def Translates (v : VirtualMemory) (va pa len : ℕ) : Prop :=
  va % PGSIZE + len ≤ PGSIZE ∧ ∀ j < len, translate v page_table (va + j) = some (pa + j)

/-- The chunks are translations, one after the other from an address on. -/
def Follow : ℕ → List Chunk → Prop
  | _, [] => True
  | va, c :: cs => Translates page_table c.memory va c.pa c.len ∧ Follow ((va + c.len) % 2 ^ 64) cs

end Copy

variable {σ : Type} {vm : σ → VirtualMemory} {page_table a b pa dst size done n : ℕ}
  {call : ℕ → ℕ → σ → FsProg (ℕ × σ)} {v : VirtualMemory} {s : σ} {d : Disk}

/-! ## Translation -/

theorem walk_find (v : VirtualMemory) (va pte i k : ℕ) : ∃ r, v.walk va false pte i k = .ok (r, v) := by
  induction k generalizing pte i with
  | zero => exact ⟨_, rfl⟩
  | succ k ih =>
    rw [walk]
    split
    · exact ⟨none, rfl⟩
    · exact ih _ _

theorem getPTE_find (v : VirtualMemory) (root va level : ℕ) :
    ∃ pte, v.getPTE root va false level = .ok (pte, v) := by
  rw [getPTE]
  split
  · exact ⟨0, rfl⟩
  · split
    · exact ⟨0, rfl⟩
    · obtain ⟨r, hr⟩ := walk_find v (if va % PGSIZE ≠ 0 then addrCastDown va else va) root 2 (level - 1)
      simp only [hr, ok_bind]
      cases r with
      | none => exact ⟨0, rfl⟩
      | some pte => exact ⟨_, rfl⟩

/-- `VAToPA` returns the null pointer for an address that is not mapped. -/
theorem vaToPA_translate (v : VirtualMemory) (page_table va : ℕ) :
    ∃ k, v.vaToPA page_table va 0 = .ok ((translate v page_table va).getD 0, k) := by
  obtain ⟨pte, hpte⟩ := getPTE_find v page_table va 3
  simp only [vaToPA, translate, hpte, ok_bind]
  split
  · exact ⟨0, rfl⟩
  · exact ⟨_, rfl⟩

/-- A page is mapped as a whole. -/
theorem translate_page (ha : a < 2 ^ 64) (h : translate v page_table a = some pa) :
    pa % 4096 = a % 4096 ∧ ∀ j, a % 4096 + j < 4096 →
      translate v page_table (a + j) = some (pa + j) := by
  obtain ⟨pte, hpte⟩ := getPTE_find v page_table a 3
  simp only [translate, hpte, PGSIZE] at h
  split at h
  · cases h
  · next hv =>
    have hal := pteTarget_aligned (v.mem.load pte 8)
    have hpa := Option.some.inj h
    refine ⟨by omega, fun j hj => ?_⟩
    have hpage : v.getPTE page_table (a + j) false 3 = .ok (pte, v) := by
      rw [getPTE_congr (show a + j < 2 ^ 64 by omega) ha (by omega), hpte]
    simp only [translate, hpage, if_neg hv, PGSIZE, Option.some.injEq]
    omega

/-! ## The loop -/

/-- The chunks are those that `safe_copy` passes. -/
theorem run_safeCopy_eq (done : ℕ) (s : σ) (d : Disk) :
    (safeCopy vm page_table call dst size done s).run d =
      (eachChunk call (chunks vm page_table call dst size s d) done s).run d := by
  induction size using Nat.strong_induction_on generalizing dst done s d with
  | _ size ih =>
  rw [safeCopy, chunks]
  by_cases hpos : size > 0
  · obtain ⟨k, hpa⟩ := vaToPA_translate (vm s) page_table dst
    rw [dif_pos hpos, dif_pos hpos, hpa]
    generalize (translate (vm s) page_table dst).getD 0 = pa
    have hmod : pa % 4096 < 4096 := Nat.mod_lt _ (by omega)
    simp only [eachChunk, PGSIZE, run_bind]
    cases hrun : (call pa (min (4096 - pa % 4096) size) s).run d with
    | mk r d' =>
      cases r with
      | error e => rfl
      | ok r =>
        obtain ⟨ret, s'⟩ := r
        by_cases hret : ret < min (4096 - pa % 4096) size
        · simp only [hret, if_true]
        · simp only [hret, if_false]
          exact ih _ (by omega) _ _ _
  · rw [dif_neg hpos, dif_neg hpos, eachChunk]

/-- The chunks from a mapped address on. -/
theorem chunks_of_translate (hpos : size > 0) (hdst : dst < 2 ^ 64)
    (h : translate (vm s) page_table dst = some pa) :
    chunks vm page_table call dst size s d = ⟨vm s, pa, min (4096 - dst % 4096) size⟩ ::
      match (call pa (min (4096 - dst % 4096) size) s).run d with
        | (.error _, _) => []
        | (.ok (ret, s), d) =>
          if ret < min (4096 - dst % 4096) size then []
          else chunks vm page_table call ((dst + min (4096 - dst % 4096) size) % 2 ^ 64)
            (size - min (4096 - dst % 4096) size) s d := by
  obtain ⟨k, hpa⟩ := vaToPA_translate (vm s) page_table dst
  rw [h, Option.getD_some] at hpa
  rw [chunks, dif_pos hpos, hpa]
  simp only [PGSIZE, (translate_page hdst h).1]

/-- At an address that is not mapped the first chunk is at the null pointer. -/
theorem chunks_of_unmapped (hpos : size > 0) (h : translate (vm s) page_table dst = none) :
    ∃ cs, chunks vm page_table call dst size s d = ⟨vm s, 0, min 4096 size⟩ :: cs := by
  obtain ⟨k, hpa⟩ := vaToPA_translate (vm s) page_table dst
  rw [h, Option.getD_none] at hpa
  rw [chunks, dif_pos hpos, hpa]
  exact ⟨_, rfl⟩

/-- Where the pages are mapped, the chunks are translations. -/
theorem MappedAhead.follow (h : MappedAhead vm page_table call dst size s d) (hdst : dst < 2 ^ 64) :
    Follow page_table dst (chunks vm page_table call dst size s d) := by
  induction h with
  | done dst s d =>
    rw [chunks, dif_neg (Nat.lt_irrefl 0)]
    trivial
  | @page dst size pa s d hpage hrest ih =>
    by_cases hpos : size > 0
    · have hp : dst % 4096 < 4096 := Nat.mod_lt _ (by omega)
      obtain ⟨hmod, hcont⟩ := translate_page hdst hpage
      rw [chunks_of_translate hpos hdst hpage]
      refine ⟨⟨?_, fun j hj => hcont j ?_⟩, ?_⟩
      · show dst % 4096 + min (4096 - dst % 4096) size ≤ 4096
        omega
      · have hj : j < min (4096 - dst % 4096) size := hj
        omega
      · cases hrun : (call pa (min (4096 - dst % 4096) size) s).run d with
        | mk r d' =>
          cases r with
          | error e => trivial
          | ok r =>
            obtain ⟨ret, s'⟩ := r
            by_cases hret : ret < min (4096 - dst % 4096) size
            · simp only [hret, if_true]
              trivial
            · simp only [hret, if_false]
              exact ih ret s' d' hrun (not_lt.mp hret) (Nat.mod_lt _ (by omega))
    · rw [chunks, dif_neg hpos]
      trivial

/-- Where the pages are mapped, the loop does what one does that stops where they are not. -/
theorem MappedAhead.run_eq (h : MappedAhead vm page_table call dst size s d) (hdst : dst < 2 ^ 64)
    (done : ℕ) : (safeCopy vm page_table call dst size done s).run d =
      (copyMapped vm page_table call dst size done s).run d := by
  induction h generalizing done with
  | done dst s d => rw [safeCopy, copyMapped, dif_neg (Nat.lt_irrefl 0), dif_neg (Nat.lt_irrefl 0)]
  | @page dst size pa s d hpage hrest ih =>
    rw [safeCopy, copyMapped]
    by_cases hpos : size > 0
    · obtain ⟨hmod, -⟩ := translate_page hdst hpage
      obtain ⟨k, hpa⟩ := vaToPA_translate (vm s) page_table dst
      rw [hpage, Option.getD_some] at hpa
      rw [dif_pos hpos, dif_pos hpos, hpa, hpage]
      simp only [PGSIZE, hmod, run_bind]
      cases hrun : (call pa (min (4096 - dst % 4096) size) s).run d with
      | mk r d' =>
        cases r with
        | error e => rfl
        | ok r =>
          obtain ⟨ret, s'⟩ := r
          by_cases hret : ret < min (4096 - dst % 4096) size
          · simp only [hret, if_true]
          · simp only [hret, if_false]
            exact ih ret s' d' hrun (not_lt.mp hret) (Nat.mod_lt _ (by omega)) _
    · rw [dif_neg hpos, dif_neg hpos]

/-- If all chunks are translations, the pages are mapped. -/
theorem mappedAhead_of_follow (hdst : dst < 2 ^ 64)
    (h : Follow page_table dst (chunks vm page_table call dst size s d)) :
    MappedAhead vm page_table call dst size s d := by
  induction size using Nat.strong_induction_on generalizing dst s d with
  | _ size ih =>
  by_cases hpos : size > 0
  · obtain ⟨k, hpa⟩ := vaToPA_translate (vm s) page_table dst
    have hmod : (translate (vm s) page_table dst).getD 0 % 4096 < 4096 := Nat.mod_lt _ (by omega)
    have hmod' : dst % 4096 < 4096 := Nat.mod_lt _ (by omega)
    -- the first chunk has a byte
    have hpage : translate (vm s) page_table dst = some ((translate (vm s) page_table dst).getD 0) := by
      rw [chunks, dif_pos hpos, hpa] at h
      exact h.1.2 0 (lt_min (Nat.sub_pos_of_lt hmod) hpos)
    rw [chunks_of_translate hpos hdst hpage] at h
    refine .page hpage fun ret s' d' hrun hret => ?_
    have hrun : (call ((translate (vm s) page_table dst).getD 0)
        (min (4096 - dst % 4096) size) s).run d =
        (.ok (ret, s'), d') := hrun
    have hret : ¬ ret < min (4096 - dst % 4096) size := not_lt.mpr hret
    have hrest := h.2
    simp only [hrun, hret, if_false] at hrest
    have hlt : size - min (4096 - dst % 4096) size < size := by omega
    exact ih _ hlt (Nat.mod_lt _ (by omega)) hrest
  · obtain rfl := Nat.eq_zero_of_not_pos hpos
    exact .done dst s d

/-- A buffer of which all pages are mapped, where the memory stays. -/
theorem mappedAhead_of_buffer {call : ℕ → ℕ → σ → FsProg (ℕ × σ)} (hdst : dst < 2 ^ 64)
    (h : ∀ k < size, translate v page_table ((dst + k) % 2 ^ 64) ≠ none) (s : σ) (d : Disk) :
    MappedAhead (fun _ => v) page_table call dst size s d := by
  induction size using Nat.strong_induction_on generalizing dst s d with
  | _ size ih =>
  by_cases hpos : size > 0
  · have hfirst := h 0 hpos
    rw [Nat.add_zero, Nat.mod_eq_of_lt hdst] at hfirst
    obtain ⟨pa, hpa⟩ := Option.ne_none_iff_exists'.mp hfirst
    have hp : dst % 4096 < 4096 := Nat.mod_lt _ (by omega)
    have hlt : size - min (PGSIZE - dst % PGSIZE) size < size := by
      simp only [PGSIZE]
      omega
    refine .page hpa fun ret s' d' _ _ => ih _ hlt (Nat.mod_lt _ (by omega)) (fun k hk => ?_) s' d'
    rw [Nat.mod_add_mod, Nat.add_assoc]
    exact h _ (by omega)
  · obtain rfl := Nat.eq_zero_of_not_pos hpos
    exact .done dst s d

/-- `safe_copy` touches mapped memory only, and stops at an address that is not mapped, exactly when
every page that it gets to is mapped. -/
theorem safeCopy_onlyMapped_iff (call : ℕ → ℕ → σ → FsProg (ℕ × σ)) (s : σ) (d : Disk) (size : ℕ)
    (hdst : dst < 2 ^ 64) :
    Follow page_table dst (chunks vm page_table call dst size s d) ∧
        (safeCopy vm page_table call dst size 0 s).run d =
          (copyMapped vm page_table call dst size 0 s).run d ↔
      MappedAhead vm page_table call dst size s d :=
  ⟨fun h => mappedAhead_of_follow hdst h.1, fun h => ⟨h.follow hdst, h.run_eq hdst 0⟩⟩

/-- Two bytes in two pages. -/
theorem safeCopy_onlyMapped_pages :
    Follow 4096 4095 (chunks (fun _ => sampleMemory) 4096 (fun _ len s => return (len, s)) 4095 2 ()
      (sampleDisk 100)) := by
  have hbuf : ∀ k < 2, translate sampleMemory 4096 ((4095 + k) % 2 ^ 64) ≠ none := by decide +kernel
  exact ((safeCopy_onlyMapped_iff _ () (sampleDisk 100) 2 (by decide)).mpr
    (mappedAhead_of_buffer (by decide) hbuf () _)).1

/-- A write of one byte of page 2, which is not mapped, hands over the byte at the null pointer. -/
theorem safeCopy_unmapped : translate sampleMemory 4096 8192 = none ∧
    ∃ cs, chunks (fun _ => sampleMemory) 4096
    (fun _ len s => return (len, s)) 8192 1 () (sampleDisk 100) =
        ⟨sampleMemory, 0, 1⟩ :: cs ∧ ¬ Follow 4096 8192 (⟨sampleMemory, 0, 1⟩ :: cs) := by
  have hnone : translate sampleMemory 4096 8192 = none := by decide +kernel
  obtain ⟨cs, hcs⟩ : ∃ cs, chunks (fun _ => sampleMemory) 4096 (fun _ len s => return (len, s)) 8192 1 ()
      (sampleDisk 100) = ⟨sampleMemory, 0, 1⟩ :: cs := chunks_of_unmapped Nat.one_pos hnone
  refine ⟨hnone, cs, hcs, fun h => ?_⟩
  have hfirst := h.1.2 0 Nat.one_pos
  rw [Nat.add_zero, hnone] at hfirst
  cases hfirst

end OrangeOs.Kernel
