import OrangeOs.Kernel.PageTable

/-! # Running out of pages

`Alloc` does not test for an empty list, but its callers test for the null pointer. Here the
functions that allocate are given any `Alloc`; the one that returns the null pointer when there is
no page agrees with the one of `PageTable` wherever that returns.
-/

namespace OrangeOs.Kernel

variable {v : VirtualMemory} {root_page va pa va_beg va_end i k n pte size privilege dst_root_page : ℕ}
  {need_alloc : Bool}

namespace VirtualMemory

/-- `Alloc`, which returns the null pointer when no page is free. -/
def allocOrNull (v : VirtualMemory) : Except Fault (ℕ × VirtualMemory) :=
  if v.head_ = 0 then .ok (0, v) else v.alloc

section

variable (alloc : VirtualMemory → Except Fault (ℕ × VirtualMemory))

/-- The loop of `GetPTE`. -/
def walkWith (v : VirtualMemory) (va : ℕ) (need_alloc : Bool) (pte i : ℕ) :
    ℕ → Except Fault (Option ℕ × VirtualMemory)
  | 0 => .ok (some pte, v)
  | k + 1 =>
    let sub_pte := pte + 8 * vaIndex va i
    if v.mem.load sub_pte 8 &&& PTE.V = 0 then
      if need_alloc then do
        let (page, v) ← alloc v
        if page = 0 then return (none, v)
        else
          let v := { v with mem := v.mem.store sub_pte 8 ((page >>> 2) ||| PTE.V) }
          walkWith v va need_alloc (pteTarget (v.mem.load sub_pte 8)) (i - 1) k
      else .ok (none, v)
    else walkWith v va need_alloc (pteTarget (v.mem.load sub_pte 8)) (i - 1) k

def getPTEWith (v : VirtualMemory) (root_page va : ℕ) (need_alloc : Bool) (level : ℕ) :
    Except Fault (ℕ × VirtualMemory) :=
  if root_page = 0 then .ok (0, v)
  else if level < 1 ∨ level > 3 then .ok (0, v)
  else do
    let va := if va % PGSIZE ≠ 0 then addrCastDown va else va
    match ← walkWith alloc v va need_alloc root_page 2 (level - 1) with
    | (none, v) => return (0, v)
    | (some pte, v) => return (pte + 8 * vaIndex va (3 - level), v)

def mapPageWith (v : VirtualMemory) (root_page va pa privilege : ℕ) :
    Except Fault (Bool × VirtualMemory) :=
  if root_page = 0 then .ok (false, v)
  else if pa > MEMORY_END then .ok (false, v)
  else if va > MAX_SUPPORT_VA then .ok (false, v)
  else if root_page % PGSIZE ≠ 0 ∨ va % PGSIZE ≠ 0 ∨ pa % PGSIZE ≠ 0 then .ok (false, v)
  else do
    let (pte, v) ← getPTEWith alloc v root_page va true 3
    if pte = 0 then return (false, v)
    else return (true, { v with mem := v.mem.store pte 8 ((pa >>> 2) ||| PTE.V ||| privilege) })

/-- The loop of `MapMemory`. -/
def mapFromWith (v : VirtualMemory) (root_page va_beg i va_end privilege : ℕ) :
    Except Fault (Bool × VirtualMemory) :=
  if _h : i < va_end then do
    let (page, v) ← alloc v
    if page = 0 then
      let v ← v.freeMemory root_page va_beg i 3
      return (false, v)
    else
      let (mapped, v) ← mapPageWith alloc v root_page i page privilege
      if mapped then mapFromWith v root_page va_beg (i + PGSIZE) va_end privilege
      else
        let v ← v.freeMemory root_page va_beg i 3
        return (false, v)
  else .ok (true, v)
termination_by va_end - i
decreasing_by simp only [PGSIZE]; omega

def mapMemoryWith (v : VirtualMemory) (root_page va_beg va_end privilege : ℕ) :
    Except Fault (Bool × VirtualMemory) :=
  mapFromWith alloc v root_page (addrCastDown va_beg) (addrCastDown va_beg) (addrCastUp va_end) privilege

end

theorem walkWith_alloc (v : VirtualMemory) (va : ℕ) (need_alloc : Bool) (pte i k : ℕ) :
    walkWith alloc v va need_alloc pte i k = v.walk va need_alloc pte i k := by
  induction k generalizing v pte i with
  | zero => rfl
  | succ k ih => simp only [walkWith, walk, ih]

theorem getPTEWith_alloc (v : VirtualMemory) (root_page va : ℕ) (need_alloc : Bool) (level : ℕ) :
    getPTEWith alloc v root_page va need_alloc level = v.getPTE root_page va need_alloc level := by
  have hwalk : walkWith alloc v = v.walk := by
    funext va need_alloc pte i k
    exact walkWith_alloc v va need_alloc pte i k
  unfold getPTEWith
  rw [hwalk]
  rfl

theorem mapPageWith_alloc (v : VirtualMemory) (root_page va pa privilege : ℕ) :
    mapPageWith alloc v root_page va pa privilege = v.mapPage root_page va pa privilege := by
  simp only [mapPageWith, mapPage, getPTEWith_alloc]

theorem mapFromWith_alloc (v : VirtualMemory) (root_page va_beg i va_end privilege : ℕ) :
    mapFromWith alloc v root_page va_beg i va_end privilege =
      v.mapFrom root_page va_beg i va_end privilege := by
  fun_induction mapFromWith alloc v root_page va_beg i va_end privilege with
  | case1 v i hlt ih =>
    rw [mapFrom, dif_pos hlt]
    simp only [mapPageWith_alloc]
    congr 1
    funext r
    split
    · rfl
    · congr 1
      funext r'
      split
      · exact ih _
      · rfl
  | case2 v i hge => rw [mapFrom, dif_neg hge]

theorem mapMemoryWith_alloc (v : VirtualMemory) (root_page va_beg va_end privilege : ℕ) :
    mapMemoryWith alloc v root_page va_beg va_end privilege =
      v.mapMemory root_page va_beg va_end privilege := by
  rw [mapMemoryWith, mapMemory, mapFromWith_alloc]

/-- What `Alloc` returns, `allocOrNull` returns. -/
theorem allocOrNull_of_alloc {r : ℕ × VirtualMemory} (h : v.alloc = .ok r) : v.allocOrNull = .ok r := by
  rw [allocOrNull, if_neg, h]
  intro h0
  rw [alloc, pop, h0, if_pos rfl] at h
  cases h

theorem bind_mono {α β : Type} {x x' : Except Fault α} {f f' : α → Except Fault β} {r : β}
    (hx : ∀ a, x = .ok a → x' = .ok a) (hf : ∀ a, f a = .ok r → f' a = .ok r) (h : x >>= f = .ok r) :
    x' >>= f' = .ok r := by
  obtain ⟨a, ha, hr⟩ := bind_eq_ok.mp h
  exact bind_eq_ok.mpr ⟨a, hx a ha, hf a hr⟩

section

variable {alloc alloc' : VirtualMemory → Except Fault (ℕ × VirtualMemory)}
  (hle : ∀ v r, alloc v = .ok r → alloc' v = .ok r)

include hle

theorem walkWith_mono {r : Option ℕ × VirtualMemory}
    (h : walkWith alloc v va need_alloc pte i k = .ok r) :
    walkWith alloc' v va need_alloc pte i k = .ok r := by
  induction k generalizing v pte i with
  | zero => exact h
  | succ k ih =>
    rw [walkWith] at h ⊢
    split
    · next hv =>
      rw [if_pos hv] at h
      split
      · next hn =>
        rw [if_pos hn] at h
        refine bind_mono (hle v) ?_ h
        rintro ⟨page, v₁⟩ hpage
        dsimp only at hpage ⊢
        split at hpage
        · next h0 => rwa [if_pos h0]
        · next h0 =>
          rw [if_neg h0]
          exact ih hpage
      · next hn => rwa [if_neg hn] at h
    · next hv =>
      rw [if_neg hv] at h
      exact ih h

theorem getPTEWith_mono {r : ℕ × VirtualMemory}
    (h : getPTEWith alloc v root_page va need_alloc n = .ok r) :
    getPTEWith alloc' v root_page va need_alloc n = .ok r := by
  unfold getPTEWith at h ⊢
  split
  · next h₁ => rwa [if_pos h₁] at h
  · next h₁ =>
    rw [if_neg h₁] at h
    split
    · next h₂ => rwa [if_pos h₂] at h
    · next h₂ =>
      rw [if_neg h₂] at h
      exact bind_mono (fun _ => walkWith_mono hle) (fun _ ha => ha) h

theorem mapPageWith_mono {r : Bool × VirtualMemory} (h : mapPageWith alloc v root_page va pa n = .ok r) :
    mapPageWith alloc' v root_page va pa n = .ok r := by
  unfold mapPageWith at h ⊢
  split_ifs with h₁ h₂ h₃ h₄
  · rwa [if_pos h₁] at h
  · rwa [if_neg h₁, if_pos h₂] at h
  · rwa [if_neg h₁, if_neg h₂, if_pos h₃] at h
  · rwa [if_neg h₁, if_neg h₂, if_neg h₃, if_pos h₄] at h
  · rw [if_neg h₁, if_neg h₂, if_neg h₃, if_neg h₄] at h
    exact bind_mono (fun _ => getPTEWith_mono hle) (fun _ ha => ha) h

end

/-- `MapPage` with the null pointer does what `MapPage` does. -/
theorem mapPageWith_of_mapPage {r : Bool × VirtualMemory}
    (h : v.mapPage root_page va pa privilege = .ok r) :
    mapPageWith allocOrNull v root_page va pa privilege = .ok r :=
  mapPageWith_mono (fun _ _ => allocOrNull_of_alloc) ((mapPageWith_alloc ..).trans h)

end VirtualMemory

end OrangeOs.Kernel
