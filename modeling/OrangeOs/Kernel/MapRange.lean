import OrangeOs.Kernel.MapRollback
import OrangeOs.Kernel.UserSpace

/-! # A range of pages

What a process sees after `MapMemory`: zeros in the pages of the range, whether they were mapped
before or not, and what it saw before everywhere else.
-/

namespace OrangeOs.Kernel

open Memory VirtualMemory

variable {root va vb a b c i k n N pa beg va_beg va_end : ℕ} {L L' P : List ℕ} {v v' w : VirtualMemory}
  {T T' : List (Fin 512) → Option ℕ} {q : List (Fin 512)} {r : Bool}

/-! ## `Alloc` without a page faults -/

namespace VirtualMemory

theorem alloc_ne_zero (h : v.alloc = .ok (c, v')) : v.head_ ≠ 0 ∧ c ≠ 0 := by
  have hhead : v.head_ ≠ 0 := by
    intro h0
    rw [alloc, pop, h0, if_pos rfl] at h
    cases h
  have hpop : v.pop.1 = v.head_ := by
    rw [pop, if_neg hhead]
    dsimp only
    split
    · rfl
    · rfl
  obtain ⟨v₁, -, hv₁⟩ := bind_eq_ok.mp h
  have hc : v.pop.1 = c := (Prod.mk.inj (Except.ok.inj hv₁)).1
  refine ⟨hhead, ?_⟩
  rw [← hc, hpop]
  exact hhead

/-- With a page left the two agree. -/
theorem alloc_of_allocOrNull (h : v.allocOrNull = .ok (c, v')) (hc : c ≠ 0) : v.alloc = .ok (c, v') := by
  rw [allocOrNull] at h
  split at h
  · exact absurd (Prod.mk.inj (Except.ok.inj h)).1.symm hc
  · exact h

/-- A walk that allocates ends at a table. -/
theorem walk_ne_none {o : Option ℕ} (h : v.walk va true a i k = .ok (o, v')) : o ≠ none := by
  induction k generalizing v a i with
  | zero =>
    rw [walk] at h
    obtain ⟨rfl, -⟩ := Prod.mk.inj (Except.ok.inj h)
    exact Option.some_ne_none _
  | succ k ih =>
    rw [walk] at h
    split at h
    · rw [if_pos rfl] at h
      obtain ⟨⟨c, v₁⟩, halloc, hrest⟩ := bind_eq_ok.mp h
      simp only [if_neg (alloc_ne_zero halloc).2] at hrest
      exact ih hrest
    · exact ih h

/-! ## Calls that succeed do not meet the end of the list -/

theorem walk_of_some (h : walkWith allocOrNull v va true a i k = .ok (some b, v')) :
    v.walk va true a i k = .ok (some b, v') := by
  induction k generalizing v a i with
  | zero => exact h
  | succ k ih =>
    rw [walkWith] at h
    rw [walk]
    split
    · next hv =>
      rw [if_pos hv, if_pos rfl] at h
      rw [if_pos rfl]
      obtain ⟨⟨c, v₁⟩, halloc, hrest⟩ := bind_eq_ok.mp h
      by_cases hc : c = 0
      · simp only [if_pos hc] at hrest
        cases hrest
      · simp only [if_neg hc] at hrest
        refine bind_eq_ok.mpr ⟨_, alloc_of_allocOrNull halloc hc, ?_⟩
        simp only [if_neg hc]
        exact ih hrest
    · next hv =>
      rw [if_neg hv] at h
      exact ih h

theorem getPTE_of_ne_zero {pte : ℕ}
    (h : getPTEWith allocOrNull v root va true n = .ok (pte, v')) (hne : pte ≠ 0) :
    v.getPTE root va true n = .ok (pte, v') := by
  unfold getPTEWith at h
  unfold getPTE
  split at h
  · next h₁ => rwa [if_pos h₁]
  · next h₁ =>
    rw [if_neg h₁]
    split at h
    · next h₂ => rwa [if_pos h₂]
    · next h₂ =>
      rw [if_neg h₂]
      obtain ⟨⟨o, v₁⟩, hwalk, hrest⟩ := bind_eq_ok.mp h
      cases o with
      | none => exact absurd (Prod.mk.inj (Except.ok.inj hrest)).1.symm hne
      | some b => exact bind_eq_ok.mpr ⟨_, walk_of_some hwalk, hrest⟩

theorem mapPage_of_true (h : mapPageWith allocOrNull v root va pa k = .ok (true, v')) :
    v.mapPage root va pa k = .ok (true, v') := by
  unfold mapPageWith at h
  unfold mapPage
  split at h
  · cases h
  split at h
  · cases h
  split at h
  · cases h
  split at h
  · cases h
  · next h₁ h₂ h₃ h₄ =>
    rw [if_neg h₁, if_neg h₂, if_neg h₃, if_neg h₄]
    obtain ⟨⟨pte, v₁⟩, hget, hrest⟩ := bind_eq_ok.mp h
    by_cases hpte : pte = 0
    · simp only [if_pos hpte] at hrest
      cases hrest
    · exact bind_eq_ok.mpr ⟨_, getPTE_of_ne_zero hget hpte, hrest⟩

theorem mapFrom_of_true (h : mapFromWith allocOrNull v root beg i va_end k = .ok (true, v')) :
    v.mapFrom root beg i va_end k = .ok (true, v') := by
  fun_induction VirtualMemory.mapFrom v root beg i va_end k with
  | case1 v i hlt ih =>
    rw [mapFromWith, dif_pos hlt] at h
    -- after the cleanup the result is false
    have hfail : ∀ v₁ : VirtualMemory, (do let v ← v₁.freeMemory root beg i 3; pure (false, v)) ≠
        (Except.ok (true, v') : Except Fault (Bool × VirtualMemory)) := by
      intro v₁ he
      obtain ⟨v₂, -, hfalse⟩ := bind_eq_ok.mp he
      cases hfalse
    obtain ⟨⟨c, v₁⟩, halloc, hrest⟩ := bind_eq_ok.mp h
    by_cases hc : c = 0
    · simp only [if_pos hc] at hrest
      exact absurd hrest (hfail v₁)
    · simp only [if_neg hc] at hrest
      refine bind_eq_ok.mpr ⟨_, alloc_of_allocOrNull halloc hc, ?_⟩
      simp only [if_neg hc]
      obtain ⟨⟨mapped, v₂⟩, hmap, hrest⟩ := bind_eq_ok.mp hrest
      cases mapped with
      | false =>
        simp only [Bool.false_eq_true, if_false] at hrest
        exact absurd hrest (hfail v₂)
      | true =>
        refine bind_eq_ok.mpr ⟨_, mapPage_of_true hmap, ?_⟩
        simp only [if_true] at hrest ⊢
        exact ih _ hrest
  | case2 v i hge =>
    rw [mapFromWith, dif_neg hge] at h
    exact h

theorem mapMemory_of_true (h : mapMemoryWith allocOrNull v root va_beg va_end k = .ok (true, v')) :
    v.mapMemory root va_beg va_end k = .ok (true, v') := mapFrom_of_true h

end VirtualMemory

/-! ## `MapMemory` of pages that can be mapped -/

/-- `MapPage` of such a page returns true, or faults for want of a page. -/
theorem Tables.mapPage_ok (h : Tables 2 v root T L) (hpa : pa % 4096 = 0) (hle : pa ≤ MEMORY_END)
    (hva : va % 4096 = 0) (hmax : va ≤ MAX_SUPPORT_VA)
    (hmap : v.mapPage root va pa k = .ok (r, v')) : r = true := by
  have hsize : PGSIZE = 4096 := rfl
  have hroot := h.root_page
  rw [VirtualMemory.mapPage, if_neg hroot.ne_zero, if_neg (by omega), if_neg (by omega),
    if_neg (by rw [hsize, hroot.aligned, hva, hpa]; simp)] at hmap
  obtain ⟨⟨pte, v₁⟩, hget, hrest⟩ := bind_eq_ok.mp hmap
  have hne : pte ≠ 0 := by
    rw [getPTE, if_neg hroot.ne_zero, if_neg (by omega)] at hget
    obtain ⟨⟨o, v₂⟩, hwalk, hpte⟩ := bind_eq_ok.mp hget
    have hsome := walk_ne_none hwalk
    rw [if_neg (by rw [hsize]; omega), ← walkWith_alloc] at hwalk
    obtain ⟨o', v₃, T', L', hwalk', h', -, -, hcase⟩ := h.walk_spec va 2 2 h.isTree.root (by simp)
    have hsame := walkWith_mono (fun _ _ => allocOrNull_of_alloc) hwalk
    obtain ⟨rfl, rfl⟩ := Prod.mk.inj (Except.ok.inj (hsame.symm.trans hwalk'))
    rcases hcase with ⟨ho, -⟩ | ⟨b, rfl, hb, -⟩
    · exact absurd ho hsome
    · obtain ⟨rfl, -⟩ := Prod.mk.inj (Except.ok.inj hpte)
      have := (h'.page _ b hb).ne_zero
      omega
  simp only [if_neg hne] at hrest
  exact (Prod.mk.inj (Except.ok.inj hrest)).1.symm

/-- The loop of `MapMemory`. -/
theorem MappedRange.mapFrom_ok (h : MappedRange v root T L beg k P v' T' L') (hbeg : beg % 4096 = 0)
    (hend : beg + 4096 * N ≤ 2 ^ 38) (hk : k < 1024) (hn : P.length + n = N)
    (hrun : v'.mapFrom root beg (beg + 4096 * P.length) (beg + 4096 * N) k = .ok (r, w)) :
    r = true ∧ ∃ P' T'' L'', MappedRange v root T L beg k P' w T'' L'' ∧ P'.length = N := by
  have hMAX : MAX_SUPPORT_VA = 2 ^ 38 - 1 := rfl
  induction n generalizing P v' T' L' with
  | zero =>
    rw [VirtualMemory.mapFrom, dif_neg (by omega)] at hrun
    obtain ⟨rfl, rfl⟩ := Prod.mk.inj (Except.ok.inj hrun)
    exact ⟨rfl, P, T', L', h, hn⟩
  | succ n ih =>
    rw [VirtualMemory.mapFrom, dif_pos (by omega)] at hrun
    obtain ⟨⟨c, v₁⟩, halloc, hrun⟩ := bind_eq_ok.mp hrun
    obtain ⟨hhead, hc⟩ := alloc_ne_zero halloc
    cases L' with
    | nil => exact absurd h.tables.list.head_nil hhead
    | cons d L' =>
      obtain ⟨v₂, r', v₃, T₂, L₂, halloc', hd, hmap, h₂, hapart, hcase⟩ := h.step hbeg hk
      obtain ⟨rfl, rfl⟩ := Prod.mk.inj (Except.ok.inj ((allocOrNull_of_alloc halloc).symm.trans halloc'))
      obtain ⟨v₂, halloc'', h₁, -⟩ := h.tables.allocOrNull_cons
      obtain ⟨-, rfl⟩ := Prod.mk.inj (Except.ok.inj (halloc'.symm.trans halloc''))
      simp only [if_neg hc] at hrun
      obtain ⟨⟨mapped, v₄⟩, hmap', hrun⟩ := bind_eq_ok.mp hrun
      have hdend := hd.lt
      obtain rfl := h₁.mapPage_ok hd.aligned (by rw [MEMORY_END_eq]; omega) (by omega) (by omega) hmap'
      obtain ⟨rfl, rfl⟩ := Prod.mk.inj (Except.ok.inj ((mapPageWith_of_mapPage hmap').symm.trans hmap))
      rcases hcase with ⟨-, h'⟩ | ⟨hr, -⟩
      · have hnext : beg + 4096 * P.length + PGSIZE = beg + 4096 * (P ++ [c]).length := by
          rw [List.length_append, List.length_singleton, show PGSIZE = 4096 from rfl,
            Nat.mul_add, Nat.add_assoc]
        simp only [if_true, hnext] at hrun
        exact ih h' (by rw [List.length_append, List.length_singleton]; omega) hrun
      · cases hr

/-- `MapMemory` of a range within the addresses that can be mapped. -/
theorem Tables.mapMemory_ok (h : Tables 2 v root T L) (hbeg : va_beg < 2 ^ 64)
    (hend : addrCastDown va_beg + 4096 * pageCount va_beg va_end ≤ 2 ^ 38) (hk : k < 1024)
    (hrun : v.mapMemory root va_beg va_end k = .ok (r, w)) :
    r = true ∧ ∃ P T' L', MappedRange v root T L (addrCastDown va_beg) k P w T' L' ∧
      P.length = pageCount va_beg va_end := by
  have hdown := addrCastDown_eq hbeg
  refine (MappedRange.nil _ k h).mapFrom_ok (by omega) hend hk (Nat.zero_add _) ?_
  rw [← hrun, ← mapMemoryWith_alloc, mapMemoryWith_eq VirtualMemory.alloc v root k hbeg,
    mapFromWith_alloc, List.length_nil,
    Nat.mul_zero, Nat.add_zero]

/-- With enough free pages it succeeds. -/
theorem Tables.mapMemory_true (h : Tables 2 v root T L) (hbeg : va_beg < 2 ^ 64)
    (hend : addrCastDown va_beg + 4096 * pageCount va_beg va_end ≤ 2 ^ 38) (hk : k < 1024)
    (hcost : cost T (addrCastDown va_beg) (pageCount va_beg va_end) ≤ L.length) :
    ∃ w, v.mapMemory root va_beg va_end k = .ok (true, w) := by
  have hMAX : MAX_SUPPORT_VA = 2 ^ 38 - 1 := rfl
  obtain ⟨r, w, heq, hrun⟩ := mapMemory_end va_end h hk hbeg
  have hmono := cost_strictMono T (addrCastDown va_beg)
  cases hrun with
  | mapped => exact ⟨w, mapMemory_of_true heq⟩
  | exhausted hmapped hN =>
    have hcount := hmapped.count
    have := hmono hN
    rw [List.length_nil] at hcount
    omega
  | lost hmapped hN hrefused =>
    have := hrefused (by omega)
    have := hmono.monotone (Nat.succ_le_of_lt hN)
    simp only [Nat.succ_eq_add_one] at this
    omega

/-! ## What the process sees -/

/-- The byte that a process sees at an address. -/
def userByte (v : VirtualMemory) (root va : ℕ) : Option UInt8 := (translate v root va).map v.mem

theorem MappedRange.mem_of_notMem (h : MappedRange v root T L beg k P w T' L')
    (hs : UserSpace v root T L)
    (hv : leaf v.mem T va &&& PTE.V ≠ 0) (hoff : n < 4096) :
    w.mem (pteTarget (leaf v.mem T va) + n) = v.mem (pteTarget (leaf v.mem T va) + n) := by
  obtain ⟨hp, hpL, hpT⟩ := hs.user_page va hv
  exact h.same _ (hs.page_apart hp hpL hpT (by omega) (by simp only [PGSIZE]; omega))

/-- The pages of the range are new, and the others are as before. -/
theorem UserSpace.mapped (hs : UserSpace v root T L) (h : MappedRange v root T L beg k P w T' L')
    (hk : k < 1024) : UserSpace w root T' L' := by
  have hcase : ∀ va, leaf w.mem T' va &&& PTE.V ≠ 0 →
      (∃ n, ∃ hn : n < P.length, path va = path (beg + 4096 * n) ∧ pteTarget (leaf w.mem T' va) = P[n]) ∨
        leaf w.mem T' va = leaf v.mem T va := by
    intro va hv
    by_cases hin : ∃ n < P.length, path va = path (beg + 4096 * n)
    · obtain ⟨n, hn, hpath⟩ := hin
      have hp := (h.page _ (List.getElem_mem hn)).1
      have hp' := hp.lt
      obtain ⟨-, -, htarget, -⟩ := entry_flags hp.aligned (by rw [MEMORY_END_eq]; omega) hk
      refine .inl ⟨n, hn, hpath, ?_⟩
      rw [leaf_congr hpath, h.mapped n hn, htarget]
    · exact .inr (h.other va fun n hn hpath => hin ⟨n, hn, hpath⟩)
  have hold : ∀ va, leaf w.mem T' va &&& PTE.V ≠ 0 → leaf w.mem T' va = leaf v.mem T va →
      IsPage (pteTarget (leaf w.mem T' va)) ∧ pteTarget (leaf w.mem T' va) ∉ L ∧
        ∀ q, T q ≠ some (pteTarget (leaf w.mem T' va)) := by
    intro va hv he
    rw [he] at hv ⊢
    exact hs.user_page va hv
  refine ⟨h.tables, fun va hv => ?_, fun va vb hv hv' he => ?_⟩
  · rcases hcase va hv with ⟨n, hn, -, htarget⟩ | hsame
    · rw [htarget]
      exact h.page _ (List.getElem_mem hn)
    · obtain ⟨hp, hpL, hpT⟩ := hold va hv hsame
      refine ⟨hp, fun hL' => hpL (h.sub (List.mem_append_right _ hL')), fun q hq => ?_⟩
      rcases h.new q _ hq with hq | hL
      · exact hpT q hq
      · exact hpL hL
  · have hmem : ∀ n (hn : n < P.length), P[n] ∈ L := fun n hn =>
      h.sub (List.mem_append_left _ (List.getElem_mem hn))
    rcases hcase va hv with ⟨n, hn, hpath, htarget⟩ | hsame
    · rcases hcase vb hv' with ⟨n', hn', hpath', htarget'⟩ | hsame'
      · rw [htarget, htarget'] at he
        rw [hpath, hpath', (List.Nodup.getElem_inj_iff h.nodup).mp he]
      · exact absurd (hmem n hn) (by rw [← htarget, he]; exact (hold vb hv' hsame').2.1)
    · rcases hcase vb hv' with ⟨n', hn', hpath', htarget'⟩ | hsame'
      · exact absurd (hmem n' hn') (by rw [← htarget', ← he]; exact (hold va hv hsame).2.1)
      · rw [hsame] at hv he
        rw [hsame'] at hv' he
        exact hs.user_inj va vb hv hv' he

/-- A process sees zeros in the new pages. -/
theorem UserSpace.userByte_mapped (hs : UserSpace v root T L)
    (h : MappedRange v root T L beg k P w T' L')
    (hk : k < 1024) (hbeg : beg % 4096 = 0) (hend : beg + 4096 * P.length ≤ 2 ^ 38) (ha : a < 2 ^ 38) :
    userByte w root a = if beg ≤ a ∧ a < beg + 4096 * P.length then some 0 else userByte v root a := by
  have hmod : a % 4096 < 4096 := Nat.mod_lt _ (by omega)
  unfold userByte
  rw [translate_leaf h.tables (by omega)]
  by_cases hin : beg ≤ a ∧ a < beg + 4096 * P.length
  · rw [if_pos hin]
    obtain ⟨n, hn⟩ : ∃ n, n = (a - beg) / 4096 := ⟨_, rfl⟩
    have hnP : n < P.length := by omega
    have hpath : path a = path (beg + 4096 * n) := (path_inj (by omega) (by omega)).mpr (by omega)
    have hp := (h.page _ (List.getElem_mem hnP)).1
    have hp' := hp.lt
    obtain ⟨-, hvalid, htarget, -⟩ := entry_flags hp.aligned (by rw [MEMORY_END_eq]; omega) hk
    rw [leaf_congr hpath, h.mapped n hnP, if_neg hvalid, htarget, Option.map_some,
      h.zero _ (List.getElem_mem hnP) _ (by omega) (by simp only [PGSIZE]; omega)]
  · rw [if_neg hin]
    have hleaf : leaf w.mem T' a = leaf v.mem T a := by
      refine h.other a fun n hn hpath => ?_
      have := (path_inj (by omega) (by omega)).mp hpath
      omega
    rw [hleaf, translate_leaf hs.toTables (by omega)]
    split
    · rfl
    · next hv => rw [Option.map_some, Option.map_some, h.mem_of_notMem hs hv hmod]

end OrangeOs.Kernel
