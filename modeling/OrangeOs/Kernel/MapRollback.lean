import OrangeOs.Kernel.MapPage

/-! # A mapping that fails

`MapMemory` undoes its work by freeing the pages before the one that failed. The page that `MapPage`
refused is not among them, and an address that was mapped before the call is not mapped after it.
-/

namespace OrangeOs.Kernel

open Memory VirtualMemory

variable {root va vb a b c e i j k n N beg va_beg va_end : ℕ} {L L' P : List ℕ} {v v' w : VirtualMemory}
  {T T' : List (Fin 512) → Option ℕ} {q : List (Fin 512)} {M M' : Finset (List (Fin 512))}

/-! ## Pages that are freed -/

namespace Tables

theorem unique {d : ℕ} (h : Tables d v root T L) (h' : Tables d v root T' L') : T = T' ∧ L = L' :=
  ⟨h.isTree.eq_tree.trans h'.isTree.eq_tree.symm, h.list.unique h'.list⟩

/-- A page that is neither free nor a table is apart from both. -/
theorem page_apart (h : Tables 2 v root T L) (hc : IsPage c) (hcL : c ∉ L)
    (hcT : ∀ q, T q ≠ some c) {x : ℕ}
    (hx : c ≤ x) (hx' : x < c + PGSIZE) : ¬ InPages L x ∧ ¬ InTables T x := by
  have hsize : PGSIZE = 4096 := rfl
  constructor
  · rintro ⟨d, hd, hdx, hdx'⟩
    have := (h.list.page d hd).apart hc fun he => hcL (he ▸ hd)
    omega
  · rintro ⟨q, a, hq, -, hax, hax'⟩
    have := (h.page q a hq).apart hc fun he => hcT q (he ▸ hq)
    omega

/-- A page on the list that is not a table. -/
theorem push_bits {d : ℕ} (h : Tables d v root T L) (hc : IsPage c) (hcL : c ∉ L)
    (hcT : ∀ q, T q ≠ some c)
    (hv : v' = { v.push c with bit_map_ := v'.bit_map_ }) :
    Tables d v' root T (c :: L) ∧ ∀ q a, T q = some a → ∀ x, a ≤ x → x < a + 4096 →
      v'.mem x = v.mem x := by
  have hmem : v'.mem = (v.push c).mem := by rw [hv]
  have hsame : ∀ q a, T q = some a → ∀ x, a ≤ x → x < a + 4096 → v'.mem x = v.mem x := by
    intro q a hq x hx hx'
    rw [hmem]
    refine h.list.push_same c x ?_
    rintro ⟨b, hb, hbx, hbx'⟩
    rcases List.mem_cons.mp hb with rfl | hb
    · have := (h.page q a hq).apart hc fun he => hcT q (he ▸ hq)
      omega
    · exact h.not_inPages hq hx hx' ⟨b, hb, hbx, hbx'⟩
  refine ⟨⟨(h.list.push hc hcL).bits hv, ?_, h.page, h.inj, fun q a hq => ?_⟩, hsame⟩
  · exact h.isTree.congr fun q a i _ hq => child_congr (hsame q a hq) i
  · rw [List.mem_cons, not_or]
    exact ⟨fun he => hcT q (he ▸ hq), h.fresh q a hq⟩

/-- `FreePage` of an address with a valid entry. -/
theorem freePageAt_leaf (va : ℕ) (h : Tables 2 v root T L) (hva : va < 2 ^ 64) (he : leaf v.mem T va = e)
    (hvalid : e &&& PTE.V ≠ 0) (hc : IsPage (pteTarget e)) (hcL : pteTarget e ∉ L)
    (hcT : ∀ q, T q ≠ some (pteTarget e)) :
    ∃ v', v.freePageAt root va 3 = .ok v' ∧ Tables 2 v' root T (pteTarget e :: L) ∧
      ∀ vb, leaf v'.mem T vb = if path vb = path va then 0 else leaf v.mem T vb := by
  have hva' : (if va % PGSIZE ≠ 0 then addrCastDown va else va) < 2 ^ 64 := by
    rw [addrCastDown_eq hva]
    split
    · omega
    · omega
  have hget := getPTE_eq h.isTree h.root_page.ne_zero hva' (show 1 ≤ 3 by omega) le_rfl
      (show 3 ≤ 2 + 1 by omega)
  have hpteAt : pteAt T (if va % PGSIZE ≠ 0 then addrCastDown va else va) 3 = pteAt T va 3 := by
    rw [pteAt, indices_addrCastDown hva, vaIndex_addrCastDown hva, pteAt]
  obtain ⟨b, hb⟩ : ∃ b, T (indices va 2 2) = some b := by
    cases hb : T (indices va 2 2) with
    | none =>
      rw [leaf, hb] at he
      subst he
      exact absurd (Nat.zero_and _) hvalid
    | some b => exact ⟨b, rfl⟩
  have hpte : pteAt T va 3 = b + 8 * index va 0 := by simp only [pteAt, hb, coe_index]
  have hload : v.mem.load (b + 8 * index va 0) 8 = e := by
    rw [← he, leaf, hb]
    rfl
  have hne : b + 8 * (index va 0 : ℕ) ≠ 0 := by
    have := (h.page _ b hb).ne_zero
    omega
  obtain ⟨v₁, hup, hv₁, -⟩ := updateBitMap_eq (v.push (pteTarget e)) hc .free
  obtain ⟨h₁, hsame⟩ := h.push_bits hc hcL hcT hv₁
  obtain ⟨h₂, -, hset⟩ := h₁.setLeaf (e := 0) hb (by omega)
  refine ⟨_, ?_, h₂, fun vb => ?_⟩
  · rw [VirtualMemory.freePageAt]
    simp only [hget, ok_bind, hpteAt, hpte, hload, hup, if_pos (And.intro hne hvalid)]
    rfl
  · rw [hset vb]
    have hleaf : leaf v₁.mem T vb = leaf v.mem T vb := by
      unfold leaf
      split
      · rfl
      · next a ha =>
        refine load_congr fun k hk => hsame _ a ha _ (by omega) ?_
        have := (index vb 0).isLt
        omega
    rw [hleaf]

/-- The loop of `FreeMemory` over pages that are mapped to the pages `P`. -/
theorem freeFrom_leaves (h : Tables 2 v root T L) (hbeg : beg % 4096 = 0)
    (hend : P ≠ [] → beg + 4096 * P.length ≤ 2 ^ 38)
    (hleaf : ∀ n (hn : n < P.length), leaf v.mem T (beg + 4096 * n) &&& PTE.V ≠ 0 ∧
      pteTarget (leaf v.mem T (beg + 4096 * n)) = P[n])
    (hP : P.Nodup) (hpage : ∀ c ∈ P, IsPage c ∧ c ∉ L ∧ ∀ q, T q ≠ some c) :
    ∃ v', v.freeFrom root beg (beg + 4096 * P.length) 3 = .ok v' ∧ Tables 2 v' root T (P.reverse ++ L) ∧
      (∀ n < P.length, leaf v'.mem T (beg + 4096 * n) = 0) ∧
      ∀ vb, (∀ n < P.length, path vb ≠ path (beg + 4096 * n)) → leaf v'.mem T vb = leaf v.mem T vb := by
  induction P generalizing v beg L with
  | nil =>
    refine ⟨v, ?_, h, by simp, fun _ _ => rfl⟩
    rw [VirtualMemory.freeFrom, dif_neg (by simp)]
  | cons c P ih =>
    have hend := hend (List.cons_ne_nil c P)
    simp only [List.length_cons] at *
    obtain ⟨hvalid, htarget⟩ := hleaf 0 (Nat.succ_pos _)
    rw [List.getElem_cons_zero] at htarget
    obtain ⟨hc, hcL, hcT⟩ := hpage c (by simp)
    obtain ⟨hcP, hP'⟩ := List.nodup_cons.mp hP
    obtain ⟨v₁, heq₁, h₁, hleaf₁⟩ :=
      h.freePageAt_leaf beg (by omega) (by rw [Nat.mul_zero, Nat.add_zero])
      hvalid (by rwa [htarget]) (by rwa [htarget]) (by rwa [htarget])
    rw [htarget] at h₁
    have hpath : ∀ n < P.length, path (beg + 4096 + 4096 * n) ≠ path beg := by
      intro n hn
      rw [Ne, path_inj (by omega) (by omega)]
      omega
    have hnext : ∀ n, beg + 4096 * (n + 1) = beg + 4096 + 4096 * n := fun n => by omega
    obtain ⟨v', heq, h', hzero, hother⟩ :=
      ih h₁ (show (beg + 4096) % 4096 = 0 by omega) (fun _ => by omega)
      (fun n hn => by
        rw [hleaf₁, if_neg (hpath n hn), ← hnext]
        exact hleaf (n + 1) (by omega))
      hP' fun d hd => by
        obtain ⟨hd', hdL, hdT⟩ := hpage d (List.mem_cons_of_mem c hd)
        refine ⟨hd', ?_, hdT⟩
        rw [List.mem_cons, not_or]
        exact ⟨fun he => hcP (he ▸ hd), hdL⟩
    refine ⟨v', ?_, ?_, fun n hn => ?_, fun vb hvb => ?_⟩
    · rw [VirtualMemory.freeFrom, dif_pos (by omega), heq₁, ok_bind, hnext]
      exact heq
    · rwa [List.reverse_cons, List.append_assoc]
    · cases n with
      | zero =>
        rw [Nat.mul_zero, Nat.add_zero, hother beg fun n hn he => hpath n hn he.symm, hleaf₁, if_pos rfl]
      | succ n =>
        rw [hnext]
        exact hzero n (by omega)
    · rw [hother vb fun n hn => by rw [← hnext]; exact hvb (n + 1) (by omega), hleaf₁, if_neg]
      exact hvb 0 (by omega)

end Tables

/-! ## The pages that are mapped -/

/-- The tables on the paths of the first `n` pages. -/
def tablesUpTo (beg n : ℕ) : Finset (List (Fin 512)) :=
  (Finset.range n).biUnion fun m => tablesOf (beg + 4096 * m)

theorem tablesUpTo_succ (beg n : ℕ) : tablesUpTo beg (n + 1) =
    tablesOf (beg + 4096 * n) ∪ tablesUpTo beg n := by
  rw [tablesUpTo, Finset.range_add_one, Finset.biUnion_insert, tablesUpTo]

/-- The number of pages that the mapping of the first `n` pages takes. -/
def cost (T : List (Fin 512) → Option ℕ) (beg n : ℕ) : ℕ := n + missing T (tablesUpTo beg n)

theorem missing_union (M' : Finset (List (Fin 512))) (hT : ∀ q, T' q = none ↔ T q = none ∧ q ∉ M) :
    missing T (M' ∪ M) = missing T' M' + missing T M := by
  have hdisj : Disjoint (M'.filter fun q => T' q = none) (M.filter fun q => T q = none) := by
    rw [Finset.disjoint_left]
    intro q hq hq'
    exact ((hT q).mp (Finset.mem_filter.mp hq).2).2 (Finset.mem_filter.mp hq').1
  rw [missing, missing, missing, ← Finset.card_union_of_disjoint hdisj]
  congr 1
  ext q
  simp only [Finset.mem_filter, Finset.mem_union, hT q]
  tauto

theorem cost_lt_succ (T : List (Fin 512) → Option ℕ) (beg n : ℕ) : cost T beg n <
    cost T beg (n + 1) := by
  have hle : missing T (tablesUpTo beg n) ≤ missing T (tablesUpTo beg (n + 1)) := by
    rw [tablesUpTo_succ]
    exact Finset.card_le_card (Finset.filter_subset_filter _ Finset.subset_union_right)
  unfold cost
  omega

theorem cost_strictMono (T : List (Fin 512) → Option ℕ) (beg : ℕ) : StrictMono (cost T beg) :=
  strictMono_nat_of_lt_succ (cost_lt_succ T beg)

/-- The pages `P` are mapped from `beg` on. -/
structure MappedRange (v : VirtualMemory) (root : ℕ) (T : List (Fin 512) → Option ℕ)
    (L : List ℕ) (beg k : ℕ)
    (P : List ℕ) (v' : VirtualMemory) (T' : List (Fin 512) → Option ℕ) (L' : List ℕ) : Prop where
  tables : Tables 2 v' root T' L'
  nodup : P.Nodup
  page : ∀ c ∈ P, IsPage c ∧ c ∉ L' ∧ ∀ q, T' q ≠ some c
  mapped : ∀ n (hn : n < P.length), leaf v'.mem T' (beg + 4096 * n) = (P[n] >>> 2) ||| PTE.V ||| k
  other : ∀ vb, (∀ n < P.length, path vb ≠ path (beg + 4096 * n)) → leaf v'.mem T' vb = leaf v.mem T vb
  left : ∀ c ∈ L, c ∈ P ++ L' ∨ ∃ q, T' q = some c
  sub : P ++ L' ⊆ L
  new : ∀ q a, T' q = some a → T q = some a ∨ a ∈ L
  same : Same v.mem v'.mem fun x => ¬ InPages L x ∧ ¬ InTables T x
  zero : ∀ c ∈ P, ZeroPage v'.mem c
  count : L.length = L'.length + cost T beg P.length
  none : ∀ q, T' q = none ↔ T q = none ∧ q ∉ tablesUpTo beg P.length
  le : ∀ n < P.length, beg + 4096 * n ≤ MAX_SUPPORT_VA

namespace MappedRange

theorem nil (beg k : ℕ) (h : Tables 2 v root T L) : MappedRange v root T L beg k [] v T L where
  tables := h
  nodup := List.nodup_nil
  page := by simp
  mapped n hn := by simp at hn
  other _ _ := rfl
  left c hc := .inl hc
  sub _ hc := hc
  new _ _ hq := .inl hq
  same := Same.refl _ _
  zero := by simp
  count := by simp [cost, missing, tablesUpTo]
  none := by simp [tablesUpTo]
  le := by simp

theorem end_le (h : MappedRange v root T L beg k P v' T' L') (hbeg : beg % 4096 = 0) (hP : P ≠ []) :
    beg + 4096 * P.length ≤ 2 ^ 38 := by
  have hMAX : MAX_SUPPORT_VA = 2 ^ 38 - 1 := rfl
  have hlen := List.length_pos_iff.mpr hP
  have := h.le (P.length - 1) (by omega)
  omega

theorem not_mem (h : MappedRange v root T L beg k P v' T' (c :: L')) : c ∉ P :=
  fun hc => (h.page c hc).2.1 (by simp)

/-- The pages that are mapped stay apart from the tables that are added. -/
theorem apart {v₁ v₂ : VirtualMemory} {T₂ : List (Fin 512) → Option ℕ} {L₂ : List ℕ}
    (h : MappedRange v root T L beg k P v' T' (c :: L'))
    (hgrown : Grown v₁ T' L' v₂ T₂ L₂) (hcL : c ∉ L')
    (hcT : ∀ q, T' q ≠ some c) : ∀ d ∈ P ++ [c], d ∉ L₂ ∧ ∀ q, T₂ q ≠ some d := by
  have hfresh : ∀ d, d ∉ L' → (∀ q, T' q ≠ some d) → d ∉ L₂ ∧ ∀ q, T₂ q ≠ some d := by
    intro d hdL hdT
    refine ⟨fun hd => hdL (hgrown.suffix.subset hd), fun q hq => ?_⟩
    rcases hgrown.new q d hq with hq | hd
    · exact hdT q hq
    · exact hdL hd
  intro d hd
  rcases List.mem_append.mp hd with hd | hd
  · obtain ⟨-, hdL, hdT⟩ := h.page d hd
    exact hfresh d (fun hd' => hdL (List.mem_cons_of_mem c hd')) hdT
  · obtain rfl := List.mem_singleton.mp hd
    exact hfresh d hcL hcT

/-- A page more. -/
theorem append {v₁ v₂ : VirtualMemory} {T₂ : List (Fin 512) → Option ℕ} {L₂ : List ℕ}
    (h : MappedRange v root T L beg k P v' T' (c :: L')) (hbeg : beg % 4096 = 0)
    (hmax : beg + 4096 * P.length ≤ MAX_SUPPORT_VA) (hc : IsPage c) (h₁ : Tables 2 v₁ root T' L')
    (hsame : Same v'.mem v₁.mem fun x => ¬ InPages (c :: L') x) (hzero : ZeroPage v₁.mem c)
    (hcL : c ∉ L') (hcT : ∀ q, T' q ≠ some c) (h₂ : Tables 2 v₂ root T₂ L₂)
    (hgrown : Grown v₁ T' L' v₂ T₂ L₂) (hapart : ∀ d ∈ P ++ [c], d ∉ L₂ ∧ ∀ q, T₂ q ≠ some d)
    (hadds : Tables.Adds T' L' (tablesOf (beg + 4096 * P.length)) T₂ L₂)
    (hleaf : ∀ vb, leaf v₂.mem T₂ vb =
      if path vb = path (beg + 4096 * P.length) then (c >>> 2) ||| PTE.V ||| k else leaf v'.mem T' vb) :
    MappedRange v root T L beg k (P ++ [c]) v₂ T₂ L₂ := by
  have hMAX : MAX_SUPPORT_VA = 2 ^ 38 - 1 := rfl
  have hlen : (P ++ [c]).length = P.length + 1 := List.length_append
  have hlast : ∀ n < (P ++ [c]).length, n < P.length ∨ n = P.length := fun n hn => by omega
  have hsub : ∀ d ∈ c :: L', d ∈ L := fun d hd => h.sub (List.mem_append_right _ hd)
  constructor
  · exact h₂
  · exact List.nodup_append.mpr ⟨h.nodup, List.nodup_singleton c, by
      rintro a ha b hb rfl
      exact h.not_mem (List.mem_singleton.mp hb ▸ ha)⟩
  · intro d hd
    refine ⟨?_, hapart d hd⟩
    rcases List.mem_append.mp hd with hd | hd
    · exact (h.page d hd).1
    · exact List.mem_singleton.mp hd ▸ hc
  · intro n hn
    rw [hleaf]
    rcases hlast n hn with hn' | rfl
    · have hne : path (beg + 4096 * n) ≠ path (beg + 4096 * P.length) := by
        rw [Ne, path_inj (by omega) (by omega)]
        omega
      rw [if_neg hne, List.getElem_append_left hn', h.mapped n hn']
    · rw [if_pos rfl, List.getElem_concat_length rfl]
  · intro vb hvb
    rw [hleaf, if_neg (hvb P.length (by omega)), h.other vb fun n hn => hvb n (by omega)]
  · intro d hd
    rcases h.left d hd with hd | ⟨q, hq⟩
    · rw [List.append_cons] at hd
      rcases List.mem_append.mp hd with hd | hd
      · exact .inl (List.mem_append_left _ hd)
      · exact (hgrown.left d hd).imp_left fun hd => List.mem_append_right _ hd
    · exact .inr ⟨q, hgrown.keep q d hq⟩
  · intro d hd
    rw [List.append_assoc, List.singleton_append] at hd
    refine h.sub (List.mem_append.mpr ((List.mem_append.mp hd).imp_right fun hd => ?_))
    exact List.cons_subset_cons c hgrown.suffix.subset hd
  · intro q a hq
    rcases hgrown.new q a hq with hq | ha
    · exact h.new q a hq
    · exact .inr (hsub a (List.mem_cons_of_mem c ha))
  · refine h.same.trans ((hsame.mono fun x hx => ?_).trans (hgrown.same.mono ?_))
    · exact fun hin => hx.1 (inPages_mono hsub hin)
    · rintro x ⟨hx, hxT⟩
      refine ⟨fun hin => hx (inPages_mono (fun d hd => hsub d (List.mem_cons_of_mem c hd)) hin), ?_⟩
      rintro ⟨q, a, hq, hlt, hr⟩
      rcases h.new q a hq with hq | ha
      · exact hxT ⟨q, a, hq, hlt, hr⟩
      · exact hx ⟨a, ha, hr⟩
  · intro d hd
    rcases List.mem_append.mp hd with hd | hd
    · obtain ⟨hdp, hdL, hdT⟩ := h.page d hd
      intro x hx hx'
      rw [hgrown.same x (h₁.page_apart hdp (fun hd' => hdL (List.mem_cons_of_mem c hd')) hdT hx hx'),
        hsame x (h.tables.page_apart hdp hdL hdT hx hx').1, h.zero d hd x hx hx']
    · obtain rfl := List.mem_singleton.mp hd
      intro x hx hx'
      rw [hgrown.same x (h₁.page_apart hc hcL hcT hx hx'), hzero x hx hx']
  · have hcount := h.count
    have hunion := missing_union (tablesOf (beg + 4096 * P.length)) h.none
    rw [← tablesUpTo_succ] at hunion
    rw [List.length_cons] at hcount
    rw [hlen]
    unfold cost at hcount ⊢
    have := hadds.1
    omega
  · intro q
    rw [hadds.2 q, h.none q, hlen, tablesUpTo_succ, Finset.mem_union, not_or]
    tauto
  · intro n hn
    rcases hlast n hn with hn' | rfl
    · exact h.le n hn'
    · exact hmax

/-- One round of the loop of `MapMemory`. -/
theorem step (h : MappedRange v root T L beg k P v' T' (c :: L'))
    (hbeg : beg % 4096 = 0) (hk : k < 1024) :
    ∃ v₁ r v₂ T₂ L₂, v'.allocOrNull = .ok (c, v₁) ∧ IsPage c ∧
      mapPageWith allocOrNull v₁ root (beg + 4096 * P.length) c k = .ok (r, v₂) ∧
      Tables 2 v₂ root T₂ L₂ ∧
      (∀ d ∈ P ++ [c], d ∉ L₂ ∧ ∀ q, T₂ q ≠ some d) ∧
        (r = true ∧ MappedRange v root T L beg k (P ++ [c]) v₂ T₂ L₂ ∨
          r = false ∧ (beg + 4096 * P.length ≤ MAX_SUPPORT_VA → L.length < cost T beg (P.length + 1)) ∧
            ∀ vb, leaf v₂.mem T₂ vb = leaf v'.mem T' vb) := by
  obtain ⟨v₁, halloc, h₁, hsame, hzero, hc, hcL, hcT⟩ := h.tables.allocOrNull_cons
  have hcount := h.count
  have hleaf₁ := h.tables.leaf_of_same hsame
  have hcend := hc.lt
  rw [List.length_cons] at hcount
  by_cases hmax : beg + 4096 * P.length ≤ MAX_SUPPORT_VA
  · obtain ⟨r, v₂, T₂, L₂, hmap, h₂, hgrown, hcase⟩ := h₁.mapPage_spec hc.aligned
      (by rw [MEMORY_END_eq]; omega) (show (beg + 4096 * P.length) % 4096 = 0 by omega) hmax hk
    have hapart := h.apart hgrown hcL hcT
    refine ⟨v₁, r, v₂, T₂, L₂, halloc, hc, hmap, h₂, hapart, ?_⟩
    rcases hcase with ⟨rfl, rfl, hlt, hleaf⟩ | ⟨rfl, hadds, hleaf⟩
    · refine .inr ⟨rfl, fun _ => ?_, fun vb => (hleaf vb).trans (hleaf₁ vb)⟩
      have hunion := missing_union (tablesOf (beg + 4096 * P.length)) h.none
      rw [← tablesUpTo_succ] at hunion
      unfold cost at hcount ⊢
      omega
    · exact .inl ⟨rfl, h.append hbeg hmax hc h₁ hsame hzero hcL hcT h₂ hgrown hapart hadds fun vb => by
        rw [hleaf, hleaf₁]⟩
  · refine ⟨v₁, false, v₁, T', L', halloc, hc, ?_, h₁, h.apart (.refl v₁ T' L') hcL hcT,
      .inr ⟨rfl, fun h' => absurd h' hmax, hleaf₁⟩⟩
    rw [mapPageWith, if_neg h₁.root_page.ne_zero,
      if_neg (by rw [MEMORY_END_eq]; omega), if_pos (by omega)]

/-- The pages that are mapped are freed. -/
theorem freeMemory {v₂ : VirtualMemory} {T₂ : List (Fin 512) → Option ℕ} {L₂ : List ℕ}
    (h : MappedRange v root T L beg k P v' T' L') (hbeg : beg % 4096 = 0)
    (hend : beg + 4096 * P.length < 2 ^ 64)
    (hk : k < 1024) (h₂ : Tables 2 v₂ root T₂ L₂) (hapart : ∀ d ∈ P, d ∉ L₂ ∧ ∀ q, T₂ q ≠ some d)
    (hleaf : ∀ vb, leaf v₂.mem T₂ vb = leaf v'.mem T' vb) :
    ∃ w, v₂.freeMemory root beg (beg + 4096 * P.length) 3 = .ok w ∧
    Tables 2 w root T₂ (P.reverse ++ L₂) ∧
      (∀ n < P.length, leaf w.mem T₂ (beg + 4096 * n) = 0) ∧
      ∀ vb, (∀ n < P.length, path vb ≠ path (beg + 4096 * n)) → leaf w.mem T₂ vb = leaf v.mem T vb := by
  obtain ⟨w, heq, hw, hzero, hother⟩ := h₂.freeFrom_leaves hbeg (h.end_le hbeg) (fun n hn => by
      have hp := (h.page _ (List.getElem_mem hn)).1
      have hp' := hp.lt
      obtain ⟨-, hvalid, htarget, -⟩ := entry_flags hp.aligned (by rw [MEMORY_END_eq]; omega) hk
      rw [hleaf, h.mapped n hn]
      exact ⟨hvalid, htarget⟩)
    h.nodup fun d hd => ⟨(h.page d hd).1, hapart d hd⟩
  refine ⟨w, ?_, hw, hzero, fun vb hvb => by rw [hother vb hvb, hleaf, h.other vb hvb]⟩
  rw [VirtualMemory.freeMemory, addrCastDown_eq (by omega), addrCastUp_eq (by omega)]
  rw [show beg - beg % 4096 = beg by omega,
    show beg + 4096 * P.length + 4095 - (beg + 4096 * P.length + 4095) % 4096 =
      beg + 4096 * P.length by omega]
  exact heq

end MappedRange

/-- The ends of `MapMemory` over `N` pages: all of them are mapped; no page is left for the next
one; the next one cannot be mapped, and its page is lost. -/
inductive MapEnd (v : VirtualMemory) (root : ℕ) (T : List (Fin 512) → Option ℕ)
    (L : List ℕ) (beg k N : ℕ) :
    Bool → VirtualMemory → Prop where
  | mapped {P L' : List ℕ} {w : VirtualMemory} {T' : List (Fin 512) → Option ℕ}
      (h : MappedRange v root T L beg k P w T' L') (hN : P.length = N) : MapEnd v root T L beg k N true w
  | exhausted {P : List ℕ} {v' w : VirtualMemory} {T' : List (Fin 512) → Option ℕ}
      (h : MappedRange v root T L beg k P v' T' []) (hN : P.length < N)
      (tables : Tables 2 w root T' P.reverse)
      (zero : ∀ n < P.length, leaf w.mem T' (beg + 4096 * n) = 0)
      (other : ∀ vb, (∀ n < P.length, path vb ≠ path (beg + 4096 * n)) →
      leaf w.mem T' vb = leaf v.mem T vb) :
      MapEnd v root T L beg k N false w
  | lost {c : ℕ} {P L' L₂ : List ℕ} {v' w : VirtualMemory} {T' T₂ : List (Fin 512) → Option ℕ}
      (h : MappedRange v root T L beg k P v' T' (c :: L')) (hN : P.length < N)
      (refused : beg + 4096 * P.length ≤ MAX_SUPPORT_VA → L.length < cost T beg (P.length + 1))
      (tables : Tables 2 w root T₂ L₂) (free : c ∉ L₂) (table : ∀ q, T₂ q ≠ some c) :
      MapEnd v root T L beg k N false w

/-- The loop of `MapMemory`. -/
theorem MappedRange.mapFrom (h : MappedRange v root T L beg k P v' T' L') (hbeg : beg % 4096 = 0)
    (hend : beg + 4096 * N < 2 ^ 64) (hk : k < 1024) (hn : P.length + n = N) :
    ∃ r w, mapFromWith allocOrNull v' root beg (beg + 4096 * P.length) (beg + 4096 * N) k = .ok (r, w) ∧
      MapEnd v root T L beg k N r w := by
  induction n generalizing P v' T' L' with
  | zero =>
    refine ⟨true, v', ?_, .mapped h hn⟩
    rw [mapFromWith, dif_neg (by omega)]
  | succ n ih =>
    rw [mapFromWith, dif_pos (by omega)]
    cases L' with
    | nil =>
      obtain ⟨w, hfree, hw, hzero, hother⟩ := h.freeMemory hbeg (by omega) hk h.tables
        (fun d hd => (h.page d hd).2) fun _ => rfl
      rw [List.append_nil] at hw
      refine ⟨false, w, ?_, .exhausted h (by omega) hw hzero hother⟩
      rw [h.tables.allocOrNull_nil, ok_bind]
      simp only [if_true, hfree, ok_bind]
      rfl
    | cons c L' =>
      obtain ⟨v₁, r, v₂, T₂, L₂, halloc, hc, hmap, h₂, hapart, hcase⟩ := h.step hbeg hk
      have hnext : beg + 4096 * P.length + PGSIZE = beg + 4096 * (P ++ [c]).length := by
        rw [List.length_append, List.length_singleton, show PGSIZE = 4096 from rfl,
          Nat.mul_add, Nat.add_assoc]
      rw [halloc, ok_bind]
      simp only [if_neg hc.ne_zero, hmap, ok_bind]
      rcases hcase with ⟨rfl, h'⟩ | ⟨rfl, hrefused, hleaf⟩
      · simp only [if_true, hnext]
        exact ih h' (by rw [List.length_append, List.length_singleton]; omega)
      · obtain ⟨w, hfree, hw, -, -⟩ := h.freeMemory hbeg (by omega) hk h₂
          (fun d hd => hapart d (List.mem_append_left _ hd)) hleaf
        obtain ⟨hcL, hcT⟩ := hapart c (by simp)
        refine ⟨false, w, ?_, .lost h (by omega) hrefused hw ?_ hcT⟩
        · simp only [Bool.false_eq_true, if_false, hfree, ok_bind]
          rfl
        · rw [List.mem_append, List.mem_reverse, not_or]
          exact ⟨h.not_mem, hcL⟩

/-! ## What a failure leaves -/

/-- Every address is translated as before, and a page that was free is free or a table. -/
def RollsBack (v : VirtualMemory) (root : ℕ) (L : List ℕ) (w : VirtualMemory) : Prop :=
  (∀ va < 2 ^ 64, ∀ o, w.vaToPA root va o = v.vaToPA root va o) ∧
    ∃ T' L', Tables 2 w root T' L' ∧ ∀ c ∈ L, c ∈ L' ∨ ∃ q, T' q = some c

/-- The address has no page. -/
def Unmapped (v : VirtualMemory) (root va : ℕ) : Prop := ∀ o, v.vaToPA root va o = .ok (0, o)

theorem leafPA_zero (va o : ℕ) : leafPA 0 va o = (0, o) := by
  rw [leafPA, Nat.zero_and, if_pos rfl]

theorem unmapped_iff (h : Tables 2 v root T L) (hva : va < 2 ^ 64) :
    Unmapped v root va ↔ leaf v.mem T va &&& PTE.V = 0 := by
  unfold Unmapped
  constructor
  · intro hun
    by_contra hvalid
    have hone := hun ((leaf v.mem T va &&& PTE_MASK) + 1)
    rw [vaToPA_leaf h hva, leafPA, if_neg hvalid] at hone
    have hflags := (Prod.mk.inj (Except.ok.inj hone)).2
    omega
  · intro hvalid o
    rw [vaToPA_leaf h hva, leafPA, if_pos hvalid]

theorem not_rollsBack (hc : c ∈ L) (h : Tables 2 w root T' L') (hfree : c ∉ L')
    (htable : ∀ q, T' q ≠ some c) :
    ¬ RollsBack v root L w := by
  rintro ⟨-, T₂, L₂, h₂, hleft⟩
  obtain ⟨rfl, rfl⟩ := h₂.unique h
  rcases hleft c hc with hcL | ⟨q, hq⟩
  · exact hfree hcL
  · exact htable q hq

/-- The number of pages of a range. -/
def pageCount (va_beg va_end : ℕ) : ℕ := (addrCastUp va_end - addrCastDown va_beg) / 4096

/-- The pages of the range, one after the other. -/
theorem mapMemoryWith_eq (alloc : VirtualMemory → Except Fault (ℕ × VirtualMemory)) (v : VirtualMemory)
    (root k : ℕ) (hbeg : va_beg < 2 ^ 64) : mapMemoryWith alloc v root va_beg va_end k =
      mapFromWith alloc v root (addrCastDown va_beg) (addrCastDown va_beg)
        (addrCastDown va_beg + 4096 * pageCount va_beg va_end) k := by
  have hdown := addrCastDown_eq hbeg
  have hup : addrCastUp va_end % 4096 = 0 := by
    have hlt : (va_end + PGSIZE - 1) % 2 ^ 64 < 2 ^ 64 := Nat.mod_lt _ (by decide)
    rw [show addrCastUp va_end =
      addrCastDown ((va_end + PGSIZE - 1) % 2 ^ 64) from rfl, addrCastDown_eq hlt]
    omega
  rw [mapMemoryWith, pageCount]
  rcases Nat.lt_or_ge (addrCastDown va_beg) (addrCastUp va_end) with hlt | hge
  · have hsplit : addrCastDown va_beg + 4096 * ((addrCastUp va_end - addrCastDown va_beg) / 4096) =
        addrCastUp va_end := by omega
    rw [hsplit]
  · rw [mapFromWith, dif_neg (by omega), mapFromWith, dif_neg (by omega)]

theorem mapMemory_end (va_end : ℕ) (h : Tables 2 v root T L) (hk : k < 1024) (hbeg : va_beg < 2 ^ 64) :
    ∃ r w, mapMemoryWith allocOrNull v root va_beg va_end k = .ok (r, w) ∧
      MapEnd v root T L (addrCastDown va_beg) k (pageCount va_beg va_end) r w := by
  have hdown := addrCastDown_eq hbeg
  have hup : addrCastUp va_end < 2 ^ 64 := Nat.and_lt_two_pow _ (by decide)
  obtain ⟨r, w, heq, hend⟩ := (MappedRange.nil (addrCastDown va_beg) k h).mapFrom
    (N := pageCount va_beg va_end) (by omega) (by unfold pageCount; omega) hk (Nat.zero_add _)
  refine ⟨r, w, ?_, hend⟩
  rw [mapMemoryWith_eq _ _ _ _ hbeg, ← heq, List.length_nil, Nat.mul_zero, Nat.add_zero]

/-- `MapMemory` leaves a failure without a trace just when the free pages end with the page before
the one that failed, and none of the pages before it was mapped. -/
theorem mapMemory_rollsBack_iff (h : Tables 2 v root T L) (hk : k < 2 ^ 8) (hbeg : va_beg < 2 ^ 64) :
    (∃ r w, mapMemoryWith allocOrNull v root va_beg va_end k = .ok (r, w) ∧
    (r = false → RollsBack v root L w)) ↔
      (cost T (addrCastDown va_beg) (pageCount va_beg va_end) ≤ L.length ∧
          ∀ n < pageCount va_beg va_end, addrCastDown va_beg + 4096 * n ≤ MAX_SUPPORT_VA) ∨
        ∃ j < pageCount va_beg va_end, L.length = cost T (addrCastDown va_beg) j ∧
          ∀ n < j, addrCastDown va_beg + 4096 * n ≤ MAX_SUPPORT_VA ∧
            Unmapped v root (addrCastDown va_beg + 4096 * n) := by
  have hMAX : MAX_SUPPORT_VA = 2 ^ 38 - 1 := rfl
  obtain ⟨r, w, heq, hend⟩ := mapMemory_end va_end h (show k < 1024 by omega) hbeg
  have hmono := cost_strictMono T (addrCastDown va_beg)
  generalize addrCastDown va_beg = beg at hend hmono ⊢
  generalize pageCount va_beg va_end = N at hend ⊢
  have hholds : (∃ r w, mapMemoryWith allocOrNull v root va_beg va_end k = .ok (r, w) ∧
      (r = false → RollsBack v root L w)) ↔ (r = false → RollsBack v root L w) := by
    constructor
    · rintro ⟨r', w', heq', hback⟩
      obtain ⟨rfl, rfl⟩ := Prod.mk.inj (Except.ok.inj (heq.symm.trans heq'))
      exact hback
    · exact fun hback => ⟨r, w, heq, hback⟩
  rw [hholds]
  cases hend with
  | mapped hmapped hN =>
    refine iff_of_true (fun hr => Bool.noConfusion hr) (.inl ?_)
    have hcount := hmapped.count
    rw [hN] at hcount
    exact ⟨by omega, hN ▸ hmapped.le⟩
  | @exhausted P v' w T' hmapped hN htables hzero hother =>
    have hcount := hmapped.count
    rw [List.length_nil, Nat.zero_add] at hcount
    constructor
    · intro hback
      refine .inr ⟨_, hN, hcount, fun n hn => ⟨hmapped.le n hn, fun o => ?_⟩⟩
      have hle := hmapped.le n hn
      rw [← (hback rfl).1 _ (by omega) o, vaToPA_leaf htables (by omega), hzero n hn, leafPA_zero]
    · intro hcond _
      rcases hcond with ⟨hfits, -⟩ | ⟨j, hj, hcost, hpages⟩
      · have := hmono hN
        omega
      · obtain rfl : j = P.length := hmono.injective (hcost.symm.trans hcount)
        refine ⟨fun va hva o => ?_, T', _, htables, fun c hc => ?_⟩
        · rw [vaToPA_leaf htables hva, vaToPA_leaf h hva]
          by_cases hin : ∃ n < P.length, path va = path (beg + 4096 * n)
          · obtain ⟨n, hn, hpath⟩ := hin
            obtain ⟨hle, hun⟩ := hpages n hn
            have hinvalid := (unmapped_iff h (by omega)).mp hun
            rw [leaf_congr hpath, leaf_congr hpath, hzero n hn, leafPA_zero, leafPA, if_pos hinvalid]
          · rw [hother va fun n hn hpath => hin ⟨n, hn, hpath⟩]
        · rcases hmapped.left c hc with hc | hq
          · rw [List.append_nil] at hc
            exact .inl (List.mem_reverse.mpr hc)
          · exact .inr hq
  | @lost c P L' L₂ v' w T' T₂ hmapped hN hrefused htables hfree htable =>
    have hcount := hmapped.count
    rw [List.length_cons] at hcount
    refine iff_of_false (fun hback => ?_) ?_
    · exact not_rollsBack (hmapped.sub (by simp)) htables hfree htable (hback rfl)
    · rintro (⟨hfits, hle⟩ | ⟨j, hj, hcost, hpages⟩)
      · have hlt := hrefused (hle _ hN)
        have := hmono.monotone (show P.length + 1 ≤ N from hN)
        omega
      · have hPj : P.length < j := by
          by_contra hge
          have := hmono.monotone (show j ≤ P.length by omega)
          omega
        have hlt := hrefused (hpages _ hPj).1
        have := hmono.monotone (show P.length + 1 ≤ j from hPj)
        omega

/-- No page is free. -/
theorem mapMemory_rollsBack_none : ∃ (v w : VirtualMemory) (root : ℕ), v.head_ = 0 ∧
    mapMemoryWith allocOrNull v root 0 PGSIZE PTE.R = .ok (false, w) ∧ RollsBack v root [] w := by
  obtain ⟨v, root, L, htables, hlen⟩ := exists_tables 0 (by omega)
  have h := htables 2
  obtain rfl := List.length_eq_zero_iff.mp hlen
  obtain ⟨r, w, heq, hback⟩ := (@mapMemory_rollsBack_iff root PTE.R 0 PGSIZE [] v _ h (by decide)
    (by omega)).mpr (.inr ⟨0, by decide, by simp [cost, missing, tablesUpTo], by simp⟩)
  obtain ⟨r', w', heq', hend⟩ :=
    mapMemory_end PGSIZE h (show PTE.R < 1024 by decide) (show 0 < 2 ^ 64 by omega)
  obtain ⟨rfl, rfl⟩ := Prod.mk.inj (Except.ok.inj (heq.symm.trans heq'))
  have hN : pageCount 0 PGSIZE = 1 := by decide
  have hr : r = false := by
    cases hend with
    | mapped hmapped hP =>
      have hcount := hmapped.count
      rw [hP, hN, List.length_nil] at hcount
      unfold cost at hcount
      omega
    | exhausted => rfl
    | lost => rfl
  subst hr
  exact ⟨v, w, root, h.list.head_nil, heq, hback rfl⟩

/-- With one free page `MapMemory` of a page loses it: there is none for the table. -/
theorem mapMemory_loses_page : ¬ ∀ (v : VirtualMemory) (root : ℕ)
    (T : List (Fin 512) → Option ℕ) (L : List ℕ)
    (va_beg va_end k : ℕ), Tables 2 v root T L → k < 2 ^ 8 → va_beg < 2 ^ 64 → va_end < 2 ^ 64 →
    ∀ w, mapMemoryWith allocOrNull v root va_beg va_end k = .ok (false, w) → RollsBack v root L w := by
  intro hall
  obtain ⟨v, root, L, htables, hlen⟩ := exists_tables 1 (by omega)
  have h := htables 2
  obtain ⟨r, w, heq, hend⟩ :=
    mapMemory_end PGSIZE h (show PTE.R < 1024 by decide) (show 0 < 2 ^ 64 by omega)
  have hN : pageCount 0 PGSIZE = 1 := by decide
  rw [hN] at hend
  have hcost : 2 ≤ cost (rootOnly root) (addrCastDown 0) 1 := by
    have hmem : indices 0 2 1 ∈ (tablesUpTo (addrCastDown 0) 1).filter fun q =>
        rootOnly root q = none := by
      rw [Finset.mem_filter]
      refine ⟨?_, if_neg (by simp [indices])⟩
      rw [tablesUpTo_succ, tablesOf]
      simp [show addrCastDown 0 = 0 by decide]
    have hpos := Finset.card_pos.mpr ⟨_, hmem⟩
    unfold cost missing
    omega
  cases hend with
  | mapped hmapped hP =>
    have hcount := hmapped.count
    rw [hP] at hcount
    omega
  | exhausted hmapped hP =>
    have hcount := hmapped.count
    rw [Nat.lt_one_iff.mp hP, List.length_nil] at hcount
    simp [cost, missing, tablesUpTo, hlen] at hcount
  | lost hmapped hP hrefused htables hfree htable =>
    exact not_rollsBack (hmapped.sub (by simp)) htables hfree htable
      (hall v root _ L 0 PGSIZE PTE.R h (by decide) (by omega) (by decide) w heq)

end OrangeOs.Kernel
