import OrangeOs.Kernel.MapMemory
import OrangeOs.Kernel.NullAlloc

/-! # One page

`MapPage` writes the entry of one page and no other, whatever the entries point to: the tables that
it adds are cleared. What `VAToPA` reads is the entry of the address.
-/

namespace OrangeOs.Kernel

open Memory VirtualMemory

variable {d root va vb a b c e i k n pa x : ℕ} {L L' L'' : List ℕ}
    {v v' v'' : VirtualMemory} {m : Memory}
  {T T' T'' : List (Fin 512) → Option ℕ} {q r : List (Fin 512)} {M : Finset (List (Fin 512))}

/-- The entry of an address in the lowest table on its path, or 0. -/
def leaf (m : Memory) (T : List (Fin 512) → Option ℕ) (va : ℕ) : ℕ :=
  match T (indices va 2 2) with
  | none => 0
  | some a => entry m a (index va 0)

/-- What `VAToPA` makes of an entry. -/
def leafPA (e va o : ℕ) : ℕ × ℕ :=
  if e &&& PTE.V = 0 then (0, o) else (pteTarget e + va % PGSIZE, e &&& PTE_MASK)

theorem vaToPA_leaf (h : Tables 2 v root T L) (hva : va < 2 ^ 64) (o : ℕ) :
    v.vaToPA root va o = .ok (leafPA (leaf v.mem T va) va o) := by
  have hget := getPTE_eq h.isTree h.root_page.ne_zero hva (show 1 ≤ 3 by omega) le_rfl
      (show 3 ≤ 2 + 1 by omega)
  cases ha : T (indices va 2 2) with
  | none =>
    have hpte : pteAt T va 3 = 0 := by simp only [pteAt, ha]
    have hleaf : leaf v.mem T va = 0 := by simp only [leaf, ha]
    simp only [vaToPA, hget, ok_bind, hpte, hleaf, leafPA, true_or, if_true, Nat.zero_and]
    rfl
  | some a =>
    have hpte : pteAt T va 3 = a + 8 * index va 0 := by simp only [pteAt, ha, coe_index]
    have hleaf : leaf v.mem T va = v.mem.load (a + 8 * index va 0) 8 := by simp only [leaf, ha, entry]
    have hne : a + 8 * (index va 0 : ℕ) ≠ 0 := by
      have := (h.page _ a ha).ne_zero
      omega
    simp only [vaToPA, hget, ok_bind, hpte, hleaf, leafPA, hne, false_or]
    split
    · rfl
    · rfl

theorem leaf_congr (h : path va = path vb) (m : Memory) (T : List (Fin 512) → Option ℕ) :
    leaf m T va = leaf m T vb := by
  rw [path_eq, path_eq] at h
  obtain ⟨hdir, hidx⟩ := List.append_singleton_inj.mp h
  rw [leaf, leaf, hdir, hidx]

/-! ## The free pages that a mapping needs -/

/-- The paths of the tables that `k` steps of `GetPTE` visit. -/
def tablesFrom (q : List (Fin 512)) (va i : ℕ) : ℕ → Finset (List (Fin 512))
  | 0 => ∅
  | k + 1 => insert (q ++ [index va i]) (tablesFrom (q ++ [index va i]) va (i - 1) k)

theorem length_of_mem_tablesFrom (hr : r ∈ tablesFrom q va i k) : q.length < r.length := by
  induction k generalizing q i with
  | zero => simp [tablesFrom] at hr
  | succ k ih =>
    rw [tablesFrom, Finset.mem_insert] at hr
    rcases hr with rfl | hr
    · simp
    · have := ih hr
      simp only [List.length_append, List.length_singleton] at this
      omega

theorem not_mem_tablesFrom : q ∉ tablesFrom q va i k :=
  fun h => absurd (length_of_mem_tablesFrom h) (Nat.lt_irrefl _)

/-- The tables below the root on the path of an address. -/
def tablesOf (va : ℕ) : Finset (List (Fin 512)) := {indices va 2 1, indices va 2 2}

/-- The number of nodes that are missing. -/
def missing (T : List (Fin 512) → Option ℕ) (M : Finset (List (Fin 512))) : ℕ :=
  (M.filter fun q => T q = none).card

theorem missing_insert_some (h : T q = some a) : missing T (insert q M) = missing T M := by
  rw [missing, Finset.filter_insert, if_neg (by simp [h]), missing]

theorem missing_insert_none (h : T q = none) (hM : q ∉ M) (c : ℕ) :
    missing T (insert q M) = missing (Function.update T q (some c)) M + 1 := by
  have hfilter : (M.filter fun r => Function.update T q (some c) r = none) =
      M.filter fun r => T r = none := by
    refine Finset.filter_congr fun r hr => ?_
    rw [Function.update_of_ne]
    rintro rfl
    exact hM hr
  rw [missing, Finset.filter_insert, if_pos h, Finset.card_insert_of_notMem, missing, hfilter]
  exact fun hq => hM (Finset.mem_filter.mp hq).1

/-! ## The tables that are added -/

/-- Tables were added that came from the front of the list `L`. -/
structure Grown (v : VirtualMemory) (T : List (Fin 512) → Option ℕ) (L : List ℕ) (v' : VirtualMemory)
    (T' : List (Fin 512) → Option ℕ) (L' : List ℕ) : Prop where
  keep : ∀ q a, T q = some a → T' q = some a
  new : ∀ q a, T' q = some a → T q = some a ∨ a ∈ L
  suffix : L' <:+ L
  left : ∀ c ∈ L, c ∈ L' ∨ ∃ q, T' q = some c
  same : Same v.mem v'.mem fun x => ¬ InPages L x ∧ ¬ InTables T x

namespace Grown

theorem refl (v : VirtualMemory) (T : List (Fin 512) → Option ℕ) (L : List ℕ) : Grown v T L v T L :=
  ⟨fun _ _ h => h, fun _ _ h => .inl h, List.suffix_rfl, fun _ h => .inl h, Same.refl _ _⟩

theorem trans (h : Grown v T L v' T' L') (h' : Grown v' T' L' v'' T'' L'') :
    Grown v T L v'' T'' L'' where
  keep q a hq := h'.keep q a (h.keep q a hq)
  new q a hq := by
    rcases h'.new q a hq with hq | ha
    · exact h.new q a hq
    · exact .inr (h.suffix.subset ha)
  suffix := h'.suffix.trans h.suffix
  left c hc := by
    rcases h.left c hc with hc | ⟨q, hq⟩
    · exact h'.left c hc
    · exact .inr ⟨q, h'.keep q c hq⟩
  same := by
    refine h.same.trans (h'.same.mono ?_)
    rintro x ⟨hx, hxT⟩
    constructor
    · exact fun hin => hx (inPages_mono (fun c hc => h.suffix.subset hc) hin)
    · rintro ⟨q, a, hq, hlt, hr⟩
      rcases h.new q a hq with hq | ha
      · exact hxT ⟨q, a, hq, hlt, hr⟩
      · exact hx ⟨a, ha, hr⟩

end Grown

namespace Tables

theorem length_le (h : Tables d v root T L) (hq : T q = some a) : q.length ≤ d := h.isTree.length_le hq

/-- `Alloc` with pages left. -/
theorem allocOrNull_cons (h : Tables d v root T (c :: L)) :
    ∃ v', v.allocOrNull = .ok (c, v') ∧ Tables d v' root T L ∧
      Same v.mem v'.mem (fun x => ¬ InPages (c :: L) x) ∧ ZeroPage v'.mem c ∧ IsPage c ∧ c ∉ L ∧
      ∀ q, T q ≠ some c := by
  obtain ⟨v', heq, hrest⟩ := h.alloc
  exact ⟨v', allocOrNull_of_alloc heq, hrest⟩

theorem allocOrNull_nil (h : Tables d v root T []) : v.allocOrNull = .ok (0, v) :=
  if_pos h.list.head_nil

/-- `Alloc` does not change the entries. -/
theorem leaf_of_same (h : Tables 2 v root T L) (hm : Same v.mem m fun x => ¬ InPages L x) (vb : ℕ) :
    leaf m T vb = leaf v.mem T vb := by
  unfold leaf
  split
  · rfl
  · next a ha =>
    refine load_congr fun k hk => hm _ (h.not_inPages ha (by omega) ?_)
    have := (index vb 0).isLt
    omega

/-- A new table has no entries. -/
theorem leaf_attach {i : Fin 512} (h : Tables 2 v root T L) (hq : T q = some a) (hlt : q.length < 2)
    (hnew : T (q ++ [i]) = none) (hc : IsPage c) (hcT : ∀ r, T r ≠ some c) (he : e < 2 ^ 64)
    (hzero : ZeroPage v.mem c) (vb : ℕ) :
    leaf (v.mem.store (a + 8 * i) 8 e) (Function.update T (q ++ [i]) (some c)) vb = leaf v.mem T vb := by
  have hap := h.page q a hq
  unfold leaf
  by_cases hp : indices vb 2 2 = q ++ [i]
  · have hca : c ≠ a := fun hca => hcT q (hca ▸ hq)
    rw [hp, Function.update_self, hnew]
    dsimp only
    rw [entry_store _ hap hc i _ he, if_neg fun hx => hca hx.1, entry_of_zeroPage hzero]
  · rw [Function.update_of_ne hp]
    split
    · rfl
    · next b hb =>
      rw [entry_store _ hap (h.page _ b hb) i _ he, if_neg]
      rintro ⟨rfl, -⟩
      have hlen := congrArg List.length (h.inj _ _ _ hb hq)
      rw [length_indices] at hlen
      omega

/-- A table that `GetPTE` adds. -/
theorem grown_attach {i : Fin 512} (h : Tables 2 v root T (c :: L))
    (hq : T q = some a) (hlt : q.length < 2)
    (hnew : T (q ++ [i]) = none) (hv : Same v.mem v'.mem fun x => ¬ InPages (c :: L) x) :
    Grown v T (c :: L) { v' with mem := v'.mem.store (a + 8 * i) 8 e }
      (Function.update T (q ++ [i]) (some c)) L where
  keep r b hr := by
    rw [Function.update_of_ne, hr]
    rintro rfl
    rw [hnew] at hr
    simp at hr
  new r b hr := by
    rw [Function.update_apply] at hr
    split at hr
    · exact .inr (by simp [Option.some.inj hr])
    · exact .inl hr
  suffix := List.suffix_cons c L
  left b hb := by
    rcases List.mem_cons.mp hb with rfl | hb
    · exact .inr ⟨q ++ [i], Function.update_self ..⟩
    · exact .inl hb
  same := by
    refine (hv.mono fun x hx => hx.1).trans ((store_entry_same v'.mem a i e).mono fun x hx => ?_)
    by_contra hin
    exact hx.2 ⟨q, a, hq, by omega, by omega, by omega⟩

/-- What a call that adds the tables `M` leaves: all of them, or as many as there were free pages. -/
def Adds (T : List (Fin 512) → Option ℕ) (L : List ℕ) (M : Finset (List (Fin 512)))
    (T' : List (Fin 512) → Option ℕ) (L' : List ℕ) : Prop :=
  L.length = L'.length + missing T M ∧ ∀ q, T' q = none ↔ T q = none ∧ q ∉ M

theorem Adds.insert_none {T₁ : List (Fin 512) → Option ℕ} (hT₁ : T₁ = Function.update T q (some c))
    (hq : T q = none) (hM : q ∉ M) (h : Adds T₁ L M T' L') : Adds T (c :: L) (insert q M) T' L' := by
  subst hT₁
  constructor
  · rw [missing_insert_none hq hM c, List.length_cons, h.1]
    omega
  · intro r
    rw [h.2 r, Function.update_apply, Finset.mem_insert]
    by_cases hr : r = q
    · simp [hr]
    · simp [hr]

theorem Adds.insert_some (hq : T q = some a) (h : Adds T L M T' L') : Adds T L (insert q M) T' L' := by
  constructor
  · rw [missing_insert_some hq, h.1]
  · intro r
    rw [h.2 r, Finset.mem_insert]
    constructor
    · rintro ⟨hr, hM⟩
      refine ⟨hr, not_or.mpr ⟨?_, hM⟩⟩
      rintro rfl
      rw [hq] at hr
      simp at hr
    · exact fun ⟨hr, hM⟩ => ⟨hr, fun h' => hM (.inr h')⟩

/-- The loop of `GetPTE` ends at the table on the path, or there are too few free pages for the
tables that are missing. -/
theorem walk_spec (va i k : ℕ) (h : Tables 2 v root T L) (hq : T q = some a) (hlen : q.length + k ≤ 2) :
    ∃ o v' T' L', walkWith allocOrNull v va true a i k = .ok (o, v') ∧ Tables 2 v' root T' L' ∧
      Grown v T L v' T' L' ∧ (∀ vb, leaf v'.mem T' vb = leaf v.mem T vb) ∧
      (o = none ∧ L' = [] ∧ L.length < missing T (tablesFrom q va i k) ∨
        ∃ b, o = some b ∧ T' (q ++ indices va i k) = some b ∧ Adds T L (tablesFrom q va i k) T' L') := by
  induction k generalizing v T L q a i with
  | zero =>
    refine ⟨some a, v, T, L, rfl, h, .refl v T L, fun _ => rfl, .inr ⟨a, rfl, ?_, ?_⟩⟩
    · rw [indices, List.append_nil, hq]
    · simp [Adds, missing, tablesFrom]
  | succ k ih =>
    have hchild := h.isTree.child q a (index va i) (by omega) hq
    rw [child, entryTarget, entry, coe_index] at hchild
    have hpath : q ++ indices va i (k + 1) = (q ++ [index va i]) ++ indices va (i - 1) k := by
      rw [indices, List.append_assoc, List.singleton_append]
    have hlen' : (q ++ [index va i]).length + k ≤ 2 := by
      rw [List.length_append, List.length_singleton]
      omega
    rw [walkWith, hpath, tablesFrom]
    split
    · -- the table is missing
      next hv =>
      rw [if_pos hv] at hchild
      rw [if_pos rfl]
      cases L with
      | nil =>
        refine ⟨none, v, T, [], by rw [h.allocOrNull_nil]; rfl, h, .refl v T [], fun _ => rfl,
          .inl ⟨rfl, rfl, ?_⟩⟩
        rw [missing_insert_none hchild not_mem_tablesFrom 0]
        exact Nat.succ_pos _
      | cons c L =>
        obtain ⟨v₁, heq₁, h₁, hsame, hzero, hc, hcL, hcT⟩ := h.allocOrNull_cons
        obtain ⟨he, hvalid, htarget, -⟩ := entry_spec (k := 0) hc (by decide) rfl
        rw [Nat.or_zero] at he hvalid htarget
        have h₂ := h₁.attach hq (by omega) hchild hc hcL hcT he
          (by rw [entryTarget, if_neg hvalid, htarget]) fun _ => hzero
        have hleaf := h₁.leaf_attach hq (by omega) hchild hc hcT he hzero
        obtain ⟨o, v', T', L', heq, h', hgrown, hleaf', hcase⟩ :=
          ih (i := i - 1) h₂ (Function.update_self ..) hlen'
        refine ⟨o, v', T', L', ?_, h', (h.grown_attach hq (by omega) hchild hsame).trans hgrown,
          fun vb => (hleaf' vb).trans ((hleaf vb).trans (h.leaf_of_same hsame vb)), ?_⟩
        · have hload : (v₁.mem.store (a + 8 * index va i) 8 (c >>> 2 ||| PTE.V)).load
              (a + 8 * index va i) 8 =
              c >>> 2 ||| PTE.V := load_store_of_lt _ _ he
          rw [heq₁, ok_bind]
          simp only [if_neg hc.ne_zero, ← coe_index, hload, htarget]
          exact heq
        · rcases hcase with ⟨ho, hL', hlt⟩ | ⟨b, ho, hb, hadds⟩
          · refine .inl ⟨ho, hL', ?_⟩
            rw [missing_insert_none hchild not_mem_tablesFrom c, List.length_cons]
            omega
          · exact .inr ⟨b, ho, hb, hadds.insert_none rfl hchild not_mem_tablesFrom⟩
    · next hv =>
      rw [if_neg hv] at hchild
      obtain ⟨o, v', T', L', heq, h', hgrown, hleaf', hcase⟩ := ih (i := i - 1) h hchild hlen'
      refine ⟨o, v', T', L', heq, h', hgrown, hleaf', ?_⟩
      rcases hcase with ⟨ho, hL', hlt⟩ | ⟨b, ho, hb, hadds⟩
      · exact .inl ⟨ho, hL', by rwa [missing_insert_some hchild]⟩
      · exact .inr ⟨b, ho, hb, hadds.insert_some hchild⟩

/-- A write to an entry of a lowest table. -/
theorem setLeaf (h : Tables 2 v root T L) (hb : T (indices va 2 2) = some b) (he : e < 2 ^ 64) :
    Tables 2 { v with mem := v.mem.store (b + 8 * index va 0) 8 e } root T L ∧
      Same v.mem (v.mem.store (b + 8 * index va 0) 8 e) (fun x => ¬ InTables T x) ∧
      ∀ vb, leaf (v.mem.store (b + 8 * index va 0) 8 e) T vb = if path vb =
      path va then e else leaf v.mem T vb := by
  have hbp := h.page _ b hb
  have hsame := store_entry_same v.mem b (index va 0) e
  refine ⟨h.of_page hbp (h.fresh _ b hb) (fun q hlt hq => ?_) hsame,
    hsame.mono fun x hx => ?_, fun vb => ?_⟩
  · have hlen := congrArg List.length (h.inj _ _ _ hq hb)
    rw [length_indices] at hlen
    omega
  · by_contra hin
    exact hx ⟨_, b, hb, by rw [length_indices]; omega, by omega, by omega⟩
  · have hiff : path vb = path va ↔ indices vb 2 2 = indices va 2 2 ∧ index vb 0 = index va 0 := by
      rw [path_eq, path_eq, List.append_singleton_inj]
    unfold leaf
    cases ha : T (indices vb 2 2) with
    | none =>
      rw [if_neg]
      rw [hiff]
      rintro ⟨hdir, -⟩
      rw [hdir, hb] at ha
      simp at ha
    | some a =>
      have hab : a = b ↔ indices vb 2 2 = indices va 2 2 := by
        constructor
        · rintro rfl
          exact h.inj _ _ _ ha hb
        · intro hdir
          rw [hdir, hb] at ha
          exact (Option.some.inj ha).symm
      dsimp only
      rw [entry_store _ hbp (h.page _ a ha) _ _ he]
      simp only [hab, hiff]

/-- `MapPage` writes the entry of the page, or finds too few free pages for the tables and writes
none. -/
theorem mapPage_spec (h : Tables 2 v root T L) (hpa : pa % 4096 = 0) (hle : pa ≤ MEMORY_END)
    (hva : va % 4096 = 0) (hmax : va ≤ MAX_SUPPORT_VA) (hk : k < 1024) :
    ∃ r v' T' L', mapPageWith allocOrNull v root va pa k = .ok (r, v') ∧ Tables 2 v' root T' L' ∧
      Grown v T L v' T' L' ∧
      (r = false ∧ L' = [] ∧ L.length < missing T (tablesOf va) ∧
          (∀ vb, leaf v'.mem T' vb = leaf v.mem T vb) ∨
        r = true ∧ Adds T L (tablesOf va) T' L' ∧ ∀ vb, leaf v'.mem T' vb =
          if path vb = path va then (pa >>> 2) ||| PTE.V ||| k else leaf v.mem T vb) := by
  have hsize : PGSIZE = 4096 := rfl
  have hroot := h.root_page
  obtain ⟨o, v₁, T₁, L₁, hwalk, h₁, hgrown, hleaf, hcase⟩ :=
    h.walk_spec va 2 2 h.isTree.root (by simp)
  have hcast : (if va % PGSIZE ≠ 0 then addrCastDown va else va) = va := if_neg (by rw [hsize]; omega)
  have hget : getPTEWith allocOrNull v root va true 3 =
      .ok (match o with | none => (0, v₁) | some b => (b + 8 * vaIndex va 0, v₁)) := by
    rw [getPTEWith, if_neg hroot.ne_zero, if_neg (by omega)]
    simp only [hcast, Nat.add_one_sub_one, hwalk, ok_bind]
    cases o with
    | none => rfl
    | some b => rfl
  rw [mapPageWith, if_neg hroot.ne_zero, if_neg (by omega), if_neg (by omega),
    if_neg (by rw [hsize, hroot.aligned, hva, hpa]; simp), hget]
  rcases hcase with ⟨rfl, hL, hlt⟩ | ⟨b, rfl, hb, hadds⟩
  · exact ⟨false, v₁, T₁, L₁, rfl, h₁, hgrown, .inl ⟨rfl, hL, hlt, hleaf⟩⟩
  · obtain ⟨he, -, -, -⟩ := entry_flags hpa hle hk
    obtain ⟨h₂, hsame, hset⟩ := h₁.setLeaf hb he
    have hne : b + 8 * vaIndex va 0 ≠ 0 := by
      have := (h₁.page _ b hb).ne_zero
      omega
    refine ⟨true, _, T₁, L₁, ?_, h₂, ⟨hgrown.keep, hgrown.new, hgrown.suffix, hgrown.left, ?_⟩,
      .inr ⟨rfl, hadds, fun vb => ?_⟩⟩
    · rw [ok_bind]
      simp only [if_neg hne, coe_index]
      rfl
    · refine hgrown.same.trans (hsame.mono ?_)
      rintro x ⟨hx, hxT⟩ ⟨q, a, hq, hlt, hr⟩
      rcases hgrown.new q a hq with hq | ha
      · exact hxT ⟨q, a, hq, hlt, hr⟩
      · exact hx ⟨a, ha, hr⟩
    · rw [hset vb, hleaf vb]

/-- What a successful `MapPage` was given. -/
theorem mapPage_true {k : ℕ} (h : v.mapPage root va pa k = .ok (true, v')) :
    va % 4096 = 0 ∧ pa % 4096 = 0 ∧ va ≤ MAX_SUPPORT_VA ∧ pa ≤ MEMORY_END := by
  have hsize : PGSIZE = 4096 := rfl
  unfold VirtualMemory.mapPage at h
  split at h
  · cases h
  split at h
  · cases h
  split at h
  · cases h
  split at h
  · cases h
  · simp only [not_or, not_not, hsize] at *
    omega

/-- The page of an address after a successful `MapPage`. -/
theorem mapPage_leaf (h : Tables 2 v root T L) (hk : k < 1024)
    (hmap : v.mapPage root va pa k = .ok (true, v')) :
    ∃ T' L', Tables 2 v' root T' L' ∧ Grown v T L v' T' L' ∧ ∀ vb, leaf v'.mem T' vb =
      if path vb = path va then (pa >>> 2) ||| PTE.V ||| k else leaf v.mem T vb := by
  obtain ⟨hva, hpa, hmax, hle⟩ := mapPage_true hmap
  obtain ⟨r, v₁, T', L', heq, h', hgrown, hcase⟩ := h.mapPage_spec hpa hle hva hmax hk
  obtain ⟨rfl, rfl⟩ := Prod.mk.inj (Except.ok.inj (heq.symm.trans (mapPageWith_of_mapPage hmap)))
  rcases hcase with ⟨hr, -⟩ | ⟨-, -, hleaf⟩
  · exact Bool.noConfusion hr
  · exact ⟨T', L', h', hgrown, hleaf⟩

/-- After `MapPage` the page is mapped where it was asked for, with the permissions that were asked
for, and every other address is translated as before. -/
theorem mapPage_inverse_local (h : Tables 2 v root T L) (hk : k < 2 ^ 8)
    (hmap : v.mapPage root va pa k = .ok (true, v')) :
    (∃ T' L', Tables 2 v' root T' L') ∧
      (∀ d < PGSIZE, ∀ o, v'.vaToPA root (va + d) o = .ok (pa + d, k &&& PTE_MASK)) ∧
      ∀ x ≤ MAX_SUPPORT_VA, x < va ∨ va + PGSIZE ≤ x → ∀ o, v'.vaToPA root x o = v.vaToPA root x o := by
  have hsize : PGSIZE = 4096 := rfl
  have hMAX : MAX_SUPPORT_VA = 2 ^ 38 - 1 := rfl
  obtain ⟨hva, hpa, hmax, hle⟩ := mapPage_true hmap
  obtain ⟨T', L', h', -, hleaf⟩ := h.mapPage_leaf (by omega) hmap
  refine ⟨⟨T', L', h'⟩, fun d hd o => ?_, fun x hx hout o => ?_⟩
  · obtain ⟨-, hvalid, htarget, hmask⟩ := entry_flags hpa hle (show k < 1024 by omega)
    have hpath : path (va + d) = path va := (path_inj (by omega) (by omega)).mpr (by omega)
    rw [vaToPA_leaf h' (by omega), hleaf, if_pos hpath, leafPA, if_neg hvalid, htarget, hmask,
      show (va + d) % PGSIZE = d by rw [hsize]; omega]
  · have hpath : path x ≠ path va := by
      rw [Ne, path_inj (by omega) (by omega)]
      omega
    rw [vaToPA_leaf h' (by omega), vaToPA_leaf h (by omega), hleaf, if_neg hpath]

/-- A root without entries, with a page to map. -/
theorem mapPage_inverse_local_root :
    ∃ (v v' : VirtualMemory) (root pa : ℕ), v.mapPage root PGSIZE pa (PTE.R ||| PTE.U) = .ok (true, v') ∧
      ∀ d < PGSIZE, ∀ o, v'.vaToPA root (PGSIZE + d) o = .ok (pa + d, PTE.R ||| PTE.U) := by
  obtain ⟨v₁, root, L, h₁, hlen⟩ := exists_tables 4 (by omega)
  obtain ⟨pa, L, rfl⟩ := List.exists_cons_of_length_pos (show 0 < L.length by omega)
  obtain ⟨v₂, heq₂, h₂, -, -, hpa, hpaL, hpaT⟩ := (h₁ 3).alloc
  obtain ⟨w, heq₂', h, -⟩ := (h₁ 2).alloc
  obtain ⟨-, rfl⟩ := Prod.mk.inj (Except.ok.inj (heq₂.symm.trans heq₂'))
  obtain ⟨M, hM⟩ : ∃ M : Finset (List (Fin 512)),
    M = (Finset.range 3).image fun j => indices PGSIZE 2 (j + 1) :=
    ⟨_, rfl⟩
  have hcard : M.card ≤ 3 := by
    rw [hM]
    exact Finset.card_image_le
  rw [List.length_cons] at hlen
  obtain ⟨v₃, T', L', heq, hspace, -⟩ :=
    (addressSpace_iff.mpr h₂).mapPage (k := PTE.R ||| PTE.U) (n := 0)
    hpa hpaL hpaT (show PGSIZE % 4096 = 0 by decide) (by decide) (rootOnly_path _)
    (by decide) (by decide)
    (M := M) ((Finset.card_filter_le _ _).trans (Finset.card_erase_le.trans (by omega)))
    fun j hj => by
      rw [hM]
      exact Finset.mem_image_of_mem _ (Finset.mem_range.mpr hj)
  exact ⟨v₂, v₃, root, pa, heq, (h.mapPage_inverse_local (by decide) heq).2.1⟩

end Tables

end OrangeOs.Kernel
