import OrangeOs.Kernel.Tables
import OrangeOs.Kernel.Teardown

/-! # Mapping pages

`GetPTE` allocates the tables that are missing on the path of an address, and `MapPage` writes the
entry of the page. New pages come from the front of the free list; what was in the tree stays there.
-/

namespace OrangeOs.Kernel

open Memory VirtualMemory

variable {root va a b c i k n pa x y privilege : ℕ} {L L' F F' : List ℕ}
  {v v' v'' : VirtualMemory} {m' : Memory} {T T' T'' : List (Fin 512) → Option ℕ}
  {q r : List (Fin 512)} {M : Finset (List (Fin 512))}

/-- The paths of `M` that have no page yet, and `n` pages more, do not exceed the free pages. -/
def Enough (T : List (Fin 512) → Option ℕ) (M : Finset (List (Fin 512))) (n : ℕ) (L : List ℕ) : Prop :=
  (M.filter fun q => T q = none).card + n ≤ L.length

theorem Enough.cons (h : Enough T M n L) (hn : 0 < n) : ∃ c L', L = c :: L' ∧ Enough T M (n - 1) L' := by
  unfold Enough at h
  cases L with
  | nil =>
    rw [List.length_nil] at h
    omega
  | cons c L =>
    rw [List.length_cons] at h
    refine ⟨c, L, rfl, ?_⟩
    unfold Enough
    omega

/-- A path that gets its page from the reserve. -/
theorem Enough.update (h : Enough T M n L) (hr : r ∈ M) (hn : T r = none) :
    Enough (Function.update T r (some c)) M (n + 1) L := by
  unfold Enough at h ⊢
  have hfilter : (M.filter fun q => Function.update T r (some c) q = none) =
      (M.filter fun q => T q = none).erase r := by
    ext q
    simp only [Finset.mem_filter, Finset.mem_erase, Function.update_apply]
    by_cases hq : q = r
    · simp [hq]
    · simp [hq]
  have hmem : r ∈ M.filter fun q => T q = none := by simp [hr, hn]
  have hpos := Finset.card_pos.mpr ⟨r, hmem⟩
  rw [hfilter, Finset.card_erase_of_mem hmem]
  omega

/-- A missing path can get a page. -/
theorem Enough.cons_of_none (h : Enough T M n L) (hr : r ∈ M) (hn : T r = none) :
    ∃ c L', L = c :: L' ∧ ∀ d, Enough (Function.update T r (some d)) M n L' := by
  obtain ⟨c, L', rfl, h'⟩ := (h.update (c := 0) hr hn).cons (Nat.succ_pos n)
  refine ⟨c, L', rfl, fun d => ?_⟩
  have hfilter : (M.filter fun q => Function.update T r (some d) q = none) =
      M.filter fun q => Function.update T r (some 0) q = none := by
    refine Finset.filter_congr fun q _ => ?_
    rw [Function.update_apply, Function.update_apply]
    split <;> simp
  unfold Enough at h' ⊢
  rw [hfilter]
  exact h'

/-- The page of a path is taken from the list before its tables. -/
theorem Enough.erase (h : Enough T M n (c :: L)) (hr : r ∈ M) (hn : T r = none) :
    Enough T (M.erase r) n L := by
  unfold Enough at h ⊢
  have hmem : r ∈ M.filter fun q => T q = none := by simp [hr, hn]
  have hpos := Finset.card_pos.mpr ⟨r, hmem⟩
  rw [List.length_cons] at h
  rw [Finset.filter_erase, Finset.card_erase_of_mem hmem]
  omega

theorem Enough.of_erase (h : Enough T (M.erase r) n L) :
    Enough (Function.update T r (some c)) M n L := by
  have hfilter : (M.filter fun q => Function.update T r (some c) q = none) =
      (M.erase r).filter fun q => T q = none := by
    ext q
    simp only [Finset.mem_filter, Finset.mem_erase, Function.update_apply]
    by_cases hq : q = r
    · simp [hq]
    · simp [hq]
  unfold Enough at h ⊢
  rwa [hfilter]

/-- An address of a table of the tree. -/
def InTables (T : List (Fin 512) → Option ℕ) (x : ℕ) : Prop :=
  ∃ q a, T q = some a ∧ q.length < 3 ∧ a ≤ x ∧ x < a + 4096

/-- The tree grew by pages of `F`. -/
structure Extends (v : VirtualMemory) (T : List (Fin 512) → Option ℕ) (F : List ℕ)
    (v' : VirtualMemory) (T' : List (Fin 512) → Option ℕ) (L' : List ℕ) : Prop where
  keep : ∀ q a, T q = some a → T' q = some a
  entry : ∀ q a i, q.length < 3 → T q = some a → T (q ++ [i]) ≠ none →
    entry v'.mem a i = entry v.mem a i
  same : Same v.mem v'.mem fun x => ¬ InPages F x ∧ ¬ InTables T x
  sub : ∀ c ∈ L', c ∈ F
  new : ∀ q a, T' q = some a → T q = some a ∨ a ∈ F

namespace Extends

theorem refl (v : VirtualMemory) (T : List (Fin 512) → Option ℕ) (L : List ℕ) :
    Extends v T L v T L :=
  ⟨fun _ _ h => h, fun _ _ _ _ _ _ => rfl, Same.refl _ _, fun _ h => h, fun _ _ h => .inl h⟩

theorem trans (h : Extends v T F v' T' L') (h' : Extends v' T' F' v'' T'' L)
    (hF : ∀ c ∈ F', c ∈ F) : Extends v T F v'' T'' L where
  keep q a hq := h'.keep q a (h.keep q a hq)
  entry q a i hlt hq hi := by
    obtain ⟨b, hb⟩ := Option.ne_none_iff_exists'.mp hi
    rw [h'.entry q a i hlt (h.keep q a hq) (by rw [h.keep _ b hb]; simp), h.entry q a i hlt hq hi]
  same := by
    refine h.same.trans (h'.same.mono ?_)
    rintro x ⟨hx, hxT⟩
    refine ⟨fun hin => ?_, fun hin => ?_⟩
    · obtain ⟨c, hc, hr⟩ := hin
      exact hx ⟨c, hF c hc, hr⟩
    · obtain ⟨q, a, hq, hlt, hr⟩ := hin
      rcases h.new q a hq with hq | ha
      · exact hxT ⟨q, a, hq, hlt, hr⟩
      · exact hx ⟨a, ha, hr⟩
  sub c hc := hF c (h'.sub c hc)
  new q a hq := by
    rcases h'.new q a hq with hq | ha
    · exact h.new q a hq
    · exact .inr (hF a ha)

end Extends

namespace AddressSpace

/-- Writes outside the free pages and the tables do not matter. -/
theorem of_same (h : AddressSpace v root T L)
    (hm : Same v.mem m' fun x => InPages L x ∨ InTables T x) :
    AddressSpace { v with mem := m' } root T L :=
  addressSpace_iff.mpr ((addressSpace_iff.mp h).of_same hm)

/-- Writes to a page that is neither free nor a table do not matter. -/
theorem of_page {d : ℕ} (h : AddressSpace v root T L) (hd : IsPage d) (hdL : d ∉ L)
    (hdT : ∀ q, q.length < 3 → T q ≠ some d)
    (hm : Same v.mem m' fun x => x < d ∨ d + 4096 ≤ x) :
    AddressSpace { v with mem := m' } root T L :=
  addressSpace_iff.mpr ((addressSpace_iff.mp h).of_page hd hdL hdT hm)

/-- `Alloc` takes a page that is not in the tree. -/
theorem alloc (h : AddressSpace v root T (c :: L)) :
    ∃ v', v.alloc = .ok (c, v') ∧ AddressSpace v' root T L ∧ Extends v T (c :: L) v' T L ∧
      ZeroPage v'.mem c ∧ IsPage c ∧ c ∉ L ∧ ∀ q, T q ≠ some c := by
  obtain ⟨v', heq, hspace, hsame, hzero, hc, hcL, hcT⟩ := (addressSpace_iff.mp h).alloc
  refine ⟨v', heq, addressSpace_iff.mpr hspace, ⟨fun _ _ hq => hq, ?_, ?_, ?_, ?_⟩, hzero, hc, hcL, hcT⟩
  · intro q a i _ hq _
    refine load_congr fun k hk => hsame _ ((addressSpace_iff.mp h).not_inPages hq (by omega) ?_)
    have := i.isLt
    omega
  · exact hsame.mono fun x hx => hx.1
  · exact fun d hd => List.mem_cons_of_mem c hd
  · exact fun q a hq => .inl hq

/-- A new entry in a table. -/
theorem attach {e : ℕ} {i : Fin 512} (h : AddressSpace v root T L) (hq : T q = some a)
    (hlt : q.length < 3) (hnew : T (q ++ [i]) = none) (hc : IsPage c) (hcL : c ∉ L)
    (hcT : ∀ r, T r ≠ some c) (he : e < 2 ^ 64) (htarget : entryTarget e = some c)
    (hzero : q.length + 1 < 3 → ZeroPage v.mem c) :
    AddressSpace { v with mem := v.mem.store (a + 8 * i) 8 e } root
        (Function.update T (q ++ [i]) (some c)) L ∧
      Extends v T (c :: L) { v with mem := v.mem.store (a + 8 * i) 8 e }
        (Function.update T (q ++ [i]) (some c)) L ∧
      entry (v.mem.store (a + 8 * i) 8 e) a i = e := by
  have hap : IsPage a := h.page q a hq
  refine ⟨addressSpace_iff.mpr ((addressSpace_iff.mp h).attach hq hlt hnew hc hcL hcT he htarget hzero),
    ⟨?_, ?_, ?_, ?_, ?_⟩, ?_⟩
  · intro r d hr
    rw [Function.update_of_ne, hr]
    rintro rfl
    rw [hnew] at hr
    simp at hr
  · intro r d j hlt' hr hj
    rw [entry_store _ hap (h.page r d hr) i j he, if_neg]
    rintro ⟨rfl, rfl⟩
    rw [h.inj r q d hr hq] at hj
    exact hj hnew
  · refine (store_entry_same v.mem a i e).mono fun x hx => ?_
    by_contra hin
    exact hx.2 ⟨q, a, hq, hlt, by omega, by omega⟩
  · exact fun d hd => List.mem_cons_of_mem c hd
  · intro r d hr
    rw [Function.update_apply] at hr
    split at hr
    · exact .inr (by simp [Option.some.inj hr])
    · exact .inl hr
  · rw [entry_store _ hap hap i i he, if_pos ⟨rfl, rfl⟩]

/-- The loop of `GetPTE` with allocation ends at the table on the path, which may be new. -/
theorem walk_alloc (h : AddressSpace v root T L) (hq : T q = some a) (hlen : q.length + k ≤ 2)
    (hM : Enough T M n L) (hwant : ∀ j < k, q ++ indices va i (j + 1) ∈ M) :
    ∃ v' T' L' b, v.walk va true a i k = .ok (some b, v') ∧ AddressSpace v' root T' L' ∧
      Extends v T L v' T' L' ∧ T' (q ++ indices va i k) = some b ∧ Enough T' M n L' ∧
      ∀ r, T r = none → T' r ≠ none → ∃ j < k, r = q ++ indices va i (j + 1) := by
  induction k generalizing v T L q a i with
  | zero =>
    exact ⟨v, T, L, a, rfl, h, .refl v T L, by rw [indices, List.append_nil, hq], hM,
      fun r hr hr' => absurd hr hr'⟩
  | succ k ih =>
    have hchild := h.isTree.child q a (index va i) (by omega) hq
    rw [child, entryTarget, entry, coe_index] at hchild
    have hpath : ∀ j, q ++ indices va i (j + 1) = (q ++ [index va i]) ++ indices va (i - 1) j :=
      fun j => by rw [indices, List.append_assoc, List.singleton_append]
    rw [walk]
    split
    · -- the table is missing
      next hv =>
      rw [if_pos hv] at hchild
      have hmem : q ++ [index va i] ∈ M := by
        have hw := hwant 0 (Nat.succ_pos k)
        rwa [hpath 0, indices, List.append_nil] at hw
      obtain ⟨c, L₁, rfl, hM₁⟩ := hM.cons_of_none hmem hchild
      obtain ⟨v₁, heq₁, hspace₁, hext₁, hzero, hc, hcL, hcT⟩ := h.alloc
      obtain ⟨he, hvalid, htarget, -⟩ := entry_spec (k := 0) hc (by decide) rfl
      rw [Nat.or_zero] at he hvalid htarget
      obtain ⟨hspace₂, hext₂, hentry⟩ := hspace₁.attach hq (by omega) hchild hc hcL hcT he
        (by rw [entryTarget, if_neg hvalid, htarget]) fun _ => hzero
      rw [entry, coe_index] at hentry
      obtain ⟨v', T', L', b, heq, hspace, hext, hb, hM', hnew⟩ := ih hspace₂
        (Function.update_self (q ++ [index va i]) (some c) T)
        (by rw [List.length_append, List.length_singleton]; omega) (hM₁ c)
        (fun j hj => by
          rw [← hpath]
          exact hwant (j + 1) (by omega))
      refine ⟨v', T', L', b, ?_, hspace, hext₁.trans (hext₂.trans hext fun d hd => ?_) fun d hd => hd,
        ?_, hM', fun r hr hr' => ?_⟩
      · rw [if_pos rfl, heq₁, ok_bind]
        simp only [if_neg hc.ne_zero, hentry, htarget]
        exact heq
      · exact List.mem_cons_of_mem c hd
      · rw [hpath, hb]
      · by_cases hrq : r = q ++ [index va i]
        · exact ⟨0, Nat.succ_pos k, by rw [hpath, indices, List.append_nil, hrq]⟩
        · rw [← Function.update_of_ne hrq (some c) T] at hr
          obtain ⟨j, hj, hrj⟩ := hnew r hr hr'
          exact ⟨j + 1, by omega, by rw [hpath, hrj]⟩
    · next hv =>
      rw [if_neg hv] at hchild
      obtain ⟨v', T', L', b, heq, hspace, hext, hb, hM', hnew⟩ := ih h hchild
        (by rw [List.length_append, List.length_singleton]; omega) hM
        (fun j hj => by
          rw [← hpath]
          exact hwant (j + 1) (by omega))
      refine ⟨v', T', L', b, heq, hspace, hext, by rw [hpath, hb], hM', fun r hr hr' => ?_⟩
      obtain ⟨j, hj, hrj⟩ := hnew r hr hr'
      exact ⟨j + 1, by omega, by rw [hpath, hrj]⟩

end AddressSpace

/-- The permissions in the entry of a page. -/
def perm (m : Memory) (T : List (Fin 512) → Option ℕ) (va : ℕ) : ℕ :=
  match T (indices va 2 2) with
  | none => 0
  | some a => entry m a (index va 0) &&& PTE_MASK

theorem path_eq (va : ℕ) : path va = indices va 2 2 ++ [index va 0] := indices_succ va 2 2

/-- `VAToPA` of an address that is mapped. -/
theorem vaToPA_eq (h : IsTree (child v.mem) 3 root T) (hpage : ∀ q a, T q = some a → IsPage a)
    (hva : va < 2 ^ 64) (hb : T (path va) = some b) (o : ℕ) :
    v.vaToPA root va o = .ok (b + va % 4096, perm v.mem T va) := by
  rw [path_eq] at hb
  cases ha : T (indices va 2 2) with
  | none => simp [h.parent _ _ ha] at hb
  | some a =>
    have hchild := h.child _ a (index va 0) (by rw [length_indices]; omega) ha
    rw [hb, child, entryTarget] at hchild
    split at hchild
    · simp at hchild
    · next hv =>
      have hpte : pteAt T va 3 = a + 8 * index va 0 := by
        simp only [pteAt, ha, coe_index]
      have hne : pteAt T va 3 ≠ 0 := by
        have := (hpage _ a ha).ne_zero
        omega
      have hload : v.mem.load (pteAt T va 3) 8 = entry v.mem a (index va 0) := by rw [hpte, entry]
      have htarget := Option.some.inj hchild
      simp only [vaToPA, getPTE_eq h (hpage _ _ h.root).ne_zero hva (by omega) le_rfl (by omega),
        ok_bind, hload,
        hne, hv, or_self, if_false, ← htarget, perm, ha]
      rfl

/-- Where the entries of the tables stay, so do the permissions. -/
theorem Extends.perm_eq (h : Extends v T F v' T' L') (hb : T (path va) = some b)
    (hT : IsTree (child v.mem) 3 root T) : perm v'.mem T' va = perm v.mem T va := by
  rw [path_eq] at hb
  cases ha : T (indices va 2 2) with
  | none => simp [hT.parent _ _ ha] at hb
  | some a =>
    simp only [perm, ha, h.keep _ a ha]
    rw [h.entry _ a _ (by rw [length_indices]; omega) ha (by rw [hb]; simp)]

namespace AddressSpace

/-- `MapPage` of an address that is not mapped. -/
theorem mapPage (h : AddressSpace v root T L) (hpa : IsPage pa) (hpaL : pa ∉ L)
    (hpaT : ∀ r, T r ≠ some pa) (hva : va % 4096 = 0) (hmax : va ≤ MAX_SUPPORT_VA)
    (hnew : T (path va) = none) (hk : k < 32) (hk' : k &&& PTE_MASK = k)
    (hM : Enough T (M.erase (path va)) n L) (hwant : ∀ j < 3, indices va 2 (j + 1) ∈ M) :
    ∃ v' T' L', v.mapPage root va pa k = .ok (true, v') ∧ AddressSpace v' root T' L' ∧
      Extends v T (pa :: L) v' T' L' ∧ T' (path va) = some pa ∧ perm v'.mem T' va = k ∧
      Enough T' M n L' ∧ ∀ r, T r = none → T' r ≠ none → ∃ j < 3, r = indices va 2 (j + 1) := by
  have hrootp := h.root_page
  obtain ⟨v₁, T₁, L₁, b, hwalk, hspace₁, hext₁, hb, hM₁, hnew₁⟩ := @walk_alloc root va root 2 2 n L v T
    [] (M.erase (path va)) h h.isTree.root (by simp) hM (fun j hj => by
      refine Finset.mem_erase.mpr ⟨fun he => ?_, by simpa using hwant j (by omega)⟩
      have hlen := congrArg List.length he
      rw [List.nil_append, length_indices, path, length_indices] at hlen
      omega)
  rw [List.nil_append] at hb
  have hleaf : T₁ (indices va 2 2 ++ [index va 0]) = none := by
    by_contra hne
    rw [← path_eq] at hne
    obtain ⟨j, hj, hpj⟩ := hnew₁ _ hnew hne
    have hlen := congrArg List.length hpj
    rw [List.nil_append, length_indices, path, length_indices] at hlen
    omega
  obtain ⟨he, hvalid, htarget, hmask⟩ := entry_spec hpa hk hk'
  have hpaL₁ : pa ∉ L₁ := fun hx => hpaL (hext₁.sub pa hx)
  have hpaT₁ : ∀ r, T₁ r ≠ some pa := by
    intro r hr
    rcases hext₁.new r pa hr with hr | hr
    · exact hpaT r hr
    · exact hpaL hr
  obtain ⟨hspace₂, hext₂, hentry⟩ := hspace₁.attach hb (by rw [length_indices]; omega) hleaf hpa hpaL₁
    hpaT₁ he (by rw [entryTarget, if_neg hvalid, htarget]) fun hlt => by
      rw [length_indices] at hlt
      omega
  have hkeep := hext₂.keep _ b hb
  rw [← path_eq] at hspace₂ hext₂ hkeep
  have hext₁' : Extends v T (pa :: L) v₁ T₁ L₁ :=
    ⟨hext₁.keep, hext₁.entry, hext₁.same.mono fun x hx =>
      ⟨fun hin => hx.1 (inPages_mono (fun d => List.mem_cons_of_mem pa) hin), hx.2⟩,
      fun d hd => List.mem_cons_of_mem pa (hext₁.sub d hd),
      fun q a hq => (hext₁.new q a hq).imp_right (List.mem_cons_of_mem pa)⟩
  refine ⟨_, _, L₁, ?_, hspace₂, hext₁'.trans hext₂ ?_, Function.update_self .., ?_, hM₁.of_erase,
    fun r hr hr' => ?_⟩
  · have hsize : PGSIZE = 4096 := rfl
    have hend := hpa.lt
    rw [VirtualMemory.mapPage, if_neg hrootp.ne_zero, if_neg (by rw [MEMORY_END_eq]; omega),
      if_neg (by omega), if_neg (by rw [hsize, hrootp.aligned, hva, hpa.aligned]; simp)]
    have hget : v.getPTE root va true 3 = .ok (b + 8 * vaIndex va 0, v₁) := by
      rw [getPTE, if_neg hrootp.ne_zero, if_neg (by omega)]
      have hcast : (if va % PGSIZE ≠ 0 then addrCastDown va else va) = va :=
        if_neg (by rw [hsize]; omega)
      simp only [hcast, Nat.add_one_sub_one, hwalk, ok_bind]
      rfl
    have hne : b + 8 * vaIndex va 0 ≠ 0 := by
      have := (hspace₁.page _ b hb).ne_zero
      omega
    rw [hget, ok_bind]
    simp only [if_neg hne, coe_index]
    rfl
  · intro d hd
    rcases List.mem_cons.mp hd with rfl | hd
    · simp
    · exact List.mem_cons_of_mem pa (hext₁.sub d hd)
  · simp only [perm, hkeep, hentry, hmask]
  · by_cases hrp : r = path va
    · exact ⟨2, by omega, hrp⟩
    · rw [Function.update_of_ne hrp] at hr'
      obtain ⟨j, hj, hrj⟩ := hnew₁ r hr hr'
      exact ⟨j, by omega, hrj⟩

/-- One round of the loop of `MapMemory`. -/
theorem mapFrom_step {va_beg va_end : ℕ} (hlt : i < va_end) (halloc : v.alloc = .ok (c, v'))
    (hc : c ≠ 0) (hmap : v'.mapPage root i c k = .ok (true, v'')) :
    v.mapFrom root va_beg i va_end k = v''.mapFrom root va_beg (i + PGSIZE) va_end k := by
  rw [mapFrom, dif_pos hlt, halloc, ok_bind]
  generalize i + PGSIZE = j
  simp only [if_neg hc, hmap, ok_bind, if_true]

/-- `MapMemory` of a range inside one page that is not mapped. -/
theorem mapMemory_page (h : AddressSpace v root T L) (hxy : x < y) (hpage : (y - 1) / 4096 = x / 4096)
    (hmax : x ≤ MAX_SUPPORT_VA) (hnew : T (path x) = none) (hk : k < 32) (hk' : k &&& PTE_MASK = k)
    (hM : Enough T M n L) (hwant : ∀ j < 3, indices x 2 (j + 1) ∈ M) :
    ∃ v' T' L' c, v.mapMemory root x y k = .ok (true, v') ∧ AddressSpace v' root T' L' ∧
      Extends v T L v' T' L' ∧ T' (path x) = some c ∧ perm v'.mem T' x = k ∧ Enough T' M n L' ∧
      ∀ r, T r = none → T' r ≠ none → ∃ j < 3, r = indices x 2 (j + 1) := by
  simp only [MAX_SUPPORT_VA] at hmax
  have hsize : PGSIZE = 4096 := rfl
  obtain ⟨d, hd, hd'⟩ : ∃ d, d = x - x % 4096 ∧ d % 4096 = 0 := ⟨_, rfl, by omega⟩
  have hbase : indices d 2 = indices x 2 := by
    funext k
    exact indices_congr (by omega) 2 k
  have hindex : index d 0 = index x 0 := by
    have hone := congrFun hbase 3
    simp only [indices, List.cons.injEq, and_true] at hone
    exact hone.2.2
  have hpath : path d = path x := congrFun hbase 3
  obtain ⟨c, L₁, rfl, -⟩ := hM.cons_of_none (hwant 2 (by omega)) hnew
  obtain ⟨v₁, heq₁, hspace₁, hext₁, -, hc, hcL, hcT⟩ := h.alloc
  obtain ⟨v', T', L', heq, hspace, hext, hb, hperm, hM', hnew'⟩ := hspace₁.mapPage (n := n) hc hcL hcT
    hd' (by simp only [MAX_SUPPORT_VA]; omega) (by rw [hpath]; exact hnew) hk hk'
    (by rw [hpath]; exact hM.erase (hwant 2 (by omega)) hnew)
    (fun j hj => by rw [hbase]; exact hwant j hj)
  rw [hpath] at hb
  rw [hbase] at hnew'
  refine ⟨v', T', L', c, ?_, hspace, hext₁.trans hext fun d hd => hd, hb, ?_, hM', hnew'⟩
  · have hdown : addrCastDown x = d := by rw [addrCastDown_eq (by omega), hd]
    have hup : addrCastUp y = d + PGSIZE := by
      rw [addrCastUp_eq (by omega)]
      omega
    rw [mapMemory, hdown, hup, mapFrom_step (by omega) heq₁ hc.ne_zero heq, mapFrom,
      dif_neg (by omega)]
  · rw [← hperm, perm, perm, hbase, hindex]

end AddressSpace

end OrangeOs.Kernel
