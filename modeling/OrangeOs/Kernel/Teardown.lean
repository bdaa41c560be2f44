import OrangeOs.Kernel.PageTree

/-! # The teardown of a process

`FreePageTable` walks the same addresses three times and frees the pages of one level of the tree each
time. The pages of the level are the only ones that the round changes, and the round after it no
longer reads them.
-/

namespace OrangeOs.Kernel

open Memory VirtualMemory

variable {root va a b c i k va_end : ℕ} {L P : List ℕ} {v : VirtualMemory}
  {T T₀ : List (Fin 512) → Option ℕ} {q : List (Fin 512)}

namespace AddressSpace

theorem root_page (h : AddressSpace v root T L) : IsPage root := h.page [] root h.isTree.root

/-- The child at the end of a path. -/
theorem entry_of_path (h : AddressSpace v root T L) (hk : 1 ≤ k) (hk' : k ≤ 3)
    (hb : T (indices va 2 k) = some b) :
    ∃ a, T (indices va 2 (k - 1)) = some a ∧ pteAt T va k = a + 8 * index va (3 - k) ∧
      entry v.mem a (index va (3 - k)) &&& PTE.V ≠ 0 ∧
      pteTarget (entry v.mem a (index va (3 - k))) = b := by
  obtain ⟨j, rfl⟩ : ∃ j, k = j + 1 := ⟨k - 1, by omega⟩
  rw [indices_succ] at hb
  rw [show 3 - (j + 1) = 2 - j by omega, Nat.add_sub_cancel]
  cases ha : T (indices va 2 j) with
  | none =>
    rw [h.isTree.parent _ _ ha] at hb
    simp at hb
  | some a =>
    have hchild := h.isTree.child _ a (index va (2 - j)) (by rw [length_indices]; omega) ha
    rw [hb, child, entryTarget] at hchild
    refine ⟨a, rfl, ?_, ?_⟩
    · rw [pteAt, Nat.add_sub_cancel, ha, show 3 - (j + 1) = 2 - j by omega]
      rfl
    · split at hchild
      · simp at hchild
      · next hv => exact ⟨hv, (Option.some.inj hchild).symm⟩

/-- `FreePage` reads the entry that `GetPTE` finds. -/
theorem freePageAt_eq (h : AddressSpace v root T L) (hva : va < 2 ^ 64) (hk : 1 ≤ k) (hk' : k ≤ 3) :
    v.freePageAt root va k =
      if pteAt T va k ≠ 0 ∧ v.mem.load (pteAt T va k) 8 &&& PTE.V ≠ 0 then do
        let t := pteTarget (v.mem.load (pteAt T va k) 8)
        let v ← (v.push t).updateBitMap t .free
        return { v with mem := v.mem.store (pteAt T va k) 8 0 }
      else .ok v := by
  have hva' : (if va % PGSIZE ≠ 0 then addrCastDown va else va) < 2 ^ 64 := by
    rw [addrCastDown_eq hva]
    split <;> omega
  have hidx : pteAt T (if va % PGSIZE ≠ 0 then addrCastDown va else va) k = pteAt T va k := by
    rw [pteAt, indices_addrCastDown hva, vaIndex_addrCastDown hva, pteAt]
  rw [VirtualMemory.freePageAt]
  simp only [getPTE_eq h.isTree h.root_page.ne_zero hva' hk hk' (by omega), ok_bind, hidx]
  rfl

/-- `FreePage` takes a node and what is below it out of the tree, and puts the page of the node on
the list. -/
theorem freePageAt_some (h : AddressSpace v root T L) (hva : va < 2 ^ 64) (hk : 1 ≤ k) (hk' : k ≤ 3)
    (hb : T (indices va 2 k) = some b) :
    ∃ v' a, v.freePageAt root va k = .ok v' ∧ AddressSpace v' root (prune T (indices va 2 k)) (b :: L) ∧
      T (indices va 2 (k - 1)) = some a ∧ Same v.mem v'.mem fun x => ¬ InPages (a :: b :: L) x := by
  obtain ⟨a, ha, hpte, hvalid, htarget⟩ := h.entry_of_path hk hk' hb
  have hap : IsPage a := h.page _ _ ha
  have hbp : IsPage b := h.page _ _ hb
  have hbL : b ∉ L := h.fresh _ _ hb
  have hpath : indices va 2 k = indices va 2 (k - 1) ++ [index va (3 - k)] := by
    obtain ⟨j, rfl⟩ : ∃ j, k = j + 1 := ⟨k - 1, by omega⟩
    rw [indices_succ, Nat.add_sub_cancel, show 3 - (j + 1) = 2 - j by omega]
  have hab : a ≠ b := by
    rintro rfl
    have hlen := congrArg List.length (h.inj _ _ _ ha hb)
    rw [length_indices, length_indices] at hlen
    omega
  obtain ⟨v₁, hup, hv₁, -⟩ := updateBitMap_eq (v.push b) hbp .free
  have hmem : v₁.mem = (v.push b).mem := by rw [hv₁]
  have hlist : OnList v₁ (b :: L) := (h.list.push hbp hbL).bits hv₁
  -- the push changes no table of the tree that is left
  have hsame : ∀ q c, T q = some c → c ≠ b → ∀ i, child v₁.mem c i = child v.mem c i := by
    intro q c hc hcb i
    rw [hmem]
    refine child_congr (fun x hx hx' => h.list.push_same b x ?_) i
    rintro ⟨d, hd, hdx, hdx'⟩
    rcases List.mem_cons.mp hd with rfl | hd
    · have := (h.page q c hc).apart hbp hcb
      omega
    · have hcd : c ≠ d := fun he => h.fresh q c hc (he ▸ hd)
      have := (h.page q c hc).apart (h.list.page d hd) hcd
      omega
  have hstore : ∀ c, IsPage c → ∀ j, child (v₁.mem.store (a + 8 * index va (3 - k)) 8 0) c j =
      if c = a ∧ j = index va (3 - k) then none else child v₁.mem c j := by
    intro c hc j
    rw [child, entry_store _ hap hc _ _ (by omega), apply_ite entryTarget]
    rfl
  have hout : Same v₁.mem (v₁.mem.store (pteAt T va k) 8 0) fun x => ¬ InPages [a] x := by
    rw [hpte]
    refine (store_entry_same v₁.mem a _ 0).mono fun x hx => ?_
    by_contra hin
    exact hx ⟨a, by simp, by omega, by omega⟩
  refine ⟨{ v₁ with mem := v₁.mem.store (pteAt T va k) 8 0 }, a, ?_, ⟨?_, ?_, ?_, ?_, ?_⟩, ha, ?_⟩
  · rw [h.freePageAt_eq hva hk hk']
    have hne : pteAt T va k ≠ 0 := by
      rw [hpte]
      have := hap.ne_zero
      omega
    have hload : v.mem.load (pteAt T va k) 8 = entry v.mem a (index va (3 - k)) := by
      rw [hpte, entry]
    rw [hload, htarget, if_pos ⟨hne, hvalid⟩]
    simp only [hup]
    rfl
  · refine hlist.of_same (hout.mono ?_)
    rintro x ⟨d, hd, hdx, hdx'⟩ ⟨c, hc, hcx, hcx'⟩
    obtain rfl := List.mem_singleton.mp hc
    have had : c ≠ d := by
      rintro rfl
      rcases List.mem_cons.mp hd with he | hd
      · exact hab he
      · exact h.fresh _ _ ha hd
    have := hap.apart (hlist.page d hd) had
    omega
  · rw [hpath] at hb ⊢
    refine h.isTree.detach fun q c j hlt hc hn => ?_
    have hcb : c ≠ b := fun he => hn (h.inj _ _ _ hc (he ▸ hb) ▸ List.prefix_refl _)
    rw [hpte, hstore c (h.page q c hc) j, hsame q c hc hcb]
    have hiff : c = a ↔ q = indices va 2 (k - 1) :=
      ⟨fun he => h.inj _ _ _ hc (he ▸ ha), fun he => by
        rw [he, ha] at hc
        exact (Option.some.inj hc).symm⟩
    simp only [hiff]
  · exact fun q c hc => h.page q c (prune_eq_some.mp hc).2
  · exact fun q q' c hq hq' => h.inj q q' c (prune_eq_some.mp hq).2 (prune_eq_some.mp hq').2
  · intro q c hc
    obtain ⟨hn, hc⟩ := prune_eq_some.mp hc
    rw [List.mem_cons, not_or]
    exact ⟨fun he => hn (h.inj _ _ _ hc (he ▸ hb) ▸ List.prefix_refl _), h.fresh q c hc⟩
  · have hpush : Same v.mem v₁.mem fun x => ¬ InPages (b :: L) x := by
      rw [hmem]
      exact h.list.push_same b
    refine (hpush.mono ?_).trans (hout.mono ?_)
    · exact fun x hx hin => hx (inPages_mono (fun d hd => List.mem_cons_of_mem a hd) hin)
    · exact fun x hx hin => hx
        (inPages_mono (fun d hd => List.mem_cons.mpr (.inl (List.mem_singleton.mp hd))) hin)

/-- `FreePage` does nothing where there is no node. -/
theorem freePageAt_none (h : AddressSpace v root T L) (hva : va < 2 ^ 64) (hk : 1 ≤ k) (hk' : k ≤ 3)
    (hb : T (indices va 2 k) = none) : v.freePageAt root va k = .ok v := by
  obtain ⟨j, rfl⟩ : ∃ j, k = j + 1 := ⟨k - 1, by omega⟩
  rw [h.freePageAt_eq hva hk hk', if_neg]
  rintro ⟨hne, hvalid⟩
  rw [pteAt, Nat.add_sub_cancel] at hne hvalid
  rw [indices_succ] at hb
  cases ha : T (indices va 2 j) with
  | none => simp [ha] at hne
  | some a =>
    have hchild := h.isTree.child _ a (index va (2 - j)) (by rw [length_indices]; omega) ha
    rw [hb, child, entryTarget] at hchild
    simp only [ha, show 3 - (j + 1) = 2 - j by omega] at hvalid
    rw [entry, coe_index, if_neg hvalid] at hchild
    simp at hchild

end AddressSpace

/-- The tree `T` with the nodes of some pages `P` taken out. -/
structure Pruned (T₀ T : List (Fin 512) → Option ℕ) (P : List ℕ) : Prop where
  sub : ∀ q a, T q = some a → T₀ q = some a
  mem_iff : ∀ c, c ∈ P ↔ ∃ q, T₀ q = some c ∧ T q = none

theorem Pruned.refl (T : List (Fin 512) → Option ℕ) : Pruned T T [] where
  sub _ _ h := h
  mem_iff c := by
    constructor
    · simp
    · rintro ⟨q, hq, hq'⟩
      simp [hq] at hq'

theorem Pruned.update (h : Pruned T₀ T P) (hb : T q = some b) :
    Pruned T₀ (Function.update T q none) (b :: P) where
  sub q' a ha := by
    rw [Function.update_apply] at ha
    split at ha
    · simp at ha
    · exact h.sub q' a ha
  mem_iff c := by
    rw [List.mem_cons, h.mem_iff c]
    constructor
    · rintro (rfl | ⟨q', hq', hn⟩)
      · exact ⟨q, h.sub q c hb, Function.update_self ..⟩
      · refine ⟨q', hq', ?_⟩
        rw [Function.update_apply, hn, ite_self]
    · rintro ⟨q', hq', hn⟩
      by_cases hqq : q' = q
      · subst hqq
        rw [h.sub q' b hb] at hq'
        exact .inl (Option.some.inj hq').symm
      · rw [Function.update_of_ne hqq] at hn
        exact .inr ⟨q', hq', hn⟩

/-- The state of the teardown: the pages `P` are back on the list, which was `L` before. -/
structure Tearing (v : VirtualMemory) (root : ℕ) (T₀ T : List (Fin 512) → Option ℕ) (L P : List ℕ) :
    Prop where
  space : AddressSpace v root T (P ++ L)
  pruned : Pruned T₀ T P

/-- A later tree has fewer nodes, and lost none that are not of length `k`. -/
structure Below (k : ℕ) (T T' : List (Fin 512) → Option ℕ) : Prop where
  none : ∀ q, T q = none → T' q = none
  other : ∀ q, q.length ≠ k → T' q = T q

theorem Below.refl (k : ℕ) (T : List (Fin 512) → Option ℕ) : Below k T T :=
  ⟨fun _ h => h, fun _ _ => rfl⟩

theorem Below.trans {T' T'' : List (Fin 512) → Option ℕ} (h : Below k T T') (h' : Below k T' T'') :
    Below k T T'' :=
  ⟨fun q hq => h'.none q (h.none q hq), fun q hq => (h'.other q hq).trans (h.other q hq)⟩

namespace Tearing

/-- One call of `FreePage`. -/
theorem freePageAt (h : Tearing v root T₀ T L P) (hva : va < 2 ^ 64) (hk : 1 ≤ k) (hk' : k ≤ 3)
    (hleaf : ∀ q, q.length = k + 1 → T q = none) :
    ∃ v' T' P', v.freePageAt root va k = .ok v' ∧ Tearing v' root T₀ T' L P' ∧ Below k T T' ∧
      T' (indices va 2 k) = none := by
  cases hb : T (indices va 2 k) with
  | none => exact ⟨v, T, P, h.space.freePageAt_none hva hk hk' hb, h, .refl k T, hb⟩
  | some b =>
    obtain ⟨v', -, heq, hspace, -⟩ := h.space.freePageAt_some hva hk hk' hb
    rw [h.space.isTree.prune_leaf fun j =>
      hleaf _ (by rw [List.length_append, length_indices, List.length_singleton])] at hspace
    refine ⟨v', _, b :: P, heq, ⟨hspace, h.pruned.update hb⟩, ⟨fun q hq => ?_, fun q hq => ?_⟩,
      Function.update_self ..⟩
    · rw [Function.update_apply, hq, ite_self]
    · refine Function.update_of_ne ?_ _ _
      rintro rfl
      exact hq (length_indices va 2 k)

/-- The loop of `FreeMemory`. -/
theorem freeFrom (h : Tearing v root T₀ T L P) (hend : va_end ≤ 2 ^ 64) (hk : 1 ≤ k) (hk' : k ≤ 3)
    (hleaf : ∀ q, q.length = k + 1 → T q = none) :
    ∃ v' T' P', v.freeFrom root i va_end k = .ok v' ∧ Tearing v' root T₀ T' L P' ∧ Below k T T' ∧
      ∀ va, i ≤ va → va < va_end → va % 4096 = i % 4096 → T' (indices va 2 k) = none := by
  fun_induction VirtualMemory.freeFrom generalizing T P with
  | case1 v i hlt ih =>
    obtain ⟨v₁, T₁, P₁, heq, htear, hbelow, hnone⟩ := h.freePageAt (show i < 2 ^ 64 by omega)
      hk hk' hleaf
    obtain ⟨v', T', P', heq', htear', hbelow', hnone'⟩ := ih v₁ htear fun q hq => by
      rw [hbelow.other q (by omega), hleaf q hq]
    refine ⟨v', T', P', ?_, htear', hbelow.trans hbelow', fun va hle hva hmod => ?_⟩
    · rw [heq, ok_bind, heq']
    · have hsize : PGSIZE = 4096 := rfl
      by_cases hvi : va = i
      · rw [hvi]
        exact hbelow'.none _ hnone
      · exact hnone' va (by omega) hva (by omega)
  | case2 v i hge =>
    exact ⟨v, T, P, rfl, h, .refl k T, fun va hle hva _ => absurd hva (by omega)⟩

/-- `FreeMemory` frees every node of length `k` on the path of an address of the region. -/
theorem freeMemory {x y : ℕ} (h : Tearing v root T₀ T L P) (hbeg : x < 2 ^ 64)
    (hk : 1 ≤ k) (hk' : k ≤ 3) (hleaf : ∀ q, q.length = k + 1 → T q = none) :
    ∃ v' T' P', v.freeMemory root x y k = .ok v' ∧ Tearing v' root T₀ T' L P' ∧
      Below k T T' ∧
      (y + 4095 < 2 ^ 64 → ∀ va, x ≤ va → va < y → T' (indices va 2 k) = none) := by
  have hup : addrCastUp y ≤ 2 ^ 64 := by
    have hlt : addrCastUp y < 2 ^ 64 := Nat.and_lt_two_pow _ (by decide)
    omega
  obtain ⟨v', T', P', heq, htear, hbelow, hnone⟩ := h.freeFrom (i := addrCastDown x) hup hk hk' hleaf
  refine ⟨v', T', P', heq, htear, hbelow, fun hend va hle hlt => ?_⟩
  rw [addrCastDown_eq hbeg, addrCastUp_eq hend] at hnone
  rw [indices_congr (show va / 4096 = (va - va % 4096) / 4096 by omega)]
  exact hnone _ (by omega) (by omega) (by omega)

end Tearing

/-! ## Processes -/

namespace TaskMemory

variable {p : TaskMemory}

/-- An address of a region. -/
def InRegion (p : TaskMemory) (x : ℕ) : Prop :=
  ∃ i : Fin 16, i < p.used_address_size ∧ (p.used_address i).1.toNat ≤ x ∧
    x < (p.used_address i).2.toNat

/-- An address of a region or of the stack page. -/
def Uses (p : TaskMemory) (x : ℕ) : Prop :=
  p.InRegion x ∨ userStackVa ≤ x ∧ x < getUserSpVa

theorem getUserSpVa_eq : getUserSpVa = 274877902848 := by decide

theorem userStackVa_eq : userStackVa = 274877898752 := by decide

/-- A process whose page table is a tree of distinct pages, none of them free, that maps the pages of
its regions and the stack page, and has no table without a page below it. -/
structure Proper (p : TaskMemory) (v : VirtualMemory) (L : List ℕ) : Prop where
  list : OnList v L
  size_le : p.used_address_size ≤ 16
  page : ∀ q a, pageTree v.mem p.page_table q = some a → IsPage a ∧ a ∉ L
  inj : ∀ q q' a, pageTree v.mem p.page_table q = some a →
    pageTree v.mem p.page_table q' = some a → q = q'
  maps : ∀ q, q.length = 3 → (pageTree v.mem p.page_table q ≠ none ↔ ∃ x, p.Uses x ∧ q = path x)
  below : ∀ q, pageTree v.mem p.page_table q ≠ none →
    ∃ q', (q ++ q').length = 3 ∧ pageTree v.mem p.page_table (q ++ q') ≠ none
  va_le : ∀ x, p.Uses x → x ≤ MAX_SUPPORT_VA
  frame : IsPage p.frame ∧ p.frame ∉ L ∧ ∀ q, pageTree v.mem p.page_table q ≠ some p.frame
  kernel_sp : IsPage p.kernel_sp ∧ p.kernel_sp ∉ L ∧
    ∀ q, pageTree v.mem p.page_table q ≠ some p.kernel_sp
  frame_ne : p.frame ≠ p.kernel_sp

/-- The loop of `FreePageTable` over the regions. -/
theorem freeRegions_eq (h : Tearing v p.page_table T₀ T L P) (hk : 1 ≤ k) (hk' : k ≤ 3)
    (hleaf : ∀ q, q.length = k + 1 → T q = none) {j n : ℕ} (hn : j + n ≤ 16) :
    ∃ v' T' P', p.freeRegions v k j n = .ok v' ∧ Tearing v' p.page_table T₀ T' L P' ∧
      Below k T T' ∧ ∀ i : Fin 16, j ≤ i → i < j + n → ∀ va, (p.used_address i).1.toNat ≤ va →
        va < (p.used_address i).2.toNat → (p.used_address i).2.toNat + 4095 < 2 ^ 64 →
        T' (indices va 2 k) = none := by
  induction n generalizing v T P j with
  | zero => exact ⟨v, T, P, rfl, h, .refl k T, fun i hi hi' => absurd hi' (by omega)⟩
  | succ n ih =>
    have hj : j < 16 := by omega
    obtain ⟨v₁, T₁, P₁, heq, htear, hbelow, hnone⟩ :=
      h.freeMemory (y := (p.used_address ⟨j, hj⟩).2.toNat)
        (p.used_address ⟨j, hj⟩).1.toNat_lt hk hk' hleaf
    obtain ⟨v', T', P', heq', htear', hbelow', hnone'⟩ := ih (j := j + 1) htear
      (fun q hq => by rw [hbelow.other q (by omega), hleaf q hq]) (by omega)
    refine ⟨v', T', P', ?_, htear', hbelow.trans hbelow', fun i hi hi' va hle hlt hend => ?_⟩
    · rw [freeRegions, region, dif_pos hj, ok_bind, heq, ok_bind, heq']
    · by_cases hij : (i : ℕ) = j
      · obtain rfl : i = ⟨j, hj⟩ := Fin.ext hij
        exact hbelow'.none _ (hnone hend va hle hlt)
      · exact hnone' i (by omega) (by omega) va hle hlt hend

/-- One round of `FreePageTable` takes every node of its level out of the tree. -/
theorem freeLevel_eq (hp : p.Proper v L) {v₁ : VirtualMemory}
    (h : Tearing v₁ p.page_table (pageTree v.mem p.page_table) T L P) (hk : 1 ≤ k) (hk' : k ≤ 3)
    (hleaf : ∀ q, q.length = k + 1 → T q = none) :
    ∃ v' T' P', p.freeLevel v₁ k = .ok v' ∧
      Tearing v' p.page_table (pageTree v.mem p.page_table) T' L P' ∧ Below k T T' ∧
      ∀ q, q.length = k → T' q = none := by
  obtain ⟨v₂, T₂, P₂, heq, htear, hbelow, hnone⟩ :=
    freeRegions_eq h hk hk' hleaf (j := 0) (n := p.used_address_size) (by have := hp.size_le; omega)
  obtain ⟨v', T', P', heq', htear', hbelow', hnone'⟩ :=
    htear.freeMemory (x := userStackVa) (y := getUserSpVa) (by decide) hk hk'
      (fun q hq => by rw [hbelow.other q (by omega), hleaf q hq])
  refine ⟨v', T', P', ?_, htear', hbelow.trans hbelow', fun q hq => ?_⟩
  · rw [freeLevel, heq, ok_bind, heq']
  · by_contra hne
    obtain ⟨b, hb⟩ := Option.ne_none_iff_exists'.mp hne
    have hb₀ := htear'.pruned.sub q b hb
    -- the node lies on the path of an address that the process uses
    obtain ⟨q', hlen, hq'⟩ := hp.below q (by rw [hb₀]; simp)
    obtain ⟨x, hx, hpath⟩ := (hp.maps _ hlen).mp hq'
    have hqx : q = indices x 2 k := by
      have htake := congrArg (List.take k) hpath
      rw [List.take_left' hq] at htake
      rw [htake, path]
      obtain rfl | rfl | rfl : k = 1 ∨ k = 2 ∨ k = 3 := by omega
      all_goals rfl
    have hmax := hp.va_le x hx
    rw [hqx] at hne
    rcases hx with ⟨i, hi, hle, hlt⟩ | ⟨hle, hlt⟩
    · refine hne (hbelow'.none _ (hnone i (Nat.zero_le _) (by omega) x hle hlt ?_))
      have hlast := hp.va_le ((p.used_address i).2.toNat - 1) (.inl ⟨i, hi, by omega, by omega⟩)
      simp only [MAX_SUPPORT_VA] at hlast
      omega
    · exact hne (hnone' (by decide) x hle hlt)

/-- `FreePage` of a page that is not on the list. -/
theorem freePage_eq (h : OnList v L) (hc : IsPage c) (hn : c ∉ L) :
    ∃ v', v.freePage c = .ok v' ∧ OnList v' (c :: L) := by
  obtain ⟨v', hup, hv', -⟩ := updateBitMap_eq (v.push c) hc .free
  exact ⟨v', by rw [VirtualMemory.freePage, if_neg hc.ne_zero, hup], (h.push hc hn).bits hv'⟩

/-- `FreePageTable` frees every page of the tree, the frame page and the kernel stack page, each of them
once. -/
theorem freePageTable_conserves (h : p.Proper v L) :
    ∃ v' P, p.freePageTable v true = .ok v' ∧ OnList v' (P ++ L) ∧ P.Nodup ∧
      ∀ c, c ∈ P ↔ (∃ q, pageTree v.mem p.page_table q = some c) ∨ c = p.frame ∨ c = p.kernel_sp := by
  have hspace : AddressSpace v p.page_table (pageTree v.mem p.page_table) L :=
    ⟨h.list, isTree_tree _ _ _, fun q a hq => (h.page q a hq).1, h.inj, fun q a hq => (h.page q a hq).2⟩
  have hstart : Tearing v p.page_table (pageTree v.mem p.page_table)
      (pageTree v.mem p.page_table) L [] :=
    ⟨hspace, .refl _⟩
  obtain ⟨v₃, T₃, P₃, heq₃, htear₃, hbelow₃, hnone₃⟩ := freeLevel_eq h hstart (k := 3) (by omega) le_rfl
    fun q hq => hspace.isTree.depth q (by omega)
  obtain ⟨v₂, T₂, P₂, heq₂, htear₂, hbelow₂, hnone₂⟩ := freeLevel_eq h htear₃ (k := 2) (by omega)
    (by omega) hnone₃
  obtain ⟨v₁, T₁, P₁, heq₁, htear₁, hbelow₁, hnone₁⟩ := freeLevel_eq h htear₂ (k := 1) (by omega)
    (by omega) hnone₂
  -- the root is left
  have hleft : ∀ q, q ≠ [] → T₁ q = none := by
    intro q hq
    have hpos : 0 < q.length := List.length_pos_iff.mpr hq
    rcases Nat.lt_or_ge 3 q.length with hlt | hge
    · exact htear₁.space.isTree.depth q hlt
    · obtain hlen | hlen | hlen : q.length = 1 ∨ q.length = 2 ∨ q.length = 3 := by omega
      · exact hnone₁ q hlen
      · exact hbelow₁.none q (hnone₂ q hlen)
      · exact hbelow₁.none q (hbelow₂.none q (hnone₃ q hlen))
  have hroot := hspace.isTree.root
  have hmem : ∀ c, c ∈ P₁ ↔ ∃ q, q ≠ [] ∧ pageTree v.mem p.page_table q = some c := by
    intro c
    rw [htear₁.pruned.mem_iff c]
    refine exists_congr fun q => ⟨fun hq => ⟨?_, hq.1⟩, fun hq => ⟨hq.2, hleft q hq.1⟩⟩
    rintro rfl
    rw [htear₁.space.isTree.root] at hq
    simp at hq
  have hout : ∀ c, c ∉ L → (∀ q, pageTree v.mem p.page_table q ≠ some c) → c ∉ P₁ ++ L := by
    intro c hcL hct hc
    rcases List.mem_append.mp hc with hc | hc
    · obtain ⟨q, -, hq⟩ := (hmem c).mp hc
      exact hct q hq
    · exact hcL hc
  obtain ⟨v₄, heq₄, hlist₄⟩ := freePage_eq htear₁.space.list h.frame.1 (hout _ h.frame.2.1 h.frame.2.2)
  have hrootP : p.page_table ∉ p.frame :: (P₁ ++ L) := by
    rw [List.mem_cons, not_or]
    refine ⟨fun he => h.frame.2.2 [] (he ▸ hroot), htear₁.space.fresh [] _ htear₁.space.isTree.root⟩
  obtain ⟨v₅, heq₅, hlist₅⟩ := freePage_eq hlist₄ (h.page [] _ hroot).1 hrootP
  have hkernelP : p.kernel_sp ∉ p.page_table :: p.frame :: (P₁ ++ L) := by
    simp only [List.mem_cons, not_or]
    exact ⟨fun he => h.kernel_sp.2.2 [] (he ▸ hroot), h.frame_ne.symm,
      hout _ h.kernel_sp.2.1 h.kernel_sp.2.2⟩
  obtain ⟨v₆, heq₆, hlist₆⟩ := freePage_eq hlist₅ h.kernel_sp.1 hkernelP
  refine ⟨v₆, p.kernel_sp :: p.page_table :: p.frame :: P₁, ?_, hlist₆, ?_, fun c => ?_⟩
  · rw [freePageTable, heq₃, ok_bind, heq₂, ok_bind, heq₁, ok_bind, heq₄, ok_bind, heq₅, ok_bind,
      if_pos rfl, heq₆]
  · have hnodup := hlist₆.linked.nodup
    rw [← List.cons_append, ← List.cons_append, ← List.cons_append] at hnodup
    exact hnodup.of_append_left
  · simp only [List.mem_cons, hmem c]
    constructor
    · rintro (rfl | rfl | rfl | ⟨q, -, hq⟩)
      · exact .inr (.inr rfl)
      · exact .inl ⟨[], hroot⟩
      · exact .inr (.inl rfl)
      · exact .inl ⟨q, hq⟩
    · rintro (⟨q, hq⟩ | rfl | rfl)
      · by_cases hne : q = []
        · subst hne
          rw [hroot] at hq
          exact .inr (.inl (Option.some.inj hq).symm)
        · exact .inr (.inr (.inr ⟨q, hne, hq⟩))
      · exact .inr (.inr (.inl rfl))
      · exact .inl rfl

end TaskMemory

end OrangeOs.Kernel
