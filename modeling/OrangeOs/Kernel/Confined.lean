import OrangeOs.Kernel.LoadSegment
import OrangeOs.Kernel.MapRange
import OrangeOs.Kernel.Teardown

/-! # A page table that stays within a set of pages

Whatever is mapped, loaded and freed, in whatever order and with whatever success, a page table that
has its tables, its pages and the free pages in a set does not leave the set. Nothing is said about
which pages are lost on the way.
-/

namespace OrangeOs.Kernel

open Memory VirtualMemory

variable {F : Set ℕ} {m m' : Memory} {root va a b c i k n pa beg va_end : ℕ} {L : List ℕ}
  {v v' v'' : VirtualMemory} {T : List (Fin 512) → Option ℕ} {q : List (Fin 512)} {r : Bool}

/-- The addresses of the pages of a set. -/
def InSet (F : Set ℕ) (x : ℕ) : Prop := ∃ c ∈ F, c ≤ x ∧ x < c + 4096

theorem inSet_of_inPages (h : ∀ c ∈ L, c ∈ F) {x : ℕ} (hx : InPages L x) : InSet F x := by
  obtain ⟨c, hc, hr⟩ := hx
  exact ⟨c, h c hc, hr⟩

/-- The tables and the pages of a page table are in `F`, and so are the free pages; the memory is
that of `m` elsewhere. -/
structure Confined (F : Set ℕ) (m : Memory) (root : ℕ) (v : VirtualMemory) : Prop where
  space : ∃ L, AddressSpace v root (pageTree v.mem root) L ∧ ∀ c ∈ L, c ∈ F
  node : ∀ q c, pageTree v.mem root q = some c → c ∈ F
  same : Same m v.mem fun x => ¬ InSet F x

theorem AddressSpace.pageTree_eq (h : AddressSpace v root T L) : pageTree v.mem root = T :=
  h.isTree.eq_tree.symm

namespace Confined

theorem of_space (h : AddressSpace v root T L) (hL : ∀ c ∈ L, c ∈ F) (hT : ∀ q c, T q = some c → c ∈ F)
    (hm : Same m v.mem fun x => ¬ InSet F x) : Confined F m root v := by
  obtain rfl := h.pageTree_eq
  exact ⟨⟨L, h, hL⟩, hT, hm⟩

theorem userSpace (h : Confined F m root v) :
    ∃ T L, UserSpace v root T L ∧ (∀ c ∈ L, c ∈ F) ∧ ∀ q a, T q = some a → a ∈ F := by
  obtain ⟨L, hspace, hL⟩ := h.space
  refine ⟨_, L, hspace.userSpace, hL, fun q a hq => ?_⟩
  split at hq
  · exact h.node q a hq
  · cases hq

/-- A page that has been taken from the list is not in the tree. -/
theorem alloc (h : Confined F m root v) (halloc : v.alloc = .ok (c, v')) :
    Confined F m root v' ∧ pageTree v'.mem root = pageTree v.mem root := by
  obtain ⟨L, hspace, hL⟩ := h.space
  cases L with
  | nil => exact absurd hspace.list.head_nil (alloc_ne_zero halloc).1
  | cons d L =>
    obtain ⟨v₁, heq, hspace₁, hext, -⟩ := hspace.alloc
    obtain ⟨rfl, rfl⟩ := Prod.mk.inj (Except.ok.inj (heq.symm.trans halloc))
    refine ⟨of_space hspace₁ (fun c hc => hL c (List.mem_cons_of_mem d hc)) h.node ?_,
      hspace₁.pageTree_eq⟩
    refine h.same.trans (hext.same.mono fun x hx => ⟨fun hin => hx (inSet_of_inPages hL hin), ?_⟩)
    rintro ⟨q, a, hq, -, hr⟩
    exact hx ⟨a, h.node q a hq, hr⟩

/-- One round of the loop of `MapMemory`. -/
theorem mapRound (h : Confined F m root v) (hi : i % 4096 = 0) (hk : k < 1024)
    (halloc : v.alloc = .ok (c, v'))
    (hmap : v'.mapPage root i c k = .ok (r, v'')) :
    Confined F m root v'' ∧
      (r = true ∧ i ≤ MAX_SUPPORT_VA ∧ pageTree v''.mem root (path i) = some c ∧
          (∀ q, q.length = 3 → path i ≠ q → pageTree v''.mem root q = pageTree v.mem root q) ∨
        r = false ∧ MAX_SUPPORT_VA < i ∧ pageTree v''.mem root = pageTree v.mem root) := by
  by_cases hmax : i ≤ MAX_SUPPORT_VA
  · obtain ⟨T, L, huser, hL, hnode⟩ := h.userSpace
    cases L with
    | nil => exact absurd huser.list.head_nil (alloc_ne_zero halloc).1
    | cons d L =>
      obtain ⟨v₁, r', v₂, T₂, L₂, halloc', hd, hmap', h₂, -, hcase⟩ :=
        (MappedRange.nil i k huser.toTables).step hi hk
      obtain ⟨rfl, rfl⟩ := Prod.mk.inj (Except.ok.inj ((allocOrNull_of_alloc halloc).symm.trans halloc'))
      obtain ⟨v₁, halloc'', h₁, -⟩ := huser.toTables.allocOrNull_cons
      obtain ⟨-, rfl⟩ := Prod.mk.inj (Except.ok.inj (halloc'.symm.trans halloc''))
      have hdlt := hd.lt
      obtain rfl := h₁.mapPage_ok hd.aligned (by rw [MEMORY_END_eq]; omega) hi hmax hmap
      obtain ⟨rfl, rfl⟩ := Prod.mk.inj (Except.ok.inj ((mapPageWith_of_mapPage hmap).symm.trans hmap'))
      rcases hcase with ⟨-, hrange⟩ | ⟨hfalse, -⟩
      · have hspace' := (huser.mapped hrange hk).addressSpace
        have hother : ∀ va, path i ≠ path va → leaf v''.mem T₂ va = leaf v.mem T va := by
          refine fun va hne => hrange.other va fun n hn he => hne ?_
          obtain rfl : n = 0 := by simpa using hn
          exact he.symm
        have hmapped : leaf v''.mem T₂ (i + 4096 * 0) = c >>> 2 ||| PTE.V ||| k :=
          hrange.mapped 0 (by simp)
        obtain ⟨-, hvalid, htarget, -⟩ := entry_flags hd.aligned (by rw [MEMORY_END_eq]; omega) hk
        rw [Nat.mul_zero, Nat.add_zero] at hmapped
        refine ⟨of_space hspace' (fun e he => hL e (hrange.sub (List.mem_append_right _ he)))
          (fun q e hq => ?_) ?_,
          .inl ⟨rfl, hmax, ?_, fun q hq hne => ?_⟩⟩
        · rcases h₂.node_cases hq with ⟨-, hq⟩ | ⟨va, rfl, hv, rfl⟩
          · rcases hrange.new q e hq with hq | he
            · exact hnode q e hq
            · exact hL e he
          · by_cases hva : path i = path va
            · rw [← leaf_congr hva, hmapped, htarget]
              exact hL c (by simp)
            · rw [hother va hva] at hv ⊢
              refine h.node (path va) _ ?_
              rw [huser.toTables.pageTree_path, entryTarget, if_neg hv]
        · refine h.same.trans (hrange.same.mono fun x hx =>
            ⟨fun hin => hx (inSet_of_inPages hL hin), ?_⟩)
          rintro ⟨q, a, hq, -, hr⟩
          exact hx ⟨a, hnode q a hq, hr⟩
        · rw [h₂.pageTree_path, hmapped, entryTarget, if_neg hvalid, htarget]
        · obtain ⟨va, -, rfl⟩ := exists_path hq
          rw [h₂.pageTree_path, huser.toTables.pageTree_path, hother va hne]
      · cases hfalse
  · -- the address is refused, and the page is lost
    obtain ⟨h₁, htree⟩ := h.alloc halloc
    have hrefused : false = r ∧ v' = v'' := by
      rw [VirtualMemory.mapPage] at hmap
      split at hmap
      · exact Prod.mk.inj (Except.ok.inj hmap)
      split at hmap
      · exact Prod.mk.inj (Except.ok.inj hmap)
      rw [if_pos (not_le.mp hmax)] at hmap
      exact Prod.mk.inj (Except.ok.inj hmap)
    obtain ⟨rfl, rfl⟩ := hrefused
    exact ⟨h₁, .inr ⟨rfl, not_le.mp hmax, htree⟩⟩

/-! ## Pages that are freed -/

/-- One call of `FreePage`. -/
theorem freePageAt (h : Confined F m root v) (hva : va < 2 ^ 64) (hk : 1 ≤ k) (hk' : k ≤ 3) :
    ∃ v', v.freePageAt root va k = .ok v' ∧ Confined F m root v' ∧
      ∀ q, ¬ indices va 2 k <+: q → pageTree v'.mem root q = pageTree v.mem root q := by
  obtain ⟨L, hspace, hL⟩ := h.space
  cases hb : pageTree v.mem root (indices va 2 k) with
  | none => exact ⟨v, hspace.freePageAt_none hva hk hk' hb, h, fun _ _ => rfl⟩
  | some b =>
    obtain ⟨v', a, heq, hspace', ha, hsame⟩ := hspace.freePageAt_some hva hk hk' hb
    have hpages : ∀ c ∈ a :: b :: L, c ∈ F := by
      intro c hc
      rcases List.mem_cons.mp hc with rfl | hc
      · exact h.node _ _ ha
      · rcases List.mem_cons.mp hc with rfl | hc
        · exact h.node _ _ hb
        · exact hL c hc
    refine ⟨v', heq, of_space hspace' (fun c hc => hpages c (List.mem_cons_of_mem a hc))
      (fun q c hq => h.node q c (prune_eq_some.mp hq).2) ?_, fun q hq => ?_⟩
    · exact h.same.trans (hsame.mono fun x hx hin => hx (inSet_of_inPages hpages hin))
    · rw [hspace'.pageTree_eq, prune, if_neg hq]

/-- The loop of `FreeMemory`. -/
theorem freeFrom (h : Confined F m root v) (hend : va_end ≤ 2 ^ 64) (hk : 1 ≤ k) (hk' : k ≤ 3) :
    ∃ v', v.freeFrom root i va_end k = .ok v' ∧ Confined F m root v' ∧
      ∀ q, (∀ va, i ≤ va → va < va_end → ¬ indices va 2 k <+: q) →
        pageTree v'.mem root q = pageTree v.mem root q := by
  fun_induction VirtualMemory.freeFrom with
  | case1 v i hlt ih =>
    obtain ⟨v₁, hone, h₁, htree₁⟩ := h.freePageAt (show i < 2 ^ 64 by omega) hk hk'
    obtain ⟨v', hrest, h', htree⟩ := ih v₁ h₁
    refine ⟨v', by rw [hone, ok_bind, hrest], h', fun q hq => ?_⟩
    rw [htree q fun va hle hlt => hq va (by omega) hlt, htree₁ q (hq i le_rfl hlt)]
  | case2 v i hge => exact ⟨v, rfl, h, fun _ _ => rfl⟩

theorem freeMemory (x y : ℕ) (h : Confined F m root v) (hk : 1 ≤ k) (hk' : k ≤ 3) :
    ∃ v', v.freeMemory root x y k = .ok v' ∧ Confined F m root v' ∧
      ∀ q, (∀ va, addrCastDown x ≤ va → va < addrCastUp y → ¬ indices va 2 k <+: q) →
        pageTree v'.mem root q = pageTree v.mem root q :=
  h.freeFrom (Nat.and_lt_two_pow _ (by decide)).le hk hk'

/-! ## Pages that are mapped -/

theorem prefix_path {q : List (Fin 512)} (hq : q.length = 3) : indices va 2 3 <+: q ↔ path va = q := by
  constructor
  · exact fun hpre => hpre.eq_of_length (by rw [length_indices, hq])
  · rintro rfl
    exact List.prefix_refl _

/-- The loop of `MapMemory`, whatever its end. -/
theorem mapFrom (h : Confined F m root v) (hbeg : beg % 4096 = 0) (hi : i % 4096 = 0) (hle : beg ≤ i)
    (hlow : beg < i → i ≤ 2 ^ 38) (hend : va_end < 2 ^ 64) (hk : k < 1024)
    (hmap : v.mapFrom root beg i va_end k = .ok (r, v')) :
    Confined F m root v' ∧ ∀ q, q.length = 3 →
      (∀ va ≤ MAX_SUPPORT_VA, beg ≤ va → va < va_end → path va ≠ q) →
        pageTree v'.mem root q = pageTree v.mem root q := by
  have hsize : PGSIZE = 4096 := rfl
  have hMAX : MAX_SUPPORT_VA = 2 ^ 38 - 1 := rfl
  fun_induction VirtualMemory.mapFrom v root beg i va_end k with
  | case1 v i hlt ih =>
    obtain ⟨⟨c, v₁⟩, halloc, hrest⟩ := bind_eq_ok.mp hmap
    simp only [if_neg (alloc_ne_zero halloc).2] at hrest
    obtain ⟨⟨mapped, v₂⟩, hpage, hrest⟩ := bind_eq_ok.mp hrest
    obtain ⟨h₂, ⟨rfl, hmax, -, htree₂⟩ | ⟨rfl, hmax, htree₂⟩⟩ := h.mapRound hi hk halloc hpage
    · simp only [if_true] at hrest
      obtain ⟨h', htree⟩ := ih v₂ h₂ (by omega) (by omega) (by omega) hrest
      refine ⟨h', fun q hq hout => ?_⟩
      rw [htree q hq hout, htree₂ q hq (hout i hmax hle hlt)]
    · simp only [Bool.false_eq_true, if_false] at hrest
      obtain ⟨v₃, hfree, h', htree⟩ := h₂.freeMemory beg i (show 1 ≤ 3 by omega) le_rfl
      rw [hfree, ok_bind] at hrest
      obtain ⟨-, rfl⟩ := Prod.mk.inj (Except.ok.inj hrest)
      refine ⟨h', fun q hq hout => ?_⟩
      rw [htree q, htree₂]
      intro va hva hva'
      rw [addrCastDown_eq (by omega)] at hva
      rw [addrCastUp_eq (by omega)] at hva'
      exact fun hpre => hout va (by omega) (by omega) (by omega) ((prefix_path hq).mp hpre)
  | case2 v i hge =>
    obtain ⟨-, rfl⟩ := Prod.mk.inj (Except.ok.inj hmap)
    exact ⟨h, fun _ _ _ => rfl⟩

theorem mapMemory {x y : ℕ} (h : Confined F m root v) (hx : x < 2 ^ 64) (hk : k < 1024)
    (hmap : v.mapMemory root x y k = .ok (r, v')) :
    Confined F m root v' ∧ ∀ q, q.length = 3 →
      (∀ va ≤ MAX_SUPPORT_VA, addrCastDown x ≤ va → va < addrCastUp y → path va ≠ q) →
        pageTree v'.mem root q = pageTree v.mem root q := by
  have hdown := addrCastDown_eq hx
  exact h.mapFrom (by omega) (by omega) le_rfl (fun hlt => absurd hlt (lt_irrefl _))
    (Nat.and_lt_two_pow _ (by decide)) hk hmap

/-! ## Pages that are written -/

/-- Writes outside the set. -/
theorem of_same (h : Confined F m root v) (hm : Same v.mem m' (InSet F)) :
    Confined F m' root { v with mem := m' } ∧ pageTree m' root = pageTree v.mem root := by
  obtain ⟨L, hspace, hL⟩ := h.space
  have hspace' := hspace.of_same (hm.mono fun x hx => by
    rcases hx with hx | ⟨q, a, hq, -, hr⟩
    · exact inSet_of_inPages hL hx
    · exact ⟨a, h.node q a hq, hr⟩)
  exact ⟨of_space hspace' hL h.node (Same.refl _ _), hspace'.pageTree_eq⟩

/-- A write to a page that is mapped. -/
theorem write (h : Confined F m root v) (hb : pageTree v.mem root q = some b) (hq : q.length = 3)
    (hm : Same v.mem m' fun x => x < b ∨ b + 4096 ≤ x) :
    Confined F m root { v with mem := m' } ∧ pageTree m' root = pageTree v.mem root := by
  obtain ⟨L, hspace, hL⟩ := h.space
  have hspace' := hspace.of_page (hspace.page q b hb) (hspace.fresh q b hb) (fun r hlt hr => by
    rw [hspace.inj r q b hr hb] at hlt
    omega) hm
  refine ⟨of_space hspace' hL h.node (h.same.trans (hm.mono fun x hx => ?_)), hspace'.pageTree_eq⟩
  by_contra hin
  exact hx ⟨b, h.node q b hb, by omega, by omega⟩

/-- `LoadSegment` writes to pages that are mapped. -/
theorem loadSegment {σ : Type} {S : StreamBase σ} {st st' : σ} {size : ℕ}
    (h : Confined F m root v) (hva : va < 2 ^ 64)
    (hload : loadSegment S st v root va size = .ok (r, v', st')) :
    Confined F m root v' ∧ pageTree v'.mem root = pageTree v.mem root := by
  induction size using Nat.strong_induction_on generalizing v va st with
  | _ size ih =>
    by_cases hsize : 0 < size
    · cases hpa : translate v root va with
      | none =>
        obtain ⟨o, hvapa⟩ := vaToPA_translate v root va
        rw [hpa, Option.getD_none] at hvapa
        rw [Kernel.loadSegment, dif_pos (by omega), hvapa, ok_bind] at hload
        simp only [if_true] at hload
        obtain ⟨-, hrest⟩ := Prod.mk.inj (Except.ok.inj hload)
        obtain ⟨rfl, -⟩ := Prod.mk.inj hrest
        exact ⟨h, rfl⟩
      | some pa =>
        obtain ⟨L, hspace, hL⟩ := h.space
        have hnode := translate_eq hspace hva
        rw [hpa] at hnode
        obtain ⟨b, hb, rfl⟩ := Option.map_eq_some_iff.mp hnode.symm
        obtain ⟨hlen₀, hlen, hpage⟩ := firstPiece_le va hsize
        have hbp := (hspace.page _ b hb).ne_zero
        rw [loadSegment_step S st hva hpa (by omega) hsize] at hload
        have hsame := batchLoad_same S st v.mem (firstPiece va size) (b + va % 4096)
        obtain ⟨h₁, htree₁⟩ := h.write hb (length_indices va 2 3) (hsame.mono fun x hx => by omega)
        obtain ⟨h', htree⟩ := ih _ (by omega) h₁ (Nat.mod_lt _ (by decide)) hload
        exact ⟨h', htree.trans htree₁⟩
    · obtain rfl : size = 0 := by omega
      rw [Kernel.loadSegment, dif_neg (by omega)] at hload
      obtain ⟨-, hrest⟩ := Prod.mk.inj (Except.ok.inj hload)
      obtain ⟨rfl, -⟩ := Prod.mk.inj hrest
      exact ⟨h, rfl⟩

end Confined

end OrangeOs.Kernel
