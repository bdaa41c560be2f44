import OrangeOs.Kernel.PageTree

/-! # The tables of a page table

The upper levels of a page table as a tree of tables that are pairwise distinct and not free. New
tables come from the front of the free list and are attached one at a time.
-/

namespace OrangeOs.Kernel

open Memory VirtualMemory

variable {d root a b c e x : ℕ} {L : List ℕ} {v v' : VirtualMemory} {m' : Memory}
  {T : List (Fin 512) → Option ℕ} {q : List (Fin 512)} {i : Fin 512}

/-- The upper `d` levels of a page table, and what their entries point to. -/
structure Tables (d : ℕ) (v : VirtualMemory) (root : ℕ) (T : List (Fin 512) → Option ℕ) (L : List ℕ) :
    Prop where
  list : OnList v L
  isTree : IsTree (child v.mem) d root T
  page : ∀ p a, T p = some a → IsPage a
  inj : ∀ p q a, T p = some a → T q = some a → p = q
  fresh : ∀ p a, T p = some a → a ∉ L

/-- A page table with the pages that it maps. -/
theorem addressSpace_iff : AddressSpace v root T L ↔ Tables 3 v root T L := by
  constructor
  · rintro ⟨hlist, htree, hpage, hinj, hfresh⟩
    exact ⟨hlist, htree, hpage, hinj, hfresh⟩
  · rintro ⟨hlist, htree, hpage, hinj, hfresh⟩
    exact ⟨hlist, htree, hpage, hinj, hfresh⟩

theorem entry_of_zeroPage {m : Memory} (hzero : ZeroPage m c) (j : Fin 512) : entry m c j = 0 := by
  have hj := j.isLt
  have hz : m.load (c + 8 * j) 8 = 0 % 256 ^ 8 := by
    refine leNat_of_leByte fun k hk => ?_
    rw [hzero _ (by omega) (by simp only [PGSIZE]; omega)]
    simp [leByte]
  rw [entry, hz]
  rfl

/-- The tree of a root without entries. -/
def rootOnly (root : ℕ) (q : List (Fin 512)) : Option ℕ := if q = [] then some root else none

theorem rootOnly_eq_some {q : List (Fin 512)} : rootOnly root q = some a ↔ q = [] ∧ a = root := by
  unfold rootOnly
  split <;> simp_all [eq_comm]

theorem rootOnly_path (x : ℕ) : rootOnly root (path x) = none := by
  refine if_neg fun he => ?_
  have hlen := congrArg List.length he
  rw [path, length_indices, List.length_nil] at hlen
  omega

/-- A cleared page is the root of an empty tree. -/
theorem isTree_zero {m : Memory} (hz : ZeroPage m root) : IsTree (child m) d root (rootOnly root) where
  root := rfl
  child q a i hlt hq := by
    obtain ⟨-, rfl⟩ := rootOnly_eq_some.mp hq
    rw [rootOnly, if_neg (by simp), child, entry_of_zeroPage hz]
    rfl
  parent q i hq := if_neg (by simp)
  depth q hlt := if_neg (by
    rintro rfl
    simp at hlt)

namespace Tables

theorem root_page (h : Tables d v root T L) : IsPage root := h.page [] root h.isTree.root

/-- Writes outside the free pages and the tables do not matter. -/
theorem of_same (h : Tables d v root T L)
    (hm : Same v.mem m' fun x => InPages L x ∨
      ∃ q a, T q = some a ∧ q.length < d ∧ a ≤ x ∧ x < a + 4096) :
    Tables d { v with mem := m' } root T L :=
  ⟨h.list.of_same (hm.mono fun _ hx => .inl hx),
    h.isTree.congr fun q a i hlt hq => child_congr
      (fun x hx hx' => hm x (.inr ⟨q, a, hq, hlt, hx, hx'⟩)) i,
    h.page, h.inj, h.fresh⟩

/-- Writes to a page that is neither free nor a table do not matter. -/
theorem of_page (h : Tables d v root T L) (hc : IsPage c) (hcL : c ∉ L)
    (hcT : ∀ q, q.length < d → T q ≠ some c) (hm : Same v.mem m' fun x => x < c ∨ c + 4096 ≤ x) :
    Tables d { v with mem := m' } root T L := by
  refine h.of_same (hm.mono fun x hx => ?_)
  rcases hx with ⟨b, hb, hx, hx'⟩ | ⟨q, a, hq, hlt, hx, hx'⟩
  · have := (h.list.page b hb).apart hc fun he => hcL (he ▸ hb)
    omega
  · have := (h.page q a hq).apart hc fun he => hcT q hlt (he ▸ hq)
    omega

/-- A node is apart from the free pages. -/
theorem not_inPages (h : Tables d v root T L) (hq : T q = some a) (hx : a ≤ x) (hx' : x < a + 4096) :
    ¬ InPages L x := by
  rintro ⟨c, hc, hcx, hcx'⟩
  have hne : a ≠ c := fun he => h.fresh q a hq (he ▸ hc)
  have := (h.page q a hq).apart (h.list.page c hc) hne
  omega

/-- `Alloc` takes a page that is not in the tree. -/
theorem alloc (h : Tables d v root T (c :: L)) :
    ∃ v', v.alloc = .ok (c, v') ∧ Tables d v' root T L ∧
      Same v.mem v'.mem (fun x => ¬ InPages (c :: L) x) ∧ ZeroPage v'.mem c ∧ IsPage c ∧ c ∉ L ∧
      ∀ q, T q ≠ some c := by
  obtain ⟨v', heq, hlist, -, hzero, hsame⟩ := h.list.alloc
  refine ⟨v', heq, ⟨hlist, ?_, h.page, h.inj, ?_⟩, hsame, hzero, h.list.page c (by simp),
    (List.nodup_cons.mp h.list.linked.nodup).1, fun q hq => h.fresh q c hq (by simp)⟩
  · exact h.isTree.congr fun q a i _ hq => child_congr
      (fun x hx hx' => hsame x (h.not_inPages hq hx hx')) i
  · exact fun q a hq hmem => h.fresh q a hq (List.mem_cons_of_mem c hmem)

/-- A new entry in a table. -/
theorem attach (h : Tables d v root T L) (hq : T q = some a) (hlt : q.length < d)
    (hnew : T (q ++ [i]) = none) (hc : IsPage c) (hcL : c ∉ L)
    (hcT : ∀ r, T r ≠ some c) (he : e < 2 ^ 64)
    (htarget : entryTarget e = some c) (hzero : q.length + 1 < d → ZeroPage v.mem c) :
    Tables d { v with mem := v.mem.store (a + 8 * i) 8 e } root
      (Function.update T (q ++ [i]) (some c)) L := by
  have hap : IsPage a := h.page q a hq
  have hstore : ∀ b, IsPage b → ∀ j, entry (v.mem.store (a + 8 * i) 8 e) b j =
      if b = a ∧ j = i then e else entry v.mem b j := fun b hb j => entry_store _ hap hb i j he
  have hupdate : ∀ r b, Function.update T (q ++ [i]) (some c) r = some b →
      r = q ++ [i] ∧ b = c ∨ T r = some b := by
    intro r b hr
    rw [Function.update_apply] at hr
    split at hr
    · next hrq => exact .inl ⟨hrq, (Option.some.inj hr).symm⟩
    · exact .inr hr
  have hiff : ∀ r b, T r = some b → (b = a ↔ r = q) := by
    intro r b hr
    constructor
    · rintro rfl
      exact h.inj r q b hr hq
    · rintro rfl
      rw [hr] at hq
      exact Option.some.inj hq
  have hempty : q.length + 1 < d → ∀ j, child (v.mem.store (a + 8 * i) 8 e) c j = none := by
    intro hlt' j
    have hca : c ≠ a := fun hca => hcT q (hca ▸ hq)
    rw [child, hstore c hc j, if_neg fun hx => hca hx.1, entry_of_zeroPage (hzero hlt')]
    rfl
  constructor
  · refine h.list.of_same ((store_entry_same v.mem a i e).mono fun x hx => ?_)
    by_contra hin
    exact h.not_inPages hq (by omega) (by omega) hx
  · refine h.isTree.attach hq hlt hnew (fun r b j _ hr => ?_) hempty
    rw [child, hstore b (h.page r b hr) j, apply_ite entryTarget, htarget]
    simp only [hiff r b hr, child]
  · intro r b hr
    rcases hupdate r b hr with ⟨-, rfl⟩ | hr
    · exact hc
    · exact h.page r b hr
  · intro r r' b hr hr'
    rcases hupdate r b hr with ⟨rfl, rfl⟩ | hold
    · rcases hupdate r' b hr' with ⟨rfl, -⟩ | hold'
      · rfl
      · exact absurd hold' (hcT r')
    · rcases hupdate r' b hr' with ⟨rfl, rfl⟩ | hold'
      · exact absurd hold (hcT r)
      · exact h.inj r r' b hold hold'
  · intro r b hr
    rcases hupdate r b hr with ⟨-, rfl⟩ | hr
    · exact hcL
    · exact h.fresh r b hr

/-- A cleared page that is not free is a page table. -/
theorem of_zeroPage (hl : OnList v L) (hz : ZeroPage v.mem root)
    (hroot : IsPage root) (hrootL : root ∉ L) :
    Tables d v root (rootOnly root) L := by
  refine ⟨hl, isTree_zero hz, fun q a hq => ?_, fun q q' a hq hq' => ?_, fun q a hq => ?_⟩
  · exact (rootOnly_eq_some.mp hq).2 ▸ hroot
  · rw [(rootOnly_eq_some.mp hq).1, (rootOnly_eq_some.mp hq').1]
  · exact (rootOnly_eq_some.mp hq).2 ▸ hrootL

end Tables

/-- There are page tables without entries. -/
theorem exists_tables (n : ℕ) (hn : n < 1000) :
    ∃ v root L, (∀ d, Tables d v root (rootOnly root) L) ∧ L.length = n := by
  obtain ⟨v, L, hl, hlen, -⟩ := exists_onList (n + 1) hn
  obtain ⟨root, L, rfl⟩ := List.exists_cons_of_length_pos (show 0 < L.length by omega)
  obtain ⟨v₁, -, hl₁, -, hzero, -⟩ := hl.alloc
  rw [List.length_cons] at hlen
  exact ⟨v₁, root, L, fun d => .of_zeroPage hl₁ hzero (hl.page root (by simp))
    (List.nodup_cons.mp hl.linked.nodup).1,
    by omega⟩

end OrangeOs.Kernel
