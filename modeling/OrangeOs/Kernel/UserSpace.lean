import OrangeOs.Kernel.CopyChunks
import OrangeOs.Kernel.MapPage

/-! # The pages of a process

A page table with its tables and its mapped pages, all of them distinct and none of them free. What
an address stands for is read off the entry of the address.
-/

namespace OrangeOs.Kernel

open Memory VirtualMemory

variable {root va vb a b c k n pa : ℕ} {L : List ℕ} {v v' : VirtualMemory} {m' : Memory}
  {T : List (Fin 512) → Option ℕ}

/-- The tables of a page table. -/
def tableTree (m : Memory) (root : ℕ) : List (Fin 512) → Option ℕ := tree (child m) 2 root

theorem Tables.eq_tableTree (h : Tables 2 v root T L) : tableTree v.mem root = T := h.isTree.eq_tree.symm

/-- Writes that spare the tables do not change the entries. -/
theorem leaf_of_tables (h : Same v.mem m' (InTables T)) (va : ℕ) : leaf m' T va = leaf v.mem T va := by
  unfold leaf
  split
  · rfl
  · next b hb =>
    have hidx := (index va 0).isLt
    exact h.load_eq fun x hx hx' => ⟨_, b, hb, by rw [length_indices]; omega, by omega, by omega⟩

/-- Writes that spare the tables do not change the translation. -/
theorem translate_of_same (h : Same v.mem m' (InTables (tableTree v.mem root))) (ha : a < 2 ^ 64) :
    translate { v with mem := m' } root a = translate v root a := by
  by_cases hroot : root = 0
  · simp only [translate, getPTE, if_pos hroot, true_or, if_true]
  · have htree : IsTree (child v.mem) 2 root (tableTree v.mem root) := isTree_tree _ _ _
    have htree' : IsTree (child m') 2 root (tableTree v.mem root) := htree.congr fun q b i hlt hq =>
      child_congr (fun x hx hx' => h x ⟨q, b, hq, by omega, hx, hx'⟩) i
    have hget := getPTE_eq htree hroot ha (show 1 ≤ 3 by omega) le_rfl (show 3 ≤ 2 + 1 by omega)
    have hget' := getPTE_eq (v := { v with mem := m' }) htree' hroot ha (show 1 ≤ 3 by omega) le_rfl
      (show 3 ≤ 2 + 1 by omega)
    have hload : pteAt (tableTree v.mem root) a 3 ≠ 0 →
        m'.load (pteAt (tableTree v.mem root) a 3) 8 =
        v.mem.load (pteAt (tableTree v.mem root) a 3) 8 := by
      intro hne
      rw [pteAt] at hne ⊢
      split at hne
      · exact absurd rfl hne
      · next b hb =>
        have hidx : vaIndex a (3 - 3) < 512 := (index a 0).isLt
        refine h.load_eq fun x hx hx' => ⟨_, b, hb, by rw [length_indices]; omega, by omega, by omega⟩
    simp only [translate, hget, hget']
    by_cases hpte : pteAt (tableTree v.mem root) a 3 = 0
    · simp only [hpte, true_or, if_true]
    · rw [hload hpte]

theorem tableTree_of_same (h : Same v.mem m' (InTables (tableTree v.mem root))) :
    tableTree m' root = tableTree v.mem root :=
  ((isTree_tree (child v.mem) 2 root).congr fun q b i hlt hq =>
    child_congr (fun x hx hx' => h x ⟨q, b, hq, by omega, hx, hx'⟩) i).eq_tree.symm

/-- What an address stands for is in its entry. -/
theorem translate_leaf (h : Tables 2 v root T L) (ha : a < 2 ^ 64) :
    translate v root a =
      if leaf v.mem T a &&& PTE.V = 0 then none else some (pteTarget (leaf v.mem T a) + a % 4096) := by
  have hget := getPTE_eq h.isTree h.root_page.ne_zero ha (show 1 ≤ 3 by omega) le_rfl
      (show 3 ≤ 2 + 1 by omega)
  cases hb : T (indices a 2 2) with
  | none =>
    have hpte : pteAt T a 3 = 0 := by simp only [pteAt, hb]
    have hleaf : leaf v.mem T a = 0 := by simp only [leaf, hb]
    simp only [translate, hget, hpte, hleaf, true_or, if_true, Nat.zero_and]
  | some b =>
    have hpte : pteAt T a 3 = b + 8 * index a 0 := by simp only [pteAt, hb, coe_index]
    have hleaf : leaf v.mem T a = v.mem.load (b + 8 * index a 0) 8 := by simp only [leaf, hb, entry]
    have hne : b + 8 * (index a 0 : ℕ) ≠ 0 := by
      have := (h.page _ b hb).ne_zero
      omega
    simp only [translate, hget, hpte, hleaf, hne, false_or]
    rfl

/-- A page table whose tables and pages are distinct, and none of them free. -/
structure UserSpace (v : VirtualMemory) (root : ℕ) (T : List (Fin 512) → Option ℕ)
    (L : List ℕ) : Prop extends
    Tables 2 v root T L where
  user_page : ∀ va, leaf v.mem T va &&& PTE.V ≠ 0 → IsPage (pteTarget (leaf v.mem T va)) ∧
    pteTarget (leaf v.mem T va) ∉ L ∧ ∀ q, T q ≠ some (pteTarget (leaf v.mem T va))
  user_inj : ∀ va vb, leaf v.mem T va &&& PTE.V ≠ 0 → leaf v.mem T vb &&& PTE.V ≠ 0 →
    pteTarget (leaf v.mem T va) = pteTarget (leaf v.mem T vb) → path va = path vb

namespace UserSpace

/-- A mapped address is in a page. -/
theorem exists_page (h : UserSpace v root T L) (ha : a < 2 ^ 64) (hpa : translate v root a = some pa) :
    leaf v.mem T a &&& PTE.V ≠ 0 ∧ pa = pteTarget (leaf v.mem T a) + a % 4096 := by
  rw [translate_leaf h.toTables ha] at hpa
  split at hpa
  · cases hpa
  · next hv => exact ⟨hv, (Option.some.inj hpa).symm⟩

theorem inTables_apart (h : UserSpace v root T L) (ha : a < 2 ^ 64)
    (hpa : translate v root a = some pa) :
    ¬ InTables T pa := by
  obtain ⟨hv, rfl⟩ := h.exists_page ha hpa
  obtain ⟨hp, -, hpT⟩ := h.user_page a hv
  rintro ⟨q, b, hb, -, hx, hx'⟩
  have := (h.page q b hb).apart hp fun he => hpT q (he ▸ hb)
  have hmod : a % 4096 < 4096 := Nat.mod_lt _ (by omega)
  omega

theorem inPages_apart (h : UserSpace v root T L) (ha : a < 2 ^ 64) (hpa : translate v root a = some pa) :
    ¬ InPages L pa := by
  obtain ⟨hv, rfl⟩ := h.exists_page ha hpa
  obtain ⟨hp, hpL, -⟩ := h.user_page a hv
  rintro ⟨c, hc, hx, hx'⟩
  have := (h.list.page c hc).apart hp fun he => hpL (he ▸ hc)
  have hmod : a % 4096 < 4096 := Nat.mod_lt _ (by omega)
  omega

theorem ne_zero (h : UserSpace v root T L) (ha : a < 2 ^ 64)
    (hpa : translate v root a = some pa) : pa ≠ 0 := by
  obtain ⟨hv, rfl⟩ := h.exists_page ha hpa
  have := (h.user_page a hv).1.ne_zero
  omega

/-- Addresses below 2 ^ 39 stand for different bytes. -/
theorem translate_inj (h : UserSpace v root T L) (ha : a < 2 ^ 39) (hb : b < 2 ^ 39)
    (hpa : translate v root a = some pa) (hpb : translate v root b = some pa) : a = b := by
  obtain ⟨hv, hpa'⟩ := h.exists_page (by omega) hpa
  obtain ⟨hv', hpb'⟩ := h.exists_page (by omega) hpb
  have hal := pteTarget_aligned (leaf v.mem T a)
  have hal' := pteTarget_aligned (leaf v.mem T b)
  have hpath := (path_inj ha hb).mp (h.user_inj a b hv hv' (by omega))
  omega

/-- Writes to mapped bytes and to memory that is neither free nor a table. -/
theorem of_same (h : UserSpace v root T L) (hm : Same v.mem m' fun x => InPages L x ∨ InTables T x) :
    UserSpace { v with mem := m' } root T L := by
  have hleaf := leaf_of_tables (hm.mono fun x hx => .inr hx)
  refine ⟨h.toTables.of_same (hm.mono fun x hx => ?_), fun va hv => ?_, fun va vb hv hv' he => ?_⟩
  · exact hx.imp_right fun ⟨q, a, hq, hlt, hr⟩ => ⟨q, a, hq, by omega, hr⟩
  · simp only [hleaf] at hv ⊢
    exact h.user_page va hv
  · simp only [hleaf] at hv hv' he
    exact h.user_inj va vb hv hv' he

end UserSpace

/-- The tables and the pages of a tree of depth three. -/
theorem AddressSpace.userSpace (h : AddressSpace v root T L) :
    UserSpace v root (fun q => if q.length ≤ 2 then T q else none) L := by
  have hof : ∀ q a, (if q.length ≤ 2 then T q else none) = some a → T q = some a := by
    intro q a hq
    split at hq
    · exact hq
    · cases hq
  have hleaf : ∀ va, leaf v.mem (fun q => if q.length ≤ 2 then T q else none) va &&& PTE.V ≠ 0 →
      T (path va) = some (pteTarget (leaf v.mem (fun q => if q.length ≤ 2 then T q else none) va)) := by
    intro va hv
    have hlen : (indices va 2 2).length ≤ 2 := by rw [length_indices]
    unfold leaf at hv ⊢
    simp only [if_pos hlen] at hv ⊢
    cases hb : T (indices va 2 2) with
    | none =>
      rw [hb] at hv
      exact absurd (Nat.zero_and _) hv
    | some b =>
      rw [hb] at hv
      rw [path_eq, h.isTree.child _ b _ (by omega) hb, child, entryTarget, if_neg hv]
  refine ⟨⟨h.list, h.isTree.truncate (by omega), fun q a hq => h.page q a (hof q a hq),
    fun q q' a hq hq' => h.inj q q' a (hof q a hq) (hof q' a hq'),
    fun q a hq => h.fresh q a (hof q a hq)⟩,
    fun va hv => ?_, fun va vb hv hv' he => ?_⟩
  · have hpath := hleaf va hv
    refine ⟨h.page _ _ hpath, h.fresh _ _ hpath, fun q hq => ?_⟩
    have hlen := congrArg List.length (h.inj _ _ _ (hof q _ hq) hpath)
    rw [path, length_indices] at hlen
    rw [if_neg (by omega)] at hq
    cases hq
  · have hpath := hleaf va hv
    rw [he] at hpath
    exact h.inj _ _ _ hpath (hleaf vb hv')

/-! ## The tree of a page table, from its tables and its entries -/

variable {q : List (Fin 512)}

/-- Every path is the path of an address. -/
theorem exists_path (hq : q.length = 3) : ∃ va < 2 ^ 39, q = path va := by
  obtain ⟨a, b, c, rfl⟩ := List.length_eq_three.mp hq
  have ha := a.isLt
  have hb := b.isLt
  have hc := c.isLt
  refine ⟨(a : ℕ) * 2 ^ 30 + b * 2 ^ 21 + c * 2 ^ 12, by omega, ?_⟩
  simp only [path, indices, index, vaIndex_eq, List.cons.injEq, Fin.ext_iff, and_true]
  omega

/-- The tables are the upper levels of the tree. -/
theorem Tables.pageTree_table (h : Tables 2 v root T L) (hq : q.length ≤ 2) :
    pageTree v.mem root q = T q := by
  have htree := ((isTree_tree (child v.mem) 3 root).truncate (show 2 ≤ 3 by omega)).eq_tree
  have hq' := congrFun (htree.trans h.isTree.eq_tree.symm) q
  simp only [if_pos hq] at hq'
  exact hq'

/-- Below them is what the entries point to. -/
theorem Tables.pageTree_path (h : Tables 2 v root T L) (va : ℕ) :
    pageTree v.mem root (path va) = entryTarget (leaf v.mem T va) := by
  have htree := isTree_tree (child v.mem) 3 root
  have hlen : (indices va 2 2).length = 2 := length_indices va 2 2
  have htable := h.pageTree_table hlen.le
  rw [path_eq, leaf]
  cases ha : T (indices va 2 2) with
  | none =>
    rw [ha] at htable
    have hzero : entryTarget 0 = none := if_pos (Nat.zero_and _)
    exact (htree.parent _ (index va 0) htable).trans hzero.symm
  | some a =>
    rw [ha] at htable
    exact htree.child _ a _ (by omega) htable

/-- A node is a table or a page that is mapped. -/
theorem Tables.node_cases (h : Tables 2 v root T L) (hq : pageTree v.mem root q = some c) :
    q.length ≤ 2 ∧ T q = some c ∨
      ∃ va, q = path va ∧ leaf v.mem T va &&& PTE.V ≠ 0 ∧ pteTarget (leaf v.mem T va) = c := by
  have hlen := (isTree_tree (child v.mem) 3 root).length_le hq
  by_cases hle : q.length ≤ 2
  · exact .inl ⟨hle, by rw [← h.pageTree_table hle, hq]⟩
  · obtain ⟨va, -, rfl⟩ := exists_path (show q.length = 3 by omega)
    rw [h.pageTree_path, entryTarget] at hq
    split at hq
    · cases hq
    · next hv => exact .inr ⟨va, rfl, hv, Option.some.inj hq⟩

theorem UserSpace.addressSpace (h : UserSpace v root T L) :
    AddressSpace v root (pageTree v.mem root) L where
  list := h.list
  isTree := isTree_tree _ _ _
  page q c hq := by
    rcases h.node_cases hq with ⟨-, hq⟩ | ⟨va, -, hv, rfl⟩
    · exact h.page q c hq
    · exact (h.user_page va hv).1
  inj q q' c hq hq' := by
    rcases h.node_cases hq with ⟨-, hq⟩ | ⟨va, rfl, hv, rfl⟩
    · rcases h.node_cases hq' with ⟨-, hq'⟩ | ⟨vb, -, hv', rfl⟩
      · exact h.inj q q' c hq hq'
      · exact absurd hq ((h.user_page vb hv').2.2 q)
    · rcases h.node_cases hq' with ⟨-, hq'⟩ | ⟨vb, rfl, hv', he⟩
      · exact absurd hq' ((h.user_page va hv).2.2 q')
      · exact h.user_inj va vb hv hv' he.symm
  fresh q c hq := by
    rcases h.node_cases hq with ⟨-, hq⟩ | ⟨va, -, hv, rfl⟩
    · exact h.fresh q c hq
    · exact (h.user_page va hv).2.1

end OrangeOs.Kernel
