import OrangeOs.Kernel.PageTable

/-! # The tree of a page table

The entries of a page table seen as a radix tree of depth three: tables at depth zero to two, mapped
pages at depth three. `GetPTE` follows the path of an address.
-/

namespace OrangeOs.Kernel

open Memory VirtualMemory

variable {m m' : Memory} {root va vb pa a b c d e r i j k n : ℕ} {L : List ℕ}
  {v v' : VirtualMemory}

/-! ## Addresses and entries as numbers -/

theorem and_mask (x n k : ℕ) : x &&& ((2 ^ k - 1) * 2 ^ n) = x / 2 ^ n % 2 ^ k * 2 ^ n := by
  rw [← Nat.shiftLeft_eq, ← Nat.shiftLeft_eq, ← Nat.and_two_pow_sub_one_eq_mod,
    ← Nat.shiftRight_eq_div_pow]
  apply Nat.eq_of_testBit_eq
  intro j
  rw [Nat.testBit_and, Nat.testBit_shiftLeft, Nat.testBit_shiftLeft, Nat.testBit_and,
    Nat.testBit_shiftRight]
  by_cases hj : n ≤ j
  · simp [hj]
  · simp [hj]

theorem addrCastDown_eq (ha : a < 2 ^ 64) : addrCastDown a = a - a % 4096 := by
  have hmask : pageMask = (2 ^ 52 - 1) * 2 ^ 12 := by decide
  have h : addrCastDown a = a / 2 ^ 12 % 2 ^ 52 * 2 ^ 12 :=
    (congrArg (a &&& ·) hmask).trans (and_mask a 12 52)
  omega

theorem addrCastUp_eq (ha : a + 4095 < 2 ^ 64) : addrCastUp a = (a + 4095) - (a + 4095) % 4096 := by
  have hadd : (a + PGSIZE - 1) % 2 ^ 64 = a + 4095 := by
    have hsize : PGSIZE = 4096 := rfl
    omega
  exact (congrArg addrCastDown hadd).trans (addrCastDown_eq ha)

theorem vaIndex_eq (va i : ℕ) : vaIndex va i = va / 2 ^ (12 + i * 9) % 512 := by
  have hmask : 0x1ff = 2 ^ 9 - 1 := by decide
  rw [vaIndex, hmask, Nat.and_two_pow_sub_one_eq_mod, Nat.shiftRight_eq_div_pow]

theorem pteTarget_eq (e : ℕ) : pteTarget e = e / 1024 % 2 ^ 44 * 4096 := by
  have hmask : 0xfffffffffff * PGSIZE = (2 ^ 44 - 1) * 2 ^ 12 := by decide
  have h : pteTarget e = (e <<< 2) % 2 ^ 64 / 2 ^ 12 % 2 ^ 44 * 2 ^ 12 :=
    (congrArg ((e <<< 2) % 2 ^ 64 &&& ·) hmask).trans (and_mask _ 12 44)
  have hpage : (e * 4) % 2 ^ 64 / 2 ^ 12 % 2 ^ 44 = e / 1024 % 2 ^ 44 := by omega
  rw [Nat.shiftLeft_eq] at h
  exact h.trans (congrArg (· * 4096) hpage)

theorem pteTarget_aligned (e : ℕ) : pteTarget e % 4096 = 0 := by
  rw [pteTarget_eq, Nat.mul_mod_left]

/-- The entry for a page, with flags. -/
theorem entry_eq (hpa : pa % 4096 = 0) (hr : r < 1024) :
    (pa >>> 2) ||| r = pa / 4096 * 1024 + r := by
  have h : pa >>> 2 = (pa / 4096) <<< 10 := by
    rw [Nat.shiftRight_eq_div_pow, Nat.shiftLeft_eq]
    omega
  rw [h, ← Nat.shiftLeft_add_eq_or_of_lt (by omega), Nat.shiftLeft_eq]

theorem flags_eq (hk : k < 1024) :
    PTE.V ||| k < 1024 ∧ (PTE.V ||| k) % 2 = 1 ∧ (PTE.V ||| k) &&& PTE_MASK = k &&& PTE_MASK := by
  have hv : PTE.V &&& PTE_MASK = 0 := by decide
  refine ⟨Nat.or_lt_two_pow (n := 10) (by decide) hk, ?_, ?_⟩
  · rw [← Nat.and_one_is_mod, Nat.and_or_distrib_right,
      show PTE.V &&& 1 = 1 from rfl, Nat.and_one_is_mod]
    obtain h | h : k % 2 = 0 ∨ k % 2 = 1 := by omega
    · rw [h]
      rfl
    · rw [h]
      rfl
  · rw [Nat.and_or_distrib_right, hv, Nat.zero_or]

/-- The low bits of an entry are its flags. -/
theorem and_mask_of_low (n : ℕ) : (n * 1024 + r) &&& PTE_MASK = r &&& PTE_MASK := by
  have hlow : ∀ x, x &&& PTE_MASK = (x % 2 ^ 5) &&& PTE_MASK := by
    intro x
    have hlt : x &&& PTE_MASK < 2 ^ 5 := Nat.and_lt_two_pow _ (by decide)
    rw [← Nat.mod_eq_of_lt hlt, Nat.and_mod_two_pow, Nat.mod_eq_of_lt (show PTE_MASK < 2 ^ 5 by decide)]
  rw [hlow, hlow r, show (n * 1024 + r) % 2 ^ 5 = r % 2 ^ 5 by omega]

/-- What an entry says. -/
theorem entry_flags (hpa : pa % 4096 = 0) (hle : pa ≤ MEMORY_END) (hk : k < 1024) :
    (pa >>> 2) ||| PTE.V ||| k < 2 ^ 64 ∧ ((pa >>> 2) ||| PTE.V ||| k) &&& PTE.V ≠ 0 ∧
      pteTarget ((pa >>> 2) ||| PTE.V ||| k) = pa ∧
      ((pa >>> 2) ||| PTE.V ||| k) &&& PTE_MASK = k &&& PTE_MASK := by
  obtain ⟨hlt, hodd, hmask⟩ := flags_eq hk
  rw [MEMORY_END_eq] at hle
  rw [Nat.or_assoc, entry_eq hpa (by omega)]
  generalize PTE.V ||| k = r at hlt hodd hmask
  refine ⟨by omega, ?_, ?_, ?_⟩
  · have hv : PTE.V = 1 := rfl
    rw [hv, Nat.and_one_is_mod]
    omega
  · rw [pteTarget_eq]
    omega
  · rw [and_mask_of_low, hmask]

/-- What an entry for a page says. -/
theorem entry_spec (hc : IsPage c) (hk : k < 32) (hk' : k &&& PTE_MASK = k) :
    (c >>> 2) ||| PTE.V ||| k < 2 ^ 64 ∧ ((c >>> 2) ||| PTE.V ||| k) &&& PTE.V ≠ 0 ∧
      pteTarget ((c >>> 2) ||| PTE.V ||| k) = c ∧ ((c >>> 2) ||| PTE.V ||| k) &&& PTE_MASK = k := by
  have hend := hc.lt
  have h := entry_flags hc.aligned (by rw [MEMORY_END_eq]; omega) (show k < 1024 by omega)
  rwa [hk'] at h

/-! ## The tree -/

/-- The page that an entry points to, if it is valid. -/
def entryTarget (e : ℕ) : Option ℕ := if e &&& PTE.V = 0 then none else some (pteTarget e)

/-- Entry `i` of the table at `a`. -/
def entry (m : Memory) (a : ℕ) (i : Fin 512) : ℕ := m.load (a + 8 * i) 8

def child (m : Memory) (a : ℕ) (i : Fin 512) : Option ℕ := entryTarget (entry m a i)

/-- The tree of a page table. -/
def pageTree (m : Memory) (root : ℕ) : List (Fin 512) → Option ℕ := tree (child m) 3 root

/-- The index of an address into the table of level `i`. -/
def index (va i : ℕ) : Fin 512 := ⟨vaIndex va i, by rw [vaIndex_eq]; omega⟩

theorem coe_index (va i : ℕ) : (index va i : ℕ) = vaIndex va i := rfl

/-- The indices that `k` levels of `GetPTE` use, from level `i` on. -/
def indices (va i : ℕ) : ℕ → List (Fin 512)
  | 0 => []
  | k + 1 => index va i :: indices va (i - 1) k

/-- The path of an address. -/
def path (va : ℕ) : List (Fin 512) := indices va 2 3

theorem length_indices (va i k : ℕ) : (indices va i k).length = k := by
  induction k generalizing i with
  | zero => rfl
  | succ k ih => rw [indices, List.length_cons, ih]

/-- The addresses of a page have one path, and no others below 2 ^ 39 have it. -/
theorem path_inj (ha : va < 2 ^ 39) (hb : vb < 2 ^ 39) :
    path va = path vb ↔ va / 4096 = vb / 4096 := by
  simp only [path, indices, index, vaIndex_eq, List.cons.injEq, Fin.mk.injEq, and_true]
  omega

theorem vaIndex_addrCastDown (ha : va < 2 ^ 64) (i : ℕ) :
    vaIndex (if va % PGSIZE ≠ 0 then addrCastDown va else va) i = vaIndex va i := by
  have hsize : PGSIZE = 4096 := rfl
  have hdiv : (if va % PGSIZE ≠ 0 then addrCastDown va else va) / 2 ^ 12 = va / 2 ^ 12 := by
    rw [addrCastDown_eq ha]
    split <;> omega
  rw [vaIndex_eq, vaIndex_eq, pow_add, ← Nat.div_div_eq_div_mul, hdiv, Nat.div_div_eq_div_mul]

theorem indices_addrCastDown (ha : va < 2 ^ 64) (i k : ℕ) :
    indices (if va % PGSIZE ≠ 0 then addrCastDown va else va) i k = indices va i k := by
  induction k generalizing i with
  | zero => rfl
  | succ k ih => simp only [indices, index, ih, vaIndex_addrCastDown ha]

variable {T : List (Fin 512) → Option ℕ} {p q : List (Fin 512)}

/-- The loop of `GetPTE` follows the tree. -/
theorem walk_eq (h : IsTree (child v.mem) d root T) (hp : T p = some a) (hk : p.length + k ≤ d) :
    v.walk va false a i k = .ok (T (p ++ indices va i k), v) := by
  induction k generalizing p a i with
  | zero => rw [walk, indices, List.append_nil, hp]
  | succ k ih =>
    have hchild := h.child p a (index va i) (by omega) hp
    rw [child, entryTarget, entry, coe_index] at hchild
    rw [walk, indices, List.append_cons]
    split
    · next hv =>
      rw [if_pos hv] at hchild
      have hnone : T ((p ++ [index va i]) ++ indices va (i - 1) k) = none := by
        by_contra hne
        have hsome := h.isSome_of_append (Option.isSome_iff_ne_none.mpr hne)
        rw [hchild] at hsome
        exact Bool.noConfusion hsome
      rw [hnone]
      rfl
    · next hv =>
      rw [if_neg hv] at hchild
      exact ih hchild (by simp only [List.length_append, List.length_singleton]; omega)

/-- The entry that `GetPTE` finds. -/
def pteAt (T : List (Fin 512) → Option ℕ) (va level : ℕ) : ℕ :=
  match T (indices va 2 (level - 1)) with
  | none => 0
  | some a => a + 8 * vaIndex va (3 - level)

theorem getPTE_eq (h : IsTree (child v.mem) d root T) (hroot : root ≠ 0) (hva : va < 2 ^ 64)
    (hk : 1 ≤ k) (hk' : k ≤ 3) (hd : k ≤ d + 1) : v.getPTE root va false k = .ok (pteAt T va k, v) := by
  rw [getPTE, if_neg hroot, if_neg (by omega)]
  simp only [walk_eq h h.root (show ([] : List (Fin 512)).length + (k - 1) ≤ d by simp; omega),
    ok_bind, List.nil_append, indices_addrCastDown hva, vaIndex_addrCastDown hva, pteAt]
  cases T (indices va 2 (k - 1)) with
  | none => rfl
  | some a => rfl

theorem indices_succ (va i k : ℕ) : indices va i (k + 1) = indices va i k ++ [index va (i - k)] := by
  induction k generalizing i with
  | zero => rfl
  | succ k ih =>
    rw [indices, ih (i - 1), indices, List.cons_append, Nat.sub_sub, Nat.add_comm 1 k]

theorem indices_congr (h : va / 4096 = vb / 4096) (i k : ℕ) : indices va i k = indices vb i k := by
  have hindex : ∀ i, index va i = index vb i := by
    intro i
    have hpow : (4096 : ℕ) = 2 ^ 12 := by decide
    rw [hpow] at h
    simp only [index, vaIndex_eq, Fin.mk.injEq]
    rw [pow_add, ← Nat.div_div_eq_div_mul, h, Nat.div_div_eq_div_mul]
  induction k generalizing i with
  | zero => rfl
  | succ k ih => rw [indices, indices, ih, hindex]

/-- A store to an entry changes that entry and no other. -/
theorem entry_store (m : Memory) (ha : IsPage a) (hb : IsPage b) (i j : Fin 512) (he : e < 2 ^ 64) :
    entry (m.store (a + 8 * i) 8 e) b j = if b = a ∧ j = i then e else entry m b j := by
  have hi := i.isLt
  have hj := j.isLt
  rw [entry, load_store_field m ha hb _ _ (by omega) (by omega) (by omega) (by omega) he]
  have hiff : (b = a ∧ 8 * (j : ℕ) = 8 * i) ↔ b = a ∧ j = i := by
    rw [Fin.ext_iff]
    omega
  simp only [hiff, entry]

/-- A store to a table does not change other pages. -/
theorem store_entry_same (m : Memory) (a : ℕ) (i : Fin 512) (e : ℕ) :
    Same m (m.store (a + 8 * i) 8 e) fun x => x < a ∨ a + 4096 ≤ x :=
  (store_same m _ 8 e).mono fun x hx => by
    have := i.isLt
    omega

theorem child_congr (hm : ∀ x, a ≤ x → x < a + 4096 → m' x = m x) (i : Fin 512) :
    child m' a i = child m a i := by
  have hentry : entry m' a i = entry m a i := by
    refine load_congr fun k hk => hm _ (by omega) ?_
    have := i.isLt
    omega
  rw [child, hentry, child]

/-- A page table whose pages are pairwise distinct and not free. -/
structure AddressSpace (v : VirtualMemory) (root : ℕ) (T : List (Fin 512) → Option ℕ)
    (L : List ℕ) : Prop where
  list : OnList v L
  isTree : IsTree (child v.mem) 3 root T
  page : ∀ p a, T p = some a → IsPage a
  inj : ∀ p q a, T p = some a → T q = some a → p = q
  fresh : ∀ p a, T p = some a → a ∉ L

end OrangeOs.Kernel
