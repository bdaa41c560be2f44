import Mathlib.Algebra.Order.BigOperators.Group.Finset
import OrangeOs.Lib.Heap

/-! # The free list

The free list runs through its blocks in the order of their addresses, and from the last one to the
first. So the search of `FreeBlock` finds the gap for a block within one lap, and that of
`FindFirstFitBlock` ends within two.
-/

namespace OrangeOs.Lib

open Memory

namespace Header

variable {m m' : Memory} {a b p n v : ℕ}

/-- Two headers do not overlap. -/
def Apart (a b : ℕ) : Prop := a + 24 ≤ b ∨ b + 24 ≤ a

/-! ## Fields of headers -/

/-- Fields of two headers are one or do not overlap. -/
theorem load_store_field (m : Memory) (hab : b = a ∨ Apart a b) (o k o' k' : ℕ) (hin : o + k ≤ 24)
    (hin' : o' + k' ≤ 24) (hne : o + k ≤ o' ∨ o' + k' ≤ o) :
    (m.store (a + o) k v).load (b + o') k' = m.load (b + o') k' := by
  refine load_store_of_disjoint _ _ ?_
  rcases hab with rfl | hab
  · omega
  · rcases hab with h | h <;> omega

/-- A field of a header after a store to that field of a header. -/
theorem load_store_same (m : Memory) (hab : b = a ∨ Apart a b) (o k : ℕ) (hin : o + k ≤ 24)
    (hv : v < 256 ^ k) :
    (m.store (a + o) k v).load (b + o) k = if b = a then v else m.load (b + o) k := by
  by_cases hba : b = a
  · rw [if_pos hba, hba, load_store_of_lt _ _ hv]
  · rw [if_neg hba]
    refine load_store_of_disjoint _ _ ?_
    rcases hab.resolve_left hba with h | h <;> omega

section Fields

variable (hab : b = a ∨ Apart a b)

include hab

theorem next_setNext (hv : v < 2 ^ 64) : next (setNext m a v) b = if b = a then v else next m b := by
  simpa [next, setNext] using load_store_same m hab 0 8 (by decide) hv

theorem next_setSize : next (setSize m a v) b = next m b := by
  simpa [next, setSize] using load_store_field m hab 8 4 0 8 (by decide) (by decide) (by decide)

theorem next_setData : next (setData m a v) b = next m b := by
  simpa [next, setData] using load_store_field m hab 16 8 0 8 (by decide) (by decide) (by decide)

theorem size_setNext : size (setNext m a v) b = size m b := by
  simpa [size, setNext] using load_store_field m hab 0 8 8 4 (by decide) (by decide) (by decide)

theorem size_setSize (hv : v < 2 ^ 32) : size (setSize m a v) b = if b = a then v else size m b := by
  exact load_store_same m hab 8 4 (by decide) hv

theorem size_setData : size (setData m a v) b = size m b :=
  load_store_field m hab 16 8 8 4 (by decide) (by decide) (by decide)

theorem data_setNext : data (setNext m a v) b = data m b := by
  simpa [data, setNext] using load_store_field m hab 0 8 16 8 (by decide) (by decide) (by decide)

theorem data_setSize : data (setSize m a v) b = data m b :=
  load_store_field m hab 8 4 16 8 (by decide) (by decide) (by decide)

theorem data_setData (hv : v < 2 ^ 64) : data (setData m a v) b = if b = a then v else data m b :=
  load_store_same m hab 16 8 (by decide) hv

end Fields

theorem next_lt (m : Memory) (a : ℕ) : next m a < 2 ^ 64 := load_lt m a 8

theorem size_lt (m : Memory) (a : ℕ) : size m a < 2 ^ 32 := load_lt m (a + 8) 4

theorem after_of_lt (h : a + 24 * n < 2 ^ 64) : after a n = a + 24 * n := Nat.mod_eq_of_lt h

end Header

namespace MemManager

open Header

variable {σ : Type} {h : MemManager σ} {m : Memory} {F : Finset ℕ} {block p q c fuel : ℕ}

/-! ## The gap for a block -/

/-- Before the gap the loop goes on, and it stops there. -/
theorem freeSearch_eq (hp : Follows F p (next m p)) (hb : block ∉ F) (k : ℕ) :
    (Follows (insert block F) p block → freeSearch m block (k + 1) p = some p) ∧
      (¬ Follows (insert block F) p block →
        freeSearch m block (k + 1) p = freeSearch m block k (next m p)) := by
  have hgap := hp.insert_iff hb
  rw [freeSearch]
  generalize next m p = n at hgap ⊢
  constructor
  · intro hf
    by_cases h : p < block ∧ block < n
    · rw [if_pos h]
    · rw [if_neg h, if_pos ((hgap.mp hf).resolve_left h)]
  · intro hf
    obtain ⟨h₁, h₂⟩ := not_or.mp fun h => hf (hgap.mpr h)
    rw [if_neg h₁, if_neg h₂]

/-- The search of `FreeBlock` ends within one lap, at the one gap for the block. -/
theorem freeSearch_spec (hF : Circle F (next m)) (hb : block ∉ F) (hp : p ∈ F) :
    ∃ g ∈ F, Follows (insert block F) g block ∧
      (∀ g' ∈ F, Follows (insert block F) g' block → g' = g) ∧
      ∀ fuel, F.card ≤ fuel → freeSearch m block fuel p = some g := by
  obtain ⟨g, hg, hplace⟩ := exists_follows_insert ⟨p, hp⟩ block
  have huniq : ∀ g' ∈ F, Follows (insert block F) g' block → g' = g := fun g' hg' h =>
    h.pred_unique hplace (Finset.mem_insert_of_mem hg') (Finset.mem_insert_of_mem hg)
  -- the way from `p` to the gap
  have hway : ∀ k, (upTo F p g).card < k → freeSearch m block k p = some g := by
    refine cyclic_induction (P := fun a => ∀ k, (upTo F a g).card < k → freeSearch m block k a = some g)
      hF hg (fun k hk => ?_) (fun a ha hne ih k hk => ?_) hp
    · obtain ⟨k, rfl⟩ := Nat.exists_eq_succ_of_ne_zero (Nat.ne_zero_of_lt hk)
      exact (freeSearch_eq (hF g hg) hb k).1 hplace
    · obtain ⟨k, rfl⟩ := Nat.exists_eq_succ_of_ne_zero (Nat.ne_zero_of_lt hk)
      obtain ⟨hnot, heq⟩ := upTo_eq (hF a ha) hg hne
      rw [heq, Finset.card_insert_of_notMem hnot] at hk
      rw [(freeSearch_eq (hF a ha) hb k).2 fun h => hne (huniq a ha h)]
      exact ih k (Nat.lt_of_succ_lt_succ hk)
  exact ⟨g, hg, hplace, huniq, fun fuel hfuel => hway fuel ((card_upTo_lt hp).trans_le hfuel)⟩

/-! ## Linking a block -/

/-- The block ends where the block after the gap starts. -/
def JoinsNext (m : Memory) (p block : ℕ) : Prop := after block (size m block) = next m p

/-- The block before the gap ends where the block starts. -/
def JoinsPrevious (m : Memory) (p block : ℕ) : Prop := after p (size m p) = block

instance : Decidable (JoinsNext m p block) := inferInstanceAs (Decidable (_ = _))

instance : Decidable (JoinsPrevious m p block) := inferInstanceAs (Decidable (_ = _))

theorem linkNext_fields (hp : Apart block p) (hq : Apart block (next m p))
    (hsize : JoinsNext m p block → size m block + size m (next m p) < 2 ^ 32)
    (hc : c = block ∨ Apart block c) :
    next (linkNext m p block) c = (if c = block then
        if JoinsNext m p block then next m (next m p) else next m p
      else next m c) ∧
    size (linkNext m p block) c = (if c = block ∧ JoinsNext m p block then
        size m block + size m (next m p)
      else size m c) ∧
    data (linkNext m p block) c = data m c := by
  by_cases hj : JoinsNext m p block
  · have hp' : next (setSize m block (size m block + size m (next m p))) p = next m p :=
      next_setSize (.inr hp)
    have hq' : next (setSize m block (size m block + size m (next m p)))
        (next m p) = next m (next m p) :=
      next_setSize (.inr hq)
    have heq : linkNext m p block = setNext (setSize m block (size m block + size m (next m p))) block
        (next (setSize m block (size m block + size m (next m p)))
          (next (setSize m block (size m block + size m (next m p))) p)) := if_pos hj
    rw [heq, hp', hq', next_setNext hc (next_lt m _), next_setSize hc, size_setNext hc,
      size_setSize hc (hsize hj), data_setNext hc, data_setSize hc]
    simp only [hj, if_true, and_true]
  · have heq : linkNext m p block = setNext m block (next m p) := if_neg hj
    rw [heq, next_setNext hc (next_lt m p), size_setNext hc, data_setNext hc]
    simp only [hj, if_false, and_false, and_self]

theorem linkPrevious_fields (hb : Apart p block) (hlt : block < 2 ^ 64)
    (hsize : JoinsPrevious m p block → size m p + size m block < 2 ^ 32) (hc : c = p ∨ Apart p c) :
    next (linkPrevious m p block) c = (if c = p then
        if JoinsPrevious m p block then next m block else block
      else next m c) ∧
    size (linkPrevious m p block) c = (if c = p ∧ JoinsPrevious m p block then size m p + size m block
      else size m c) ∧
    data (linkPrevious m p block) c = data m c := by
  by_cases hj : JoinsPrevious m p block
  · have hb' : next (setSize m p (size m p + size m block)) block = next m block :=
      next_setSize (.inr hb)
    have heq : linkPrevious m p block = setNext (setSize m p (size m p + size m block)) p
        (next (setSize m p (size m p + size m block)) block) := if_pos hj
    rw [heq, hb', next_setNext hc (next_lt m block), next_setSize hc, size_setNext hc,
      size_setSize hc (hsize hj), data_setNext hc, data_setSize hc]
    simp only [hj, if_true, and_true]
  · have heq : linkPrevious m p block = setNext m p block := if_neg hj
    rw [heq, next_setNext hc hlt, size_setNext hc, data_setNext hc]
    simp only [hj, if_false, and_false, and_self]

/-- The free list after a block has been linked behind `p`. -/
def linked (F : Finset ℕ) (m : Memory) (p block : ℕ) : Finset ℕ :=
  let F := if JoinsNext m p block ∧
    next m p ≠ p then (insert block F).erase (next m p) else insert block F
  if JoinsPrevious m p block then F.erase block else F

/-- The blocks of a free list with a block that is not on it. -/
structure Listed (F : Finset ℕ) (m : Memory) (block : ℕ) : Prop where
  circle : Circle F (next m)
  apart : ∀ a ∈ insert block F, ∀ b ∈ insert block F, a ≠ b → Apart a b
  notMem : block ∉ F
  lt : block < 2 ^ 64
  total : ∑ a ∈ insert block F, size m a < 2 ^ 32

namespace Listed

theorem apart' (h : Listed F m block) {a b : ℕ} (ha : a ∈ insert block F) (hb : b ∈ insert block F) :
    b = a ∨ Apart a b := by
  by_cases hba : b = a
  · exact .inl hba
  · exact .inr (h.apart a ha b hb (Ne.symm hba))

theorem size_add_lt (h : Listed F m block) {a b : ℕ} (ha : a ∈ insert block F) (hb : b ∈ insert block F)
    (hne : a ≠ b) : size m a + size m b < 2 ^ 32 := by
  have hpair : ∑ c ∈ {a, b}, size m c ≤ ∑ c ∈ insert block F, size m c :=
    Finset.sum_le_sum_of_subset (Finset.insert_subset ha (Finset.singleton_subset_iff.mpr hb))
  rw [Finset.sum_pair hne] at hpair
  exact hpair.trans_lt h.total

/-- The block cannot end at the block before it, which ends at the block. -/
theorem not_both (h : Listed F m block) (hp : p ∈ F) (hq : next m p = p) (hj : JoinsNext m p block) :
    ¬ JoinsPrevious m p block := by
  intro hj'
  have hne : block ≠ p := fun he => h.notMem (he ▸ hp)
  have hlt : p < 2 ^ 64 := hq ▸ next_lt m p
  have hsum : 24 * size m p + 24 * size m block < 2 ^ 64 :=
    (Nat.add_lt_add (Nat.mul_lt_mul_of_pos_left (size_lt m p) (by decide))
      (Nat.mul_lt_mul_of_pos_left (size_lt m block) (by decide))).trans (by decide)
  have hround : (p + (24 * size m p + 24 * size m block)) % 2 ^ 64 = p := by
    rw [JoinsNext, hq, ← show after p (size m p) = block from hj', after, after, Nat.mod_add_mod,
      show (p + 24 * size m p) % 2 ^ 64 = block from hj'] at hj
    rw [← Nat.add_assoc]
    exact hj
  have hzero : 24 * size m p = 0 := by
    generalize 24 * size m p = x at hsum hround ⊢
    generalize 24 * size m block = y at hsum hround
    omega
  rw [JoinsPrevious, after, hzero, Nat.add_zero, Nat.mod_eq_of_lt hlt] at hj'
  exact hne hj'.symm

/-- The memory after a block has been linked behind `p`. -/
abbrev link (m : Memory) (p block : ℕ) : Memory := linkPrevious (linkNext m p block) p block

/-- What the block takes in. -/
theorem size_linkNext_lt (h : Listed F m block) (hp : p ∈ F) (hj : JoinsPrevious m p block) :
    size m p + (if JoinsNext m p block then size m block + size m (next m p) else size m block) <
      2 ^ 32 := by
  have hq := (h.circle p hp).mem
  have hbp : block ≠ p := fun he => h.notMem (he ▸ hp)
  have hbq : block ≠ next m p := fun he => h.notMem (he ▸ hq)
  split
  · next hn =>
    have hpq : p ≠ next m p := fun he => h.not_both hp he.symm hn hj
    have hsub : {p, block, next m p} ⊆ insert block F := by
      intro c hc
      simp only [Finset.mem_insert, Finset.mem_singleton] at hc ⊢
      rcases hc with rfl | rfl | rfl
      · exact .inr hp
      · exact .inl rfl
      · exact .inr hq
    have hsum : ∑ c ∈ {p, block, next m p}, size m c ≤ ∑ c ∈ insert block F, size m c :=
      Finset.sum_le_sum_of_subset hsub
    rw [Finset.sum_insert (by simp [hpq, hbp.symm]), Finset.sum_pair hbq] at hsum
    exact hsum.trans_lt h.total
  · exact h.size_add_lt (Finset.mem_insert_of_mem hp) (Finset.mem_insert_self ..) hbp.symm

/-- The headers after a block has been linked, also those that are not on the list. -/
theorem link_fields (h : Listed F m block) (hp : p ∈ F) (hcb : c = block ∨ Apart block c)
    (hcp : c = p ∨ Apart p c) :
    next (link m p block) c = (if c = p then
        if JoinsPrevious m p block then
          if JoinsNext m p block then next m (next m p) else next m p
        else block
      else if c = block then
        if JoinsNext m p block then next m (next m p) else next m p
      else next m c) ∧
    size (link m p block) c = (if c = p ∧ JoinsPrevious m p block then
        size m p + (if JoinsNext m p block then size m block + size m (next m p) else size m block)
      else if c = block ∧ JoinsNext m p block then size m block + size m (next m p)
      else size m c) ∧
    data (link m p block) c = data m c := by
  have hb := Finset.mem_insert_self block F
  have hp' := Finset.mem_insert_of_mem (b := block) hp
  have hq' := Finset.mem_insert_of_mem (b := block) (h.circle p hp).mem
  have hbp : p ≠ block := fun he => h.notMem (he ▸ hp)
  have hbq : next m p ≠ block := fun he => h.notMem (he ▸ (h.circle p hp).mem)
  have hnext : ∀ c, c = block ∨ Apart block c → _ := fun c hc => linkNext_fields
    (h.apart _ hb _ hp' hbp.symm) (h.apart _ hb _ hq' hbq.symm)
    (fun _ => h.size_add_lt hb hq' hbq.symm) hc
  obtain ⟨-, hsp, -⟩ := hnext p (h.apart' hb hp')
  obtain ⟨hnb, hsb, -⟩ := hnext block (.inl rfl)
  rw [if_neg fun he => hbp he.1] at hsp
  simp only [if_true, true_and] at hnb hsb
  have hiff : JoinsPrevious (linkNext m p block) p block ↔ JoinsPrevious m p block := by
    rw [JoinsPrevious, JoinsPrevious, hsp]
  have hlt : JoinsPrevious (linkNext m p block) p block →
      size (linkNext m p block) p + size (linkNext m p block) block < 2 ^ 32 := by
    rw [hiff, hsp, hsb]
    exact h.size_linkNext_lt hp
  obtain ⟨h₁, h₂, h₃⟩ := linkPrevious_fields (h.apart _ hp' _ hb hbp) h.lt hlt hcp
  obtain ⟨hn, hs, hd⟩ := hnext c hcb
  rw [h₁, h₂, h₃, hn, hs, hd, hnb, hsp, hsb]
  simp only [hiff, and_self]

/-- The two conditions for a block on the list. -/
theorem apart_both (h : Listed F m block) (hp : p ∈ F) (hc : c ∈ insert block F) :
    (c = block ∨ Apart block c) ∧ (c = p ∨ Apart p c) :=
  ⟨h.apart' (Finset.mem_insert_self ..) hc, h.apart' (Finset.mem_insert_of_mem hp) hc⟩

/-! ## The list after a block has been linked -/

theorem mem_linked (hc : c ∈ linked F m p block) : c ∈ insert block F := by
  have hsub : ∀ G, G ⊆ insert block F → c ∈ (if JoinsPrevious m p block then G.erase block else G) →
      c ∈ insert block F := by
    intro G hG hc
    split at hc
    · exact hG (Finset.mem_of_mem_erase hc)
    · exact hG hc
  refine hsub _ ?_ hc
  split
  · exact Finset.erase_subset ..
  · exact Finset.Subset.refl _

theorem card_linked_le : (linked F m p block).card ≤ F.card + 1 :=
  (Finset.card_le_card fun _ => mem_linked).trans (Finset.card_insert_le ..)

theorem pred_mem_linked (h : Listed F m block) (hp : p ∈ F) : p ∈ linked F m p block := by
  have hbp : p ≠ block := fun he => h.notMem (he ▸ hp)
  have hp' := Finset.mem_insert_of_mem (b := block) hp
  unfold linked
  split
  · next hj =>
    have hmem := Finset.mem_erase.mpr ⟨Ne.symm hj.2, hp'⟩
    split
    · exact Finset.mem_erase.mpr ⟨hbp, hmem⟩
    · exact hmem
  · split
    · exact Finset.mem_erase.mpr ⟨hbp, hp'⟩
    · exact hp'

theorem block_mem_linked (h : Listed F m block) (hp : p ∈ F) (hj : ¬ JoinsPrevious m p block) :
    block ∈ linked F m p block := by
  have hbq : block ≠ next m p := fun he => h.notMem (he ▸ (h.circle p hp).mem)
  have hb := Finset.mem_insert_self block F
  unfold linked
  rw [if_neg hj]
  split
  · exact Finset.mem_erase.mpr ⟨hbq, hb⟩
  · exact hb

/-- The list is circular and in order again. -/
theorem circle_linked (h : Listed F m block) (hp : p ∈ F) (hplace : Follows (insert block F) p block) :
    Circle (linked F m p block) (next (link m p block)) := by
  have hq := (h.circle p hp).mem
  have hbp : p ≠ block := fun he => h.notMem (he ▸ hp)
  have hbq : next m p ≠ block := fun he => h.notMem (he ▸ hq)
  -- the list with the block between `p` and the next one
  have hins : Circle (insert block F) fun c =>
      if c = p then block else if c = block then next m p else next m c := by
    refine h.circle.insert hp h.notMem hplace (if_pos rfl) ?_ fun c hc hcp => ?_
    · exact (if_neg hbp.symm).trans (if_pos rfl)
    · have hcb : c ≠ block := fun he => h.notMem (he ▸ hc)
      exact (if_neg hcp).trans (if_neg hcb)
  -- the block takes in the next one, unless that is `p`
  have hjoin : Circle (if JoinsNext m p block ∧ next m p ≠ p then (insert block F).erase (next m p)
      else insert block F) fun c => if c = p then block else if c = block then
        if JoinsNext m p block then next m (next m p) else next m p
      else next m c := by
    by_cases hj : JoinsNext m p block ∧ next m p ≠ p
    · rw [if_pos hj]
      refine hins.erase (p := block) (Finset.mem_insert_self ..) ?_ hbq ?_ fun c _ hcb _ => ?_
      · exact (if_neg hbp.symm).trans (if_pos rfl)
      · simp only [hbp.symm, hbq, hj.1, hj.2, if_false, if_true]
      · simp only [hcb, if_false]
    · rw [if_neg hj]
      refine hins.congr fun c _ => ?_
      by_cases hjn : JoinsNext m p block
      · have hqp : next m p = p := by_contra fun hne => hj ⟨hjn, hne⟩
        simp only [hjn, hqp, if_true]
      · simp only [hjn, if_false]
  refine Circle.congr ?_ fun c hc => (h.link_fields hp (h.apart_both hp (mem_linked hc)).1
    (h.apart_both hp (mem_linked hc)).2).1
  by_cases hj : JoinsPrevious m p block
  · have hmem := h.pred_mem_linked hp
    simp only [linked, hj, if_true] at hmem ⊢
    refine hjoin.erase (Finset.mem_of_mem_erase hmem) (if_pos rfl) hbp.symm ?_ fun c _ hcp _ => ?_
    · simp only [hbp.symm, if_false, if_true]
    · simp only [hcp, if_false]
  · simp only [linked, hj, if_false] at hjoin ⊢
    exact hjoin

/-- Some block on the list is as large as the new one. -/
theorem exists_fits (h : Listed F m block) (hp : p ∈ F) :
    ∃ c ∈ linked F m p block, size m block ≤ size (link m p block) c := by
  by_cases hj : JoinsPrevious m p block
  · refine ⟨p, h.pred_mem_linked hp, ?_⟩
    have hapart := h.apart_both hp (Finset.mem_insert_of_mem hp)
    rw [(h.link_fields hp hapart.1 hapart.2).2.1, if_pos ⟨rfl, hj⟩]
    split
    · exact (Nat.le_add_right ..).trans (Nat.le_add_left ..)
    · exact Nat.le_add_left ..
  · refine ⟨block, h.block_mem_linked hp hj, ?_⟩
    have hapart := h.apart_both hp (Finset.mem_insert_self ..)
    rw [(h.link_fields hp hapart.1 hapart.2).2.1, if_neg fun hc => hj hc.2]
    split
    · exact Nat.le_add_right ..
    · exact le_rfl

end Listed

/-- What `FreeBlock` makes of the free list. -/
theorem freeBlock_spec (hL : Listed F h.mem block) (hlist : h.free_list ∈ F) :
    ∃ g ∈ F, Follows (insert block F) g block ∧ ∀ fuel, F.card ≤ fuel →
      freeBlock h fuel block = some { h with mem := Listed.link h.mem g block, free_list := g } := by
  obtain ⟨g, hg, hplace, -, hsearch⟩ := freeSearch_spec hL.circle hL.notMem hlist
  refine ⟨g, hg, hplace, fun fuel hfuel => ?_⟩
  rw [freeBlock, hsearch fuel hfuel]
  rfl

end MemManager

end OrangeOs.Lib
