import Mathlib.Algebra.BigOperators.Ring.Finset
import OrangeOs.Lib.HeapSearch
import OrangeOs.Library.Tiling

/-! # Blocks of the heap

The memory that `sbrk` has supplied is cut into blocks, which are free or in use. `FreeBlock` and
the end of a search for a block keep it so.
-/

namespace OrangeOs.Lib.MemManager

open Memory Header

variable {σ : Type} {sbrk : ℕ → σ → Memory → ℕ × σ × Memory} {owned : σ → ℕ → Prop} {got : σ → ℕ}
  {h h' : MemManager σ} {F L : Finset ℕ} {a b base block c g p unites : ℕ}

/-- The memory that `sbrk` supplies: `owned` are its addresses and `got` is their number. It does
not touch `base`, and its size in units fits in 32 bits. -/
structure Layout (owned : σ → ℕ → Prop) (got : σ → ℕ) (base : ℕ) : Prop where
  far : ∀ os y, owned os y → y + 1 < base ∨ base + 24 < y
  lt : ∀ os y, owned os y → y + 1 < 2 ^ 64
  base_lt : base + 24 < 2 ^ 64
  total : ∀ os, got os < 24 * (2 ^ 32 - 1)

/-- The blocks of `F` but for `base` are free and those of `L` are in use. -/
structure Sound (owned : σ → ℕ → Prop) (got : σ → ℕ) (h : MemManager σ) (F L : Finset ℕ) : Prop where
  circle : Circle F (next h.mem)
  base_mem : h.base ∈ F
  list_mem : h.free_list ∈ F
  base_size : size h.mem h.base = 1
  base_data : data h.mem h.base = 0
  notMem : ∀ a ∈ L, a ∉ F
  tiling : Tiling (F.erase h.base ∪ L) (fun a => 24 * size h.mem a) (owned h.os) (got h.os)
  data_eq : ∀ a ∈ F.erase h.base ∪ L, data h.mem a = a + 24
  apart_free : ∀ a ∈ F.erase h.base, ∀ b ∈ F.erase h.base, a + 24 * size h.mem a ≠ b

namespace Sound

theorem mem_blocks (ha : a ∈ F ∪ L) (hne : a ≠ base) : a ∈ F.erase base ∪ L := by
  rcases Finset.mem_union.mp ha with ha | ha
  · exact Finset.mem_union_left _ (Finset.mem_erase.mpr ⟨hne, ha⟩)
  · exact Finset.mem_union_right _ ha

variable (hl : Layout owned got h.base) (hS : Sound owned got h F L)

include hS

theorem size_pos (ha : a ∈ F.erase h.base ∪ L) : 0 < size h.mem a :=
  Nat.pos_of_mul_pos_left (hS.tiling.pos a ha)

theorem owned_of_lt (ha : a ∈ F.erase h.base ∪ L) {y : ℕ} (hy : a ≤ y)
    (hy' : y < a + 24 * size h.mem a) :
    owned h.os y :=
  hS.tiling.mem_set ha hy hy'

theorem size_pos' (ha : a ∈ F ∪ L) : 0 < size h.mem a := by
  by_cases hab : a = h.base
  · rw [hab, hS.base_size]
    exact Nat.one_pos
  · exact hS.size_pos (mem_blocks ha hab)

theorem next_ne (hp : p ∈ F) (hq : next h.mem p ≠ h.base) : next h.mem p ≠ p := by
  intro he
  have hself := hS.circle p hp
  rw [he] at hself hq
  exact hq (hself.eq_of_self hS.base_mem).symm

theorem base_notMem : h.base ∉ L := fun hm => hS.notMem _ hm hS.base_mem

include hl

/-- A block does not touch `base`. -/
theorem base_far (ha : a ∈ F.erase h.base ∪ L) :
    a + 24 * size h.mem a < h.base ∨ h.base + 24 < a := by
  have hpos := hS.size_pos ha
  rcases hl.far h.os a (hS.owned_of_lt ha le_rfl (by omega)) with hlow | hhigh
  · refine .inl ?_
    -- otherwise one of the addresses of the block is next to `base`
    by_contra hge
    rcases hl.far h.os (h.base - 1) (hS.owned_of_lt ha (by omega) (by omega)) with h' | h' <;> omega
  · exact .inr hhigh

theorem end_lt (ha : a ∈ F.erase h.base ∪ L) : a + 24 * size h.mem a < 2 ^ 64 := by
  have hpos := hS.size_pos ha
  have := hl.lt h.os (a + 24 * size h.mem a - 1) (hS.owned_of_lt ha (by omega) (by omega))
  omega

theorem after_size (ha : a ∈ F.erase h.base ∪ L) : after a (size h.mem a) = a + 24 * size h.mem a :=
  after_of_lt (hS.end_lt hl ha)

/-- No two blocks overlap, `base` included. -/
theorem apart_size (ha : a ∈ F ∪ L) (hb : b ∈ F ∪ L) (hne : a ≠ b) :
    a + 24 * size h.mem a ≤ b ∨ b + 24 * size h.mem b ≤ a := by
  by_cases hab : a = h.base
  · subst hab
    rw [hS.base_size]
    rcases hS.base_far hl (mem_blocks hb hne.symm) with hfar | hfar
    · exact .inr hfar.le
    · exact .inl hfar.le
  · by_cases hbb : b = h.base
    · subst hbb
      rw [hS.base_size]
      rcases hS.base_far hl (mem_blocks ha hab) with hfar | hfar
      · exact .inl hfar.le
      · exact .inr hfar.le
    · exact hS.tiling.apart a (mem_blocks ha hab) b (mem_blocks hb hbb) hne

theorem apart (ha : a ∈ F ∪ L) (hb : b ∈ F ∪ L) (hne : a ≠ b) : Apart a b := by
  have hpos := hS.size_pos' ha
  have hpos' := hS.size_pos' hb
  rcases hS.apart_size hl ha hb hne with h | h
  · exact .inl (by omega)
  · exact .inr (by omega)

theorem total (B : Finset ℕ) (hB : B ⊆ F ∪ L) : ∑ a ∈ B, size h.mem a < 2 ^ 32 := by
  have hbase : ∑ a ∈ B, size h.mem a ≤ ∑ a ∈ B.erase h.base, size h.mem a + 1 := by
    by_cases hm : h.base ∈ B
    · rw [← Finset.sum_erase_add B _ hm, hS.base_size]
    · rw [Finset.erase_eq_of_notMem hm]
      exact Nat.le_succ _
  have hsub : B.erase h.base ⊆ F.erase h.base ∪ L := fun a ha =>
    mem_blocks (hB (Finset.mem_of_mem_erase ha)) (Finset.ne_of_mem_erase ha)
  have hle := hS.tiling.le_total hsub
  rw [← Finset.mul_sum] at hle
  have := hl.total h.os
  omega

theorem freeList : FreeList F h where
  circle := hS.circle
  apart _ ha _ hb := hS.apart hl (Finset.mem_union_left _ ha) (Finset.mem_union_left _ hb)
  base := hS.base_mem
  free_list := hS.list_mem
  total := hS.total hl F Finset.subset_union_left

/-- A block in use, with the free list. -/
theorem listed (hb : block ∈ L) : Listed F h.mem block := by
  have hsub : insert block F ⊆ F ∪ L :=
    Finset.insert_subset (Finset.mem_union_right _ hb) Finset.subset_union_left
  refine ⟨hS.circle, fun a ha b hb hne => hS.apart hl (hsub ha) (hsub hb) hne, hS.notMem block hb, ?_,
    hS.total hl _ hsub⟩
  have := hS.end_lt hl (Finset.mem_union_right _ hb)
  omega

/-! ## `FreeBlock` -/

/-- The block before the gap and the one after it are next to the block only if they are not `base`. -/
theorem joins (hb : block ∈ L) (hg : g ∈ F) :
    (JoinsNext h.mem g block → next h.mem g ∈ F.erase h.base ∧ next h.mem g ≠ g ∧
      block + 24 * size h.mem block = next h.mem g) ∧
    (JoinsPrevious h.mem g block → g ∈ F.erase h.base ∧ g + 24 * size h.mem g = block) := by
  have hblock := Finset.mem_union_right (F.erase h.base) hb
  have hq := (hS.circle g hg).mem
  constructor
  · intro hj
    rw [JoinsNext, hS.after_size hl hblock] at hj
    have hqb : next h.mem g ≠ h.base := by
      intro he
      rcases hS.base_far hl hblock with hfar | hfar <;> omega
    refine ⟨Finset.mem_erase.mpr ⟨hqb, hq⟩, fun hqg => ?_, hj⟩
    -- the list would be that one block
    have hself := hS.circle g hg
    rw [hqg] at hself
    exact hqb (hqg.trans (hself.eq_of_self hS.base_mem).symm)
  · intro hj
    have hgb : g ≠ h.base := by
      intro he
      rw [JoinsPrevious, he, hS.base_size, after_of_lt hl.base_lt] at hj
      have hfar := hS.base_far hl hblock
      omega
    have hgblock := Finset.mem_erase.mpr ⟨hgb, hg⟩
    rw [JoinsPrevious, hS.after_size hl (Finset.mem_union_left _ hgblock)] at hj
    exact ⟨hgblock, hj⟩

/-- A free block that the block ends at is the one after the gap. -/
theorem eq_next_of_end (hb : block ∈ L) (hg : g ∈ F) (hplace : Follows (insert block F) g block)
    (hc : c ∈ F) (hend : block + 24 * size h.mem block = c) : c = next h.mem g := by
  have hbF := hS.notMem block hb
  have hpos := hS.size_pos' (Finset.mem_union_right F hb)
  have hafter := (hS.circle g hg).insert_right hplace hg hbF
  rcases hafter.2 with ⟨hlt, hgap⟩ | hall
  · have hq := (hS.circle g hg).mem
    have hle : next h.mem g ≤ c :=
      (hgap c (Finset.mem_insert_of_mem hc)).resolve_left (by omega)
    have hne : block ≠ next h.mem g := fun he => hbF (he ▸ hq)
    rcases hS.apart_size hl (Finset.mem_union_right F hb) (Finset.mem_union_left L hq) hne with h | h
    · omega
    · omega
  · have := (hall c (Finset.mem_insert_of_mem hc)).2
    omega

/-- A free block that ends at the block is the one before the gap. -/
theorem eq_previous_of_end (hg : g ∈ F) (hplace : Follows (insert block F) g block)
    (hc : c ∈ F) (hend : c + 24 * size h.mem c = block) : c = g := by
  have hpos := hS.size_pos' (Finset.mem_union_left L hc)
  by_contra hne
  rcases hplace.2 with ⟨hlt, hgap⟩ | hall
  · have hle : c ≤ g := (hgap c (Finset.mem_insert_of_mem hc)).resolve_right (by omega)
    rcases hS.apart_size hl (Finset.mem_union_left L hc) (Finset.mem_union_left L hg) hne with h | h
    · omega
    · have := hS.size_pos' (Finset.mem_union_left L hg)
      omega
  · have := (hall c (Finset.mem_insert_of_mem hc)).1
    omega

/-- The headers of all blocks after a block has been linked. -/
theorem link_fields (hb : block ∈ L) (hg : g ∈ F) (hc : c ∈ F ∪ L) :
    size (Listed.link h.mem g block) c = (if c = g ∧ JoinsPrevious h.mem g block then
        size h.mem g + (if JoinsNext h.mem g block then size h.mem block + size h.mem (next h.mem g)
          else size h.mem block)
      else if c = block ∧ JoinsNext h.mem g block then size h.mem block + size h.mem (next h.mem g)
      else size h.mem c) ∧
    data (Listed.link h.mem g block) c = data h.mem c := by
  have hapart : ∀ a, a ∈ F ∪ L → c = a ∨ Apart a c := by
    intro a ha
    by_cases hca : c = a
    · exact .inl hca
    · exact .inr (hS.apart hl ha hc (Ne.symm hca))
  exact ((hS.listed hl hb).link_fields hg (hapart block (Finset.mem_union_right F hb))
    (hapart g (Finset.mem_union_left L hg))).2

/-- The blocks after a block has been linked. -/
theorem blocks_linked (hb : block ∈ L) (hg : g ∈ F) :
    (linked F h.mem g block).erase h.base ∪ L.erase block =
      if JoinsPrevious h.mem g block then
        (if JoinsNext h.mem g block then (F.erase h.base ∪ L).erase (next h.mem g)
          else F.erase h.base ∪ L).erase block
      else if JoinsNext h.mem g block then (F.erase h.base ∪ L).erase (next h.mem g)
        else F.erase h.base ∪ L := by
  have hbF := hS.notMem block hb
  have hbase : block ≠ h.base := fun he => hS.base_notMem (he ▸ hb)
  have hq := (hS.circle g hg).mem
  have hqL : next h.mem g ∉ L := fun hm => hS.notMem _ hm hq
  have hqb : next h.mem g ≠ block := fun he => hbF (he ▸ hq)
  obtain ⟨hjn, -⟩ := hS.joins hl hb hg
  unfold linked
  by_cases hn : JoinsNext h.mem g block
  · have hqg := (hjn hn).2.1
    by_cases hp : JoinsPrevious h.mem g block <;> simp only [hn, hp, hqg, ne_eq, not_false_eq_true,
      and_self, if_true, if_false]
    all_goals
      ext c
      simp only [Finset.mem_union, Finset.mem_erase, Finset.mem_insert]
      grind
  · by_cases hp : JoinsPrevious h.mem g block <;> simp only [hn, hp, false_and, if_true, if_false]
    all_goals
      ext c
      simp only [Finset.mem_union, Finset.mem_erase, Finset.mem_insert]
      grind

/-- The memory is still cut into the blocks. -/
theorem tiling_link (hb : block ∈ L) (hg : g ∈ F) :
    Tiling ((linked F h.mem g block).erase h.base ∪ L.erase block)
      (fun a => 24 * size (Listed.link h.mem g block) a) (owned h.os) (got h.os) := by
  have hsize : ∀ c ∈ F ∪ L, _ := fun c hc => (hS.link_fields hl hb hg hc).1
  have hmem : ∀ c, c ∈ F.erase h.base ∪ L → c ∈ F ∪ L := fun c hc =>
    Finset.union_subset_union_left (Finset.erase_subset ..) hc
  have hbF := hS.notMem block hb
  have hbB := Finset.mem_union_right (F.erase h.base) hb
  have hgb : g ≠ block := fun he => hbF (he ▸ hg)
  have hqb : next h.mem g ≠ block := fun he => hbF (he ▸ (hS.circle g hg).mem)
  obtain ⟨hjn, hjp⟩ := hS.joins hl hb hg
  rw [hS.blocks_linked hl hb hg]
  generalize Listed.link h.mem g block = m' at hsize ⊢
  -- the block takes in the one after the gap
  have hfirst : Tiling (if JoinsNext h.mem g block then (F.erase h.base ∪ L).erase (next h.mem g)
      else F.erase h.base ∪ L) (fun c => if c = block ∧ JoinsNext h.mem g block then
        24 * (size h.mem block + size h.mem (next h.mem g)) else 24 * size h.mem c)
      (owned h.os) (got h.os) := by
    by_cases hn : JoinsNext h.mem g block
    · obtain ⟨hq, -, hend⟩ := hjn hn
      rw [if_pos hn]
      refine hS.tiling.join hbB (Finset.mem_union_left _ hq) hend ?_ fun c _ hcb _ => ?_
      · simp only [hn, and_self, if_true, Nat.mul_add]
      · simp only [hcb, false_and, if_false]
    · rw [if_neg hn]
      refine hS.tiling.congr (fun c _ => ?_) fun _ => Iff.rfl
      simp only [hn, and_false, if_false]
  have hsub : ∀ c, c ∈ (if JoinsNext h.mem g block then (F.erase h.base ∪ L).erase (next h.mem g)
      else F.erase h.base ∪ L) → c ∈ F ∪ L := by
    intro c hc
    split at hc
    · exact hmem c (Finset.mem_of_mem_erase hc)
    · exact hmem c hc
  -- the one before the gap takes in the block
  by_cases hp : JoinsPrevious h.mem g block
  · obtain ⟨hgB, hend⟩ := hjp hp
    rw [if_pos hp]
    refine hfirst.join (a := g) (b := block) ?_ ?_ ?_ ?_ fun c hc hcg _ => ?_
    · have hgB' := Finset.mem_union_left L hgB
      split
      · next hn => exact Finset.mem_erase.mpr ⟨(hjn hn).2.1.symm, hgB'⟩
      · exact hgB'
    · split
      · exact Finset.mem_erase.mpr ⟨hqb.symm, hbB⟩
      · exact hbB
    · simp only [hgb, false_and, if_false]
      exact hend
    · rw [hsize g (Finset.mem_union_left L hg)]
      simp only [hp, hgb, and_self, true_and, false_and, if_true, if_false, Nat.mul_add]
      split
      · exact congrArg _ (Nat.mul_add ..)
      · rfl
    · rw [hsize c (hsub c hc)]
      simp only [hcg, false_and, if_false]
      split <;> rfl
  · rw [if_neg hp]
    refine hfirst.congr (fun c hc => ?_) fun _ => Iff.rfl
    rw [hsize c (hsub c hc)]
    simp only [hp, and_false, if_false]
    split <;> rfl

/-- No two free blocks are next to each other. -/
theorem apart_free_link (hb : block ∈ L) (hg : g ∈ F) (hplace : Follows (insert block F) g block)
    (ha : a ∈ (linked F h.mem g block).erase h.base) (hc : c ∈ (linked F h.mem g block).erase h.base) :
    a + 24 * size (Listed.link h.mem g block) a ≠ c := by
  have hbF := hS.notMem block hb
  have hbL := Finset.mem_union_right F hb
  obtain ⟨hjn, hjp⟩ := hS.joins hl hb hg
  obtain ⟨hab, ha⟩ := Finset.mem_erase.mp ha
  obtain ⟨hcb, hc⟩ := Finset.mem_erase.mp hc
  have hcF : ∀ c, c ∈ linked F h.mem g block → c = block ∨ c ∈ F := fun c hc =>
    Finset.mem_insert.mp (Listed.mem_linked hc)
  -- the end of the block with what it took in
  have hlast : block + 24 * (if JoinsNext h.mem g block then size h.mem block + size h.mem (next h.mem g)
      else size h.mem block) ≠ c := by
    have hpos := hS.size_pos' hbL
    by_cases hn : JoinsNext h.mem g block
    · obtain ⟨hq, -, hend⟩ := hjn hn
      rw [if_pos hn, Nat.mul_add, ← Nat.add_assoc, hend]
      rcases hcF c hc with rfl | hcF
      · omega
      · exact hS.apart_free _ hq c (Finset.mem_erase.mpr ⟨hcb, hcF⟩)
    · rw [if_neg hn]
      intro he
      rcases hcF c hc with rfl | hcF
      · omega
      · refine hn ?_
        rw [JoinsNext, hS.after_size hl (Finset.mem_union_right _ hb), he]
        exact hS.eq_next_of_end hl hb hg hplace hcF he
  have haFL : a ∈ F ∪ L := (hcF a ha).elim (fun he => he ▸ hbL) (Finset.mem_union_left L)
  rw [(hS.link_fields hl hb hg haFL).1]
  by_cases hagp : a = g ∧ JoinsPrevious h.mem g block
  · obtain ⟨hgB, hend⟩ := hjp hagp.2
    rw [if_pos hagp, hagp.1, Nat.mul_add, ← Nat.add_assoc, hend]
    exact hlast
  · rw [if_neg hagp]
    rcases hcF a ha with rfl | haF
    · split at hlast
      · next hn =>
        rw [if_pos ⟨rfl, hn⟩]
        exact hlast
      · next hn =>
        rw [if_neg fun h => hn h.2]
        exact hlast
    · have hablock : a ≠ block := fun he => hbF (he ▸ haF)
      rw [if_neg fun h => hablock h.1]
      intro hend
      have haB := Finset.mem_erase.mpr ⟨hab, haF⟩
      rcases hcF c hc with rfl | hcF
      · have hag := hS.eq_previous_of_end hl hg hplace haF hend
        refine hagp ⟨hag, ?_⟩
        rw [JoinsPrevious, ← hag, hS.after_size hl (Finset.mem_union_left L haB), hend]
      · exact hS.apart_free a haB c (Finset.mem_erase.mpr ⟨hcb, hcF⟩) hend

/-- `FreeBlock` makes a block in use a free one. -/
theorem link (hb : block ∈ L) (hg : g ∈ F) (hplace : Follows (insert block F) g block)
    (hmem : h'.mem = Listed.link h.mem g block) (hos : h'.os = h.os) (hbase : h'.base = h.base)
    (hlist : h'.free_list = g) : Sound owned got h' (linked F h.mem g block) (L.erase block) := by
  have hL := hS.listed hl hb
  have hbb : h.base ≠ block := fun he => hS.base_notMem (he ▸ hb)
  obtain ⟨hjn, hjp⟩ := hS.joins hl hb hg
  have hbase_mem : h.base ∈ linked F h.mem g block := by
    have hm := Finset.mem_insert_of_mem (b := block) hS.base_mem
    have hqb : JoinsNext h.mem g block → h.base ≠ next h.mem g := fun hn =>
      (Finset.ne_of_mem_erase (hjn hn).1).symm
    unfold linked
    split
    · next hn =>
      split
      · exact Finset.mem_erase.mpr ⟨hbb, Finset.mem_erase.mpr ⟨hqb hn.1, hm⟩⟩
      · exact Finset.mem_erase.mpr ⟨hqb hn.1, hm⟩
    · split
      · exact Finset.mem_erase.mpr ⟨hbb, hm⟩
      · exact hm
  have hfields := hS.link_fields hl hb hg (Finset.mem_union_left L hS.base_mem)
  have hnot : ¬ (h.base = g ∧ JoinsPrevious h.mem g block) := fun h =>
    Finset.ne_of_mem_erase (hjp h.2).1 h.1.symm
  have hblocks : ∀ c ∈ (linked F h.mem g block).erase h.base ∪ L.erase block,
      c ∈ F.erase h.base ∪ L := by
    intro c hc
    rcases Finset.mem_union.mp hc with hc | hc
    · obtain ⟨hcb, hc⟩ := Finset.mem_erase.mp hc
      rcases Finset.mem_insert.mp (Listed.mem_linked hc) with rfl | hc
      · exact Finset.mem_union_right _ hb
      · exact Finset.mem_union_left _ (Finset.mem_erase.mpr ⟨hcb, hc⟩)
    · exact Finset.mem_union_right _ (Finset.mem_of_mem_erase hc)
  constructor
  · rw [hmem]
    exact hL.circle_linked hg hplace
  · rw [hbase]
    exact hbase_mem
  · rw [hlist]
    exact hL.pred_mem_linked hg
  · rw [hmem, hbase, hfields.1, if_neg hnot, if_neg fun h => hbb h.1]
    exact hS.base_size
  · rw [hmem, hbase, hfields.2]
    exact hS.base_data
  · intro a ha hm
    obtain ⟨hab, ha⟩ := Finset.mem_erase.mp ha
    exact (Finset.mem_insert.mp (Listed.mem_linked hm)).elim hab (hS.notMem a ha)
  · rw [hmem, hbase, hos]
    exact hS.tiling_link hl hb hg
  · rw [hmem, hbase]
    intro a ha
    have haFL := Finset.union_subset_union_left (Finset.erase_subset h.base F) (hblocks a ha)
    rw [(hS.link_fields hl hb hg haFL).2]
    exact hS.data_eq a (hblocks a ha)
  · rw [hmem, hbase]
    exact fun a ha b hb' => hS.apart_free_link hl hb hg hplace ha hb'

/-! ## The end of a search -/

/-- A block of the right size is taken from the list. -/
theorem take_whole (hp : p ∈ F) (hq : next h.mem p ≠ h.base)
    (hmem : h'.mem = setNext h.mem p (next h.mem (next h.mem p))) (hos : h'.os = h.os)
    (hbase : h'.base = h.base) (hlist : h'.free_list = p) :
    Sound owned got h' (F.erase (next h.mem p)) (insert (next h.mem p) L) ∧
      ∀ c ∈ F ∪ L, size h'.mem c = size h.mem c := by
  have hqF := (hS.circle p hp).mem
  have hqp := hS.next_ne hp hq
  have hqL : next h.mem p ∉ L := fun hm => hS.notMem _ hm hqF
  have hapart : ∀ c ∈ F ∪ L, c = p ∨ Apart p c := by
    intro c hc
    by_cases hcp : c = p
    · exact .inl hcp
    · exact .inr (hS.apart hl (Finset.mem_union_left L hp) hc (Ne.symm hcp))
  have hnext : ∀ c ∈ F ∪ L,
      next h'.mem c = if c = p then next h.mem (next h.mem p) else next h.mem c := by
    intro c hc
    rw [hmem, next_setNext (hapart c hc) (next_lt ..)]
  have hsize : ∀ c ∈ F ∪ L, size h'.mem c = size h.mem c := by
    intro c hc
    rw [hmem, size_setNext (hapart c hc)]
  have hdata : ∀ c ∈ F ∪ L, data h'.mem c = data h.mem c := by
    intro c hc
    rw [hmem, data_setNext (hapart c hc)]
  have hblocks : (F.erase (next h.mem p)).erase h.base ∪ insert (next h.mem p) L =
      F.erase h.base ∪ L := by
    ext c
    simp only [Finset.mem_union, Finset.mem_erase, Finset.mem_insert]
    grind
  have hsub : ∀ c ∈ F.erase h.base ∪ L, c ∈ F ∪ L := fun c hc =>
    Finset.union_subset_union_left (Finset.erase_subset ..) hc
  refine ⟨?_, hsize⟩
  constructor
  · refine hS.circle.erase hp rfl hqp ?_ fun c hc hcp _ => ?_
    · rw [hnext p (Finset.mem_union_left L hp), if_pos rfl]
    · rw [hnext c (Finset.mem_union_left L hc), if_neg hcp]
  · rw [hbase]
    exact Finset.mem_erase.mpr ⟨hq.symm, hS.base_mem⟩
  · rw [hlist]
    exact Finset.mem_erase.mpr ⟨hqp.symm, hp⟩
  · rw [hbase, hsize _ (Finset.mem_union_left L hS.base_mem)]
    exact hS.base_size
  · rw [hbase, hdata _ (Finset.mem_union_left L hS.base_mem)]
    exact hS.base_data
  · intro a ha hm
    obtain ⟨haq, haF⟩ := Finset.mem_erase.mp hm
    exact hS.notMem a ((Finset.mem_insert.mp ha).resolve_left haq) haF
  · rw [hbase, hos, hblocks]
    refine hS.tiling.congr (fun c hc => ?_) fun _ => Iff.rfl
    rw [hsize c (hsub c hc)]
  · rw [hbase, hblocks]
    intro a ha
    rw [hdata a (hsub a ha)]
    exact hS.data_eq a ha
  · rw [hbase]
    intro a ha b hb
    obtain ⟨hab, ha⟩ := Finset.mem_erase.mp ha
    obtain ⟨hbb, hb⟩ := Finset.mem_erase.mp hb
    have haF := Finset.mem_of_mem_erase ha
    rw [hsize a (Finset.mem_union_left L haF)]
    exact hS.apart_free a (Finset.mem_erase.mpr ⟨hab, haF⟩) b
      (Finset.mem_erase.mpr ⟨hbb, Finset.mem_of_mem_erase hb⟩)

/-- The end of a larger block is taken. -/
theorem take_tail {q : ℕ} (hq : q ∈ F) (hqb : q ≠ h.base) (hpos : 0 < unites)
    (hlt : unites < size h.mem q)
    (hmem : h'.mem = makeHeader (setSize h.mem q (size h.mem q - unites))
      (q + 24 * (size h.mem q - unites)) unites) (hos : h'.os = h.os) (hbase : h'.base = h.base)
    (hlist : h'.free_list = q) :
    q + 24 * (size h.mem q - unites) ∉ F ∪ L ∧
      Sound owned got h' F (insert (q + 24 * (size h.mem q - unites)) L) ∧
      size h'.mem (q + 24 * (size h.mem q - unites)) = unites ∧
      ∀ c ∈ L, size h'.mem c = size h.mem c := by
  have hqB : q ∈ F.erase h.base ∪ L := Finset.mem_union_left L (Finset.mem_erase.mpr ⟨hqb, hq⟩)
  have hqFL := Finset.mem_union_left L hq
  have hend := hS.end_lt hl hqB
  have hs := size_lt h.mem q
  obtain ⟨k, hk⟩ : ∃ k, k = size h.mem q - unites := ⟨_, rfl⟩
  rw [← hk] at hmem ⊢
  have hsum : size h.mem q = k + unites := by omega
  have hk0 : 0 < k := by omega
  have hk32 : k < 2 ^ 32 := by omega
  -- the new block does not overlap another one
  have hnew : ∀ c ∈ F ∪ L, Apart (q + 24 * k) c := by
    intro c hc
    by_cases hcq : c = q
    · exact .inr (by omega)
    · have hcpos := hS.size_pos' hc
      rcases hS.apart_size hl hqFL hc (Ne.symm hcq) with h | h
      · exact .inl (by omega)
      · exact .inr (by omega)
  have hout : q + 24 * k ∉ F ∪ L := fun hm => (hnew _ hm).elim (fun h => by omega) fun h => by omega
  have hapart : ∀ c, c ∈ F ∪ L ∨ c = q + 24 * k → c = q ∨ Apart q c := by
    rintro c (hc | rfl)
    · by_cases hcq : c = q
      · exact .inl hcq
      · exact .inr (hS.apart hl hqFL hc (Ne.symm hcq))
    · exact .inr (.inl (by omega))
  have hu32 : unites < 2 ^ 32 := by omega
  have hfields : ∀ c ∈ F ∪ L, next h'.mem c = next h.mem c ∧
      size h'.mem c = (if c = q then k else size h.mem c) ∧ data h'.mem c = data h.mem c := by
    intro c hc
    have hne : c ≠ q + 24 * k := fun he => hout (he ▸ hc)
    obtain ⟨h₁, h₂, h₃⟩ := makeHeader_fields (m := setSize h.mem q k) (.inr (hnew c hc)) hu32
    rw [hmem, h₁, h₂, h₃, if_neg hne, if_neg hne, next_setSize (hapart c (.inl hc)),
      size_setSize (hapart c (.inl hc)) hk32, data_setSize (hapart c (.inl hc))]
    exact ⟨rfl, rfl, rfl⟩
  obtain ⟨-, hsize, hdata⟩ :=
    makeHeader_fields (m := setSize h.mem q k) (a := q + 24 * k) (.inl rfl) hu32
  rw [if_pos rfl, ← hmem] at hsize hdata
  have hblocks : F.erase h.base ∪ insert (q + 24 * k) L = insert (q + 24 * k) (F.erase h.base ∪ L) :=
    Finset.union_insert ..
  have hsub : ∀ c ∈ F.erase h.base ∪ L, c ∈ F ∪ L := fun c hc =>
    Finset.union_subset_union_left (Finset.erase_subset ..) hc
  have htile : Tiling (insert (q + 24 * k) (F.erase h.base ∪ L)) (fun a => 24 * size h'.mem a)
      (owned h.os) (got h.os) := by
    refine (hS.tiling.split (l := 24 * unites) hqB ?_ ?_ ?_ ?_ ?_ fun c hc hcq => ?_).2
    · rw [hsum, Nat.mul_add]
    · omega
    · omega
    · rw [(hfields q hqFL).2.1, if_pos rfl]
    · rw [hsize]
    · rw [(hfields c (hsub c hc)).2.1, if_neg hcq]
  refine ⟨hout, ?_, hsize, fun c hc => ?_⟩
  · constructor
    · exact hS.circle.congr fun c hc => (hfields c (Finset.mem_union_left L hc)).1
    · rw [hbase]
      exact hS.base_mem
    · rw [hlist]
      exact hq
    · rw [hbase, (hfields _ (Finset.mem_union_left L hS.base_mem)).2.1, if_neg hqb.symm]
      exact hS.base_size
    · rw [hbase, (hfields _ (Finset.mem_union_left L hS.base_mem)).2.2]
      exact hS.base_data
    · intro a ha hm
      rcases Finset.mem_insert.mp ha with rfl | ha
      · exact hout (Finset.mem_union_left L hm)
      · exact hS.notMem a ha hm
    · rw [hbase, hos, hblocks]
      exact htile
    · rw [hbase, hblocks]
      intro a ha
      rcases Finset.mem_insert.mp ha with rfl | ha
      · rw [hdata, after_of_lt (by omega)]
      · rw [(hfields a (hsub a ha)).2.2]
        exact hS.data_eq a ha
    · rw [hbase]
      intro a ha b hb
      have haF := Finset.mem_union_left L (Finset.mem_of_mem_erase ha)
      rw [(hfields a haF).2.1]
      split
      · next haq =>
        intro he
        exact hout (Finset.mem_union_left L (haq ▸ he ▸ Finset.mem_of_mem_erase hb))
      · exact hS.apart_free a ha b hb
  · have hcq : c ≠ q := fun he => hS.notMem c hc (he ▸ hq)
    rw [(hfields c (Finset.mem_union_right F hc)).2.1, if_neg hcq]

end Sound

end OrangeOs.Lib.MemManager
