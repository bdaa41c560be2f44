import Mathlib.Logic.Relation
import OrangeOs.Lib.HeapSound

/-! # Runs of the heap

A program calls `malloc` and `free` and writes to its blocks. In all states that it reaches the
memory that `sbrk` supplied is cut into blocks and `base` is on the free list, unless a request
comes to one of the ends of the range.
-/

namespace OrangeOs.Lib.MemManager

open Memory Header

variable {σ : Type} {sbrk : ℕ → σ → Memory → ℕ × σ × Memory} {owned : σ → ℕ → Prop} {got : σ → ℕ}
  {h h' : MemManager σ} {F L : Finset ℕ} {a b base block c n p unites bytes : ℕ}

/-- What is assumed of `sbrk`: it supplies as many new bytes as it is asked for, or none. It leaves
the memory that it has supplied before and `base` as they are. -/
structure Supplies (sbrk : ℕ → σ → Memory → ℕ × σ × Memory) (owned : σ → ℕ → Prop) (got : σ → ℕ)
    (base : ℕ) : Prop extends Layout owned got base where
  fail : ∀ k os m, (sbrk k os m).1 = 0 →
    (∀ y, owned (sbrk k os m).2.1 y ↔ owned os y) ∧ got (sbrk k os m).2.1 = got os
  fresh : ∀ k os m, (sbrk k os m).1 ≠ 0 →
    (∀ y, Range (sbrk k os m).1 k y → ¬ owned os y) ∧
    (∀ y, owned (sbrk k os m).2.1 y ↔ owned os y ∨ Range (sbrk k os m).1 k y) ∧
    got (sbrk k os m).2.1 = got os + k
  same : ∀ k os m, Same m (sbrk k os m).2.2 fun y => owned os y ∨ Range base 24 y

namespace Sound

/-- What the invariant depends on. -/
theorem congr (hS : Sound owned got h F L) (hbase : h'.base = h.base)
    (hlist : h'.free_list = h.free_list)
    (howned : ∀ y, owned h'.os y ↔ owned h.os y) (hgot : got h'.os = got h.os)
    (hfields : ∀ a ∈ F ∪ L, next h'.mem a = next h.mem a ∧ size h'.mem a = size h.mem a ∧
      data h'.mem a = data h.mem a) : Sound owned got h' F L := by
  have hF : ∀ a ∈ F, _ := fun a ha => hfields a (Finset.mem_union_left L ha)
  have hB : ∀ a ∈ F.erase h.base ∪ L, _ := fun a ha =>
    hfields a (Finset.union_subset_union_left (Finset.erase_subset ..) ha)
  constructor
  · exact hS.circle.congr fun a ha => (hF a ha).1
  · rw [hbase]
    exact hS.base_mem
  · rw [hlist]
    exact hS.list_mem
  · rw [hbase, (hF _ hS.base_mem).2.1]
    exact hS.base_size
  · rw [hbase, (hF _ hS.base_mem).2.2]
    exact hS.base_data
  · exact hS.notMem
  · rw [hbase, hgot]
    exact hS.tiling.congr (fun a ha => congrArg (24 * ·) (hB a ha).2.1) howned
  · rw [hbase]
    intro a ha
    rw [(hB a ha).2.2]
    exact hS.data_eq a ha
  · rw [hbase]
    intro a ha
    rw [(hF a (Finset.mem_of_mem_erase ha)).2.1]
    exact hS.apart_free a ha

/-- The header of a block lies in the memory that `sbrk` supplied or is `base`. -/
theorem header_range (hS : Sound owned got h F L) (ha : a ∈ F ∪ L) {y : ℕ} (hy : Range a 24 y) :
    owned h.os y ∨ Range h.base 24 y := by
  by_cases hab : a = h.base
  · exact .inr (hab ▸ hy)
  · have hpos := hS.size_pos (mem_blocks ha hab)
    obtain ⟨hlow, hhigh⟩ := hy
    exact .inl (hS.owned_of_lt (mem_blocks ha hab) hlow (by omega))

theorem fields_same (hS : Sound owned got h F L) {m : Memory}
    (hsame : Same h.mem m fun y => owned h.os y ∨ Range h.base 24 y) :
    ∀ a ∈ F ∪ L, next m a = next h.mem a ∧ size m a = size h.mem a ∧ data m a = data h.mem a :=
  fun _ ha => fields_congr (hsame.mono fun _ hy => hS.header_range ha hy)

/-- A call of `sbrk` that fails. -/
theorem refused (hk : Supplies sbrk owned got h.base) (hS : Sound owned got h F L)
    (h0 : (sbrkCall sbrk h unites).1 = 0) :
    Sound owned got
      { h with mem := (sbrkCall sbrk h unites).2.2, os := (sbrkCall sbrk h unites).2.1 } F L :=
  have hfail := hk.fail _ _ _ h0
  hS.congr rfl rfl hfail.1 hfail.2 (hS.fields_same (hk.same _ _ _))

/-- `FreeBlock` of a block in use. -/
theorem freed (hl : Layout owned got h.base) (hS : Sound owned got h F L) {block : ℕ} (hb : block ∈ L) :
    ∃ h' : MemManager σ, ∃ G : Finset ℕ,
      (∀ fuel, F.card ≤ fuel → freeBlock h fuel block = some h') ∧ h'.base = h.base ∧ h'.os = h.os ∧
      Sound owned got h' G (L.erase block) ∧ G.card ≤ F.card + 1 ∧
      (∃ c ∈ G, size h.mem block ≤ size h'.mem c) ∧ ∀ c ∈ L.erase block,
      size h'.mem c = size h.mem c := by
  have hL := hS.listed hl hb
  obtain ⟨g, hg, hplace, hfree⟩ := freeBlock_spec hL hS.list_mem
  generalize hh : ({ h with mem := Listed.link h.mem g block, free_list := g } : MemManager σ) =
    h' at hfree
  have hmem : h'.mem = Listed.link h.mem g block := by rw [← hh]
  have hos : h'.os = h.os := by rw [← hh]
  have hbase : h'.base = h.base := by rw [← hh]
  have hlist : h'.free_list = g := by rw [← hh]
  refine ⟨h', _, hfree, hbase, hos, hS.link hl hb hg hplace hmem hos hbase hlist,
    Listed.card_linked_le, ?_,
    fun c hc => ?_⟩
  · rw [hmem]
    exact hL.exists_fits hg
  · obtain ⟨hcb, hc⟩ := Finset.mem_erase.mp hc
    have hcg : c ≠ g := fun he => hS.notMem c hc (he ▸ hg)
    rw [hmem, (hS.link_fields hl hb hg (Finset.mem_union_right F hc)).1, if_neg fun h => hcg h.1,
      if_neg fun h => hcb h.1]

/-- A call of `sbrk` that gives a new block. -/
theorem supply (hk : Supplies sbrk owned got h.base) (hS : Sound owned got h F L)
    (h0 : (sbrkCall sbrk h unites).1 ≠ 0) (hsize : growth unites * 24 < 2 ^ 32) :
    (sbrkCall sbrk h unites).1 ∉ F ∪ L ∧
      size (supplied sbrk h unites).mem (sbrkCall sbrk h unites).1 = growth unites ∧
      (∀ c ∈ F ∪ L, size (supplied sbrk h unites).mem c = size h.mem c) ∧
      Sound owned got (supplied sbrk h unites) F (insert (sbrkCall sbrk h unites).1 L) := by
  have hpos : 0 < growth unites := by
    unfold growth
    split <;> omega
  have hk' : growth unites * 24 % 2 ^ 32 = 24 * growth unites := by
    rw [Nat.mod_eq_of_lt hsize, Nat.mul_comm]
  have hcall : sbrkCall sbrk h unites = sbrk (24 * growth unites) h.os h.mem := by rw [sbrkCall, hk']
  have hmem : (supplied sbrk h unites).mem = makeHeader (sbrkCall sbrk h unites).2.2
      (sbrkCall sbrk h unites).1 (growth unites) := rfl
  have hos : (supplied sbrk h unites).os = (sbrkCall sbrk h unites).2.1 := rfl
  have hbase : (supplied sbrk h unites).base = h.base := rfl
  have hlist : (supplied sbrk h unites).free_list = h.free_list := rfl
  generalize supplied sbrk h unites = h' at hmem hos hbase hlist ⊢
  rw [hcall] at h0 hmem hos ⊢
  obtain ⟨hnew, howned, hgot⟩ := hk.fresh (24 * growth unites) h.os h.mem h0
  have hsame := hS.fields_same (hk.same (24 * growth unites) h.os h.mem)
  generalize sbrk (24 * growth unites) h.os h.mem = r at h0 hmem hos hnew howned hgot hsame ⊢
  obtain ⟨addr, os', m'⟩ := r
  simp only at h0 hmem hos hnew howned hgot hsame ⊢
  have hu32 : growth unites < 2 ^ 32 := by omega
  -- the new memory does not touch the blocks
  have hapart : ∀ c ∈ F ∪ L, Apart addr c := by
    intro c hc
    by_contra hover
    obtain ⟨y, hy, hy'⟩ : ∃ y, Range addr (24 * growth unites) y ∧ Range c 24 y := by
      refine ⟨max addr c, ⟨le_max_left .., ?_⟩, le_max_right .., ?_⟩ <;>
        simp only [Apart, not_or, not_le] at hover <;> omega
    rcases hS.header_range hc hy' with how | hb
    · exact hnew y hy how
    · have hfar := hk.far os' y ((howned y).mpr (.inr hy))
      obtain ⟨hlow, hhigh⟩ := hb
      omega
  have hout : addr ∉ F ∪ L := fun hm => (hapart _ hm).elim (fun h => by omega) fun h => by omega
  have hfields : ∀ c ∈ F ∪ L, next h'.mem c = next h.mem c ∧ size h'.mem c = size h.mem c ∧
      data h'.mem c = data h.mem c := by
    intro c hc
    have hne : c ≠ addr := fun he => hout (he ▸ hc)
    obtain ⟨h₁, h₂, h₃⟩ := makeHeader_fields (m := m') (.inr (hapart c hc)) hu32
    obtain ⟨h₄, h₅, h₆⟩ := hsame c hc
    rw [hmem, h₁, h₂, h₃, if_neg hne, if_neg hne, h₄, h₅, h₆]
    exact ⟨rfl, rfl, rfl⟩
  obtain ⟨-, hnsize, hndata⟩ := makeHeader_fields (m := m') (a := addr) (.inl rfl) hu32
  rw [if_pos rfl, ← hmem] at hnsize hndata
  have hsub : ∀ c ∈ F.erase h.base ∪ L, c ∈ F ∪ L := fun c hc =>
    Finset.union_subset_union_left (Finset.erase_subset ..) hc
  have hblocks : F.erase h.base ∪ insert addr L = insert addr (F.erase h.base ∪ L) :=
    Finset.union_insert ..
  refine ⟨hout, hnsize, fun c hc => (hfields c hc).2.1, ?_⟩
  constructor
  · exact hS.circle.congr fun a ha => (hfields a (Finset.mem_union_left L ha)).1
  · rw [hbase]
    exact hS.base_mem
  · rw [hlist]
    exact hS.list_mem
  · rw [hbase, (hfields _ (Finset.mem_union_left L hS.base_mem)).2.1]
    exact hS.base_size
  · rw [hbase, (hfields _ (Finset.mem_union_left L hS.base_mem)).2.2]
    exact hS.base_data
  · intro a ha hm
    rcases Finset.mem_insert.mp ha with rfl | ha
    · exact hout (Finset.mem_union_left L hm)
    · exact hS.notMem a ha hm
  · rw [hbase, hos, hblocks, hgot]
    refine hS.tiling.add (a := addr) (by omega)
      (fun y hy hy' => hnew y ⟨hy, hy'⟩) ?_ (fun c hc => ?_) howned
    · rw [hnsize]
    · rw [(hfields c (hsub c hc)).2.1]
  · rw [hbase, hblocks]
    intro a ha
    rcases Finset.mem_insert.mp ha with rfl | ha
    · have hlt := hk.lt os' (a + 24 * growth unites - 1)
        ((howned _).mpr (.inr ⟨by omega, by omega⟩))
      rw [hndata, after_of_lt (by omega)]
    · rw [(hfields a (hsub a ha)).2.2]
      exact hS.data_eq a ha
  · rw [hbase]
    intro a ha
    rw [(hfields a (Finset.mem_union_left L (Finset.mem_of_mem_erase ha))).2.1]
    exact hS.apart_free a ha

/-- A block is taken. -/
theorem takes (hl : Layout owned got h.base) (hS : Sound owned got h F L) (hp : p ∈ F)
    (hq : next h.mem p ≠ h.base) (hpos : 0 < unites) (hle : unites ≤ size h.mem (next h.mem p)) :
    (takeBlock h unites p (next h.mem p)).2.base = h.base ∧
      (takeBlock h unites p (next h.mem p)).2.os = h.os ∧
      ∃ block ∉ L, ∃ G, (takeBlock h unites p (next h.mem p)).1 = block + 24 ∧
        Sound owned got (takeBlock h unites p (next h.mem p)).2 G (insert block L) ∧
        size (takeBlock h unites p (next h.mem p)).2.mem block = unites ∧
        ∀ c ∈ L, size (takeBlock h unites p (next h.mem p)).2.mem c = size h.mem c := by
  have hqF := (hS.circle p hp).mem
  have hqFL := Finset.mem_union_left L hqF
  by_cases heq : size h.mem (next h.mem p) = unites
  · have htake : takeBlock h unites p (next h.mem p) =
        (data (setNext h.mem p (next h.mem (next h.mem p))) (next h.mem p),
          { h with mem := setNext h.mem p (next h.mem (next h.mem p)), free_list := p }) := if_pos heq
    rw [htake]
    generalize hh : ({ h with mem := setNext h.mem p (next h.mem (next h.mem p)), free_list := p } :
      MemManager σ) = h'
    have hmem : h'.mem = setNext h.mem p (next h.mem (next h.mem p)) := by rw [← hh]
    have hbase : h'.base = h.base := by rw [← hh]
    have hos : h'.os = h.os := by rw [← hh]
    obtain ⟨hS', hsize⟩ := hS.take_whole hl hp hq hmem hos hbase (by rw [← hh])
    refine ⟨hbase, hos, next h.mem p, fun hm => hS.notMem _ hm hqF, _, ?_, hS', ?_,
      fun c hc => hsize c (Finset.mem_union_right F hc)⟩
    · rw [← hmem]
      exact hS'.data_eq _ (Finset.mem_union_right _ (Finset.mem_insert_self ..))
    · exact (hsize _ hqFL).trans heq
  · have hlt : unites < size h.mem (next h.mem p) := lt_of_le_of_ne hle (Ne.symm heq)
    have hend := hS.end_lt hl (mem_blocks hqFL hq)
    have h32 := size_lt h.mem (next h.mem p)
    generalize next h.mem p = q at hq hle heq hqF hqFL hlt hend h32 ⊢
    have hrest : after q (size (setSize h.mem q (size h.mem q - unites)) q) =
        q + 24 * (size h.mem q - unites) := by
      rw [size_setSize (.inl rfl) (by omega), if_pos rfl, after_of_lt (by omega)]
    have htake : takeBlock h unites p q = _ := if_neg heq
    dsimp only at htake
    rw [hrest] at htake
    rw [htake]
    generalize hm : makeHeader (setSize h.mem q (size h.mem q - unites))
      (q + 24 * (size h.mem q - unites)) unites = m'
    generalize hh : ({ h with mem := m', free_list := q } : MemManager σ) = h'
    have hmem : h'.mem = m' := by rw [← hh]
    have hbase : h'.base = h.base := by rw [← hh]
    have hos : h'.os = h.os := by rw [← hh]
    obtain ⟨hout, hS', hsize, hkeep⟩ := hS.take_tail hl hqF hq hpos hlt (hmem.trans hm.symm) hos hbase
      (by rw [← hh])
    refine ⟨hbase, hos, _, fun hm => hout (Finset.mem_union_right F hm), F, ?_, hS', hsize, hkeep⟩
    rw [← hmem]
    exact hS'.data_eq _ (Finset.mem_union_right _ (Finset.mem_insert_self ..))

/-- What a request leaves: the heap as it was, or one more block in use. -/
def Outcome (owned : σ → ℕ → Prop) (got : σ → ℕ) (h : MemManager σ) (L : Finset ℕ) (unites : ℕ)
    (r : ℕ × MemManager σ) : Prop :=
  r.2.base = h.base ∧ (∀ c ∈ L, size r.2.mem c = size h.mem c) ∧
    ((r.1 = 0 ∧ ∃ G, Sound owned got r.2 G L) ∨
      ∃ block ∉ L, ∃ G, r.1 = block + 24 ∧ Sound owned got r.2 G (insert block L) ∧
        size r.2.mem block = unites)

theorem takes_outcome {G : Finset ℕ} {r : ℕ × MemManager σ} (hl : Layout owned got h.base)
    (hS : Sound owned got h G L) (hu : 2 ≤ unites) (htake : Takes G h unites r) :
    Outcome owned got h L unites r := by
  obtain ⟨p, hp, -, hle, rfl⟩ := htake
  have hq : next h.mem p ≠ h.base := by
    intro he
    rw [he, hS.base_size] at hle
    omega
  obtain ⟨hbase, -, block, hb, G', haddr, hS', hsize, hkeep⟩ := hS.takes hl hp hq (by omega) hle
  exact ⟨hbase, hkeep, .inr ⟨block, hb, G', haddr, hS', hsize⟩⟩

/-- `GrowHeader` when `sbrk` gives a block. -/
theorem grown (hk : Supplies sbrk owned got h.base) (hS : Sound owned got h F L)
    (h0 : (sbrkCall sbrk h unites).1 ≠ 0) (hsize : growth unites * 24 < 2 ^ 32) :
    ∃ h₁ : MemManager σ, ∃ G : Finset ℕ,
      (∀ fuel, F.card ≤ fuel → growHeader sbrk h fuel unites = some (true, h₁)) ∧ h₁.base = h.base ∧
      Sound owned got h₁ G L ∧ G.card ≤ F.card + 1 ∧ (∃ c ∈ G, unites ≤ size h₁.mem c) ∧
      ∀ c ∈ L, size h₁.mem c = size h.mem c := by
  obtain ⟨hout, hnsize, hkeep, hS₁⟩ := hS.supply hk h0 hsize
  have hl₁ : Layout owned got (supplied sbrk h unites).base := hk.toLayout
  have hbase₁ : (supplied sbrk h unites).base = h.base := rfl
  have hgrow : ∀ fuel, growHeader sbrk h fuel unites =
      (freeBlock (supplied sbrk h unites) fuel (sbrkCall sbrk h unites).1).map fun h => (true, h) :=
    fun fuel => (growHeader_eq fuel).trans (if_neg h0)
  generalize supplied sbrk h unites = h₁ at hnsize hkeep hS₁ hl₁ hbase₁ hgrow
  generalize (sbrkCall sbrk h unites).1 = addr at hout hnsize hS₁ hgrow
  obtain ⟨h₂, G, hfree, hbase₂, -, hS₂, hcard, ⟨c, hc, hfit⟩, hkeep₂⟩ :=
    hS₁.freed hl₁ (Finset.mem_insert_self addr L)
  rw [Finset.erase_insert fun hm => hout (Finset.mem_union_right F hm)] at hS₂ hkeep₂
  rw [hnsize] at hfit
  refine ⟨h₂, G, fun fuel hfuel => ?_, hbase₂.trans hbase₁, hS₂, hcard,
    ⟨c, hc, (le_growth unites).trans hfit⟩, fun c hc => ?_⟩
  · rw [hgrow, hfree fuel hfuel, Option.map_some]
  · rw [hkeep₂ c hc, hkeep c (Finset.mem_union_right F hc)]

/-- `FindFirstFitBlock` of two or more units. -/
theorem find (hk : Supplies sbrk owned got h.base) (hS : Sound owned got h F L) (hu : 2 ≤ unites)
    (hroom : (∃ c ∈ F, unites ≤ size h.mem c) ∨ (sbrkCall sbrk h unites).1 = 0 ∨
      growth unites * 24 < 2 ^ 32) :
    ∃ r log, (∀ fuel, 2 * F.card + 3 ≤ fuel →
      findFirstFitBlock sbrk h fuel unites = some (r.1, r.2, log)) ∧ Outcome owned got h L unites r := by
  have hl := hk.toLayout
  by_cases hfit : ∃ c ∈ F, unites ≤ size h.mem c
  · obtain ⟨r, log, htake, -, hfind⟩ := find_fits sbrk hS.circle hS.list_mem hfit
    exact ⟨r, log, hfind, hS.takes_outcome hl hu htake⟩
  · have hsmall : ∀ c ∈ F, size h.mem c < unites := fun c hc =>
      Nat.lt_of_not_le fun hle => hfit ⟨c, hc, hle⟩
    by_cases h0 : (sbrkCall sbrk h unites).1 = 0
    · obtain ⟨lap, -, hfind⟩ := find_refused sbrk hS.circle hS.list_mem hsmall
        fun fuel _ => (growHeader_eq fuel).trans (if_pos h0)
      have hS' := hS.refused hk h0
      have hkeep := hS.fields_same (hk.same (growth unites * 24 % 2 ^ 32) h.os h.mem)
      refine ⟨(0, { h with mem := (sbrkCall sbrk h unites).2.2, os := (sbrkCall sbrk h unites).2.1 }), _,
        hfind, rfl, fun c hc => ?_, .inl ⟨rfl, F, hS'⟩⟩
      exact (hkeep c (Finset.mem_union_right F hc)).2.1
    · obtain ⟨h₁, G, hgrow, hbase₁, hS₁, hcard, hfit₁, hkeep₁⟩ :=
        hS.grown hk h0 ((hroom.resolve_left hfit).resolve_left h0)
      obtain ⟨r, lap, lap', htake, -, -, hfind⟩ := find_grown sbrk hS.circle hS.list_mem hsmall hgrow
        hS₁.circle hS₁.list_mem hcard hfit₁
      obtain ⟨hbase, hkeep, hres⟩ := hS₁.takes_outcome (hbase₁ ▸ hl) hu htake
      exact ⟨r, _, hfind, hbase.trans hbase₁, fun c hc => (hkeep c hc).trans (hkeep₁ c hc), hres⟩

/-! ## Requests -/

/-- A request of one unit takes the first block. It must not be `base`, unless that is alone on the
list. -/
theorem find_one (hk : Supplies sbrk owned got h.base) (hS : Sound owned got h F L)
    (hlist : next h.mem h.free_list = h.base → h.free_list = h.base) :
    ∃ r log, (∀ fuel, 2 * F.card + 3 ≤ fuel →
      findFirstFitBlock sbrk h fuel 1 = some (r.1, r.2, log)) ∧ Outcome owned got h L 1 r := by
  have hl := hk.toLayout
  have hq := (hS.circle _ hS.list_mem).mem
  have hfit : 1 ≤ size h.mem (next h.mem h.free_list) := hS.size_pos' (Finset.mem_union_left L hq)
  have hends : Ends sbrk 1 F.card h h.free_list (next h.mem h.free_list) 0 _ :=
    ends_fits hfit F.card h.free_list
  refine ⟨takeBlock h 1 h.free_list (next h.mem h.free_list), _, hends.find (by omega), ?_⟩
  by_cases hqb : next h.mem h.free_list = h.base
  · have hfl := hlist hqb
    rw [hfl] at hqb
    have htake : takeBlock h 1 h.base h.base =
      (data (setNext h.mem h.base (next h.mem h.base)) h.base,
        { h with mem := setNext h.mem h.base (next h.mem h.base), free_list := h.base }) :=
      if_pos hS.base_size
    have hapart : ∀ c ∈ F ∪ L, c = h.base ∨ Apart h.base c := by
      intro c hc
      by_cases hcb : c = h.base
      · exact .inl hcb
      · exact .inr (hS.apart hl (Finset.mem_union_left L hS.base_mem) hc (Ne.symm hcb))
    -- the list stays as it is
    have hfields : ∀ c ∈ F ∪ L, next (setNext h.mem h.base (next h.mem h.base)) c = next h.mem c ∧
        size (setNext h.mem h.base (next h.mem h.base)) c = size h.mem c ∧
        data (setNext h.mem h.base (next h.mem h.base)) c = data h.mem c := by
      intro c hc
      rw [next_setNext (hapart c hc) (next_lt ..), size_setNext (hapart c hc),
        data_setNext (hapart c hc)]
      refine ⟨?_, rfl, rfl⟩
      split
      · next hcb => rw [hcb]
      · rfl
    rw [hfl, hqb, htake]
    refine ⟨rfl, fun c hc => (hfields c (Finset.mem_union_right F hc)).2.1, .inl ⟨?_, F, ?_⟩⟩
    · exact (hfields _ (Finset.mem_union_left L hS.base_mem)).2.2.trans hS.base_data
    · exact hS.congr rfl hfl.symm (fun _ => Iff.rfl) rfl hfields
  · obtain ⟨hbase, -, block, hb, G, haddr, hS', hsize, hkeep⟩ :=
      hS.takes hl hS.list_mem hqb Nat.one_pos hfit
    exact ⟨hbase, hkeep, .inr ⟨block, hb, G, haddr, hS', hsize⟩⟩

end Sound

theorem unitsOf_eq (hb : bytes < 2 ^ 32) : unitsOf bytes = (bytes + 23) / 24 + 1 :=
  Nat.mod_eq_of_lt (by omega)

theorem le_unitsOf (hb : bytes < 2 ^ 32) : bytes + 24 ≤ 24 * unitsOf bytes := by
  rw [unitsOf_eq hb]
  omega

/-- A block of the free list. -/
def OnList (h : MemManager σ) (c : ℕ) : Prop := ∃ k, (next h.mem)^[k] h.free_list = c

theorem Sound.onList_iff (hS : Sound owned got h F L) : OnList h c ↔ c ∈ F := by
  constructor
  · rintro ⟨k, rfl⟩
    induction k with
    | zero => exact hS.list_mem
    | succ k ih =>
      rw [Function.iterate_succ_apply']
      exact (hS.circle _ ih).mem
  · intro hc
    refine cyclic_induction (P := fun a => ∃ k, (next h.mem)^[k] a = c) hS.circle hc
      ⟨0, rfl⟩ ?_ hS.list_mem
    rintro a - - ⟨k, hk⟩
    exact ⟨k + 1, hk⟩

/-- A request that does not come to one of the ends of the range. One of 0 bytes must not take
`base` from the list; one whose size in units is 4 GiB or more must find a block, or `sbrk` must
fail. -/
def InRange (sbrk : ℕ → σ → Memory → ℕ × σ × Memory) (h : MemManager σ) (bytes : ℕ) : Prop :=
  (bytes = 0 → next h.mem h.free_list = h.base → h.free_list = h.base) ∧
    (2 ^ 32 - 39 ≤ bytes →
      (∃ c, OnList h c ∧ unitsOf bytes ≤ size h.mem c) ∨ (sbrkCall sbrk h (unitsOf bytes)).1 = 0)

/-- `malloc` in range. -/
theorem Sound.malloc (hk : Supplies sbrk owned got h.base) (hS : Sound owned got h F L)
    (hb : bytes < 2 ^ 32) (hok : InRange sbrk h bytes) :
    ∃ r log, (∀ fuel, 2 * F.card + 3 ≤ fuel → malloc sbrk h fuel bytes = some (r.1, r.2, log)) ∧
      Outcome owned got h L (unitsOf bytes) r := by
  have hunits := unitsOf_eq hb
  cases Nat.eq_zero_or_pos bytes with
  | inl h0 =>
    have hone : unitsOf bytes = 1 := by
      rw [hunits, h0]
    unfold MemManager.malloc
    rw [hone]
    exact hS.find_one hk (hok.1 h0)
  | inr hpos =>
    refine hS.find hk (by omega) ?_
    by_cases hbig : 2 ^ 32 - 39 ≤ bytes
    · refine (hok.2 hbig).imp ?_ .inl
      rintro ⟨c, hc, hle⟩
      exact ⟨c, hS.onList_iff.mp hc, hle⟩
    · refine .inr (.inr ?_)
      unfold growth
      split <;> omega

/-! ## Runs -/

/-- A program with its heap; `live` has the sizes of its requests by the pointers that it got for
them. -/
structure Program (σ : Type) where
  heap : MemManager σ
  live : ℕ → Option ℕ

/-- The program before its first request. -/
def start (base : ℕ) (os : σ) (m : Memory) : Program σ := ⟨construct base os m, fun _ => none⟩

/-- A step of a program. It calls `malloc` with a request for which `ok` holds, or `free` with a
pointer that it got, or it writes to what it got or to memory that is not the heap's. -/
inductive Step (sbrk : ℕ → σ → Memory → ℕ × σ × Memory) (owned : σ → ℕ → Prop)
    (ok : MemManager σ → ℕ → Prop) : Program σ → Program σ → Prop
  | malloc {s : Program σ} {h' : MemManager σ} {fuel bytes addr : ℕ} {log : List Event}
      (hb : bytes < 2 ^ 32) (hok : ok s.heap bytes)
      (hr : malloc sbrk s.heap fuel bytes = some (addr, h', log)) :
      Step sbrk owned ok s ⟨h', if addr = 0 then s.live else Function.update s.live addr (some bytes)⟩
  | free {s : Program σ} {h' : MemManager σ} {fuel addr n : ℕ} (hlive : s.live addr = some n)
      (hr : free s.heap fuel addr = some (some h')) :
      Step sbrk owned ok s ⟨h', Function.update s.live addr none⟩
  | write {s : Program σ} {m : Memory}
      (hm : ∀ y, m y ≠ s.heap.mem y → (∃ a n, s.live a = some n ∧ Range a n y) ∨
        ¬ owned s.heap.os y ∧ ¬ Range s.heap.base 24 y) :
      Step sbrk owned ok s ⟨{ s.heap with mem := m }, s.live⟩

/-- The blocks in use are those of the pointers that the program has. -/
structure Good (owned : σ → ℕ → Prop) (got : σ → ℕ) (base : ℕ) (s : Program σ)
    (F L : Finset ℕ) : Prop where
  base_eq : s.heap.base = base
  sound : Sound owned got s.heap F L
  live : ∀ a n, s.live a = some n → ∃ b ∈ L, a = b + 24 ∧ n + 24 ≤ 24 * size s.heap.mem b
  used : ∀ b ∈ L, ∃ n, s.live (b + 24) = some n

theorem headerOf_add (hb : b < 2 ^ 64) : headerOf (b + 24) = b := by
  have : b + 24 + 2 ^ 64 - 24 = b + 2 ^ 64 := by omega
  rw [headerOf, this, Nat.add_mod_right, Nat.mod_eq_of_lt hb]

/-- What holds of the pointer to a block in use. -/
theorem Sound.pointer (hl : Layout owned got h.base) (hS : Sound owned got h F L) (hb : b ∈ L)
    (hn : n + 24 ≤ 24 * size h.mem b) :
    (∀ y, Range (b + 24) n y → owned h.os y) ∧ headerOf (b + 24) = b ∧ b ≠ h.base ∧
      accepts h.mem (b + 24) := by
  have hblock := Finset.mem_union_right (F.erase h.base) hb
  have hpos := hS.size_pos hblock
  have hend := hS.end_lt hl hblock
  have hheader : headerOf (b + 24) = b := headerOf_add (by omega)
  refine ⟨fun y hy => hS.owned_of_lt hblock ?_ ?_, hheader, fun he => hS.base_notMem (he ▸ hb), ?_⟩
  · exact (Nat.le_add_right ..).trans hy.1
  · have := hy.2
    omega
  · rw [accepts, hheader]
    exact ⟨by omega, hS.data_eq b hblock, by omega⟩

theorem free_mono {fuel fuel' addr : ℕ} {r : Option (MemManager σ)} (hr : free h fuel addr = some r)
    (hle : fuel ≤ fuel') : free h fuel' addr = some r := by
  unfold free at hr ⊢
  split at hr
  · next ha =>
    obtain ⟨h₁, hfree, heq⟩ := Option.map_eq_some_iff.mp hr
    rw [if_pos ha, freeBlock_mono hfree hle, Option.map_some, heq]
  · next ha => rwa [if_neg ha]

theorem free_eq {fuel addr : ℕ} (ha : accepts h.mem addr) :
    free h fuel addr = (freeBlock h fuel (headerOf addr)).map some :=
  if_pos ha

namespace Good

variable {s s' : Program σ}

theorem start_good (hl : Layout owned got base) {os : σ} {m : Memory} (hos : ∀ y, ¬ owned os y)
    (hgot : got os = 0) (hm : ∀ y, Range base 24 y → m y = 0) :
    Good owned got base (start base os m) {base} ∅ := by
  have hlt : base < 2 ^ 64 := (Nat.le_add_right ..).trans_lt hl.base_lt
  have hempty : ({base} : Finset ℕ).erase base ∪ ∅ = ∅ := by simp
  have hnext : next (setSize (setNext m base base) base 1) base = base := by
    rw [next_setSize (.inl rfl), next_setNext (.inl rfl) hlt, if_pos rfl]
  have hdata : data m base = 0 := by
    have hzero : data m base = data (fun _ => 0) base :=
      load_congr fun k hk => hm _ ⟨by omega, by omega⟩
    rw [hzero]
    rfl
  refine ⟨rfl, ?_, fun a n ha => (by cases ha), fun b hb => absurd hb (Finset.notMem_empty b)⟩
  constructor
  · exact Circle.singleton hnext
  · exact Finset.mem_singleton_self _
  · exact Finset.mem_singleton_self _
  · exact (size_setSize (.inl rfl) (by decide)).trans (if_pos rfl)
  · exact (data_setSize (.inl rfl)).trans ((data_setNext (.inl rfl)).trans hdata)
  · exact fun a ha => absurd ha (Finset.notMem_empty a)
  · refine (?_ : Tiling (({base} : Finset ℕ).erase base ∪ ∅) _ (owned os) (got os))
    rw [hempty, hgot]
    exact (Tiling.empty fun _ => 0).congr (fun a ha => absurd ha (Finset.notMem_empty a)) fun y =>
      iff_of_false (hos y) not_false
  · intro a ha
    exact absurd (hempty ▸ ha) (Finset.notMem_empty a)
  · intro a ha
    exact absurd (hempty ▸ Finset.mem_union_left _ ha) (Finset.notMem_empty a)

/-- A request. -/
theorem malloc_good (hk : Supplies sbrk owned got base) (hG : Good owned got base s F L)
    (hb : bytes < 2 ^ 32) (hok : InRange sbrk s.heap bytes) {fuel addr : ℕ} {log : List Event}
    (hr : malloc sbrk s.heap fuel bytes = some (addr, h', log)) :
    ∃ G M, Good owned got base
      ⟨h', if addr = 0 then s.live else Function.update s.live addr (some bytes)⟩ G M := by
  have hk' : Supplies sbrk owned got s.heap.base := hG.base_eq ▸ hk
  obtain ⟨r, log', hspec, hbase, hkeep, hres⟩ := hG.sound.malloc hk' hb hok
  -- the call has one result
  have heq := hspec (max fuel (2 * F.card + 3)) (le_max_right ..)
  rw [malloc, findFirstFitBlock_mono hr (le_max_left ..)] at heq
  obtain ⟨rfl, rfl, rfl⟩ : addr = r.1 ∧ h' = r.2 ∧ log = log' := by simpa using heq
  have hbase' := hbase.trans hG.base_eq
  rcases hres with ⟨h0, G, hS⟩ | ⟨block, hblock, G, haddr, hS, hsize⟩
  · rw [if_pos h0]
    refine ⟨G, L, hbase', hS, fun a n ha => ?_, hG.used⟩
    obtain ⟨b, hb, hab, hn⟩ := hG.live a n ha
    refine ⟨b, hb, hab, ?_⟩
    rw [hkeep b hb]
    exact hn
  · rw [haddr, if_neg (Nat.succ_ne_zero _)]
    refine ⟨G, insert block L, hbase', hS, fun a n ha => ?_, fun b hb' => ?_⟩
    · dsimp only at ha
      by_cases hab : a = block + 24
      · rw [hab, Function.update_self] at ha
        refine ⟨block, Finset.mem_insert_self .., hab, ?_⟩
        rw [hsize, ← Option.some.inj ha]
        exact le_unitsOf hb
      · rw [Function.update_of_ne hab] at ha
        obtain ⟨b, hb, hab, hn⟩ := hG.live a n ha
        refine ⟨b, Finset.mem_insert_of_mem hb, hab, ?_⟩
        rw [hkeep b hb]
        exact hn
    · rcases Finset.mem_insert.mp hb' with rfl | hb'
      · exact ⟨bytes, Function.update_self ..⟩
      · obtain ⟨n, hn⟩ := hG.used b hb'
        have hne : b ≠ block := fun he => hblock (he ▸ hb')
        exact ⟨n, (Function.update_of_ne (fun he => hne (Nat.add_right_cancel he)) ..).trans hn⟩

/-- A call of `free` with a pointer of the program. -/
theorem free_spec (hl : Layout owned got base) (hG : Good owned got base s F L) {addr : ℕ}
    (hlive : s.live addr = some n) :
    ∃ h' G M, (∀ fuel, F.card ≤ fuel → free s.heap fuel addr = some (some h')) ∧
      Good owned got base ⟨h', Function.update s.live addr none⟩ G M := by
  have hl' : Layout owned got s.heap.base := hG.base_eq ▸ hl
  obtain ⟨b, hb, rfl, hn⟩ := hG.live addr n hlive
  obtain ⟨-, hheader, -, hacc⟩ := hG.sound.pointer hl' hb hn
  obtain ⟨h', G, hfree, hbase, -, hS, -, -, hkeep⟩ := hG.sound.freed hl' hb
  refine ⟨h', G, L.erase b, fun fuel hfuel => ?_, hbase.trans hG.base_eq, hS, fun a n ha => ?_,
    fun c hc => ?_⟩
  · rw [free_eq hacc, hheader, hfree fuel hfuel]
    rfl
  · dsimp only at ha
    by_cases hab : a = b + 24
    · rw [hab, Function.update_self] at ha
      cases ha
    · rw [Function.update_of_ne hab] at ha
      obtain ⟨c, hc, hac, hn⟩ := hG.live a n ha
      have hcb : c ≠ b := fun he => hab (he ▸ hac)
      refine ⟨c, Finset.mem_erase.mpr ⟨hcb, hc⟩, hac, ?_⟩
      rw [hkeep c (Finset.mem_erase.mpr ⟨hcb, hc⟩)]
      exact hn
  · obtain ⟨hcb, hc⟩ := Finset.mem_erase.mp hc
    obtain ⟨k, hk⟩ := hG.used c hc
    exact ⟨k, (Function.update_of_ne (fun he => hcb (Nat.add_right_cancel he)) ..).trans hk⟩

/-- A write of the program. -/
theorem write_good (hl : Layout owned got base) (hG : Good owned got base s F L) {m : Memory}
    (hm : ∀ y, m y ≠ s.heap.mem y → (∃ a n, s.live a = some n ∧ Range a n y) ∨
      ¬ owned s.heap.os y ∧ ¬ Range s.heap.base 24 y) :
    Good owned got base ⟨{ s.heap with mem := m }, s.live⟩ F L := by
  have hl' : Layout owned got s.heap.base := hG.base_eq ▸ hl
  have hS := hG.sound
  -- the headers stay as they are
  have hsame : ∀ a ∈ F ∪ L, Same s.heap.mem m (Range a 24) := by
    intro a ha y hy
    by_contra hne
    rcases hm y hne with ⟨c, n, hc, hyc⟩ | ⟨hown, hbase⟩
    · obtain ⟨b, hb, rfl, hn⟩ := hG.live c n hc
      obtain ⟨hlow, hhigh⟩ := hyc
      obtain ⟨hlow', hhigh'⟩ := hy
      have hab : a ≠ b := by omega
      have hpos := hS.size_pos' ha
      rcases hS.apart_size hl' ha (Finset.mem_union_right F hb) hab with h | h <;> omega
    · exact (hS.header_range ha hy).elim hown hbase
  have hfields : ∀ a ∈ F ∪ L, _ := fun a ha => fields_congr (hsame a ha)
  refine ⟨hG.base_eq, hS.congr rfl rfl (fun _ => Iff.rfl) rfl hfields, fun a n ha => ?_, hG.used⟩
  obtain ⟨b, hb, hab, hn⟩ := hG.live a n ha
  refine ⟨b, hb, hab, ?_⟩
  rw [(hfields b (Finset.mem_union_right F hb)).2.1]
  exact hn

theorem step (hk : Supplies sbrk owned got base) (hstep : Step sbrk owned (InRange sbrk) s s')
    (hG : Good owned got base s F L) : ∃ G M, Good owned got base s' G M := by
  cases hstep with
  | malloc hb hok hr => exact hG.malloc_good hk hb hok hr
  | @free h' fuel addr n hlive hr =>
    obtain ⟨h₁, G, M, hfree, hG'⟩ := hG.free_spec hk.toLayout hlive
    have heq := hfree (max fuel F.card) (le_max_right ..)
    rw [free_mono hr (le_max_left ..), Option.some_inj, Option.some_inj] at heq
    exact ⟨G, M, heq ▸ hG'⟩
  | write hm => exact ⟨F, L, hG.write_good hk.toLayout hm⟩

/-- A run of requests that are in range. -/
theorem run (hk : Supplies sbrk owned got base)
    (hrun : Relation.ReflTransGen (Step sbrk owned (InRange sbrk)) s s')
    (hG : Good owned got base s F L) : ∃ G M, Good owned got base s' G M := by
  induction hrun with
  | refl => exact ⟨F, L, hG⟩
  | tail _ hstep ih =>
    obtain ⟨G, M, hG'⟩ := ih
    exact hG'.step hk hstep

end Good

/-- In a run of requests that are in range `base` stays on the free list, and every pointer that the
program has is one to memory of `sbrk` that `free` accepts. A further request in range gives such a
pointer or none.
-/
theorem malloc_in_range {os : σ} {m : Memory} (hk : Supplies sbrk owned got base)
    (hos : ∀ y, ¬ owned os y) (hgot : got os = 0) (hm : ∀ y, Range base 24 y → m y = 0) {s : Program σ}
    (hrun : Relation.ReflTransGen (Step sbrk owned (InRange sbrk)) (start base os m) s) :
    s.heap.base = base ∧ OnList s.heap base ∧
    (∀ a n, s.live a = some n → (∀ y, Range a n y → owned s.heap.os y) ∧ headerOf a ≠ base ∧
      accepts s.heap.mem a ∧ ∃ fuel h', free s.heap fuel a = some (some h')) ∧
    ∀ bytes, bytes < 2 ^ 32 → InRange sbrk s.heap bytes →
      ∃ fuel addr h' log, malloc sbrk s.heap fuel bytes = some (addr, h', log) ∧ OnList h' base ∧
        (addr = 0 ∨ (∀ y, Range addr bytes y → owned h'.os y) ∧ headerOf addr ≠ base ∧
          accepts h'.mem addr) := by
  have hl := hk.toLayout
  obtain ⟨F, L, hG⟩ := (Good.start_good hl hos hgot hm).run hk hrun
  have hl' : Layout owned got s.heap.base := hG.base_eq ▸ hl
  have hS := hG.sound
  have hbase : base ∈ F := hG.base_eq ▸ hS.base_mem
  refine ⟨hG.base_eq, hS.onList_iff.mpr hbase, fun a n ha => ?_, fun bytes hb hok => ?_⟩
  · obtain ⟨b, hbL, rfl, hn⟩ := hG.live a n ha
    obtain ⟨hin, hheader, hne, hacc⟩ := hS.pointer hl' hbL hn
    obtain ⟨h', -, -, hfree, -⟩ := hG.free_spec hl ha
    exact ⟨hin, by rwa [hheader, ← hG.base_eq], hacc, F.card, h', hfree _ le_rfl⟩
  · have hk' : Supplies sbrk owned got s.heap.base := hG.base_eq ▸ hk
    obtain ⟨r, log, hmalloc, hbase', -, hres⟩ := hS.malloc hk' hb hok
    have hl₂ : Layout owned got r.2.base := hbase' ▸ hl'
    refine ⟨_, r.1, r.2, log, hmalloc _ le_rfl, ?_⟩
    rcases hres with ⟨h0, G, hS'⟩ | ⟨block, -, G, haddr, hS', hsize⟩
    · refine ⟨hS'.onList_iff.mpr ?_, .inl h0⟩
      rw [← hG.base_eq, ← hbase']
      exact hS'.base_mem
    · obtain ⟨hin, hheader, hne, hacc⟩ := hS'.pointer (n := bytes) hl₂ (Finset.mem_insert_self ..)
        (hsize ▸ le_unitsOf hb)
      refine ⟨hS'.onList_iff.mpr ?_, .inr ?_⟩
      · rw [← hG.base_eq, ← hbase']
        exact hS'.base_mem
      · rw [haddr, hheader]
        exact ⟨hin, by rwa [← hG.base_eq, ← hbase'], hacc⟩

/-- An `sbrk` that supplies memory once, from 4096 on. -/
def sbrkOnce (k : ℕ) (os : Fin (2 ^ 32)) (m : Memory) : ℕ × Fin (2 ^ 32) × Memory :=
  if h : os.val = 0 ∧ k < 2 ^ 32 then (4096, ⟨k, h.2⟩, m) else (0, os, m)

def ownedOnce (os : Fin (2 ^ 32)) : ℕ → Prop := Range 4096 os.val

theorem supplies_once : Supplies sbrkOnce ownedOnce (fun os => os.val) 64 where
  far _ _ hy := .inr (lt_of_lt_of_le (by decide) hy.1)
  lt os y hy := by
    have := os.isLt
    have := hy.2
    omega
  base_lt := by decide
  total os := os.isLt.trans (by decide)
  fail k os m h0 := by
    unfold sbrkOnce at h0 ⊢
    split at h0
    · cases h0
    · next h => simp only [h, dite_false, implies_true, and_self]
  fresh k os m h0 := by
    unfold sbrkOnce at h0 ⊢
    split at h0
    · next h =>
      have hempty : ∀ y, ¬ ownedOnce os y := by
        intro y hy
        have := hy.1
        have := hy.2
        omega
      simp only [h, and_self, dite_true]
      refine ⟨fun y _ => hempty y, fun y => ?_, (Nat.zero_add k).symm⟩
      exact ⟨.inr, fun hy => hy.resolve_left (hempty y)⟩
    · exact absurd rfl h0
  same k os m y hy := by
    unfold sbrkOnce
    split <;> rfl

/-- The first request, and then `free`. -/
theorem malloc_in_range_once :
    ∃ s : Program (Fin (2 ^ 32)), s.live 16336 = some 40 ∧
      ∃ fuel h', free s.heap fuel 16336 = some (some h') := by
  have heval : (malloc sbrkOnce (start 64 (0 : Fin (2 ^ 32)) fun _ => 0).heap 6 40).map (·.1) =
      some 16336 := by
    decide +kernel
  obtain ⟨⟨addr, h', log⟩, hcall, haddr⟩ := Option.map_eq_some_iff.mp heval
  obtain rfl : addr = 16336 := haddr
  have hok : InRange sbrkOnce (start 64 (0 : Fin (2 ^ 32)) fun _ => 0).heap 40 :=
    ⟨fun h => absurd h (by decide), fun h => absurd h (by decide)⟩
  have hrun : Relation.ReflTransGen (Step sbrkOnce ownedOnce (InRange sbrkOnce))
      (start 64 0 fun _ => 0) _ := .single (.malloc (by decide) hok hcall)
  obtain ⟨-, -, hptr, -⟩ := malloc_in_range supplies_once
    (fun y hy => absurd (hy.1.trans_lt hy.2) (by decide)) rfl (fun _ _ => rfl) hrun
  have hlive : Function.update (start 64 (0 : Fin (2 ^ 32)) fun _ => 0).live 16336 (some 40) 16336 =
      some 40 := Function.update_self ..
  exact ⟨_, hlive, (hptr 16336 40 hlive).2.2.2⟩

/-- A request of 0 bytes after one of 40 takes `base` from the list, and one of 4294967257 bytes gets a
pointer to memory that `sbrk` has not supplied. -/
theorem malloc_out_of_range :
    (∃ s : Program (Fin (2 ^ 32)),
      Relation.ReflTransGen (Step sbrkOnce ownedOnce fun _ _ => True) (start 64 0 fun _ => 0) s ∧
      ∃ fuel h' log, malloc sbrkOnce s.heap fuel 0 = some (0, h', log) ∧ ¬ OnList h' 64) ∧
    ∃ fuel addr h' log,
      malloc sbrkOnce (start 64 (0 : Fin (2 ^ 32)) fun _ => 0).heap fuel 4294967257 =
        some (addr, h', log) ∧ addr ≠ 0 ∧ ¬ ∀ y, Range addr 4294967257 y → ownedOnce h'.os y := by
  constructor
  · have heval : ((malloc sbrkOnce (construct 64 (0 : Fin (2 ^ 32)) fun _ => 0) 6 40).bind fun r =>
        (malloc sbrkOnce r.2.1 6 0).map fun r' => (r.1, r'.1, r'.2.1.free_list, next r'.2.1.mem 4096)) =
        some (16336, 0, 4096, 4096) := by
      decide +kernel
    obtain ⟨⟨addr, h₁, log⟩, hfirst, heval⟩ := Option.bind_eq_some_iff.mp heval
    obtain ⟨⟨addr', h₂, log'⟩, hsecond, heval⟩ := Option.map_eq_some_iff.mp heval
    obtain ⟨rfl, rfl, hlist, hnext⟩ : addr = 16336 ∧ addr' = 0 ∧ h₂.free_list = 4096 ∧
        next h₂.mem 4096 = 4096 := by simpa using heval
    refine ⟨_, .single (.malloc (by decide) trivial hfirst), 6, h₂, log', hsecond, ?_⟩
    rintro ⟨k, hk⟩
    rw [hlist, Function.iterate_fixed hnext] at hk
    cases hk
  · have heval : (malloc sbrkOnce (construct 64 (0 : Fin (2 ^ 32)) fun _ => 0) 6 4294967257).map
        (fun r => (r.1, r.2.1.os.val)) = some (4120, 8) := by
      decide +kernel
    obtain ⟨⟨addr, h', log⟩, hcall, heval⟩ := Option.map_eq_some_iff.mp heval
    obtain ⟨rfl, hos⟩ : addr = 4120 ∧ h'.os.val = 8 := by simpa using heval
    refine ⟨6, _, h', log, hcall, by decide, fun hall => ?_⟩
    have hlast := (hall 4120 ⟨le_rfl, by decide⟩).2
    rw [hos] at hlast
    exact absurd hlast (by decide)

end OrangeOs.Lib.MemManager
