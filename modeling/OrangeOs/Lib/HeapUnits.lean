import OrangeOs.Lib.HeapRun

/-! # The units of the heap

The sizes of blocks are numbers of 32 bits. As long as the units that `sbrk` has supplied fit in
them, the free blocks and those of the program are exactly these units, and the free ones are as
large as they can be.
-/

namespace OrangeOs.Lib.MemManager

open Memory Header

variable {σ : Type} {sbrk : ℕ → σ → Memory → ℕ × σ × Memory} {owned : σ → ℕ → Prop} {got : σ → ℕ}
  {h h' : MemManager σ} {s s' : Program σ} {F L : Finset ℕ} {a base bytes p pre_p unites : ℕ}
  {r : ℕ × MemManager σ × List Event}

/-- What is assumed of `sbrk`, for memory of any size. -/
structure Grants (sbrk : ℕ → σ → Memory → ℕ × σ × Memory) (owned : σ → ℕ → Prop)
    (got : σ → ℕ) (base : ℕ) :
    Prop where
  far : ∀ os y, owned os y → y + 1 < base ∨ base + 24 < y
  lt : ∀ os y, owned os y → y + 1 < 2 ^ 64
  base_lt : base + 24 < 2 ^ 64
  fail : ∀ k os m, (sbrk k os m).1 = 0 →
    (∀ y, owned (sbrk k os m).2.1 y ↔ owned os y) ∧ got (sbrk k os m).2.1 = got os
  fresh : ∀ k os m, (sbrk k os m).1 ≠ 0 →
    (∀ y, Range (sbrk k os m).1 k y → ¬ owned os y) ∧
    (∀ y, owned (sbrk k os m).2.1 y ↔ owned os y ∨ Range (sbrk k os m).1 k y) ∧
    got (sbrk k os m).2.1 = got os + k
  same : ∀ k os m, Same m (sbrk k os m).2.2 fun y => owned os y ∨ Range base 24 y

/-- A request of one byte or more, whose units have less than 4 GiB. -/
def Request (_ : MemManager σ) (bytes : ℕ) : Prop :=
  1 ≤ bytes ∧ ((bytes + 24 - 1) / 24 + 1) * 24 < 2 ^ 32

/-- The heap is cut into the blocks of `F`, which are `base` and the free ones, and those of `L`,
which are the program's. The free list is circular and in order, and no free block ends at another
one. -/
structure Divided (owned : σ → ℕ → Prop) (got : σ → ℕ) (base : ℕ) (s : Program σ) (F L : Finset ℕ) :
    Prop where
  free : ∀ c, OnList s.heap c ↔ c ∈ F
  live : ∀ a, s.live a ≠ none ↔ ∃ b ∈ L, a = b + 24
  base_mem : base ∈ F
  circle : Circle F (next s.heap.mem)
  room : ∀ b ∈ L, ∀ n, s.live (b + 24) = some n → n + 24 ≤ 24 * size s.heap.mem b
  notMem : ∀ b ∈ L, b ∉ F
  inside : ∀ b ∈ F.erase base ∪ L, ∀ y, Range b (24 * size s.heap.mem b) y → owned s.heap.os y
  apart : ∀ a ∈ F.erase base ∪ L, ∀ b ∈ F.erase base ∪ L, a ≠ b →
    a + 24 * size s.heap.mem a ≤ b ∨ b + 24 * size s.heap.mem b ≤ a
  coalesced : ∀ a ∈ F.erase base, ∀ b ∈ F.erase base, a + 24 * size s.heap.mem a ≠ b
  units : 24 * (∑ b ∈ F.erase base, size s.heap.mem b + ∑ b ∈ L, size s.heap.mem b) = got s.heap.os

/-- The units are fewer than 2 ^ 32 - 1. -/
def Fits (got : σ → ℕ) (os : σ) : Prop := got os < 24 * (2 ^ 32 - 1)

theorem Good.divided (hG : Good owned got base s F L) : Divided owned got base s F L := by
  have hS := hG.sound
  have hbase := hG.base_eq
  constructor
  · exact fun c => hS.onList_iff
  · intro a
    constructor
    · intro hne
      obtain ⟨n, hn⟩ := Option.ne_none_iff_exists'.mp hne
      obtain ⟨b, hb, hab, -⟩ := hG.live a n hn
      exact ⟨b, hb, hab⟩
    · rintro ⟨b, hb, rfl⟩
      obtain ⟨n, hn⟩ := hG.used b hb
      rw [hn]
      exact Option.some_ne_none n
  · exact hbase ▸ hS.base_mem
  · exact hS.circle
  · intro b hb n hn
    obtain ⟨c, -, hbc, hle⟩ := hG.live _ n hn
    obtain rfl := Nat.add_right_cancel hbc
    exact hle
  · exact hS.notMem
  · rw [← hbase]
    exact fun b hb y hy => hS.owned_of_lt hb hy.1 hy.2
  · rw [← hbase]
    exact hS.tiling.apart
  · rw [← hbase]
    exact hS.apart_free
  · have hdisjoint : Disjoint (F.erase base) L := Finset.disjoint_left.mpr fun b hb hb' =>
      hS.notMem b hb' (Finset.mem_of_mem_erase hb)
    rw [← Finset.sum_union hdisjoint, Finset.mul_sum, ← hbase]
    exact hS.tiling.total

/-! ## Without more memory -/

/-- An `sbrk` that fails where the units would no longer fit. -/
def limited (sbrk : ℕ → σ → Memory → ℕ × σ × Memory) (got : σ → ℕ) (k : ℕ) (os : σ) (m : Memory) :
    ℕ × σ × Memory :=
  if got os < 24 * (2 ^ 32 - 1) ∧
    got (sbrk k os m).2.1 < 24 * (2 ^ 32 - 1) then sbrk k os m else (0, os, m)

/-- What the heap has in states where the units fit. -/
def ownedFits (owned : σ → ℕ → Prop) (got : σ → ℕ) (os : σ) (y : ℕ) : Prop := Fits got os ∧ owned os y

def gotFits (got : σ → ℕ) (os : σ) : ℕ := if got os < 24 * (2 ^ 32 - 1) then got os else 0

theorem gotFits_eq {os : σ} (hfits : Fits got os) : gotFits got os = got os := if_pos hfits

theorem ownedFits_iff {os : σ} (hfits : Fits got os) (y : ℕ) : ownedFits owned got os y ↔ owned os y :=
  and_iff_right hfits

namespace Grants

variable (hk : Grants sbrk owned got base)

include hk

theorem supplies : Supplies (limited sbrk got) (ownedFits owned got) (gotFits got) base where
  far os y hy := hk.far os y hy.2
  lt os y hy := hk.lt os y hy.2
  base_lt := hk.base_lt
  total os := by
    unfold gotFits
    split
    · assumption
    · decide
  fail k os m h0 := by
    unfold limited at h0 ⊢
    split at h0
    · next hfits =>
      rw [if_pos hfits]
      obtain ⟨howned, hgot⟩ := hk.fail k os m h0
      refine ⟨fun y => ?_, ?_⟩
      · rw [ownedFits_iff hfits.2, ownedFits_iff hfits.1, howned]
      · rw [gotFits_eq hfits.2, gotFits_eq hfits.1, hgot]
    · next hfits =>
      rw [if_neg hfits]
      exact ⟨fun _ => Iff.rfl, rfl⟩
  fresh k os m h0 := by
    unfold limited at h0 ⊢
    split at h0
    · next hfits =>
      rw [if_pos hfits]
      obtain ⟨hnew, howned, hgot⟩ := hk.fresh k os m h0
      refine ⟨fun y hy hold => hnew y hy hold.2, fun y => ?_, ?_⟩
      · rw [ownedFits_iff hfits.2, ownedFits_iff hfits.1, howned]
      · rw [gotFits_eq hfits.2, gotFits_eq hfits.1, hgot]
    · exact absurd rfl h0
  same k os m := by
    unfold limited
    split
    · exact (hk.same k os m).mono fun y hy => hy.imp_left And.right
    · exact Same.refl _ _

theorem got_le (k : ℕ) (os : σ) (m : Memory) : got os ≤ got (sbrk k os m).2.1 := by
  by_cases h0 : (sbrk k os m).1 = 0
  · exact (hk.fail k os m h0).2.ge
  · rw [(hk.fresh k os m h0).2.2]
    exact Nat.le_add_right ..

end Grants

theorem freeBlock_os {fuel block : ℕ} (hr : freeBlock h fuel block = some h') : h'.os = h.os := by
  obtain ⟨q, -, hr⟩ := Option.bind_eq_some_iff.mp hr
  exact (Option.some.inj hr).symm ▸ rfl

theorem growHeader_os {fuel : ℕ} {b : Bool} (hr : growHeader sbrk h fuel unites = some (b, h')) :
    h'.os = (sbrkCall sbrk h unites).2.1 := by
  rw [growHeader_eq] at hr
  split at hr
  · obtain ⟨-, rfl⟩ := Prod.mk.inj (Option.some.inj hr)
    rfl
  · obtain ⟨h₁, hfree, heq⟩ := Option.map_eq_some_iff.mp hr
    obtain ⟨-, rfl⟩ := Prod.mk.inj heq
    exact freeBlock_os hfree

theorem takeBlock_os (h : MemManager σ) (unites pre_p p : ℕ) :
    (takeBlock h unites pre_p p).2.os = h.os := by
  unfold takeBlock
  split <;> rfl

/-- A search never gives memory back. -/
theorem findFrom_got_le (hk : Grants sbrk owned got base) {fuel grow : ℕ}
    (hr : findFrom sbrk unites grow fuel h pre_p p = some r) : got h.os ≤ got r.2.1.os := by
  induction fuel generalizing h pre_p p r with
  | zero => cases hr
  | succ k ih =>
    rw [findFrom] at hr
    by_cases hfit : unites ≤ size h.mem p
    · rw [if_pos hfit] at hr
      obtain rfl := Option.some.inj hr
      exact (congrArg got (takeBlock_os ..)).ge
    · rw [if_neg hfit] at hr
      by_cases hlast : p = h.free_list
      · rw [if_pos hlast] at hr
        obtain ⟨⟨grown, h₁⟩, hg, hr⟩ := Option.bind_eq_some_iff.mp hr
        have hle : got h.os ≤ got h₁.os := growHeader_os hg ▸ hk.got_le ..
        cases grown with
        | false => exact Option.some.inj hr ▸ hle
        | true =>
          obtain ⟨r₁, hfind, hr⟩ := Option.bind_eq_some_iff.mp hr
          have hle' := hle.trans (ih hfind)
          exact Option.some.inj hr ▸ hle'
      · rw [if_neg hlast] at hr
        obtain ⟨r₁, hfind, hr⟩ := Option.bind_eq_some_iff.mp hr
        have hle := ih hfind
        exact Option.some.inj hr ▸ hle

/-- Where the units fit after a call, the limit makes no difference. -/
theorem sbrkCall_limited (hk : Grants sbrk owned got base)
    (hfits : Fits got (sbrkCall sbrk h unites).2.1) :
    sbrkCall (limited sbrk got) h unites = sbrkCall sbrk h unites :=
  if_pos ⟨(hk.got_le ..).trans_lt hfits, hfits⟩

theorem growHeader_limited (hk : Grants sbrk owned got base)
    (hfits : Fits got (sbrkCall sbrk h unites).2.1)
    (fuel : ℕ) : growHeader (limited sbrk got) h fuel unites = growHeader sbrk h fuel unites := by
  have hcall := sbrkCall_limited hk hfits
  rw [growHeader_eq, growHeader_eq, supplied, supplied, hcall]

theorem findFrom_limited (hk : Grants sbrk owned got base) {fuel grow : ℕ}
    (hr : findFrom sbrk unites grow fuel h pre_p p = some r) (hfits : Fits got r.2.1.os) :
    findFrom (limited sbrk got) unites grow fuel h pre_p p = some r := by
  induction fuel generalizing h pre_p p r with
  | zero => cases hr
  | succ k ih =>
    rw [findFrom] at hr ⊢
    by_cases hfit : unites ≤ size h.mem p
    · rwa [if_pos hfit] at hr ⊢
    · rw [if_neg hfit] at hr ⊢
      by_cases hlast : p = h.free_list
      · rw [if_pos hlast] at hr ⊢
        obtain ⟨⟨grown, h₁⟩, hg, hr⟩ := Option.bind_eq_some_iff.mp hr
        have hle : got h₁.os ≤ got r.2.1.os := by
          cases grown with
          | false => exact Option.some.inj hr ▸ le_rfl
          | true =>
            obtain ⟨r₁, hfind, hr⟩ := Option.bind_eq_some_iff.mp hr
            have hle := findFrom_got_le hk hfind
            exact Option.some.inj hr ▸ hle
        have hfits₁ : Fits got (sbrkCall sbrk h unites).2.1 := growHeader_os hg ▸ hle.trans_lt hfits
        refine Option.bind_eq_some_iff.mpr
          ⟨(grown, h₁), (growHeader_limited hk hfits₁ grow).trans hg, ?_⟩
        cases grown with
        | false => exact hr
        | true =>
          obtain ⟨r₁, hfind, hr⟩ := Option.bind_eq_some_iff.mp hr
          obtain rfl := Option.some.inj hr
          exact Option.bind_eq_some_iff.mpr ⟨r₁, ih hfind hfits, rfl⟩
      · rw [if_neg hlast] at hr ⊢
        obtain ⟨r₁, hfind, hr⟩ := Option.bind_eq_some_iff.mp hr
        obtain rfl := Option.some.inj hr
        exact Option.bind_eq_some_iff.mpr ⟨r₁, ih hfind hfits, rfl⟩

/-! ## Runs -/

theorem free_os {fuel addr : ℕ} (hr : free h fuel addr = some (some h')) : h'.os = h.os := by
  unfold free at hr
  split at hr
  · obtain ⟨h₁, hfree, heq⟩ := Option.map_eq_some_iff.mp hr
    exact Option.some.inj heq ▸ freeBlock_os hfree
  · cases Option.some.inj hr

theorem step_got_le (hk : Grants sbrk owned got base) (hstep : Step sbrk owned Request s s') :
    got s.heap.os ≤ got s'.heap.os := by
  cases hstep with
  | malloc _ _ hr => exact findFrom_got_le hk hr
  | free _ hr => exact (congrArg got (free_os hr)).ge
  | write _ => exact le_rfl

/-- A step to a state where the units fit is one with the limit. -/
theorem step_limited (hk : Grants sbrk owned got base) (hstep : Step sbrk owned Request s s')
    (hfits : Fits got s'.heap.os) :
    Step (limited sbrk got) (ownedFits owned got) (InRange (limited sbrk got)) s s' := by
  have hle := step_got_le hk hstep
  cases hstep with
  | malloc hb hok hr =>
    refine .malloc hb ⟨fun h0 => ?_, fun hbig => ?_⟩ (findFrom_limited hk hr hfits)
    · exact absurd hok.1 (by omega)
    · exact absurd hok.2 (by omega)
  | free hlive hr => exact .free hlive hr
  | write hm =>
    refine .write fun y hy => (hm y hy).imp_right fun hout => ⟨fun how => hout.1 how.2, hout.2⟩

theorem run_limited (hk : Grants sbrk owned got base)
    (hrun : Relation.ReflTransGen (Step sbrk owned Request) s s') (hfits : Fits got s'.heap.os) :
    Relation.ReflTransGen (Step (limited sbrk got) (ownedFits owned got) (InRange (limited sbrk got)))
      s s' := by
  induction hrun with
  | refl => exact .refl
  | tail _ hstep ih =>
    exact (ih ((step_got_le hk hstep).trans_lt hfits)).tail (step_limited hk hstep hfits)

theorem growth_lt (hok : Request h bytes) : growth (unitsOf bytes) * 24 < 2 ^ 32 := by
  obtain ⟨-, hlt⟩ := hok
  have hb : bytes < 2 ^ 32 := by omega
  have hunits := unitsOf_eq hb
  unfold growth
  split
  · decide
  · omega

/-- A request after which the units fit ends. -/
theorem Good.malloc_ends (hk : Grants sbrk owned got base)
    (hG : Good (ownedFits owned got) (gotFits got) base s F L) (hok : Request s.heap bytes)
    (hfits : Fits got (sbrkCall sbrk s.heap (unitsOf bytes)).2.1) :
    ∃ fuel r, malloc sbrk s.heap fuel bytes = some r := by
  have hS := hG.sound
  have hk' : Supplies (limited sbrk got) (ownedFits owned got) (gotFits got) s.heap.base :=
    hG.base_eq ▸ hk.supplies
  have hsize := growth_lt hok
  unfold malloc
  generalize unitsOf bytes = unites at hfits hsize ⊢
  by_cases hfit : ∃ c ∈ F, unites ≤ size s.heap.mem c
  · obtain ⟨r, log, -, -, hfind⟩ := find_fits sbrk hS.circle hS.list_mem hfit
    exact ⟨_, _, hfind _ le_rfl⟩
  · have hsmall : ∀ c ∈ F, size s.heap.mem c < unites := fun c hc =>
      Nat.lt_of_not_le fun hle => hfit ⟨c, hc, hle⟩
    by_cases h0 : (sbrkCall sbrk s.heap unites).1 = 0
    · obtain ⟨lap, -, hfind⟩ := find_refused sbrk hS.circle hS.list_mem hsmall
        fun fuel _ => (growHeader_eq fuel).trans (if_pos h0)
      exact ⟨_, _, hfind _ le_rfl⟩
    · have h0' : (sbrkCall (limited sbrk got) s.heap unites).1 ≠ 0 := by
        rwa [sbrkCall_limited hk hfits]
      obtain ⟨h₁, G, hgrow, -, hS₁, hcard, hfit₁, -⟩ := hS.grown hk' h0' hsize
      obtain ⟨r, lap, lap', -, -, -, hfind⟩ := find_grown sbrk hS.circle hS.list_mem hsmall
        (fun fuel hfuel => (growHeader_limited hk hfits fuel).symm.trans (hgrow fuel hfuel)) hS₁.circle
        hS₁.list_mem hcard hfit₁
      exact ⟨_, _, hfind _ le_rfl⟩

/-! ## Blocks of 4 GiB -/

/-- An `sbrk` that supplies memory from 4096 on. -/
def sbrkNext (k : ℕ) (os : Fin (2 ^ 40)) (m : Memory) : ℕ × Fin (2 ^ 40) × Memory :=
  if h : os.val + k < 2 ^ 40 then (4096 + os.val, ⟨os.val + k, h⟩, m) else (0, os, m)

def ownedNext (os : Fin (2 ^ 40)) : ℕ → Prop := Range 4096 os.val

theorem grants_next : Grants sbrkNext ownedNext (fun os => os.val) 64 where
  far _ _ hy := .inr (lt_of_lt_of_le (by decide) hy.1)
  lt os y hy := by
    have := os.isLt
    have := hy.2
    omega
  base_lt := by decide
  fail k os m h0 := by
    unfold sbrkNext at h0 ⊢
    split at h0
    · exact absurd h0 (Nat.add_pos_left (by decide) _).ne'
    · next h => simp only [h, dite_false, implies_true, and_self]
  fresh k os m h0 := by
    unfold sbrkNext at h0 ⊢
    split at h0
    · next h =>
      simp only [h, dite_true, and_true]
      refine ⟨fun y hy hold => ?_, fun y => ?_⟩
      · exact absurd hold.2 (not_lt.mpr hy.1)
      · constructor
        · rintro ⟨hlow, hhigh⟩
          by_cases hy : y < 4096 + os.val
          · exact .inl ⟨hlow, hy⟩
          · exact .inr ⟨not_lt.mp hy, (Nat.add_assoc ..).symm ▸ hhigh⟩
        · rintro (⟨hlow, hhigh⟩ | ⟨hlow, hhigh⟩)
          · exact ⟨hlow, hhigh.trans_le (Nat.add_le_add_left (Nat.le_add_right ..) _)⟩
          · exact ⟨(Nat.le_add_right ..).trans hlow, (Nat.add_assoc ..) ▸ hhigh⟩
    · exact absurd rfl h0
  same k os m y _ := by
    unfold sbrkNext
    split <;> rfl

/-- The blocks of the largest requests. -/
def chunk (k : ℕ) : ℕ := 4096 + 4294967280 * k

theorem apart_chunk {j k : ℕ} (hne : j ≠ k) : Apart (chunk j) (chunk k) := by
  unfold chunk
  rcases Nat.lt_or_gt_of_ne hne with hlt | hlt
  · exact .inl (by omega)
  · exact .inr (by omega)

theorem apart_base_chunk (k : ℕ) : Apart 64 (chunk k) := .inl (by unfold chunk; omega)

/-- The program has the blocks from the `j`th on, of `i` that it has requested. -/
structure Chunks (j i : ℕ) (s : Program (Fin (2 ^ 40))) : Prop where
  base : s.heap.base = 64
  os : s.heap.os.val = 4294967280 * i
  size_base : size s.heap.mem 64 = 1
  blocks : ∀ k, j ≤ k → k < i → size s.heap.mem (chunk k) = 178956970 ∧
    data s.heap.mem (chunk k) = chunk k + 24 ∧ s.live (chunk k + 24) = some 4294967256
  live : ∀ a, (∀ k, j ≤ k → k < i → a ≠ chunk k + 24) → s.live a = none

/-- Only `base` is on the free list. -/
structure Lone (h : MemManager σ) : Prop where
  head : h.free_list = 64
  circle : next h.mem 64 = 64

/-- A request of a block that `sbrk` supplies, when the heap has no other. -/
theorem Lone.malloc (hlone : Lone h) (hbase : h.base = 64)
    (hsize : size h.mem 64 = 1) {block : ℕ} {os : σ}
    (hcall : sbrkCall sbrk h unites = (block, os, h.mem)) (hblock : 88 < block)
    (hlt : block + 24 * unites < 2 ^ 64) (hgrowth : growth unites = unites) (hu : 2 ≤ unites)
    (hu32 : unites < 2 ^ 32 - 1) :
    ∃ h' log, findFirstFitBlock sbrk h 5 unites = some (block + 24, h', log) ∧ Lone h' ∧ h'.base = 64 ∧
      h'.os = os ∧ ∀ c, c = 64 ∨ Apart 64 c → c = block ∨ Apart block c →
        size h'.mem c = (if c = block then unites else size h.mem c) ∧
        data h'.mem c = if c = block then block + 24 else data h.mem c := by
  have hne : block ≠ 64 := by omega
  have hapart : Apart 64 block := .inl (by omega)
  have h64 : (64 : ℕ) = block ∨ Apart block 64 := .inr hapart.symm
  have hsum : ∑ a ∈ ({64} : Finset ℕ), size h.mem a = 1 := by rw [Finset.sum_singleton, hsize]
  have hF : FreeList {64} h := by
    refine ⟨Circle.singleton hlone.circle, fun a ha b hb hne => ?_, ?_, ?_, ?_⟩
    · exact absurd ((Finset.mem_singleton.mp ha).trans (Finset.mem_singleton.mp hb).symm) hne
    · rw [hbase]
      exact Finset.mem_singleton_self _
    · rw [hlone.head]
      exact Finset.mem_singleton_self _
    · rw [hsum]
      decide
  have hfresh : Fresh {64} h.mem h.mem block unites := by
    refine ⟨fun a ha => ?_, fun _ _ => Same.refl _ _, by omega, by omega⟩
    rw [Finset.mem_singleton.mp ha]
    exact hapart.symm
  obtain ⟨hL, hnew⟩ := Fresh.listed hF hfresh
  have hmake : ∀ c, c = block ∨ Apart block c → _ := fun c hc =>
    makeHeader_fields (m := h.mem) (n := unites) hc (by omega)
  generalize hm : makeHeader h.mem block unites = m at hL hnew hmake
  obtain ⟨hnext64, hsize64, -⟩ := hmake 64 h64
  rw [hlone.circle] at hnext64
  rw [if_neg hne.symm, hsize] at hsize64
  have hprevious : ¬ JoinsPrevious m 64 block := by
    rw [JoinsPrevious, hsize64]
    exact fun he => hblock.ne ((by decide : (88 : ℕ) = after 64 1).trans he)
  have hnot : ¬ JoinsNext m 64 block := by
    rw [JoinsNext, hnew, hnext64, after_of_lt hlt]
    omega
  -- the block is linked behind `base`
  have hlink : ∀ c, c = 64 ∨ Apart 64 c → c = block ∨ Apart block c →
      next (Listed.link m 64 block) c = (if c = 64 then block else if c = block then 64 else next m c) ∧
      size (Listed.link m 64 block) c = size m c ∧ data (Listed.link m 64 block) c = data m c := by
    intro c h₁ h₂
    have hfields := hL.link_fields (Finset.mem_singleton_self 64) h₂ h₁
    simpa only [hprevious, hnot, hnext64, and_false, if_false] using hfields
  obtain ⟨g, hg, -, hfree⟩ := freeBlock_spec (h := { h with mem := m, os := os }) hL
    (Finset.mem_singleton.mpr hlone.head)
  obtain rfl := Finset.mem_singleton.mp hg
  dsimp only at hfree
  generalize Listed.link m 64 block = m₁ at hlink hfree
  obtain ⟨hnext₁, hsize₁, hdata₁⟩ := hlink block (.inr hapart) (.inl rfl)
  obtain ⟨hbase₁, -, -⟩ := hlink 64 (.inl rfl) h64
  rw [if_neg hne, if_pos rfl] at hnext₁
  rw [if_pos rfl] at hbase₁
  rw [hnew] at hsize₁
  obtain ⟨h₁, hh⟩ : ∃ h₁ : MemManager σ, h₁ = { h with mem := m₁, os := os, free_list := 64 } := ⟨_, rfl⟩
  rw [← hh] at hfree
  have hgrow : ∀ fuel, 1 ≤ fuel → growHeader sbrk h fuel unites = some (true, h₁) := by
    intro fuel hfuel
    rw [growHeader_eq, supplied, hcall, hgrowth]
    dsimp only
    rw [if_neg (by omega), hm, hfree fuel hfuel, Option.map_some]
  have hmem : h₁.mem = m₁ := by rw [hh]
  have hlist : h₁.free_list = 64 := by rw [hh]
  have hsmall : size h.mem h.free_list < unites := by
    rw [hlone.head, hsize]
    exact hu
  have hfit : unites ≤ size h₁.mem (next h₁.mem h₁.free_list) := by
    rw [hmem, hlist, hbase₁, hsize₁]
  -- then it is taken
  have hends := ends_grown hsmall h.free_list hgrow (ends_fits hfit 1 h₁.free_list) 5 5 (by decide)
    (by decide)
  have hfirst : next h.mem h.free_list = h.free_list := by
    rw [hlone.head, hlone.circle]
  have htake : takeBlock h₁ unites h₁.free_list (next h₁.mem h₁.free_list) =
      (data (setNext m₁ 64 64) block, { h₁ with mem := setNext m₁ 64 64, free_list := 64 }) := by
    rw [hlist, hmem, hbase₁, takeBlock, hmem, if_pos hsize₁]
    dsimp only
    rw [hnext₁]
  rw [htake] at hends
  have hfields : ∀ c, c = 64 ∨ Apart 64 c → c = block ∨ Apart block c →
      size (setNext m₁ 64 64) c = (if c = block then unites else size h.mem c) ∧
      data (setNext m₁ 64 64) c = if c = block then block + 24 else data h.mem c := by
    intro c h₂ h₃
    obtain ⟨-, hs, hd⟩ := hlink c h₂ h₃
    obtain ⟨-, hs', hd'⟩ := hmake c h₃
    rw [size_setNext h₂, data_setNext h₂, hs, hd, hs', hd', after_of_lt (by omega)]
    exact ⟨rfl, rfl⟩
  have haddr := (hfields block (.inr hapart) (.inl rfl)).2
  rw [if_pos rfl] at haddr
  rw [haddr] at hends
  obtain ⟨h₂, hh₂⟩ : ∃ h₂ : MemManager σ, h₂ = { h₁ with mem := setNext m₁ 64 64, free_list := 64 } :=
    ⟨_, rfl⟩
  have hmem₂ : h₂.mem = setNext m₁ 64 64 := by rw [hh₂]
  rw [← hh₂] at hends
  rw [← hmem₂] at hfields
  have hfind : findFirstFitBlock sbrk h 5 unites =
      findFrom sbrk unites 5 5 h h.free_list h.free_list := by
    rw [findFirstFitBlock, hfirst]
  refine ⟨h₂, _, hfind.trans hends, ⟨by rw [hh₂], ?_⟩, ?_, ?_, hfields⟩
  · rw [hmem₂, next_setNext (.inl rfl) (by decide), if_pos rfl]
  · rw [hh₂, hh]
    exact hbase
  · rw [hh₂, hh]

/-- The first block is on the free list, with those that followed it. -/
structure Joined (j : ℕ) (h : MemManager σ) : Prop where
  head : h.free_list = 64 ∨ h.free_list = chunk 0
  first : next h.mem 64 = chunk 0
  last : next h.mem (chunk 0) = 64
  units : size h.mem (chunk 0) = 178956970 * j % 2 ^ 32

namespace Chunks

variable {s : Program (Fin (2 ^ 40))} {i j : ℕ}

theorem malloc (hc : Chunks 0 i s) (hlone : Lone s.heap) (hi : i < 25) :
    ∃ s', Step sbrkNext ownedNext Request s s' ∧ Chunks 0 (i + 1) s' ∧ Lone s'.heap := by
  have hgrowth : growth 178956970 = 178956970 := by decide
  have hlt : s.heap.os.val + 4294967280 < 2 ^ 40 := by
    rw [hc.os]
    omega
  have haddr : 4096 + s.heap.os.val = chunk i := by rw [hc.os, chunk]
  have hcall : sbrkCall sbrkNext s.heap 178956970 =
      (chunk i, ⟨s.heap.os.val + 4294967280, hlt⟩, s.heap.mem) := by
    rw [sbrkCall, hgrowth, (by decide : 178956970 * 24 % 2 ^ 32 = 4294967280),
      sbrkNext, dif_pos hlt, haddr]
  obtain ⟨h', log, hfind, hlone', hbase, hos, hfields⟩ := hlone.malloc hc.base hc.size_base hcall
    (by unfold chunk; omega) (by unfold chunk; omega) hgrowth (by decide) (by decide)
  have hmalloc : MemManager.malloc sbrkNext s.heap 5 4294967256 = some (chunk i + 24, h', log) := by
    rw [MemManager.malloc, (by decide : unitsOf 4294967256 = 178956970), hfind]
  refine ⟨_, .malloc (by decide) ⟨by decide, by decide⟩ hmalloc, ?_, hlone'⟩
  rw [if_neg (Nat.succ_ne_zero _)]
  refine ⟨hbase, ?_, ?_, fun k _ hk => ?_, fun a ha => ?_⟩
  · dsimp only
    rw [hos]
    dsimp only
    rw [hc.os, Nat.mul_succ]
  · have hne : 64 ≠ chunk i := by unfold chunk; omega
    rw [(hfields 64 (.inl rfl) (.inr (apart_base_chunk i).symm)).1, if_neg hne]
    exact hc.size_base
  · rcases Nat.lt_succ_iff_lt_or_eq.mp hk with hlt | rfl
    · have hne : chunk k ≠ chunk i := by unfold chunk; omega
      have hapart : Apart (chunk i) (chunk k) := apart_chunk (Nat.ne_of_gt hlt)
      obtain ⟨hs, hd⟩ := hfields (chunk k) (.inr (apart_base_chunk k)) (.inr hapart)
      obtain ⟨h₁, h₂, h₃⟩ := hc.blocks k (Nat.zero_le k) hlt
      dsimp only
      rw [hs, hd, if_neg hne, if_neg hne, Function.update_of_ne fun he => hne (Nat.add_right_cancel he)]
      exact ⟨h₁, h₂, h₃⟩
    · obtain ⟨hs, hd⟩ := hfields (chunk k) (.inr (apart_base_chunk k)) (.inl rfl)
      dsimp only
      rw [hs, hd, if_pos rfl, if_pos rfl, Function.update_self]
      exact ⟨rfl, rfl, rfl⟩
  · dsimp only
    rw [Function.update_of_ne (ha i (Nat.zero_le i) (Nat.lt_succ_self i))]
    exact hc.live a fun k hk hki => ha k hk (Nat.lt_succ_of_lt hki)

/-- The next block is freed. -/
theorem free (hc : Chunks j 25 s) (hj : j < 25) {h' : MemManager (Fin (2 ^ 40))} {fuel : ℕ}
    (hfree : freeBlock s.heap fuel (chunk j) = some h') (hbase : h'.base = 64) (hos : h'.os = s.heap.os)
    (hsame : ∀ c, (c = 64 ∨ ∃ k, j < k ∧ c = chunk k) →
      size h'.mem c = size s.heap.mem c ∧ data h'.mem c = data s.heap.mem c) :
    ∃ s', Step sbrkNext ownedNext Request s s' ∧ Chunks (j + 1) 25 s' ∧ s'.heap = h' := by
  obtain ⟨hsize, hdata, hlive⟩ := hc.blocks j le_rfl hj
  have hheader : headerOf (chunk j + 24) = chunk j := headerOf_add (by unfold chunk; omega)
  have hacc : accepts s.heap.mem (chunk j + 24) := by
    rw [accepts, hheader, hdata, hsize]
    exact ⟨Nat.succ_ne_zero _, rfl, by decide⟩
  have hcall : MemManager.free s.heap fuel (chunk j + 24) = some (some h') := by
    rw [free_eq hacc, hheader, hfree, Option.map_some]
  refine ⟨_, .free hlive hcall, ⟨hbase, ?_, ?_, fun k hk hki => ?_, fun a ha => ?_⟩, rfl⟩
  · dsimp only
    rw [hos, hc.os]
  · exact (hsame 64 (.inl rfl)).1.trans hc.size_base
  · have hne : chunk k ≠ chunk j := by unfold chunk; omega
    obtain ⟨hs, hd⟩ := hsame (chunk k) (.inr ⟨k, hk, rfl⟩)
    obtain ⟨h₁, h₂, h₃⟩ := hc.blocks k (Nat.le_of_lt hk) hki
    dsimp only
    rw [hs, hd, Function.update_of_ne fun he => hne (Nat.add_right_cancel he)]
    exact ⟨h₁, h₂, h₃⟩
  · dsimp only
    by_cases haj : a = chunk j + 24
    · rw [haj, Function.update_self]
    · rw [Function.update_of_ne haj]
      refine hc.live a fun k hk hki => ?_
      rcases Nat.eq_or_lt_of_le hk with rfl | hlt
      · exact haj
      · exact ha k hlt hki

/-- The first block comes behind `base`. -/
theorem free_first (hc : Chunks 0 25 s) (hlone : Lone s.heap) :
    ∃ s', Step sbrkNext ownedNext Request s s' ∧ Chunks 1 25 s' ∧ Joined 1 s'.heap := by
  obtain ⟨hsize, -, -⟩ := hc.blocks 0 le_rfl (by decide)
  have hapart : Apart 64 (chunk 0) := apart_base_chunk 0
  have hne : chunk 0 ≠ 64 := by decide
  have hL : Listed {64} s.heap.mem (chunk 0) := by
    refine ⟨Circle.singleton hlone.circle, fun a ha b hb hab => ?_, by decide, by decide, ?_⟩
    · simp only [Finset.mem_insert, Finset.mem_singleton] at ha hb
      rcases ha with rfl | rfl <;> rcases hb with rfl | rfl
      · exact absurd rfl hab
      · exact hapart.symm
      · exact hapart
      · exact absurd rfl hab
    · rw [Finset.sum_insert (by decide), Finset.sum_singleton, hsize, hc.size_base]
      decide
  obtain ⟨g, hg, -, hfree⟩ := freeBlock_spec hL (Finset.mem_singleton.mpr hlone.head)
  obtain rfl := Finset.mem_singleton.mp hg
  have hprevious : ¬ JoinsPrevious s.heap.mem 64 (chunk 0) := by
    rw [JoinsPrevious, hc.size_base]
    decide
  have hnot : ¬ JoinsNext s.heap.mem 64 (chunk 0) := by
    rw [JoinsNext, hsize, hlone.circle]
    decide
  have hlink : ∀ c, c = 64 ∨ Apart 64 c → c = chunk 0 ∨ Apart (chunk 0) c →
      next (Listed.link s.heap.mem 64 (chunk 0)) c =
        (if c = 64 then chunk 0 else if c = chunk 0 then 64 else next s.heap.mem c) ∧
      size (Listed.link s.heap.mem 64 (chunk 0)) c = size s.heap.mem c ∧
      data (Listed.link s.heap.mem 64 (chunk 0)) c = data s.heap.mem c := by
    intro c h₁ h₂
    have hfields := hL.link_fields (Finset.mem_singleton_self 64) h₂ h₁
    simpa only [hprevious, hnot, hlone.circle, and_false, if_false] using hfields
  generalize Listed.link s.heap.mem 64 (chunk 0) = m at hlink hfree
  obtain ⟨s', hstep, hc', hs'⟩ := hc.free (by decide) (hfree 1 le_rfl) hc.base rfl fun c hcs => by
    rcases hcs with rfl | ⟨k, hk, rfl⟩
    · exact (hlink 64 (.inl rfl) (.inr hapart.symm)).2
    · exact (hlink _ (.inr (apart_base_chunk k)) (.inr (apart_chunk (Nat.ne_of_lt hk)))).2
  obtain ⟨hnext, hunits, -⟩ := hlink (chunk 0) (.inr hapart) (.inl rfl)
  refine ⟨s', hstep, hc', ?_⟩
  rw [hs']
  refine ⟨.inl rfl, ?_, ?_, ?_⟩
  · exact (hlink 64 (.inl rfl) (.inr hapart.symm)).1.trans (if_pos rfl)
  · rwa [if_neg hne, if_pos rfl] at hnext
  · exact hunits.trans hsize

/-- A store to the size keeps 32 bits. -/
theorem size_setSize_mod (m : Memory) (a v : ℕ) : size (setSize m a v) a = v % 2 ^ 32 :=
  load_store m (a + 8) 4 v

theorem size_setSize_apart {m : Memory} {c : ℕ} (hapart : Apart a c) (v : ℕ) :
    size (setSize m a v) c = size m c :=
  load_store_of_disjoint _ _ (by rcases hapart with h | h <;> omega)

/-- Each further block is joined to the first. -/
theorem free_next (hc : Chunks j 25 s) (hjoined : Joined j s.heap) (hj0 : 1 ≤ j) (hj : j < 25) :
    ∃ s', Step sbrkNext ownedNext Request s s' ∧ Chunks (j + 1) 25 s' ∧ Joined (j + 1) s'.heap := by
  obtain ⟨hsize, -, -⟩ := hc.blocks j le_rfl hj
  have hbase0 : Apart 64 (chunk 0) := apart_base_chunk 0
  have hbasej : Apart 64 (chunk j) := apart_base_chunk j
  have h0j : Apart (chunk 0) (chunk j) := apart_chunk (by omega)
  have hne : chunk 0 ≠ 64 := by decide
  have hlt0 : chunk 0 < chunk j := by unfold chunk; omega
  -- the gap is behind the first block
  have hcircle : Circle {64, chunk 0} (next s.heap.mem) := by
    intro a ha
    rcases Finset.mem_insert.mp ha with rfl | ha
    · rw [hjoined.first]
      exact ⟨by decide, .inl ⟨by decide, by decide⟩⟩
    · rw [Finset.mem_singleton.mp ha, hjoined.last]
      exact ⟨by decide, .inr (by decide)⟩
  have hnot : chunk j ∉ ({64, chunk 0} : Finset ℕ) := by
    simp only [Finset.mem_insert, Finset.mem_singleton, not_or]
    unfold chunk at hlt0 ⊢
    omega
  have hlist : s.heap.free_list ∈ ({64, chunk 0} : Finset ℕ) := by
    simp only [Finset.mem_insert, Finset.mem_singleton]
    exact hjoined.head
  obtain ⟨g, -, -, huniq, hsearch⟩ := freeSearch_spec hcircle hnot hlist
  have hgap : Follows (insert (chunk j) {64, chunk 0}) (chunk 0) (chunk j) := by
    refine ⟨Finset.mem_insert_self .., .inl ⟨hlt0, fun c hcm => ?_⟩⟩
    simp only [Finset.mem_insert, Finset.mem_singleton] at hcm
    rcases hcm with rfl | rfl | rfl
    · exact .inr le_rfl
    · exact .inl (by decide)
    · exact .inl le_rfl
  obtain rfl : chunk 0 = g := huniq _ (by decide) hgap
  have hfree : freeBlock s.heap 2 (chunk j) = some { s.heap with
      mem := linkPrevious (linkNext s.heap.mem (chunk 0) (chunk j)) (chunk 0) (chunk j),
      free_list := chunk 0 } := by
    rw [freeBlock, hsearch 2 (by decide)]
    rfl
  -- it takes in the block
  have hunits : size s.heap.mem (chunk 0) = 178956970 * j := by
    rw [hjoined.units, Nat.mod_eq_of_lt (by omega)]
  have hnext : linkNext s.heap.mem (chunk 0) (chunk j) = setNext s.heap.mem (chunk j) 64 := by
    rw [linkNext, hsize, hjoined.last, after_of_lt (by unfold chunk; omega),
      if_neg (by unfold chunk; omega)]
  have hprevious : linkPrevious (setNext s.heap.mem (chunk j) 64) (chunk 0) (chunk j) =
      setNext (setSize (setNext s.heap.mem (chunk j) 64) (chunk 0) (178956970 * j + 178956970)) (chunk 0)
        64 := by
    rw [linkPrevious, size_setNext (.inr h0j.symm), size_setNext (.inl rfl), hunits, hsize,
      after_of_lt (by unfold chunk; omega), if_pos (by unfold chunk; omega)]
    dsimp only
    rw [next_setSize (.inr h0j), next_setNext (.inl rfl) (by decide), if_pos rfl]
  rw [hnext, hprevious] at hfree
  generalize hm : setNext
    (setSize (setNext s.heap.mem (chunk j) 64) (chunk 0) (178956970 * j + 178956970))
    (chunk 0) 64 = m at hfree
  obtain ⟨s', hstep, hc', hs'⟩ := hc.free hj hfree hc.base rfl fun c hcs => by
    have hapart : Apart (chunk j) c ∧ Apart (chunk 0) c ∧ c ≠ chunk 0 := by
      rcases hcs with rfl | ⟨k, hk, rfl⟩
      · exact ⟨hbasej.symm, hbase0.symm, hne.symm⟩
      · refine ⟨apart_chunk (Nat.ne_of_lt hk), apart_chunk (by omega), ?_⟩
        unfold chunk
        omega
    obtain ⟨h₁, h₂, h₃⟩ := hapart
    dsimp only
    rw [← hm, size_setNext (.inr h₂), data_setNext (.inr h₂), data_setSize (.inr h₂),
      data_setNext (.inr h₁),
      size_setSize_apart h₂, size_setNext (.inr h₁)]
    exact ⟨rfl, rfl⟩
  refine ⟨s', hstep, hc', ?_⟩
  rw [hs']
  refine ⟨.inr rfl, ?_, ?_, ?_⟩ <;> dsimp only <;> rw [← hm]
  · rw [next_setNext (.inr hbase0.symm) (by decide), if_neg hne.symm, next_setSize (.inr hbase0.symm),
      next_setNext (.inr hbasej.symm) (by decide), if_neg (by unfold chunk; omega), hjoined.first]
  · rw [next_setNext (.inl rfl) (by decide), if_pos rfl]
  · rw [size_setNext (.inl rfl), size_setSize_mod, Nat.mul_succ]

end Chunks

/-- Requests of up to 25 blocks. -/
theorem run_malloc {i : ℕ} (hi : i ≤ 25) :
    ∃ s, Relation.ReflTransGen (Step sbrkNext ownedNext Request)
    (start 64 0 fun _ => 0) s ∧ Chunks 0 i s ∧
      Lone s.heap := by
  induction i with
  | zero =>
    refine ⟨_, .refl, ⟨rfl, rfl, by decide, fun k _ hk => ?_, fun _ _ => rfl⟩, rfl, by decide⟩
    exact absurd hk (Nat.not_lt_zero k)
  | succ i ih =>
    obtain ⟨s, hrun, hc, hlone⟩ := ih (Nat.le_of_succ_le hi)
    obtain ⟨s', hstep, hc', hlone'⟩ := hc.malloc hlone hi
    exact ⟨s', hrun.tail hstep, hc', hlone'⟩

/-- Requests of 25 blocks, and then `free` for some of them. -/
theorem run_free {j : ℕ} (hj : j < 25) :
    ∃ s, Relation.ReflTransGen (Step sbrkNext ownedNext Request) (start 64 0 fun _ => 0) s ∧
      Chunks (j + 1) 25 s ∧ Joined (j + 1) s.heap := by
  induction j with
  | zero =>
    obtain ⟨s, hrun, hc, hlone⟩ := run_malloc le_rfl
    obtain ⟨s', hstep, hc', hjoined⟩ := hc.free_first hlone
    exact ⟨s', hrun.tail hstep, hc', hjoined⟩
  | succ j ih =>
    obtain ⟨s, hrun, hc, hjoined⟩ := ih (Nat.lt_of_succ_lt hj)
    obtain ⟨s', hstep, hc', hjoined'⟩ := hc.free_next hjoined (Nat.le_add_left 1 j) hj
    exact ⟨s', hrun.tail hstep, hc', hjoined'⟩

/-! ## The heap in a run -/

/-- In every run in which the units fit in 32 bits the heap is divided into the free blocks and
those of the program, and both operations end. -/
theorem heap_divided {os : σ} {m : Memory} (hk : Grants sbrk owned got base) (hos : ∀ y, ¬ owned os y)
    (hgot : got os = 0) (hm : ∀ y, Range base 24 y → m y = 0)
    (hrun : Relation.ReflTransGen (Step sbrk owned Request) (start base os m) s)
    (hfits : got s.heap.os < 24 * (2 ^ 32 - 1)) :
    (∃ F L, Divided owned got base s F L) ∧
    (∀ a n, s.live a = some n → ∃ fuel h', free s.heap fuel a = some (some h')) ∧
    ∀ bytes, Request s.heap bytes → got (sbrkCall sbrk s.heap (unitsOf bytes)).2.1 < 24 * (2 ^ 32 - 1) →
      ∃ fuel r, malloc sbrk s.heap fuel bytes = some r := by
  have hk' := hk.supplies
  have h0 : Fits got os := by
    unfold Fits
    rw [hgot]
    decide
  have hstart := Good.start_good hk'.toLayout (fun y hy => hos y hy.2) ((gotFits_eq h0).trans hgot) hm
  obtain ⟨F, L, hG⟩ := hstart.run hk' (run_limited hk hrun hfits)
  have hd := hG.divided
  refine ⟨⟨F, L, hd.free, hd.live, hd.base_mem, hd.circle, hd.room, hd.notMem,
    fun b hb y hy => ?_, hd.apart,
    hd.coalesced, ?_⟩, fun a n ha => ?_, fun bytes hok => hG.malloc_ends hk hok⟩
  · exact (hd.inside b hb y hy).2
  · rw [hd.units, gotFits_eq hfits]
  · obtain ⟨h', -, -, hfree, -⟩ := hG.free_spec hk'.toLayout ha
    exact ⟨_, h', hfree _ le_rfl⟩

/-- The first request. -/
theorem heap_divided_first : ∃ s : Program (Fin (2 ^ 40)), s.live 4120 = some 4294967256 ∧
    ∃ F L, Divided ownedNext (fun os => os.val) 64 s F L := by
  obtain ⟨s, hrun, hc, -⟩ := run_malloc (i := 1) (by decide)
  have hdivided := heap_divided grants_next (fun y hy => absurd (hy.1.trans_lt hy.2) (by decide)) rfl
    (fun _ _ => rfl) hrun (by rw [hc.os]; decide)
  exact ⟨s, (hc.blocks 0 le_rfl (by decide)).2.2, hdivided.1⟩

/-- With memory of more than 2 ^ 32 units the size of a free block overflows. -/
theorem heap_overflow : ¬ ∀ (σ : Type) (sbrk : ℕ → σ → Memory → ℕ × σ × Memory) (owned : σ → ℕ → Prop)
    (got : σ → ℕ) (base : ℕ) (os : σ) (m : Memory) (s : Program σ), Grants sbrk owned got base →
    (∀ y, ¬ owned os y) → got os = 0 → (∀ y, Range base 24 y → m y = 0) →
    Relation.ReflTransGen (Step sbrk owned Request) (start base os m) s →
    ∃ F L, Divided owned got base s F L := by
  intro hall
  obtain ⟨s, hrun, hc, hjoined⟩ := run_free (j := 24) (by decide)
  obtain ⟨F, L, hd⟩ := hall _ sbrkNext ownedNext (fun os => os.val) 64 0 (fun _ => 0) s grants_next
    (fun y hy => absurd (hy.1.trans_lt hy.2) (by decide)) rfl (fun _ _ => rfl) hrun
  have hL : L = ∅ := by
    refine Finset.eq_empty_of_forall_notMem fun b hb => (hd.live (b + 24)).mpr ⟨b, hb, rfl⟩ ?_
    exact hc.live _ fun k hk hk' => absurd (hk.trans_lt hk') (by decide)
  have hF : F.erase 64 ⊆ {chunk 0} := by
    intro c hcF
    obtain ⟨hne, hcF⟩ := Finset.mem_erase.mp hcF
    obtain ⟨k, hk⟩ := (hd.free c).mpr hcF
    have hlist : ∀ k, (next s.heap.mem)^[k] s.heap.free_list = 64 ∨
        (next s.heap.mem)^[k] s.heap.free_list = chunk 0 := by
      intro k
      induction k with
      | zero => exact hjoined.head
      | succ k ih =>
        rw [Function.iterate_succ_apply']
        rcases ih with he | he
        · exact .inr (by rw [he, hjoined.first])
        · exact .inl (by rw [he, hjoined.last])
    rw [← hk] at hne ⊢
    exact Finset.mem_singleton.mpr ((hlist k).resolve_left hne)
  have hsum := Finset.sum_le_sum_of_subset (f := size s.heap.mem) hF
  rw [Finset.sum_singleton, hjoined.units] at hsum
  have hunits := hd.units
  rw [hL, Finset.sum_empty, hc.os] at hunits
  omega

end OrangeOs.Lib.MemManager
