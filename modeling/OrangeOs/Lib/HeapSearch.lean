import OrangeOs.Lib.HeapList

/-! # The search for a free block

The search goes once through the list. If no block is large enough the heap grows, and the new
block, which may have become part of a block next to it, is found within one more lap.
-/

namespace OrangeOs.Lib

open Memory

namespace Header

variable {m m' : Memory} {a b n : ℕ}

/-- A header that keeps its bytes keeps its members. -/
theorem fields_congr (h : Same m m' (Range a 24)) :
    next m' a = next m a ∧ size m' a = size m a ∧ data m' a = data m a := by
  refine ⟨h.load_eq fun i hi hi' => ⟨hi, hi'.trans_le ?_⟩,
    h.load_eq fun i hi hi' => ⟨?_, hi'.trans_le ?_⟩,
    h.load_eq fun i hi hi' => ⟨?_, hi'.trans_le ?_⟩⟩ <;> omega

theorem makeHeader_fields (hab : b = a ∨ Apart a b) (hn : n < 2 ^ 32) :
    next (makeHeader m a n) b = next m b ∧
      size (makeHeader m a n) b = (if b = a then n else size m b) ∧
      data (makeHeader m a n) b = if b = a then after a 1 else data m b := by
  have hlt : after a 1 < 2 ^ 64 := Nat.mod_lt _ (by decide)
  refine ⟨?_, ?_, ?_⟩ <;> unfold makeHeader
  · rw [next_setData hab, next_setSize hab]
  · rw [size_setData hab, size_setSize hab hn]
  · rw [data_setData hab hlt, data_setSize hab]

end Header

namespace MemManager

open Header

variable {σ : Type} {sbrk : ℕ → σ → Memory → ℕ × σ × Memory} {h h' h'' : MemManager σ} {F : Finset ℕ}
  {unites g k p pre_p addr : ℕ} {log : List Event} {r : ℕ × MemManager σ × List Event}

/-! ## Growth -/

/-- The number of units that the heap grows by. -/
def growth (unites : ℕ) : ℕ := if unites < 3 * 4096 / 24 then 3 * 4096 / 24 else unites

theorem le_growth (unites : ℕ) : unites ≤ growth unites := by
  unfold growth
  split
  · next h => exact h.le
  · exact le_rfl

/-- The call of `sbrk` when the heap grows. -/
def sbrkCall (sbrk : ℕ → σ → Memory → ℕ × σ × Memory) (h : MemManager σ) (unites : ℕ) : ℕ × σ × Memory :=
  sbrk (growth unites * 24 % 2 ^ 32) h.os h.mem

/-- A new block at `addr` does not touch the headers on the list, and the heap with it is not too
large. -/
structure Fresh (F : Finset ℕ) (m m' : Memory) (addr unites : ℕ) : Prop where
  apart : ∀ a ∈ F, Apart addr a
  same : ∀ a ∈ F, Same m m' (Range a 24)
  lt : addr < 2 ^ 64
  total : ∑ a ∈ F, size m a + unites < 2 ^ 32

/-- The free list of the heap runs through the blocks of `F` in order, and they fit in 32 bits. -/
structure FreeList (F : Finset ℕ) (h : MemManager σ) : Prop where
  circle : Circle F (next h.mem)
  apart : ∀ a ∈ F, ∀ b ∈ F, a ≠ b → Apart a b
  base : h.base ∈ F
  free_list : h.free_list ∈ F
  total : ∑ a ∈ F, size h.mem a < 2 ^ 32

theorem Fresh.notMem {m m' : Memory} (hf : Fresh F m m' addr k) : addr ∉ F := by
  intro hm
  rcases hf.apart addr hm with h | h <;> exact absurd h (by omega)

/-- The list with the new block. -/
theorem Fresh.listed {m' : Memory} (hF : FreeList F h) (hf : Fresh F h.mem m' addr k) :
    Listed F (makeHeader m' addr k) addr ∧ size (makeHeader m' addr k) addr = k := by
  have hk : k < 2 ^ 32 := (Nat.le_add_left ..).trans_lt hf.total
  have hfield : ∀ a ∈ F, _ := fun a ha => makeHeader_fields (m := m') (.inr (hf.apart a ha)) hk
  have hsize : size (makeHeader m' addr k) addr = k :=
    (makeHeader_fields (.inl rfl) hk).2.1.trans (if_pos rfl)
  refine ⟨⟨hF.circle.congr fun a ha => ?_, ?_, hf.notMem, hf.lt, ?_⟩, hsize⟩
  · rw [(hfield a ha).1, (fields_congr (hf.same a ha)).1]
  · intro a ha b hb hne
    rcases Finset.mem_insert.mp ha with rfl | haF <;> rcases Finset.mem_insert.mp hb with rfl | hbF
    · exact absurd rfl hne
    · exact hf.apart b hbF
    · exact (hf.apart a haF).symm
    · exact hF.apart a haF b hbF hne
  · have hsum : ∑ a ∈ F, size (makeHeader m' addr k) a = ∑ a ∈ F, size h.mem a := by
      refine Finset.sum_congr rfl fun a ha => ?_
      have hne : a ≠ addr := fun he => hf.notMem (he ▸ ha)
      rw [(hfield a ha).2.1, if_neg hne, (fields_congr (hf.same a ha)).2.1]
    rw [Finset.sum_insert hf.notMem, hsize, hsum, Nat.add_comm]
    exact hf.total

/-- The heap with the new block, before `FreeBlock` takes it. -/
def supplied (sbrk : ℕ → σ → Memory → ℕ × σ × Memory) (h : MemManager σ) (unites : ℕ) : MemManager σ :=
  { h with
    mem := makeHeader (sbrkCall sbrk h unites).2.2 (sbrkCall sbrk h unites).1 (growth unites)
    os := (sbrkCall sbrk h unites).2.1 }

theorem growHeader_eq (fuel : ℕ) :
    growHeader sbrk h fuel unites =
      if (sbrkCall sbrk h unites).1 = 0 then
        some (false, { h with mem := (sbrkCall sbrk h unites).2.2, os := (sbrkCall sbrk h unites).2.1 })
      else (freeBlock (supplied sbrk h unites) fuel (sbrkCall sbrk h unites).1).map
        fun h => (true, h) := by
  by_cases h0 : (sbrkCall sbrk h unites).1 = 0
  · rw [if_pos h0]
    exact if_pos h0
  · rw [if_neg h0, Option.map_eq_bind]
    exact if_neg h0

/-- After `FreeBlock` the list is in order, and some block on it is as large as the new one. -/
theorem freeBlock_fits {block : ℕ} (hL : Listed F h.mem block) (hlist : h.free_list ∈ F) :
    ∃ h' : MemManager σ, ∃ G : Finset ℕ, (∀ fuel, F.card ≤ fuel → freeBlock h fuel block = some h') ∧
      Circle G (next h'.mem) ∧ h'.free_list ∈ G ∧ G.card ≤ F.card + 1 ∧
      ∃ c ∈ G, size h.mem block ≤ size h'.mem c := by
  obtain ⟨g, hg, hplace, hfree⟩ := freeBlock_spec hL hlist
  refine ⟨{ h with mem := Listed.link h.mem g block, free_list := g }, linked F h.mem g block, hfree, ?_,
    hL.pred_mem_linked hg, Listed.card_linked_le, ?_⟩ <;> dsimp only
  · exact hL.circle_linked hg hplace
  · exact hL.exists_fits hg

/-- `GrowHeader` ends, and then some block on the list is as large as the new one. -/
theorem growHeader_grown (hF : FreeList F h) (h0 : (sbrkCall sbrk h unites).1 ≠ 0)
    (hf : Fresh F h.mem (sbrkCall sbrk h unites).2.2 (sbrkCall sbrk h unites).1 (growth unites)) :
    ∃ h' : MemManager σ, ∃ G : Finset ℕ,
      (∀ fuel, F.card ≤ fuel → growHeader sbrk h fuel unites = some (true, h')) ∧
      Circle G (next h'.mem) ∧ h'.free_list ∈ G ∧ G.card ≤ F.card + 1 ∧
      ∃ c ∈ G, unites ≤ size h'.mem c := by
  obtain ⟨hL, hsize⟩ := Fresh.listed hF hf
  obtain ⟨h', G, hfree, hcircle, hlist, hcard, c, hc, hfit⟩ :=
    freeBlock_fits (h := supplied sbrk h unites) hL hF.free_list
  refine ⟨h', G, fun fuel hfuel => ?_, hcircle, hlist, hcard, c, hc,
    (le_growth unites).trans (hsize.ge.trans hfit)⟩
  rw [growHeader_eq, if_neg h0, hfree fuel hfuel]
  rfl

/-! ## More turns change nothing -/

theorem freeSearch_mono {m : Memory} {block fuel fuel' q : ℕ} (hr : freeSearch m block fuel p = some q)
    (hle : fuel ≤ fuel') : freeSearch m block fuel' p = some q := by
  induction fuel generalizing p fuel' with
  | zero => cases hr
  | succ k ih =>
    obtain ⟨k', rfl⟩ := Nat.exists_eq_succ_of_ne_zero (Nat.ne_zero_of_lt hle)
    rw [freeSearch] at hr ⊢
    split at hr
    · next h₁ => rwa [if_pos h₁]
    · next h₁ =>
      rw [if_neg h₁]
      split at hr
      · next h₂ => rwa [if_pos h₂]
      · next h₂ =>
        rw [if_neg h₂]
        exact ih hr (Nat.le_of_succ_le_succ hle)

theorem freeBlock_mono {block fuel fuel' : ℕ} (hr : freeBlock h fuel block = some h')
    (hle : fuel ≤ fuel') :
    freeBlock h fuel' block = some h' := by
  obtain ⟨q, hq, hr⟩ := Option.bind_eq_some_iff.mp hr
  exact Option.bind_eq_some_iff.mpr ⟨q, freeSearch_mono hq hle, hr⟩

theorem growHeader_mono {fuel fuel' : ℕ} {b : Bool} (hr : growHeader sbrk h fuel unites = some (b, h'))
    (hle : fuel ≤ fuel') : growHeader sbrk h fuel' unites = some (b, h') := by
  rw [growHeader_eq] at hr ⊢
  split at hr
  · next h0 => rwa [if_pos h0]
  · next h0 =>
    rw [if_neg h0]
    obtain ⟨h₁, hfree, heq⟩ := Option.map_eq_some_iff.mp hr
    rw [freeBlock_mono hfree hle, Option.map_some, heq]

theorem findFrom_mono {grow grow' fuel fuel' : ℕ}
    (hr : findFrom sbrk unites grow fuel h pre_p p = some r)
    (hle : fuel ≤ fuel') (hgrow : grow ≤ grow') :
    findFrom sbrk unites grow' fuel' h pre_p p = some r := by
  induction fuel generalizing h pre_p p r fuel' with
  | zero => cases hr
  | succ k ih =>
    obtain ⟨k', rfl⟩ := Nat.exists_eq_succ_of_ne_zero (Nat.ne_zero_of_lt hle)
    have hle := Nat.le_of_succ_le_succ hle
    rw [findFrom] at hr ⊢
    by_cases hfit : unites ≤ size h.mem p
    · rwa [if_pos hfit] at hr ⊢
    · rw [if_neg hfit] at hr ⊢
      by_cases hlast : p = h.free_list
      · rw [if_pos hlast] at hr ⊢
        obtain ⟨⟨grown, h₁⟩, hg, hr⟩ := Option.bind_eq_some_iff.mp hr
        refine Option.bind_eq_some_iff.mpr ⟨(grown, h₁), growHeader_mono hg hgrow, ?_⟩
        cases grown with
        | false => exact hr
        | true =>
          obtain ⟨r₁, hfind, hr⟩ := Option.bind_eq_some_iff.mp hr
          exact Option.bind_eq_some_iff.mpr ⟨r₁, ih hfind hle, hr⟩
      · rw [if_neg hlast] at hr ⊢
        obtain ⟨r₁, hfind, hr⟩ := Option.bind_eq_some_iff.mp hr
        exact Option.bind_eq_some_iff.mpr ⟨r₁, ih hfind hle, hr⟩

theorem findFirstFitBlock_mono {fuel fuel' : ℕ} (hr : findFirstFitBlock sbrk h fuel unites = some r)
    (hle : fuel ≤ fuel') : findFirstFitBlock sbrk h fuel' unites = some r :=
  findFrom_mono hr hle hle

/-! ## A lap -/

/-- With more than `k` turns, and `g` for a search of `GrowHeader`, the search ends with `r`. -/
def Ends (sbrk : ℕ → σ → Memory → ℕ × σ × Memory) (unites g : ℕ) (h : MemManager σ) (pre_p p k : ℕ)
    (r : ℕ × MemManager σ × List Event) : Prop :=
  ∀ fuel grow, k < fuel → g ≤ grow → findFrom sbrk unites grow fuel h pre_p p = some r

theorem ends_fits (hfit : unites ≤ size h.mem p) (g pre_p : ℕ) :
    Ends sbrk unites g h pre_p p 0
      ((takeBlock h unites pre_p p).1, (takeBlock h unites pre_p p).2, [.look p]) := by
  intro fuel grow hk hg
  obtain ⟨fuel, rfl⟩ := Nat.exists_eq_succ_of_ne_zero hk.ne'
  rw [findFrom, if_pos hfit]

theorem ends_next (hsmall : size h.mem p < unites) (hne : p ≠ h.free_list) (pre_p : ℕ)
    (hr : Ends sbrk unites g h p (next h.mem p) k r) :
    Ends sbrk unites g h pre_p p (k + 1) (r.1, r.2.1, .look p :: r.2.2) := by
  intro fuel grow hk hg
  obtain ⟨fuel, rfl⟩ := Nat.exists_eq_succ_of_ne_zero (Nat.ne_zero_of_lt hk)
  rw [findFrom, if_neg hsmall.not_ge, if_neg hne, hr fuel grow (Nat.lt_of_succ_lt_succ hk) hg]
  rfl

theorem ends_refused (hsmall : size h.mem h.free_list < unites) (pre_p : ℕ)
    (hgrow : ∀ fuel, g ≤ fuel → growHeader sbrk h fuel unites = some (false, h')) :
    Ends sbrk unites g h pre_p h.free_list 0 (0, h', [.look h.free_list, .grow]) := by
  intro fuel grow hk hg
  obtain ⟨fuel, rfl⟩ := Nat.exists_eq_succ_of_ne_zero hk.ne'
  rw [findFrom, if_neg hsmall.not_ge, if_pos rfl, hgrow grow hg]
  rfl

theorem ends_grown (hsmall : size h.mem h.free_list < unites) (pre_p : ℕ)
    (hgrow : ∀ fuel, g ≤ fuel → growHeader sbrk h fuel unites = some (true, h'))
    (hr : Ends sbrk unites g h' h'.free_list (next h'.mem h'.free_list) k r) :
    Ends sbrk unites g h pre_p h.free_list (k + 1)
      (r.1, r.2.1, .look h.free_list :: .grow :: r.2.2) := by
  intro fuel grow hk hg
  obtain ⟨fuel, rfl⟩ := Nat.exists_eq_succ_of_ne_zero (Nat.ne_zero_of_lt hk)
  rw [findFrom, if_neg hsmall.not_ge, if_pos rfl, hgrow grow hg]
  rw [Option.bind_eq_bind, Option.bind_some]
  dsimp only
  rw [if_pos rfl, hr fuel grow (Nat.lt_of_succ_lt_succ hk) hg]
  rfl

theorem Ends.mono {k' : ℕ} (hr : Ends sbrk unites g h pre_p p k r) (hk : k ≤ k') :
    Ends sbrk unites g h pre_p p k' r :=
  fun fuel grow hfuel => hr fuel grow (hk.trans_lt hfuel)

theorem Ends.find (hr : Ends sbrk unites F.card h h.free_list (next h.mem h.free_list) k r)
    (hk : k < 2 * F.card + 3) (fuel : ℕ) (hfuel : 2 * F.card + 3 ≤ fuel) :
    findFirstFitBlock sbrk h fuel unites = some r :=
  hr fuel fuel (hk.trans_le hfuel) (le_trans (by omega) hfuel)

/-- At most `n` looks, all of them at blocks of `F`. -/
def Laps (F : Finset ℕ) (n : ℕ) (log : List Event) : Prop :=
  log.length ≤ n ∧ ∀ e ∈ log, ∃ p ∈ F, e = .look p

theorem Laps.cons (hl : Laps F k log) (hp : p ∈ F) : Laps F (k + 1) (.look p :: log) :=
  ⟨Nat.succ_le_succ hl.1, List.forall_mem_cons.mpr ⟨⟨p, hp, rfl⟩, hl.2⟩⟩

theorem Laps.mono {n : ℕ} (hl : Laps F k log) (hk : k ≤ n) : Laps F n log := ⟨hl.1.trans hk, hl.2⟩

/-- The search ends at a block of `F` that is large enough. -/
def Takes (F : Finset ℕ) (h : MemManager σ) (unites : ℕ) (r : ℕ × MemManager σ) : Prop :=
  ∃ p ∈ F, next h.mem p ∈ F ∧ unites ≤ size h.mem (next h.mem p) ∧
  r = takeBlock h unites p (next h.mem p)

variable (sbrk)

/-- A search that meets a block that is large enough takes one. -/
theorem lap_fits (hF : Circle F (next h.mem)) (hlist : h.free_list ∈ F) (g : ℕ) (hp : p ∈ F)
    (hfit : ∃ c ∈ insert p (upTo F p h.free_list), unites ≤ size h.mem c) (hpre : pre_p ∈ F)
    (hpp : next h.mem pre_p = p) :
    ∃ r log, Takes F h unites r ∧ Laps F ((upTo F p h.free_list).card + 1) log ∧
      Ends sbrk unites g h pre_p p (upTo F p h.free_list).card (r.1, r.2, log) := by
  -- the block that the search is at is large enough
  have hhere : ∀ q, q ∈ F → unites ≤ size h.mem q → ∀ pre_q, pre_q ∈ F → next h.mem pre_q = q →
      ∃ r log, Takes F h unites r ∧ Laps F ((upTo F q h.free_list).card + 1) log ∧
        Ends sbrk unites g h pre_q q (upTo F q h.free_list).card (r.1, r.2, log) := by
    intro q hq hle pre_q hpre_q hpq
    refine ⟨takeBlock h unites pre_q q, [.look q], ⟨pre_q, hpre_q, hpq ▸ hq, hpq ▸ hle, hpq ▸ rfl⟩,
      ⟨Nat.le_add_left .., ?_⟩, (ends_fits hle g pre_q).mono (Nat.zero_le _)⟩
    exact List.forall_mem_singleton.mpr ⟨q, hq, rfl⟩
  refine cyclic_induction (P := fun a => (∃ c ∈ insert a (upTo F a h.free_list), unites ≤ size h.mem c) →
    ∀ pre_a, pre_a ∈ F → next h.mem pre_a = a → ∃ r log, Takes F h unites r ∧
      Laps F ((upTo F a h.free_list).card + 1) log ∧
      Ends sbrk unites g h pre_a a (upTo F a h.free_list).card (r.1, r.2, log))
    hF hlist ?_ ?_ hp hfit pre_p hpre hpp
  · rintro ⟨c, hc, hle⟩
    rw [upTo_self, Finset.mem_insert, or_iff_left (Finset.notMem_empty c)] at hc
    exact hhere _ hlist (hc ▸ hle)
  · rintro a ha hne ih ⟨c, hc, hle⟩ pre_a hpre_a hpa
    by_cases hfit : unites ≤ size h.mem a
    · exact hhere a ha hfit pre_a hpre_a hpa
    · obtain ⟨hnot, heq⟩ := upTo_eq (hF a ha) hlist hne
      have hca : c ≠ a := fun he => hfit (he ▸ hle)
      have hc' := (Finset.mem_insert.mp hc).resolve_left hca
      obtain ⟨r, log, htake, hlog, hends⟩ := ih ⟨c, heq ▸ hc', hle⟩ a ha rfl
      rw [heq, Finset.card_insert_of_notMem hnot]
      exact ⟨r, .look a :: log, htake, hlog.cons ha, ends_next (Nat.lt_of_not_le hfit) hne pre_a hends⟩

/-- A search that meets no such block comes to the end of the lap. -/
theorem lap_none (hF : Circle F (next h.mem)) (hlist : h.free_list ∈ F) (hp : p ∈ F)
    (hsmall : ∀ c ∈ insert p (upTo F p h.free_list), size h.mem c < unites) :
    ∃ log, Laps F (upTo F p h.free_list).card log ∧ ∀ g k r,
      (∀ pre_p, Ends sbrk unites g h pre_p h.free_list k r) →
      ∀ pre_p, Ends sbrk unites g h pre_p p (k + (upTo F p h.free_list).card)
      (r.1, r.2.1, log ++ r.2.2) := by
  refine cyclic_induction (P := fun a => (∀ c ∈ insert a (upTo F a h.free_list), size h.mem c < unites) →
    ∃ log, Laps F (upTo F a h.free_list).card log ∧ ∀ g k r,
      (∀ pre_p, Ends sbrk unites g h pre_p h.free_list k r) →
      ∀ pre_a, Ends sbrk unites g h pre_a a (k + (upTo F a h.free_list).card) (r.1, r.2.1, log ++ r.2.2))
    hF hlist ?_ ?_ hp hsmall
  · intro _
    refine ⟨[], ⟨Nat.zero_le _, fun e he => absurd he List.not_mem_nil⟩, fun g k r hr pre_a => ?_⟩
    exact (hr pre_a).mono (Nat.le_add_right ..)
  · intro a ha hne ih hsmall
    obtain ⟨hnot, heq⟩ := upTo_eq (hF a ha) hlist hne
    obtain ⟨log, hlog, hends⟩ := ih fun c hc => hsmall c (Finset.mem_insert_of_mem (heq ▸ hc))
    rw [heq, Finset.card_insert_of_notMem hnot]
    refine ⟨.look a :: log, hlog.cons ha, fun g k r hr pre_a => ?_⟩
    exact ends_next (hsmall a (Finset.mem_insert_self ..)) hne pre_a (hends g k r hr a)

/-- A lap over the whole list takes a block if there is one that is large enough. -/
theorem search_fits (hF : Circle F (next h.mem)) (hlist : h.free_list ∈ F) (g : ℕ)
    (hfit : ∃ c ∈ F, unites ≤ size h.mem c) :
    ∃ r log, Takes F h unites r ∧ Laps F F.card log ∧
      Ends sbrk unites g h h.free_list (next h.mem h.free_list) F.card (r.1, r.2, log) := by
  have hfirst := hF _ hlist
  have hcard := card_upTo_lt (f := h.free_list) hfirst.mem
  rw [← upTo_follows hfirst hlist] at hfit
  obtain ⟨r, log, htake, hlog, hends⟩ := lap_fits sbrk hF hlist g hfirst.mem hfit hlist rfl
  exact ⟨r, log, htake, hlog.mono hcard, hends.mono hcard.le⟩

/-- Without one it comes to the head of the list. -/
theorem search_none (hF : Circle F (next h.mem)) (hlist : h.free_list ∈ F)
    (hsmall : ∀ c ∈ F, size h.mem c < unites) :
    ∃ lap, Laps F F.card (lap ++ [.look h.free_list]) ∧ ∀ g k r,
      (∀ pre_p, Ends sbrk unites g h pre_p h.free_list k r) →
      Ends sbrk unites g h h.free_list (next h.mem h.free_list) (k + F.card)
        (r.1, r.2.1, lap ++ r.2.2) := by
  have hfirst := hF _ hlist
  have hcard := card_upTo_lt (f := h.free_list) hfirst.mem
  rw [← upTo_follows hfirst hlist] at hsmall
  obtain ⟨lap, hlap, hends⟩ := lap_none sbrk hF hlist hfirst.mem hsmall
  refine ⟨lap, ⟨?_, fun e he => ?_⟩,
    fun g k r hr => (hends g k r hr _).mono (Nat.add_le_add_left hcard.le k)⟩
  · rw [List.length_append]
    exact hlap.1.trans_lt hcard
  · rcases List.mem_append.mp he with he | he
    · exact hlap.2 e he
    · exact ⟨_, hlist, List.mem_singleton.mp he⟩

/-- The search takes a block without growth. -/
theorem find_fits (hF : Circle F (next h.mem)) (hlist : h.free_list ∈ F)
    (hfit : ∃ c ∈ F, unites ≤ size h.mem c) :
    ∃ r log, Takes F h unites r ∧ Laps F F.card log ∧ ∀ fuel, 2 * F.card + 3 ≤ fuel →
      findFirstFitBlock sbrk h fuel unites = some (r.1, r.2, log) := by
  obtain ⟨r, log, htake, hlog, hends⟩ := search_fits sbrk hF hlist F.card hfit
  exact ⟨r, log, htake, hlog, hends.find (by omega)⟩

/-- The search ends without a block when the heap does not grow. -/
theorem find_refused (hF : Circle F (next h.mem)) (hlist : h.free_list ∈ F)
    (hsmall : ∀ c ∈ F, size h.mem c < unites)
    (hgrow : ∀ fuel, F.card ≤ fuel → growHeader sbrk h fuel unites = some (false, h')) :
    ∃ lap, Laps F F.card lap ∧ ∀ fuel, 2 * F.card + 3 ≤ fuel →
      findFirstFitBlock sbrk h fuel unites = some (0, h', lap ++ [.grow]) := by
  obtain ⟨lap, hlap, hends⟩ := search_none sbrk hF hlist hsmall
  refine ⟨_, hlap, ?_⟩
  rw [List.append_assoc]
  exact (hends F.card 0 _ fun pre_p => ends_refused (hsmall _ hlist) pre_p hgrow).find (by omega)

/-- The search takes a block after growth. -/
theorem find_grown {G : Finset ℕ} (hF : Circle F (next h.mem)) (hlist : h.free_list ∈ F)
    (hsmall : ∀ c ∈ F, size h.mem c < unites)
    (hgrow : ∀ fuel, F.card ≤ fuel → growHeader sbrk h fuel unites = some (true, h'))
    (hG : Circle G (next h'.mem)) (hlist' : h'.free_list ∈ G) (hcard : G.card ≤ F.card + 1)
    (hfit : ∃ c ∈ G, unites ≤ size h'.mem c) :
    ∃ r lap lap', Takes G h' unites r ∧ Laps F F.card lap ∧ Laps G G.card lap' ∧
      ∀ fuel, 2 * F.card + 3 ≤ fuel →
        findFirstFitBlock sbrk h fuel unites = some (r.1, r.2, lap ++ .grow :: lap') := by
  obtain ⟨lap, hlap, hends⟩ := search_none sbrk hF hlist hsmall
  obtain ⟨r, lap', htake, hlap', hr⟩ := search_fits sbrk hG hlist' F.card hfit
  refine ⟨r, _, lap', htake, hlap, hlap', ?_⟩
  rw [List.append_assoc]
  exact (hends F.card _ _ fun pre_p => ends_grown (hsmall _ hlist) pre_p hgrow hr).find (by omega)

/-- Both searches end. That of `FreeBlock` finds the one gap for the block within a lap. The other
one takes a block within a lap, or the heap grows once; when it does, a block is taken within one
more lap. -/
theorem searches_end (hF : FreeList F h) :
    (∀ block, block ∉ F → ∃ g ∈ F, Follows (insert block F) g block ∧
      (∀ g' ∈ F, Follows (insert block F) g' block → g' = g) ∧
      ∀ fuel, F.card ≤ fuel → freeSearch h.mem block fuel h.free_list = some g) ∧
    ∀ unites, ((∀ c ∈ F, size h.mem c < unites) → (sbrkCall sbrk h unites).1 ≠ 0 →
        Fresh F h.mem (sbrkCall sbrk h unites).2.2 (sbrkCall sbrk h unites).1 (growth unites)) →
      ∃ addr h' log,
        (∀ fuel, 2 * F.card + 3 ≤ fuel → findFirstFitBlock sbrk h fuel unites = some (addr, h', log)) ∧
        ((Laps F F.card log ∧ Takes F h unites (addr, h')) ∨
          (∀ c ∈ F, size h.mem c < unites) ∧ ∃ lap, Laps F F.card lap ∧
            (((sbrkCall sbrk h unites).1 = 0 ∧ addr = 0 ∧ log = lap ++ [.grow]) ∨
              (sbrkCall sbrk h unites).1 ≠ 0 ∧ ∃ h₁ : MemManager σ, ∃ G : Finset ℕ, ∃ lap',
                (∀ fuel, F.card ≤ fuel → growHeader sbrk h fuel unites = some (true, h₁)) ∧
                Circle G (next h₁.mem) ∧ Laps G G.card lap' ∧ Takes G h₁ unites (addr, h') ∧
                log = lap ++ .grow :: lap')) := by
  refine ⟨fun block hb => freeSearch_spec hF.circle hb hF.free_list, fun unites hsbrk => ?_⟩
  by_cases hfit : ∃ c ∈ F, unites ≤ size h.mem c
  · obtain ⟨r, log, htake, hlog, hfind⟩ := find_fits sbrk hF.circle hF.free_list hfit
    exact ⟨r.1, r.2, log, hfind, .inl ⟨hlog, htake⟩⟩
  · have hsmall : ∀ c ∈ F, size h.mem c < unites := fun c hc =>
      Nat.lt_of_not_le fun hle => hfit ⟨c, hc, hle⟩
    by_cases h0 : (sbrkCall sbrk h unites).1 = 0
    · obtain ⟨lap, hlap, hfind⟩ := find_refused sbrk hF.circle hF.free_list hsmall
        fun fuel _ => (growHeader_eq fuel).trans (if_pos h0)
      exact ⟨_, _, _, hfind, .inr ⟨hsmall, lap, hlap, .inl ⟨h0, rfl, rfl⟩⟩⟩
    · obtain ⟨h₁, G, hgrow, hG, hlist, hcard, hfit⟩ := growHeader_grown hF h0 (hsbrk hsmall h0)
      obtain ⟨r, lap, lap', htake, hlap, hlap', hfind⟩ :=
        find_grown sbrk hF.circle hF.free_list hsmall hgrow hG hlist hcard hfit
      exact ⟨r.1, r.2, _, hfind,
        .inr ⟨hsmall, lap, hlap, .inr ⟨h0, h₁, G, lap', hgrow, hG, hlap', htake, rfl⟩⟩⟩

/-- The first request of a process. -/
theorem searches_end_construct :
    ∃ addr h' log, ∀ fuel, 5 ≤ fuel → findFirstFitBlock (fun _ os m => (4096, os, m))
      (construct 64 () fun _ => 0) fuel 2 = some (addr, h', log) := by
  have hn : next (construct 64 () fun _ => 0).mem 64 = 64 := by decide
  have hs : size (construct 64 () fun _ => 0).mem 64 = 1 := by decide
  have hF : FreeList {64} (construct 64 () fun _ => 0) := by
    refine ⟨Circle.singleton hn, fun a ha b hb hne => ?_, Finset.mem_singleton_self _,
      Finset.mem_singleton_self _, ?_⟩
    · exact absurd ((Finset.mem_singleton.mp ha).trans (Finset.mem_singleton.mp hb).symm) hne
    · rw [Finset.sum_singleton, hs]
      decide
  have hfresh : Fresh {64} (construct 64 () fun _ => 0).mem
      (construct 64 () fun _ => 0).mem 4096 512 := by
    refine ⟨fun a ha => ?_, fun _ _ => Same.refl _ _, by decide, ?_⟩
    · rw [Finset.mem_singleton.mp ha]
      exact .inr (by decide)
    · rw [Finset.sum_singleton, hs]
      decide
  obtain ⟨addr, h', log, hfind, -⟩ :=
    (searches_end (fun _ os m => (4096, os, m)) hF).2 2 fun _ _ => hfresh
  exact ⟨addr, h', log, hfind⟩

end MemManager

end OrangeOs.Lib
