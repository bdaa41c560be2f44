import Mathlib.Data.Finset.Max
import Mathlib.Tactic.Common

/-! # Circular order

The elements of a finite set in ascending order, with the least element after the greatest one. A
function that takes every element to its successor runs through the set in one circle.
-/

namespace OrangeOs

variable {α : Type*} [LinearOrder α] {F G : Finset α} {a b c f p q r x : α} {next : α → α}

/-- `b` is the next element of `F` after `a`: the least one above `a`, or the least of all when `a` is
the greatest. -/
def Follows (F : Finset α) (a b : α) : Prop :=
  b ∈ F ∧ ((a < b ∧ ∀ c ∈ F, c ≤ a ∨ b ≤ c) ∨ ∀ c ∈ F, b ≤ c ∧ c ≤ a)

namespace Follows

theorem mem (h : Follows F a b) : b ∈ F := h.1

/-- A smaller set that keeps the successor. -/
theorem sub (h : Follows F a b) (hb : b ∈ G) (hG : ∀ c ∈ G, c ∈ F) : Follows G a b :=
  ⟨hb, h.2.imp (fun hn => ⟨hn.1, fun c hc => hn.2 c (hG c hc)⟩) fun hw c hc => hw c (hG c hc)⟩

theorem unique (h : Follows F a b) (h' : Follows F a c) : b = c := by
  rcases h.2 with ⟨hab, hb⟩ | hb <;> rcases h'.2 with ⟨hac, hc⟩ | hc
  · exact le_antisymm ((hb c h'.1).resolve_left hac.not_ge) ((hc b h.1).resolve_left hab.not_ge)
  · exact absurd hab (hc b h.1).2.not_gt
  · exact absurd hac (hb c h'.1).2.not_gt
  · exact le_antisymm (hb c h'.1).1 (hc b h.1).1

/-- Only an element that is alone follows itself. -/
theorem eq_of_self (h : Follows F a a) (hc : c ∈ F) : c = a := by
  rcases h.2 with ⟨haa, -⟩ | h
  · exact absurd haa (lt_irrefl a)
  · exact le_antisymm (h c hc).2 (h c hc).1

/-- The element after one that is left out. -/
theorem erase (h : Follows F p q) (h' : Follows F q r) (hne : q ≠ p) (hp : p ∈ F) :
    Follows (F.erase q) p r := by
  have hrq : r ≠ q := fun he => hne (eq_of_self (he ▸ h') hp).symm
  refine ⟨Finset.mem_erase.mpr ⟨hrq, h'.1⟩, ?_⟩
  rcases h.2 with ⟨hpq, hq⟩ | hq <;> rcases h'.2 with ⟨hqr, hr⟩ | hr
  · refine .inl ⟨hpq.trans hqr, fun c hc => ?_⟩
    obtain ⟨hcq, hc⟩ := Finset.mem_erase.mp hc
    exact (hq c hc).imp_right fun h => ((hr c hc).resolve_left fun h' => hcq (le_antisymm h' h))
  · refine .inr fun c hc => ?_
    obtain ⟨hcq, hc⟩ := Finset.mem_erase.mp hc
    exact ⟨(hr c hc).1, (hq c hc).resolve_right fun h => hcq (le_antisymm (hr c hc).2 h)⟩
  · refine .inr fun c hc => ?_
    obtain ⟨hcq, hc⟩ := Finset.mem_erase.mp hc
    exact ⟨(hr c hc).resolve_left fun h => hcq (le_antisymm h (hq c hc).1), (hq c hc).2⟩
  · exact absurd (le_antisymm (hr p hp).2 (hq p hp).1) hne.symm

/-- A new element goes before the successor of its predecessor. -/
theorem insert_right (h : Follows F p q) (hx : Follows (insert x F) p x) (hp : p ∈ F) (hxF : x ∉ F) :
    Follows (insert x F) x q := by
  have hne : ∀ c ∈ F, c ≠ x := fun c hc he => hxF (he ▸ hc)
  refine ⟨Finset.mem_insert_of_mem h.1, ?_⟩
  rcases hx.2 with ⟨hpx, hx⟩ | hx <;> rcases h.2 with ⟨hpq, hq⟩ | hq
  · have hxq : x ≤ q := (hx q (Finset.mem_insert_of_mem h.1)).resolve_left hpq.not_ge
    refine .inl ⟨lt_of_le_of_ne hxq (hne q h.1).symm, fun c hc => ?_⟩
    rcases Finset.mem_insert.mp hc with rfl | hc
    · exact .inl le_rfl
    · exact (hq c hc).imp_left fun h => h.trans hpx.le
  · refine .inr fun c hc => ?_
    rcases Finset.mem_insert.mp hc with rfl | hc
    · exact ⟨(hq p hp).1.trans hpx.le, le_rfl⟩
    · exact ⟨(hq c hc).1, (hq c hc).2.trans hpx.le⟩
  · exact absurd hpq (hx q (Finset.mem_insert_of_mem h.1)).2.not_gt
  · refine .inl ⟨lt_of_le_of_ne (hx q (Finset.mem_insert_of_mem h.1)).1 (hne q h.1).symm, fun c hc => ?_⟩
    rcases Finset.mem_insert.mp hc with rfl | hc
    · exact .inl le_rfl
    · exact .inr (hq c hc).1

/-- All other elements keep their successors. -/
theorem insert_of_ne (h : Follows F a b) (hx : Follows (insert x F) p x) (ha : a ∈ F) (hp : p ∈ F)
    (hne : a ≠ p) : Follows (insert x F) a b := by
  refine ⟨Finset.mem_insert_of_mem h.1, ?_⟩
  have hpx := fun c (hc : c ∈ F) => hx.2.imp (fun h => h.2 c (Finset.mem_insert_of_mem hc))
    fun h => h c (Finset.mem_insert_of_mem hc)
  rcases h.2 with ⟨hab, hb⟩ | hb
  · refine .inl ⟨hab, fun c hc => ?_⟩
    rcases Finset.mem_insert.mp hc with rfl | hc
    · -- the new element is not between the two
      rcases hx.2 with ⟨hpc, hx⟩ | hx
      · rcases hx a (Finset.mem_insert_of_mem ha) with hap | hca
        · have hpb : b ≤ p := (hb p hp).resolve_left fun h => hne (le_antisymm hap h)
          exact .inr (hpb.trans hpc.le)
        · exact .inl hca
      · exact .inl (hx a (Finset.mem_insert_of_mem ha)).1
    · exact hb c hc
  · refine .inr fun c hc => ?_
    rcases Finset.mem_insert.mp hc with rfl | hc
    · have hpa : p < a := lt_of_le_of_ne (hb p hp).2 (Ne.symm hne)
      rcases hx.2 with ⟨hpc, hx⟩ | hx
      · refine ⟨(hb p hp).1.trans hpc.le, ?_⟩
        exact (hx a (Finset.mem_insert_of_mem ha)).resolve_left hpa.not_ge
      · exact absurd (hx a (Finset.mem_insert_of_mem ha)).2 hpa.not_ge
    · exact hb c hc

/-- The test for the place of a new element. -/
theorem insert_iff (h : Follows F a b) (hx : x ∉ F) :
    Follows (insert x F) a x ↔ (a < x ∧ x < b) ∨ (b ≤ a ∧ (a < x ∨ x < b)) := by
  have hne : ∀ c ∈ F, c ≠ x := fun c hc he => hx (he ▸ hc)
  have hlt : ∀ c ∈ F, c ≤ x → c < x := fun c hc hle => lt_of_le_of_ne hle (hne c hc)
  have hgt : ∀ c ∈ F, x ≤ c → x < c := fun c hc hle => lt_of_le_of_ne hle (hne c hc).symm
  constructor
  · rintro ⟨-, ⟨hax, hx'⟩ | hx'⟩
    · rcases hx' b (Finset.mem_insert_of_mem h.1) with hba | hxb
      · exact .inr ⟨hba, .inl hax⟩
      · exact .inl ⟨hax, hgt b h.1 hxb⟩
    · have hb := hx' b (Finset.mem_insert_of_mem h.1)
      exact .inr ⟨hb.2, .inr (hgt b h.1 hb.1)⟩
  · rintro (⟨hax, hxb⟩ | ⟨hba, hx'⟩)
    · refine ⟨Finset.mem_insert_self .., .inl ⟨hax, fun c hc => ?_⟩⟩
      rcases Finset.mem_insert.mp hc with rfl | hc
      · exact .inr le_rfl
      · rcases h.2 with ⟨-, hb⟩ | hb
        · exact (hb c hc).imp_right fun h => hxb.le.trans h
        · exact .inl (hb c hc).2
    · have hall : ∀ c ∈ F, b ≤ c ∧ c ≤ a := by
        rcases h.2 with ⟨hab, -⟩ | hb
        · exact absurd hab hba.not_gt
        · exact hb
      refine ⟨Finset.mem_insert_self .., ?_⟩
      rcases hx' with hax | hxb
      · refine .inl ⟨hax, fun c hc => ?_⟩
        rcases Finset.mem_insert.mp hc with rfl | hc
        · exact .inr le_rfl
        · exact .inl (hall c hc).2
      · refine .inr fun c hc => ?_
        rcases Finset.mem_insert.mp hc with rfl | hc
        · exact ⟨le_rfl, (hxb.trans_le hba).le⟩
        · exact ⟨(hxb.trans_le (hall c hc).1).le, (hall c hc).2⟩

end Follows

/-- A new element has a place. -/
theorem exists_follows_insert (hF : F.Nonempty) (x : α) : ∃ p ∈ F, Follows (insert x F) p x := by
  by_cases hlow : (F.filter (· < x)).Nonempty
  · obtain ⟨p, hp, hmax⟩ := (F.filter (· < x)).exists_max_image id hlow
    obtain ⟨hpF, hpx⟩ := Finset.mem_filter.mp hp
    refine ⟨p, hpF, Finset.mem_insert_self .., .inl ⟨hpx, fun c hc => ?_⟩⟩
    rcases Finset.mem_insert.mp hc with rfl | hc
    · exact .inr le_rfl
    · rcases lt_or_ge c x with hcx | hxc
      · exact .inl (hmax c (Finset.mem_filter.mpr ⟨hc, hcx⟩))
      · exact .inr hxc
  · have hge : ∀ c ∈ F, x ≤ c := fun c hc =>
      le_of_not_gt fun hcx => hlow ⟨c, Finset.mem_filter.mpr ⟨hc, hcx⟩⟩
    obtain ⟨p, hp, hmax⟩ := F.exists_max_image id hF
    refine ⟨p, hp, Finset.mem_insert_self .., .inr fun c hc => ?_⟩
    rcases Finset.mem_insert.mp hc with rfl | hc
    · exact ⟨le_rfl, hge p hp⟩
    · exact ⟨hge c hc, hmax c hc⟩

/-- Two elements have different successors. -/
theorem Follows.pred_unique (h : Follows F a q) (h' : Follows F p q) (ha : a ∈ F)
    (hp : p ∈ F) : a = p := by
  have hlt : ∀ a p, Follows F a q → Follows F p q → a ∈ F → p ∈ F → ¬ a < p := by
    intro a p h h' ha hp hap
    rcases h.2 with ⟨haq, hq⟩ | hall
    · have hqp : q ≤ p := (hq p hp).resolve_left hap.not_ge
      rcases h'.2 with ⟨hpq, -⟩ | hall
      · exact hpq.not_ge hqp
      · exact haq.not_ge (hall a ha).1
    · exact hap.not_ge (hall p hp).2
  exact le_antisymm (le_of_not_gt (hlt p a h' h hp ha)) (le_of_not_gt (hlt a p h h' ha hp))

/-- `next` takes every element to its successor. -/
def Circle (F : Finset α) (next : α → α) : Prop := ∀ a ∈ F, Follows F a (next a)

namespace Circle

variable {next' : α → α}

theorem singleton (h : next a = a) : Circle {a} next := by
  intro b hb
  obtain rfl := Finset.mem_singleton.mp hb
  refine ⟨by rw [h]; exact hb, .inr fun c hc => ?_⟩
  rw [Finset.mem_singleton.mp hc, h]
  exact ⟨le_rfl, le_rfl⟩

theorem congr (h : Circle F next) (hn : ∀ a ∈ F, next' a = next a) : Circle F next' := by
  intro a ha
  rw [hn a ha]
  exact h a ha

/-- A new element between `p` and its successor. -/
theorem insert (h : Circle F next) (hp : p ∈ F) (hx : x ∉ F) (hplace : Follows (insert x F) p x)
    (hnp : next' p = x) (hnx : next' x = next p) (hn : ∀ a ∈ F, a ≠ p → next' a = next a) :
    Circle (insert x F) next' := by
  intro a ha
  rcases Finset.mem_insert.mp ha with rfl | haF
  · rw [hnx]
    exact (h p hp).insert_right hplace hp hx
  · by_cases hap : a = p
    · rw [hap, hnp]
      exact hplace
    · rw [hn a haF hap]
      exact (h a haF).insert_of_ne hplace haF hp hap

/-- The successor of `p` is left out. -/
theorem erase (h : Circle F next) (hp : p ∈ F) (hq : next p = q) (hne : q ≠ p) (hnp : next' p = next q)
    (hn : ∀ a ∈ F, a ≠ p → a ≠ q → next' a = next a) : Circle (F.erase q) next' := by
  have hpq : Follows F p q := hq ▸ h p hp
  intro a ha
  obtain ⟨haq, haF⟩ := Finset.mem_erase.mp ha
  by_cases hap : a = p
  · rw [hap, hnp]
    exact hpq.erase (h q hpq.mem) hne hp
  · rw [hn a haF hap haq]
    have hnot : next a ≠ q := fun he => hap ((h a haF).pred_unique (he ▸ hpq) haF hp)
    refine (h a haF).sub (Finset.mem_erase.mpr ⟨hnot, (h a haF).mem⟩) fun c hc => ?_
    exact Finset.mem_of_mem_erase hc

end Circle

/-! ## Walks -/

/-- The elements after `a` up to `f`. -/
def upTo (F : Finset α) (a f : α) : Finset α :=
  F.filter fun c => if a ≤ f then a < c ∧ c ≤ f else a < c ∨ c ≤ f

theorem mem_upTo : c ∈ upTo F a f ↔ c ∈ F ∧ if a ≤ f then a < c ∧ c ≤ f else a < c ∨ c ≤ f :=
  Finset.mem_filter

theorem upTo_self (F : Finset α) (a : α) : upTo F a a = ∅ := by
  refine Finset.filter_false_of_mem fun c _ h => ?_
  rw [if_pos le_rfl] at h
  exact h.1.not_ge h.2

/-- A walk does not come back to where it starts. -/
theorem card_upTo_lt (ha : a ∈ F) : (upTo F a f).card < F.card := by
  refine Finset.card_lt_card (Finset.filter_ssubset.mpr ⟨a, ha, ?_⟩)
  split
  · exact fun h => lt_irrefl a h.1
  · next hle => exact fun h => h.elim (lt_irrefl a) hle

/-- A step of a walk to `f`. -/
theorem upTo_eq (h : Follows F a b) (hf : f ∈ F) (hne : a ≠ f) :
    b ∉ upTo F b f ∧ upTo F a f = insert b (upTo F b f) := by
  have hb : b ∈ F := h.1
  rcases h.2 with ⟨hab, hgap⟩ | hall
  · rcases lt_or_gt_of_ne hne with haf | hfa
    · have hbf : b ≤ f := (hgap f hf).resolve_left haf.not_ge
      refine ⟨fun hm => ?_, Finset.ext fun c => ?_⟩
      · rw [mem_upTo, if_pos hbf] at hm
        exact lt_irrefl b hm.2.1
      · rw [Finset.mem_insert, mem_upTo, mem_upTo, if_pos haf.le, if_pos hbf]
        grind
    · have hfb : ¬ b ≤ f := (hfa.trans hab).not_ge
      refine ⟨fun hm => ?_, Finset.ext fun c => ?_⟩
      · rw [mem_upTo, if_neg hfb] at hm
        exact hm.2.elim (lt_irrefl b) hfb
      · rw [Finset.mem_insert, mem_upTo, mem_upTo, if_neg hfa.not_ge, if_neg hfb]
        grind
  · have hfa : ¬ a ≤ f := fun haf => hne (le_antisymm haf (hall f hf).2)
    have hbf : b ≤ f := (hall f hf).1
    refine ⟨fun hm => ?_, Finset.ext fun c => ?_⟩
    · rw [mem_upTo, if_pos hbf] at hm
      exact lt_irrefl b hm.2.1
    · rw [Finset.mem_insert, mem_upTo, mem_upTo, if_neg hfa, if_pos hbf]
      grind

/-- A walk that starts after `f` passes all elements. -/
theorem upTo_follows (h : Follows F f b) (hf : f ∈ F) : insert b (upTo F b f) = F := by
  have hb : b ∈ F := h.1
  ext c
  rw [Finset.mem_insert, mem_upTo]
  rcases h.2 with ⟨hfb, hgap⟩ | hall
  · rw [if_neg hfb.not_ge]
    grind
  · rw [if_pos (hall f hf).1]
    grind

/-- Induction along a walk to `f`. -/
theorem cyclic_induction (hnext : Circle F next) (hf : f ∈ F) {P : α → Prop} (hend : P f)
    (hstep : ∀ a ∈ F, a ≠ f → P (next a) → P a) (ha : a ∈ F) : P a := by
  obtain ⟨n, hn⟩ : ∃ n, n = (upTo F a f).card := ⟨_, rfl⟩
  induction n using Nat.strong_induction_on generalizing a with
  | _ n ih =>
    by_cases hne : a = f
    · exact hne ▸ hend
    · obtain ⟨hnot, heq⟩ := upTo_eq (hnext a ha) hf hne
      refine hstep a ha hne (ih _ ?_ (hnext a ha).1 rfl)
      rw [hn, heq, Finset.card_insert_of_notMem hnot]
      exact Nat.lt_succ_self _

end OrangeOs
