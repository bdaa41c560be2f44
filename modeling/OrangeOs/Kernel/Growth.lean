import OrangeOs.Kernel.ConfinedTask
import OrangeOs.Kernel.ForkMemory

/-! # A page table that grows

Where every page that is asked for can be mapped, mapping, loading and copying only add to a page
table: no page goes back to the list, what was mapped stays mapped, and the regions that are recorded
are mapped. A program file does that when its segments end below the highest address.
-/

namespace OrangeOs.Kernel

open Memory VirtualMemory TaskMemory Elf

variable {σ : Type} {S : StreamBase σ} {F : Set ℕ} {m m' : Memory} {root sroot a b c k n x y u : ℕ}
  {L L' L'' P : List ℕ} {v v' v'' v₀ : VirtualMemory} {q : List (Fin 512)} {r : Bool} {t t' :
      TaskMemory}

/-- An address is in a table or in a page of a page table. -/
def InTree (m : Memory) (root x : ℕ) : Prop := ∃ q c, pageTree m root q = some c ∧ c ≤ x ∧ x < c + 4096

/-- The page table at `root` has grown by free pages of `L`; those of `L'` are left. -/
structure Growth (root : ℕ) (v : VirtualMemory) (L : List ℕ) (v' : VirtualMemory) (L' : List ℕ) :
    Prop where
  space : AddressSpace v' root (pageTree v'.mem root) L'
  sub : ∀ c ∈ L', c ∈ L
  node : ∀ q c, pageTree v'.mem root q = some c → c ∈ L ∨ pageTree v.mem root q = some c
  kept : ∀ x, pageTree v.mem root (path x) ≠ none → pageTree v'.mem root (path x) ≠ none
  same : Same v.mem v'.mem fun x => ¬ InPages L x ∧ ¬ InTree v.mem root x

namespace Growth

theorem refl (h : AddressSpace v root (pageTree v.mem root) L) : Growth root v L v L :=
  ⟨h, fun _ hc => hc, fun _ _ hq => .inr hq, fun _ hx => hx, Same.refl _ _⟩

theorem trans (h : Growth root v L v' L') (h' : Growth root v' L' v'' L'') :
    Growth root v L v'' L'' where
  space := h'.space
  sub c hc := h.sub c (h'.sub c hc)
  node q c hq := by
    rcases h'.node q c hq with hc | hq
    · exact .inl (h.sub c hc)
    · exact h.node q c hq
  kept x hx := h'.kept x (h.kept x hx)
  same := by
    refine h.same.trans (h'.same.mono fun x hx => ⟨?_, ?_⟩)
    · rintro ⟨c, hc, hr⟩
      exact hx.1 ⟨c, h.sub c hc, hr⟩
    · rintro ⟨q, c, hq, hr⟩
      rcases h.node q c hq with hc | hq
      · exact hx.1 ⟨c, hc, hr⟩
      · exact hx.2 ⟨q, c, hq, hr⟩

/-- A write to a page that is mapped. -/
theorem write (h : AddressSpace v root (pageTree v.mem root) L)
    (hb : pageTree v.mem root q = some b) (hq : q.length = 3)
    (hm : Same v.mem m' fun x => x < b ∨ b + 4096 ≤ x) :
    Growth root v L { v with mem := m' } L ∧ pageTree m' root = pageTree v.mem root := by
  have hspace := h.of_page (h.page q b hb) (h.fresh q b hb) (fun r hlt hr => by
    rw [h.inj r q b hr hb] at hlt
    omega) hm
  have htree : pageTree m' root = pageTree v.mem root := hspace.pageTree_eq
  refine ⟨⟨htree.symm ▸ hspace, fun _ hc => hc, fun r c hr => .inr (htree ▸ hr), fun x hx => ?_,
    hm.mono fun x hx => ?_⟩, htree⟩
  · rwa [show pageTree ({ v with mem := m' } : VirtualMemory).mem root = _ from htree]
  · by_contra hin
    exact hx.2 ⟨q, b, hb, by omega, by omega⟩

end Growth

/-! ## Mapping -/

/-- The pages of a range that ends below the highest address are added to the page table. -/
theorem UserSpace.growth {T T' : List (Fin 512) → Option ℕ} (hs : UserSpace v root T L)
    (h : MappedRange v root T L a k P v' T' L') (hk : k < 1024) : Growth root v L v' L' ∧
    ∀ n < P.length, pageTree v'.mem root (path (a + 4096 * n)) ≠ none := by
  have hs' := hs.mapped h hk
  have hleaf : ∀ n (hn : n < P.length), leaf v'.mem T' (a + 4096 * n) &&& PTE.V ≠ 0 ∧
      pteTarget (leaf v'.mem T' (a + 4096 * n)) = P[n] := by
    intro n hn
    have hpage := (h.page P[n] (List.getElem_mem hn)).1
    have hlt := hpage.lt
    rw [h.mapped n hn]
    obtain ⟨-, hvalid, htarget, -⟩ := entry_flags hpage.aligned (by rw [MEMORY_END_eq]; omega) hk
    exact ⟨hvalid, htarget⟩
  have hnew : ∀ n < P.length, pageTree v'.mem root (path (a + 4096 * n)) ≠ none := by
    intro n hn
    rw [hs'.toTables.pageTree_path, entryTarget, if_neg (hleaf n hn).1]
    exact Option.some_ne_none _
  refine ⟨⟨hs'.addressSpace, fun c hc => h.sub (List.mem_append_right P hc), fun q c hq => ?_,
    fun x hx => ?_, h.same.mono fun x hx => ⟨hx.1, ?_⟩⟩, hnew⟩
  · rcases hs'.toTables.node_cases hq with ⟨hlen, hq⟩ | ⟨va, rfl, hv, rfl⟩
    · rcases h.new q c hq with hq | hc
      · exact .inr (by rw [hs.toTables.pageTree_table hlen, hq])
      · exact .inl hc
    · by_cases hva : ∃ n < P.length, path va = path (a + 4096 * n)
      · obtain ⟨n, hn, he⟩ := hva
        rw [leaf_congr he, (hleaf n hn).2]
        exact .inl (h.sub (List.mem_append_left L' (List.getElem_mem hn)))
      · rw [h.other va fun n hn he => hva ⟨n, hn, he⟩] at hv ⊢
        exact .inr (by rw [hs.toTables.pageTree_path, entryTarget, if_neg hv])
  · by_cases hva : ∃ n < P.length, path x = path (a + 4096 * n)
    · obtain ⟨n, hn, he⟩ := hva
      rw [he]
      exact hnew n hn
    · rwa [hs'.toTables.pageTree_path, h.other x fun n hn he => hva ⟨n, hn, he⟩,
        ← hs.toTables.pageTree_path]
  · rintro ⟨q, c, hq, hlt, hr⟩
    exact hx.2 ⟨q, c, by rw [hs.toTables.pageTree_table (by omega), hq], hr⟩

/-- `MapMemory` of a range that ends below the highest address returns true. -/
theorem AddressSpace.mapMemory_growth (h : AddressSpace v root (pageTree v.mem root) L) (hxy : x ≤ y)
    (hy : y ≤ 2 ^ 38) (hk : k < 1024) (hmap : v.mapMemory root x y k = .ok (r, v')) :
    r = true ∧ ∃ L', Growth root v L v' L' ∧
      ∀ z, x ≤ z → z < y → pageTree v'.mem root (path z) ≠ none := by
  have hdown := addrCastDown_eq (show x < 2 ^ 64 by omega)
  have hup := addrCastUp_eq (show y + 4095 < 2 ^ 64 by omega)
  have hcount : pageCount x y = (addrCastUp y - addrCastDown x) / 4096 := rfl
  obtain ⟨hr, P, T', L', hrange, hlen⟩ := h.userSpace.toTables.mapMemory_ok (by omega)
    (show addrCastDown x + 4096 * pageCount x y ≤ 2 ^ 38 by omega) hk hmap
  obtain ⟨hgrown, hnew⟩ := h.userSpace.growth hrange hk
  refine ⟨hr, L', hgrown, fun z hz hz' => ?_⟩
  have hpage := hnew ((z - addrCastDown x) / 4096) (by omega)
  rwa [path, indices_congr (show z / 4096 =
    (addrCastDown x + 4096 * ((z - addrCastDown x) / 4096)) / 4096 by omega) 2 3]

/-- A range whose pages have all been mapped ends below the highest address. -/
theorem Confined.mapFrom_end_le (h : Confined F m root v) (hx : x % 4096 = 0) (hy : y % 4096 = 0)
    (hk : k < 1024) (hmap : v.mapFrom root a x y k = .ok (true, v')) (hxy : x < y) : y ≤ 2 ^ 38 := by
  have hsize : PGSIZE = 4096 := rfl
  have hMAX : MAX_SUPPORT_VA = 2 ^ 38 - 1 := rfl
  fun_induction VirtualMemory.mapFrom v root a x y k with
  | case1 v x hlt ih =>
    obtain ⟨⟨c, v₁⟩, halloc, hrest⟩ := bind_eq_ok.mp hmap
    simp only [if_neg (alloc_ne_zero halloc).2] at hrest
    obtain ⟨⟨mapped, v₂⟩, hpage, hrest⟩ := bind_eq_ok.mp hrest
    obtain ⟨h₂, ⟨rfl, hmax, -, -⟩ | ⟨rfl, -, -⟩⟩ := h.mapRound hx hk halloc hpage
    · simp only [if_true] at hrest
      by_cases hlast : x + PGSIZE < y
      · exact ih v₂ h₂ (by omega) hrest hlast
      · omega
    · simp only [Bool.false_eq_true, if_false] at hrest
      obtain ⟨v₃, -, hrest⟩ := bind_eq_ok.mp hrest
      cases (Prod.mk.inj (Except.ok.inj hrest)).1
  | case2 v x hge => omega

/-! ## Loading -/

/-- `LoadSegment` only writes pages that are mapped. -/
theorem AddressSpace.loadSegment_growth {st st' : σ} (h : AddressSpace v root (pageTree v.mem root) L)
    (hx : x < 2 ^ 64) (hload : loadSegment S st v root x n = .ok (r, v', st')) :
    Growth root v L v' L := by
  induction n using Nat.strong_induction_on generalizing v x st with
  | _ n ih =>
    by_cases hn : 0 < n
    · cases hpa : translate v root x with
      | none =>
        obtain ⟨o, hvapa⟩ := vaToPA_translate v root x
        rw [hpa, Option.getD_none] at hvapa
        rw [loadSegment, dif_pos (by omega), hvapa, ok_bind] at hload
        simp only [if_true] at hload
        obtain ⟨-, hrest⟩ := Prod.mk.inj (Except.ok.inj hload)
        obtain ⟨rfl, -⟩ := Prod.mk.inj hrest
        exact .refl h
      | some pa =>
        have hnode := translate_eq h hx
        rw [hpa] at hnode
        obtain ⟨b, hb, rfl⟩ := Option.map_eq_some_iff.mp hnode.symm
        obtain ⟨hlen₀, hlen, hpage⟩ := firstPiece_le x hn
        have hbp := (h.page _ b hb).ne_zero
        rw [loadSegment_step S st hx hpa (by omega) hn] at hload
        have hsame := batchLoad_same S st v.mem (firstPiece x n) (b + x % 4096)
        obtain ⟨h₁, -⟩ := Growth.write h hb (length_indices x 2 3) (hsame.mono fun y hy => by omega)
        exact h₁.trans (ih _ (by omega) h₁.space (Nat.mod_lt _ (by decide)) hload)
    · obtain rfl : n = 0 := by omega
      rw [loadSegment, dif_neg (by omega)] at hload
      obtain ⟨-, hrest⟩ := Prod.mk.inj (Except.ok.inj hload)
      obtain ⟨rfl, -⟩ := Prod.mk.inj hrest
      exact .refl h

/-- The regions of a process end below the highest address, and all of their addresses are mapped. -/
structure TaskMemory.RegionsMapped (t : TaskMemory) (m : Memory) : Prop where
  size_le : t.used_address_size ≤ 16
  le : ∀ i : Fin 16, i < t.used_address_size →
    (t.used_address i).1.toNat ≤ (t.used_address i).2.toNat ∧ (t.used_address i).2.toNat ≤ 2 ^ 38
  mapped : ∀ i : Fin 16, i < t.used_address_size → ∀ x, t.Region i x →
    pageTree m t.page_table (path x) ≠ none

theorem TaskMemory.addRegion_kernel_sp (hadd : t.addRegion a b = .ok t') :
    t'.kernel_sp = t.kernel_sp := by
  rw [TaskMemory.addRegion] at hadd
  split at hadd
  · rw [← Except.ok.inj hadd]
  · cases hadd

namespace TaskMemory.RegionsMapped

/-- A process without regions. -/
theorem of_zero (h : t.used_address_size = 0) : t.RegionsMapped m :=
  ⟨by omega, fun i hi => absurd hi (by omega), fun i hi => absurd hi (by omega)⟩

theorem mono (h : t.RegionsMapped m) (hkept : ∀ i : Fin 16, i < t.used_address_size → ∀ x,
    t.Region i x →
    pageTree m t.page_table (path x) ≠ none → pageTree m' t.page_table (path x) ≠ none) :
    t.RegionsMapped m' :=
  ⟨h.size_le, h.le, fun i hi x hx => hkept i hi x hx (h.mapped i hi x hx)⟩

theorem growth (h : t.RegionsMapped v.mem) (hg : Growth t.page_table v L v' L') :
    t.RegionsMapped v'.mem :=
  h.mono fun _ _ x _ => hg.kept x

/-- One more region. -/
theorem addRegion (h : t.RegionsMapped m) (hadd : t.addRegion a b = .ok t') (hab : a ≤ b)
    (hb : b ≤ 2 ^ 38) (hmap : ∀ x, a ≤ x → x < b → pageTree m t.page_table (path x) ≠ none) :
    t'.RegionsMapped m := by
  obtain ⟨hroot, hsize, -⟩ := addRegion_region (show a < 2 ^ 64 by omega) (show b < 2 ^ 64 by omega)
      hadd
  have hroom : t.used_address_size < 16 := by
    by_contra hfull
    rw [TaskMemory.addRegion, dif_neg hfull] at hadd
    cases hadd
  obtain ⟨happ, -, hnew⟩ := (addRegion_yields hroom (show a < 2 ^ 64 by omega)
    (show b < 2 ^ 64 by omega)).result t' hadd
  have hcases : ∀ i : Fin 16, i < t'.used_address_size →
      (i < t.used_address_size ∧ t'.used_address i = t.used_address i) ∨
        (t'.used_address i).1.toNat = a ∧ (t'.used_address i).2.toNat = b := by
    intro i hi
    by_cases hold : (i : ℕ) < t.used_address_size
    · exact .inl ⟨hold, happ.keep i hold⟩
    · exact .inr (hnew i (by omega))
  refine ⟨happ.size_le, fun i hi => ?_, fun i hi x hx => ?_⟩
  · rcases hcases i hi with ⟨hold, he⟩ | ⟨ha, hb'⟩
    · rw [he]
      exact h.le i hold
    · omega
  · rw [hroot]
    rcases hcases i hi with ⟨hold, he⟩ | ⟨ha, hb'⟩
    · rw [Region, he] at hx
      exact h.mapped i hold x hx
    · rw [Region, ha, hb'] at hx
      exact hmap x hx.1 hx.2

end TaskMemory.RegionsMapped

section Loader

variable {offset target_type i : ℕ} {ph h junk : List UInt8} {f : σ} {s s' s'' : Loading σ}

/-- What the loader does with the free pages of `L`. -/
structure LoadsFrom (S : StreamBase σ) (L : List ℕ) (s s' : Loading σ) (L' : List ℕ) : Prop where
  after : ∀ f, S.After f s.stream → S.After f s'.stream
  growth : Growth s.process.page_table s.vm L s'.vm L'
  kept : Kept s.process.toTaskMemory s'.process.toTaskMemory
  kernel_sp : s'.process.kernel_sp = s.process.kernel_sp
  regions : s'.process.RegionsMapped s'.vm.mem

namespace LoadsFrom

/-- Nothing of the memory has changed. -/
theorem still (hs : AddressSpace s.vm s.process.page_table (pageTree s.vm.mem s.process.page_table) L)
    (hregions : s.process.RegionsMapped s.vm.mem) (hvm : s'.vm = s.vm)
    (hprocess : s'.process.toTaskMemory = s.process.toTaskMemory)
    (hafter : ∀ f, S.After f s.stream → S.After f s'.stream) : LoadsFrom S L s s' L where
  after := hafter
  growth := by
    rw [hvm]
    exact .refl hs
  kept := by
    rw [hprocess]
    exact Kept.refl _
  kernel_sp := by rw [hprocess]
  regions := by rwa [hprocess, hvm]

theorem trans (h : LoadsFrom S L s s' L') (h' : LoadsFrom S L' s' s'' L'') :
    LoadsFrom S L s s'' L'' where
  after f hf := h'.after f (h.after f hf)
  growth := h.growth.trans (h.kept.page_table ▸ h'.growth)
  kept := h.kept.trans h'.kept
  kernel_sp := h'.kernel_sp.trans h.kernel_sp
  regions := h'.regions

/-- The page table is still one. -/
theorem space (h : LoadsFrom S L s s' L') :
    AddressSpace s'.vm s'.process.page_table (pageTree s'.vm.mem s'.process.page_table) L' := by
  rw [h.kept.page_table]
  exact h.growth.space

end LoadsFrom

/-- A segment that ends below the highest address. -/
theorem loadSegmentOf_from
    (hs : AddressSpace s.vm s.process.page_table (pageTree s.vm.mem s.process.page_table) L)
    (hregions : s.process.RegionsMapped s.vm.mem) (hend : p_vaddr ph + p_memsz ph ≤ 2 ^ 38)
    (hrun : loadSegmentOf S 0 ph s = .ok (r, s')) : ∃ L', LoadsFrom S L s s' L' := by
  rw [loadSegmentOf] at hrun
  split at hrun
  · obtain ⟨-, rfl⟩ := Prod.mk.inj (Except.ok.inj hrun)
    exact ⟨L, .still hs hregions rfl rfl fun _ hf => hf⟩
  · have hva : (p_vaddr ph + 0) % 2 ^ 64 = p_vaddr ph := by omega
    have hvb : (p_vaddr ph + p_memsz ph) % 2 ^ 64 = p_vaddr ph + p_memsz ph :=
      Nat.mod_eq_of_lt (by omega)
    simp only [hva, hvb] at hrun
    obtain ⟨⟨mapped, v₁⟩, hmap, hrun⟩ := bind_eq_ok.mp hrun
    obtain ⟨⟨loaded, v₂, st⟩, hload, hrun⟩ := bind_eq_ok.mp hrun
    obtain ⟨-, L', hmapped, hrange⟩ := hs.mapMemory_growth (Nat.le_add_right _ _) hend (privi_lt ph)
      (lift_eq_ok.mp hmap)
    have hfill := hmapped.space.loadSegment_growth (show p_vaddr ph < 2 ^ 64 by omega)
        (lift_eq_ok.mp hload)
    have hgrowth := hmapped.trans hfill
    have hfilled : LoadsFrom S L s { s with vm := v₂, stream := st } L' :=
      ⟨fun f hf => loadSegment_after (hf.seek _) (lift_eq_ok.mp hload), hgrowth, Kept.refl _, rfl,
        hregions.growth hgrowth⟩
    simp only at hrun
    split at hrun
    · obtain ⟨-, rfl⟩ := Prod.mk.inj (Except.ok.inj hrun)
      exact ⟨L', hfilled⟩
    split at hrun
    · obtain ⟨-, rfl⟩ := Prod.mk.inj (Except.ok.inj hrun)
      exact ⟨L', hfilled⟩
    · obtain ⟨t, hadd, hrun⟩ := bind_eq_ok.mp hrun
      obtain ⟨-, rfl⟩ := Prod.mk.inj (Except.ok.inj hrun)
      refine ⟨L', { hfilled with
        kept := addRegion_kept hadd
        kernel_sp := addRegion_kernel_sp hadd
        regions := ?_ }⟩
      exact (hregions.growth hgrowth).addRegion hadd (Nat.le_add_right _ _) hend
          fun x hx hx' => hfill.kept x (hrange x hx hx')

theorem loadHeader_from
    (hs : AddressSpace s.vm s.process.page_table (pageTree s.vm.mem s.process.page_table) L)
    (hregions : s.process.RegionsMapped s.vm.mem)
    (hend : p_type ph = PT_LOAD → p_vaddr ph + p_memsz ph ≤ 2 ^ 38)
    (hrun : loadHeader S target_type 0 ph s = .ok (r, s')) : ∃ L', LoadsFrom S L s s' L' := by
  obtain ⟨s₁, heq, hvm, hstream, hprocess⟩ := loadHeader_eq S target_type 0 ph s
  have hfirst : LoadsFrom S L s s₁ L := .still hs hregions hvm hprocess fun _ hf => hstream ▸ hf
  rw [heq] at hrun
  split at hrun
  · obtain ⟨-, rfl⟩ := Prod.mk.inj (Except.ok.inj hrun)
    exact ⟨L, hfirst⟩
  · next htype =>
    obtain ⟨L', hrest⟩ := loadSegmentOf_from hfirst.space hfirst.regions (hend (not_not.mp htype)) hrun
    exact ⟨L', hfirst.trans hrest⟩

/-- The segments of the program headers that can be read end below the highest address. -/
def HeadersInSpace (S : StreamBase σ) (f : σ) (h junk : List UInt8) (n : ℕ) : Prop :=
  ∀ st, S.After f st → ∀ j < n, ∀ ph,
    ph = (S.readForType (S.seek st ((e_phoff h + j * e_phentsize h) % 2 ^ 64)) junk phdrSize).1 →
      p_type ph = PT_LOAD → p_vaddr ph + p_memsz ph ≤ 2 ^ 38

/-- The segments of a program file end below the highest address. -/
def FileInSpace (S : StreamBase σ) (f : σ) (junk : List UInt8) : Prop :=
  HeadersInSpace S f (header S f junk).1 junk (e_phnum (header S f junk).1)

theorem loadFrom_from
    (hs : AddressSpace s.vm s.process.page_table (pageTree s.vm.mem s.process.page_table) L)
    (hregions : s.process.RegionsMapped s.vm.mem) (hf : S.After f s.stream)
    (hfile : HeadersInSpace S f h junk n) (hn : i + k = n)
    (hrun : loadFrom S target_type 0 h junk s i k = .ok (r, s')) : ∃ L', LoadsFrom S L s s' L' := by
  induction k generalizing s i L with
  | zero =>
    obtain ⟨-, rfl⟩ := Prod.mk.inj (Except.ok.inj hrun)
    exact ⟨L, .still hs hregions rfl rfl fun _ hf => hf⟩
  | succ k ih =>
    obtain ⟨ph, st, hread⟩ : ∃ ph st,
        S.readForType (S.seek s.stream ((e_phoff h + i * e_phentsize h) % 2 ^ 64)) junk phdrSize =
        (ph, st) := ⟨_, _, rfl⟩
    have hst : ∀ g, S.After g s.stream → S.After g st := fun g hg => by
      obtain rfl := congrArg Prod.snd hread
      exact (hg.seek _).read _
    rw [loadFrom, hread] at hrun
    obtain ⟨⟨loaded, s₁⟩, hheader, hrun⟩ := bind_eq_ok.mp hrun
    obtain ⟨L₁, hload⟩ := loadHeader_from (s := { s with stream := st }) hs hregions
      (hfile s.stream hf i (by omega) ph (by rw [hread])) hheader
    have hone : LoadsFrom S L s s₁ L₁ := { hload with after := fun g hg => hload.after g (hst g hg) }
    cases loaded with
    | false =>
      obtain ⟨-, rfl⟩ := Prod.mk.inj (Except.ok.inj hrun)
      exact ⟨L₁, hone⟩
    | true =>
      obtain ⟨L', hrest⟩ := ih hone.space hone.regions (hone.after f hf) (by omega) hrun
      exact ⟨L', hone.trans hrest⟩

theorem load_from {entry : ℕ}
    (hs : AddressSpace s.vm s.process.page_table (pageTree s.vm.mem s.process.page_table) L)
    (hregions : s.process.RegionsMapped s.vm.mem) (hfile : FileInSpace S s.stream junk)
    (hrun : load S target_type 0 junk s = .ok (r, entry, s')) : ∃ L', LoadsFrom S L s s' L' := by
  have hread : ∀ f, S.After f s.stream → S.After f (header S s.stream junk).2 :=
    fun f hf => (hf.seek 0).read _
  unfold load at hrun
  simp only at hrun
  split at hrun
  · obtain ⟨-, hrest⟩ := Prod.mk.inj (Except.ok.inj hrun)
    obtain ⟨-, rfl⟩ := Prod.mk.inj hrest
    exact ⟨L, .still hs hregions rfl rfl hread⟩
  · obtain ⟨⟨loaded, s₁⟩, hfrom, hrun⟩ := bind_eq_ok.mp hrun
    obtain ⟨-, hrest⟩ := Prod.mk.inj (Except.ok.inj hrun)
    obtain ⟨-, rfl⟩ := Prod.mk.inj hrest
    obtain ⟨L', hload⟩ := loadFrom_from (s := { s with stream := (header S s.stream junk).2 }) hs
      hregions (hread _ .start) hfile (Nat.zero_add _) hfrom
    exact ⟨L', { hload with after := fun f hf => hload.after f (hread f hf) }⟩

/-- What `ExecuteImpl` does with the free pages of `L`. -/
structure Executed (L : List ℕ) (t : TaskMemory) (v : VirtualMemory) (t' : TaskMemory)
    (v' : VirtualMemory) (L' : List ℕ) : Prop where
  space : AddressSpace v' t.page_table (pageTree v'.mem t.page_table) L'
  sub : ∀ c ∈ L', c ∈ L
  node : ∀ q c, pageTree v'.mem t.page_table q = some c → c ∈ L ∨ pageTree v.mem t.page_table q = some c
  same : Same v.mem v'.mem fun x => ¬ InPages L x ∧ ¬ InTree v.mem t.page_table x ∧
    (x < t.frame ∨ t.frame + 4096 ≤ x)
  kept : Kept t t'
  kernel_sp : t'.kernel_sp = t.kernel_sp
  regions : t'.RegionsMapped v'.mem

/-- `ExecuteImpl` of a file in the address space, whatever its result. -/
theorem executeImpl_executed {p p' : Task}
    (hs : AddressSpace v p.page_table (pageTree v.mem p.page_table) L) (hregions :
        p.RegionsMapped v.mem)
    (hframe : IsPage p.frame) (hframeL : p.frame ∉ L)
    (hframeT : ∀ q, pageTree v.mem p.page_table q ≠ some p.frame) (hfile : FileInSpace S f junk)
    (hrun : executeImpl S junk f p v = .ok (r, p', v')) :
    ∃ L', Executed L p.toTaskMemory v p'.toTaskMemory v' L' := by
  rw [executeImpl] at hrun
  obtain ⟨⟨loaded, entry, s₁⟩, hload, hrun⟩ := bind_eq_ok.mp hrun
  obtain ⟨L', hfrom⟩ := load_from (s := ⟨p, {}, v, f⟩) hs hregions hfile hload
  have hgrowth : Growth p.page_table v L s₁.vm L' := hfrom.growth
  simp only at hrun
  split at hrun
  · obtain ⟨-, hrest⟩ := Prod.mk.inj (Except.ok.inj hrun)
    obtain ⟨rfl, rfl⟩ := Prod.mk.inj hrest
    exact ⟨L', hgrowth.space, hgrowth.sub, hgrowth.node, hgrowth.same.mono fun x hx => ⟨hx.1, hx.2.1⟩,
      hfrom.kept, hfrom.kernel_sp, hfrom.regions⟩
  · obtain ⟨-, hrest⟩ := Prod.mk.inj (Except.ok.inj hrun)
    obtain ⟨rfl, rfl⟩ := Prod.mk.inj hrest
    -- the entry point is written to the frame
    have hmepc : Same s₁.vm.mem (setFrameMepc s₁.vm.mem s₁.process.frame entry) fun x =>
        x < p.frame ∨ p.frame + 4096 ≤ x := by
      rw [show s₁.process.frame = p.frame from hfrom.kept.frame]
      exact (store_same _ _ 8 entry).mono fun x hx => by omega
    have hspace := hgrowth.space.of_page hframe (fun hin => hframeL (hgrowth.sub _ hin))
      (fun q _ hq => (hgrowth.node q _ hq).elim hframeL (hframeT q)) hmepc
    have htree := hspace.pageTree_eq
    refine ⟨L', htree.symm ▸ hspace, hgrowth.sub, fun q c hq => hgrowth.node q c (htree ▸ hq),
      (hgrowth.same.mono fun x hx => ⟨hx.1, hx.2.1⟩).trans (hmepc.mono fun x hx => hx.2.2), hfrom.kept,
      hfrom.kernel_sp, hfrom.regions.mono fun i _ x _ hx => ?_⟩
    rw [show s₁.process.page_table = p.page_table from hfrom.kept.page_table] at hx ⊢
    rwa [show pageTree ({ s₁.vm with
      mem := setFrameMepc s₁.vm.mem s₁.process.frame entry } :
          VirtualMemory).mem p.page_table = _ from htree]

end Loader

/-! ## Copying -/

/-- All that is written is in pages of `F`, if they hold the page table and the free pages. -/
theorem Growth.same_inPages {F : List ℕ} (h : Growth root v L v' L') (hL : ∀ c ∈ L, c ∈ F)
    (hT : ∀ q c, pageTree v.mem root q = some c → c ∈ F) :
    Same v.mem v'.mem fun x => ¬ InPages F x := by
  refine h.same.mono fun x hx => ⟨fun hin => hx (inPages_mono hL hin), ?_⟩
  rintro ⟨q, c, hq, hr⟩
  exact hx ⟨c, hT q c hq, hr⟩

theorem Growth.node_mem {F : List ℕ} (h : Growth root v L v' L') (hL : ∀ c ∈ L, c ∈ F)
    (hT : ∀ q c, pageTree v.mem root q = some c → c ∈ F) (hq : pageTree v'.mem root q = some c) :
    c ∈ F := by
  rcases h.node q c hq with hc | hq
  · exact hL c hc
  · exact hT q c hq

section Copy

variable {T : List (Fin 512) → Option ℕ} {F : List ℕ} {o o' i j : ℕ} {src : TaskMemory}

/-- The inner loop of `CopyMemory` over a region that is mapped in the parent. -/
theorem copyFrom_growth (hs : Source v₀ sroot T F) (h : AddressSpace v root (pageTree v.mem root) L)
    (hsame : Same v₀.mem v.mem fun x => ¬ InPages F x) (hL : ∀ c ∈ L, c ∈ F)
    (hT : ∀ q c, pageTree v.mem root q = some c → c ∈ F) (hu : x < u → u ≤ 2 ^ 38)
    (hsrc : ∀ y, x ≤ y → y < u → T (path y) ≠ none)
    (hrun : copyFrom v sroot root x (u - x) o = .ok (r, o', v')) :
    r = true ∧ ∃ L', Growth root v L v' L' ∧
      ∀ y, x ≤ y → y < u → pageTree v'.mem root (path y) ≠ none := by
  induction hsize : u - x using Nat.strong_induction_on generalizing v L x o with
  | _ size ih =>
    rw [hsize] at hrun
    rcases Nat.eq_zero_or_pos size with rfl | hpos
    · rw [copyFrom, dif_neg (by omega)] at hrun
      obtain ⟨rfl, hrest⟩ := Prod.mk.inj (Except.ok.inj hrun)
      obtain ⟨-, rfl⟩ := Prod.mk.inj hrest
      exact ⟨rfl, L, .refl h, fun y _ _ => by omega⟩
    · have hend := hu (by omega)
      have hpg : PGSIZE = 4096 := rfl
      obtain ⟨a, ha⟩ := Option.ne_none_iff_exists'.mp (hsrc x le_rfl (by omega))
      have hal := (hs.page _ a ha).aligned
      rw [copyFrom, dif_pos hpos, hs.vaToPA hsame (by omega) ha o, ok_bind] at hrun
      obtain ⟨len, hlen⟩ : ∃ len, len = if size > PGSIZE - (a + x % 4096) % PGSIZE then
        PGSIZE - (a + x % 4096) % PGSIZE else size := ⟨_, rfl⟩
      simp only [← hlen] at hrun
      have hlen' : (size ≤ 4096 - x % 4096 ∧ len = size) ∨
          (4096 - x % 4096 < size ∧ len = 4096 - x % 4096) := by
        rw [hpg] at hlen
        split at hlen <;> omega
      rw [Nat.mod_eq_of_lt (show x + len < 2 ^ 64 by omega)] at hrun
      obtain ⟨⟨mapped, v₁⟩, hmap, hrun⟩ := bind_eq_ok.mp hrun
      obtain ⟨rfl, L₁, h₁, hrange⟩ := h.mapMemory_growth (Nat.le_add_right x len) (by omega)
        ((perm_lt v₀.mem T x).1.trans (by decide)) hmap
      obtain ⟨c, hc⟩ := Option.ne_none_iff_exists'.mp (hrange x le_rfl (by omega))
      have hcal := (h₁.space.page _ c hc).aligned
      simp only [if_true, vaToPA_eq h₁.space.isTree h₁.space.page (show x < 2 ^ 64 by omega) hc 0,
        ok_bind] at hrun
      have hcopy := copy_same v₁.mem (c + x % 4096) (a + x % 4096) len
      obtain ⟨h₂, -⟩ := Growth.write h₁.space hc (length_indices x 2 3)
        (hcopy.mono fun y hy => by omega)
      have hgrown := h₁.trans h₂
      have hnext : (addrCastDown x + PGSIZE) % 2 ^ 64 = x - x % 4096 + 4096 := by
        rw [addrCastDown_eq (by omega), hpg, Nat.mod_eq_of_lt (by omega)]
      have hrest : size - len = u - (x - x % 4096 + 4096) := by omega
      rw [hnext, hrest] at hrun
      obtain ⟨hr, L', h', hlater⟩ := ih (u - (x - x % 4096 + 4096)) (by omega) h₂.space
        (hsame.trans (hgrown.same_inPages hL hT)) (fun d hd => hL d (h₁.sub d hd))
        (fun q d hq => hgrown.node_mem hL hT hq) (fun _ => hend)
        (fun y hy hy' => hsrc y (by omega) hy') hrun rfl
      refine ⟨hr, L', hgrown.trans h', fun y hy hy' => ?_⟩
      by_cases hpage : y < x - x % 4096 + 4096
      · exact h'.kept y (h₂.kept y (hrange y hy (by omega)))
      · exact hlater y (by omega) hy'

/-- The outer loop of `CopyMemory`. -/
theorem copyRegions_growth (hs : Source v₀ src.page_table T F)
    (h : AddressSpace v root (pageTree v.mem root) L)
    (hsame : Same v₀.mem v.mem fun x => ¬ InPages F x) (hL : ∀ c ∈ L, c ∈ F)
    (hT : ∀ q c, pageTree v.mem root q = some c → c ∈ F) (hsrc : src.RegionsMapped v₀.mem)
    (hT₀ : T = pageTree v₀.mem src.page_table) (hk : j + k = src.used_address_size)
    (hrun : src.copyRegions v root j k = .ok (r, v')) :
    r = true ∧ ∃ L', Growth root v L v' L' ∧
      ∀ i : Fin 16, j ≤ i → i < j + k → ∀ y, src.Region i y → pageTree v'.mem root (path y) ≠ none := by
  induction k generalizing v L j with
  | zero =>
    obtain ⟨rfl, rfl⟩ := Prod.mk.inj (Except.ok.inj hrun)
    exact ⟨rfl, L, .refl h, fun i hi hi' => absurd hi (by omega)⟩
  | succ k ih =>
    have hj : j < 16 := by
      have := hsrc.size_le
      omega
    obtain ⟨hle, hend⟩ := hsrc.le ⟨j, hj⟩ (show j < src.used_address_size by omega)
    rw [copyRegions, region, dif_pos hj, ok_bind] at hrun
    simp only at hrun
    rw [show ((src.used_address ⟨j, hj⟩).2.toNat + 2 ^ 64 - (src.used_address ⟨j, hj⟩).1.toNat)
        % 2 ^ 64 =
      (src.used_address ⟨j, hj⟩).2.toNat - (src.used_address ⟨j, hj⟩).1.toNat by omega] at hrun
    obtain ⟨⟨copied, o', v₁⟩, hone, hrun⟩ := bind_eq_ok.mp hrun
    obtain ⟨rfl, L₁, h₁, hrange⟩ := copyFrom_growth hs h hsame hL hT (fun _ => hend)
      (fun y hy hy' => hT₀ ▸ hsrc.mapped ⟨j, hj⟩ (show j < src.used_address_size by omega) y ⟨hy, hy'⟩)
      hone
    simp only [if_true] at hrun
    obtain ⟨hr, L', h', hlater⟩ := ih h₁.space (hsame.trans (h₁.same_inPages hL hT))
      (fun c hc => hL c (h₁.sub c hc)) (fun q c hq => h₁.node_mem hL hT hq) (by omega) hrun
    refine ⟨hr, L', h₁.trans h', fun i hi hi' y hy => ?_⟩
    rcases Nat.eq_or_lt_of_le hi with hi | hi
    · obtain rfl : i = ⟨j, hj⟩ := Fin.ext hi.symm
      exact h'.kept y (hrange y hy.1 hy.2)
    · exact hlater i hi (by omega) y hy

end Copy

end OrangeOs.Kernel
