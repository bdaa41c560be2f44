import OrangeOs.Kernel.Loader
import OrangeOs.Kernel.SysRead
import OrangeOs.Kernel.UserSpace

/-! # One segment

`LoadSegment` reads a range of a stream into a range of addresses, in pieces of one page each and
each piece in batches of 512 bytes. A piece is written before the next address is translated, so the
range must not hold the tables that translate it.
-/

namespace OrangeOs.Kernel

open Memory VirtualMemory

variable {σ : Type} {S : StreamBase σ} {R : σ → List UInt8 → Prop} {st st' : σ} {bs cs : List UInt8}
  {v v' : VirtualMemory} {m m' : Memory} {root va a b k n pa len dst size : ℕ}

/-- `R st bs` says that `bs` is what is left in the stream. -/
def Remaining (S : StreamBase σ) (R : σ → List UInt8 → Prop) : Prop :=
  ∀ st bs n, R st bs → n ≤ bs.length → (S.read st n).1 = bs.take n ∧ R (S.read st n).2 (bs.drop n)

/-- What is left of a string. -/
theorem remaining_stringStream : Remaining StringStream.base fun s bs =>
    bs = s.buf_.drop s.position_ ∧ s.position_ ≤ s.buf_.length ∧ s.buf_.length < 2 ^ 64 := by
  rintro s bs n ⟨rfl, hpos, hlen⟩ hn
  rw [List.length_drop] at hn
  rw [StringStream.base_read (by omega) hlen]
  refine ⟨rfl, ?_, ?_, hlen⟩
  · rw [List.drop_drop]
  · show s.position_ + n ≤ s.buf_.length
    omega

/-! ## Translation and writes -/

/-- No mapped byte of the range is at 0 or in a table. -/
def Clear (v : VirtualMemory) (root va size : ℕ) : Prop :=
  ∀ k < size, ∀ pa, translate v root ((va + k) % 2 ^ 64) = some pa →
    pa ≠ 0 ∧ ¬ InTables (tableTree v.mem root) pa

/-! ## The batches -/

theorem put_append (m : Memory) (a : ℕ) (bs : List UInt8) (hn : n ≤ len) :
    (m.put a n (bs.take n)).put (a + n) (len - n) (bs.drop n) = m.put a len bs := by
  funext x
  simp only [put, charAt_drop]
  by_cases hx : a ≤ x ∧ x < a + n
  · rw [if_neg (by omega), if_pos hx, if_pos (by omega), charAt_take (by omega)]
  · rw [if_neg hx]
    by_cases hx' : a + n ≤ x ∧ x < a + n + (len - n)
    · rw [if_pos hx', if_pos (by omega), show n + (x - (a + n)) = x - a by omega]
    · rw [if_neg hx', if_neg (by omega)]

/-- The batches put the next bytes of the stream one after the other. -/
theorem batchLoad_eq (m : Memory) (dst : ℕ) (hS : Remaining S R) (hst : R st bs)
    (hlen : len ≤ bs.length) :
    (batchLoad S st m len dst).1 = m.put dst len bs ∧ R (batchLoad S st m len dst).2 (bs.drop len) := by
  induction len using Nat.strong_induction_on generalizing st bs m dst with
  | _ len ih =>
    rw [batchLoad]
    split
    · next hpos =>
      obtain ⟨n, hn⟩ : ∃ n, n = if len > memory_batch then memory_batch else len := ⟨_, rfl⟩
      have hbatch : memory_batch = 512 := rfl
      have hle : 0 < n ∧ n ≤ len := by
        rw [hn]
        split
        · omega
        · omega
      rw [← hn]
      obtain ⟨hread, hst'⟩ := hS st bs n hst (by omega)
      obtain ⟨hmem, hR⟩ : (batchLoad S (S.read st n).2 (m.put dst n (bs.take n))
        (len - n) (dst + n)).1 = _ ∧
          R (batchLoad S (S.read st n).2 (m.put dst n (bs.take n)) (len - n) (dst + n)).2 _ :=
        ih (len - n) (by omega) _ _ hst' (by rw [List.length_drop]; omega)
      dsimp only
      rw [hread]
      refine ⟨hmem.trans (put_append m dst bs hle.2), ?_⟩
      rwa [List.drop_drop, show n + (len - n) = len by omega] at hR
    · next hzero =>
      obtain rfl : len = 0 := by omega
      refine ⟨?_, by rwa [List.drop_zero]⟩
      funext x
      exact (if_neg (by omega)).symm

/-! ## The pages -/

/-- The piece of a range that lies in its first page. -/
def firstPiece (va size : ℕ) : ℕ := min (PGSIZE - va % PGSIZE) size

theorem firstPiece_le (va : ℕ) (hsize : 0 < size) :
    0 < firstPiece va size ∧ firstPiece va size ≤ size ∧ va % 4096 + firstPiece va size ≤ 4096 := by
  have hpage : PGSIZE = 4096 := rfl
  have hmod : va % 4096 < 4096 := Nat.mod_lt _ (by omega)
  rw [firstPiece, hpage]
  omega

/-- One round of the loop. -/
theorem loadSegment_step (S : StreamBase σ) (st : σ) (hva : va < 2 ^ 64)
    (hpa : translate v root va = some pa)
    (hne : pa ≠ 0) (hsize : 0 < size) :
    loadSegment S st v root va size =
      loadSegment S (batchLoad S st v.mem (firstPiece va size) pa).2
        { v with mem := (batchLoad S st v.mem (firstPiece va size) pa).1 } root
        ((va + firstPiece va size) % 2 ^ 64) (size - firstPiece va size) := by
  have hpage : PGSIZE = 4096 := rfl
  obtain ⟨o, hvapa⟩ := vaToPA_translate v root va
  rw [hpa, Option.getD_some] at hvapa
  obtain ⟨hmod, -⟩ := translate_page hva hpa
  have hlen : (if size > PGSIZE - pa % PGSIZE then PGSIZE - pa % PGSIZE else size) =
      firstPiece va size := by
    rw [firstPiece, hpage, hmod]
    split
    · omega
    · omega
  rw [loadSegment, dif_pos (by omega), hvapa, ok_bind]
  simp only [if_neg hne, hlen]
  by_cases hrest : size - firstPiece va size = 0
  · rw [hrest, loadSegment, dif_neg (by omega), loadSegment, dif_neg (by omega)]
  · -- the piece ends at the end of the page
    have hnext : (addrCastDown va + PGSIZE) % 2 ^ 64 = (va + firstPiece va size) % 2 ^ 64 := by
      rw [addrCastDown_eq hva, firstPiece, hpage] at *
      congr 1
      omega
    rw [hnext]

/-- The first piece is written, and the rest of the range is translated as before. -/
theorem piece_spec (hva : va < 2 ^ 64) (hpa : translate v root va = some pa)
    (hclear : Clear v root va size)
    (hlen : len ≤ size) (hpage : va % 4096 + len ≤ 4096)
    (hm : Same v.mem m' fun x => x < pa ∨ pa + len ≤ x) :
    (∀ j < len, translate v root ((va + j) % 2 ^ 64) = some (pa + j)) ∧
      (∀ a < 2 ^ 64, translate { v with mem := m' } root a = translate v root a) ∧
      Clear { v with mem := m' } root ((va + len) % 2 ^ 64) (size - len) := by
  obtain ⟨hmod, hnext⟩ := translate_page hva hpa
  have hpiece : ∀ j < len, translate v root ((va + j) % 2 ^ 64) = some (pa + j) := by
    intro j hj
    rw [Nat.mod_eq_of_lt (by omega)]
    exact hnext j (by omega)
  have htables : Same v.mem m' (InTables (tableTree v.mem root)) := by
    intro x hx
    refine hm x ?_
    by_contra hin
    refine (hclear (x - pa) (by omega) x ?_).2 hx
    rw [hpiece (x - pa) (by omega)]
    congr 1
    omega
  have htranslate : ∀ a < 2 ^ 64, translate { v with mem := m' } root a = translate v root a :=
    fun a ha => translate_of_same htables ha
  refine ⟨hpiece, htranslate, fun k hk b hb => ?_⟩
  rw [Nat.mod_add_mod, htranslate _ (Nat.mod_lt _ (by decide)), Nat.add_assoc] at hb
  rw [tableTree_of_same htables]
  exact hclear (len + k) (by omega) b hb

/-- A range that is mapped to distinct bytes is filled from the stream. -/
theorem loadSegment_stored (hS : Remaining S R) (hva : va < 2 ^ 64) (hst : R st bs)
    (hbs : size ≤ bs.length)
    (hclear : Clear v root va size)
    (hmapped : ∀ k < size, ∃ pa, translate v root ((va + k) % 2 ^ 64) = some pa)
    (hinj : ∀ i < size, ∀ j < size,
      translate v root ((va + i) % 2 ^ 64) = translate v root ((va + j) % 2 ^ 64) → i = j) :
    ∃ v' st', loadSegment S st v root va size = .ok (true, v', st') ∧ R st' (bs.drop size) ∧
      v' = { v with mem := v'.mem } ∧
      (∀ k < size, ∀ pa, translate v root ((va + k) % 2 ^ 64) = some pa → v'.mem pa = charAt bs k) ∧
      Same v.mem v'.mem fun x => ∀ k < size, translate v root ((va + k) % 2 ^ 64) ≠ some x := by
  induction size using Nat.strong_induction_on generalizing v va st bs with
  | _ size ih =>
    rcases Nat.eq_zero_or_pos size with rfl | hpos
    · refine ⟨v, st, ?_, by rwa [List.drop_zero], rfl,
        fun k hk => absurd hk (Nat.not_lt_zero k), Same.refl _ _⟩
      rw [loadSegment, dif_neg (by omega)]
    · obtain ⟨pa, hpa⟩ := hmapped 0 hpos
      rw [Nat.add_zero, Nat.mod_eq_of_lt hva] at hpa
      have hne := (hclear 0 hpos pa (by rwa [Nat.add_zero, Nat.mod_eq_of_lt hva])).1
      obtain ⟨hlen₀, hlen, hpage⟩ := firstPiece_le va hpos
      rw [loadSegment_step S st hva hpa hne hpos]
      generalize firstPiece va size = len at hlen₀ hlen hpage ⊢
      obtain ⟨hmem, hst'⟩ := batchLoad_eq v.mem pa hS hst (hlen.trans hbs)
      rw [hmem]
      generalize (batchLoad S st v.mem len pa).2 = st₁ at hst' ⊢
      have hsame : Same v.mem (v.mem.put pa len bs) fun x => x < pa ∨ pa + len ≤ x :=
        fun x hx => if_neg (by omega)
      obtain ⟨hpiece, htranslate, hclear'⟩ := piece_spec hva hpa hclear hlen hpage hsame
      have hshift : ∀ k, ((va + len) % 2 ^ 64 + k) % 2 ^ 64 = (va + (len + k)) % 2 ^ 64 := fun k => by
        rw [Nat.mod_add_mod, Nat.add_assoc]
      have hlt : ∀ x : ℕ, x % 2 ^ 64 < 2 ^ 64 := fun x => Nat.mod_lt _ (by decide)
      obtain ⟨v', st', heq, hR, hrest, hnew, hold⟩ := ih (size - len) (by omega)
        (v := { v with mem := v.mem.put pa len bs })
        (hlt (va + len)) hst' (by rw [List.length_drop]; omega)
        hclear' (fun k hk => by
          rw [htranslate _ (hlt _), hshift]
          exact hmapped (len + k) (by omega)) fun i hi j hj he => by
          rw [htranslate _ (hlt _), htranslate _ (hlt _), hshift, hshift] at he
          have := hinj (len + i) (by omega) (len + j) (by omega) he
          omega
      simp only [htranslate _ (hlt _), hshift] at hnew hold
      refine ⟨v', st', heq, ?_, hrest, fun k hk b hb => ?_, fun x hx => ?_⟩
      · rwa [List.drop_drop, show len + (size - len) = size by omega] at hR
      · by_cases hk' : k < len
        · obtain rfl := Option.some.inj ((hpiece k hk').symm.trans hb)
          rw [hold]
          · show v.mem.put pa len bs (pa + k) = _
            rw [put, if_pos (by omega), Nat.add_sub_cancel_left]
          · intro j hj he
            have := hinj k hk (len + j) (by omega) (hb.trans he.symm)
            omega
        · obtain ⟨j, rfl⟩ := Nat.exists_eq_add_of_le (not_lt.mp hk')
          rw [hnew j (by omega) b hb, charAt_drop]
      · rw [hold x fun k hk => hx (len + k) (by omega)]
        refine if_neg fun hin => hx (x - pa) (by omega) ?_
        rw [hpiece (x - pa) (by omega)]
        congr 1
        omega

/-- The loop stops at an address that is not mapped, and has written before it only. -/
theorem loadSegment_unmapped (S : StreamBase σ) (st : σ) (hva : va < 2 ^ 64)
    (hclear : Clear v root va size)
    {j : ℕ} (hj : j < size) (hunmapped : translate v root ((va + j) % 2 ^ 64) = none) :
    ∃ v' st', loadSegment S st v root va size = .ok (false, v', st') ∧ v' = { v with mem := v'.mem } ∧
      Same v.mem v'.mem fun x => ∀ k < j, translate v root ((va + k) % 2 ^ 64) ≠ some x := by
  induction size using Nat.strong_induction_on generalizing v va st j with
  | _ size ih =>
    cases hpa : translate v root va with
    | none =>
      obtain ⟨o, hvapa⟩ := vaToPA_translate v root va
      rw [hpa, Option.getD_none] at hvapa
      refine ⟨v, st, ?_, rfl, Same.refl _ _⟩
      rw [loadSegment, dif_pos (by omega), hvapa, ok_bind]
      rfl
    | some pa =>
      have hpos : 0 < size := by omega
      have hne := (hclear 0 hpos pa (by rwa [Nat.add_zero, Nat.mod_eq_of_lt hva])).1
      obtain ⟨hlen₀, hlen, hpage⟩ := firstPiece_le va hpos
      rw [loadSegment_step S st hva hpa hne hpos]
      generalize firstPiece va size = len at hlen₀ hlen hpage ⊢
      have hsame := batchLoad_same S st v.mem len pa
      generalize batchLoad S st v.mem len pa = r at hsame ⊢
      obtain ⟨hpiece, htranslate, hclear'⟩ := piece_spec hva hpa hclear hlen hpage hsame
      have hshift : ∀ k, ((va + len) % 2 ^ 64 + k) % 2 ^ 64 = (va + (len + k)) % 2 ^ 64 := fun k => by
        rw [Nat.mod_add_mod, Nat.add_assoc]
      have hlt : ∀ x : ℕ, x % 2 ^ 64 < 2 ^ 64 := fun x => Nat.mod_lt _ (by decide)
      have hlej : len ≤ j := by
        by_contra hjlen
        rw [hpiece j (by omega)] at hunmapped
        cases hunmapped
      obtain ⟨i, rfl⟩ := Nat.exists_eq_add_of_le hlej
      obtain ⟨v', st', heq, hrest, hold⟩ := ih (size - len) (by omega) (v := { v with mem := r.1 }) r.2
        (hlt (va + len)) hclear' (show i < size - len by omega) (by
          rw [htranslate _ (hlt _), hshift]
          exact hunmapped)
      simp only [htranslate _ (hlt _), hshift] at hold
      refine ⟨v', st', heq, hrest, fun x hx => ?_⟩
      rw [hold x fun k hk => hx (len + k) (by omega)]
      refine hsame x ?_
      by_contra hin
      refine hx (x - pa) (by omega) ?_
      rw [hpiece (x - pa) (by omega)]
      congr 1
      omega

/-! ## The range -/

/-- The pages of the range that are mapped are mapped to distinct pages. -/
def DistinctPages (v : VirtualMemory) (root va size : ℕ) : Prop :=
  ∀ i < size, ∀ j < size, ∀ a b, translate v root ((va + i) % 2 ^ 64) = some a →
    translate v root ((va + j) % 2 ^ 64) = some b → a / PGSIZE = b / PGSIZE →
      (va + i) % 2 ^ 64 / PGSIZE = (va + j) % 2 ^ 64 / PGSIZE

theorem DistinctPages.inj (h : DistinctPages v root va size) (hsize : size < 2 ^ 64)
    (hmapped : ∀ k < size, ∃ pa, translate v root ((va + k) % 2 ^ 64) = some pa) :
    ∀ i < size, ∀ j < size,
    translate v root ((va + i) % 2 ^ 64) = translate v root ((va + j) % 2 ^ 64) → i = j := by
  intro i hi j hj he
  obtain ⟨a, ha⟩ := hmapped i hi
  have hb := he.symm.trans ha
  have hpage := h i hi j hj a a ha hb rfl
  simp only [PGSIZE] at hpage
  obtain ⟨hmod, -⟩ := translate_page (Nat.mod_lt _ (by decide)) ha
  obtain ⟨hmod', -⟩ := translate_page (Nat.mod_lt _ (by decide)) hb
  omega

theorem physical_of_translate (h : translate v root a = some pa) : physical v root a = pa := by
  rw [physical_eq_getD, h, Option.getD_some]

/-- `LoadSegment` fills a range that is mapped to distinct pages, none of them a table of the page
table, with the next bytes of the stream; where it meets an address that is not mapped, it has
written before it only. -/
theorem loadSegment_copies_range (hS : Remaining S R) (hva : va < 2 ^ 64) (hsize : size < 2 ^ 64)
    (hclear : Clear v root va size) (hdistinct : DistinctPages v root va size) :
    (R st bs → size ≤ bs.length → (∀ k < size, ∃ pa, translate v root ((va + k) % 2 ^ 64) = some pa) →
      ∃ v' st', loadSegment S st v root va size = .ok (true, v', st') ∧ R st' (bs.drop size) ∧
        userBytes v' root va size = bs.take size ∧ v' = { v with mem := v'.mem } ∧
        ∀ x, (∀ k < size, x ≠ physical v root ((va + k) % 2 ^ 64)) → v'.mem x = v.mem x) ∧
      ∀ j < size, translate v root ((va + j) % 2 ^ 64) = none →
        ∃ v' st', loadSegment S st v root va size = .ok (false, v', st') ∧
        v' = { v with mem := v'.mem } ∧
          ∀ x, (∀ k < j, translate v root ((va + k) % 2 ^ 64) ≠ some x) → v'.mem x = v.mem x := by
  refine ⟨fun hst hbs hmapped => ?_,
    fun j hj hunmapped => loadSegment_unmapped S st hva hclear hj hunmapped⟩
  obtain ⟨v', st', heq, hR, hrest, hnew, hold⟩ :=
    loadSegment_stored hS hva hst hbs hclear hmapped (hdistinct.inj hsize hmapped)
  have htables : Same v.mem v'.mem (InTables (tableTree v.mem root)) := by
    intro x hx
    exact hold x fun k hk he => (hclear k hk x he).2 hx
  refine ⟨v', st', heq, hR, ?_, hrest, fun x hx => hold x fun k hk he => ?_⟩
  · have hlen : (userBytes v' root va size).length = (bs.take size).length := by
      rw [length_userBytes, List.length_take, Nat.min_eq_left hbs]
    refine ext_charAt hlen fun k hk => ?_
    rw [length_userBytes] at hk
    obtain ⟨pa, hpa⟩ := hmapped k hk
    have hpa' : translate v' root ((va + k) % 2 ^ 64) = some pa := by
      rw [hrest, translate_of_same htables (Nat.mod_lt _ (by decide)), hpa]
    rw [userBytes, charAt_map_range hk, physical_of_translate hpa', hnew k hk pa hpa, charAt_take hk]
  · exact hx k hk (physical_of_translate he).symm

/-- A string of two bytes into a region of a process. -/
theorem loadSegment_copies_range_two : ∃ (v v' : VirtualMemory) (root : ℕ) (st : StringStream),
    loadSegment StringStream.base ⟨[104, 105], 0⟩ v root 5 2 = .ok (true, v', st) ∧
      userBytes v' root 5 2 = [104, 105] := by
  obtain ⟨src, p, v, L, hl, hsrc, hp, hfree, hregions, hregion⟩ := TaskMemory.exists_forkable
  obtain ⟨q, -, w, T, L', -, -, hcopied⟩ := TaskMemory.fork_eq hl hsrc hp hfree
  have hspace := hcopied.space.userSpace
  have hmapped : ∀ k < 2, ∃ pa, translate w q.page_table ((5 + k) % 2 ^ 64) = some pa := by
    intro k hk
    have huses : src.Uses (5 + k) := by
      refine .inl ⟨0, by rw [hregions]; decide, ?_⟩
      rw [hregion]
      exact ⟨Nat.le_add_right 5 k, show 5 + k < 105 by omega⟩
    obtain ⟨-, b, -, hb, -⟩ := hcopied.mapped _ huses
    rw [Nat.mod_eq_of_lt (by omega), translate_eq hcopied.space (by omega), hb]
    exact ⟨_, rfl⟩
  have hclear : Clear w q.page_table 5 2 := by
    intro k hk pa hpa
    rw [hspace.eq_tableTree]
    exact ⟨hspace.ne_zero (Nat.mod_lt _ (by decide)) hpa,
      hspace.inTables_apart (Nat.mod_lt _ (by decide)) hpa⟩
  have hdistinct : DistinctPages w q.page_table 5 2 := by
    intro i hi j hj a b _ _ _
    simp only [PGSIZE]
    omega
  have hrange := @loadSegment_copies_range _ _ _ ⟨[104, 105], 0⟩
      [104, 105] w q.page_table 5 2 remaining_stringStream
    (by decide) (by decide) hclear hdistinct
  obtain ⟨v', st', heq, -, hbytes, -⟩ := hrange.1 ⟨rfl, by decide, by decide⟩ le_rfl hmapped
  exact ⟨w, v', q.page_table, st', heq, hbytes⟩

end OrangeOs.Kernel
