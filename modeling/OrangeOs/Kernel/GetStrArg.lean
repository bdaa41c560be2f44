import OrangeOs.Kernel.CopyChunks

/-! # String arguments

`GetStrArg` of `kernel/syscalls/utils.cc`. The function that it gives to `safe_copy` keeps the place
in the buffer from one call to the next; it stops after the 0 of the string. `dst` is the argument
of the system call.
-/

namespace OrangeOs.Kernel

open Fs VirtualMemory Memory
open Prog hiding ret

/-- The memory, and where the next character goes. -/
structure StrState where
  v : VirtualMemory
  buf : ℕ

namespace StrState

/-- `*buf = c`. -/
def put (s : StrState) (c : UInt8) : StrState :=
  { s with v := { s.v with mem := s.v.mem.put s.buf 1 [c] } }

end StrState

/-- The loop of the function that `GetStrArg` passes, from index `i` on with `left` characters of
the chunk. -/
def copyStr (ubuf : ℕ) : ℕ → ℕ → StrState → ℕ × StrState
  | 0, i, s => (i, s)
  | left + 1, i, s =>
    if s.v.mem (ubuf + i) ≠ 0 then
      let s := s.put (s.v.mem (ubuf + i))
      copyStr ubuf left (i + 1) { s with buf := s.buf + 1 }
    else (i, s.put 0)

def getStrArg (v : VirtualMemory) (page_table dst buf size : ℕ) : FsProg (ℕ × StrState) :=
  safeCopy StrState.v page_table (fun ubuf len s => return copyStr ubuf len 0 s) dst size 0 ⟨v, buf⟩

/-- The entries that `GetPTE` reads for an address: those of `k` levels and the last one. -/
def entryAddrs (v : VirtualMemory) (va : ℕ) : ℕ → ℕ → ℕ → List ℕ
  | 0, pte, i => [pte + 8 * vaIndex va i]
  | k + 1, pte, i =>
    (pte + 8 * vaIndex va i) :: entryAddrs v va k
    (pteTarget (v.mem.load (pte + 8 * vaIndex va i) 8)) (i - 1)

/-- `dst` is a string of the process. -/
structure UserString (v : VirtualMemory) (page_table dst : ℕ) (s : List UInt8) : Prop where
  chars : 0 ∉ s
  mapped : ∀ k ≤ s.length, ∃ pa,
    translate v page_table ((dst + k) % 2 ^ 64) = some pa ∧ v.mem pa = charAt s k

/-- A buffer of the kernel holds no part of a string of the process and no entry of the page table
for it. -/
structure BufferApart (v : VirtualMemory) (page_table dst n buf size : ℕ) : Prop where
  entry : ∀ k ≤ n, ∀ e ∈ entryAddrs v ((dst + k) % 2 ^ 64 / 4096 * 4096) 2 page_table 2,
    e + 8 ≤ buf ∨ buf + size ≤ e
  char : ∀ k ≤ n, ∀ pa, translate v page_table ((dst + k) % 2 ^ 64) = some pa →
    pa < buf ∨ buf + size ≤ pa

/-- The buffer has a string, and nothing else has changed. -/
structure Filled (v : VirtualMemory) (buf size : ℕ) (t : List UInt8) (v' : VirtualMemory) : Prop where
  rest : v' = { v with mem := v'.mem }
  same : Same v.mem v'.mem fun a => a < buf ∨ buf + size ≤ a
  room : t.length < size
  chars : ∀ k ≤ t.length, v'.mem (buf + k) = charAt t k

variable {v v' : VirtualMemory} {page_table va dst buf size n i j k pte left pa : ℕ}
    {s : List UInt8} {m' : Memory}

/-! ## The translation -/

/-- `GetPTE` goes the same way where the entries that it reads are the same. -/
theorem walk_same (va : ℕ) : ∀ k pte i, (∀ e ∈ entryAddrs v va k pte i, m'.load e 8 = v.mem.load e 8) →
    ∃ r, walk v va false pte i k = .ok (r, v) ∧
      walk { v with mem := m' } va false pte i k = .ok (r, { v with mem := m' }) ∧
      ∀ p, r = some p → p + 8 * vaIndex va (i - k) ∈ entryAddrs v va k pte i
  | 0, pte, i, _ => ⟨some pte, rfl, rfl, fun p hp => by
      cases hp
      exact List.mem_singleton_self _⟩
  | k + 1, pte, i, h => by
    have hfirst := h (pte + 8 * vaIndex va i) List.mem_cons_self
    rw [walk, walk]
    dsimp only
    rw [hfirst]
    by_cases hvalid : v.mem.load (pte + 8 * vaIndex va i) 8 &&& PTE.V = 0
    · rw [if_pos hvalid, if_pos hvalid]
      exact ⟨none, rfl, rfl, fun p hp => by cases hp⟩
    · rw [if_neg hvalid, if_neg hvalid]
      obtain ⟨r, hr, hr', hp⟩ :=
        walk_same va k (pteTarget (v.mem.load (pte + 8 * vaIndex va i) 8)) (i - 1)
        fun e he => h e (List.mem_cons_of_mem _ he)
      refine ⟨r, hr, hr', fun p hrp => List.mem_cons_of_mem _ ?_⟩
      have hmem := hp p hrp
      rwa [Nat.sub_sub, Nat.add_comm 1 k] at hmem

theorem getPTE_same (hva : va < 2 ^ 64)
    (h : ∀ e ∈ entryAddrs v (va / 4096 * 4096) 2 page_table 2, m'.load e 8 = v.mem.load e 8) :
    ∃ pte, v.getPTE page_table va false 3 = .ok (pte, v) ∧
      getPTE { v with mem := m' } page_table va false 3 = .ok (pte, { v with mem := m' }) ∧
      (pte ≠ 0 → m'.load pte 8 = v.mem.load pte 8) := by
  have hdown : (if va % PGSIZE ≠ 0 then addrCastDown va else va) = va / 4096 * 4096 := by
    rw [addrCastDown_eq hva]
    split
    · omega
    · next hz =>
      have : va % 4096 = 0 := not_not.mp hz
      omega
  have hlevel : ¬ (3 < 1 ∨ 3 > 3) := by decide
  obtain ⟨r, hr, hr', hp⟩ := walk_same (va / 4096 * 4096) 2 page_table 2 h
  rw [getPTE, getPTE]
  by_cases hroot : page_table = 0
  · rw [if_pos hroot, if_pos hroot]
    exact ⟨0, rfl, rfl, fun h0 => absurd rfl h0⟩
  · rw [if_neg hroot, if_neg hroot, if_neg hlevel, if_neg hlevel]
    simp only [hdown, Nat.reduceSub, hr, hr', ok_bind]
    cases r with
    | none => exact ⟨0, rfl, rfl, fun h0 => absurd rfl h0⟩
    | some p =>
      have hlast := h _ (hp p rfl)
      dsimp only
      exact ⟨_, rfl, rfl, fun _ => hlast⟩

/-- An address stands for the same where the entries for it are the same. -/
theorem translate_same (hva : va < 2 ^ 64)
    (h : ∀ e ∈ entryAddrs v (va / 4096 * 4096) 2 page_table 2, m'.load e 8 = v.mem.load e 8) :
    translate { v with mem := m' } page_table va = translate v page_table va := by
  obtain ⟨pte, hpte, hpte', hload⟩ := getPTE_same hva h
  rw [translate, translate, hpte, hpte']
  dsimp only
  by_cases h0 : pte = 0
  · rw [if_pos (.inl h0), if_pos (.inl h0)]
  · rw [hload h0]

theorem BufferApart.translate_eq (h : BufferApart v page_table dst n buf size)
    (hm : Same v.mem m' fun a => a < buf ∨ buf + size ≤ a) (hk : k ≤ n) :
    translate { v with mem := m' } page_table ((dst + k) % 2 ^ 64) =
      translate v page_table ((dst + k) % 2 ^ 64) := by
  refine translate_same (Nat.mod_lt _ (Nat.two_pow_pos 64)) fun e he => hm.load_eq fun i hi hi' => ?_
  have := h.entry k hk e he
  omega

/-! ## A chunk -/

/-- `n` characters of the string have been copied. -/
structure CopyingStr (v : VirtualMemory) (buf size : ℕ) (s : List UInt8) (n : ℕ)
    (v' : VirtualMemory) : Prop where
  rest : v' = { v with mem := v'.mem }
  same : Same v.mem v'.mem fun a => a < buf ∨ buf + size ≤ a
  chars : ∀ k < n, v'.mem (buf + k) = charAt s k

theorem CopyingStr.put (h : CopyingStr v buf size s n v') (hn : n < size) :
    CopyingStr v buf size s (n + 1) { v' with mem := v'.mem.put (buf + n) 1 [charAt s n] } where
  rest := by rw [h.rest]
  same a ha := by
    have hmem : v'.mem.put (buf + n) 1 [charAt s n] a = v'.mem a := if_neg (by omega)
    exact hmem.trans (h.same a ha)
  chars k hk := by
    by_cases hkn : k = n
    · subst hkn
      have hmem : v'.mem.put (buf + k) 1 [charAt s k] (buf + k) = charAt [charAt s k]
          (buf + k - (buf + k)) :=
        if_pos ⟨le_rfl, Nat.lt_succ_self _⟩
      rw [Nat.sub_self] at hmem
      exact hmem
    · have hmem : v'.mem.put (buf + n) 1 [charAt s n] (buf + k) = v'.mem (buf + k) := if_neg (by omega)
      exact hmem.trans (h.chars k (by omega))

/-- The characters of a chunk are copied, up to the 0 of the string if it is there. -/
theorem copyStr_spec (hs : 0 ∉ s) {ubuf : ℕ} : ∀ left i n v',
    CopyingStr v buf size s n v' → n ≤ s.length →
    n + left ≤ size →
    (∀ m', Same v.mem m' (fun a => a < buf ∨ buf + size ≤ a) → ∀ k < left, n + k ≤ s.length →
      m' (ubuf + i + k) = charAt s (n + k)) →
    if s.length - n < left then
      ∃ st, copyStr ubuf left i ⟨v', buf + n⟩ = (i + (s.length - n), st) ∧
      CopyingStr v buf size s (s.length + 1) st.v
    else
      ∃ st, copyStr ubuf left i ⟨v', buf + n⟩ = (i + left, st) ∧
      CopyingStr v buf size s (n + left) st.v ∧
        st.buf = buf + (n + left)
  | 0, i, n, v', h, _, _, _ => by
    rw [if_neg (Nat.not_lt_zero _)]
    exact ⟨_, rfl, h, rfl⟩
  | left + 1, i, n, v', h, hn, hsize, hchunk => by
    have hchar := hchunk v'.mem h.same 0 (Nat.succ_pos _) hn
    rw [Nat.add_zero, Nat.add_zero] at hchar
    have hstep : copyStr ubuf (left + 1) i ⟨v', buf + n⟩ =
        if charAt s n ≠ 0 then copyStr ubuf left (i + 1)
          ⟨{ v' with mem := v'.mem.put (buf + n) 1 [charAt s n] }, buf + (n + 1)⟩
        else (i, ⟨{ v' with mem := v'.mem.put (buf + n) 1 [0] }, buf + n⟩) := by
      rw [copyStr]
      dsimp only [StrState.put]
      rw [hchar]
      rfl
    rw [hstep]
    rcases Nat.lt_or_eq_of_le hn with hlt | rfl
    · have hne : charAt s n ≠ 0 := by
        rw [charAt_eq_getElem hlt]
        exact fun h0 => hs (h0 ▸ List.getElem_mem hlt)
      have ih := copyStr_spec hs left (i + 1)
          (n + 1) _ (h.put (by omega)) hlt (by omega) fun m' hm' k hk hkn => by
        have := hchunk m' hm' (k + 1) (by omega) (by omega)
        rwa [show ubuf + (i + 1) + k = ubuf + i + (k + 1) by omega,
          show n + 1 + k = n + (k + 1) by omega]
      rw [if_pos hne]
      by_cases hend : s.length - n < left + 1
      · rw [if_pos (show s.length - (n + 1) < left by omega)] at ih
        rw [if_pos hend]
        rwa [show i + (s.length - n) = i + 1 + (s.length - (n + 1)) by omega]
      · rw [if_neg (show ¬ s.length - (n + 1) < left by omega)] at ih
        rw [if_neg hend]
        rwa [show i + (left + 1) = i + 1 + left by omega, show n + (left + 1) = n + 1 + left by omega]
    · have hzero : charAt s s.length = 0 := charAt_of_le le_rfl
      have hput := h.put (by omega)
      rw [hzero] at hput
      rw [hzero, if_pos (show s.length - s.length < left + 1 by omega),
        if_neg (not_not.mpr rfl), Nat.sub_self]
      exact ⟨_, rfl, hput⟩

/-! ## The string -/

theorem getStrArg_loop (hs : UserString v page_table dst s)
    (hapart : BufferApart v page_table dst s.length buf size)
    (d : Disk) : ∀ left n done v', n + left = size → n ≤ s.length → CopyingStr v buf size s n v' →
    ∃ r st, (safeCopy StrState.v page_table (fun ubuf len s => return copyStr ubuf len 0 s)
    ((dst + n) % 2 ^ 64) left
        done ⟨v', buf + n⟩).run d = (.ok (r, st), d) ∧
      CopyingStr v buf size s (min (s.length + 1) size) st.v := by
  intro left
  induction left using Nat.strong_induction_on with
  | _ left ih =>
  intro n done v' hsize hn hcopy
  rw [safeCopy]
  by_cases hpos : left > 0
  · obtain ⟨pa, hpa, -⟩ := hs.mapped n hn
    have hva : (dst + n) % 2 ^ 64 < 2 ^ 64 := Nat.mod_lt _ (Nat.two_pow_pos 64)
    obtain ⟨hmod, hpage⟩ := translate_page hva hpa
    have hpa' : translate v' page_table ((dst + n) % 2 ^ 64) = some pa := by
      rw [hcopy.rest, hapart.translate_eq hcopy.same hn, hpa]
    obtain ⟨k, hk⟩ := vaToPA_translate v' page_table ((dst + n) % 2 ^ 64)
    rw [hpa', Option.getD_some] at hk
    obtain ⟨len, hlen⟩ : ∃ len, len = min (PGSIZE - pa % PGSIZE) left := ⟨_, rfl⟩
    have hlen' : len = min (4096 - pa % 4096) left := hlen
    have hmodlt : pa % 4096 < 4096 := Nat.mod_lt _ (by decide)
    have hlenpos : 0 < len ∧ len ≤ left ∧ (dst + n) % 2 ^ 64 % 4096 + len ≤ 4096 := by omega
    -- The chunk has the next characters of the string, and no write to the buffer changes them.
    have hchunk : ∀ m', Same v.mem m' (fun a => a < buf ∨ buf + size ≤ a) → ∀ k < len, n + k ≤ s.length →
        m' (pa + 0 + k) = charAt s (n + k) := by
      intro m' hm' k hk hkn
      obtain ⟨pa', hpa', hchar⟩ := hs.mapped (n + k) hkn
      have hin : (dst + n) % 2 ^ 64 % 4096 + k < 4096 := by omega
      have haddr : (dst + (n + k)) % 2 ^ 64 = (dst + n) % 2 ^ 64 + k := by
        rw [← Nat.add_assoc, ← Nat.mod_add_mod]
        refine Nat.mod_eq_of_lt ?_
        omega
      have heq : pa' = pa + k := by
        rw [haddr, hpage k (by omega)] at hpa'
        exact (Option.some.inj hpa').symm
      rw [Nat.add_zero, ← heq, hm' _ (hapart.char (n + k) hkn pa' hpa'), hchar]
    have hspec := copyStr_spec hs.chars len 0 n v' hcopy hn (by omega) hchunk
    rw [dif_pos hpos]
    simp only [hk, ← hlen]
    by_cases hend : s.length - n < len
    · rw [if_pos hend] at hspec
      obtain ⟨st, hst, hdone⟩ := hspec
      simp only [hst, run_bind, run_pure, Nat.zero_add, hend, if_true]
      refine ⟨_, st, rfl, ?_⟩
      rwa [show min (s.length + 1) size = s.length + 1 by omega]
    · rw [if_neg hend] at hspec
      obtain ⟨st, hst, hdone, hbuf⟩ := hspec
      have hst' : st = ⟨st.v, buf + (n + len)⟩ := by rw [← hbuf]
      have haddr : ((dst + n) % 2 ^ 64 + len) % 2 ^ 64 = (dst + (n + len)) % 2 ^ 64 := by omega
      simp only [hst, run_bind, run_pure, Nat.zero_add, lt_irrefl, if_false, haddr]
      rw [hst']
      exact ih (left - len) (by omega) (n + len) (done + len) st.v (by omega) (by omega) hdone
  · obtain rfl : left = 0 := Nat.eq_zero_of_not_pos hpos
    rw [dif_neg hpos]
    refine ⟨_, _, rfl, ?_⟩
    rwa [show min (s.length + 1) size = n by omega]

/-- A buffer that is full of characters has no string. -/
theorem not_filled (hs : 0 ∉ s) (h : CopyingStr v buf size s (min (s.length + 1) size) v')
    (hge : size ≤ s.length) :
    ¬ ∃ t, Filled v buf size t v' := by
  rintro ⟨t, ht⟩
  have hroom := ht.room
  have hzero := ht.chars t.length le_rfl
  rw [h.chars t.length (by omega), charAt_of_le le_rfl, charAt_eq_getElem (by omega)] at hzero
  exact hs (hzero ▸ List.getElem_mem _)

/-- `GetStrArg` leaves the string in the buffer exactly if the buffer has room for it and for its 0;
otherwise there is no 0 in the buffer. -/
theorem getStrArg_filled (hs : UserString v page_table dst s) (hdst : dst < 2 ^ 64)
    (hapart : BufferApart v page_table dst s.length buf size) (d : Disk) :
    ∃ r st, (getStrArg v page_table dst buf size).run d = (.ok (r, st), d) ∧
      ((∃ t, Filled v buf size t st.v ∧ 0 ∉ t ∧
          if s.length < size then t = s else t <+: s ∧ t ≠ s) ↔ s.length < size) := by
  have hcopy : CopyingStr v buf size s 0 v :=
    ⟨rfl, Same.refl _ _, fun _ hk => absurd hk (Nat.not_lt_zero _)⟩
  obtain ⟨r, st, hrun, hdone⟩ :=
    getStrArg_loop hs hapart d size 0 0 v (Nat.zero_add _) (Nat.zero_le _) hcopy
  rw [Nat.add_zero, Nat.mod_eq_of_lt hdst] at hrun
  refine ⟨r, st, hrun, fun ⟨t, ht, _⟩ => ?_, fun hlt => ⟨s, ?_, hs.chars, by rw [if_pos hlt]⟩⟩
  · by_contra hge
    exact not_filled hs.chars hdone (Nat.le_of_not_lt hge) ⟨t, ht⟩
  · rw [show min (s.length + 1) size = s.length + 1 by omega] at hdone
    exact ⟨hdone.rest, hdone.same, hlt, fun k hk => hdone.chars k (by omega)⟩

/-! ## A string in two pages -/

theorem translate_sample : ∀ k ≤ 2,
    translate sampleMemory 4096 ((4095 + k) % 2 ^ 64) = some (20479 + k) := by
  decide +kernel

theorem userString_sample : UserString sampleMemory 4096 4095 [97, 98] where
  chars := by decide
  mapped k hk := by
    refine ⟨_, translate_sample k hk, ?_⟩
    have hchars : ∀ k ≤ 2, sampleMemory.mem (20479 + k) = charAt [97, 98] k := by decide +kernel
    exact hchars k hk

theorem bufferApart_sample (size : ℕ) : BufferApart sampleMemory 4096 4095 2 65536 size where
  entry k hk e he := by
    have hentries : ∀ k ≤ 2, ∀ e ∈ entryAddrs sampleMemory ((4095 + k) % 2 ^ 64 / 4096 * 4096) 2 4096 2,
        e + 8 ≤ 65536 := by decide +kernel
    exact .inl (hentries k hk e he)
  char k hk pa hpa := by
    rw [translate_sample k hk] at hpa
    obtain rfl := Option.some.inj hpa
    omega

theorem getStrArg_filled_sample :
    ∃ r st, (getStrArg sampleMemory 4096 4095 65536 3).run (sampleDisk 100) =
    (.ok (r, st), sampleDisk 100) ∧
      ((∃ t, Filled sampleMemory 65536 3 t st.v ∧ 0 ∉ t ∧
        if [(97 : UInt8), 98].length < 3 then t = [97, 98] else t <+: [97, 98] ∧ t ≠ [97, 98]) ↔
        [(97 : UInt8), 98].length < 3) :=
  getStrArg_filled userString_sample (by decide) (bufferApart_sample 3) _

/-- A string of two characters in a buffer of two. -/
theorem getStrArg_unterminated :
    ¬ ∀ v page_table dst buf size s d, UserString v page_table dst s → dst < 2 ^ 64 → 1 ≤ size →
      BufferApart v page_table dst s.length buf size →
      ∃ r st, (getStrArg v page_table dst buf size).run d = (.ok (r, st), d) ∧
        ∃ t, Filled v buf size t st.v ∧ 0 ∉ t ∧ if s.length < size then t = s else t <+: s ∧ t ≠ s := by
  intro hall
  obtain ⟨r, st, hrun, t, ht, hzero, hcase⟩ :=
    hall sampleMemory 4096 4095 65536 2 [97, 98] (sampleDisk 100)
    userString_sample (by decide) (by decide) (bufferApart_sample 2)
  have hcopy : CopyingStr sampleMemory 65536 2 [97, 98] 0 sampleMemory :=
    ⟨rfl, Same.refl _ _, fun _ hk => absurd hk (Nat.not_lt_zero _)⟩
  obtain ⟨r', st', hrun', hdone⟩ :=
    getStrArg_loop userString_sample (bufferApart_sample 2) (sampleDisk 100) 2 0 0
    sampleMemory rfl (Nat.zero_le _) hcopy
  have heq := hrun.symm.trans hrun'
  simp only [Prod.mk.injEq, Except.ok.injEq, and_true] at heq
  obtain ⟨-, rfl⟩ := heq
  exact not_filled userString_sample.chars hdone le_rfl ⟨t, ht⟩

end OrangeOs.Kernel
