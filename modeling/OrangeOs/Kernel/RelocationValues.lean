import OrangeOs.Kernel.Relocation

/-! # The values of relocations

Each type of relocation has a rule for its word. `process_sym` follows the rules but for the addend
of a symbol. A run is followed in the memory without pages, where a loaded object keeps its tables
and its words apart.
-/

namespace OrangeOs.Kernel

open Memory Elf

variable {v : VirtualMemory} {root a pa n : ℕ} {m M : Memory}

namespace DynamicLoader

variable (l : DynamicLoader) (h : DynHeaders) (M : Memory)

/-! ## A loaded object -/

/-- The addresses of an entry, of its symbol and of its word. -/
def entryAt (i : ℕ) : ℕ := l.entryVa .rela h.rela_hdr i M

def symbolAt (i : ℕ) : ℕ := l.symVa h.sym_hdr (l.entryAt h M i + 1) M

def targetAt (i : ℕ) : ℕ := l.targetVa (l.entryAt h M i + 1) M

/-- The members of an entry, and the value of its symbol. -/
def typeAt (i : ℕ) : ℕ := M.load (l.entryAt h M i + 1 + 8) 8 % 2 ^ 32

def addendAt (i : ℕ) : ℕ := M.load (l.entryAt h M i + 1 + 16) 8

def stValueAt (i : ℕ) : ℕ := M.load (l.symbolAt h M i + 1 + 8) 8

/-- What the rules require of the word of an entry. -/
def required (i : ℕ) : Option ℕ :=
  if l.typeAt h M i = R_RISCV_64 then some ((l.stValueAt h M i + l.offset + l.addendAt h M i) % 2 ^ 64)
  else if l.typeAt h M i = R_RISCV_JUMP_SLOT then some ((l.stValueAt h M i + l.offset) % 2 ^ 64)
  else if l.typeAt h M i = R_RISCV_RELATIVE then some ((l.addendAt h M i + l.offset) % 2 ^ 64)
  else none

/-- What `process_sym` writes there. -/
def written (i : ℕ) : Option ℕ := l.valueAt .rela (l.entryAt h M i + 1) (l.symbolAt h M i + 1) M

/-- Two ranges have no address in common. -/
def Apart (a n b k : ℕ) : Prop := a + n ≤ b ∨ b + k ≤ a

/-- The word of an entry is apart from a record. -/
def Spares (n p k : ℕ) : Prop :=
  ∀ i < n, l.required h M i ≠ none → Apart (l.targetAt h M i + 1) 8 p k

/-- An object with a table of `n` relocations whose records are not broken and are apart from the
words. -/
structure LoadedObject (v : VirtualMemory) (root : ℕ) (dynamic_info : DynamicInfo) (n : ℕ) : Prop where
  dyn_info_num : dynamic_info.dynamic_size / dynSize < 2 ^ 32
  headers : l.ideal.headers M dynamic_info.dynamic_vaddr (dynamic_info.dynamic_size / dynSize) = h
  rela_hdr : h.rela_hdr ≠ 0
  rela_size : h.rela_size ≠ 0
  sym_hdr : h.sym_hdr ≠ 0
  symstr_hdr : h.symstr_hdr ≠ 0
  no_rel : h.rel_hdr = 0 ∨ h.rel_size = 0
  need_relo_num : d_un M h.rela_size / ReloType.rela.size = n
  lt : n < 2 ^ 32
  dyn : ∀ i < dynamic_info.dynamic_size / dynSize,
    Unbroken v root ((dynamic_info.dynamic_vaddr + i * dynSize) % 2 ^ 64) dynSize
  entry : ∀ i < n, Unbroken v root (l.entryAt h M i) ReloType.rela.size
  symbol : ∀ i < n, Unbroken v root (l.symbolAt h M i) symSize
  target : ∀ i < n, l.required h M i ≠ none → Unbroken v root (l.targetAt h M i) 8
  apart : ∀ i < n, ∀ j < n, i ≠ j → l.required h M i ≠ none → l.required h M j ≠ none →
    Apart (l.targetAt h M i) 8 (l.targetAt h M j) 8
  spares_rela_hdr : l.Spares h M n h.rela_hdr dynSize
  spares_sym_hdr : l.Spares h M n h.sym_hdr dynSize
  spares_entry : ∀ i < n, l.Spares h M n (l.entryAt h M i + 1) ReloType.rela.size
  spares_symbol : ∀ i < n, l.Spares h M n (l.symbolAt h M i + 1) symSize

/-- The loader has relocated an object by the rules: without a fault, with the words that are
required, and with no other change. -/
def Follows (v : VirtualMemory) (root : ℕ) (dynamic_info : DynamicInfo) (n : ℕ) : Prop :=
  ∃ s init, (l.on v root).processDynamicInfo dynamic_info v.mem = .ok (s, init) ∧
    (∀ i < n, ∀ w, l.required h (contents v root) i = some w →
      (contents { v with mem := s.m } root).load (l.targetAt h (contents v root) i + 1) 8 = w) ∧
    ∀ a pa, a < 2 ^ 39 → translate v root a = some pa →
      (∀ i < n, l.required h (contents v root) i ≠ none →
      Apart (l.targetAt h (contents v root) i) 8 a 1) →
      contents { v with mem := s.m } root (a + 1) = contents v root (a + 1)

/-- The memory after the rounds before `i`. -/
structure Done (i : ℕ) (t : Relocated) : Prop where
  outside : ∀ x, (∀ j < i, l.required h M j ≠ none → Apart (l.targetAt h M j + 1) 8 x 1) → t.m x = M x
  inside : ∀ j < i, ∀ value, l.written h M j = some value → t.m.load (l.targetAt h M j + 1) 8 = value

variable {l h M} {i o p k w : ℕ} {dynamic_info : DynamicInfo} {t : Relocated}

/-! ## What is required and what is written -/

theorem written_eq (l : DynamicLoader) (h : DynHeaders) (M : Memory) (i : ℕ) : l.written h M i =
    l.reloValue .rela (l.typeAt h M i) (l.stValueAt h M i) (l.addendAt h M i) := rfl

theorem written_symbol (htype : l.typeAt h M i = R_RISCV_64) :
    l.written h M i = some ((l.stValueAt h M i + l.offset) % 2 ^ 64) := by
  rw [written_eq, reloValue, if_pos htype]

theorem required_symbol (htype : l.typeAt h M i = R_RISCV_64) :
    l.required h M i = some ((l.stValueAt h M i + l.offset + l.addendAt h M i) % 2 ^ 64) := by
  rw [required, if_pos htype]

/-- Other types than that of a symbol are as the rules require. -/
theorem required_eq_written (htype : l.typeAt h M i ≠ R_RISCV_64) :
    l.required h M i = l.written h M i := by
  rw [required, written_eq, reloValue, if_neg htype, if_neg htype, if_pos rfl]

theorem required_eq_none_iff : l.required h M i = none ↔ l.written h M i = none := by
  by_cases htype : l.typeAt h M i = R_RISCV_64
  · rw [required_symbol htype, written_symbol htype]
    exact iff_of_false (Option.some_ne_none _) (Option.some_ne_none _)
  · rw [required_eq_written htype]

theorem required_ne_none {value : ℕ} (hw : l.written h M i = some value) : l.required h M i ≠ none :=
  fun hnone => Option.some_ne_none value (hw.symm.trans (required_eq_none_iff.mp hnone))

/-- The words agree exactly when no addend is left out. -/
theorem required_eq_written_iff : l.required h M i = l.written h M i ↔
    (l.typeAt h M i = R_RISCV_64 → l.addendAt h M i = 0) := by
  by_cases htype : l.typeAt h M i = R_RISCV_64
  · have haddend : l.addendAt h M i < 2 ^ 64 := load_lt _ _ 8
    rw [required_symbol htype, written_symbol htype, Option.some.injEq]
    generalize l.addendAt h M i = r_addend at haddend ⊢
    generalize l.stValueAt h M i + l.offset = value
    exact ⟨fun he _ => by omega, fun hz => by rw [hz htype, Nat.add_zero]⟩
  · exact iff_of_true (required_eq_written htype) fun he => absurd he htype

/-! ## The rounds -/

theorem Spares.le {i : ℕ} (hs : l.Spares h M n p k) (hi : i ≤ n) : l.Spares h M i p k :=
  fun j hj => hs j (hj.trans_le hi)

/-- What the rounds spare is as it was. -/
theorem Done.load_eq (hd : l.Done h M i t) (hs : l.Spares h M i p k) (how : o + w ≤ k) :
    t.m.load (p + o) w = M.load (p + o) w := by
  refine load_congr fun x hx => hd.outside _ fun j hj hw => ?_
  have hapart := hs j hj hw
  simp only [Apart] at hapart ⊢
  omega

theorem Done.zero (u : Use) : l.Done h M 0 (Relocated.use ⟨M, [], []⟩ u) :=
  ⟨fun _ _ => rfl, fun _ hj => absurd hj (Nat.not_lt_zero _)⟩

theorem written_lt {value : ℕ} (hw : l.written h M i = some value) : value < 2 ^ 64 := by
  have hlt : ∀ x : ℕ, x % 2 ^ 64 < 2 ^ 64 := fun x => Nat.mod_lt _ (by decide)
  rw [written, valueAt, reloValue] at hw
  split_ifs at hw
  all_goals
    obtain rfl := Option.some.inj hw
    exact hlt _

/-- What a round computes is what it would compute at the start. -/
structure Unchanged (l : DynamicLoader) (h : DynHeaders) (M : Memory) (i : ℕ) (m : Memory) : Prop where
  entry : l.entryVa .rela h.rela_hdr i m = l.entryAt h M i
  symbol : l.symVa h.sym_hdr (l.entryAt h M i + 1) m = l.symbolAt h M i
  target : l.targetVa (l.entryAt h M i + 1) m = l.targetAt h M i
  value : l.valueAt .rela (l.entryAt h M i + 1) (l.symbolAt h M i + 1) m = l.written h M i

theorem Done.unchanged (hd : l.Done h M i t)
    (hl : l.LoadedObject h M v root dynamic_info n) (hi : i < n) :
    Unchanged l h M i t.m := by
  have hle := Nat.le_of_lt hi
  have hrela : d_un t.m h.rela_hdr = d_un M h.rela_hdr :=
    hd.load_eq (hl.spares_rela_hdr.le hle) (by decide)
  have hsym : d_un t.m h.sym_hdr = d_un M h.sym_hdr := hd.load_eq (hl.spares_sym_hdr.le hle) (by decide)
  have hentry := (hl.spares_entry i hi).le hle
  have hoffset := hd.load_eq (o := 0) (w := 8) hentry (by decide)
  have hinfo := hd.load_eq (o := 8) (w := 8) hentry (by decide)
  have haddend := hd.load_eq (o := 16) (w := 8) hentry (by decide)
  have hvalue := hd.load_eq (o := 8) (w := 8) ((hl.spares_symbol i hi).le hle) (by decide)
  rw [Nat.add_zero] at hoffset
  refine ⟨?_, ?_, ?_, ?_⟩
  · rw [entryVa, hrela, entryAt, entryVa]
  · rw [symVa, hsym, hinfo, symbolAt, symVa]
  · rw [targetVa, hoffset, targetAt, targetVa]
  · rw [valueAt, hinfo, hvalue, haddend, written, valueAt]

/-- One round writes the word of its entry. -/
theorem relo_eq (hneed : ¬ l.need_iterate = true) (hu : Unchanged l h M i t.m) :
    l.ideal.relo .rela h.rela_hdr h.sym_hdr h.symstr_hdr i t =
      (l.written h M i).elim (t.use (.entry .rela h.rela_hdr i))
        (l.ideal.put (t.use (.entry .rela h.rela_hdr i)) (l.targetAt h M i)) := by
  have hoff : ¬ l.ideal.need_iterate = true := hneed
  have hentry : l.ideal.va_to_pa_util t.m (l.ideal.entryVa .rela h.rela_hdr i t.m) =
      l.entryAt h M i + 1 :=
    congrArg (· + 1) hu.entry
  have hsymbol : l.ideal.va_to_pa_util t.m (l.ideal.symVa h.sym_hdr (l.entryAt h M i + 1) t.m) =
      l.symbolAt h M i + 1 := congrArg (· + 1) hu.symbol
  have hvalue : l.ideal.valueAt .rela (l.entryAt h M i + 1) (l.symbolAt h M i + 1)
      (t.use (.entry .rela h.rela_hdr i)).m = l.written h M i := hu.value
  have htarget : l.ideal.targetVa (l.entryAt h M i + 1) (t.use (.entry .rela h.rela_hdr i)).m =
      l.targetAt h M i := hu.target
  rw [relo, processSym_eq hentry hsymbol]
  dsimp only
  rw [resolve_off hoff, writeAt, hvalue, htarget]

theorem ideal_put_m (t : Relocated) (va value : ℕ) :
    (l.ideal.put t va value).m = t.m.store (va + 1) 8 value := rfl

/-- A step of the run. -/
theorem Done.succ (hd : l.Done h M i t) (hl : l.LoadedObject h M v root dynamic_info n) (hi : i < n)
    (hneed : ¬ l.need_iterate = true) :
    l.Done h M (i + 1) (l.ideal.relo .rela h.rela_hdr h.sym_hdr h.symstr_hdr i t) := by
  rw [relo_eq hneed (hd.unchanged hl hi)]
  cases hw : l.written h M i with
  | none =>
    refine ⟨fun x hx => hd.outside x fun j hj => hx j (Nat.lt_succ_of_lt hj), fun j hj value hwj => ?_⟩
    rcases Nat.lt_succ_iff_lt_or_eq.mp hj with hlt | rfl
    · exact hd.inside j hlt value hwj
    · cases hw.symm.trans hwj
  | some value =>
    refine ⟨fun x hx => ?_, fun j hj value' hwj => ?_⟩
    · have hout := hx i (Nat.lt_succ_self i) (required_ne_none hw)
      simp only [Apart] at hout
      rw [← hd.outside x fun j hj => hx j (Nat.lt_succ_of_lt hj), Option.elim_some, ideal_put_m]
      exact store_same _ _ _ _ x (by omega)
    · rcases Nat.lt_succ_iff_lt_or_eq.mp hj with hlt | rfl
      · have hapart := hl.apart j (hlt.trans hi) i hi (Nat.ne_of_lt hlt)
          (required_ne_none hwj) (required_ne_none hw)
        simp only [Apart] at hapart
        rw [← hd.inside j hlt value' hwj, Option.elim_some, ideal_put_m]
        exact load_store_of_disjoint _ _ (by omega)
      · obtain rfl := Option.some.inj (hw.symm.trans hwj)
        exact load_store_of_lt _ _ (written_lt hw)

/-- The records of a round are not broken. -/
theorem Done.roundFits (hd : l.Done h M i t) (hl : l.LoadedObject h M v root dynamic_info n) (hi : i < n)
    (hneed : ¬ l.need_iterate = true) :
    l.RoundFits v root .rela h.rela_hdr h.sym_hdr h.symstr_hdr i t := by
  have hu := hd.unchanged hl hi
  refine ⟨?_, ?_, fun value hvalue => ?_, fun hon => absurd hon hneed⟩
  · rw [hu.entry]
    exact hl.entry i hi
  · rw [hu.entry, hu.symbol]
    exact hl.symbol i hi
  · rw [hu.entry, hu.symbol, hu.value] at hvalue
    rw [hu.entry, hu.target]
    exact hl.target i hi (required_ne_none hvalue)

/-- The run. -/
theorem Done.reloFrom (hl : l.LoadedObject h M v root dynamic_info n) (hneed : ¬ l.need_iterate = true)
    (k : ℕ) (hd : l.Done h M i t) (hik : i + k = n) :
    l.RoundsFit v root .rela h.rela_hdr h.sym_hdr h.symstr_hdr i k t ∧
      l.Done h M n (l.ideal.reloFrom .rela h.rela_hdr h.sym_hdr h.symstr_hdr i k t) := by
  induction k generalizing i t with
  | zero =>
    obtain rfl : i = n := hik
    exact ⟨trivial, hd⟩
  | succ k ih =>
    obtain ⟨hfit, hdone⟩ := ih (hd.succ hl (by omega) hneed) (by omega)
    exact ⟨⟨hd.roundFits hl (by omega) hneed, hfit⟩, hdone⟩

/-! ## The object -/

theorem LoadedObject.fits (hl : l.LoadedObject h M v root dynamic_info n)
    (hneed : ¬ l.need_iterate = true) :
    l.Fits v root dynamic_info M where
  dyn := hl.dyn
  rela h' he := by
    obtain rfl := hl.headers.symm.trans he
    intro _ _ _ _
    dsimp only
    rw [hl.need_relo_num]
    exact (Done.reloFrom hl hneed n (Done.zero _) (Nat.zero_add n)).1
  rel h' t he _ := by
    obtain rfl := hl.headers.symm.trans he
    exact fun hhdr hsize => absurd hl.no_rel (not_or.mpr ⟨hhdr, hsize⟩)

/-- In the memory without pages. -/
theorem LoadedObject.ideal_run (hl : l.LoadedObject h M v root dynamic_info n)
    (hneed : ¬ l.need_iterate = true) :
    ∃ t init, l.ideal.processDynamicInfo dynamic_info M = .ok (t, init) ∧ l.Done h M n t := by
  have hnum : d_un M h.rela_size / ReloType.rela.size < 2 ^ 32 := hl.need_relo_num.trans_lt hl.lt
  have hrela := @processTable_rela l.ideal h .rela ⟨M, [], []⟩ hl.rela_hdr hl.rela_size hnum
  dsimp only at hrela
  rw [hl.need_relo_num] at hrela
  rw [processDynamicInfo_eq hl.dyn_info_num hl.headers hl.sym_hdr hl.symstr_hdr, hrela, ok_bind,
    processTable_absent _ hl.no_rel, ok_bind]
  exact ⟨_, _, rfl, (Done.reloFrom hl hneed n (Done.zero _) (Nat.zero_add n)).2⟩

/-- In the memory of the process. -/
theorem LoadedObject.run (hl : l.LoadedObject h (contents v root) v root dynamic_info n)
    (hp : Placed v root) (hneed : ¬ l.need_iterate = true) :
    ∃ s t init, (l.on v root).processDynamicInfo dynamic_info v.mem = .ok (s, init) ∧
    Shows v root s.m t.m ∧
      l.Done h (contents v root) n t := by
  obtain ⟨t, init, hideal, hdone⟩ := hl.ideal_run hneed
  have hagree := processDynamicInfo_agree hp (fun hon => absurd hon hneed) (shows_contents v root)
    (hl.fits hneed)
  rw [hideal] at hagree
  generalize (l.on v root).processDynamicInfo dynamic_info v.mem = x at hagree ⊢
  cases hagree with
  | ok hr => exact ⟨_, t, _, rfl, hr.1.shows, hdone⟩

/-! ## The rules -/

/-- What a process sees in a memory of its own. -/
theorem contents_eq (hm : Shows v root m M) (ha : a < 2 ^ 39) (hpa : translate v root a = some pa) :
    contents { v with mem := m } root (a + 1) = M (a + 1) := by
  have hutil : physical { v with mem := m } root a = physical v root a := hm.util_eq (by omega)
  rw [contents, Nat.add_sub_cancel, hutil, physical_of_translate hpa]
  exact hm.bytes a pa ha hpa

theorem contents_load (hm : Shows v root m M) (hu : Unbroken v root a n) :
    (contents { v with mem := m } root).load (a + 1) n = M.load (a + 1) n := by
  refine load_congr fun k hk => ?_
  rw [Nat.add_right_comm]
  exact contents_eq hm (by have := hu.1; omega) (hu.2 k hk)

/-- The loader follows the rules exactly when every symbolic entry has the addend 0. -/
theorem processDynamicInfo_follows (hp : Placed v root) (hneed : ¬ l.need_iterate = true)
    (hl : l.LoadedObject h (contents v root) v root dynamic_info n) :
    l.Follows h v root dynamic_info n ↔ ∀ i < n, l.typeAt h (contents v root) i = R_RISCV_64 →
      l.addendAt h (contents v root) i = 0 := by
  obtain ⟨s, t, init, hrun, hm, hdone⟩ := hl.run hp hneed
  have hword : ∀ i < n, ∀ value, l.written h (contents v root) i = some value →
      (contents { v with mem := s.m } root).load (l.targetAt h (contents v root) i + 1) 8 = value := by
    intro i hi value hw
    rw [contents_load hm (hl.target i hi (required_ne_none hw))]
    exact hdone.inside i hi value hw
  constructor
  · rintro ⟨s', init', hrun', hrequired, -⟩ i hi
    obtain ⟨rfl, -⟩ := Prod.mk.inj (Except.ok.inj (hrun.symm.trans hrun'))
    refine required_eq_written_iff.mp ?_
    cases hw : l.written h (contents v root) i with
    | none => exact required_eq_none_iff.mpr hw
    | some value =>
      obtain ⟨w, hreq⟩ := Option.ne_none_iff_exists'.mp (required_ne_none hw)
      rw [hreq, ← hrequired i hi w hreq, hword i hi value hw]
  · intro hzero
    have hsame : ∀ i < n, l.required h (contents v root) i = l.written h (contents v root) i :=
      fun i hi => required_eq_written_iff.mpr (hzero i hi)
    refine ⟨s, init, hrun, fun i hi w hw => hword i hi w ((hsame i hi).symm.trans hw), ?_⟩
    intro a pa ha hpa hout
    rw [contents_eq hm ha hpa]
    refine hdone.outside _ fun j hj hw => ?_
    have hapart := hout j hj hw
    simp only [Apart] at hapart ⊢
    omega

/-! ## A symbol with an addend -/

/-- An entry for the second symbol, whose value is 100. -/
def symbolEntry (r_addend : ℕ) : List (ℕ × ℕ) :=
  relaSection 768 24 ++ [(768, 1024), (776, 2 ^ 32 + R_RISCV_64), (784, r_addend), (544, 100)]

def symbolHeaders : DynHeaders := ⟨257, 273, 0, 0, 289, 305, 0, 0⟩

/-- Where the records of the object are. -/
theorem symbolEntry_at {r_addend : ℕ} (hr : r_addend = 0 ∨ r_addend = 8) {l : DynamicLoader}
    (hl : sampleLoader 5 (symbolEntry r_addend) = l) {M : Memory}
    (hM : contents (sampleObject 5 (symbolEntry r_addend)) 4096 = M) :
    l.ideal.headers M 256 (64 / dynSize) = symbolHeaders ∧ d_un M 273 / ReloType.rela.size = 1 ∧
      l.entryAt symbolHeaders M 0 = 768 ∧ l.symbolAt symbolHeaders M 0 = 536 ∧
      l.targetAt symbolHeaders M 0 = 1024 := by
  subst hl hM
  rcases hr with rfl | rfl
  · decide +kernel
  · decide +kernel

theorem loadedObject_symbolEntry {r_addend : ℕ} (hr : r_addend = 0 ∨ r_addend = 8) :
    (sampleLoader 5 (symbolEntry r_addend)).LoadedObject symbolHeaders
      (contents (sampleObject 5 (symbolEntry r_addend)) 4096)
      (sampleObject 5 (symbolEntry r_addend)) 4096
      ⟨256, 64⟩ 1 := by
  have hwhole := fun a (k : ℕ) => @unbroken_sample a k 5 (.inl rfl) (symbolEntry r_addend)
  generalize hM : contents (sampleObject 5 (symbolEntry r_addend)) 4096 = M
  generalize hl : sampleLoader 5 (symbolEntry r_addend) = l
  obtain ⟨hheaders, hnum, hentry, hsymbol, htarget⟩ := symbolEntry_at hr hl hM
  have hone : ∀ {P : ℕ → Prop}, P 0 → ∀ i < 1, P i := fun h0 i hi => by
    obtain rfl : i = 0 := by omega
    exact h0
  have hspares : ∀ p k : ℕ, p + k ≤ 1024 → l.Spares symbolHeaders M 1 p k := fun p k hle =>
    hone fun _ => .inr (by rw [htarget]; omega)
  exact {
    dyn_info_num := by decide
    headers := hheaders
    rela_hdr := by decide
    rela_size := by decide
    sym_hdr := by decide
    symstr_hdr := by decide
    no_rel := .inl rfl
    need_relo_num := hnum
    lt := by decide
    dyn := fun i hi => hwhole _ _ (by
      have hi : i < 4 := hi
      simp only [dynSize]
      omega)
    entry := hone (by rw [hentry]; exact hwhole _ _ (by decide))
    symbol := hone (by rw [hsymbol]; exact hwhole _ _ (by decide))
    target := hone fun _ => by rw [htarget]; exact hwhole _ _ (by decide)
    apart := fun i hi j hj hne => absurd (by omega) hne
    spares_rela_hdr := hspares _ _ (by decide)
    spares_sym_hdr := hspares _ _ (by decide)
    spares_entry := hone (by rw [hentry]; exact hspares _ _ (by decide))
    spares_symbol := hone (by rw [hsymbol]; exact hspares _ _ (by decide)) }

theorem processDynamicInfo_follows_zero :
    (sampleLoader 5 (symbolEntry 0)).Follows symbolHeaders (sampleObject 5 (symbolEntry 0)) 4096
      ⟨256, 64⟩ 1 :=
  (processDynamicInfo_follows (placed_sample (.inl rfl) _) (by decide)
    (loadedObject_symbolEntry (.inl rfl))).mpr (by decide +kernel)

/-- The addend 8 is left out. -/
theorem processDynamicInfo_follows_addend : ¬ ∀ (l : DynamicLoader) (h : DynHeaders) (v : VirtualMemory)
    (root n : ℕ) (dynamic_info : DynamicInfo), Placed v root → ¬ l.need_iterate = true →
    l.LoadedObject h (contents v root) v root dynamic_info n → l.Follows h v root dynamic_info n := by
  intro hall
  obtain ⟨s, init, hrun, hrequired, -⟩ := hall _ _ _ _ _ _ (placed_sample (.inl rfl) (symbolEntry 8))
    (by decide) (loadedObject_symbolEntry (.inr rfl))
  have hword := hrequired 0 (by decide) 108 (by decide +kernel)
  rw [(symbolEntry_at (.inr rfl) rfl rfl).2.2.2.2] at hword
  have hwritten : (((sampleLoader 5 (symbolEntry 8)).on (sampleObject 5 (symbolEntry 8))
      4096).processDynamicInfo ⟨256, 64⟩ (sampleObject 5 (symbolEntry 8)).mem).toOption.map
        (fun r => (contents { sampleObject 5 (symbolEntry 8) with mem := r.1.m } 4096).load 1025 8) =
      some 100 := by decide +kernel
  rw [hrun] at hwritten
  cases hword.symm.trans (Option.some.inj hwritten)

end DynamicLoader

end OrangeOs.Kernel
