import OrangeOs.Kernel.DynamicLoader
import OrangeOs.Kernel.LoadSegment

/-! # Relocation and the placement of pages

The loader translates the address of a record and reads the record from there on. It is compared
with itself in a memory without pages: where no record is broken by the end of a page, it writes the
same words.
-/

namespace OrangeOs.Kernel

open Memory Elf

variable {v v₁ v₂ : VirtualMemory} {root root₁ root₂ a b n o w pa p q x : ℕ} {m m' M : Memory}

/-! ## Placements -/

/-- Different addresses stand for different bytes, and none of them is in a table. -/
structure Placed (v : VirtualMemory) (root : ℕ) : Prop where
  inj : ∀ a b pa, a < 2 ^ 39 → b < 2 ^ 39 → translate v root a = some pa → translate v root b = some pa →
    a = b
  tables : ∀ a pa, a < 2 ^ 39 → translate v root a = some pa → pa ≠ 0 ∧
    ¬ InTables (tableTree v.mem root) pa

theorem UserSpace.placed {T : List (Fin 512) → Option ℕ} {L : List ℕ} (h : UserSpace v root T L) :
    Placed v root where
  inj a b pa ha hb hpa hpb := h.translate_inj ha hb hpa hpb
  tables a pa ha hpa := by
    rw [h.eq_tableTree]
    exact ⟨h.ne_zero (by omega) hpa, h.inTables_apart (by omega) hpa⟩

/-- The `n` bytes from an address on are one after the other in memory. -/
def Unbroken (v : VirtualMemory) (root a n : ℕ) : Prop :=
  a + n ≤ 2 ^ 39 ∧ ∀ k < n, translate v root (a + k) = some (physical v root a + k)

/-- What lies in one page is not broken. -/
theorem unbroken_of_page (ha : a + n ≤ 2 ^ 39) (hpage : a % 4096 + n ≤ 4096)
    (hmapped : translate v root a = some pa) :
    Unbroken v root a n := by
  refine ⟨ha, fun k hk => ?_⟩
  rw [physical_of_translate hmapped]
  exact (translate_page (by omega) hmapped).2 k (by omega)

/-- A memory holds, for a page table, what another memory holds without one, where the byte of
address `a` is at `a + 1`, so that no pointer is 0. -/
structure Shows (v : VirtualMemory) (root : ℕ) (m M : Memory) : Prop where
  tables : Same v.mem m (InTables (tableTree v.mem root))
  bytes : ∀ a pa, a < 2 ^ 39 → translate v root a = some pa → m pa = M (a + 1)

namespace Shows

theorem util_eq (h : Shows v root m M) (ha : a < 2 ^ 64) : vaToPaUtil v root m a =
    physical v root a := by
  rw [vaToPaUtil, physical_eq_getD, physical_eq_getD, translate_of_same h.tables ha]

/-- A field of a record. -/
theorem load_eq (h : Shows v root m M) (hu : Unbroken v root a n) (how : o + w ≤ n) :
    m.load (physical v root a + o) w = M.load (a + 1 + o) w := by
  refine leNat_congr fun k hk => ?_
  have hbyte := h.bytes (a + (o + k)) _ (by have := hu.1; omega) (hu.2 (o + k) (by omega))
  rw [← Nat.add_assoc] at hbyte
  rw [hbyte]
  congr 1
  omega

/-- A word of the process. -/
theorem store (hp : Placed v root) (h : Shows v root m M) (hu : Unbroken v root a n) (x : ℕ) :
    Shows v root (m.store (physical v root a) n x) (M.store (a + 1) n x) where
  tables y hy := by
    have hout : y < physical v root a ∨ physical v root a + n ≤ y := by
      by_contra hin
      have hmapped := hu.2 (y - physical v root a) (by omega)
      have hle := hu.1
      exact (hp.tables _ _ (by omega) hmapped).2 (by rwa [Nat.add_sub_cancel' (by omega)])
    rw [store_same _ _ _ _ y hout]
    exact h.tables y hy
  bytes b pa hb hpa := by
    by_cases hin : a ≤ b ∧ b < a + n
    · have hmapped := hu.2 (b - a) (by omega)
      rw [Nat.add_sub_cancel' hin.1, hpa] at hmapped
      obtain rfl := Option.some.inj hmapped
      have hnew : m.store (physical v root a) n x (physical v root a + (b - a)) = leByte x (b - a) := by
        rw [Memory.store, if_pos (by omega), Nat.add_sub_cancel_left]
      have hnew' : M.store (a + 1) n x (b + 1) = leByte x (b - a) := by
        rw [Memory.store, if_pos (by omega), Nat.add_sub_add_right]
      rw [hnew, hnew']
    · have hout : pa < physical v root a ∨ physical v root a + n ≤ pa := by
        by_contra hin'
        have hmapped := hu.2 (pa - physical v root a) (by omega)
        rw [Nat.add_sub_cancel' (by omega)] at hmapped
        have := hp.inj _ _ _ hb (by have := hu.1; omega) hpa hmapped
        omega
      rw [store_same _ _ _ _ pa hout, store_same _ _ _ _ (b + 1) (by omega)]
      exact h.bytes b pa hb hpa

end Shows

namespace DynamicLoader

/-- The loader for the page table of a process. -/
def on (l : DynamicLoader) (v : VirtualMemory) (root : ℕ) : DynamicLoader :=
  { l with va_to_pa_util := vaToPaUtil v root }

/-- The loader in a memory without pages. -/
def ideal (l : DynamicLoader) : DynamicLoader := { l with va_to_pa_util := fun _ va => va + 1 }

/-- Two strings agree up to the end of the first. -/
def SameName (m m' : Memory) (p q : ℕ) : Prop := ∀ k, (∀ j < k, m (p + j) ≠ 0) → m' (q + k) = m (p + k)

/-- `iterate_symtab` reads nothing but the name, up to its end. -/
def ByName (iterate_symtab : Memory → ℕ → ℕ) : Prop :=
  ∀ m m' p q, SameName m m' p q → iterate_symtab m' q = iterate_symtab m p

/-- The name at an address of the memory without pages is not broken. -/
def UnbrokenName (v : VirtualMemory) (root : ℕ) (M : Memory) (q : ℕ) : Prop :=
  ∀ k, (∀ j < k, M (q + j) ≠ 0) → Unbroken v root (q - 1) (k + 1)

/-- A page table does not break the records that one round reads and writes. -/
structure RoundFits (l : DynamicLoader) (v : VirtualMemory) (root : ℕ) (type : ReloType)
    (relo_dyn sym_hdr symstr_hdr index : ℕ) (t : Relocated) : Prop where
  entry : Unbroken v root (l.entryVa type relo_dyn index t.m) type.size
  symbol : Unbroken v root (l.symVa sym_hdr (l.entryVa type relo_dyn index t.m + 1) t.m) symSize
  target : ∀ value, l.valueAt type (l.entryVa type relo_dyn index t.m + 1)
      (l.symVa sym_hdr (l.entryVa type relo_dyn index t.m + 1) t.m + 1) t.m = some value →
    Unbroken v root (l.targetVa (l.entryVa type relo_dyn index t.m + 1) t.m) 8
  name : l.need_iterate = true → ∀ s q a,
    l.ideal.processSym type relo_dyn sym_hdr symstr_hdr index t = (s, q, a) →
      UnbrokenName v root s.m q ∧ Unbroken v root a 8

/-- Nor does it for the rounds from an index on. -/
def RoundsFit (l : DynamicLoader) (v : VirtualMemory) (root : ℕ) (type : ReloType)
    (relo_dyn sym_hdr symstr_hdr : ℕ) (i : ℕ) : ℕ → Relocated → Prop
  | 0, _ => True
  | k + 1, t => l.RoundFits v root type relo_dyn sym_hdr symstr_hdr i t ∧
    RoundsFit l v root type relo_dyn sym_hdr symstr_hdr (i + 1) k
      (l.ideal.relo type relo_dyn sym_hdr symstr_hdr i t)

/-- Two pointers to one record of the dynamic section. -/
def Points (v : VirtualMemory) (root p q : ℕ) : Prop :=
  ∃ a, Unbroken v root a dynSize ∧ p = physical v root a ∧ q = a + 1

/-- The loader has made the same of the memory, and has written the same words. -/
structure Agree (v : VirtualMemory) (root : ℕ) (s t : Relocated) : Prop where
  shows : Shows v root s.m t.m
  writes : s.writes = t.writes

variable {l : DynamicLoader} {type : ReloType} {s t : Relocated} {h : DynHeaders}
  {relo_dyn sym_hdr symstr_hdr relo_dyn' sym_hdr' symstr_hdr' index i k va value sym_dyn sym : ℕ}

/-! ## One round -/

theorem Points.d_un_eq (hp : Points v root p q) (hm : Shows v root m M) : d_un m p = d_un M q := by
  obtain ⟨a, ha, rfl, rfl⟩ := hp
  exact hm.load_eq ha (by decide)

theorem Agree.put (hp : Placed v root) (ha : Agree v root s t) (hu : Unbroken v root va 8) (value : ℕ) :
    Agree v root ((l.on v root).put s va value) (l.ideal.put t va value) where
  shows := by
    have hlt : va < 2 ^ 64 := by have := hu.1; omega
    show Shows v root (s.m.store (vaToPaUtil v root s.m va) 8 value) (t.m.store (va + 1) 8 value)
    rw [ha.shows.util_eq hlt]
    exact ha.shows.store hp hu value
  writes := congrArg (· ++ [(va, value)]) ha.writes

/-- For `Elf64_Rel` the addend is not used. -/
theorem reloValue_rel (relo_type st_value r_addend r_addend' : ℕ) :
    l.reloValue .rel relo_type st_value r_addend = l.reloValue .rel relo_type st_value r_addend' := rfl

theorem valueAt_eq (hm : Shows v root m M) (hentry : Unbroken v root a type.size)
    (hsymbol : Unbroken v root b symSize) :
    l.valueAt type (physical v root a) (physical v root b) m = l.valueAt type (a + 1) (b + 1) M := by
  have hinfo : m.load (physical v root a + 8) 8 = M.load (a + 1 + 8) 8 :=
    hm.load_eq hentry (by cases type <;> decide)
  have hvalue : m.load (physical v root b + 8) 8 = M.load (b + 1 + 8) 8 := hm.load_eq hsymbol (by decide)
  rw [valueAt, valueAt, hinfo, hvalue]
  cases type with
  | rela =>
    have haddend : m.load (physical v root a + 16) 8 = M.load (a + 1 + 16) 8 :=
      hm.load_eq hentry (by decide)
    rw [haddend]
  | rel => exact reloValue_rel ..

theorem targetVa_eq (hm : Shows v root m M) (hentry : Unbroken v root a type.size) :
    l.targetVa (physical v root a) m = l.targetVa (a + 1) M := by
  have hload := hm.load_eq (o := 0) hentry (show 0 + 8 ≤ type.size by cases type <;> decide)
  rw [Nat.add_zero, Nat.add_zero] at hload
  rw [targetVa, targetVa, hload]

theorem entryVa_eq (hm : Shows v root m M) (hrelo : Points v root relo_dyn relo_dyn') :
    l.entryVa type relo_dyn index m = l.entryVa type relo_dyn' index M := by
  rw [entryVa, entryVa, hrelo.d_un_eq hm]

theorem symVa_eq (hm : Shows v root m M) (hsym : Points v root sym_hdr sym_hdr')
    (hentry : Unbroken v root a type.size) :
    l.symVa sym_hdr (physical v root a) m = l.symVa sym_hdr' (a + 1) M := by
  rw [symVa, symVa, hsym.d_un_eq hm, hm.load_eq hentry (by cases type <;> decide)]

theorem nameVa_eq (hm : Shows v root m M) (hstr : Points v root symstr_hdr symstr_hdr')
    (hsymbol : Unbroken v root a symSize) :
    l.nameVa symstr_hdr (physical v root a) m = l.nameVa symstr_hdr' (a + 1) M := by
  have hload := hm.load_eq (o := 0) hsymbol (show 0 + 4 ≤ symSize by decide)
  rw [Nat.add_zero, Nat.add_zero] at hload
  rw [nameVa, nameVa, hstr.d_un_eq hm, hload]

theorem writeAt_agree (hp : Placed v root) (ha : Agree v root s t) (hentry : Unbroken v root a type.size)
    (hsymbol : Unbroken v root b symSize)
    (htarget : ∀ value, l.valueAt type (a + 1) (b + 1) t.m = some value →
      Unbroken v root (l.targetVa (a + 1) t.m) 8) :
    Agree v root ((l.on v root).writeAt type (physical v root a) (physical v root b) s)
      (l.ideal.writeAt type (a + 1) (b + 1) t) := by
  have hvalue : (l.on v root).valueAt type (physical v root a) (physical v root b) s.m =
      l.ideal.valueAt type (a + 1) (b + 1) t.m := valueAt_eq ha.shows hentry hsymbol
  have htargetVa : (l.on v root).targetVa (physical v root a) s.m = l.ideal.targetVa (a + 1) t.m :=
    targetVa_eq ha.shows hentry
  rw [writeAt, writeAt, hvalue, htargetVa]
  cases hw : l.ideal.valueAt type (a + 1) (b + 1) t.m with
  | none => exact ha
  | some value => exact ha.put hp (htarget value hw) value

/-- `process_sym`, from the addresses of the entry and of the symbol on. -/
theorem processSym_eq (hentry : l.va_to_pa_util s.m (l.entryVa type relo_dyn index s.m) = sym_dyn)
    (hsymbol : l.va_to_pa_util s.m (l.symVa sym_hdr sym_dyn s.m) = sym) :
    l.processSym type relo_dyn sym_hdr symstr_hdr index s =
      (l.writeAt type sym_dyn sym (s.use (.entry type relo_dyn index)),
        l.va_to_pa_util s.m (l.nameVa symstr_hdr sym s.m),
        l.targetVa sym_dyn (l.writeAt type sym_dyn sym (s.use (.entry type relo_dyn index))).m) := by
  subst hentry hsymbol
  rfl

theorem processSym_agree (hp : Placed v root) (ha : Agree v root s t)
    (hrelo : Points v root relo_dyn relo_dyn')
    (hsym : Points v root sym_hdr sym_hdr') (hstr : Points v root symstr_hdr symstr_hdr')
    (hfits : l.RoundFits v root type relo_dyn' sym_hdr' symstr_hdr' index t) :
    ∃ s' t' name target, (l.on v root).processSym type relo_dyn sym_hdr symstr_hdr index s =
        (s', physical v root name, target) ∧
      l.ideal.processSym type relo_dyn' sym_hdr' symstr_hdr' index t = (t', name + 1, target) ∧
      Agree v root s' t' := by
  have hm := ha.shows
  obtain ⟨hentry, hsymbol, htarget, -⟩ := hfits
  have hlt : ∀ x : ℕ, x % 2 ^ 64 < 2 ^ 64 := fun x => Nat.mod_lt _ (by decide)
  have hideal := @processSym_eq l.ideal type t relo_dyn' sym_hdr' symstr_hdr' index _ _ rfl rfl
  have hentryPa : (l.on v root).va_to_pa_util s.m ((l.on v root).entryVa type relo_dyn index s.m) =
      physical v root (l.entryVa type relo_dyn' index t.m) :=
    (congrArg _ (entryVa_eq hm hrelo)).trans (hm.util_eq (hlt _))
  have hsymPa : (l.on v root).va_to_pa_util s.m ((l.on v root).symVa sym_hdr
      (physical v root (l.entryVa type relo_dyn' index t.m)) s.m) =
        physical v root (l.symVa sym_hdr' (l.entryVa type relo_dyn' index t.m + 1) t.m) :=
    (congrArg _ (symVa_eq hm hsym hentry)).trans (hm.util_eq (hlt _))
  have hname := (congrArg (vaToPaUtil v root s.m) (nameVa_eq (l := l) hm hstr hsymbol)).trans
    (hm.util_eq (hlt _))
  have hagree := writeAt_agree (s := s.use (.entry type relo_dyn index))
    (t := t.use (.entry type relo_dyn' index)) hp ⟨ha.shows, ha.writes⟩ hentry hsymbol htarget
  refine ⟨_, _, _, _, ?_, hideal, hagree⟩
  rw [processSym_eq hentryPa hsymPa]
  exact Prod.ext rfl (Prod.ext hname (targetVa_eq hagree.shows hentry))

theorem sameName (hm : Shows v root m M) (hname : UnbrokenName v root M (a + 1)) :
    SameName M m (a + 1) (physical v root a) := by
  intro k hk
  have hu := hname k hk
  rw [Nat.add_sub_cancel] at hu
  have hbyte := hm.bytes (a + k) _ (by have := hu.1; omega) (hu.2 k (Nat.lt_succ_self k))
  rw [hbyte]
  congr 1
  omega

theorem resolve_on (hneed : l.need_iterate = true) (s : Relocated) (sym_name target : ℕ) :
    l.resolve s sym_name target =
      if l.iterate_symtab s.m sym_name > 0 then
        l.put s target ((l.offset_ + l.iterate_symtab s.m sym_name) % 2 ^ 64)
      else s := if_pos hneed

theorem resolve_off (hneed : ¬ l.need_iterate = true) (s : Relocated) (sym_name target : ℕ) :
    l.resolve s sym_name target = s := if_neg hneed

theorem relo_agree (hp : Placed v root) (hsearch : l.need_iterate = true → ByName l.iterate_symtab)
    (ha : Agree v root s t) (hrelo : Points v root relo_dyn relo_dyn')
    (hsym : Points v root sym_hdr sym_hdr')
    (hstr : Points v root symstr_hdr symstr_hdr')
    (hfits : l.RoundFits v root type relo_dyn' sym_hdr' symstr_hdr' index t) :
    Agree v root ((l.on v root).relo type relo_dyn sym_hdr symstr_hdr index s)
      (l.ideal.relo type relo_dyn' sym_hdr' symstr_hdr' index t) := by
  obtain ⟨s', t', name, target, hs, ht, hagree⟩ := processSym_agree hp ha hrelo hsym hstr hfits
  rw [relo, relo, hs, ht]
  dsimp only
  by_cases hneed : l.need_iterate = true
  · obtain ⟨hunbroken, htarget⟩ := hfits.name hneed _ _ _ ht
    have hon : (l.on v root).need_iterate = true := hneed
    have hideal : l.ideal.need_iterate = true := hneed
    have hsame : (l.on v root).iterate_symtab s'.m (physical v root name) =
        l.ideal.iterate_symtab t'.m (name + 1) := hsearch hneed _ _ _ _ (sameName hagree.shows hunbroken)
    rw [resolve_on hon, resolve_on hideal, hsame]
    split
    · exact hagree.put hp htarget _
    · exact hagree
  · have hon : ¬ (l.on v root).need_iterate = true := hneed
    have hideal : ¬ l.ideal.need_iterate = true := hneed
    rw [resolve_off hon, resolve_off hideal]
    exact hagree

/-- A run of rounds. -/
theorem reloFrom_agree (hp : Placed v root) (hsearch : l.need_iterate = true → ByName l.iterate_symtab)
    (k i : ℕ) (ha : Agree v root s t) (hrelo : Points v root relo_dyn relo_dyn')
    (hsym : Points v root sym_hdr sym_hdr') (hstr : Points v root symstr_hdr symstr_hdr')
    (hfits : l.RoundsFit v root type relo_dyn' sym_hdr' symstr_hdr' i k t) :
    Agree v root ((l.on v root).reloFrom type relo_dyn sym_hdr symstr_hdr i k s)
      (l.ideal.reloFrom type relo_dyn' sym_hdr' symstr_hdr' i k t) := by
  induction k generalizing i s t with
  | zero => exact ha
  | succ k ih => exact ih (i + 1) (relo_agree hp hsearch ha hrelo hsym hstr hfits.1) hfits.2

/-! ## The headers -/

/-- Two pointers are both 0, or point to one record. -/
def Names (v : VirtualMemory) (root p q : ℕ) : Prop := p = 0 ∧ q = 0 ∨ p ≠ 0 ∧ q ≠ 0 ∧ Points v root p q

theorem Names.zero_iff (hn : Names v root p q) : p = 0 ↔ q = 0 := by
  rcases hn with ⟨rfl, rfl⟩ | ⟨hp, hq, -⟩
  · rfl
  · exact iff_of_false hp hq

theorem Names.points (hn : Names v root p q) (hne : q ≠ 0) : Points v root p q := by
  rcases hn with ⟨-, rfl⟩ | ⟨-, -, hp⟩
  · exact absurd rfl hne
  · exact hp

/-- The headers that were found are the same. -/
structure SameHeaders (v : VirtualMemory) (root : ℕ) (h h' : DynHeaders) : Prop where
  rela_hdr : Names v root h.rela_hdr h'.rela_hdr
  rela_size : Names v root h.rela_size h'.rela_size
  rel_hdr : Names v root h.rel_hdr h'.rel_hdr
  rel_size : Names v root h.rel_size h'.rel_size
  sym_hdr : Names v root h.sym_hdr h'.sym_hdr
  symstr_hdr : Names v root h.symstr_hdr h'.symstr_hdr
  init_array : Names v root h.init_array h'.init_array
  init_array_sz : Names v root h.init_array_sz h'.init_array_sz

theorem SameHeaders.note {h' : DynHeaders} (hs : SameHeaders v root h h') (hn : Names v root p q)
    (htag : m.load p 8 = M.load q 8) : SameHeaders v root (h.note m p) (h'.note M q) := by
  have hfield : ∀ tag x y : ℕ, Names v root x y →
      Names v root (if m.load p 8 = tag then p else x) (if M.load q 8 = tag then q else y) := by
    intro tag x y hxy
    rw [htag]
    split
    · exact hn
    · exact hxy
  constructor <;> dsimp only [DynHeaders.note]
  · exact hfield _ _ _ hs.rela_hdr
  · exact hfield _ _ _ hs.rela_size
  · exact hfield _ _ _ hs.rel_hdr
  · exact hfield _ _ _ hs.rel_size
  · exact hfield _ _ _ hs.sym_hdr
  · exact hfield _ _ _ hs.symstr_hdr
  · exact hfield _ _ _ hs.init_array
  · exact hfield _ _ _ hs.init_array_sz

theorem names_record (hp : Placed v root) (hu : Unbroken v root a dynSize) :
    Names v root (physical v root a) (a + 1) := by
  have hmapped := hu.2 0 (by decide)
  have hle := hu.1
  have hlt : a + 0 < 2 ^ 39 := by
    simp only [dynSize] at hle
    omega
  exact .inr ⟨(hp.tables _ _ hlt hmapped).1, Nat.succ_ne_zero a, a, hu, rfl, rfl⟩

theorem headers_same (hp : Placed v root) (hm : Shows v root m M) (dynamic_vaddr n : ℕ)
    (hfits : ∀ i < n, Unbroken v root ((dynamic_vaddr + i * dynSize) % 2 ^ 64) dynSize) :
    SameHeaders v root ((l.on v root).headers m dynamic_vaddr n)
      (l.ideal.headers M dynamic_vaddr n) := by
  induction n with
  | zero => exact ⟨.inl ⟨rfl, rfl⟩, .inl ⟨rfl, rfl⟩, .inl ⟨rfl, rfl⟩, .inl ⟨rfl, rfl⟩, .inl ⟨rfl, rfl⟩,
      .inl ⟨rfl, rfl⟩, .inl ⟨rfl, rfl⟩, .inl ⟨rfl, rfl⟩⟩
  | succ n ih =>
    have hu := hfits n (Nat.lt_succ_self n)
    have hutil : (l.on v root).va_to_pa_util m ((dynamic_vaddr + n * dynSize) % 2 ^ 64) =
        physical v root ((dynamic_vaddr + n * dynSize) % 2 ^ 64) := hm.util_eq (Nat.mod_lt _ (by decide))
    have htag := hm.load_eq (o := 0) (w := 8) hu (by decide)
    rw [headers_succ, headers_succ, hutil]
    exact (ih fun i hi => hfits i (Nat.lt_succ_of_lt hi)).note (names_record hp hu) htag

/-! ## The tables -/

/-- A page table does not break the records that are read for a table of relocations. -/
def TableFits (l : DynamicLoader) (v : VirtualMemory) (root : ℕ) (h : DynHeaders) (hdr size : ℕ)
    (type : ReloType) (t : Relocated) : Prop :=
  hdr ≠ 0 → size ≠ 0 → h.rela_size ≠ 0 → h.rela_hdr ≠ 0 →
    l.RoundsFit v root type h.rela_hdr h.sym_hdr h.symstr_hdr 0 (d_un t.m h.rela_size / type.size)
      (t.use (.size h.rela_size))

/-- Nor the records of the dynamic section. -/
structure Fits (l : DynamicLoader) (v : VirtualMemory) (root : ℕ)
    (dynamic_info : DynamicInfo) (M : Memory) :
    Prop where
  dyn : ∀ i < dynamic_info.dynamic_size / dynSize,
    Unbroken v root ((dynamic_info.dynamic_vaddr + i * dynSize) % 2 ^ 64) dynSize
  rela : ∀ h, l.ideal.headers M dynamic_info.dynamic_vaddr (dynamic_info.dynamic_size / dynSize) = h →
    l.TableFits v root h h.rela_hdr h.rela_size .rela ⟨M, [], []⟩
  rel : ∀ h t, l.ideal.headers M dynamic_info.dynamic_vaddr (dynamic_info.dynamic_size / dynSize) = h →
    l.ideal.processTable h h.rela_hdr h.rela_size .rela ⟨M, [], []⟩ = .ok t →
    l.TableFits v root h h.rel_hdr h.rel_size .rel t

/-- Two runs fail in the same way, or have the same results. -/
inductive SameOutcome {α : Type} (R : α → α → Prop) : Except LoaderFault α → Except LoaderFault α → Prop
  | ok {x y : α} : R x y → SameOutcome R (.ok x) (.ok y)
  | error (e : LoaderFault) : SameOutcome R (.error e) (.error e)

theorem SameOutcome.bind {α β : Type} {R : α → α → Prop} {S : β → β → Prop} {x y : Except LoaderFault α}
    {f g : α → Except LoaderFault β} (hxy : SameOutcome R x y)
    (hfg : ∀ a b, y = .ok b → R a b → SameOutcome S (f a) (g b)) :
    SameOutcome S (x >>= f) (y >>= g) := by
  cases hxy with
  | ok hab => exact hfg _ _ rfl hab
  | error e => exact .error e

theorem Agree.use (ha : Agree v root s t) (u u' : Use) : Agree v root (s.use u) (t.use u') :=
  ⟨ha.shows, ha.writes⟩

theorem processTable_agree {h' : DynHeaders} {hdr hdr' size size' : ℕ} (hp : Placed v root)
    (hsearch : l.need_iterate = true → ByName l.iterate_symtab) (ha : Agree v root s t)
    (hh : SameHeaders v root h h') (hhdr : Names v root hdr hdr') (hsize : Names v root size size')
    (hsym : h'.sym_hdr ≠ 0) (hstr : h'.symstr_hdr ≠ 0)
    (hfits : l.TableFits v root h' hdr' size' type t) :
    SameOutcome (Agree v root) ((l.on v root).processTable h hdr size type s)
      (l.ideal.processTable h' hdr' size' type t) := by
  by_cases habsent : hdr' = 0 ∨ size' = 0
  · have habsent₁ : hdr = 0 ∨ size = 0 := habsent.imp hhdr.zero_iff.mpr hsize.zero_iff.mpr
    rw [processTable_absent _ habsent, processTable_absent _ habsent₁]
    exact .ok ha
  · have habsent₁ : ¬ (hdr = 0 ∨ size = 0) := fun h => habsent (h.imp hhdr.zero_iff.mp hsize.zero_iff.mp)
    obtain ⟨hhdr0, hsize0⟩ := not_or.mp habsent
    rw [processTable, processTable, if_neg habsent, if_neg habsent₁]
    by_cases hrela : h'.rela_size = 0
    · rw [if_pos hrela, if_pos (hh.rela_size.zero_iff.mpr hrela)]
      exact .error _
    · have hnum := (hh.rela_size.points hrela).d_un_eq ha.shows
      rw [if_neg hrela, if_neg fun h0 => hrela (hh.rela_size.zero_iff.mp h0), hnum]
      dsimp only
      by_cases hnull : d_un t.m h'.rela_size / type.size ≠ 0 ∧ h'.rela_hdr = 0
      · rw [if_pos hnull, if_pos ⟨hnull.1, hh.rela_hdr.zero_iff.mpr hnull.2⟩]
        exact .error _
      · rw [if_neg hnull, if_neg fun hn => hnull ⟨hn.1, hh.rela_hdr.zero_iff.mp hn.2⟩]
        split
        · exact .error _
        · refine .ok ?_
          have huse := ha.use (.size h.rela_size) (.size h'.rela_size)
          by_cases hzero : d_un t.m h'.rela_size / type.size = 0
          · rw [hzero]
            exact huse
          · have hrela_hdr : h'.rela_hdr ≠ 0 := fun h0 => hnull ⟨hzero, h0⟩
            exact reloFrom_agree hp hsearch _ 0 huse (hh.rela_hdr.points hrela_hdr)
              (hh.sym_hdr.points hsym)
              (hh.symstr_hdr.points hstr) (hfits hhdr0 hsize0 hrela hrela_hdr)

theorem initArray_eq {h' : DynHeaders} (hh : SameHeaders v root h h') (hm : Shows v root m M) :
    initArray h m = initArray h' M := by
  rw [initArray, initArray]
  by_cases hthere : h'.init_array ≠ 0 ∧ h'.init_array_sz ≠ 0
  · rw [if_pos hthere, if_pos ⟨fun h0 => hthere.1 (hh.init_array.zero_iff.mp h0),
      fun h0 => hthere.2 (hh.init_array_sz.zero_iff.mp h0)⟩, (hh.init_array.points hthere.1).d_un_eq hm,
      (hh.init_array_sz.points hthere.2).d_un_eq hm]
  · rw [if_neg hthere, if_neg fun h0 => hthere ⟨fun h1 => h0.1 (hh.init_array.zero_iff.mpr h1),
      fun h1 => h0.2 (hh.init_array_sz.zero_iff.mpr h1)⟩]

/-- The loader of a process does what it does in a memory without pages. -/
theorem processDynamicInfo_agree {dynamic_info : DynamicInfo} (hp : Placed v root)
    (hsearch : l.need_iterate = true → ByName l.iterate_symtab) (hm : Shows v root m M)
    (hfits : l.Fits v root dynamic_info M) :
    SameOutcome (fun x y => Agree v root x.1 y.1 ∧ x.2 = y.2)
      ((l.on v root).processDynamicInfo dynamic_info m) (l.ideal.processDynamicInfo dynamic_info M) := by
  have hh := headers_same (l := l) hp hm dynamic_info.dynamic_vaddr _ hfits.dyn
  have hstart : Agree v root ⟨m, [], []⟩ ⟨M, [], []⟩ := ⟨hm, rfl⟩
  rw [processDynamicInfo, processDynamicInfo]
  dsimp only
  split
  · exact .error _
  · generalize hn : dynamic_info.dynamic_size / dynSize = n at hh
    generalize hideal : l.ideal.headers M dynamic_info.dynamic_vaddr n = h' at hh
    generalize (l.on v root).headers m dynamic_info.dynamic_vaddr n = h at hh
    rw [← hn] at hideal
    by_cases hthere : h'.sym_hdr = 0 ∨ h'.symstr_hdr = 0
    · rw [if_pos hthere, if_pos (hthere.imp hh.sym_hdr.zero_iff.mpr hh.symstr_hdr.zero_iff.mpr)]
      exact .ok ⟨hstart, rfl⟩
    · rw [if_neg hthere, if_neg fun h0 => hthere
        (h0.imp hh.sym_hdr.zero_iff.mp hh.symstr_hdr.zero_iff.mp)]
      obtain ⟨hsym, hstr⟩ := not_or.mp hthere
      refine (processTable_agree hp hsearch hstart hh hh.rela_hdr hh.rela_size hsym hstr
        (hfits.rela h' hideal)).bind fun s t ht hst => ?_
      refine (processTable_agree hp hsearch hst hh hh.rel_hdr hh.rel_size hsym hstr
        (hfits.rel h' t hideal ht)).bind fun s' t' _ hst' => ?_
      exact .ok ⟨hst', initArray_eq hh hst'.shows⟩

/-! ## Two placements -/

/-- What a process sees, without pages. -/
def contents (v : VirtualMemory) (root : ℕ) : Memory := fun p => v.mem (physical v root (p - 1))

theorem shows_contents (v : VirtualMemory) (root : ℕ) : Shows v root v.mem (contents v root) where
  tables := Same.refl _ _
  bytes a pa _ hpa := by rw [contents, Nat.add_sub_cancel, physical_of_translate hpa]

/-- Two placements of pages hold the same. -/
def SameContents (v₁ : VirtualMemory) (root₁ : ℕ) (m₁ : Memory) (v₂ : VirtualMemory) (root₂ : ℕ)
    (m₂ : Memory) : Prop :=
  ∀ a < 2 ^ 39, (translate v₁ root₁ a).map m₁ = (translate v₂ root₂ a).map m₂

theorem SameContents.shows (h : SameContents v₁ root₁ v₁.mem v₂ root₂ v₂.mem) :
    Shows v₂ root₂ v₂.mem (contents v₁ root₁) where
  tables := Same.refl _ _
  bytes a pa ha hpa := by
    have hbyte := h a ha
    rw [hpa, Option.map_some, Option.map_eq_some_iff] at hbyte
    obtain ⟨pa', hpa', hbyte⟩ := hbyte
    rw [← hbyte]
    exact (shows_contents v₁ root₁).bytes a pa' ha hpa'

/-- The runs of the loader in two placements have written the same words, return the same and leave the
same. -/
structure SameRun (v₁ : VirtualMemory) (root₁ : ℕ) (v₂ : VirtualMemory) (root₂ : ℕ)
    (x y : Relocated × ℕ × ℕ) : Prop where
  writes : x.1.writes = y.1.writes
  init : x.2 = y.2
  contents : SameContents v₁ root₁ x.1.m v₂ root₂ y.1.m

/-- Where neither of two placements of the same memory breaks a record, relocation does the same in
both. -/
theorem processDynamicInfo_placement (l : DynamicLoader) (dynamic_info : DynamicInfo)
    (hp₁ : Placed v₁ root₁)
    (hp₂ : Placed v₂ root₂) (hsearch : ByName l.iterate_symtab)
    (hsame : SameContents v₁ root₁ v₁.mem v₂ root₂ v₂.mem)
    (hfits₁ : l.Fits v₁ root₁ dynamic_info (contents v₁ root₁))
    (hfits₂ : l.Fits v₂ root₂ dynamic_info (contents v₁ root₁)) :
    SameOutcome (SameRun v₁ root₁ v₂ root₂) ((l.on v₁ root₁).processDynamicInfo dynamic_info v₁.mem)
      ((l.on v₂ root₂).processDynamicInfo dynamic_info v₂.mem) := by
  have h₁ := processDynamicInfo_agree hp₁ (fun _ => hsearch) (shows_contents v₁ root₁) hfits₁
  have h₂ := processDynamicInfo_agree hp₂ (fun _ => hsearch) hsame.shows hfits₂
  generalize l.ideal.processDynamicInfo dynamic_info (contents v₁ root₁) = z at h₁ h₂
  generalize (l.on v₁ root₁).processDynamicInfo dynamic_info v₁.mem = x at h₁ ⊢
  generalize (l.on v₂ root₂).processDynamicInfo dynamic_info v₂.mem = y at h₂ ⊢
  cases h₁ with
  | error e =>
    cases h₂
    exact .error e
  | ok hr₁ =>
    cases h₂ with
    | ok hr₂ =>
      refine .ok ⟨hr₁.1.writes.trans hr₂.1.writes.symm, hr₁.2.trans hr₂.2.symm, fun a ha => ?_⟩
      have hbyte := hsame a ha
      cases hpa : translate v₁ root₁ a with
      | none =>
        rw [hpa, Option.map_none, eq_comm, Option.map_eq_none_iff] at hbyte
        rw [hbyte]
        rfl
      | some p =>
        rw [hpa, Option.map_some, eq_comm, Option.map_eq_some_iff] at hbyte
        obtain ⟨q, hq, -⟩ := hbyte
        rw [hq, Option.map_some, Option.map_some, hr₁.1.shows.bytes a p ha hpa,
          hr₂.1.shows.bytes a q ha hq]

end DynamicLoader

/-! ## A record in two pages -/

variable {frame : ℕ} {ws : List (ℕ × ℕ)}

/-- The words that the process has are not in the tables. -/
theorem child_sample_words (frame : ℕ) (ws : List (ℕ × ℕ)) (hb : b ≤ 12288) (i : Fin 512) :
    child (sampleObject frame ws).mem b i = child (sampleObject frame []).mem b i :=
  child_congr (fun x _ hx => by
    have hlt : x < 16384 := by omega
    simp only [sampleObject, if_pos hlt]) i

/-- Nor is the frame, except for the last. -/
theorem child_sample_frame (frame : ℕ) (hb : b ≤ 8192) (i : Fin 512) :
    child (sampleObject frame []).mem b i = child (sampleObject 5 []).mem b i :=
  child_congr (fun x _ hx => by
    have hlt : x < 16384 := by omega
    simp only [sampleObject, if_pos hlt, ofWords, List.foldl_cons, List.foldl_nil]
    rw [store_same _ 12296 8 _ x (.inl (by omega)), store_same _ 12296 8 _ x (.inl (by omega))]) i

/-- The tables of the sample are the pages 1 to 3. -/
theorem child_sample (hf : frame = 5 ∨ frame = 6) (ws : List (ℕ × ℕ)) (i : Fin 512) :
    child (sampleObject frame ws).mem 4096 i = (if i = 0 then some 8192 else none) ∧
    child (sampleObject frame ws).mem 8192 i = (if i = 0 then some 12288 else none) ∧
    child (sampleObject frame ws).mem 12288 i =
      if i = 0 then some 16384 else if i = 1 then some (frame * 4096) else none := by
  rw [child_sample_words frame ws (by omega), child_sample_words frame ws (by omega),
    child_sample_words frame ws le_rfl, child_sample_frame frame (by omega),
    child_sample_frame frame le_rfl]
  have hroot : ∀ i : Fin 512,
      child (sampleObject 5 []).mem 4096 i = if i = 0 then some 8192 else none := by
    decide +kernel
  have hnext : ∀ i : Fin 512,
      child (sampleObject 5 []).mem 8192 i = if i = 0 then some 12288 else none := by
    decide +kernel
  have hleaf : ∀ i : Fin 512, child (sampleObject 5 []).mem 12288 i =
      if i = 0 then some 16384 else if i = 1 then some (5 * 4096) else none := by decide +kernel
  have hleaf' : ∀ i : Fin 512, child (sampleObject 6 []).mem 12288 i =
      if i = 0 then some 16384 else if i = 1 then some (6 * 4096) else none := by decide +kernel
  refine ⟨hroot i, hnext i, ?_⟩
  rcases hf with rfl | rfl
  · exact hleaf i
  · exact hleaf' i

/-- The pages of the tree of the sample. -/
theorem node_sample (hf : frame = 5 ∨ frame = 6) (ws : List (ℕ × ℕ)) {q : List (Fin 512)}
    (hq : q.foldlM (child (sampleObject frame ws).mem) 4096 = some b) (hlen : q.length ≤ 3) :
    (q.length ≤ 2 → b = 4096 ∨ b = 8192 ∨ b = 12288) ∧ b ≠ 0 := by
  rcases q with _ | ⟨i, _ | ⟨j, _ | ⟨k, _ | ⟨k', q⟩⟩⟩⟩
  · obtain rfl := Option.some.inj hq
    exact ⟨fun _ => .inl rfl, by decide⟩
  · rw [List.foldlM_cons, (child_sample hf ws i).1] at hq
    split at hq
    · obtain rfl := Option.some.inj hq
      exact ⟨fun _ => .inr (.inl rfl), by decide⟩
    · cases hq
  · rw [List.foldlM_cons, (child_sample hf ws i).1] at hq
    split at hq
    · rw [Option.bind_eq_bind, Option.bind_some, List.foldlM_cons, (child_sample hf ws j).2.1] at hq
      split at hq
      · obtain rfl := Option.some.inj hq
        exact ⟨fun _ => .inr (.inr rfl), by decide⟩
      · cases hq
    · cases hq
  · rw [List.foldlM_cons, (child_sample hf ws i).1] at hq
    split at hq
    · rw [Option.bind_eq_bind, Option.bind_some, List.foldlM_cons, (child_sample hf ws j).2.1] at hq
      split at hq
      · rw [Option.bind_eq_bind, Option.bind_some, List.foldlM_cons, (child_sample hf ws k).2.2] at hq
        refine ⟨fun h => by simp at h, ?_⟩
        split at hq
        · obtain rfl := Option.some.inj hq
          decide
        · split at hq
          · obtain rfl := Option.some.inj hq
            omega
          · cases hq
      · cases hq
    · cases hq
  · simp only [List.length_cons] at hlen
    omega

theorem translate_sampleObject (hf : frame = 5 ∨ frame = 6) (ws : List (ℕ × ℕ)) (ha : a < 2 ^ 39) :
    translate (sampleObject frame ws) 4096 a =
      if a < 4096 then some (16384 + a) else if a <
        8192 then some (frame * 4096 + (a - 4096)) else none := by
  have htree := isTree_tree (child (sampleObject frame ws).mem) 3 4096
  have hne : ∀ q b, tree (child (sampleObject frame ws).mem) 3 4096 q = some b → b ≠ 0 := by
    intro q b hq
    unfold tree at hq
    split at hq
    · next hlen => exact (node_sample hf ws hq hlen).2
    · cases hq
  rw [translate_tree htree hne (by omega)]
  have hpath : tree (child (sampleObject frame ws).mem) 3 4096 (path a) =
      (path a).foldlM (child (sampleObject frame ws).mem) 4096 := if_pos (by rw [path, length_indices])
  rw [hpath, path, indices, indices, indices, indices, List.foldlM_cons, (child_sample hf ws _).1]
  have hindex : ∀ i j : ℕ, (hj : j < 512) → (index a i = ⟨j, hj⟩ ↔ a / 2 ^ (12 + i * 9) % 512 = j) := by
    intro i j hj
    rw [Fin.ext_iff, coe_index, vaIndex_eq]
  have h0 : index a 2 = 0 ↔ a / 2 ^ 30 % 512 = 0 := hindex 2 0 (by decide)
  have h1 : index a 1 = 0 ↔ a / 2 ^ 21 % 512 = 0 := hindex 1 0 (by decide)
  have h2 : index a 0 = 0 ↔ a / 2 ^ 12 % 512 = 0 := hindex 0 0 (by decide)
  have h3 : index a 0 = 1 ↔ a / 2 ^ 12 % 512 = 1 := hindex 0 1 (by decide)
  by_cases hlow : a < 2 ^ 21
  · -- the first table of each level
    rw [if_pos (h0.mpr (by omega)), Option.bind_eq_bind, Option.bind_some, List.foldlM_cons,
      (child_sample hf ws _).2.1, if_pos (h1.mpr (by omega)), Option.bind_eq_bind, Option.bind_some,
      List.foldlM_cons, (child_sample hf ws _).2.2]
    by_cases hfirst : a < 4096
    · rw [if_pos (h2.mpr (by omega)), if_pos hfirst, ← Nat.mod_eq_of_lt hfirst, Nat.mod_mod]
      rfl
    · rw [if_neg fun h => hfirst (by have := h2.mp h; omega), if_neg hfirst]
      by_cases hsecond : a < 8192
      · rw [if_pos (h3.mpr (by omega)), if_pos hsecond, show a - 4096 = a % 4096 by omega]
        rfl
      · rw [if_neg fun h => hsecond (by have := h3.mp h; omega), if_neg hsecond]
        rfl
  · rw [if_neg (show ¬ a < 4096 by omega), if_neg (show ¬ a < 8192 by omega)]
    by_cases hroot : index a 2 = 0
    · have hnext : index a 1 ≠ 0 := fun h => hlow (by have := h0.mp hroot; have := h1.mp h; omega)
      rw [if_pos hroot, Option.bind_eq_bind, Option.bind_some, List.foldlM_cons,
        (child_sample hf ws _).2.1,
        if_neg hnext]
      rfl
    · rw [if_neg hroot]
      rfl

/-- The pages of the sample are apart from each other and from the tables. -/
theorem placed_sample (hf : frame = 5 ∨ frame = 6) (ws : List (ℕ × ℕ)) :
    Placed (sampleObject frame ws) 4096 where
  inj a b pa ha hb hpa hpb := by
    rw [translate_sampleObject hf ws ha] at hpa
    rw [translate_sampleObject hf ws hb] at hpb
    split_ifs at hpa hpb <;> simp only [Option.some.injEq] at hpa hpb <;> omega
  tables a pa ha hpa := by
    rw [translate_sampleObject hf ws ha] at hpa
    have hge : 16384 ≤ pa := by
      split_ifs at hpa <;> simp only [Option.some.injEq] at hpa <;> omega
    refine ⟨by omega, ?_⟩
    rintro ⟨q, b, hb, hlen, hle, hlt⟩
    have htree : tableTree (sampleObject frame ws).mem 4096 q =
        q.foldlM (child (sampleObject frame ws).mem) 4096 := if_pos (show q.length ≤ 2 by omega)
    rw [htree] at hb
    have hb := (node_sample hf ws hb (by omega)).1 (by omega)
    omega

/-- What the process sees does not depend on the frame. -/
theorem map_sample (hf : frame = 5 ∨ frame = 6) (ws : List (ℕ × ℕ)) (ha : a < 2 ^ 39) :
    (translate (sampleObject frame ws) 4096 a).map (sampleObject frame ws).mem =
      if a < 8192 then some (ofWords ws a) else none := by
  rw [translate_sampleObject hf ws ha]
  by_cases hfirst : a < 4096
  · rw [if_pos hfirst, if_pos (show a < 8192 by omega), Option.map_some, sampleObject]
    dsimp only
    rw [if_neg (by omega), if_pos (by omega), Nat.add_sub_cancel_left]
  · by_cases hsecond : a < 8192
    · rw [if_neg hfirst, if_pos hsecond, if_pos hsecond, Option.map_some, sampleObject]
      dsimp only
      rw [if_neg (by omega), if_neg (by omega), if_pos (by omega)]
      congr 2
      omega
    · rw [if_neg hfirst, if_neg hsecond, if_neg hsecond]
      rfl

namespace DynamicLoader

theorem sameContents_sample (ws : List (ℕ × ℕ)) :
    SameContents (sampleObject 5 ws) 4096 (sampleObject 5 ws).mem (sampleObject 6 ws) 4096
      (sampleObject 6 ws).mem := fun a ha => by
  rw [map_sample (.inl rfl) ws ha, map_sample (.inr rfl) ws ha]

theorem SameOutcome.writes {x y : Except LoaderFault (Relocated × ℕ × ℕ)}
    (h : SameOutcome (SameRun v₁ root₁ v₂ root₂) x y) :
    x.toOption.map (fun r => r.1.writes) = y.toOption.map fun r => r.1.writes := by
  cases h with
  | ok hr => exact congrArg some hr.writes
  | error e => rfl

theorem unbroken_sample (hf : frame = 5 ∨ frame = 6) (ws : List (ℕ × ℕ)) (hle : a + n ≤ 4096) :
    Unbroken (sampleObject frame ws) 4096 a n := by
  rcases Nat.eq_zero_or_pos n with rfl | hn
  · exact ⟨by omega, fun k hk => absurd hk (Nat.not_lt_zero k)⟩
  · have hfirst : a < 4096 := by omega
    have hmapped := (translate_sampleObject hf ws (by omega)).trans (if_pos hfirst)
    exact unbroken_of_page (by omega) (by omega) hmapped

/-- An entry in the first page. -/
def wholeEntry : List (ℕ × ℕ) := relaSection 768 24 ++ [(768, 1024), (776, R_RISCV_RELATIVE), (784, 7)]

theorem fits_wholeEntry (hf : frame = 5 ∨ frame = 6) :
    (sampleLoader 5 wholeEntry).Fits (sampleObject frame wholeEntry) 4096 ⟨256, 64⟩
      (contents (sampleObject 5 wholeEntry) 4096) := by
  have hh : (sampleLoader 5 wholeEntry).ideal.headers (contents (sampleObject 5 wholeEntry) 4096) 256
      (64 / dynSize) = ⟨257, 273, 0, 0, 289, 305, 0, 0⟩ := by decide +kernel
  refine ⟨fun i hi => ?_, fun h he => ?_, fun h t he _ => ?_⟩
  · have hi : i < 4 := hi
    refine unbroken_sample hf _ ?_
    simp only [dynSize]
    omega
  · obtain rfl := hh.symm.trans he
    intro _ _ _ _
    have hcount : d_un (contents (sampleObject 5 wholeEntry) 4096) 273 / ReloType.rela.size = 1 := by
      decide +kernel
    rw [hcount]
    have hround := fun a (n : ℕ) => @unbroken_sample a n frame hf wholeEntry
    refine ⟨⟨hround _ _ ?_, hround _ _ ?_, fun _ _ => hround _ _ ?_, ?_⟩, trivial⟩
    · decide +kernel
    · decide +kernel
    · decide +kernel
    · exact fun hneed => absurd hneed (by decide)
  · obtain rfl := hh.symm.trans he
    exact fun hrel => absurd rfl hrel

theorem processDynamicInfo_placement_whole :
    SameOutcome (SameRun (sampleObject 5 wholeEntry) 4096 (sampleObject 6 wholeEntry) 4096)
      (((sampleLoader 5 wholeEntry).on (sampleObject 5 wholeEntry) 4096).processDynamicInfo ⟨256, 64⟩
        (sampleObject 5 wholeEntry).mem)
      (((sampleLoader 5 wholeEntry).on (sampleObject 6 wholeEntry) 4096).processDynamicInfo ⟨256, 64⟩
        (sampleObject 6 wholeEntry).mem) :=
  processDynamicInfo_placement _ _ (placed_sample (.inl rfl) _) (placed_sample (.inr rfl) _)
    (fun _ _ _ _ _ => rfl) (sameContents_sample _) (fits_wholeEntry (.inl rfl))
    (fits_wholeEntry (.inr rfl))

/-- An entry with 8 bytes in the first page and 16 in the second. -/
def brokenEntry : List (ℕ × ℕ) :=
  relaSection 4088 24 ++ [(4088, 1024), (4096, R_RISCV_RELATIVE), (4104, 7)]

/-- If the frame of the second page does not follow, the type of the entry is read from another frame. -/
theorem processDynamicInfo_placement_broken : ¬ ∀ (l : DynamicLoader) (dynamic_info : DynamicInfo)
    (v₁ v₂ : VirtualMemory) (root₁ root₂ : ℕ), Placed v₁ root₁ → Placed v₂ root₂ →
    ByName l.iterate_symtab →
    SameContents v₁ root₁ v₁.mem v₂ root₂ v₂.mem →
    SameOutcome (SameRun v₁ root₁ v₂ root₂) ((l.on v₁ root₁).processDynamicInfo dynamic_info v₁.mem)
      ((l.on v₂ root₂).processDynamicInfo dynamic_info v₂.mem) := by
  intro hall
  have hsame := (hall (sampleLoader 5 brokenEntry) ⟨256, 64⟩ (sampleObject 5 brokenEntry)
    (sampleObject 6 brokenEntry) 4096 4096 (placed_sample (.inl rfl) _) (placed_sample (.inr rfl) _)
    (fun _ _ _ _ _ => rfl) (sameContents_sample _)).writes
  have hfirst : (((sampleLoader 5 brokenEntry).on (sampleObject 5 brokenEntry) 4096).processDynamicInfo
      ⟨256, 64⟩ (sampleObject 5 brokenEntry).mem).toOption.map (fun r => r.1.writes) =
      some [(1024, 7)] := by
    decide +kernel
  have hsecond : (((sampleLoader 5 brokenEntry).on (sampleObject 6 brokenEntry) 4096).processDynamicInfo
      ⟨256, 64⟩ (sampleObject 6 brokenEntry).mem).toOption.map (fun r => r.1.writes) = some [] := by
    decide +kernel
  rw [hfirst, hsecond] at hsame
  cases hsame

end DynamicLoader

end OrangeOs.Kernel
