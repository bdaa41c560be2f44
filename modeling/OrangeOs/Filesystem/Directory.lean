import Mathlib.Data.List.TakeWhile
import Mathlib.Order.Interval.Finset.Nat
import OrangeOs.Filesystem.FileStream

/-! # Directories

The entries of a directory as an association list from names to inode indices. On a directory
of whole entries with terminated names `IteratorDir` is lookup in that list, and
`OpenImpl` walks from list to list.
-/

namespace OrangeOs.Fs

open Prog

/-- The name of entry `k` of a directory, up to its NUL. -/
def entryName (d : Disk) (x : InodeDef) (k : ℕ) : List UInt8 :=
  ((List.range 14).map fun o => fileByte d x (16 * k + 2 + o)).takeWhile (· ≠ 0)

/-- The inode index of entry `k` of a directory. -/
def entryInum (d : Disk) (x : InodeDef) (k : ℕ) : ℕ := leNat (fileByte d x) (16 * k) 2

def dirEntries (d : Disk) (x : InodeDef) : List (List UInt8 × ℕ) :=
  (List.range (x.size.toNat / 16)).map fun k => (entryName d x k, entryInum d x k)

/-- A name that fits into a directory element with its NUL. -/
def IsName (a : List UInt8) : Prop := 0 ∉ a ∧ a.length ≤ 13

/-- The contents of a directory are whole entries with terminated names. -/
structure DirOk (d : Disk) (x : InodeDef) : Prop where
  aligned : x.size.toNat % 16 = 0
  terminated : ∀ k < x.size.toNat / 16, ∃ o < 14, fileByte d x (16 * k + 2 + o) = 0

/-- The inode record with index `i` is a directory. -/
def IsDir (d : Disk) (i : ℕ) : Prop := i < 320 ∧ (inodeAt d i).type = .directory

/-- The directories form a tree below the root: their entries name distinct files, each of which is
in use and named once. -/
structure Tree (d : Disk) : Prop where
  root : IsDir d 0
  mapped : ∀ i, IsDir d i → Mapped d (inodeAt d i) (fileBlocks (inodeAt d i))
  dir : ∀ i, IsDir d i → DirOk d (inodeAt d i)
  names : ∀ i, IsDir d i → ((dirEntries d (inodeAt d i)).map Prod.fst).Nodup
  inUse : ∀ i, IsDir d i → ∀ e ∈ dirEntries d (inodeAt d i), InUse d e.2 ∧ e.2 ≠ 0
  once : ∀ i j, IsDir d i → IsDir d j → ∀ k < (inodeAt d i).size.toNat / 16,
    ∀ l < (inodeAt d j).size.toNat / 16,
    entryInum d (inodeAt d i) k = entryInum d (inodeAt d j) l → i = j ∧ k = l

/-- What the walk of `OpenImpl` relies on: directories within the direct blocks, whose entries are
whole and point into the inode table. -/
structure Walkable (d : Disk) : Prop where
  mapped : ∀ i, IsDir d i → Mapped d (inodeAt d i) (fileBlocks (inodeAt d i))
  dir : ∀ i, IsDir d i → DirOk d (inodeAt d i)
  size_le : ∀ i, IsDir d i → (inodeAt d i).size.toNat ≤ 512 * 12
  lt : ∀ i, IsDir d i → ∀ e ∈ dirEntries d (inodeAt d i), e.2 < 320

/-- The walk of `OpenImpl` over the names of a path. -/
def resolve (d : Disk) : List (List UInt8) → ℕ → Option ℕ
  | [], i => some i
  | name :: paths, i =>
    if (inodeAt d i).type = .directory then
      ((dirEntries d (inodeAt d i)).lookup name).bind (resolve d paths)
    else none

variable {d d' : Disk} {x y : InodeDef} {i j k n q t : ℕ} {s : Sector}
  {name : List UInt8} {paths : List (List UInt8)}

/-! ## One block of a directory -/

theorem strcmp_eq_zero_iff {s₁ s₂ : List UInt8} : strcmp s₁ s₂ = 0 ↔ s₁ = s₂ := by
  unfold strcmp
  constructor
  · intro h
    split at h
    · simp at h
    · split at h
      · simp at h
      · next h₁ h₂ =>
        have hlen : s₁.length = s₂.length := by omega
        split at h
        · split at h <;> simp at h
        · next hnone =>
          rw [List.find?_eq_none] at hnone
          apply List.ext_getElem hlen
          intro k hk hk'
          have := hnone (s₁[k], s₂[k]) (List.mem_iff_getElem.mpr ⟨k, by simp; omega, by simp⟩)
          simpa using this
  · rintro rfl
    have : (s₁.zip s₁).find? (fun p => p.1 ≠ p.2) = none := by
      rw [List.find?_eq_none]
      rintro ⟨a, b⟩ hmem
      obtain ⟨k, hk, he⟩ := List.mem_iff_getElem.mp hmem
      simp only [List.getElem_zip, Prod.mk.injEq] at he
      simp [← he.1, ← he.2]
    rw [if_neg (lt_irrefl _), if_neg (lt_irrefl _), this]

/-- A string that ends within its field is read the same without the field's bound. -/
theorem cstrAt_of_terminated {o : ℕ} (ho : o + 14 ≤ 512) (h : ∃ k < 14, s.byte (o + k) = 0) :
    cstrAt s o = some (((List.range 14).map fun k => s.byte (o + k)).takeWhile (· ≠ 0)) := by
  obtain ⟨k, hk, hz⟩ := h
  have hmem : (0 : UInt8) ∈ (List.range 14).map fun k => s.byte (o + k) :=
    List.mem_map.mpr ⟨k, List.mem_range.mpr hk, hz⟩
  have hsplit : (List.range (512 - o)).map (fun k => s.byte (o + k)) =
      (List.range 14).map (fun k => s.byte (o + k)) ++
        (List.range (512 - o - 14)).map fun k => s.byte (o + (14 + k)) := by
    rw [show 512 - o = 14 + (512 - o - 14) by omega, List.range_add, List.map_append, List.map_map]
    simp [Function.comp_def]
  have hshort : (((List.range 14).map fun k => s.byte (o + k)).takeWhile (· ≠ 0)).length ≠
      ((List.range 14).map fun k => s.byte (o + k)).length := by
    intro he
    have hall := List.takeWhile_eq_self_iff.mp
      ((List.takeWhile_prefix _).eq_of_length he)
    simpa using hall 0 hmem
  unfold cstrAt
  simp only [hsplit]
  rw [if_pos (List.mem_append_left _ hmem), List.takeWhile_append, if_neg hshort]

theorem length_dirEntries (d : Disk) (x : InodeDef) : (dirEntries d x).length = x.size.toNat / 16 := by
  simp [dirEntries]

theorem drop_dirEntries (hk : k < x.size.toNat / 16) :
    (dirEntries d x).drop k = (entryName d x k, entryInum d x k) :: (dirEntries d x).drop (k + 1) := by
  rw [List.drop_eq_getElem_cons (by rw [length_dirEntries]; exact hk)]
  simp [dirEntries]

/-- Entry `t` of block `q` read from the sector. -/
theorem fileByte_entry {o : ℕ} (ht : t < 32) (ho : o < 16) :
    fileByte d x (16 * (32 * q + t) + o) = (d (slot d x q)).byte (16 * t + o) := by
  rw [fileByte, show (16 * (32 * q + t) + o) / 512 = q by omega,
    show (16 * (32 * q + t) + o) % 512 = 16 * t + o by omega]

theorem scanDirBlock_eq (name : List UInt8) (hdir : DirOk d x) (hn : t + n = 32) :
    scanDirBlock (d (slot d x q)) name x.size.toNat (16 * t) (512 * q + 16 * t) n =
      .ok ((((dirEntries d x).drop (32 * q + t)).take n).lookup name) := by
  have halign := hdir.aligned
  induction n generalizing t with
  | zero => simp [scanDirBlock]
  | succ n ih =>
    rw [scanDirBlock]
    by_cases hlt : 512 * q + 16 * t < x.size.toNat
    · have hk : 32 * q + t < x.size.toNat / 16 := by omega
      have hname : ((List.range 14).map fun o => (d (slot d x q)).byte (16 * t + 2 + o)) =
          (List.range 14).map fun o => fileByte d x (16 * (32 * q + t) + 2 + o) := by
        apply List.map_congr_left
        intro o ho
        rw [List.mem_range] at ho
        rw [Nat.add_assoc, Nat.add_assoc, fileByte_entry (by omega) (by omega)]
      have hcstr : cstrAt (d (slot d x q)) (16 * t + 2) = some (entryName d x (32 * q + t)) := by
        rw [cstrAt_of_terminated (by omega), hname, entryName]
        obtain ⟨o, ho, hz⟩ := hdir.terminated _ hk
        refine ⟨o, ho, ?_⟩
        rw [Nat.add_assoc, fileByte_entry (by omega) (by omega)] at hz
        rw [Nat.add_assoc, hz]
      have hinum : leNat (d (slot d x q)).byte (16 * t) 2 = entryInum d x (32 * q + t) :=
        leNat_congr fun o ho => (fileByte_entry (by omega) (by omega)).symm
      rw [if_pos hlt, hcstr, drop_dirEntries hk]
      simp only [strcmp_eq_zero_iff, hinum, List.take_succ_cons, List.lookup_cons]
      split
      · next he => simp [he]
      · next hne =>
        have hih := ih (t := t + 1) (by omega)
        have hb : (name == entryName d x (32 * q + t)) = false := by simpa using hne
        simp only [DIR_ELEMENT_SIZE, hb]
        rw [show 16 * t + 16 = 16 * (t + 1) by omega,
          show 512 * q + 16 * t + 16 = 512 * q + 16 * (t + 1) by omega, hih]
        rfl
    · rw [if_neg hlt, List.drop_eq_nil_of_le (by rw [length_dirEntries]; omega)]
      rfl

/-! ## Whole directories -/

theorem run_iteratorDirFrom (h : Mapped d x n) (hsz : x.size.toNat ≤ 512 * n)
    (hdir : DirOk d x) (h12 : x.size.toNat ≤ 512 * 12) (q : ℕ) :
    (iteratorDirFrom x name (512 * q)).run d =
      (.ok (((dirEntries d x).drop (32 * q)).lookup name), d) := by
  induction hm : x.size.toNat - 512 * q using Nat.strong_induction_on generalizing q with
  | _ m ih =>
  subst hm
  rw [iteratorDirFrom]
  by_cases hlt : 512 * q < x.size.toNat
  · have hq : 512 * q / 512 = q := by omega
    have hne := h.slot_ne_zero (k := q) (by omega)
    have hslot : slot d x q = x.addrAt q := slot_of_lt (by omega)
    have hscan := scanDirBlock_eq name (q := q) (t := 0) (n := 32) hdir rfl
    have hrest := ih (x.size.toNat - 512 * (q + 1)) (by omega) (q + 1) rfl
    have hlist : (dirEntries d x).drop (32 * q) =
        ((dirEntries d x).drop (32 * q)).take 32 ++ (dirEntries d x).drop (32 * (q + 1)) := by
      rw [show 32 * (q + 1) = 32 * q + 32 by omega, ← List.drop_drop, List.take_append_drop]
    rw [hslot] at hne hscan
    simp only [dif_pos hlt, BLOCK_SIZE, DIR_ELEMENT_SIZE, DIRECT_ADDR_SIZE, hq,
      if_pos (show q < 12 by omega), if_neg hne, run_bind, run_readSector]
    simp only [Nat.mul_zero, Nat.add_zero] at hscan
    rw [show 512 / 16 = 32 from rfl, hscan]
    conv_rhs => rw [hlist, List.lookup_append]
    cases ((dirEntries d x).drop (32 * q)).take 32 |>.lookup name with
    | none => exact hrest
    | some inum => rfl
  · rw [dif_neg hlt, List.drop_eq_nil_of_le (by rw [length_dirEntries]; omega)]
    rfl

/-- `IteratorDir` is lookup in the entries. -/
theorem run_iteratorDir (h : Mapped d x n) (hsz : x.size.toNat ≤ 512 * n) (hdir : DirOk d x)
    (h12 : x.size.toNat ≤ 512 * 12) :
    (iteratorDir x name).run d = (.ok ((dirEntries d x).lookup name), d) :=
  run_iteratorDirFrom h hsz hdir h12 0

theorem mem_dirEntries {e : List UInt8 × ℕ} : e ∈ dirEntries d x ↔
    ∃ k < x.size.toNat / 16, e = (entryName d x k, entryInum d x k) := by
  simp only [dirEntries, List.mem_map, List.mem_range]
  exact exists_congr fun k => and_congr_right fun _ => eq_comm

theorem mem_of_lookup {l : List (List UInt8 × ℕ)} (h : l.lookup name = some j) : (name, j) ∈ l := by
  induction l with
  | nil => simp at h
  | cons e l ih =>
    obtain ⟨a, b⟩ := e
    rw [List.lookup_cons] at h
    by_cases he : name = a
    · subst he
      simp only [beq_self_eq_true, Option.some.injEq] at h
      simp [h]
    · rw [beq_false_of_ne he] at h
      exact List.mem_cons_of_mem _ (ih h)

/-! ## Directories whose bytes are kept -/

theorem entry_congr (h : ∀ p < 16 * (k + 1), fileByte d' y p = fileByte d x p) :
    entryName d' y k = entryName d x k ∧ entryInum d' y k = entryInum d x k := by
  constructor
  · rw [entryName, entryName]
    congr 1
    apply List.map_congr_left
    intro o ho
    rw [List.mem_range] at ho
    exact h _ (by omega)
  · exact leNat_congr fun o ho => h _ (by omega)

theorem dirEntries_congr (h : ∀ p < x.size.toNat, fileByte d' x p = fileByte d x p) :
    dirEntries d' x = dirEntries d x := by
  apply List.map_congr_left
  intro k hk
  rw [List.mem_range] at hk
  obtain ⟨hname, hinum⟩ := entry_congr (k := k) fun p hp => h p (by omega)
  rw [hname, hinum]

theorem DirOk.congr (hdir : DirOk d x) (h : ∀ p < x.size.toNat, fileByte d' x p = fileByte d x p) :
    DirOk d' x := by
  refine ⟨hdir.aligned, fun k hk => ?_⟩
  obtain ⟨o, ho, hz⟩ := hdir.terminated k hk
  exact ⟨o, ho, by rw [h _ (by omega), hz]⟩

/-! ## Trees -/

theorem IsDir.inUse (h : IsDir d i) : InUse d i := ⟨h.1, by rw [h.2]; simp⟩

namespace Tree

/-- A directory has at most 319 entries, which fit into its direct blocks. -/
theorem size_le (h : Tree d) (hi : IsDir d i) : (inodeAt d i).size.toNat ≤ 16 * 319 := by
  have hcard : (Finset.range ((inodeAt d i).size.toNat / 16)).card ≤ (Finset.Ico 1 320).card := by
    apply Finset.card_le_card_of_injOn (entryInum d (inodeAt d i))
    · intro k hk
      rw [Finset.mem_coe, Finset.mem_range] at hk
      have := h.inUse i hi _ (mem_dirEntries.mpr ⟨k, hk, rfl⟩)
      rw [Finset.mem_coe, Finset.mem_Ico]
      exact ⟨Nat.one_le_iff_ne_zero.mpr this.2, this.1.1⟩
    · intro k hk l hl he
      rw [Finset.mem_coe, Finset.mem_range] at hk hl
      exact (h.once i i hi hi k hk l hl he).2
  have halign := (h.dir i hi).aligned
  rw [Finset.card_range, Nat.card_Ico] at hcard
  omega

theorem walkable (h : Tree d) : Walkable d where
  mapped := h.mapped
  dir := h.dir
  size_le i hi := by have := h.size_le hi; omega
  lt i hi e he := (h.inUse i hi e he).1.1

theorem inUse_of_lookup (h : Tree d) (hi : IsDir d i)
    (hl : (dirEntries d (inodeAt d i)).lookup name = some j) : InUse d j :=
  (h.inUse i hi _ (mem_of_lookup hl)).1

theorem inUse_of_resolve (h : Tree d) (hi : InUse d i) (hr : resolve d paths i = some j) :
    InUse d j := by
  induction paths generalizing i with
  | nil =>
    simp only [resolve, Option.some.injEq] at hr
    exact hr ▸ hi
  | cons name paths ih =>
    rw [resolve] at hr
    split at hr
    · next ht =>
      obtain ⟨inum, hl, hr⟩ := Option.bind_eq_some_iff.mp hr
      exact ih (h.inUse_of_lookup ⟨hi.1, ht⟩ hl) hr
    · simp at hr

end Tree

namespace Walkable

theorem run_iteratorDir (h : Walkable d) (hi : IsDir d i) (name : List UInt8) :
    (iteratorDir (inodeAt d i) name).run d =
      (.ok ((dirEntries d (inodeAt d i)).lookup name), d) :=
  Fs.run_iteratorDir (h.mapped i hi) (fileBlocks_le _) (h.dir i hi) (h.size_le i hi)

/-- `OpenImpl` does not fault, and walks from directory to directory. -/
theorem run_openImpl (h : Walkable d) (hi : i < 320) (paths : List (List UInt8)) :
    (openImpl paths i).run d =
      (.ok ((resolve d paths i).map fun j => (j, inodeAt d j)), d) := by
  induction paths generalizing i with
  | nil => simp [openImpl, resolve, run_bind, run_getInode hi]
  | cons name paths ih =>
    by_cases ht : (inodeAt d i).type = .directory
    · have hdir : IsDir d i := ⟨hi, ht⟩
      rw [openImpl, resolve, if_pos ht]
      simp only [run_bind, run_getInode hi, ht, ne_eq, not_true_eq_false, if_false,
        h.run_iteratorDir hdir]
      cases hl : (dirEntries d (inodeAt d i)).lookup name with
      | none => rfl
      | some inum => exact ih (h.lt i hdir _ (mem_of_lookup hl))
    · simp [openImpl, resolve, run_bind, run_getInode hi, ht]

end Walkable

theorem resolve_append (paths paths' : List (List UInt8)) (i : ℕ) :
    resolve d (paths ++ paths') i = (resolve d paths i).bind (resolve d paths') := by
  induction paths generalizing i with
  | nil => rfl
  | cons name paths ih =>
    rw [List.cons_append, resolve, resolve]
    split
    · rw [Option.bind_assoc]
      exact congrArg _ (funext ih)
    · rfl

/-! ## Changes outside the directories -/

/-- The directories and their contents are the same, and no inode went out of use. -/
structure SameDirs (d d' : Disk) : Prop where
  super : d' 0 = d 0
  marked : ∀ b, Marked d b → Marked d' b
  inUse : ∀ k, InUse d k → InUse d' k
  isDir : ∀ k, IsDir d' k → IsDir d k
  inode : ∀ k, IsDir d k → inodeAt d' k = inodeAt d k
  kept : ∀ k, IsDir d k → ∀ b, OwnedBy d k b → d' b = d b

namespace SameDirs

theorem isDir_iff (h : SameDirs d d') : IsDir d' k ↔ IsDir d k :=
  ⟨h.isDir k, fun hk => ⟨hk.1, by rw [h.inode k hk]; exact hk.2⟩⟩

theorem entries (h : SameDirs d d') (ht : Tree d) (hk : IsDir d k) :
    dirEntries d' (inodeAt d' k) = dirEntries d (inodeAt d k) := by
  rw [h.inode k hk, dirEntries_congr fun p hp => fileByte_kept (ht.mapped k hk) (h.kept k hk) hp]

theorem tree (h : SameDirs d d') (ht : Tree d) : Tree d' := by
  have hbytes : ∀ k, IsDir d k → ∀ p < (inodeAt d k).size.toNat,
      fileByte d' (inodeAt d k) p = fileByte d (inodeAt d k) p := fun k hk p hp =>
    fileByte_kept (ht.mapped k hk) (h.kept k hk) hp
  have hinum : ∀ k, IsDir d k → ∀ l < (inodeAt d k).size.toNat / 16,
      entryInum d' (inodeAt d' k) l = entryInum d (inodeAt d k) l := fun k hk l hl => by
    rw [h.inode k hk]
    exact (entry_congr fun p hp => hbytes k hk p (by omega)).2
  refine ⟨h.isDir_iff.mpr ht.root, fun k hk => ?_, fun k hk => ?_, fun k hk => ?_,
    fun k hk e he => ?_, fun i j hi hj k hk l hl he => ?_⟩
  · have hk := h.isDir k hk
    rw [h.inode k hk]
    exact (ht.mapped k hk).congr h.super h.marked fun hz => h.kept k hk _ (.inr ⟨hz, rfl⟩)
  · have hk := h.isDir k hk
    rw [h.inode k hk]
    exact (ht.dir k hk).congr (hbytes k hk)
  · have hk := h.isDir k hk
    rw [h.entries ht hk]
    exact ht.names k hk
  · have hk := h.isDir k hk
    rw [h.entries ht hk] at he
    exact ⟨h.inUse _ (ht.inUse k hk e he).1, (ht.inUse k hk e he).2⟩
  · have hi := h.isDir i hi
    have hj := h.isDir j hj
    rw [h.inode i hi] at hk
    rw [h.inode j hj] at hl
    rw [hinum i hi k hk, hinum j hj l hl] at he
    exact ht.once i j hi hj k hk l hl he

theorem resolve_eq (h : SameDirs d d') (ht : Tree d) (hk : InUse d k)
    (paths : List (List UInt8)) : resolve d' paths k = resolve d paths k := by
  induction paths generalizing k with
  | nil => rfl
  | cons name paths ih =>
    rw [resolve, resolve]
    by_cases hdir : IsDir d k
    · rw [if_pos (h.isDir_iff.mpr hdir).2, if_pos hdir.2, h.entries ht hdir]
      cases hl : (dirEntries d (inodeAt d k)).lookup name with
      | none => rfl
      | some j => exact ih (ht.inUse_of_lookup hdir hl)
    · rw [if_neg fun ht => hdir (h.isDir k ⟨hk.1, ht⟩), if_neg fun ht => hdir ⟨hk.1, ht⟩]

end SameDirs

end OrangeOs.Fs
