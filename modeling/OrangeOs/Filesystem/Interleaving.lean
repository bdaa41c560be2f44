import OrangeOs.Filesystem.Exchanges

/-! # Interleaved allocation

Processes run the allocating calls of `filesystem/common.cc` and sleep at every exchange with the disk.
Blocks and inodes are handed out once, and no bit of the bit map is lost, as long as no call writes a
sector back over what another call has done to it since.
-/

namespace OrangeOs.Fs

open Prog

/-- The blocks that `AllocDataBlock` has returned. -/
def allocated (l : List Event) : List ℕ := l.filterMap fun e => match e with
  | .allocated b => some b
  | _ => none

/-- The inodes that `CreateImpl` has made. -/
def created (l : List Event) : List ℕ := l.filterMap fun e => match e with
  | .created i => some i
  | _ => none

/-- No record of the sector is in use that was not in use before. -/
def NoneAdded (old s : Sector) : Prop :=
  ∀ j < 8, (InodeDef.load s (j * 64)).type ≠ .none → (InodeDef.load old (j * 64)).type ≠ .none

/-- An exchange with the disk as it is then that does not get in the way of other calls: file data goes to
the data area, the bit map is as it was read when it is written back, no record of the sector of the
inode table that is written back has been taken since it was read, and a created inode is still
unused. -/
structure Undisturbed (d : Disk) (t : Trail Sector Event) : Prop where
  data : ∀ b, .fileBlock b ∈ t.events → 42 ≤ b
  bit_map : ∀ s, t.wrote = some (41, s) → t.seen 41 = some (d 41)
  table : ∀ b s old, 1 ≤ b → b ≤ 40 → t.wrote = some (b, s) → t.seen b = some old →
    NoneAdded old (d b)
  created : ∀ i, .created i ∈ t.events → (inodeAt d i).type = .none

/-- What holds of the disk and of the events so far, when the disk was `d₀` before. -/
structure Exclusive (d₀ d : Disk) (l : List Event) : Prop where
  sectors : ∀ b, SectorOk b (d b)
  bits : ∀ k, bitAt (d₀ 41).byte k = true → bitAt (d 41).byte k = true
  allocated : (allocated l).Nodup
  marked : ∀ b ∈ Fs.allocated l, Marked d b
  created : (created l).Nodup
  inUse : ∀ i ∈ Fs.created l, InUse d i

variable {d d₀ d' : Disk} {l es hs : List Event} {t : Trail Sector Event} {b i j k : ℕ} {s old : Sector}
  {x : InodeDef}

/-! ## The events -/

theorem allocated_handed (es : List Event) : allocated (handed es) = allocated es := by
  rw [allocated, handed, List.filterMap_filter]
  congr 1
  funext e
  cases e <;> rfl

theorem created_handed (es : List Event) : created (handed es) = created es := by
  rw [created, handed, List.filterMap_filter]
  congr 1
  funext e
  cases e <;> rfl

theorem allocated_append (he : handed es = hs) : allocated (l ++ es) = allocated l ++ allocated hs := by
  rw [← he, allocated_handed]
  exact List.filterMap_append

theorem created_append (he : handed es = hs) : created (l ++ es) = created l ++ created hs := by
  rw [← he, created_handed]
  exact List.filterMap_append

theorem mem_created : i ∈ created es ↔ .created i ∈ es := by
  simp only [created, List.mem_filterMap]
  constructor
  · rintro ⟨e, he, hi⟩
    cases e <;> simp_all
  · exact fun h => ⟨_, h, rfl⟩

/-! ## One exchange -/

namespace Exclusive

theorem append_nil (h : Exclusive d₀ d l) (he : handed es = []) : Exclusive d₀ d (l ++ es) := by
  have ha : Fs.allocated (l ++ es) = Fs.allocated l := (allocated_append he).trans (List.append_nil _)
  have hc : Fs.created (l ++ es) = Fs.created l := (created_append he).trans (List.append_nil _)
  exact ⟨h.sectors, h.bits, ha ▸ h.allocated, ha ▸ h.marked, hc ▸ h.created, hc ▸ h.inUse⟩

/-- File data. -/
theorem data (h : Exclusive d₀ d l) (hb : 42 ≤ b) (s : Sector) :
    Exclusive d₀ (Function.update d b s) l := by
  have hsame : ∀ o, o ≤ 41 → Function.update d b s o = d o :=
    fun o ho => Function.update_of_ne (by omega) ..
  refine ⟨fun o => ?_, ?_, h.allocated, fun c hc => ?_, h.created, fun i hi => ?_⟩
  · by_cases ho : o ≤ 41
    · rw [hsame o ho]
      exact h.sectors o
    · exact ⟨fun h0 => by omega, fun _ h40 => by omega⟩
  · rw [hsame 41 le_rfl]
    exact h.bits
  · exact (marked_congr (hsame 41 le_rfl)).mpr (h.marked c hc)
  · obtain ⟨hlt, htype⟩ := h.inUse i hi
    refine ⟨hlt, ?_⟩
    rwa [inodeAt_congr (hsame _ (by omega))]

/-- One bit of the bit map. -/
theorem bit (h : Exclusive d₀ d l) (hk : k < 4096) (hbit : bitAt (d 41).byte k = false)
    (he : handed es = [.allocated (k + 42)]) :
    Exclusive d₀ (Function.update d 41 (setBit (d 41) k)) (l ++ es) := by
  have hself : Function.update d 41 (setBit (d 41) k) 41 = setBit (d 41) k := Function.update_self ..
  have hsame : ∀ o, o ≠ 41 → Function.update d 41 (setBit (d 41) k) o = d o :=
    fun o ho => Function.update_of_ne ho ..
  have ha : Fs.allocated (l ++ es) = Fs.allocated l ++ [k + 42] := allocated_append he
  have hc : Fs.created (l ++ es) = Fs.created l := (created_append he).trans (List.append_nil _)
  have hkeep : ∀ j, bitAt (d 41).byte j = true → bitAt (setBit (d 41) k).byte j = true := by
    intro j hj
    rw [bitAt_setBit _ hk, hj, Bool.true_or]
  refine ⟨fun o => ?_, fun j hj => ?_, ?_, ?_, hc ▸ h.created, fun i hi => ?_⟩
  · by_cases ho : o = 41
    · exact ⟨fun h0 => by omega, fun _ h40 => by omega⟩
    · rw [hsame o ho]
      exact h.sectors o
  · rw [hself]
    exact hkeep j (h.bits j hj)
  · -- The bit of a block that has been handed out is set.
    have hnot : k + 42 ∉ Fs.allocated l := by
      intro hm
      have := (h.marked _ hm).2
      rw [Nat.add_sub_cancel, hbit] at this
      cases this
    rw [ha, ← List.concat_eq_append]
    exact h.allocated.concat hnot
  · rw [ha]
    intro b hb
    rw [Marked, hself]
    rcases List.mem_append.mp hb with hb | hb
    · exact ⟨(h.marked b hb).1, hkeep _ (h.marked b hb).2⟩
    · rw [List.mem_singleton.mp hb, Nat.add_sub_cancel, bitAt_setBit _ hk]
      simp
  · rw [hc] at hi
    obtain ⟨hlt, htype⟩ := h.inUse i hi
    refine ⟨hlt, ?_⟩
    rwa [inodeAt_congr (hsame _ (by omega))]

/-- The record in a sector of the inode table that is written back. -/
theorem inodeAt_update (hji : j / 8 = i / 8) :
    inodeAt (Function.update d (i / 8 + 1) (old.patch (i % 8 * 64) 64 x.byte)) j =
      if j = i then x else .load old (j % 8 * 64) := by
  rw [inodeAt, hji, Function.update_self]
  split
  · next he => rw [he, load_patch_self _ _ (Nat.mod_lt _ (by omega))]
  · exact load_patch_of_ne _ _ (by omega)

/-- One record of the inode table. -/
theorem record (h : Exclusive d₀ d l) (hi : i < 320) (hold : SectorOk (i / 8 + 1) old)
    (hadded : NoneAdded old (d (i / 8 + 1))) (hx : Usable x) :
    Exclusive d₀ (Function.update d (i / 8 + 1) (old.patch (i % 8 * 64) 64 x.byte)) l := by
  have hsame : ∀ o, o ≠ i / 8 + 1 →
      Function.update d (i / 8 + 1) (old.patch (i % 8 * 64) 64 x.byte) o = d o :=
    fun o ho => Function.update_of_ne ho ..
  refine ⟨fun o => ?_, ?_, h.allocated, fun c hc => ?_, h.created, fun j hj => ?_⟩
  · by_cases ho : o = i / 8 + 1
    · subst ho
      rw [Function.update_self]
      refine ⟨fun h0 => by omega, fun h1 h40 j hj => ?_⟩
      by_cases hji : j = i % 8
      · rw [hji, load_patch_self _ _ (Nat.mod_lt _ (by omega))]
        exact fun _ => hx
      · rw [load_patch_of_ne _ _ hji]
        exact hold.records h1 h40 j hj
    · rw [hsame o ho]
      exact h.sectors o
  · rw [hsame 41 (by omega)]
    exact h.bits
  · exact (marked_congr (hsame 41 (by omega))).mpr (h.marked c hc)
  · obtain ⟨hlt, htype⟩ := h.inUse j hj
    refine ⟨hlt, ?_⟩
    by_cases hji : j / 8 = i / 8
    · rw [inodeAt_update hji]
      split
      · exact hx.type
      · refine hadded (j % 8) (Nat.mod_lt _ (by omega)) ?_
        rwa [← hji]
    · rwa [inodeAt_congr (hsame _ (by omega))]

theorem append_created (h : Exclusive d₀ d l) (hi : InUse d i) (hnot : i ∉ Fs.created l)
    (he : handed es = [.created i]) : Exclusive d₀ d (l ++ es) := by
  have ha : Fs.allocated (l ++ es) = Fs.allocated l := (allocated_append he).trans (List.append_nil _)
  have hc : Fs.created (l ++ es) = Fs.created l ++ [i] := created_append he
  refine ⟨h.sectors, h.bits, ha ▸ h.allocated, ha ▸ h.marked, ?_, ?_⟩
  · rw [hc, ← List.concat_eq_append]
    exact h.created.concat hnot
  · rw [hc]
    intro j hj
    rcases List.mem_append.mp hj with hj | hj
    · exact h.inUse j hj
    · rwa [List.mem_singleton.mp hj]

/-- An exchange that gets in no one's way. -/
theorem exchange (h : Exclusive d₀ d l) (ht : Exchange t) (hok : Undisturbed d t) :
    Exclusive d₀ (t.store d) (l ++ t.events) := by
  cases ht with
  | read hw he =>
    rw [Trail.store, hw]
    exact h.append_nil he
  | data hw hb he =>
    rw [Trail.store, hw]
    exact (h.data hb _).append_nil he
  | bit hw hs hk hbit he =>
    obtain rfl := Option.some.inj (hs.symm.trans (hok.bit_map _ hw))
    rw [Trail.store, hw]
    exact h.bit hk hbit he
  | @record i old x hi hw hs hold hx he =>
    have hrecord := h.record hi hold (hok.table _ _ _ (by omega) (by omega) hw hs) hx
    rw [Trail.store, hw]
    rcases he with he | he
    · exact hrecord.append_nil he
    · have hmem : .created i ∈ t.events := by
        rw [← mem_created, ← created_handed, he]
        exact List.mem_singleton_self i
      refine hrecord.append_created ⟨hi, ?_⟩ (fun hm => (h.inUse i hm).2 (hok.created i hmem)) he
      rw [inodeAt_update rfl, if_pos rfl]
      exact hx.type

end Exclusive

/-! ## Runs -/

/-- The calls that the processes make. -/
inductive FsCall where
  | allocDataBlock
  | allocInode
  | createImpl (junk : Sector) (inode_index : ℕ) (type : FileType) (name : List UInt8)
      (major minor : UInt8)
  | writeImpl (junk : Sector) (inode : InodeDef) (buf : List UInt8) (pos : ℕ)

namespace FsCall

/-- What a call does with the disk. -/
def prog : FsCall → FsProg Unit
  | .allocDataBlock => do
    let _ ← Fs.allocDataBlock
    return ()
  | .allocInode => do
    let _ ← Fs.allocInode
    return ()
  | .createImpl junk inode_index type name major minor => do
    let _ ← Fs.createImpl junk inode_index type name major minor
    return ()
  | .writeImpl junk inode buf pos => do
    let _ ← Fs.writeImpl junk inode buf pos
    return ()

/-- What is asked of the arguments: an index of the table and a type of file, or an inode that is in
use. -/
def Asked : FsCall → Prop
  | .createImpl _ inode_index type _ _ _ => inode_index < 320 ∧ type ≠ .none
  | .writeImpl _ inode _ _ => Usable inode
  | _ => True

end FsCall

/-- A disk with the layout of `mkfs` and an inode table of usable records, and processes that have
nothing to do yet. -/
structure Fresh (s : Pool Sector Event) : Prop where
  layout : Layout (superOf s.store)
  records : ∀ i < 320, (inodeAt s.store i).type ≠ .none → Usable (inodeAt s.store i)
  log : s.log = []
  idle : ∀ i, (s.procs i).prog = .ret ()

variable {s s' : Pool Sector Event}

theorem Fresh.holds (h : Fresh s) : fsContract.Holds (Exclusive s.store) s := by
  refine ⟨⟨fun b => ⟨?_, fun h1 h40 j hj => ?_⟩, fun _ hk => hk, ?_, ?_, ?_, ?_⟩, fun i => ?_⟩
  · rintro rfl
    exact h.layout
  · have hrec := h.records ((b - 1) * 8 + j) (by omega)
    rwa [inodeAt, show ((b - 1) * 8 + j) / 8 + 1 = b by omega,
      show ((b - 1) * 8 + j) % 8 = j by omega] at hrec
  · simp [h.log, allocated]
  · simp [h.log, allocated]
  · simp [h.log, created]
  · simp [h.log, created]
  · rw [h.idle i]
    exact .read rfl rfl

end OrangeOs.Fs
