import OrangeOs.Kernel.CopyChunks
import OrangeOs.Kernel.ForkMemory

/-! # What `sys_read` reads

The bytes of the file end up at the addresses of the buffer, one after the other, wherever its pages
are. The page table of the process has distinct pages, so that a store through one address changes
no other, and stores to its pages do not change the table.
-/

namespace OrangeOs.Kernel

open Fs VirtualMemory Memory
open Prog hiding ret

variable {v v' : VirtualMemory} {root a b c k n pa dst : ℕ} {T : List (Fin 512) → Option ℕ} {L : List ℕ}

/-! ## Addresses of a tree -/

/-- What an address stands for in the tree of a page table, 0 if it stands for nothing. -/
def target (T : List (Fin 512) → Option ℕ) (va : ℕ) : ℕ :=
  match T (path va) with
  | none => 0
  | some b => b + va % 4096

/-- `GetPTE` and the tree translate alike. -/
theorem translate_tree (h : IsTree (child v.mem) 3 root T)
    (hne : ∀ q b, T q = some b → b ≠ 0) (ha : a < 2 ^ 64) :
    translate v root a = (T (path a)).map (· + a % 4096) := by
  have hroot := hne [] root h.root
  simp only [translate, getPTE_eq h hroot ha (show 1 ≤ 3 by omega) le_rfl (show 3 ≤ 3 + 1 by omega),
    path_eq, pteAt]
  cases hb : T (indices a 2 2) with
  | none =>
    rw [h.parent _ _ hb]
    rfl
  | some b =>
    have hchild := h.child _ b (index a 0) (by rw [length_indices]; omega) hb
    have hpte : b + 8 * vaIndex a 0 ≠ 0 := by
      have := hne _ b hb
      omega
    rw [hchild, child, entryTarget, entry, coe_index]
    simp only [Nat.sub_self, hpte, false_or, PGSIZE]
    split <;> rfl

theorem translate_eq (h : AddressSpace v root T L) (ha : a < 2 ^ 64) :
    translate v root a = (T (path a)).map (· + a % 4096) :=
  translate_tree h.isTree (fun q b hq => (h.page q b hq).ne_zero) ha

theorem physical_eq_getD (v : VirtualMemory) (root a : ℕ) :
    physical v root a = (translate v root a).getD 0 := by
  obtain ⟨k, hpa⟩ := vaToPA_translate v root a
  rw [physical, hpa]

theorem physical_eq (h : AddressSpace v root T L) (ha : a < 2 ^ 64) :
    physical v root a = target T a := by
  rw [physical_eq_getD, translate_eq h ha, target]
  cases T (path a) <;> rfl

/-- An address that stands for something is in a page of the tree. -/
theorem exists_page (h : target T a ≠ 0) : ∃ b, T (path a) = some b ∧ target T a = b + a % 4096 := by
  unfold target at h ⊢
  cases hb : T (path a) with
  | none =>
    rw [hb] at h
    exact absurd rfl h
  | some b => exact ⟨b, rfl, rfl⟩

theorem path_mod (a : ℕ) : path (a % 2 ^ 39) = path a := by
  simp only [path, indices, index, vaIndex_eq, List.cons.injEq, Fin.mk.injEq, and_true]
  omega

/-- Addresses that differ in the bits that `VAToPA` looks at stand for different bytes. -/
theorem target_inj (h : AddressSpace v root T L) (ha : target T a ≠ 0) (hab : target T a = target T b) :
    a % 2 ^ 39 = b % 2 ^ 39 := by
  obtain ⟨c, hc, hca⟩ := exists_page ha
  obtain ⟨e, he, heb⟩ := exists_page (show target T b ≠ 0 by rwa [← hab])
  have hcal := (h.page _ c hc).aligned
  have heal := (h.page _ e he).aligned
  obtain rfl : c = e := by omega
  have hpath := h.inj _ _ c hc he
  rw [← path_mod a, ← path_mod b,
    path_inj (Nat.mod_lt _ (Nat.two_pow_pos 39)) (Nat.mod_lt _ (Nat.two_pow_pos 39))] at hpath
  omega

/-- What consecutive addresses of a page stand for. -/
theorem target_add (ha : target T a ≠ 0) (hk : a % 4096 + k < 4096) :
    target T (a + k) = target T a + k := by
  obtain ⟨b, hb, hab⟩ := exists_page ha
  have hpath : path (a + k) = path a := indices_congr (by omega) 2 3
  simp only [target, hpath, hb]
  omega

/-! ## Storing through a page table -/

/-- The bytes are stored at the addresses from `dst` on, and nothing else changes. -/
structure Stored (T : List (Fin 512) → Option ℕ) (dst : ℕ) (bytes : List UInt8) (v v' : VirtualMemory) :
    Prop where
  rest : v' = { v with mem := v'.mem }
  new : ∀ j < bytes.length, v'.mem (target T ((dst + j) % 2 ^ 64)) = charAt bytes j
  old : ∀ a, (∀ j < bytes.length, a ≠ target T ((dst + j) % 2 ^ 64)) → v'.mem a = v.mem a

variable {bytes tail : List UInt8}

theorem Stored.nil (T : List (Fin 512) → Option ℕ) (dst : ℕ) (v : VirtualMemory) : Stored T dst [] v v :=
  ⟨rfl, fun _ hj => absurd hj (Nat.not_lt_zero _), fun _ _ => rfl⟩

/-- A store within one page. -/
theorem stored_put (hdst : dst < 2 ^ 64) (hne : target T dst ≠ 0)
    (hpage : dst % 4096 + bytes.length ≤ 4096) :
    Stored T dst bytes v { v with mem := v.mem.put (target T dst) bytes.length bytes } where
  rest := rfl
  new j hj := by
    rw [Nat.mod_eq_of_lt (by omega), target_add hne (by omega)]
    simp only [put, Nat.add_sub_cancel_left]
    rw [if_pos (by omega)]
  old a ha := by
    simp only [put]
    refine if_neg fun hin => ha (a - target T dst) (by omega) ?_
    rw [Nat.mod_eq_of_lt (by omega), target_add hne (by omega)]
    omega

/-- One part of a buffer after the other. -/
theorem Stored.append {v'' : VirtualMemory} (h : Stored T dst bytes v v')
    (h' : Stored T ((dst + bytes.length) % 2 ^ 64) tail v' v'')
    (hinj : ∀ i < bytes.length, ∀ j < tail.length,
      target T ((dst + i) % 2 ^ 64) ≠ target T ((dst + (bytes.length + j)) % 2 ^ 64)) :
    Stored T dst (bytes ++ tail) v v'' where
  rest := by rw [h'.rest, h.rest]
  new j hj := by
    rw [List.length_append] at hj
    by_cases hlt : j < bytes.length
    · rw [charAt_append_left hlt, ← h.new j hlt]
      refine h'.old _ fun i hi => ?_
      rw [Nat.mod_add_mod, Nat.add_assoc]
      exact hinj j hlt i hi
    · obtain ⟨i, rfl⟩ := Nat.exists_eq_add_of_le (not_lt.mp hlt)
      have hnew := h'.new i (by omega)
      rw [Nat.mod_add_mod, Nat.add_assoc] at hnew
      rw [hnew, charAt_append_right (by omega), Nat.add_sub_cancel_left]
  old a ha := by
    rw [List.length_append] at ha
    rw [h'.old a fun i hi => ?_, h.old a fun i hi => ha i (by omega)]
    rw [Nat.mod_add_mod, Nat.add_assoc]
    exact ha _ (by omega)

/-- The page table is not changed by a store to one of its pages. -/
theorem addressSpace_put (h : AddressSpace v root T L) (hne : target T dst ≠ 0)
    (hpage : dst % 4096 + bytes.length ≤ 4096) :
    AddressSpace { v with mem := v.mem.put (target T dst) bytes.length bytes } root T L := by
  obtain ⟨b, hb, htarget⟩ := exists_page hne
  refine h.of_page (h.page _ b hb) (h.fresh _ b hb) (fun q hq hqb => ?_) fun a ha => ?_
  · have hpath := h.inj _ _ b hqb hb
    rw [hpath, path, length_indices] at hq
    omega
  · exact if_neg (by omega)

/-! ## The loop -/

variable {d : Disk} {x : InodeDef} {pos size : ℕ}

theorem run_readFile (v : VirtualMemory) (pa : ℕ) (hpos : pos ≤ x.size.toNat)
    (hsize : x.size.toNat ≤ 512 * 140)
    (hb : bytes = ((contents d x).drop pos).take n) : (readFile pa n (⟨pos, x⟩, v)).run d =
      (.ok (bytes.length, (⟨pos + min n (x.size.toNat - pos), x⟩,
        { v with mem := v.mem.put pa bytes.length bytes })), d) := by
  rw [readFile, run_bind_ok (run_read hpos hsize n), hb]
  rfl

theorem put_nil (m : Memory) (a : ℕ) : m.put a 0 [] = m := by
  funext i
  exact if_neg (by omega)

/-- The loop stores the next bytes of the file at the addresses of the buffer, as many as there are. -/
theorem run_safeCopy_readFile (h : AddressSpace v root T L) (hpos : pos ≤ x.size.toNat)
    (hsize : x.size.toNat ≤ 512 * 140) (hdst : dst < 2 ^ 64)
    (hbuf : ∀ j < min size (x.size.toNat - pos), target T ((dst + j) % 2 ^ 64) ≠ 0) (done : ℕ) :
    ∃ v', (safeCopy Prod.snd root readFile dst size done (⟨pos, x⟩, v)).run d =
        (.ok (done + min size (x.size.toNat - pos),
          (⟨pos + min size (x.size.toNat - pos), x⟩, v')), d) ∧
      Stored T dst (((contents d x).drop pos).take size) v v' ∧ AddressSpace v' root T L := by
  induction size using Nat.strong_induction_on generalizing dst pos done v with
  | _ size ih =>
  rw [safeCopy]
  by_cases h0 : size > 0
  · obtain ⟨k, hpa⟩ := vaToPA_translate v root dst
    rw [← physical_eq_getD, physical_eq h hdst] at hpa
    have hmod : target T dst % 4096 < 4096 := Nat.mod_lt _ (by omega)
    obtain ⟨len, hlen⟩ : ∃ len, len = min (PGSIZE - target T dst % PGSIZE) size := ⟨_, rfl⟩
    have hlen' : len = min (4096 - target T dst % 4096) size := hlen
    obtain ⟨bytes, hbytes⟩ : ∃ bytes, bytes = ((contents d x).drop pos).take len := ⟨_, rfl⟩
    have hcount : bytes.length = min len (x.size.toNat - pos) := by
      rw [hbytes, List.length_take, List.length_drop, length_contents]
    have hrun := run_readFile v (target T dst) hpos hsize hbytes
    rw [dif_pos h0]
    simp only [hpa, ← hlen, run_bind_ok hrun]
    by_cases hleft : x.size.toNat - pos = 0
    · -- nothing is left: whatever `dst` stands for, no byte is stored
      have hnil : bytes = [] := List.eq_nil_of_length_eq_zero (by omega)
      have htake : ((contents d x).drop pos).take size = [] :=
        List.eq_nil_of_length_eq_zero (by
          rw [List.length_take, List.length_drop, length_contents]
          omega)
      refine ⟨v, ?_, htake ▸ .nil T dst v, h⟩
      rw [if_pos (by omega), hnil, List.length_nil, put_nil, hleft, Nat.min_zero, Nat.min_zero]
      rfl
    · have hne : target T dst ≠ 0 := by
        have := hbuf 0 (by omega)
        rwa [Nat.add_zero, Nat.mod_eq_of_lt hdst] at this
      obtain ⟨b, hb, htarget⟩ := exists_page hne
      have hal := (h.page _ b hb).aligned
      have hpage : dst % 4096 + bytes.length ≤ 4096 := by omega
      have hput := stored_put (v := v) hdst hne hpage
      have hspace := addressSpace_put h hne hpage
      by_cases hshort : bytes.length < len
      · have hall : ((contents d x).drop pos).take size = bytes := by
          rw [hbytes, List.take_of_length_le, List.take_of_length_le] <;>
            rw [List.length_drop, length_contents] <;> omega
        refine ⟨_, ?_, hall ▸ hput, hspace⟩
        rw [if_pos hshort, show min size (x.size.toNat - pos) = bytes.length by omega,
          show min len (x.size.toNat - pos) = bytes.length by omega]
        rfl
      · have hfull : bytes.length = len := by omega
        rw [hfull] at hput hspace
        obtain ⟨v', hrest, hstored, hspace'⟩ := ih (size - len) (by omega) hspace
          (show pos + len ≤ x.size.toNat by omega) (Nat.mod_lt (dst + len) (Nat.two_pow_pos 64))
          (fun j hj => by
            rw [Nat.mod_add_mod, Nat.add_assoc]
            exact hbuf _ (by omega)) (done + len)
        have hsplit : ((contents d x).drop pos).take size =
            bytes ++ ((contents d x).drop (pos + len)).take (size - len) := by
          rw [hbytes, ← List.drop_drop, ← List.take_add, Nat.add_sub_cancel' (by omega)]
        refine ⟨v', ?_, hsplit ▸ hput.append (by rwa [hfull]) fun i hi j hj heq => ?_, hspace'⟩
        · have hcounts : len + min (size - len) (x.size.toNat - (pos + len)) =
              min size (x.size.toNat - pos) := by omega
          rw [if_neg hshort, hfull, show min len (x.size.toNat - pos) = len by omega, hrest,
            Nat.add_assoc, Nat.add_assoc, hcounts]
        · rw [List.length_take, List.length_drop, length_contents] at hj
          have := target_inj h (hbuf i (by omega)) heq
          omega
  · obtain rfl := Nat.eq_zero_of_not_pos h0
    refine ⟨v, ?_, .nil T dst v, h⟩
    rw [dif_neg h0, Nat.zero_min]
    rfl

/-! ## The call -/

/-- The bytes are in the buffer, and no other byte of the process or of the memory has changed.
Addresses with the same 39 bits are one. -/
structure Delivered (v : VirtualMemory) (root dst : ℕ) (bytes : List UInt8)
    (v' : VirtualMemory) : Prop where
  buffer : userBytes v' root dst bytes.length = bytes
  translation : ∀ va < 2 ^ 64, physical v' root va = physical v root va
  others : ∀ va < 2 ^ 64, (∀ j < bytes.length, va % 2 ^ 39 ≠ (dst + j) % 2 ^ 39) →
    v'.mem (physical v' root va) = v.mem (physical v root va)
  memory : ∀ a, (∀ j < bytes.length, a ≠ physical v root ((dst + j) % 2 ^ 64)) → v'.mem a = v.mem a

theorem Stored.delivered (h : Stored T dst bytes v v') (hv : AddressSpace v root T L)
    (hv' : AddressSpace v' root T L) (hbuf : ∀ j < bytes.length, target T ((dst + j) % 2 ^ 64) ≠ 0) :
    Delivered v root dst bytes v' := by
  have hmod (a : ℕ) : a % 2 ^ 64 < 2 ^ 64 := Nat.mod_lt _ (Nat.two_pow_pos 64)
  refine ⟨ext_charAt length_userBytes fun j hj => ?_, fun va hva => ?_,
    fun va hva hne => ?_, fun a ha => ?_⟩
  · rw [length_userBytes] at hj
    rw [← h.new j hj, userBytes, charAt_map_range hj, physical_eq hv' (hmod _)]
  · rw [physical_eq hv hva, physical_eq hv' hva]
  · rw [physical_eq hv hva, physical_eq hv' hva]
    refine h.old _ fun j hj heq => hne j hj ?_
    have := target_inj hv (heq ▸ hbuf j hj) heq
    omega
  · refine h.old a fun j hj => ?_
    rw [← physical_eq hv (hmod _)]
    exact ha j hj

variable {fds : FileTable} {fd_index : ℤ} {i : Fin 16}

/-- `sys_read` delivers the bytes of the file from the offset on, as many as there are and fit. -/
theorem sysRead_delivers (resource : UInt8 → UInt8 → Option Resource) (d : Disk)
    (hfd : getFileDescriptor fds fd_index = some i)
    (ht : (fds i).file_type = .regular_file ∨ (fds i).file_type = .directory)
    (hx : Mapped d (fds i).inode (fileBlocks (fds i).inode))
    (hoffset : (fds i).offset ≤ (fds i).inode.size.toNat) (h : AddressSpace v root T L)
    (hdst : dst < 2 ^ 64)
    (hbuf : UserBuffer v root dst (min size ((fds i).inode.size.toNat - (fds i).offset))) :
    ∃ k v', k = min size ((fds i).inode.size.toNat - (fds i).offset) ∧
      (sysRead resource v root fds fd_index dst size).run d = (.ok ((k : ℤ),
        Function.update fds i { fds i with offset := (fds i).offset + k }, v'), d) ∧
      Delivered v root dst (((contents d (fds i).inode).drop (fds i).offset).take k) v' := by
  obtain ⟨k, hk⟩ : ∃ k, k = min size ((fds i).inode.size.toNat - (fds i).offset) := ⟨_, rfl⟩
  have hsize : (fds i).inode.size.toNat ≤ 512 * 140 :=
    (fileBlocks_le _).trans (Nat.mul_le_mul_left 512 hx.le)
  have hbuf' : ∀ j < k, target T ((dst + j) % 2 ^ 64) ≠ 0 := fun j hj => by
    rw [← physical_eq h (Nat.mod_lt _ (Nat.two_pow_pos 64))]
    exact hbuf j (hk ▸ hj)
  obtain ⟨v', hrun, hstored, hv'⟩ := run_safeCopy_readFile h hoffset hsize hdst (hk ▸ hbuf') 0
  have htake : ((contents d (fds i).inode).drop (fds i).offset).take size =
      ((contents d (fds i).inode).drop (fds i).offset).take k := by
    rw [hk, List.take_eq_take_iff, List.length_drop, length_contents]
    omega
  rw [← hk, Nat.zero_add] at hrun
  rw [htake] at hstored
  refine ⟨k, v', hk, ?_, hstored.delivered h hv' fun j hj => hbuf' j ?_⟩
  · simp only [sysRead, hfd, ht, if_true, FileStream.seek, run_bind, hrun, run_pure,
      toInt_of_lt (show k < 2 ^ 31 by omega),
      Nat.mod_eq_of_lt (show (fds i).offset + k < 2 ^ 64 by omega)]
  · rw [List.length_take] at hj
    omega

/-- A file of two bytes, of which ten are asked for, in a region of a process. -/
theorem sysRead_delivers_two : ∃ d v root fds fds' v', contents d (fds 0).inode = [104, 105] ∧
    (sysRead (fun _ _ => none) v root fds 0 5 10).run d = (.ok (2, fds', v'), d) ∧ (fds' 0).offset = 2 ∧
    userBytes v' root 5 2 = [104, 105] := by
  obtain ⟨d, x, hx, hcontents⟩ := exists_sampleFile
  obtain ⟨src, p, v, L, hl, hsrc, hp, hfree, hregions, hregion⟩ := TaskMemory.exists_forkable
  obtain ⟨q, -, w, T, L', -, -, hcopied⟩ := TaskMemory.fork_eq hl hsrc hp hfree
  have hsize : x.size.toNat = 2 := by rw [← length_contents d x, hcontents]; rfl
  have hbuf : UserBuffer w q.page_table 5 (min 10 (x.size.toNat - 0)) := by
    rw [hsize]
    intro j hj
    have huses : src.Uses (5 + j) := by
      refine .inl ⟨0, by rw [hregions]; decide, ?_⟩
      rw [hregion]
      exact ⟨Nat.le_add_right 5 j, show 5 + j < 105 by omega⟩
    obtain ⟨-, b, -, hb, -⟩ := hcopied.mapped _ huses
    have hne := (hcopied.space.page _ b hb).ne_zero
    rw [Nat.mod_eq_of_lt (by omega), physical_eq hcopied.space (by omega)]
    simp only [target, hb]
    omega
  obtain ⟨fds, hfds⟩ : ∃ fds : FileTable, fds = fun _ => ⟨.regular_file, 0, 1, x⟩ := ⟨_, rfl⟩
  have hfd : getFileDescriptor fds 0 = some 0 := by rw [hfds]; rfl
  have hzero : fds 0 = ⟨.regular_file, 0, 1, x⟩ := by rw [hfds]
  obtain ⟨k, v', hk, hrun, hdelivered⟩ := sysRead_delivers (fun _ _ => none) d hfd
    (.inl (by rw [hzero])) (by rwa [hzero]) (by rw [hzero]; exact Nat.zero_le _) hcopied.space
    (show 5 < 2 ^ 64 by decide) (by rwa [hzero])
  have hinode : (fds 0).inode = x := by rw [hzero]
  have hoffset : (fds 0).offset = 0 := by rw [hzero]
  obtain rfl : k = 2 := by
    rw [hk, hinode, hoffset, hsize]
    rfl
  rw [hinode, hoffset, hcontents] at hdelivered
  refine ⟨d, w, q.page_table, fds, _, v', by rw [hinode, hcontents], hrun, ?_, hdelivered.buffer⟩
  rw [Function.update_self, hoffset]

end OrangeOs.Kernel
