import OrangeOs.Filesystem.Extend
import OrangeOs.Kernel.PageTree

/-! # `safe_copy`

The loop of `kernel/utils.h` that hands a buffer of a process to a function, one piece for each
page. What the pages of the buffer hold are the bytes that the process sees.
-/

namespace OrangeOs.Kernel

open Fs VirtualMemory
open Prog hiding ret

/-- `safe_copy`; `vm` is the memory in the state of the function that it calls. -/
def safeCopy {σ : Type} (vm : σ → VirtualMemory) (page_table : ℕ)
    (call : ℕ → ℕ → σ → FsProg (ℕ × σ)) (dst size copyout_size : ℕ) (s : σ) : FsProg (ℕ × σ) :=
  if _h : size > 0 then
    match (vm s).vaToPA page_table dst 0 with
    | .error e => fail e
    | .ok (pa, _) => do
      let remain := PGSIZE - pa % PGSIZE
      let len := min remain size
      let (ret, s) ← call pa len s
      if ret < len then return (copyout_size + ret, s)
      else safeCopy vm page_table call ((dst + len) % 2 ^ 64) (size - len) (copyout_size + ret) s
  else return (copyout_size, s)
termination_by size
decreasing_by
  have hp : pa % 4096 < 4096 := Nat.mod_lt _ (by omega)
  simp only [PGSIZE]
  omega

/-! ## User addresses -/

/-- The address of the memory that an address of a process stands for, 0 if it stands for none. -/
def physical (v : VirtualMemory) (page_table va : ℕ) : ℕ :=
  match v.vaToPA page_table va 0 with
  | .ok (pa, _) => pa
  | .error _ => 0

/-- The pages of a buffer are mapped. -/
def UserBuffer (v : VirtualMemory) (page_table dst size : ℕ) : Prop :=
  ∀ k < size, physical v page_table ((dst + k) % 2 ^ 64) ≠ 0

instance (v : VirtualMemory) (page_table dst size : ℕ) : Decidable (UserBuffer v page_table dst size) :=
  inferInstanceAs (Decidable (∀ k < size, _ ≠ 0))

/-- The bytes that a process sees in a buffer. -/
def userBytes (v : VirtualMemory) (page_table dst size : ℕ) : List UInt8 :=
  (List.range size).map fun k => v.mem (physical v page_table ((dst + k) % 2 ^ 64))

/-- The pieces of the buffer at `dst` that lie in one page each. -/
def pieces (dst : ℕ) (buf : List UInt8) : List (List UInt8) :=
  if _h : 0 < buf.length then
    buf.take (PGSIZE - dst % PGSIZE) ::
      pieces (dst + (PGSIZE - dst % PGSIZE)) (buf.drop (PGSIZE - dst % PGSIZE))
  else []
termination_by buf.length
decreasing_by
  have hp : dst % 4096 < 4096 := Nat.mod_lt _ (by omega)
  simp only [List.length_drop, PGSIZE]
  omega

/-- Hands the pieces to a function, as long as it takes them. -/
def eachPiece {σ : Type} (call : List UInt8 → σ → FsProg (ℕ × σ)) :
    List (List UInt8) → ℕ → σ → FsProg (ℕ × σ)
  | [], done, s => return (done, s)
  | p :: ps, done, s => do
    let (ret, s) ← call p s
    if ret < p.length then return (done + ret, s) else eachPiece call ps (done + ret) s

variable {v : VirtualMemory} {page_table a b dst size done n : ℕ} {buf : List UInt8}

theorem getPTE_congr (ha : a < 2 ^ 64) (hb : b < 2 ^ 64)
    (hab : a / 4096 = b / 4096) (need_alloc : Bool) :
    v.getPTE page_table a need_alloc 3 = v.getPTE page_table b need_alloc 3 := by
  have hdown : ∀ c, c < 2 ^ 64 → (if c % PGSIZE ≠ 0 then addrCastDown c else c) = c / 4096 * 4096 := by
    intro c hc
    rw [addrCastDown_eq hc]
    split
    · omega
    · next h =>
      have : c % 4096 = 0 := not_not.mp h
      omega
  simp only [getPTE, hdown a ha, hdown b hb, hab]

/-- The addresses of one page are mapped to one page, or to none. -/
theorem vaToPA_page (ha : a < 2 ^ 64) (hne : physical v page_table a ≠ 0) :
    ∃ base k, base % 4096 = 0 ∧ ∀ b < 2 ^ 64, a / 4096 = b / 4096 →
      v.vaToPA page_table b 0 = .ok (base + b % 4096, k) := by
  have hpte : ∀ b < 2 ^ 64, a / 4096 = b / 4096 →
      v.getPTE page_table b false 3 = v.getPTE page_table a false 3 := fun b hb hab =>
    (getPTE_congr ha hb hab false).symm
  cases hcase : v.getPTE page_table a false 3 with
  | error e =>
    refine absurd ?_ hne
    rw [physical, vaToPA, hcase]
    rfl
  | ok r =>
    obtain ⟨pte, v'⟩ := r
    by_cases hv : pte = 0 ∨ v'.mem.load pte 8 &&& PTE.V = 0
    · refine absurd ?_ hne
      simp only [physical, vaToPA, hcase, ok_bind, if_pos hv]
      rfl
    · refine ⟨pteTarget (v'.mem.load pte 8), v'.mem.load pte 8 &&& PTE_MASK, pteTarget_aligned _,
        fun b hb hab => ?_⟩
      simp only [vaToPA, hpte b hb hab, hcase, ok_bind, if_neg hv]
      rfl

/-- Within a page the memory is contiguous. -/
theorem physical_page (ha : a < 2 ^ 64) (hne : physical v page_table a ≠ 0) :
    (∃ k, v.vaToPA page_table a 0 = .ok (physical v page_table a, k)) ∧
      physical v page_table a % 4096 = a % 4096 ∧
      ∀ j, a % 4096 + j < 4096 →
        physical v page_table (a + j) = physical v page_table a + j := by
  obtain ⟨base, k, hbase, hpage⟩ := vaToPA_page ha hne
  have hphys : ∀ b < 2 ^ 64, a / 4096 = b / 4096 → physical v page_table b = base + b % 4096 :=
    fun b hb hab => by rw [physical, hpage b hb hab]
  refine ⟨⟨k, ?_⟩, ?_, fun j hj => ?_⟩
  · rw [hphys a ha rfl, hpage a ha rfl]
  · rw [hphys a ha rfl]
    omega
  · rw [hphys (a + j) (by omega) (by omega), hphys a ha rfl]
    omega

theorem length_userBytes : (userBytes v page_table dst size).length = size := by
  simp [userBytes]

theorem UserBuffer.drop (h : UserBuffer v page_table dst size) (hn : n ≤ size) :
    UserBuffer v page_table ((dst + n) % 2 ^ 64) (size - n) := by
  intro k hk
  rw [Nat.mod_add_mod, Nat.add_assoc]
  exact h (n + k) (by omega)

theorem userBytes_drop (hn : n ≤ size) : (userBytes v page_table dst size).drop n =
    userBytes v page_table ((dst + n) % 2 ^ 64) (size - n) := by
  have hsplit : List.range size = List.range n ++ (List.range (size - n)).map (n + ·) := by
    rw [← List.range_add, Nat.add_sub_cancel' hn]
  rw [userBytes, hsplit, List.map_append, List.drop_left' (by simp), List.map_map, userBytes]
  refine List.map_congr_left fun k _ => ?_
  rw [Function.comp_apply, Nat.mod_add_mod, Nat.add_assoc]

/-- The bytes of the buffer in its first page. -/
theorem userBytes_take (h : UserBuffer v page_table dst size) (hdst : dst < 2 ^ 64) (hpos : 0 < size)
    (hn : n ≤ size) (hpage : dst % 4096 + n ≤ 4096) :
    v.mem.bytes (physical v page_table dst) n = (userBytes v page_table dst size).take n := by
  have hne : physical v page_table dst ≠ 0 := by
    have := h 0 hpos
    rwa [Nat.add_zero, Nat.mod_eq_of_lt hdst] at this
  obtain ⟨-, -, hcont⟩ := physical_page hdst hne
  have hsplit : List.range size = List.range n ++ (List.range (size - n)).map (n + ·) := by
    rw [← List.range_add, Nat.add_sub_cancel' hn]
  rw [userBytes, hsplit, List.map_append, List.take_left' (by simp), Memory.bytes]
  refine List.map_congr_left fun k hk => ?_
  rw [List.mem_range] at hk
  rw [Nat.mod_eq_of_lt (by omega), hcont k (by omega)]

theorem pieces_nil (dst : ℕ) : pieces dst [] = [] := by
  rw [pieces, dif_neg (by simp)]

theorem pieces_of_pos (hpos : 0 < buf.length) (dst : ℕ) : pieces dst buf =
    buf.take (4096 - dst % 4096) ::
      pieces (dst + (4096 - dst % 4096)) (buf.drop (4096 - dst % 4096)) := by
  rw [pieces, dif_pos hpos]
  rfl

/-- Only the place in the page matters. -/
theorem pieces_congr (hab : a % 4096 = b % 4096) (buf : List UInt8) : pieces a buf = pieces b buf := by
  induction hlen : buf.length using Nat.strong_induction_on generalizing a b buf with
  | _ len ih =>
  subst hlen
  by_cases hpos : 0 < buf.length
  · have hdrop : (buf.drop (4096 - b % 4096)).length < buf.length := by
      rw [List.length_drop]
      omega
    rw [pieces_of_pos hpos, pieces_of_pos hpos, hab]
    exact congrArg _ (ih _ hdrop (by omega) _ rfl)
  · obtain rfl := List.eq_nil_of_length_eq_zero (Nat.eq_zero_of_not_pos hpos)
    rw [pieces_nil, pieces_nil]

theorem flatten_pieces (dst : ℕ) (buf : List UInt8) : (pieces dst buf).flatten = buf := by
  induction hlen : buf.length using Nat.strong_induction_on generalizing dst buf with
  | _ len ih =>
  subst hlen
  by_cases hpos : 0 < buf.length
  · have hdrop : (buf.drop (4096 - dst % 4096)).length < buf.length := by
      rw [List.length_drop]
      omega
    rw [pieces_of_pos hpos, List.flatten_cons, ih _ hdrop _ _ rfl, List.take_append_drop]
  · obtain rfl := List.eq_nil_of_length_eq_zero (Nat.eq_zero_of_not_pos hpos)
    rw [pieces_nil, List.flatten_nil]

/-- `safe_copy` hands over the pieces of what the process sees in the buffer. -/
theorem safeCopy_eq {σ : Type} (call : List UInt8 → σ → FsProg (ℕ × σ)) (hdst : dst < 2 ^ 64)
    (h : UserBuffer v page_table dst size) (s : σ) :
    safeCopy (fun _ => v) page_table (fun pa len => call (v.mem.bytes pa len)) dst size done s =
      eachPiece call (pieces dst (userBytes v page_table dst size)) done s := by
  induction size using Nat.strong_induction_on generalizing dst done s with
  | _ size ih =>
  rw [safeCopy]
  by_cases hpos : size > 0
  · have hne : physical v page_table dst ≠ 0 := by
      have := h 0 hpos
      rwa [Nat.add_zero, Nat.mod_eq_of_lt hdst] at this
    obtain ⟨⟨k, hpa⟩, hmod, -⟩ := physical_page hdst hne
    obtain ⟨len, hlen⟩ : ∃ len, len = min (4096 - dst % 4096) size := ⟨_, rfl⟩
    have hmin : min (PGSIZE - physical v page_table dst % PGSIZE) size = len := by
      rw [hlen, ← hmod]
      rfl
    have hbytes := userBytes_take h hdst hpos (n := len) (by omega) (by omega)
    have hsplit : (userBytes v page_table dst size).take (4096 - dst % 4096) =
          (userBytes v page_table dst size).take len ∧
        pieces (dst + (4096 - dst % 4096))
          ((userBytes v page_table dst size).drop (4096 - dst % 4096)) =
          pieces ((dst + len) % 2 ^ 64)
            (userBytes v page_table ((dst + len) % 2 ^ 64) (size - len)) := by
      rcases Nat.le_total (4096 - dst % 4096) size with hle | hle
      · obtain rfl : len = 4096 - dst % 4096 := by omega
        rw [userBytes_drop hle]
        exact ⟨rfl, pieces_congr (by omega) _⟩
      · obtain rfl : len = size := by omega
        have hnil : userBytes v page_table ((dst + len) % 2 ^ 64) (len - len) = [] := by
          rw [Nat.sub_self, userBytes, List.range_zero, List.map_nil]
        rw [hnil, List.drop_eq_nil_of_le (by rwa [length_userBytes]), pieces_nil, pieces_nil,
          List.take_of_length_le (by rwa [length_userBytes]),
          List.take_of_length_le length_userBytes.le]
        exact ⟨rfl, rfl⟩
    have hlt : size - len < size := by omega
    have hlen' : ((userBytes v page_table dst size).take len).length = len :=
      List.length_take_of_le (by rw [length_userBytes]; omega)
    rw [dif_pos hpos, pieces_of_pos (by rwa [length_userBytes]), hsplit.1, hsplit.2, hpa]
    simp only [hmin, hbytes, eachPiece, hlen']
    congr 1
    funext r
    obtain ⟨ret, s'⟩ := r
    rw [ih _ hlt (Nat.mod_lt _ (by decide)) (h.drop (by omega))]
  · obtain rfl := Nat.eq_zero_of_not_pos hpos
    rw [dif_neg hpos, userBytes, List.range_zero, List.map_nil, pieces_nil, eachPiece]

end OrangeOs.Kernel
