import OrangeOs.Library.Memory

/-! # Command splitting

`SplitString` of `lib/common.cc`. A C string is the list of its characters; the pointer is the part
of the string that is left. The rows of `vec` lie one after the other in memory.
-/

namespace OrangeOs.Lib

open Memory

variable {m m' : Memory} {vec level left a n k : ℕ} {str s t rest : List UInt8} {dim c : UInt8}

/-- The loop that skips delimiters. -/
def skipDim (dim : UInt8) : List UInt8 → List UInt8
  | [] => []
  | c :: str => if c ≠ 0 ∧ c = dim then skipDim dim str else c :: str

/-- The loop that looks for the end of a token. -/
def skipToken (dim : UInt8) : List UInt8 → List UInt8
  | [] => []
  | c :: str => if c ≠ 0 ∧ c ≠ dim then skipToken dim str else c :: str

/-- The turns of `SplitString`; `left` of them remain before `max_level`. -/
def splitFrom (vec : ℕ) (dim : UInt8) (left split_level : ℕ) (str : List UInt8)
    (m : Memory) : ℤ × Memory :=
  let pos := skipDim dim str
  if charAt pos 0 = 0 then (split_level, m)
  else
    match left with
    | 0 => (-1, m)
    | left + 1 =>
      let str := skipToken dim pos
      let len := pos.length - str.length
      if len + 1 > 32 then (-1, m)
      else
        let m := m.put (vec + 32 * split_level) len pos
        let m := m.put (vec + 32 * split_level + len) 1 [0]
        splitFrom vec dim left (split_level + 1) str m

def splitString (str : List UInt8) (vec : ℕ) (dim : UInt8) (m : Memory) : ℤ × Memory :=
  splitFrom vec dim 16 0 str m

/-! ## Tokens -/

/-- The maximal parts of a string without a delimiter. -/
def tokens (dim : UInt8) (s : List UInt8) : List (List UInt8) := (s.splitOn dim).filter (· ≠ [])

theorem tokens_nil (dim : UInt8) : tokens dim [] = [] := rfl

theorem tokens_dim (dim : UInt8) (s : List UInt8) : tokens dim (dim :: s) = tokens dim s := by
  have h := List.splitOn_append_cons_self (a := dim) [] s
  rw [List.nil_append, List.splitOn_nil] at h
  rw [tokens, h]
  rfl

/-- A token is at the start of a string. -/
theorem tokens_append (ht : t ≠ []) (hdim : dim ∉ t) (hrest : rest = [] ∨ ∃ s, rest = dim :: s) :
    tokens dim (t ++ rest) = t :: tokens dim rest := by
  rcases hrest with rfl | ⟨s, rfl⟩
  · rw [List.append_nil, tokens, List.splitOn_eq_singleton hdim]
    simp [ht, tokens_nil]
  · rw [tokens_dim, tokens, List.splitOn_append_cons_self, List.splitOn_eq_singleton hdim]
    simp [ht, tokens]

theorem tokens_skipDim (dim : UInt8) : ∀ s, tokens dim (skipDim dim s) = tokens dim s
  | [] => rfl
  | c :: s => by
    rw [skipDim]
    split
    · next h => rw [tokens_skipDim dim s, h.2, tokens_dim]
    · rfl

/-- What the two loops find. -/
theorem skipToken_spec (dim : UInt8) (hs : 0 ∉ s) :
    ∃ t, s = t ++ skipToken dim s ∧ dim ∉ t ∧
    (skipToken dim s = [] ∨ ∃ u, skipToken dim s = dim :: u) := by
  induction s with
  | nil => exact ⟨[], rfl, List.not_mem_nil, .inl rfl⟩
  | cons c s ih =>
    have hc : c ≠ 0 := fun h => hs (h ▸ List.mem_cons_self)
    rw [skipToken]
    by_cases hcd : c = dim
    · rw [if_neg fun h => h.2 hcd]
      exact ⟨[], rfl, List.not_mem_nil, .inr ⟨s, by rw [hcd]⟩⟩
    · rw [if_pos ⟨hc, hcd⟩]
      obtain ⟨t, ht, hdim, hrest⟩ := ih fun h => hs (List.mem_cons_of_mem c h)
      refine ⟨c :: t, congrArg (c :: ·) ht, ?_, hrest⟩
      exact List.not_mem_cons_of_ne_of_not_mem (Ne.symm hcd) hdim

theorem skipDim_spec (hdim : dim ≠ 0) : ∀ s, skipDim dim s = [] ∨ ∃ c u, skipDim dim s = c :: u ∧ c ≠ dim
  | [] => .inl rfl
  | c :: s => by
    rw [skipDim]
    by_cases hcd : c = dim
    · rw [if_pos ⟨hcd ▸ hdim, hcd⟩]
      exact skipDim_spec hdim s
    · rw [if_neg fun h => hcd h.2]
      exact .inr ⟨c, s, rfl, hcd⟩

theorem mem_of_mem_skipDim {x : UInt8} : ∀ {s}, x ∈ skipDim dim s → x ∈ s
  | [], h => h
  | c :: s, h => by
    rw [skipDim] at h
    split at h
    · exact List.mem_cons_of_mem c (mem_of_mem_skipDim h)
    · exact h

/-! ## What `SplitString` does -/

/-- A string with its NUL at an address. -/
def Holds (m : Memory) (a : ℕ) (t : List UInt8) : Prop := ∀ k ≤ t.length, m (a + k) = charAt t k

/-- A token is copied, and its NUL is set. -/
theorem holds_put (m : Memory) (a : ℕ) (t rest : List UInt8) :
    Holds ((m.put a t.length (t ++ rest)).put (a + t.length) 1 [0]) a t := by
  intro k hk
  rcases Nat.lt_or_eq_of_le hk with hlt | rfl
  · rw [put, if_neg (by omega), put, if_pos (by omega), Nat.add_sub_cancel_left, charAt_append_left hlt]
  · rw [put, if_pos (by omega), Nat.sub_self, charAt_of_le le_rfl]
    rfl

theorem put_same (m : Memory) (a n : ℕ) (s : List UInt8) :
    Same m (m.put a n s) fun i => i < a ∨ a + n ≤ i := by
  intro i hi
  rw [put, if_neg (by omega)]

/-- What a turn finds: nothing, or a token. -/
theorem turn_cases (hdim : dim ≠ 0) (hstr : 0 ∉ str) :
    (charAt (skipDim dim str) 0 = 0 ∧ tokens dim str = []) ∨
      charAt (skipDim dim str) 0 ≠ 0 ∧ ∃ t, skipDim dim str = t ++ skipToken dim (skipDim dim str) ∧
        0 ∉ skipToken dim (skipDim dim str) ∧
        tokens dim str = t :: tokens dim (skipToken dim (skipDim dim str)) := by
  have hpos : 0 ∉ skipDim dim str := fun h => hstr (mem_of_mem_skipDim h)
  rw [← tokens_skipDim dim str]
  rcases skipDim_spec hdim str with h | ⟨c, u, h, hc⟩
  · rw [h]
    exact .inl ⟨rfl, rfl⟩
  · have hc0 : c ≠ 0 := by
      rintro rfl
      exact hpos (h ▸ List.mem_cons_self)
    obtain ⟨t, ht, hdimt, hrest⟩ := skipToken_spec dim hpos
    have hne : t ≠ [] := by
      rintro rfl
      rw [List.nil_append] at ht
      rcases hrest with hr | ⟨v, hr⟩
      · rw [hr, h] at ht
        cases ht
      · rw [hr, h] at ht
        exact hc (List.cons.inj ht).1
    refine .inr ⟨by rw [h]; exact hc0, t, ht, fun hm => hpos (ht ▸ List.mem_append_right t hm), ?_⟩
    conv_lhs => rw [ht]
    exact tokens_append hne hdimt hrest

/-- The turns from row `level` on. -/
theorem splitFrom_spec (m : Memory) (vec left level : ℕ) (hdim : dim ≠ 0) (hstr : 0 ∉ str) :
    ((splitFrom vec dim left level str m).1 = -1 ↔
      left < (tokens dim str).length ∨ ∃ t ∈ tokens dim str, 31 < t.length) ∧
    ((splitFrom vec dim left level str m).1 ≠ -1 →
      (splitFrom vec dim left level str m).1 = level + (tokens dim str).length ∧
      ∀ i t, (tokens dim str)[i]? = some t →
        Holds (splitFrom vec dim left level str m).2 (vec + 32 * (level + i)) t) ∧
    Same m (splitFrom vec dim left level str m).2 fun a =>
      a < vec + 32 * level ∨ vec + 32 * (level + left) ≤ a := by
  induction left generalizing level str m with
  | zero =>
    rw [splitFrom]
    rcases turn_cases hdim hstr with ⟨h0, hT⟩ | ⟨h0, t, -, -, hT⟩
    · rw [if_pos h0, hT]
      refine ⟨by simp, fun _ => ⟨by simp, by simp⟩, Same.refl _ _⟩
    · rw [if_neg h0, hT]
      refine ⟨by simp, fun h => absurd rfl h, Same.refl _ _⟩
  | succ left ih =>
    rw [splitFrom]
    rcases turn_cases hdim hstr with ⟨h0, hT⟩ | ⟨h0, t, hpos, hrest, hT⟩
    · rw [if_pos h0, hT]
      refine ⟨by simp, fun _ => ⟨by simp, by simp⟩, Same.refl _ _⟩
    · have hlen : (skipDim dim str).length - (skipToken dim (skipDim dim str)).length = t.length := by
        conv_lhs => rw [hpos, List.length_append]
        rw [← hpos]
        exact Nat.add_sub_cancel ..
      rw [if_neg h0, hT]
      dsimp only
      rw [hlen]
      by_cases hlong : t.length + 1 > 32
      · rw [if_pos hlong]
        refine ⟨iff_of_true rfl (.inr ⟨t, List.mem_cons_self, by omega⟩),
          fun h => absurd rfl h, Same.refl _ _⟩
      · rw [if_neg hlong]
        have hput := holds_put m (vec + 32 * level) t (skipToken dim (skipDim dim str))
        rw [← hpos] at hput
        have hsame : Same m ((m.put (vec + 32 * level) t.length (skipDim dim str)).put
            (vec + 32 * level + t.length) 1 [0]) fun a => a < vec + 32 * level ∨
            vec + 32 * (level + 1) ≤ a := by
          refine Same.trans ((put_same _ _ _ _).mono fun a ha => ?_)
            ((put_same _ _ _ _).mono fun a ha => ?_) <;>
            omega
        generalize (m.put (vec + 32 * level) t.length (skipDim dim str)).put
          (vec + 32 * level + t.length) 1 [0] =
          m₁ at hput hsame ⊢
        obtain ⟨hneg, hres, hkeep⟩ := ih m₁ (level + 1) hrest
        refine ⟨?_, fun hne => ?_, ?_⟩
        · rw [hneg, List.length_cons, Nat.succ_lt_succ_iff]
          have hshort : ¬ 31 < t.length := by omega
          simp only [List.mem_cons, exists_eq_or_imp, hshort, false_or]
        · obtain ⟨hcount, hrows⟩ := hres hne
          refine ⟨by rw [hcount]; push_cast; simp; ring, fun i u hi => ?_⟩
          cases i with
          | zero =>
            obtain rfl : t = u := by simpa using hi
            intro k hk
            rw [hkeep _ (.inl (by omega)), Nat.add_zero]
            exact hput k hk
          | succ i =>
            rw [List.getElem?_cons_succ] at hi
            have := hrows i u hi
            rwa [Nat.add_right_comm] at this
        · exact (hsame.mono fun a ha => by omega).trans (hkeep.mono fun a ha => by omega)

/-- `SplitString` fails for more than 16 tokens and for one of more than 31 characters. Otherwise
row `i` holds token `i`. It writes nothing but the rows. -/
theorem splitString_spec (m : Memory) (vec : ℕ) (str : List UInt8) (dim : UInt8) (hstr : 0 ∉ str)
    (hdim : dim ≠ 0) :
    ((splitString str vec dim m).1 = -1 ↔
      16 < (tokens dim str).length ∨ ∃ t ∈ tokens dim str, 31 < t.length) ∧
    ((splitString str vec dim m).1 ≠ -1 → (splitString str vec dim m).1 = (tokens dim str).length ∧
      ∀ i t, (tokens dim str)[i]? = some t → Holds (splitString str vec dim m).2 (vec + 32 * i) t) ∧
    Same m (splitString str vec dim m).2 fun a => ¬ Range vec (16 * 32) a := by
  obtain ⟨hneg, hres, hkeep⟩ := splitFrom_spec m vec 16 0 hdim hstr
  refine ⟨hneg, fun hne => ?_, hkeep.mono fun a ha => ?_⟩
  · obtain ⟨hcount, hrows⟩ := hres hne
    simp only [Nat.cast_zero, zero_add] at hcount hrows
    exact ⟨hcount, hrows⟩
  · simp only [Range, not_and, not_lt] at ha
    omega

/-- `ls  -l` is two tokens. -/
theorem splitString_spec_ls :
    Holds (splitString [108, 115, 32, 32, 45, 108] 64 32 fun _ => 0).2 96 [45, 108] :=
  ((splitString_spec (fun _ => 0) 64 [108, 115, 32, 32, 45, 108] 32 (by decide) (by decide)).2.1
    (by decide +kernel)).2 1 [45, 108] (by decide)

end OrangeOs.Lib
