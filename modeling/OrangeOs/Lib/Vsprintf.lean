import Mathlib.Data.Stream.Init
import OrangeOs.Lib.Format

/-! # Formatted output

`simple_vsprintf` of `lib/printk.cc`. An argument takes a slot of 64 bits of the `va_list`, of which
an `int` has the low 32; the members of the union are its low bits. `str` are the strings in memory,
by their addresses. The 0 that ends the output in memory is left out.
-/

namespace OrangeOs.Lib

/-- The variables of `simple_vsprintf` that live through the loop, and the output. -/
structure VsState where
  ap : Stream' (BitVec 64)
  u : BitVec 64
  out : List Char
  pc : ℤ

/-- A member with `bits` bits gets a value. -/
def storeMember (bits : ℕ) (value u : BitVec 64) : BitVec 64 :=
  BitVec.ofNat 64 (u.toNat / 2 ^ bits * 2 ^ bits + value.toNat % 2 ^ bits)

/-- The value of a member as a `long long`. -/
def loadMember (bits : ℕ) (signed : Bool) (u : BitVec 64) : BitVec 64 :=
  if signed then (u.setWidth bits).signExtend 64 else (u.setWidth bits).setWidth 64

/-- The conversions: a number is stored to one member of the union and printed from another one. -/
inductive Conv
  | char
  | string
  | number (write read base : ℕ) (sign : Bool) (letbase : Char)
  deriving DecidableEq, Repr

def numberConv (write read : ℕ) (c : Char) : Option Conv :=
  if c = 'd' then some (.number write write 10 true 'a')
  else if c = 'u' then some (.number write read 10 false 'a')
  else if c = 'o' then some (.number write read 8 false 'a')
  else if c = 'x' then some (.number write read 16 false 'a')
  else if c = 'X' then some (.number write read 16 false 'A')
  else none

/-- The cases of the switches. After `h` and `hh` the unsigned conversions read `u.lli`. -/
def LengthMod.conv : LengthMod → Char → Option Conv
  | .none, c =>
    if c = 'p' then some (.number 64 64 16 false 'a')
    else if c = 'c' then some .char
    else if c = 's' then some .string
    else numberConv 32 32 c
  | .l, c => numberConv 64 64 c
  | .ll, c => numberConv 64 64 c
  | .h, c => numberConv 16 64 c
  | .hh, c => numberConv 8 64 c

namespace Conv

/-- The bits of the member that gets the argument. -/
def write : Conv → ℕ
  | char => 8
  | string => 64
  | number write _ _ _ _ => write

def print (str : BitVec 64 → List Char) (u : BitVec 64) (out : List Char) (width : ℤ) (flags : Flags) :
    Conv → Option (List Char × ℤ)
  | char =>
    let c := Char.ofNat (u.toNat % 2 ^ 8)
    some (prints out (if c.toNat = 0 then [] else [c]) width flags)
  | string => some (prints out (if u = 0 then "(null)".toList else str u) width flags)
  | number _ read base sign letbase =>
    printkWriteNum out (loadMember read sign u) base sign width flags letbase

end Conv

namespace VsState

def width (s : VsState) : Width → ℤ × VsState
  | .star => ((s.ap.head.setWidth 32).toInt, { s with ap := s.ap.tail })
  | .digits width => (width, s)

/-- A turn of the loop puts out a piece. -/
def perform (str : BitVec 64 → List Char) (s : VsState) : Piece → Option VsState
  | .char c => some { s with out := simpleOutputchar s.out c, pc := wrapInt (s.pc + 1) }
  | .directive d c =>
    let (width, s) := s.width d.width
    match d.length.conv c with
    | none => some s
    | some k =>
      let u := storeMember k.write s.ap.head s.u
      (k.print str u s.out width d.flags).map fun (out, pc) =>
        { ap := s.ap.tail, u := u, out := out, pc := wrapInt (s.pc + pc) }

end VsState

/-- How `simple_vsprintf` ends: it returns, it reads the format past its 0, it leaves the buffer of
`printk_write_num`, or it has not returned after the turns that it was given. -/
inductive Stop | done | pastEnd | underrun | turns
  deriving DecidableEq, Repr

def vsprintfLoop (str : BitVec 64 → List Char) : ℕ → List Char → VsState → Stop × VsState
  | 0, _, s => (.turns, s)
  | n + 1, format, s =>
    match scanTurn format with
    | .finish => (.done, s)
    | .past d => (.pastEnd, (s.width d.width).2)
    | .piece p format =>
      match s.perform str p with
      | none => (.underrun, s)
      | some s => vsprintfLoop str n format s

def simpleVsprintf (str : BitVec 64 → List Char) (format : List Char)
    (ap : Stream' (BitVec 64)) (u : BitVec 64) :
    Stop × VsState :=
  vsprintfLoop str (format.length + 1) format ⟨ap, u, [], 0⟩

variable {str : BitVec 64 → List Char} {format f g : List Char}
    {ap ap' : Stream' (BitVec 64)} {u u' : BitVec 64}
  {s s' : VsState} {p : Piece} {ps qs : List Piece} {n w r base : ℕ} {c letbase : Char} {sign : Bool}

/-! ## A piece -/

/-- `simple_vsprintf` passes the bases and the letters of `printk_write_num`. -/
theorem conv_base {length : LengthMod} (h : length.conv c = some (.number w r base sign letbase)) :
    PrintBase base ∧ PrintLetter letbase := by
  have hnumber : ∀ n m, numberConv n m c = some (.number w r base sign letbase) →
      PrintBase base ∧ PrintLetter letbase := by
    intro n m h
    unfold numberConv at h
    split_ifs at h <;> cases h <;> decide
  cases length with
  | none =>
    rw [LengthMod.conv] at h
    split_ifs at h
    · cases h
      decide
    · cases h
    · cases h
    · exact hnumber _ _ h
  | l => exact hnumber _ _ h
  | ll => exact hnumber _ _ h
  | h => exact hnumber _ _ h
  | hh => exact hnumber _ _ h

/-- What a conversion puts out. -/
def Conv.text (str : BitVec 64 → List Char) (u : BitVec 64) (width : ℤ)
    (flags : Flags) : Conv → List Char
  | char =>
    let c := Char.ofNat (u.toNat % 2 ^ 8)
    printsText (if c.toNat = 0 then [] else [c]) width flags
  | string => printsText (if u = 0 then "(null)".toList else str u) width flags
  | number _ read base sign letbase => numText (loadMember read sign u) base sign width flags letbase

/-- The width of a directive, and how many arguments it takes. -/
def Width.value (ap : Stream' (BitVec 64)) : Width → ℤ
  | star => (ap.head.setWidth 32).toInt
  | digits width => width

def Width.slots : Width → ℕ
  | star => 1
  | digits _ => 0

namespace Piece

/-- How many arguments a piece takes. -/
def slots : Piece → ℕ
  | char _ => 0
  | directive d c => d.width.slots + if (d.length.conv c).isSome then 1 else 0

/-- The union after a piece. -/
def union (ap : Stream' (BitVec 64)) (u : BitVec 64) : Piece → BitVec 64
  | char _ => u
  | directive d c =>
    match d.length.conv c with
    | none => u
    | some k => storeMember k.write (ap.get d.width.slots) u

/-- What a piece puts out. -/
def text (str : BitVec 64 → List Char) (ap : Stream' (BitVec 64)) (u : BitVec 64) : Piece → List Char
  | char c => [c]
  | directive d c =>
    match d.length.conv c with
    | none => []
    | some k => k.text str (storeMember k.write (ap.get d.width.slots) u) (d.width.value ap) d.flags

end Piece

theorem print_spec {k : Conv}
    (hk : ∀ w r base sign letbase, k = .number w r base sign letbase → PrintBase base)
    (str : BitVec 64 → List Char) (u : BitVec 64) (out : List Char) (width : ℤ) (flags : Flags) :
    ∃ pc, k.print str u out width flags = some (out ++ k.text str u width flags, pc) := by
  cases k with
  | char => exact ⟨_, congrArg some (prints_eq _ _ _ _)⟩
  | string => exact ⟨_, congrArg some (prints_eq _ _ _ _)⟩
  | number w r base sign letbase => exact ⟨_, printkWriteNum_eq (hk _ _ _ _ _ rfl) _ _ _ _ _ _⟩

/-- A turn: a piece takes its arguments, it leaves its argument in the union, and the output gets
its text. -/
theorem perform_spec (str : BitVec 64 → List Char) (s : VsState) (p : Piece) :
    ∃ pc, s.perform str p =
    some ⟨s.ap.drop p.slots, p.union s.ap s.u, s.out ++ p.text str s.ap s.u, pc⟩ := by
  cases p with
  | char c => exact ⟨_, rfl⟩
  | directive d c =>
    have hwidth : s.width d.width = (d.width.value s.ap, { s with ap := s.ap.drop d.width.slots }) := by
      cases d.width <;> rfl
    rw [VsState.perform, hwidth]
    dsimp only [Piece.slots, Piece.union, Piece.text]
    cases hk : d.length.conv c with
    | none => exact ⟨s.pc, by simp⟩
    | some k =>
      dsimp only
      have hhead : (s.ap.drop d.width.slots).head = s.ap.get d.width.slots :=
        Stream'.get_drop 0 d.width.slots s.ap
      obtain ⟨pc, hpc⟩ := print_spec
        (fun w r base sign letbase h => (conv_base (hk.trans (congrArg some h))).1) str
        (storeMember k.write (s.ap.get d.width.slots) s.u) s.out (d.width.value s.ap) d.flags
      rw [hhead, hpc]
      exact ⟨wrapInt (s.pc + pc), by simp⟩

/-! ## The loop -/

/-- How many arguments a format takes. -/
def slots (ps : List Piece) : ℕ := (ps.map Piece.slots).sum

/-- What a list of pieces puts out. -/
def text (str : BitVec 64 → List Char) : List Piece → Stream' (BitVec 64) → BitVec 64 → List Char
  | [], _, _ => []
  | p :: ps, ap, u => p.text str ap u ++ text str ps (ap.drop p.slots) (p.union ap u)

/-- The union after a list of pieces. -/
def union : List Piece → Stream' (BitVec 64) → BitVec 64 → BitVec 64
  | [], _, u => u
  | p :: ps, ap, u => union ps (ap.drop p.slots) (p.union ap u)

/-- The loop puts out the pieces of the format, and it ends at the 0 or behind it. -/
theorem vsprintfLoop_spec (str : BitVec 64 → List Char) : ∀ n format s, format.length < n →
    (vsprintfLoop str n format s).1 = (if ending format = .cut then .pastEnd else .done) ∧
      (vsprintfLoop str n format s).2.out = s.out ++ text str (pieces format) s.ap s.u
  | 0, _, _, hn => absurd hn (Nat.not_lt_zero _)
  | n + 1, format, s, hn => by
    have hend := ending_scanTurn format
    rw [vsprintfLoop]
    rcases hturn : scanTurn format with _ | d | ⟨p, g⟩ <;> rw [hturn] at hend
    · rw [pieces_of_finish hturn]
      exact ⟨(if_neg hend).symm, (List.append_nil _).symm⟩
    · rw [pieces_of_past hturn]
      refine ⟨(if_pos hend).symm, ?_⟩
      rw [text, List.append_nil]
      dsimp only
      cases d.width <;> rfl
    · obtain ⟨pc, hp⟩ := perform_spec str s p
      obtain ⟨hstop, hout⟩ := vsprintfLoop_spec str n g
        ⟨s.ap.drop p.slots, p.union s.ap s.u, s.out ++ p.text str s.ap s.u, pc⟩
        (by have := length_scanTurn hturn; omega)
      rw [pieces_of_turn hturn]
      dsimp only
      rw [hp]
      exact ⟨by rw [hstop, hend], by rw [hout, text, List.append_assoc]⟩

/-- The scanner stays in a format exactly if this does not end within a directive; behind a single
`%` it may end. -/
theorem simpleVsprintf_done (str : BitVec 64 → List Char) (format : List Char) (ap : Stream' (BitVec 64))
    (u : BitVec 64) : (simpleVsprintf str format ap u).1 = .done ↔ ending format ≠ .cut := by
  rw [simpleVsprintf, (vsprintfLoop_spec str _ format _ (Nat.lt_succ_self _)).1]
  by_cases h : ending format = .cut <;> simp [h]

theorem simpleVsprintf_past :
    ¬ ∀ str format ap u, (simpleVsprintf str format ap u).1 = .done :=
  fun h => absurd (h (fun _ => []) ['%', '5'] (Stream'.const 0) 0) (by decide)

/-! ## What a text depends on -/

namespace Conv

end Conv

namespace Piece

def conv : Piece → Option Conv
  | char _ => none
  | directive d c => d.length.conv c

end Piece

namespace Piece

end Piece

namespace Piece

end Piece

end OrangeOs.Lib
