import OrangeOs.Filesystem.FileStream
import OrangeOs.Kernel.Loader
import OrangeOs.Library.Cursor

/-! # The two streams

`FileStream` and `StringStream` are cursors into the bytes of a file and of a string. They differ
from a cursor, and from each other, after a call of `Seek` to the end or past it: `StringStream`
stays at the last byte, and `FileStream` computes what is left with an unsigned subtraction.
-/

namespace OrangeOs.Kernel

open Fs Cursor
open Prog hiding ret

/-- What the calls of `Read` return for a file. -/
def fileOutputs (f : FileStream) : List Op → FsProg (List (List UInt8))
  | [] => return []
  | .seek p :: ops => fileOutputs (f.seek p) ops
  | .read n :: ops => do
    let (bytes, f) ← f.read n
    let rest ← fileOutputs f ops
    return bytes :: rest

/-- What the calls of `Read` return for a string. -/
def stringOutputs (s : StringStream) : List Op → List (List UInt8)
  | [] => []
  | .seek p :: ops => stringOutputs (s.seek p) ops
  | .read n :: ops => (s.read n).1 :: stringOutputs (s.read n).2 ops

/-- The indices of `buf_` that the calls of `Read` copy. -/
def stringTouched (s : StringStream) : List Op → List ℕ
  | [] => []
  | .seek p :: ops => stringTouched (s.seek p) ops
  | .read n :: ops => List.range' s.position_ ((s.read n).2.position_ - s.position_) ++
      stringTouched (s.read n).2 ops

/-- The position of a string stream where a cursor would be at `pos`. -/
def StringStream.Follows (s : StringStream) (outside : Bool) (pos : ℕ) : Prop :=
  At s.buf_.length outside pos ∧ s.position_ = if outside then s.buf_.length - 1 else pos

variable {d : Disk} {x : InodeDef} {f : FileStream} {s : StringStream} {outside : Bool} {pos n p : ℕ}
  {ops : List Op}

/-! ## String streams -/

namespace StringStream

@[simp] theorem seek_buf (s : StringStream) (p : ℕ) : (s.seek p).buf_ = s.buf_ := rfl

@[simp] theorem read_buf (s : StringStream) (n : ℕ) : (s.read n).2.buf_ = s.buf_ := by
  have hmk (k : ℕ) : (⟨s.buf_, k⟩ : StringStream).buf_ = s.buf_ := rfl
  exact hmk _

theorem seek_position (hlen : s.buf_.length < 2 ^ 64) (hpos : 1 ≤ s.buf_.length) (p : ℕ) :
    (s.seek p).position_ = min p (s.buf_.length - 1) := by
  show min p _ = _
  rw [wrap_sub hpos hlen]

theorem read_eq (hle : s.position_ ≤ s.buf_.length) (hlen : s.buf_.length < 2 ^ 64) (n : ℕ) :
    (s.read n).1 = (s.buf_.drop s.position_).take n ∧
      (s.read n).2.position_ = s.position_ + min n (s.buf_.length - s.position_) := by
  have hmod := wrap_sub hle hlen
  simp only [read, hmod]
  refine ⟨?_, by rw [min_comm]⟩
  rw [← List.length_drop, min_comm, ← List.take_eq_take_min]

theorem seek_follows (hlen : s.buf_.length < 2 ^ 64) (hpos : 1 ≤ s.buf_.length) (p : ℕ) :
    (s.seek p).Follows (decide (s.buf_.length ≤ p)) p := by
  rw [Follows, seek_buf, seek_position hlen hpos]
  refine ⟨at_seek .., ?_⟩
  by_cases hp : s.buf_.length ≤ p
  · simp only [hp, decide_true, if_true]
    omega
  · simp only [hp, decide_false, Bool.false_eq_true, if_false]
    omega

namespace Follows

theorem position_le (h : s.Follows outside pos) : s.position_ ≤ s.buf_.length := by
  obtain ⟨hat, hp⟩ := h
  cases outside <;> simp only [At, if_true, Bool.false_eq_true, if_false] at hat hp <;> omega

/-- A read that a cursor inside the string allows returns what the cursor returns. -/
theorem read (h : s.Follows outside pos) (hlen : s.buf_.length < 2 ^ 64) (hpos : 1 ≤ s.buf_.length)
    (hn : outside = true → n = 0) : (s.read n).1 = (s.buf_.drop pos).take n ∧
      (s.read n).2.Follows outside (pos + min n (s.buf_.length - pos)) ∧
      (s.read n).2.position_ ≤ s.buf_.length := by
  have hle := h.position_le
  obtain ⟨hbytes, hmin⟩ := read_eq hle hlen n
  obtain ⟨hat, hp⟩ := h
  rw [Follows, read_buf, hbytes, hmin]
  refine ⟨?_, ⟨hat.read n, ?_⟩, by omega⟩
  · cases outside with
    | true => rw [hn rfl, List.take_zero, List.take_zero]
    | false => rw [show s.position_ = pos from hp]
  · cases outside with
    | true =>
      have := hn rfl
      simp only [if_true] at hp ⊢
      omega
    | false =>
      simp only [Bool.false_eq_true, if_false] at hp ⊢
      omega

/-- After a move to the end or past it, a read of anything returns the last byte. -/
theorem read_outside (h : s.Follows true pos) (hlen : s.buf_.length < 2 ^ 64) (hpos : 1 ≤ s.buf_.length)
    (hn : n ≠ 0) : (s.read n).1 ≠ (s.buf_.drop pos).take n := by
  obtain ⟨hbytes, -⟩ := read_eq h.position_le hlen n
  obtain ⟨hat, hp⟩ := h
  have hat : s.buf_.length ≤ pos := hat
  have hp : s.position_ = s.buf_.length - 1 := hp
  intro he
  have hl := congrArg List.length (hbytes.symm.trans he)
  simp only [List.length_take, List.length_drop] at hl
  omega

end Follows

/-- A string stream does what a cursor does exactly as long as nothing is read after a move to the end or
past it. -/
theorem Follows.outputs_iff (h : s.Follows outside pos) (hlen : s.buf_.length < 2 ^ 64)
    (hpos : 1 ≤ s.buf_.length) (ops : List Op) :
    stringOutputs s ops = outputs s.buf_ pos ops ↔ Within s.buf_.length outside ops := by
  induction ops generalizing s outside pos with
  | nil => exact iff_of_true rfl trivial
  | cons op ops ih =>
    cases op with
    | seek p =>
      have hih := ih (s.seek_follows hlen hpos p) (by rwa [seek_buf]) (by rwa [seek_buf])
      rw [seek_buf] at hih
      exact hih
    | read n =>
      rw [stringOutputs, outputs, Within, List.cons.injEq]
      by_cases hn : outside = true → n = 0
      · obtain ⟨hbytes, hfollows, -⟩ := h.read hlen hpos hn
        have hih := ih hfollows (by rwa [read_buf]) (by rwa [read_buf])
        rw [read_buf] at hih
        rw [hih, hbytes]
        exact and_congr_left' (iff_of_true rfl hn)
      · obtain ⟨rfl, hne⟩ := Classical.not_imp.mp hn
        exact iff_of_false (fun he => h.read_outside hlen hpos hne he.1) fun hw => hn hw.1

theorem Follows.touched_lt (h : s.Follows outside pos) (hlen : s.buf_.length < 2 ^ 64)
    (hpos : 1 ≤ s.buf_.length) (ops : List Op) (hw : Within s.buf_.length outside ops) :
    ∀ k ∈ stringTouched s ops, k < s.buf_.length := by
  induction ops generalizing s outside pos with
  | nil => exact fun k hk => absurd hk (List.not_mem_nil)
  | cons op ops ih =>
    cases op with
    | seek p =>
      have hih := ih (s.seek_follows hlen hpos p) (by rwa [seek_buf])
          (by rwa [seek_buf]) (by rwa [seek_buf])
      rw [seek_buf] at hih
      exact hih
    | read n =>
      obtain ⟨-, hfollows, hle⟩ := h.read hlen hpos hw.1
      intro k hk
      rcases List.mem_append.mp hk with hk | hk
      · have := List.mem_range'_1.mp hk
        omega
      · have hih := ih hfollows (by rwa [read_buf]) (by rwa [read_buf]) (by rw [read_buf]; exact hw.2)
        rw [read_buf] at hih
        exact hih k hk

end StringStream

/-! ## File streams -/

theorem fileRead_eq {k : ℕ} (hk : k = min ((2 ^ 64 + x.size.toNat - pos) % 2 ^ 64) n) :
    FileStream.read ⟨pos, x⟩ n = do
      let bytes ← FileStream.readFrom x (.ofFn fun _ => 0) pos k
      return (bytes, ⟨pos + k, x⟩) := by
  subst hk
  rfl

/-- A read that a cursor inside the file allows returns what the cursor returns, from blocks of the
file. -/
theorem run_fileRead (hm : Mapped d x (fileBlocks x)) (hat : At x.size.toNat outside pos)
    (hn : outside = true → n = 0) : (FileStream.read ⟨pos, x⟩ n).run d =
      (.ok (((contents d x).drop pos).take n, ⟨pos + min n (x.size.toNat - pos), x⟩), d) ∧
    ∀ b ∈ (FileStream.read ⟨pos, x⟩ n).touched d, Owns d x (fileBlocks x) b := by
  have hblocks := fileBlocks_le x
  have hsize : x.size.toNat ≤ 512 * 140 := hblocks.trans (Nat.mul_le_mul_left 512 hm.le)
  have hzero : indirectWord (.ofFn fun _ => 0) 0 = 0 := indirectWord_zero 0
  cases outside with
  | true =>
    obtain rfl := hn rfl
    have hnil : FileStream.readFrom x (.ofFn fun _ => 0) pos 0 = return [] := by
      rw [FileStream.readFrom, dif_neg (Nat.lt_irrefl 0)]
    rw [fileRead_eq (min_eq_right (Nat.zero_le _)).symm, hnil, List.take_zero,
      min_eq_left (Nat.zero_le _)]
    exact ⟨rfl, fun b hb => by cases hb⟩
  | false =>
    have hle : pos ≤ x.size.toNat := hat
    obtain ⟨k, hk⟩ : ∃ k, k = min ((2 ^ 64 + x.size.toNat - pos) % 2 ^ 64) n := ⟨_, rfl⟩
    have hleft := wrap_sub hle (show x.size.toNat < 2 ^ 64 by omega)
    have hk' := hk
    rw [Nat.add_comm, hleft] at hk'
    have hbytes := run_readFrom (d := d) (x := x) (.inl hzero) (show pos + k ≤ 512 * 140 by omega)
    have htouched := touched_readFrom hm (.inl hzero) (show pos + k ≤ 512 * fileBlocks x by omega)
    refine ⟨run_read hle hsize n, ?_⟩
    rw [fileRead_eq hk, touched_bind_ok hbytes]
    intro b hb
    rcases List.mem_append.mp hb with hb | hb
    · exact htouched b hb
    · cases hb

/-- A file stream does what a cursor does, inside the file, as long as nothing is read after a move
to the end or past it. -/
theorem run_fileOutputs (hm : Mapped d x (fileBlocks x)) (hat : At x.size.toNat outside pos)
    (hw : Within x.size.toNat outside ops) :
    (fileOutputs ⟨pos, x⟩ ops).run d = (.ok (outputs (contents d x) pos ops), d) ∧
    ∀ b ∈ (fileOutputs ⟨pos, x⟩ ops).touched d, Owns d x (fileBlocks x) b := by
  induction ops generalizing outside pos with
  | nil => exact ⟨rfl, fun b hb => by cases hb⟩
  | cons op ops ih =>
    cases op with
    | seek p => exact ih (at_seek _ p) hw
    | read n =>
      obtain ⟨hrun, htouched⟩ := run_fileRead hm hat hw.1
      obtain ⟨hrest, hrestTouched⟩ := ih (hat.read n) hw.2
      rw [fileOutputs, outputs, length_contents]
      constructor
      · rw [run_bind_ok hrun, run_bind_ok hrest, run_pure]
      · rw [touched_bind_ok hrun, touched_bind_ok hrest]
        intro b hb
        rcases List.mem_append.mp hb with hb | hb
        · exact htouched b hb
        · rcases List.mem_append.mp hb with hb | hb
          · exact hrestTouched b hb
          · cases hb

/-! ## The two together -/

/-- On a file and a string of the same bytes, both streams are cursors that stay inside, exactly as
long as nothing is read after a call of `Seek` to the end or past it. -/
theorem streams_agree_iff (hm : Mapped d x (fileBlocks x)) (hpos : 1 ≤ x.size.toNat) (ops : List Op) :
    (((fileOutputs ⟨0, x⟩ ops).run d = (.ok (outputs (contents d x) 0 ops), d) ∧
        ∀ b ∈ (fileOutputs ⟨0, x⟩ ops).touched d, Owns d x (fileBlocks x) b) ∧
      stringOutputs ⟨contents d x, 0⟩ ops = outputs (contents d x) 0 ops ∧
        ∀ k ∈ stringTouched ⟨contents d x, 0⟩ ops, k < x.size.toNat) ↔
      Within x.size.toNat false ops := by
  have hblocks := fileBlocks_le x
  have hsize : x.size.toNat ≤ 512 * 140 := hblocks.trans (Nat.mul_le_mul_left 512 hm.le)
  have hlength := length_contents d x
  have hlen : (contents d x).length < 2 ^ 64 := by omega
  have hone : 1 ≤ (contents d x).length := by omega
  have hstart : StringStream.Follows ⟨contents d x, 0⟩ false 0 := ⟨Nat.zero_le _, rfl⟩
  have hstring := hstart.outputs_iff hlen hone ops
  have htouched := hstart.touched_lt hlen hone ops
  simp only [hlength] at hstring htouched
  constructor
  · exact fun h => hstring.mp h.2.1
  · exact fun hw => ⟨run_fileOutputs hm (Nat.zero_le _) hw, hstring.mpr hw, htouched hw⟩

/-- Reading past the first of two bytes that a file holds. -/
theorem streams_agree_sample : ∃ d x, contents d x = [104, 105] ∧
    (fileOutputs ⟨0, x⟩ [.seek 1, .read 5]).run d = (.ok [[105]], d) ∧
    stringOutputs ⟨[104, 105], 0⟩ [.seek 1, .read 5] = [[105]] := by
  obtain ⟨d, x, hm, hcontents⟩ := exists_sampleFile
  have hx : x.size.toNat = 2 := by rw [← length_contents d x, hcontents]; rfl
  have hagree := (streams_agree_iff hm (by omega) [.seek 1, .read 5]).mpr
    (by rw [hx]; exact ⟨fun h => absurd h (by decide), trivial⟩)
  rw [hcontents] at hagree
  exact ⟨d, x, hcontents, hagree.1.1, hagree.2.1⟩

/-- After `Seek(1)` a string stream over one byte still returns that byte. -/
theorem streams_disagree_at_end : stringOutputs ⟨[7], 0⟩ [.seek 1, .read 1] = [[7]] ∧
    outputs [(7 : UInt8)] 0 [.seek 1, .read 1] = [[]] := by
  decide

end OrangeOs.Kernel
