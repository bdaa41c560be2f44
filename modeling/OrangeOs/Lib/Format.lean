import OrangeOs.Lib.Printk

/-! # Formats

The scanner of `simple_vsprintf` of `lib/printk.cc`. A format is the list of the characters before
its 0; where it is empty, the cursor is at the 0.
-/

namespace OrangeOs.Lib

variable {format f g : List Char} {c d : Char} {n : ℕ}

/-- Where a number after the flags does not stand for the width, an argument does. -/
inductive Width
  | star
  | digits (width : ℤ)
  deriving DecidableEq, Repr

inductive LengthMod | none | l | ll | h | hh
  deriving DecidableEq, Repr

/-- What stands between a `%` and the character of the conversion. -/
structure Directive where
  flags : Flags
  width : Width
  length : LengthMod
  deriving DecidableEq, Repr

/-- The step over an optional character. -/
def scanChar (c : Char) : List Char → Bool × List Char
  | [] => (false, [])
  | d :: format => if d = c then (true, format) else (false, d :: format)

/-- The loop over zeros. -/
def scanZeros : List Char → Bool × List Char
  | [] => (false, [])
  | d :: format => if d = '0' then (true, (scanZeros format).2) else (false, d :: format)

/-- The loop over the digits of the width. -/
def scanDigits : ℤ → List Char → ℤ × List Char
  | width, [] => (width, [])
  | width, d :: format =>
    if '0' ≤ d ∧ d ≤ '9' then scanDigits (wrapInt (width * 10 + (d.toNat - '0'.toNat : ℕ))) format
    else (width, d :: format)

/-- What follows an optional `*`. -/
def scanNumber (star : Bool) (format : List Char) : Width × List Char :=
  if star then (.star, format)
  else
    let (width, format) := scanDigits 0 format
    (.digits width, format)

def scanWidth (format : List Char) : Width × List Char :=
  let (star, format) := scanChar '*' format
  scanNumber star format

/-- The second character of a length modifier. -/
def scanSecond (c : Char) (one two : LengthMod) (format : List Char) : LengthMod × List Char :=
  let (second, format) := scanChar c format
  (if second then two else one, format)

/-- The case of the switch for `h`, or another one. -/
def scanShort (h : Bool) (format : List Char) : LengthMod × List Char :=
  if h then scanSecond 'h' .h .hh format else (.none, format)

/-- The case of the switch for `l`, or another one. -/
def scanLong (l : Bool) (format : List Char) : LengthMod × List Char :=
  if l then scanSecond 'l' .l .ll format
  else
    let (h, format) := scanChar 'h' format
    scanShort h format

def scanLength (format : List Char) : LengthMod × List Char :=
  let (l, format) := scanChar 'l' format
  scanLong l format

/-- The scanner after a `%`. It stops at the character of the conversion. -/
def scanDirective (format : List Char) : Directive × List Char :=
  let (right, format) := scanChar '-' format
  let (alternate, format) := scanChar '#' format
  let (zero, format) := scanZeros format
  let (width, format) := scanWidth format
  let (length, format) := scanLength format
  (⟨{ PAD_RIGHT := right, PREFIX := alternate, PAD_ZERO := zero }, width, length⟩, format)

/-- What a turn of the loop over the format puts out: a character or an argument. -/
inductive Piece
  | char (c : Char)
  | directive (d : Directive) (c : Char)
  deriving DecidableEq, Repr

/-- The scanner in a turn of the loop. The loop ends, or the step at the end of the turn leaves the
format behind, or it leads to the next turn. -/
inductive Turn
  | finish
  | past (d : Directive)
  | piece (p : Piece) (format : List Char)
  deriving DecidableEq, Repr

def scanTurn : List Char → Turn
  | [] => .finish
  | c :: format =>
    if c = '%' then
      match format with
      | [] => .finish
      | d :: format =>
        if d = '%' then .piece (.char d) format
        else
          match scanDirective (d :: format) with
          | (dir, []) => .past dir
          | (dir, c :: format) => .piece (.directive dir c) format
    else .piece (.char c) format

/-! ## Where a format ends -/

/-- What a format can go on with after some of its characters. -/
inductive Mode | text | percent | flag | zeros | digits | length | l | ll | h | hh
  deriving DecidableEq, Repr

namespace Mode

def afterWidth (c : Char) : Mode := if c = 'l' then .l else if c = 'h' then .h else .text

def afterDigit (c : Char) : Mode := if '0' ≤ c ∧ c ≤ '9' then .digits else afterWidth c

def afterZero (c : Char) : Mode := if c = '0' then .zeros else if c = '*' then .length else afterDigit c

def afterMinus (c : Char) : Mode := if c = '#' then .zeros else afterZero c

def afterPercent (c : Char) : Mode := if c = '%' then .text else if c = '-' then .flag else afterMinus c

def next : Mode → Char → Mode
  | text, c => if c = '%' then .percent else .text
  | percent, c => afterPercent c
  | flag, c => afterMinus c
  | zeros, c => afterZero c
  | digits, c => afterDigit c
  | length, c => afterWidth c
  | l, c => if c = 'l' then .ll else .text
  | h, c => if c = 'h' then .hh else .text
  | ll, _ => .text
  | hh, _ => .text

end Mode

/-- How a format ends: with complete directives, with a single `%` or within a directive. -/
inductive End | complete | percent | cut
  deriving DecidableEq, Repr

def Mode.ending : Mode → End
  | text => .complete
  | percent => .percent
  | _ => .cut

variable {m m' : Mode}

/-- How the rest of a format ends after characters that lead to `m`. -/
def endFrom (m : Mode) (format : List Char) : End := (format.foldl Mode.next m).ending

/-- How a format ends. -/
def ending (format : List Char) : End := endFrom .text format

theorem endFrom_cons (m : Mode) (c : Char) (format : List Char) :
    endFrom m (c :: format) = endFrom (m.next c) format := rfl

/-- The end of a format with a directive that stops at a cursor. -/
def endAt : List Char → End
  | [] => .cut
  | _ :: format => ending format

theorem endFrom_any (hm : ∀ c, Mode.next m c = .text) (hcut : m.ending = .cut) (f : List Char) :
    endFrom m f = endAt f := by
  cases f with
  | nil => exact hcut
  | cons c f => rw [endFrom_cons, hm, endAt, ending]

theorem endFrom_double (m' : Mode) (hm : ∀ d, Mode.next m d = if d = c then m' else .text)
    (hm' : ∀ d, Mode.next m' d = .text) (hcut : m.ending = .cut)
    (hcut' : m'.ending = .cut) (f : List Char) :
    endFrom m f = endAt (scanChar c f).2 := by
  cases f with
  | nil => exact hcut
  | cons d f =>
    rw [endFrom_cons, hm, scanChar]
    split
    · exact endFrom_any hm' hcut' f
    · rfl

theorem scanChar_cons (c : Char) (f : List Char) : scanChar c (c :: f) = (true, f) := if_pos rfl

theorem scanChar_cons_ne (h : d ≠ c) (f : List Char) : scanChar c (d :: f) = (false, d :: f) := if_neg h

theorem endFrom_length (f : List Char) : endFrom .length f = endAt (scanLength f).2 := by
  cases f with
  | nil => rfl
  | cons c f =>
    rw [endFrom_cons, Mode.next, Mode.afterWidth, scanLength]
    by_cases hl : c = 'l'
    · subst hl
      rw [scanChar_cons, if_pos rfl]
      exact endFrom_double .ll (fun _ => rfl) (fun _ => rfl) rfl rfl f
    · rw [scanChar_cons_ne hl, if_neg hl]
      by_cases hh : c = 'h'
      · subst hh
        exact endFrom_double .hh (fun _ => rfl) (fun _ => rfl) rfl rfl f
      · have hscan : scanLong false (c :: f) = scanShort false (c :: f) := by
          rw [scanLong, scanChar_cons_ne hh]
          rfl
        rw [if_neg hh]
        exact congrArg endAt (congrArg Prod.snd hscan.symm)

/-- After a width or a digit the scanner stops at what is neither a digit nor part of a length
modifier. -/
theorem endFrom_digits (f : List Char) : ∀ width : ℤ,
    endFrom .digits f = endAt (scanLength (scanDigits width f).2).2 := by
  induction f with
  | nil => exact fun _ => rfl
  | cons c f ih =>
    intro width
    rw [endFrom_cons, Mode.next, Mode.afterDigit, scanDigits]
    by_cases hc : '0' ≤ c ∧ c ≤ '9'
    · rw [if_pos hc, if_pos hc]
      exact ih _
    · rw [if_neg hc, if_neg hc, ← endFrom_length]
      rfl

theorem endFrom_zeros (f : List Char) : endFrom .zeros f =
    endAt (scanLength (scanWidth (scanZeros f).2).2).2 := by
  induction f with
  | nil => rfl
  | cons c f ih =>
    rw [endFrom_cons, Mode.next, Mode.afterZero, scanZeros]
    by_cases hc : c = '0'
    · rw [if_pos hc, if_pos hc]
      exact ih
    · rw [if_neg hc, if_neg hc, scanWidth]
      by_cases hstar : c = '*'
      · subst hstar
        rw [if_pos rfl, scanChar_cons]
        exact endFrom_length f
      · rw [if_neg hstar, scanChar_cons_ne hstar]
        exact endFrom_digits (c :: f) 0

theorem endFrom_flag (f : List Char) :
    endFrom .flag f = endAt (scanLength (scanWidth (scanZeros (scanChar '#' f).2).2).2).2 := by
  cases f with
  | nil => rfl
  | cons c f =>
    rw [endFrom_cons, Mode.next, Mode.afterMinus]
    by_cases hc : c = '#'
    · subst hc
      rw [if_pos rfl, scanChar_cons]
      exact endFrom_zeros f
    · rw [if_neg hc, scanChar_cons_ne hc, ← endFrom_zeros]
      rfl

/-- The scanner stops where the directive is complete. -/
theorem endFrom_percent (hc : c ≠ '%') (f : List Char) :
    endFrom .percent (c :: f) = endAt (scanDirective (c :: f)).2 := by
  rw [endFrom_cons, Mode.next, Mode.afterPercent, if_neg hc]
  by_cases hminus : c = '-'
  · subst hminus
    rw [if_pos rfl]
    exact endFrom_flag f
  · rw [if_neg hminus]
    have h := endFrom_flag (c :: f)
    rw [endFrom_cons, Mode.next] at h
    rw [h, scanDirective, scanChar_cons_ne hminus]

/-- A turn for a directive. -/
theorem scanTurn_directive (hd : d ≠ '%') (f : List Char) :
    scanTurn ('%' :: d :: f) =
      match scanDirective (d :: f) with
      | (dir, []) => .past dir
      | (dir, c :: format) => .piece (.directive dir c) format := by
  rw [scanTurn, if_pos rfl, if_neg hd]

/-- The end of a format after a turn. -/
def Turn.ending : Turn → End → Prop
  | .finish, e => e ≠ .cut
  | .past _, e => e = .cut
  | .piece _ format, e => e = Lib.ending format

theorem ending_scanTurn (f : List Char) : (scanTurn f).ending (ending f) := by
  match f with
  | [] => exact (by decide : End.complete ≠ .cut)
  | [c] =>
    by_cases hc : c = '%'
    · subst hc
      exact (by decide : End.percent ≠ .cut)
    · have hturn : scanTurn [c] = .piece (.char c) [] := if_neg hc
      rw [hturn]
      exact congrArg (fun m => endFrom m []) (if_neg hc)
  | c :: d :: f =>
    by_cases hc : c = '%'
    · subst hc
      by_cases hd : d = '%'
      · subst hd
        rfl
      · rw [scanTurn_directive hd, ending, endFrom_cons, Mode.next, if_pos rfl, endFrom_percent hd]
        rcases scanDirective (d :: f) with ⟨dir, _ | ⟨e, g⟩⟩ <;> rfl
    · have hturn : scanTurn (c :: d :: f) = .piece (.char c) (d :: f) := if_neg hc
      rw [hturn]
      exact congrArg (fun m => endFrom m (d :: f)) (if_neg hc)

/-! ## Formats one after the other -/

section Local

variable {α β : Type} {scan : List Char → α × List Char}

/-- A scanner that stops before the end of a format does the same where more follows. -/
structure Local (scan : List Char → α × List Char) : Prop where
  length : ∀ f, (scan f).2.length ≤ f.length
  append : ∀ f g, (scan f).2 ≠ [] → scan (f ++ g) = ((scan f).1, (scan f).2 ++ g)

namespace Local

theorem pure (a : α) : Local fun f => (a, f) := ⟨fun _ => le_rfl, fun _ _ _ => rfl⟩

theorem map (h : Local scan) (k : α → β) : Local fun f => (k (scan f).1, (scan f).2) :=
  ⟨h.length, fun f g hne => by rw [h.append f g hne]⟩

theorem bind (h : Local scan) (scan' : α → List Char → β × List Char) (h' : ∀ a, Local (scan' a)) :
    Local fun f => scan' (scan f).1 (scan f).2 := by
  refine ⟨fun f => ((h' _).length _).trans (h.length f), fun f g hne => ?_⟩
  have hrest : (scan f).2 ≠ [] := fun hnil =>
    hne (List.eq_nil_of_length_eq_zero
    (Nat.le_zero.mp (by simpa [hnil] using (h' (scan f).1).length (scan f).2)))
  rw [h.append f g hrest]
  exact (h' _).append _ g hne

end Local

end Local

theorem local_scanChar (c : Char) : Local (scanChar c) where
  length f := by
    cases f with
    | nil => exact le_rfl
    | cons d f =>
      rw [scanChar]
      split
      · exact Nat.le_succ _
      · exact le_rfl
  append f g hne := by
    cases f with
    | nil => exact absurd rfl hne
    | cons d f =>
      rw [List.cons_append, scanChar, scanChar]
      split <;> rfl

theorem local_scanZeros : Local scanZeros where
  length f := by
    induction f with
    | nil => exact le_rfl
    | cons d f ih =>
      rw [scanZeros]
      split
      · exact ih.trans (Nat.le_succ _)
      · exact le_rfl
  append f g hne := by
    induction f with
    | nil => exact absurd rfl hne
    | cons d f ih =>
      rw [scanZeros] at hne
      rw [List.cons_append, scanZeros, scanZeros]
      split
      · next hd =>
        rw [if_pos hd] at hne
        rw [ih hne]
      · rfl

theorem local_scanDigits (width : ℤ) : Local (scanDigits width) where
  length f := by
    induction f generalizing width with
    | nil => exact le_rfl
    | cons d f ih =>
      rw [scanDigits]
      split
      · exact (ih _).trans (Nat.le_succ _)
      · exact le_rfl
  append f g hne := by
    induction f generalizing width with
    | nil => exact absurd rfl hne
    | cons d f ih =>
      rw [scanDigits] at hne
      rw [List.cons_append, scanDigits, scanDigits]
      split
      · next hd =>
        rw [if_pos hd] at hne
        exact ih _ hne
      · rfl

theorem local_scanWidth : Local scanWidth :=
  (local_scanChar '*').bind scanNumber fun star => by
    cases star with
    | true => exact .pure _
    | false => exact (local_scanDigits 0).map _

theorem local_scanSecond (c : Char) (one two : LengthMod) : Local (scanSecond c one two) :=
  (local_scanChar c).map fun second => if second then two else one

theorem local_scanLength : Local scanLength := by
  have hshort : ∀ h, Local (scanShort h) := fun h => by
    cases h with
    | true => exact local_scanSecond 'h' .h .hh
    | false => exact .pure _
  refine (local_scanChar 'l').bind scanLong fun l => ?_
  cases l with
  | true => exact local_scanSecond 'l' .l .ll
  | false => exact (local_scanChar 'h').bind scanShort hshort

theorem local_scanDirective : Local scanDirective := by
  have h := (local_scanChar '-').bind _ fun right => (local_scanChar '#').bind _ fun alternate =>
    local_scanZeros.bind _ fun zero => local_scanWidth.bind _ fun width =>
    local_scanLength.map fun length =>
      Directive.mk { PAD_RIGHT := right, PREFIX := alternate, PAD_ZERO := zero } width length
  exact h

variable {p : Piece}

theorem length_scanTurn (h : scanTurn f = .piece p g) : g.length < f.length := by
  match f with
  | [] => cases h
  | c :: f =>
    by_cases hc : c = '%'
    · subst hc
      cases f with
      | nil => cases h
      | cons d f =>
        by_cases hd : d = '%'
        · subst hd
          cases h
          exact Nat.lt_succ_of_le (Nat.le_succ _)
        · have hlen := local_scanDirective.length (d :: f)
          rw [scanTurn_directive hd] at h
          rcases hscan : scanDirective
            (d :: f) with ⟨dir, _ | ⟨e, g⟩⟩ <;> rw [hscan] at h hlen <;> cases h
          exact Nat.lt_of_succ_lt (Nat.lt_succ_of_le hlen)
    · have hturn : scanTurn (c :: f) = .piece (.char c) f := if_neg hc
      cases hturn.symm.trans h
      exact Nat.lt_succ_self _

/-- What the loop puts out for a format of less than `n` characters. -/
def piecesFrom : ℕ → List Char → List Piece
  | 0, _ => []
  | n + 1, format =>
    match scanTurn format with
    | .piece p format => p :: piecesFrom n format
    | _ => []

def pieces (format : List Char) : List Piece := piecesFrom (format.length + 1) format

/-- More turns than characters make no difference. -/
theorem piecesFrom_eq (f : List Char) (hn : f.length < n) : piecesFrom n f = pieces f := by
  suffices h : ∀ n m f, f.length < n → f.length < m → piecesFrom n f = piecesFrom m f from
    h n _ f hn (Nat.lt_succ_self _)
  intro n
  induction n with
  | zero => exact fun _ _ h => absurd h (Nat.not_lt_zero _)
  | succ n ih =>
    intro m f hn hm
    obtain ⟨m, rfl⟩ : ∃ k, m = k + 1 := ⟨m - 1, by omega⟩
    rw [piecesFrom, piecesFrom]
    rcases hturn : scanTurn f with _ | d | ⟨p, g⟩
    · rfl
    · rfl
    · have hlen := length_scanTurn hturn
      exact congrArg (p :: ·) (ih m g (by omega) (by omega))

theorem pieces_of_turn (h : scanTurn f = .piece p g) : pieces f = p :: pieces g := by
  rw [pieces, piecesFrom, h]
  exact congrArg (p :: ·) (piecesFrom_eq g (length_scanTurn h))

theorem pieces_of_finish (h : scanTurn f = .finish) : pieces f = [] := by
  rw [pieces, piecesFrom, h]

theorem pieces_of_past {d : Directive} (h : scanTurn f = .past d) : pieces f = [] := by
  rw [pieces, piecesFrom, h]

end OrangeOs.Lib
