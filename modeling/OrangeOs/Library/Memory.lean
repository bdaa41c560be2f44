import OrangeOs.Library.Bytes

/-! # Byte-addressed memory

A memory maps addresses to bytes. Numbers are stored in little-endian order; `Memory.Same` says that
two memories agree on a set of addresses, which is how the frame of an operation is stated.
-/

namespace OrangeOs

/-- The byte at each address. -/
abbrev Memory := ℕ → UInt8

namespace Memory

variable {m m' m'' : Memory} {a b n k v : ℕ} {c : UInt8} {S T : ℕ → Prop}

/-- The number in the `n` bytes from an address on. -/
def load (m : Memory) (a n : ℕ) : ℕ := leNat m a n

/-- Store a number in the `n` bytes from an address on. -/
def store (m : Memory) (a n v : ℕ) : Memory :=
  fun i => if a ≤ i ∧ i < a + n then leByte v (i - a) else m i

/-- Store one byte. -/
def set (m : Memory) (a : ℕ) (c : UInt8) : Memory := fun i => if i = a then c else m i

/-- `memset`. -/
def fill (m : Memory) (a : ℕ) (c : UInt8) (n : ℕ) : Memory :=
  fun i => if a ≤ i ∧ i < a + n then c else m i

/-- `memcpy` between ranges that do not overlap. -/
def copy (m : Memory) (a b n : ℕ) : Memory :=
  fun i => if a ≤ i ∧ i < a + n then m (b + (i - a)) else m i

/-- Store the first `n` bytes of a buffer that holds `s` and then zeros. -/
def put (m : Memory) (a n : ℕ) (s : List UInt8) : Memory :=
  fun i => if a ≤ i ∧ i < a + n then charAt s (i - a) else m i

/-- The `n` bytes from an address on. -/
def bytes (m : Memory) (a n : ℕ) : List UInt8 := (List.range n).map fun k => m (a + k)

/-- The memories agree on a set of addresses. -/
def Same (m m' : Memory) (S : ℕ → Prop) : Prop := ∀ i, S i → m' i = m i

/-- The addresses of a range. -/
def Range (a n : ℕ) : ℕ → Prop := fun i => a ≤ i ∧ i < a + n

theorem load_lt (m : Memory) (a n : ℕ) : m.load a n < 256 ^ n := leNat_lt m a n

theorem load_congr (h : ∀ k < n, m' (a + k) = m (a + k)) : m'.load a n = m.load a n :=
  leNat_congr h

theorem Same.load_eq (h : Same m m' S) (hS : ∀ i, a ≤ i → i < a + n → S i) :
    m'.load a n = m.load a n :=
  load_congr fun k hk => h _ (hS _ (by omega) (by omega))

theorem Same.trans (h : Same m m' S) (h' : Same m' m'' S) : Same m m'' S :=
  fun i hi => (h' i hi).trans (h i hi)

theorem Same.mono (h : Same m m' S) (hT : ∀ i, T i → S i) : Same m m' T := fun i hi => h i (hT i hi)

theorem Same.refl (m : Memory) (S : ℕ → Prop) : Same m m S := fun _ _ => rfl

theorem store_same (m : Memory) (a n v : ℕ) :
    Same m (m.store a n v) fun i => i < a ∨ a + n ≤ i := by
  intro i hi
  rw [store, if_neg (by omega)]

theorem set_same (m : Memory) (a : ℕ) (c : UInt8) : Same m (m.set a c) fun i => i ≠ a :=
  fun _ hi => if_neg hi

theorem fill_same (m : Memory) (a : ℕ) (c : UInt8) (n : ℕ) :
    Same m (m.fill a c n) fun i => i < a ∨ a + n ≤ i := by
  intro i hi
  rw [fill, if_neg (by omega)]

theorem copy_same (m : Memory) (a b n : ℕ) :
    Same m (m.copy a b n) fun i => i < a ∨ a + n ≤ i := by
  intro i hi
  rw [copy, if_neg (by omega)]

theorem load_store (m : Memory) (a n v : ℕ) : (m.store a n v).load a n = v % 256 ^ n := by
  refine leNat_of_leByte fun k hk => ?_
  rw [store, if_pos (by omega), Nat.add_sub_cancel_left]

theorem load_store_of_lt (m : Memory) (a : ℕ) (hv : v < 256 ^ n) :
    (m.store a n v).load a n = v := by
  rw [load_store, Nat.mod_eq_of_lt hv]

theorem load_store_of_disjoint (m : Memory) (v : ℕ) (h : b + k ≤ a ∨ a + n ≤ b) :
    (m.store a n v).load b k = m.load b k :=
  (store_same m a n v).load_eq fun i _ _ => by omega

/-- Two words of two objects of `w` bytes that are one or do not overlap. -/
theorem load_store_slot (m : Memory) {c d w v : ℕ} (o o' : ℕ) (h : d ≠ c → c + w ≤ d ∨ d + w ≤ c)
    (ho : o % 8 = 0) (ho' : o' % 8 = 0) (hlt : o + 8 ≤ w) (hlt' : o' + 8 ≤ w) (hv : v < 2 ^ 64) :
    (m.store (c + o) 8 v).load (d + o') 8 = if d = c ∧ o' = o then v else m.load (d + o') 8 := by
  split
  · next hsame =>
    rw [hsame.1, hsame.2, load_store_of_lt _ _ hv]
  · next hother =>
    refine load_store_of_disjoint _ _ ?_
    by_cases hcd : d = c
    · have : o' ≠ o := fun he => hother ⟨hcd, he⟩
      omega
    · have := h hcd
      omega

/-! ## Copying from the last byte down -/

/-- Copy `n` bytes one by one, the last one first. -/
def copyDown (m : Memory) (a b : ℕ) : ℕ → Memory
  | 0 => m
  | n + 1 => copyDown (m.set (a + n) (m (b + n))) a b n

theorem copyDown_same (m : Memory) (a b n : ℕ) :
    Same m (m.copyDown a b n) fun i => i < a ∨ a + n ≤ i := by
  intro i hi
  induction n generalizing m with
  | zero => rfl
  | succ n ih => rw [copyDown, ih _ (by omega), set, if_neg (by omega)]

/-- A byte is read after those above it have been written. -/
theorem copyDown_add (m : Memory) (a b : ℕ) (hk : k < n) : m.copyDown a b n (a + k) =
    if a < b ∧ b + k < a + n then m.copyDown a b n (b + k) else m (b + k) := by
  induction n generalizing m with
  | zero => omega
  | succ n ih =>
    rw [copyDown]
    by_cases hkn : k = n
    · rw [copyDown_same _ a b n _ (by omega), set, if_pos (by omega), if_neg (by omega), hkn]
    · rw [ih _ (by omega), set]
      by_cases hlast : b + k = a + n
      · rw [if_neg (by omega), if_pos hlast, if_pos (by omega), copyDown_same _ a b n _ (by omega),
          set, if_pos hlast]
      · rw [if_neg hlast]
        exact if_congr (by omega) rfl rfl

/-- The copy is that of the bytes before it just when the bytes that it reads after it has written them
repeat the others. -/
theorem copyDown_copies_iff : (∀ k < n, m.copyDown a b n (a + k) = m (b + k)) ↔
    (a < b → ∀ k, b + k < a + n → m (b + k) = m (b + (k + (b - a)))) := by
  have hshift : ∀ k, a < b → b + k = a + (k + (b - a)) := fun k hab => by omega
  constructor
  · intro h hab k hk
    rw [← h k (by omega), copyDown_add m a b (by omega), if_pos ⟨hab, hk⟩, hshift k hab,
      h _ (by omega)]
  · intro h
    -- From the last byte down: a byte that has been overwritten is one further up.
    have hdown : ∀ d k, k < n → n - k ≤ d → m.copyDown a b n (a + k) = m (b + k) := by
      intro d
      induction d with
      | zero => intro k hk hd; omega
      | succ d ih =>
        intro k hk hd
        rw [copyDown_add m a b hk]
        split
        · next hover =>
          rw [h hover.1 k hover.2, hshift k hover.1]
          exact ih _ (by omega) (by omega)
        · rfl
    exact fun k hk => hdown n k hk (by omega)

end Memory

end OrangeOs
