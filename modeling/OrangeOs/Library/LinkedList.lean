import Mathlib.Data.List.Basic
import Mathlib.Tactic.Common

/-! # Doubly linked lists

Links are two partial functions on the nodes. `Linked next prev l` says that they lead along the list `l`
in both directions. A push changes the links of the new node and the old head; taking a node
out changes the links of its two neighbours.
-/

namespace OrangeOs

variable {α : Type*} {next next' prev prev' : α → Option α} {l l' A B : List α} {x y : α} {n : ℕ}

/-- The links lead along a list without repetitions. -/
structure Linked (next prev : α → Option α) (l : List α) : Prop where
  nodup : l.Nodup
  next_eq : ∀ A x B, l = A ++ x :: B → next x = B.head?
  prev_eq : ∀ A x B, l = A ++ x :: B → prev x = A.getLast?

/-- The nodes that are met from a node on, at most `n` of them. -/
def follow (next : α → Option α) : ℕ → Option α → List α
  | 0, _ => []
  | _ + 1, none => []
  | n + 1, some x => x :: follow next n (next x)

namespace Linked

theorem nil : Linked next prev [] where
  nodup := List.nodup_nil
  next_eq A x B h := by simp at h
  prev_eq A x B h := by simp at h

theorem head_ne (h : Linked next prev (A ++ x :: B)) (hA : A ≠ []) :
    (A ++ x :: B).head? ≠ some x := by
  intro hx
  cases A with
  | nil => exact hA rfl
  | cons a A =>
    obtain rfl : a = x := by simpa using hx
    have := h.nodup
    simp at this

/-- A node at the front. -/
theorem push (h : Linked next prev l) (hx : x ∉ l) (hnx : next' x = l.head?) (hpx : prev' x = none)
    (hnext : ∀ y ∈ l, next' y = next y)
    (hhead : ∀ y, l.head? = some y → prev' y = some x)
    (hprev : ∀ y ∈ l, l.head? ≠ some y → prev' y = prev y) : Linked next' prev' (x :: l) where
  nodup := List.nodup_cons.mpr ⟨hx, h.nodup⟩
  next_eq A y B he := by
    cases A with
    | nil =>
      obtain ⟨rfl, rfl⟩ := List.cons.inj he
      exact hnx
    | cons a A =>
      obtain ⟨rfl, rfl⟩ := List.cons.inj he
      rw [hnext y (by simp), h.next_eq A y B rfl]
  prev_eq A y B he := by
    cases A with
    | nil =>
      obtain ⟨rfl, rfl⟩ := List.cons.inj he
      exact hpx
    | cons a A =>
      obtain ⟨rfl, rfl⟩ := List.cons.inj he
      cases A with
      | nil => exact hhead y rfl
      | cons a A =>
        rw [hprev y (by simp) (h.head_ne (by simp)), h.prev_eq (a :: A) y B rfl]
        rfl

/-- A node taken out: its predecessor and its successor are linked to each other. -/
theorem erase (h : Linked next prev (A ++ x :: B))
    (hlast : ∀ y, A.getLast? = some y → next' y = B.head?)
    (hnext : ∀ y ∈ A ++ B, A.getLast? ≠ some y → next' y = next y)
    (hhead : ∀ y, B.head? = some y → prev' y = A.getLast?)
    (hprev : ∀ y ∈ A ++ B, B.head? ≠ some y → prev' y = prev y) :
    Linked next' prev' (A ++ B) := by
  have hnodup := h.nodup
  rw [List.nodup_append] at hnodup
  obtain ⟨hA, hxB, hdisj⟩ := hnodup
  obtain ⟨-, hB⟩ := List.nodup_cons.mp hxB
  have hdisj' : ∀ y ∈ A, y ∉ B := fun y hy hyB =>
    hdisj y hy y (List.mem_cons_of_mem x hyB) rfl
  have hafter : ∀ y C B', B = C ++ y :: B' → next' y = B'.head? ∧ prev' y = (A ++ C).getLast? := by
    rintro y C B' rfl
    have hyA : y ∉ A := fun hy => hdisj' y hy (by simp)
    have hne : A.getLast? ≠ some y := fun hl => hyA (List.mem_of_getLast? hl)
    refine ⟨?_, ?_⟩
    · rw [hnext y (by simp) hne, h.next_eq (A ++ x :: C) y B' (by simp)]
    · rcases C.eq_nil_or_concat' with rfl | ⟨C, c, rfl⟩
      · rw [hhead y rfl, List.append_nil]
      · have hy : ((C ++ [c]) ++ y :: B').head? ≠ some y := by
          intro hy
          have hmem : y ∈ C ++ [c] := by
            cases C with
            | nil => simpa using hy.symm
            | cons d C => simp_all
          rw [List.nodup_append] at hB
          exact hB.2.2 y hmem y (by simp) rfl
        rw [hprev y (by simp) hy, h.prev_eq ((A ++ x :: C) ++ [c]) y B' (by simp),
          ← List.append_assoc, List.getLast?_concat, List.getLast?_concat]
  have hbefore : ∀ y A' C, A = A' ++ y :: C →
      next' y = (C ++ B).head? ∧ prev' y = A'.getLast? := by
    rintro y A' C rfl
    have hyB : y ∉ B := hdisj' y (by simp)
    have hne : B.head? ≠ some y := fun hh => hyB (List.mem_of_head? hh)
    refine ⟨?_, ?_⟩
    · cases C with
      | nil => rw [hlast y (by simp), List.nil_append]
      | cons c C =>
        have hy : (A' ++ y :: c :: C).getLast? ≠ some y := by
          intro hy
          have hmem : y ∈ c :: C := by
            rw [List.getLast?_append] at hy
            exact List.mem_of_getLast? (by simpa using hy)
          rw [List.nodup_append] at hA
          exact (List.nodup_cons.mp hA.2.1).1 hmem
        rw [hnext y (by simp) hy, h.next_eq A' y (c :: C ++ x :: B) (by simp)]
        rfl
    · rw [hprev y (by simp) hne, h.prev_eq A' y (C ++ x :: B) (by simp)]
  have hsplit : ∀ A' y B', A ++ B = A' ++ y :: B' →
      next' y = B'.head? ∧ prev' y = A'.getLast? := by
    intro A' y B' he
    rcases List.append_eq_append_iff.mp he with ⟨C, rfl, rfl⟩ | ⟨C, rfl, hC⟩
    · exact hafter y C B' rfl
    · cases C with
      | nil =>
        have := hafter y [] B' hC.symm
        simpa using this
      | cons c C =>
        obtain ⟨rfl, rfl⟩ := List.cons.inj hC
        exact hbefore y A' C rfl
  refine ⟨?_, fun A' y B' he => (hsplit A' y B' he).1, fun A' y B' he => (hsplit A' y B' he).2⟩
  rw [List.nodup_append]
  exact ⟨hA, hB, fun a ha b hb hab => hdisj' a ha (hab ▸ hb)⟩

theorem next_getElem? (h : Linked next prev l) (hx : l[n]? = some x) : next x = l[n + 1]? := by
  obtain ⟨hn, rfl⟩ := List.getElem?_eq_some_iff.mp hx
  have hsplit : l = l.take n ++ l[n] :: l.drop (n + 1) := by
    rw [List.getElem_cons_drop, List.take_append_drop]
  rw [h.next_eq _ _ _ hsplit, List.head?_drop]

/-- The links and the head determine the list. -/
theorem unique (h : Linked next prev l) (h' : Linked next prev' l')
    (hhead : l.head? = l'.head?) : l = l' := by
  refine List.ext_getElem? fun n => ?_
  induction n with
  | zero => rw [← List.head?_eq_getElem?, ← List.head?_eq_getElem?, hhead]
  | succ n ih =>
    cases hx : l[n]? with
    | none =>
      rw [List.getElem?_eq_none (Nat.le_succ_of_le (List.getElem?_eq_none_iff.mp hx)),
        List.getElem?_eq_none (Nat.le_succ_of_le (List.getElem?_eq_none_iff.mp (ih ▸ hx)))]
    | some x => rw [← h.next_getElem? hx, ← h'.next_getElem? (ih ▸ hx)]

/-- The two links are inverse to each other on the list. -/
theorem next_eq_some_iff (h : Linked next prev l) (hx : x ∈ l) (hy : y ∈ l) :
    next x = some y ↔ prev y = some x := by
  constructor
  · intro hn
    obtain ⟨A, B, rfl⟩ := List.append_of_mem hx
    rw [h.next_eq A x B rfl] at hn
    cases B with
    | nil => simp at hn
    | cons b B =>
      obtain rfl : b = y := by simpa using hn
      rw [h.prev_eq (A ++ [x]) b B (by simp)]
      simp
  · intro hp
    obtain ⟨A, B, rfl⟩ := List.append_of_mem hy
    rw [h.prev_eq A y B rfl] at hp
    rcases A.eq_nil_or_concat' with rfl | ⟨A, a, rfl⟩
    · simp at hp
    · obtain rfl : a = x := by simpa using hp
      rw [h.next_eq A a (y :: B) (by simp)]
      rfl

/-- Backwards the list is linked the other way round. -/
theorem reverse (h : Linked next prev l) : Linked prev next l.reverse where
  nodup := l.reverse_perm.nodup_iff.mpr h.nodup
  next_eq A x B he := by
    have hl : l = B.reverse ++ x :: A.reverse := by
      rw [← l.reverse_reverse, he]
      simp
    rw [h.prev_eq _ _ _ hl, List.getLast?_reverse]
  prev_eq A x B he := by
    have hl : l = B.reverse ++ x :: A.reverse := by
      rw [← l.reverse_reverse, he]
      simp
    rw [h.next_eq _ _ _ hl, List.head?_reverse]

/-- Following the links from the first node gives the list. -/
theorem follow_eq (h : Linked next prev l) (hn : l.length ≤ n) : follow next n l.head? = l := by
  have hsuffix : ∀ B A n, l = A ++ B → B.length ≤ n → follow next n B.head? = B := by
    intro B
    induction B with
    | nil =>
      intro A n _ _
      cases n <;> rfl
    | cons x B ih =>
      intro A n he hn
      cases n with
      | zero => simp at hn
      | succ n =>
        rw [List.head?_cons, follow, h.next_eq A x B he,
          ih (A ++ [x]) n (by rw [he]; simp) (by simpa using hn)]
  exact hsuffix l [] n rfl hn

/-- So does, in reverse, following them back from the last node. -/
theorem follow_back_eq (h : Linked next prev l) (hn : l.length ≤ n) :
    follow prev n l.getLast? = l.reverse := by
  rw [← List.head?_reverse]
  exact h.reverse.follow_eq (by rwa [List.length_reverse])

end Linked

end OrangeOs
