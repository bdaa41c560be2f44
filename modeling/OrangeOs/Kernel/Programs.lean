import OrangeOs.Kernel.Isolation
import OrangeOs.Kernel.Traps

/-! # Programs and the frames

The isolation of processes is what lets a program run between two traps: whatever it writes through its page
table, no frame of any process changes.
-/

namespace OrangeOs.Kernel.Tasks

open VirtualMemory TaskMemory

variable {σ : Type} {S : StreamBase σ} {s : Tasks} {g : Holdings Slot Page} {L : List ℕ} {t : Linked}
  {p q : Slot} {m : Memory}

theorem Isolated.frame_page (h : s.Isolated g L) (hq : (s.task q).Live) : IsPage (s.task q).frame :=
  (h.housed q hq).frame.1

/-- No page belongs to two processes. -/
theorem Isolated.page_unique {c : ℕ} (h : s.Isolated g L) (hp : (s.task p).Live) (hq : (s.task q).Live)
    (hc : IsPage c) (hcp : c ∈ (s.task p).pages s.vm.mem) (hcq : c ∈ (s.task q).pages s.vm.mem) :
    p = q := by
  by_contra hne
  have hdisj := g.apart p q hne
  rw [h.own, h.own] at hdisj
  have hin : (⟨c, hc⟩ : Page) ∈ s.own p := ⟨hp, hcp⟩
  have hin' : (⟨c, hc⟩ : Page) ∈ s.own q := ⟨hq, hcq⟩
  exact Set.disjoint_left.mp hdisj hin hin'

theorem Isolated.frame_inj (h : s.Isolated g L) (hp : (s.task p).Live) (hq : (s.task q).Live)
    (heq : (s.task p).frame = (s.task q).frame) : p = q :=
  h.page_unique hp hq (h.frame_page hp) (.inr (.inl rfl)) (.inr (.inl heq))

/-- The frames of the processes, in pages after the words of the kernel. -/
def Isolated.frames (h : s.Isolated g L)
    (hlow : ∀ p, (s.task p).Live → (t.addr .time_scratch).toNat + 16 ≤ (s.task p).frame) :
    Trap.Frames t where
  addr p := if (s.task p).page_table = 0 then none else some (BitVec.ofNat 64 (s.task p).frame)
  place {p f} hf := by
    split at hf
    · cases hf
    · next hp =>
      obtain rfl := Option.some.inj hf
      have hpage := h.frame_page hp
      have hlt := hpage.lt
      have htoNat : (BitVec.ofNat 64 (s.task p).frame).toNat = (s.task p).frame := by
        rw [BitVec.toNat_ofNat, Nat.mod_eq_of_lt hpage.lt_word]
      constructor
      · rw [htoNat]
        exact hpage.aligned
      · rw [htoNat]
        exact hlow p hp
      · rw [htoNat]
        have := hpage.aligned
        have := hpage.base
        unfold PGSIZE MEMORY_END KERNEL_BASE
        omega
  inj {p q f} hp hq := by
    split at hp
    · cases hp
    · next hlive =>
      split at hq
      · cases hq
      · next hlive' =>
        have heq := congrArg BitVec.toNat ((Option.some.inj hp).trans (Option.some.inj hq).symm)
        rw [BitVec.toNat_ofNat, BitVec.toNat_ofNat, Nat.mod_eq_of_lt (h.frame_page hlive).lt_word,
          Nat.mod_eq_of_lt (h.frame_page hlive').lt_word] at heq
        exact h.frame_inj hlive hlive' heq

/-- A program writes only where its page table leads, and that is in no frame. -/
theorem Isolated.program_keeps (h : s.Isolated g L)
    (hlow : ∀ p, (s.task p).Live → (t.addr .time_scratch).toNat + 16 ≤ (s.task p).frame)
    (hp : (s.task p).Live) (hscratch : ∀ a x, translate s.vm (s.task p).page_table a = some x →
      x < (t.addr .time_scratch).toNat ∨ (t.addr .time_scratch).toNat + 8 ≤ x)
    (hm : Memory.Same s.vm.mem m fun x =>
      ∀ a < 2 ^ 64, translate s.vm (s.task p).page_table a ≠ some x) :
    Trap.Kept (h.frames hlow) s.vm.mem m := by
  intro x hx
  refine hm x fun a ha htr => ?_
  rcases hx with ⟨q, f, hf, hcell⟩ | hx
  · have hhoused := h.housed p hp
    have htree := htr
    rw [translate_eq hhoused.space ha] at htree
    obtain ⟨c, hc, rfl⟩ := Option.map_eq_some_iff.mp htree
    have hcpage := hhoused.space.page _ c hc
    simp only [Isolated.frames] at hf
    split at hf
    · cases hf
    · next hq =>
      obtain rfl := Option.some.inj hf
      have hqpage := h.frame_page hq
      have hne : c ≠ (s.task q).frame := by
        rintro rfl
        obtain rfl := h.page_unique hq hp hcpage (.inr (.inl rfl)) (.inl ⟨_, hc⟩)
        exact hhoused.frame.2.2 _ hc
      have := hcpage.apart hqpage hne
      rw [Trap.Cells, BitVec.toNat_ofNat, Nat.mod_eq_of_lt hqpage.lt_word] at hcell
      unfold RegFrame.KERNEL_SP_OFFSET at hcell
      have : a % 4096 < 4096 := Nat.mod_lt _ (by decide)
      omega
  · have := hscratch a x htr
    omega

end OrangeOs.Kernel.Tasks
