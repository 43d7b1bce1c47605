import Mathlib.Data.Finset.Card
import Zeos.Mm

/-!
# The frame allocator

`alloc_frame` looks at every other frame from the kernel's on.  `freeFrames` is
the set of frames it can still hand out: where it is not empty the smallest of
them is taken from the set (`allocFrame_of_nonempty`), and where it is empty the
call fails and changes nothing (`allocFrame_of_empty`).

The step of two frames is the source's own, so odd frames are never handed out and
`freeFrames` has only even ones.  The search is a loop with an early exit; as a function
it returns the frame or -1 together with the bytemap, which is what its callers make of
it, and the lemmas say both parts at once.  They hold of every bytemap, not only of those
that a run reaches.
-/

namespace Zeos

open Machine

/-- The frames that `alloc_frame` can hand out. -/
def freeFrames (physMem : ℕ → Byte) : Finset ℕ :=
  (Finset.range totalPages).filter fun k =>
    numPagKernel ≤ k ∧ k % 2 = 0 ∧ physMem k = freeFrameMark

theorem mem_freeFrames {physMem : ℕ → Byte} {k : ℕ} :
    k ∈ freeFrames physMem ↔
      k < totalPages ∧ numPagKernel ≤ k ∧ k % 2 = 0 ∧ physMem k = freeFrameMark := by
  rw [freeFrames, Finset.mem_filter, Finset.mem_range]

/-! ## Initial frames -/

private theorem foldl_update_const (v : Byte) (l : List ℕ) (physMem : ℕ → Byte) (k : ℕ) :
    (l.foldl (fun m i => Function.update m i v) physMem) k =
      if k ∈ l then v else physMem k := by
  induction l generalizing physMem with
  | nil => simp
  | cons i l ih =>
      rw [List.foldl_cons, ih]
      by_cases hmem : k ∈ l
      · rw [if_pos hmem, if_pos (List.mem_cons_of_mem i hmem)]
      · by_cases hki : k = i
        · subst hki
          rw [if_neg hmem, Function.update_self, if_pos List.mem_cons_self]
        · rw [if_neg hmem, Function.update_of_ne hki, if_neg (by simp [hki, hmem])]

/-- Initially the kernel's frames are used and the others free. -/
theorem initFrames_apply (physMem : ℕ → Byte) {k : ℕ} (hk : k < totalPages) :
    initFrames physMem k = if k < numPagKernel then usedFrameMark else freeFrameMark := by
  simp only [initFrames, foldl_update_const, List.mem_range, hk, if_true]

theorem freeFrames_initFrames (physMem : ℕ → Byte) :
    freeFrames (initFrames physMem) =
      (Finset.range totalPages).filter fun k => numPagKernel ≤ k ∧ k % 2 = 0 := by
  ext k
  rw [mem_freeFrames, Finset.mem_filter, Finset.mem_range]
  constructor
  · rintro ⟨hk, hge, heven, -⟩
    exact ⟨hk, hge, heven⟩
  · rintro ⟨hk, hge, heven⟩
    refine ⟨hk, hge, heven, ?_⟩
    rw [initFrames_apply physMem hk, if_neg (by omega)]

/-- There are 384 frames to hand out. -/
theorem card_freeFrames_initFrames (physMem : ℕ → Byte) :
    (freeFrames (initFrames physMem)).card = 384 := by
  rw [freeFrames_initFrames]
  decide +kernel

/-! ## Allocation -/

/-- The search from an even frame on: the first free frame, or failure. -/
private theorem allocFrom_spec (physMem : ℕ → Byte) (i : ℕ) (hi : i % 2 = 0) :
    (∃ k, i ≤ k ∧ k < totalPages ∧ k % 2 = 0 ∧ physMem k = freeFrameMark ∧
        (∀ j, i ≤ j → j < k → j % 2 = 0 → physMem j ≠ freeFrameMark) ∧
        allocFrom physMem i = ((k : ℤ), Function.update physMem k usedFrameMark)) ∨
      ((∀ j, i ≤ j → j < totalPages → j % 2 = 0 → physMem j ≠ freeFrameMark) ∧
        allocFrom physMem i = (-1, physMem)) := by
  fun_induction allocFrom physMem i with
  | case1 i hlt hfree =>
      exact Or.inl ⟨i, le_rfl, hlt, hi, hfree, fun j hij hji => by omega, rfl⟩
  | case2 i hlt hused ih =>
      have hskip : ∀ j, i ≤ j → j % 2 = 0 → physMem j = freeFrameMark → i + 2 ≤ j := by
        intro j hij hj hfree
        rcases Nat.lt_or_ge j (i + 2) with h | h
        · obtain rfl : j = i := by omega
          exact absurd hfree hused
        · exact h
      rcases ih (by omega) with ⟨k, hik, hk, heven, hfree, hmin, heq⟩ | ⟨hnone, heq⟩
      · refine Or.inl ⟨k, by omega, hk, heven, hfree, fun j hij hjk hj hjf => ?_, heq⟩
        exact hmin j (hskip j hij hj hjf) hjk hj hjf
      · exact Or.inr ⟨fun j hij hlt hj hjf => hnone j (hskip j hij hj hjf) hlt hj hjf, heq⟩
  | case3 i hge => exact Or.inr ⟨fun j hij hlt => by omega, rfl⟩

/-- A successful allocation takes the smallest frame of the set. -/
theorem allocFrame_of_nonempty {physMem : ℕ → Byte} (h : (freeFrames physMem).Nonempty) :
    ∃ k ∈ freeFrames physMem, (∀ j ∈ freeFrames physMem, k ≤ j) ∧
      allocFrame physMem = ((k : ℤ), Function.update physMem k usedFrameMark) := by
  rcases allocFrom_spec physMem numPagKernel (by decide) with
    ⟨k, hge, hk, heven, hfree, hmin, heq⟩ | ⟨hnone, -⟩
  · refine ⟨k, mem_freeFrames.mpr ⟨hk, hge, heven, hfree⟩, fun j hj => ?_, heq⟩
    obtain ⟨hjlt, hjge, hjeven, hjfree⟩ := mem_freeFrames.mp hj
    by_contra hlt
    exact hmin j hjge (by omega) hjeven hjfree
  · obtain ⟨j, hj⟩ := h
    obtain ⟨hjlt, hjge, hjeven, hjfree⟩ := mem_freeFrames.mp hj
    exact absurd hjfree (hnone j hjge hjlt hjeven)

/-- With no frame to hand out, an allocation fails. -/
theorem allocFrame_of_empty {physMem : ℕ → Byte} (h : freeFrames physMem = ∅) :
    allocFrame physMem = (-1, physMem) := by
  rcases allocFrom_spec physMem numPagKernel (by decide) with
    ⟨k, hge, hk, heven, hfree, -, -⟩ | ⟨-, heq⟩
  · have hmem : k ∈ freeFrames physMem := mem_freeFrames.mpr ⟨hk, hge, heven, hfree⟩
    rw [h] at hmem
    simp at hmem
  · exact heq

theorem freeFrames_update_used {physMem : ℕ → Byte} (k : ℕ) :
    freeFrames (Function.update physMem k usedFrameMark) = (freeFrames physMem).erase k := by
  ext j
  rw [Finset.mem_erase, mem_freeFrames, mem_freeFrames]
  by_cases hjk : j = k
  · subst hjk
    simp [usedFrameMark, freeFrameMark]
  · simp [hjk]

/-- Each allocation takes one frame from the set, as long as there is one. -/
theorem card_freeFrames_allocFrame (physMem : ℕ → Byte) :
    (freeFrames (allocFrame physMem).2).card = (freeFrames physMem).card - 1 := by
  rcases (freeFrames physMem).eq_empty_or_nonempty with hempty | hne
  · rw [allocFrame_of_empty hempty, hempty]
    rfl
  · obtain ⟨k, hk, -, heq⟩ := allocFrame_of_nonempty hne
    rw [heq, freeFrames_update_used, Finset.card_erase_of_mem hk]

/-- What an allocation returns is no kernel frame, also as a frame number. -/
theorem allocFrame_frame_ge (physMem : ℕ → Byte) :
    numPagKernel ≤ ((BitVec.ofInt 32 (allocFrame physMem).1).setWidth 20).toNat := by
  rcases (freeFrames physMem).eq_empty_or_nonempty with hempty | hne
  · rw [allocFrame_of_empty hempty]
    exact (by decide : numPagKernel ≤ ((BitVec.ofInt 32 (-1)).setWidth 20).toNat)
  · obtain ⟨k, hk, -, heq⟩ := allocFrame_of_nonempty hne
    obtain ⟨hlt, hge, -, -⟩ := mem_freeFrames.mp hk
    simp only [totalPages] at hlt
    rw [heq, BitVec.ofInt_natCast, BitVec.toNat_setWidth, BitVec.toNat_ofNat]
    omega

/-- The kernel's frames are used. -/
def KernelFramesUsed (physMem : ℕ → Byte) : Prop :=
  ∀ f < numPagKernel, physMem f = usedFrameMark

theorem kernelFramesUsed_initFrames (physMem : ℕ → Byte) :
    KernelFramesUsed (initFrames physMem) := fun f hf => by
  rw [initFrames_apply physMem (lt_of_lt_of_le hf (by decide)), if_pos hf]

theorem KernelFramesUsed.allocFrame {physMem : ℕ → Byte} (h : KernelFramesUsed physMem) :
    KernelFramesUsed (allocFrame physMem).2 := by
  intro f hf
  rcases (freeFrames physMem).eq_empty_or_nonempty with hempty | hne
  · rw [allocFrame_of_empty hempty]
    exact h f hf
  · obtain ⟨k, hk, -, heq⟩ := allocFrame_of_nonempty hne
    have hge := (mem_freeFrames.mp hk).2.1
    have hfk : f ≠ k := by omega
    rw [heq]
    exact (Function.update_of_ne hfk _ _).trans (h f hf)

theorem freeFrame_of_ne {physMem : ℕ → Byte} {frame : DWord} {f : ℕ}
    (h : f ≠ frame.toNat) : freeFrame physMem frame f = physMem f := by
  unfold freeFrame
  split
  · exact Function.update_of_ne h _ _
  · rfl

theorem KernelFramesUsed.freeFrame {physMem : ℕ → Byte} (h : KernelFramesUsed physMem)
    (frame : DWord) : KernelFramesUsed (freeFrame physMem frame) := by
  intro f hf
  unfold Zeos.freeFrame
  split
  · next hrange =>
      rw [Function.update_of_ne (by omega)]
      exact h f hf
  · exact h f hf

end Zeos
