import Mathlib.Order.Bounds.Basic
import Zeos.Frames

/-!
# Runs of the frame allocator

Calls of `alloc_frame` and `free_frame` in any order, after `init_frames`.

* **No double allocation** (`allocFrame_run`).  A call returns the smallest even
  frame that is free, never one that is still out (`Outstanding`), and changes no
  other; it fails only when all are used.
* **Giving a frame back** (`frames_reversible_iff`).  Freeing a frame undoes its
  allocation, except for frame 256: the search begins there and `free_frame` begins
  one frame later.  So a run that gives everything back still loses this frame,
  unless it was gone before.

The bytemap may be anything before `init_frames`, and the arguments of `free_frame` may be
any words: those that are no frames of the array change nothing.  `free_frame` compares
with `NUM_PAG_KERNEL` by *greater*, `alloc_frame` begins at it, and this is all that the
exception for frame 256 rests on.  `Outstanding` is read off the run alone, without the
bytemap, so that the first result is not about the representation: it says of a frame that
is returned that no earlier call has returned it since it was last given back.
-/

namespace Zeos

open Machine

/-- The calls of the frame allocator. -/
inductive FrameOp
  | allocFrame
  | freeFrame (frame : DWord)

/-- One call. -/
def frameStep (physMem : ℕ → Byte) : FrameOp → (ℕ → Byte)
  | .allocFrame => (allocFrame physMem).2
  | .freeFrame frame => freeFrame physMem frame

/-- The bytemap after `init_frames` and a run of calls. -/
def framesAfter (physMem : ℕ → Byte) (ops : List FrameOp) : ℕ → Byte :=
  ops.foldl frameStep (initFrames physMem)

theorem framesAfter_append (physMem : ℕ → Byte) (ops ops' : List FrameOp) :
    framesAfter physMem (ops ++ ops') = ops'.foldl frameStep (framesAfter physMem ops) :=
  List.foldl_append

/-! ## One call -/

/-- What an allocation does: it fails and changes nothing where no frame is left, and
else takes the least one. -/
theorem allocFrame_cases (physMem : ℕ → Byte) :
    (freeFrames physMem = ∅ ∧ allocFrame physMem = (-1, physMem)) ∨
      ∃ k : ℕ, IsLeast (freeFrames physMem : Set ℕ) k ∧
        allocFrame physMem = ((k : ℤ), Function.update physMem k usedFrameMark) := by
  rcases (freeFrames physMem).eq_empty_or_nonempty with hempty | hne
  · exact Or.inl ⟨hempty, allocFrame_of_empty hempty⟩
  · obtain ⟨k, hk, hmin, heq⟩ := allocFrame_of_nonempty hne
    exact Or.inr ⟨k, ⟨hk, fun j hj => hmin j hj⟩, heq⟩

/-- While frame 256 is free, it is the one that is handed out. -/
theorem allocFrame_of_first {physMem : ℕ → Byte}
    (hfree : physMem numPagKernel = freeFrameMark) :
    allocFrame physMem =
      ((numPagKernel : ℤ), Function.update physMem numPagKernel usedFrameMark) := by
  have hmem : numPagKernel ∈ freeFrames physMem :=
    mem_freeFrames.mpr ⟨by decide, le_rfl, by decide, hfree⟩
  rcases allocFrame_cases physMem with ⟨hempty, -⟩ | ⟨f, hleast, heq⟩
  · rw [hempty] at hmem
    exact absurd hmem (Finset.notMem_empty _)
  · rwa [le_antisymm (hleast.2 hmem) (mem_freeFrames.mp hleast.1).2.1] at heq

/-- A call uses up a frame only by returning it. -/
theorem frameStep_of_free {physMem : ℕ → Byte} {k : ℕ} (hk : physMem k = freeFrameMark)
    (op : FrameOp) (hop : op = .allocFrame → (allocFrame physMem).1 ≠ k) :
    frameStep physMem op k = freeFrameMark := by
  cases op with
  | allocFrame =>
      rw [frameStep]
      rcases allocFrame_cases physMem with ⟨-, heq⟩ | ⟨f, -, heq⟩
      · rw [heq]
        exact hk
      · have hne : k ≠ f := fun hkf => hop rfl (by rw [heq, hkf])
        rw [heq]
        exact (Function.update_of_ne hne _ _).trans hk
  | freeFrame frame =>
      rw [frameStep, freeFrame]
      split
      · by_cases hkf : k = frame.toNat
        · rw [hkf, Function.update_self]
        · rw [Function.update_of_ne hkf, hk]
      · exact hk

/-- A call makes a frame free only by being asked to. -/
theorem frameStep_of_used {physMem : ℕ → Byte} {k : ℕ} (hk : physMem k = usedFrameMark)
    (op : FrameOp) (hop : ∀ frame, op = .freeFrame frame → frame.toNat ≠ k) :
    frameStep physMem op k = usedFrameMark := by
  cases op with
  | allocFrame =>
      rw [frameStep]
      rcases allocFrame_cases physMem with ⟨-, heq⟩ | ⟨f, -, heq⟩
      · rw [heq]
        exact hk
      · rw [heq]
        by_cases hkf : k = f
        · rw [hkf]
          exact Function.update_self f usedFrameMark physMem
        · exact (Function.update_of_ne hkf _ _).trans hk
  | freeFrame frame => exact (freeFrame_of_ne (hop frame rfl).symm).trans hk

/-! ## No double allocation -/

/-- A frame that a call of the run has returned and no later call has freed. -/
def Outstanding (physMem : ℕ → Byte) (ops : List FrameOp) (f : ℕ) : Prop :=
  ∃ pre post, ops = pre ++ .allocFrame :: post ∧
    (allocFrame (framesAfter physMem pre)).1 = f ∧
    ∀ frame, .freeFrame frame ∈ post → frame.toNat ≠ f

/-- A frame that is out is marked as used. -/
theorem Outstanding.used {physMem : ℕ → Byte} {ops : List FrameOp} {f : ℕ}
    (h : Outstanding physMem ops f) : framesAfter physMem ops f = usedFrameMark := by
  obtain ⟨pre, post, rfl, hf, hpost⟩ := h
  have htaken : frameStep (framesAfter physMem pre) .allocFrame f = usedFrameMark := by
    rw [frameStep]
    rcases allocFrame_cases (framesAfter physMem pre) with ⟨-, heq⟩ | ⟨k, -, heq⟩
    · rw [heq] at hf
      exact absurd hf (by simp only; omega)
    · rw [heq] at hf ⊢
      obtain rfl : k = f := Int.ofNat_inj.mp hf
      exact Function.update_self _ _ _
  rw [framesAfter_append, List.foldl_cons]
  exact List.foldlRecOn (motive := fun m : ℕ → Byte => m f = usedFrameMark) post _ htaken
    fun _ hused op hop => frameStep_of_used hused op fun frame heq =>
      hpost frame (heq ▸ hop)

/-- The invariant of a run: every frame carries one of the two marks, and the kernel's
are used. -/
structure Marked (physMem : ℕ → Byte) : Prop where
  mark : ∀ k < totalPages, physMem k = freeFrameMark ∨ physMem k = usedFrameMark
  kernel : KernelFramesUsed physMem

theorem marked_initFrames (physMem : ℕ → Byte) : Marked (initFrames physMem) := by
  refine ⟨fun k hk => ?_, kernelFramesUsed_initFrames physMem⟩
  rw [initFrames_apply physMem hk]
  split
  · exact Or.inr rfl
  · exact Or.inl rfl

theorem Marked.frameStep {physMem : ℕ → Byte} (h : Marked physMem) (op : FrameOp) :
    Marked (frameStep physMem op) := by
  -- both calls write one of the two marks
  cases op with
  | allocFrame =>
      refine ⟨fun k hk => ?_, h.kernel.allocFrame⟩
      rw [Zeos.frameStep]
      rcases allocFrame_cases physMem with ⟨-, heq⟩ | ⟨f, -, heq⟩
      · rw [heq]
        exact h.mark k hk
      · rw [heq]
        by_cases hkf : k = f
        · right
          rw [hkf]
          exact Function.update_self f usedFrameMark physMem
        · simp only [Function.update_of_ne hkf]
          exact h.mark k hk
  | freeFrame frame =>
      refine ⟨fun k hk => ?_, h.kernel.freeFrame frame⟩
      rw [Zeos.frameStep, Zeos.freeFrame]
      split
      · by_cases hkf : k = frame.toNat
        · exact Or.inl (by rw [hkf, Function.update_self])
        · rw [Function.update_of_ne hkf]
          exact h.mark k hk
      · exact h.mark k hk

theorem marked_framesAfter (physMem : ℕ → Byte) (ops : List FrameOp) :
    Marked (framesAfter physMem ops) :=
  List.foldlRecOn ops _ (marked_initFrames physMem) fun _ h op _ => h.frameStep op

/-- **No frame is handed out twice.**  After any run a call of `alloc_frame` returns the
smallest even frame from 256 on that is free, which is not out, and marks it; or it
returns -1, every such frame being used, and changes nothing.  The kernel's frames are
used throughout. -/
theorem allocFrame_run (physMem : ℕ → Byte) (ops : List FrameOp) :
    ((∃ f : ℕ, (allocFrame (framesAfter physMem ops)).1 = f ∧
        IsLeast {k | numPagKernel ≤ k ∧ k < totalPages ∧ k % 2 = 0 ∧
          framesAfter physMem ops k = freeFrameMark} f ∧
        ¬ Outstanding physMem ops f ∧
        ∀ k, k ≠ f →
          (allocFrame (framesAfter physMem ops)).2 k = framesAfter physMem ops k) ∨
      (allocFrame (framesAfter physMem ops)).1 = -1 ∧
        (∀ k, numPagKernel ≤ k → k < totalPages → k % 2 = 0 →
          framesAfter physMem ops k = usedFrameMark) ∧
        (allocFrame (framesAfter physMem ops)).2 = framesAfter physMem ops) ∧
    ∀ k < numPagKernel, framesAfter physMem ops k = usedFrameMark := by
  have hmarked := marked_framesAfter physMem ops
  refine ⟨?_, hmarked.kernel⟩
  rcases allocFrame_cases (framesAfter physMem ops) with ⟨hempty, heq⟩ | ⟨f, hleast, heq⟩
  · right
    refine ⟨by rw [heq], fun k hge hlt heven => ?_, by rw [heq]⟩
    refine (hmarked.mark k hlt).resolve_left fun hfree => ?_
    have hmem : k ∈ freeFrames (framesAfter physMem ops) :=
      mem_freeFrames.mpr ⟨hlt, hge, heven, hfree⟩
    rw [hempty] at hmem
    exact absurd hmem (Finset.notMem_empty k)
  · left
    -- the frames of the statement are those of `freeFrames`
    have hset : {k | numPagKernel ≤ k ∧ k < totalPages ∧ k % 2 = 0 ∧
        framesAfter physMem ops k = freeFrameMark} =
          (freeFrames (framesAfter physMem ops) : Set ℕ) := by
      ext k
      rw [Set.mem_ofPred_eq, Finset.mem_coe, mem_freeFrames, and_left_comm]
    refine ⟨f, by rw [heq], hset ▸ hleast, fun hout => ?_, fun k hk => ?_⟩
    · have hfree := (mem_freeFrames.mp hleast.1).2.2.2
      rw [hout.used] at hfree
      exact absurd hfree (by decide)
    · rw [heq]
      exact Function.update_of_ne hk _ _

/-! ## Giving a frame back -/

/-- Frame 256 is the one that is allocated and not freed. -/
theorem freeFrame_allocFrame_iff (physMem : ℕ → Byte) :
    ((allocFrame physMem).1 ≠ -1 → freeFrame (allocFrame physMem).2
        (BitVec.ofInt 32 (allocFrame physMem).1) = physMem) ↔
      physMem numPagKernel ≠ freeFrameMark := by
  constructor
  · intro hundo hboundary
    -- frame 256 is handed out, and it stays marked
    have hfound : (numPagKernel : ℤ) ≠ -1 := by decide
    rw [allocFrame_of_first hboundary] at hundo
    have hkept := congrFun (hundo hfound) numPagKernel
    dsimp only at hkept
    rw [freeFrame, if_neg (by decide), Function.update_self, hboundary] at hkept
    exact absurd hkept (by decide)
  · intro hboundary hfound
    rcases allocFrame_cases physMem with ⟨-, heq⟩ | ⟨f, hleast, heq⟩
    · exact absurd (by rw [heq]) hfound
    · obtain ⟨hlt, hge, -, hfree⟩ := mem_freeFrames.mp hleast.1
      have hframe : (BitVec.ofInt 32 (f : ℤ)).toNat = f := by
        rw [BitVec.ofInt_natCast, BitVec.toNat_ofNat]
        exact Nat.mod_eq_of_lt (hlt.trans (by decide))
      have hgt : numPagKernel < f := by
        refine lt_of_le_of_ne hge fun hfirst => hboundary ?_
        rwa [hfirst]
      rw [heq]
      dsimp only
      rw [freeFrame, hframe, if_pos ⟨hgt, hlt⟩, Function.update_idem, ← hfree,
        Function.update_eq_self]

/-- Once frame 256 is used it stays so. -/
theorem frameStep_numPagKernel {physMem : ℕ → Byte}
    (h : physMem numPagKernel ≠ freeFrameMark) (op : FrameOp) :
    frameStep physMem op numPagKernel ≠ freeFrameMark := by
  cases op with
  | allocFrame =>
      rw [frameStep]
      rcases allocFrame_cases physMem with ⟨-, heq⟩ | ⟨f, hleast, heq⟩
      · rwa [heq]
      · have hne : numPagKernel ≠ f := fun hf =>
          h (hf ▸ (mem_freeFrames.mp hleast.1).2.2.2)
        rw [heq]
        simpa only [Function.update_of_ne hne] using h
  | freeFrame frame =>
      rw [frameStep, freeFrame]
      split
      · next hrange => rwa [Function.update_of_ne hrange.1.ne]
      · exact h

/-- It is used after the first allocation. -/
theorem allocFrame_numPagKernel (physMem : ℕ → Byte) :
    frameStep physMem .allocFrame numPagKernel ≠ freeFrameMark := by
  by_cases hfree : physMem numPagKernel = freeFrameMark
  · rw [frameStep, allocFrame_of_first hfree]
    simp only [Function.update_self]
    decide
  · exact frameStep_numPagKernel hfree .allocFrame

/-- A run changes the mark of frame 256 exactly by its first allocation. -/
theorem foldl_numPagKernel_iff (physMem : ℕ → Byte) (ops : List FrameOp) :
    ops.foldl frameStep physMem numPagKernel ≠ freeFrameMark ↔
      physMem numPagKernel ≠ freeFrameMark ∨ .allocFrame ∈ ops := by
  induction ops generalizing physMem with
  | nil => simp
  | cons op ops ih =>
      rw [List.foldl_cons, ih, List.mem_cons, ← or_assoc]
      refine or_congr_left ⟨fun h => ?_, ?_⟩
      · by_contra hnot
        obtain ⟨hfree, hop⟩ := not_or.mp hnot
        exact h (frameStep_of_free (not_not.mp hfree) op fun heq => absurd heq.symm hop)
      · rintro (h | rfl)
        · exact frameStep_numPagKernel h op
        · exact allocFrame_numPagKernel physMem

/-- After `init_frames` frame 256 is free until something is allocated. -/
theorem framesAfter_numPagKernel_iff (physMem : ℕ → Byte) (ops : List FrameOp) :
    framesAfter physMem ops numPagKernel ≠ freeFrameMark ↔ .allocFrame ∈ ops := by
  rw [framesAfter, foldl_numPagKernel_iff, initFrames_apply physMem (by decide),
    if_neg (lt_irrefl _)]
  simp

/-- Every frame that the run allocates is freed by a later call of the run. -/
def EventuallyFreed : (ℕ → Byte) → List FrameOp → Prop
  | _, [] => True
  | physMem, .freeFrame frame :: ops => EventuallyFreed (freeFrame physMem frame) ops
  | physMem, .allocFrame :: ops =>
      ((allocFrame physMem).1 ≠ -1 →
        .freeFrame (BitVec.ofInt 32 (allocFrame physMem).1) ∈ ops) ∧
      EventuallyFreed (allocFrame physMem).2 ops

/-- In such a run a frame behind 256 that is free, or freed later, is free in the
end. -/
theorem EventuallyFreed.free {k : ℕ} (hgt : numPagKernel < k) (hlt : k < totalPages)
    {ops : List FrameOp} :
    ∀ {physMem : ℕ → Byte}, EventuallyFreed physMem ops →
      (physMem k = freeFrameMark ∨ .freeFrame (BitVec.ofNat 32 k) ∈ ops) →
      ops.foldl frameStep physMem k = freeFrameMark := by
  have hnum : (BitVec.ofNat 32 k).toNat = k := by
    rw [BitVec.toNat_ofNat]
    exact Nat.mod_eq_of_lt (hlt.trans (by decide))
  -- the frame is free and stays so, or it is given back later in the run
  induction ops with
  | nil =>
      intro physMem _ hk
      exact hk.resolve_right List.not_mem_nil
  | cons op ops ih =>
      intro physMem hfreed hk
      rw [List.foldl_cons]
      cases op with
      | allocFrame =>
          refine ih hfreed.2 ?_
          by_cases hres : (allocFrame physMem).1 = k
          · right
            have hlater := hfreed.1 (by rw [hres]; omega)
            rwa [hres, BitVec.ofInt_natCast] at hlater
          · refine hk.imp (fun hfree => frameStep_of_free hfree .allocFrame fun _ => hres) ?_
            intro hlater
            exact (List.mem_cons.mp hlater).resolve_left (by simp)
      | freeFrame frame =>
          refine ih hfreed ?_
          by_cases hframe : frame = BitVec.ofNat 32 k
          · left
            rw [frameStep, freeFrame, hframe, hnum, if_pos ⟨hgt, hlt⟩, Function.update_self]
          · refine hk.imp (fun hfree => frameStep_of_free hfree _ (by simp)) ?_
            intro hlater
            refine (List.mem_cons.mp hlater).resolve_left fun heq => hframe ?_
            exact (FrameOp.freeFrame.inj heq).symm

/-- What a run that gives everything back leaves to hand out. -/
theorem freeFrames_run_iff {physMem : ℕ → Byte} {ops : List FrameOp}
    (h : EventuallyFreed physMem ops) :
    freeFrames physMem ⊆ freeFrames (ops.foldl frameStep physMem) ↔
      physMem numPagKernel ≠ freeFrameMark ∨ .allocFrame ∉ ops := by
  constructor
  · intro hsub
    by_contra hnot
    obtain ⟨hfree, hmem⟩ := not_or.mp hnot
    have hin : numPagKernel ∈ freeFrames physMem :=
      mem_freeFrames.mpr ⟨by decide, le_rfl, by decide, not_not.mp hfree⟩
    have hend := (mem_freeFrames.mp (hsub hin)).2.2.2
    exact (foldl_numPagKernel_iff physMem ops).mpr (Or.inr (not_not.mp hmem)) hend
  · intro hcond k hk
    obtain ⟨hlt, hge, heven, hfree⟩ := mem_freeFrames.mp hk
    refine mem_freeFrames.mpr ⟨hlt, hge, heven, ?_⟩
    rcases hge.lt_or_eq with hgt | rfl
    · exact h.free hgt hlt (Or.inl hfree)
    · -- frame 256 itself, which the run has not touched
      by_contra hend
      have hcase := (foldl_numPagKernel_iff physMem ops).mp hend
      exact hcond.elim (fun hused => hused hfree) fun hno =>
        hno (hcase.resolve_left fun hused => hused hfree)

/-- **Allocation is reversible exactly while frame 256 is not free**, in every state
that a run can reach; and a further run that gives back what it takes leaves as much to
hand out as before exactly if it begins without frame 256 or takes nothing. -/
theorem frames_reversible_iff (physMem : ℕ → Byte) (pre : List FrameOp) :
    (((allocFrame (framesAfter physMem pre)).1 ≠ -1 →
        freeFrame (allocFrame (framesAfter physMem pre)).2
          (BitVec.ofInt 32 (allocFrame (framesAfter physMem pre)).1) =
            framesAfter physMem pre) ↔
      framesAfter physMem pre numPagKernel ≠ freeFrameMark) ∧
    ∀ ops, EventuallyFreed (framesAfter physMem pre) ops →
      (freeFrames (framesAfter physMem pre) ⊆ freeFrames (framesAfter physMem (pre ++ ops)) ↔
        framesAfter physMem pre numPagKernel ≠ freeFrameMark ∨ .allocFrame ∉ ops) := by
  refine ⟨freeFrame_allocFrame_iff _, fun ops hfreed => ?_⟩
  rw [framesAfter_append]
  exact freeFrames_run_iff hfreed

/-- The first allocation after `init_frames` is of frame 256. -/
theorem allocFrame_initFrames (physMem : ℕ → Byte) :
    (allocFrame (initFrames physMem)).1 = 256 := by
  have hmem : numPagKernel ∈ freeFrames (initFrames physMem) := by
    rw [freeFrames_initFrames, Finset.mem_filter, Finset.mem_range]
    decide
  rw [allocFrame_of_first (mem_freeFrames.mp hmem).2.2.2]
  rfl

/-- Allocating once and freeing frame 256 gives back what was allocated. -/
private theorem eventuallyFreed_first (physMem : ℕ → Byte) :
    EventuallyFreed (framesAfter physMem []) [.allocFrame, .freeFrame 256] := by
  refine ⟨fun _ => ?_, trivial⟩
  have hinit : framesAfter physMem [] = initFrames physMem := by
    rw [framesAfter, List.foldl_nil]
  rw [hinit, allocFrame_initFrames]
  exact List.mem_singleton.mpr rfl

/-- `init_frames`, `alloc_frame`, `free_frame(256)`: the frame is not given back. -/
theorem frames_not_reversible :
    ¬ ((allocFrame (framesAfter (fun _ => 0) [])).1 ≠ -1 →
        freeFrame (allocFrame (framesAfter (fun _ => 0) [])).2
          (BitVec.ofInt 32 (allocFrame (framesAfter (fun _ => 0) [])).1) =
            framesAfter (fun _ => 0) []) ∧
      EventuallyFreed (framesAfter (fun _ => 0) []) [.allocFrame, .freeFrame 256] ∧
      ¬ freeFrames (framesAfter (fun _ => 0) []) ⊆
        freeFrames (framesAfter (fun _ => 0) ([] ++ [.allocFrame, .freeFrame 256])) := by
  have hfree : ¬ framesAfter (fun _ => 0) [] numPagKernel ≠ freeFrameMark := by
    rw [framesAfter_numPagKernel_iff]
    exact List.not_mem_nil
  have hfreed := eventuallyFreed_first fun _ => 0
  rw [freeFrame_allocFrame_iff (framesAfter (fun _ => 0) []), framesAfter_append]
  refine ⟨hfree, hfreed, fun h => ?_⟩
  exact ((freeFrames_run_iff hfreed).mp h).elim hfree fun hno => hno List.mem_cons_self

end Zeos
