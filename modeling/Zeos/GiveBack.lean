import Zeos.FrameRuns
import Zeos.Isolation

/-!
# Giving user pages back

`free_user_pages` finds the frames to free in the entries of the data pages.  Right
after `set_user_pages` an entry holds what `alloc_frame` returned for it: a frame, or
the lower twenty bits of -1, a number that `free_frame` ignores.

A row of allocations takes different frames (`allocResult_inj`), and none but the
first can take frame 256 (`numPagKernel_lt_of_allocResult`), which `free_frame`
ignores too.  The first is for a code page, so all data frames go back, however many
of the allocations failed (`giveBack_run`).

The result is about the functions on memory, with directories and tables, and its
induction is over the rows of the two loops.  What makes it delicate is that nothing tests
the result of `alloc_frame`: a row may succeed at first and then fail, and the entries
have to be read back to know what is freed.  `freeUserPages` is called for the task that
`setUserPages` was called for, in the state right after it.  No hypothesis on the state is
needed but that a run has reached it.
-/

namespace Zeos

open Machine PageTableEntry

/-! ## Rows of allocations -/

/-- The bytemap after `n` calls of `alloc_frame`. -/
def allocRow (physMem : ℕ → Byte) (n : ℕ) : ℕ → Byte :=
  (fun m => (allocFrame m).2)^[n] physMem

/-- What the call after `i` others returns. -/
def allocResult (physMem : ℕ → Byte) (i : ℕ) : ℤ := (allocFrame (allocRow physMem i)).1

section Row

variable (physMem : ℕ → Byte)

theorem allocRow_zero : allocRow physMem 0 = physMem := rfl

theorem allocRow_succ (n : ℕ) :
    allocRow physMem (n + 1) = (allocFrame (allocRow physMem n)).2 :=
  Function.iterate_succ_apply' _ n physMem

theorem allocRow_add (m n : ℕ) : allocRow physMem (m + n) = allocRow (allocRow physMem m) n := by
  rw [Nat.add_comm]
  exact Function.iterate_add_apply _ n m physMem

theorem allocResult_add (m i : ℕ) :
    allocResult (allocRow physMem m) i = allocResult physMem (m + i) := by
  rw [allocResult, allocResult, allocRow_add]

variable {physMem}

/-- A call that returns a frame takes the least one that is free. -/
theorem isLeast_of_allocResult {i k : ℕ} (h : allocResult physMem i = k) :
    IsLeast (freeFrames (allocRow physMem i) : Set ℕ) k ∧
      allocRow physMem (i + 1) = Function.update (allocRow physMem i) k usedFrameMark := by
  rw [allocRow_succ]
  unfold allocResult at h
  rcases allocFrame_cases (allocRow physMem i) with ⟨-, heq⟩ | ⟨f, hleast, heq⟩
  · rw [heq] at h
    exact absurd h (by simp only; omega)
  · rw [heq] at h ⊢
    obtain rfl : f = k := Int.ofNat_inj.mp h
    exact ⟨hleast, rfl⟩

/-- What a call does not return it leaves alone. -/
theorem allocRow_succ_of_ne {i k : ℕ} (h : allocResult physMem i ≠ k) :
    allocRow physMem (i + 1) k = allocRow physMem i k := by
  rw [allocRow_succ]
  unfold allocResult at h
  rcases allocFrame_cases (allocRow physMem i) with ⟨-, heq⟩ | ⟨f, -, heq⟩
  · rw [heq]
  · rw [heq] at h ⊢
    exact Function.update_of_ne (fun hkf => h (by rw [hkf])) _ _

/-- A frame that no call of the row returns is as before the row. -/
theorem allocRow_of_ne {k n : ℕ} (h : ∀ i < n, allocResult physMem i ≠ k) :
    allocRow physMem n k = physMem k := by
  induction n with
  | zero => rfl
  | succ n ih =>
      rw [allocRow_succ_of_ne (h n (Nat.lt_succ_self n))]
      exact ih fun i hi => h i (Nat.lt_succ_of_lt hi)

/-- A frame that a call of the row returns is used from then on. -/
theorem allocRow_of_allocResult {i k n : ℕ} (h : allocResult physMem i = k) (hi : i < n) :
    allocRow physMem n k = usedFrameMark := by
  induction n with
  | zero => exact absurd hi (Nat.not_lt_zero i)
  | succ n ih =>
      rcases Nat.lt_succ_iff_lt_or_eq.mp hi with hlt | rfl
      · by_cases hn : allocResult physMem n = k
        · rw [(isLeast_of_allocResult hn).2, Function.update_self]
        · rw [allocRow_succ_of_ne hn]
          exact ih hlt
      · rw [(isLeast_of_allocResult h).2, Function.update_self]

/-- **The calls of a row return different frames.** -/
theorem allocResult_inj {i j k : ℕ} (hi : allocResult physMem i = k)
    (hj : allocResult physMem j = k) : i = j := by
  -- the later call would return a frame that is used
  have hlater : ∀ {i j}, allocResult physMem i = k → allocResult physMem j = k → ¬ i < j := by
    intro i j hi hj hlt
    have hfree := (mem_freeFrames.mp (isLeast_of_allocResult hj).1.1).2.2.2
    rw [allocRow_of_allocResult hi hlt] at hfree
    exact absurd hfree (by decide)
  exact le_antisymm (not_lt.mp (hlater hj hi)) (not_lt.mp (hlater hi hj))

/-- A frame that a call of the row returns was free before the row. -/
theorem free_of_allocResult {i k : ℕ} (h : allocResult physMem i = k) :
    physMem k = freeFrameMark := by
  have hfree := (mem_freeFrames.mp (isLeast_of_allocResult h).1.1).2.2.2
  rwa [allocRow_of_ne fun j hj hjk => hj.ne (allocResult_inj hjk h)] at hfree

/-- Only the first call of a row can return frame 256. -/
theorem numPagKernel_lt_of_allocResult {i k : ℕ} (h : allocResult physMem i = k)
    (hi : 0 < i) : numPagKernel < k ∧ k < totalPages := by
  obtain ⟨hlt, hge, -, -⟩ := mem_freeFrames.mp (isLeast_of_allocResult h).1.1
  refine ⟨lt_of_le_of_ne hge fun heq => ?_, hlt⟩
  have hfirst : allocResult physMem 0 = numPagKernel := by
    rw [allocResult, allocRow_zero, allocFrame_of_first (free_of_allocResult (heq ▸ h))]
  exact hi.ne (allocResult_inj hfirst (heq ▸ h))

end Row

/-! ## What `free_user_pages` frees -/

/-- The number that an entry holds for a result of `alloc_frame`. -/
theorem frame_of_allocResult (physMem : ℕ → Byte) (i : ℕ) {k : ℕ} (hk : k < totalPages) :
    (((BitVec.ofInt 32 (allocResult physMem i)).setWidth 20).setWidth 32).toNat = k ↔
      allocResult physMem i = k := by
  rw [totalPages] at hk
  unfold allocResult
  rcases allocFrame_cases (allocRow physMem i) with ⟨-, heq⟩ | ⟨f, hleast, heq⟩
  · have hnum : (((BitVec.ofInt 32 (-1)).setWidth 20).setWidth 32).toNat = 0xfffff := by decide
    rw [heq, hnum]
    constructor <;> intro h <;> omega
  · have hlt := (mem_freeFrames.mp hleast.1).1
    rw [totalPages] at hlt
    have hnum : (((BitVec.ofInt 32 (f : ℤ)).setWidth 20).setWidth 32).toNat = f := by
      rw [BitVec.ofInt_natCast]
      simp only [BitVec.toNat_setWidth, BitVec.toNat_ofNat]
      omega
    rw [heq, hnum, Int.ofNat_inj]

/-- A loop of `free_frame`. -/
theorem foldl_freeFrame_apply (frame : ℕ → DWord) (n : ℕ) (physMem : ℕ → Byte) (k : ℕ) :
    (List.range n).foldl (fun m j => freeFrame m (frame j)) physMem k =
      if numPagKernel < k ∧ k < totalPages ∧ ∃ j < n, (frame j).toNat = k then freeFrameMark
      else physMem k := by
  induction n with
  | zero =>
      rw [List.range_zero, List.foldl_nil, if_neg]
      rintro ⟨-, -, j, hj, -⟩
      exact absurd hj (Nat.not_lt_zero j)
  | succ n ih =>
      rw [List.range_succ, List.foldl_append, List.foldl_cons, List.foldl_nil]
      -- the last frame is `k`, or it changes nothing there
      by_cases hn : (frame n).toNat = k
      · rw [freeFrame, hn]
        by_cases hrange : numPagKernel < k ∧ k < totalPages
        · rw [if_pos hrange, Function.update_self,
            if_pos ⟨hrange.1, hrange.2, n, Nat.lt_succ_self n, hn⟩]
        · rw [if_neg hrange, ih, if_neg (fun h => hrange ⟨h.1, h.2.1⟩),
            if_neg (fun h => hrange ⟨h.1, h.2.1⟩)]
      · rw [freeFrame_of_ne (fun h => hn h.symm), ih]
        refine if_congr (and_congr_right fun _ => and_congr_right fun _ => ?_) rfl rfl
        constructor
        · rintro ⟨j, hj, hjk⟩
          exact ⟨j, Nat.lt_succ_of_lt hj, hjk⟩
        · rintro ⟨j, hj, hjk⟩
          refine ⟨j, lt_of_le_of_ne (Nat.lt_succ_iff.mp hj) ?_, hjk⟩
          rintro rfl
          exact hn hjk

/-- **Freeing all frames of a row but some of the first takes the others back.** -/
theorem free_allocRow (physMem : ℕ → Byte) {m : ℕ} (hm : 0 < m) (n k : ℕ) :
    (List.range n).foldl (fun fr j => freeFrame fr
        (((BitVec.ofInt 32 (allocResult physMem (m + j))).setWidth 20).setWidth 32))
        (allocRow physMem (m + n)) k =
      allocRow physMem m k := by
  rw [foldl_freeFrame_apply fun j =>
    ((BitVec.ofInt 32 (allocResult physMem (m + j))).setWidth 20).setWidth 32]
  by_cases hdata : ∃ j < n, allocResult physMem (m + j) = k
  · obtain ⟨j, hj, hjk⟩ := hdata
    obtain ⟨hgt, hlt⟩ := numPagKernel_lt_of_allocResult hjk (by omega)
    rw [if_pos ⟨hgt, hlt, j, hj, (frame_of_allocResult physMem (m + j) hlt).mpr hjk⟩]
    -- before the data pages it was as before the row, that is free
    rw [allocRow_of_ne fun i hi hik => ?_, free_of_allocResult hjk]
    have hij := allocResult_inj hik hjk
    omega
  · have hskip : ∀ j < n, allocResult (allocRow physMem m) j ≠ k := fun j hj hjk =>
      hdata ⟨j, hj, by rw [← allocResult_add, hjk]⟩
    rw [if_neg, allocRow_add, allocRow_of_ne hskip]
    rintro ⟨-, hlt, j, hj, hjk⟩
    exact hdata ⟨j, hj, (frame_of_allocResult physMem (m + j) hlt).mp hjk⟩

/-! ## Tables -/

namespace Paging

/-- A row of pages of a task, all of one kind. -/
def pageRow (t base n : ℕ) (entry : DWord → PageTableEntry) :
    List ((ℕ × ℕ) × (DWord → PageTableEntry)) :=
  (List.range n).map fun pag => ((t, base + pag), entry)

theorem setUserPages_eq (t : ℕ) (p : Paging) :
    p.setUserPages t = (p.mapAll (pageRow t pagLogInitCode numPagCode codeEntry)).mapAll
      (pageRow t pagLogInitData numPagData dataEntry) :=
  List.foldl_append

section PageRow

variable (p : Paging) (t base : ℕ) (entry : DWord → PageTableEntry)

theorem mapAll_pageRow_succ (n : ℕ) :
    p.mapAll (pageRow t base (n + 1) entry) =
      (p.mapAll (pageRow t base n entry)).mapPage entry (t, base + n) := by
  rw [pageRow, List.range_succ, List.map_append, List.map_singleton, mapAll_concat]
  rfl

theorem mapAll_pageRow_physMem (n : ℕ) :
    (p.mapAll (pageRow t base n entry)).physMem = allocRow p.physMem n := by
  induction n with
  | zero => rfl
  | succ n ih => rw [mapAll_pageRow_succ, mapPage, ih, allocRow_succ]

/-- A row of pages fills its slots, each with the result of its own allocation. -/
theorem mapAll_pageRow_table {n pag : ℕ} (hpag : pag < n) :
    (p.mapAll (pageRow t base n entry)).table (t, base + pag) =
      entry (BitVec.ofInt 32 (allocResult p.physMem pag)) := by
  induction n with
  | zero => exact absurd hpag (Nat.not_lt_zero pag)
  | succ n ih =>
      rw [mapAll_pageRow_succ, mapPage, mapAll_pageRow_physMem]
      dsimp only
      rcases Nat.lt_succ_iff_lt_or_eq.mp hpag with hlt | rfl
      · have hne : (t, base + pag) ≠ (t, base + n) := fun heq =>
          hlt.ne (Nat.add_left_cancel (Prod.mk.inj heq).2)
        rw [Function.update_of_ne hne, ih hlt]
      · rw [Function.update_self]
        rfl

/-- And it leaves the others alone. -/
theorem mapAll_pageRow_table_of_ne {n : ℕ} {slot : ℕ × ℕ}
    (hslot : ∀ pag < n, slot ≠ (t, base + pag)) :
    (p.mapAll (pageRow t base n entry)).table slot = p.table slot := by
  induction n with
  | zero => rfl
  | succ n ih =>
      rw [mapAll_pageRow_succ, mapPage]
      dsimp only
      rw [Function.update_of_ne (hslot n (Nat.lt_succ_self n))]
      exact ih fun pag hpag => hslot pag (Nat.lt_succ_of_lt hpag)

end PageRow

/-- The first rounds of the loop of `free_user_pages`. -/
def clearRow (t n : ℕ) (p : Paging) : Paging :=
  (List.range n).foldl (fun p pag => p.unmapPage (t, pagLogInitData + pag)) p

theorem freeUserPages_eq (t : ℕ) (p : Paging) : p.freeUserPages t = p.clearRow t numPagData :=
  rfl

theorem clearRow_succ (t n : ℕ) (p : Paging) :
    p.clearRow t (n + 1) = (p.clearRow t n).unmapPage (t, pagLogInitData + n) := by
  rw [clearRow, List.range_succ, List.foldl_append]
  rfl

/-- A row that is cleared is zero, and what lies outside of it is as before. -/
theorem clearRow_table (t n : ℕ) (p : Paging) (slot : ℕ × ℕ) :
    (p.clearRow t n).table slot =
      if ∃ pag < n, slot = (t, pagLogInitData + pag) then 0 else p.table slot := by
  induction n with
  | zero =>
      rw [if_neg]
      · rfl
      · rintro ⟨pag, hpag, -⟩
        exact absurd hpag (Nat.not_lt_zero pag)
  | succ n ih =>
      rw [clearRow_succ, unmapPage]
      dsimp only
      by_cases hslot : slot = (t, pagLogInitData + n)
      · rw [hslot, Function.update_self, if_pos ⟨n, Nat.lt_succ_self n, rfl⟩]
      · rw [Function.update_of_ne hslot, ih]
        refine if_congr ?_ rfl rfl
        constructor
        · rintro ⟨pag, hpag, heq⟩
          exact ⟨pag, Nat.lt_succ_of_lt hpag, heq⟩
        · rintro ⟨pag, hpag, heq⟩
          refine ⟨pag, lt_of_le_of_ne (Nat.lt_succ_iff.mp hpag) ?_, heq⟩
          rintro rfl
          exact hslot heq

theorem clearRow_table_of_ne {t n : ℕ} (p : Paging) {slot : ℕ × ℕ}
    (hslot : ∀ pag < n, slot ≠ (t, pagLogInitData + pag)) :
    (p.clearRow t n).table slot = p.table slot := by
  rw [clearRow_table, if_neg]
  rintro ⟨pag, hpag, heq⟩
  exact hslot pag hpag heq

/-- The frames that are freed are those of the entries before the loop. -/
theorem clearRow_physMem (t n : ℕ) (p : Paging) :
    (p.clearRow t n).physMem = (List.range n).foldl (fun m pag => freeFrame m
      ((pbaseAddr (p.table (t, pagLogInitData + pag))).setWidth 32)) p.physMem := by
  induction n with
  | zero => rfl
  | succ n ih =>
      have hentry : (p.clearRow t n).table (t, pagLogInitData + n) =
          p.table (t, pagLogInitData + n) := by
        refine p.clearRow_table_of_ne fun pag hpag heq => ?_
        exact hpag.ne' (Nat.add_left_cancel (Prod.mk.inj heq).2)
      rw [clearRow_succ, unmapPage, List.range_succ, List.foldl_append, ih, hentry]
      rfl

/-- **`free_user_pages` after `set_user_pages` takes all frames back but those of the
code pages.** -/
theorem giveBack_physMem (t : ℕ) (p : Paging) :
    ((p.setUserPages t).freeUserPages t).physMem = allocRow p.physMem numPagCode := by
  funext k
  rw [← free_allocRow p.physMem (by decide : 0 < numPagCode) numPagData k,
    freeUserPages_eq, clearRow_physMem, setUserPages_eq, mapAll_pageRow_physMem,
    mapAll_pageRow_physMem, ← allocRow_add]
  refine congrFun (List.foldl_ext _ _ _ fun m pag hpag => ?_) k
  rw [mapAll_pageRow_table _ _ _ _ (List.mem_range.mp hpag), mapAll_pageRow_physMem,
    allocResult_add, userEntry_dataEntry.pbaseAddr]

/-- The entries of the data pages are clear after the two. -/
theorem giveBack_table_data (t : ℕ) (p : Paging) {pag : ℕ} (hpag : pag < numPagData) :
    ((p.setUserPages t).freeUserPages t).table (t, pagLogInitData + pag) = 0 := by
  rw [freeUserPages_eq, clearRow_table, if_pos ⟨pag, hpag, rfl⟩]

/-- Those of the code pages stay as `set_user_pages` has left them. -/
theorem giveBack_table_code (t : ℕ) (p : Paging) {pag : ℕ} (hpag : pag < numPagCode) :
    (p.setUserPages t).table (t, pagLogInitCode + pag) =
        codeEntry (BitVec.ofInt 32 (allocResult p.physMem pag)) ∧
      ((p.setUserPages t).freeUserPages t).table (t, pagLogInitCode + pag) =
        (p.setUserPages t).table (t, pagLogInitCode + pag) := by
  have hne : ∀ j < numPagData, (t, pagLogInitCode + pag) ≠ (t, pagLogInitData + j) := by
    intro j hj heq
    have hnum := (Prod.mk.inj heq).2
    rw [pagLogInitCode] at hnum
    omega
  rw [freeUserPages_eq, clearRow_table_of_ne _ hne, setUserPages_eq,
    mapAll_pageRow_table_of_ne _ _ _ _ hne, mapAll_pageRow_table _ _ _ _ hpag]
  exact ⟨rfl, rfl⟩

/-- Outside of the user's pages nothing changes. -/
theorem giveBack_table_of_ne {t : ℕ} (p : Paging) {slot : ℕ × ℕ}
    (hslot : ∀ k, pagLogInitData ≤ k → k < pagLogInitCode + numPagCode → slot ≠ (t, k)) :
    ((p.setUserPages t).freeUserPages t).table slot = p.table slot := by
  have hcode : ∀ pag < numPagCode, slot ≠ (t, pagLogInitCode + pag) := fun pag hpag =>
    hslot _ (by simp only [pagLogInitCode]; omega) (by omega)
  have hdata : ∀ pag < numPagData, slot ≠ (t, pagLogInitData + pag) := fun pag hpag =>
    hslot _ (by omega) (by simp only [pagLogInitCode]; omega)
  rw [freeUserPages_eq, clearRow_table_of_ne _ hdata, setUserPages_eq,
    mapAll_pageRow_table_of_ne _ _ _ _ hdata, mapAll_pageRow_table_of_ne _ _ _ _ hcode]

end Paging

/-! ## Memory -/

section Memory

variable {L : Layout} {s : Mm} {t : ℕ}

/-- A byte outside of the words that hold the entries of a task's user pages. -/
def OutsideUserSlots (L : Layout) (t : ℕ) (b : Addr) : Prop :=
  ∀ k, pagLogInitData ≤ k → k < pagLogInitCode + numPagCode →
    4 ≤ (b - entryAddr (L.tableAddr t) k).toNat

theorem setUserPages_mem_apply (h : s.Linked L) (ht : t < nrTasks) {b : Addr}
    (hb : OutsideUserSlots L t b) : (setUserPages s (L.taskAddr t)).mem b = s.mem b := by
  rw [setUserPages, h.table t ht]
  refine List.foldlRecOn (motive := fun s' : Mm => s'.mem b = s.mem b) _ _ ?_
    fun s' hs' pag hpag => ?_
  · refine List.foldlRecOn (motive := fun s' : Mm => s'.mem b = s.mem b) _ _ rfl
      fun s' hs' pag hpag => ?_
    have hpag := List.mem_range.mp hpag
    rw [setCodePage, ← hs']
    simp only [Bytes.store_modify]
    exact Bytes.write_apply_of_le _ _ _ (hb _ (by simp only [pagLogInitCode]; omega) (by omega))
  · have hpag := List.mem_range.mp hpag
    rw [setDataPage, ← hs']
    simp only [Bytes.store_modify]
    exact Bytes.write_apply_of_le _ _ _ (hb _ (by omega) (by simp only [pagLogInitCode]; omega))

theorem freeUserPages_mem_apply (h : s.Linked L) (ht : t < nrTasks) {b : Addr}
    (hb : OutsideUserSlots L t b) : (freeUserPages s (L.taskAddr t)).mem b = s.mem b := by
  rw [freeUserPages, h.table t ht]
  refine List.foldlRecOn (motive := fun s' : Mm => s'.mem b = s.mem b) _ _ rfl
    fun s' hs' pag hpag => ?_
  have hpag := List.mem_range.mp hpag
  rw [freeDataPage, ← hs']
  exact Bytes.write_apply_of_le _ _ _ (hb _ (by omega) (by simp only [pagLogInitCode]; omega))

/-- Where the data pages are clear already, `free_user_pages` does nothing. -/
theorem freeUserPages_of_clear
    (hclear : ∀ pag < numPagData, s.entry L t (pagLogInitData + pag) = 0) :
    freeUserPages s (L.taskAddr t) = s := by
  rw [freeUserPages]
  refine List.foldlRecOn (motive := fun s' => s' = s) _ _ rfl fun s' hs' pag hpag => ?_
  subst hs'
  have hzero := hclear pag (List.mem_range.mp hpag)
  rw [Mm.entry] at hzero
  have hignored : freeFrame s'.physMem ((pbaseAddr 0).setWidth 32) = s'.physMem := by
    rw [freeFrame, if_neg (by decide)]
  rw [freeDataPage, hzero, hignored, Bytes.store_of_load_eq hzero]

end Memory

/-- What `set_user_pages` for a task, from `s` to `s'`, and then `free_user_pages`, from
`s'` to `s''`, leave. -/
structure GivenBack (L : Layout) (t : ℕ) (s s' s'' : Mm) : Prop where
  /-- The frames of the code pages are used. -/
  code_frames : ∀ pag < numPagCode, ∀ f : ℕ, allocResult s.physMem pag = f →
    s''.physMem f = usedFrameMark
  /-- The other frames are as before. -/
  frames : ∀ f : ℕ, (∀ pag < numPagCode, allocResult s.physMem pag ≠ f) →
    s''.physMem f = s.physMem f
  data : ∀ pag < numPagData, s''.entry L t (pagLogInitData + pag) = 0
  code : ∀ pag < numPagCode,
    s'.entry L t (pagLogInitCode + pag) =
        codeEntry (BitVec.ofInt 32 (allocResult s.physMem pag)) ∧
      s''.entry L t (pagLogInitCode + pag) = s'.entry L t (pagLogInitCode + pag)
  others : ∀ t' < nrTasks, ∀ k < totalPages,
    (t' = t → k < pagLogInitData ∨ pagLogInitCode + numPagCode ≤ k) →
    s''.entry L t' k = s.entry L t' k
  /-- Nothing else in memory changes, the directories included. -/
  mem : ∀ b, OutsideUserSlots L t b → s''.mem b = s.mem b
  again : freeUserPages s'' (L.taskAddr t) = s''

/-- The two calls in any state whose directories lead to the tables. -/
theorem givenBack_of_refines {L : Layout} {s : Mm} {p : Paging} (h : Refines L s p) {t : ℕ}
    (ht : t < nrTasks) :
    GivenBack L t s (setUserPages s (L.taskAddr t))
      (freeUserPages (setUserPages s (L.taskAddr t)) (L.taskAddr t)) := by
  have h' := refines_setUserPages h ht
  have h'' := refines_freeUserPages h' ht
  have hdata : ∀ pag < numPagData,
      (freeUserPages (setUserPages s (L.taskAddr t)) (L.taskAddr t)).entry L t
        (pagLogInitData + pag) = 0 := by
    intro pag hpag
    have hk : pagLogInitData + pag < totalPages :=
      (Nat.add_lt_add_left hpag _).trans (by decide)
    rw [h''.entry ht hk, Paging.giveBack_table_data t p hpag]
  have hphys : (freeUserPages (setUserPages s (L.taskAddr t)) (L.taskAddr t)).physMem =
      allocRow s.physMem numPagCode := by
    rw [h''.physMem, h.physMem, Paging.giveBack_physMem]
  -- bytemap and entries are looked at as maps, the rest of memory by frame lemmas
  constructor
  · intro pag hpag f hf
    rw [hphys]
    exact allocRow_of_allocResult hf hpag
  · intro f hf
    rw [hphys]
    exact allocRow_of_ne hf
  · exact hdata
  · intro pag hpag
    have hk : pagLogInitCode + pag < totalPages :=
      (Nat.add_lt_add_left hpag _).trans (by decide)
    rw [h''.entry ht hk, h'.entry ht hk, h.physMem]
    exact Paging.giveBack_table_code t p hpag
  · intro t' ht' k hk hout
    rw [h''.entry ht' hk, h.entry ht' hk]
    refine Paging.giveBack_table_of_ne p fun k' hge hlt heq => ?_
    obtain ⟨rfl, rfl⟩ := Prod.mk.inj heq
    rcases hout rfl with hbelow | habove <;> omega
  · intro b hb
    rw [freeUserPages_mem_apply h'.linked ht hb, setUserPages_mem_apply h.linked ht hb]
  · exact freeUserPages_of_clear hdata

/-! ## Runs -/

/-- The calls that change page tables or the bytemap after initialization. -/
inductive MmOp
  | user (op : UserOp)
  | setSsPag (t : Fin nrTasks) (page : Fin totalPages) (frame : DWord)
  | delSsPag (t : Fin nrTasks) (page : Fin totalPages)
  | frame (op : FrameOp)

/-- One call. -/
def mmStep (L : Layout) (s : Mm) : MmOp → Mm
  | .user op => userStep L s op
  | .setSsPag t page frame =>
      setSsPag s (getPT s (L.taskAddr t)) (BitVec.ofNat 32 page) frame
  | .delSsPag t page => delSsPag s (getPT s (L.taskAddr t)) (BitVec.ofNat 32 page)
  | .frame op => { s with physMem := frameStep s.physMem op }

private theorem toNat_page (page : Fin totalPages) :
    (BitVec.ofNat 32 page).toNat < totalPages := by
  rw [BitVec.toNat_ofNat]
  exact (Nat.mod_le _ _).trans_lt page.isLt

/-- Every call keeps the directories and leads from tables to tables. -/
theorem exists_refines_mmStep {L : Layout} {s : Mm} (h : ∃ p, Refines L s p) (op : MmOp) :
    ∃ p, Refines L (mmStep L s op) p := by
  obtain ⟨p, hp⟩ := h
  cases op with
  | user op => exact ⟨_, refines_userStep hp op⟩
  | setSsPag t page frame => exact ⟨_, refines_setSsPag hp t.isLt (toNat_page page) frame⟩
  | delSsPag t page => exact ⟨_, refines_delSsPag hp t.isLt (toNat_page page)⟩
  | frame op => exact ⟨_, hp.linked.congr (fun _ _ => rfl) (fun _ _ => rfl), rfl⟩

/-- **User pages are given back** in every state that a run of calls reaches, however
many frames are left there. -/
theorem giveBack_run (L : Layout) (s₀ : Mm) (ops : List MmOp) (t : Fin nrTasks) :
    GivenBack L t (ops.foldl (mmStep L) (boot L s₀))
      (setUserPages (ops.foldl (mmStep L) (boot L s₀)) (L.taskAddr t))
      (freeUserPages (setUserPages (ops.foldl (mmStep L) (boot L s₀)) (L.taskAddr t))
        (L.taskAddr t)) := by
  have hreach : ∃ p, Refines L (ops.foldl (mmStep L) (boot L s₀)) p :=
    List.foldlRecOn (motive := fun s => ∃ p, Refines L s p) ops _ ⟨_, refines_boot L s₀⟩
      fun _ h op _ => exists_refines_mmStep h op
  obtain ⟨p, hp⟩ := hreach
  exact givenBack_of_refines hp t.isLt

end Zeos
