import Mathlib.Data.Finset.Card
import Zeos.Machine.Run
import Zeos.Mm

/-!
# Page tables as maps

What the functions of `mm.c` are for is easier to say without directories and
addresses: there is one table of entries for each task and one bytemap of frames.
`Paging` is that view, with an operation for each function, and `Refines` relates
it to memory: every task's directory leads to its own table (`Mm.Linked`), and
the words of that table are the entries.

Each function of `mm.c` refines its operation (`refines_setUserPages` and so on),
and initialization establishes the relation from any memory (`refines_boot`).
Properties of runs are then proved about `Paging`.

`Linked` is the load-bearing part of `Refines`, and it is an invariant: no function of
`mm.c` stores into a directory after `init_dir_pages`, and all stores of `set_ss_pag` go
to the table that the directory leads to.  Initialization needs no hypothesis on memory,
because each of its loops writes every word that the relation is about.
`ownTables_allocateDIR` is the part of this that concerns the directories alone: any order
of `allocate_DIR` gives every task its own.
-/

namespace Zeos

open Machine PageTableEntry

/-! ## Entries -/

/-- The entry of a kernel page. -/
def kernelEntry (i : ℕ) : PageTableEntry :=
  setPresent (setRw (setPbaseAddr 0 (BitVec.ofNat 32 i)) true) true

/-- The entry of a user page that is not writable. -/
def codeEntry (frame : DWord) : PageTableEntry :=
  setPresent (setUser (setPbaseAddr 0 frame) true) true

/-- The entry of a user page that is writable. -/
def dataEntry (frame : DWord) : PageTableEntry :=
  setPresent (setRw (setUser (setPbaseAddr 0 frame) true) true) true

/-! ## Tables -/

/-- The frames and the tables, a slot being a task and a logical page. -/
structure Paging where
  physMem : ℕ → Byte
  table : ℕ × ℕ → PageTableEntry

namespace Paging

/-- Allocate a frame and put it into a slot. -/
def mapPage (entry : DWord → PageTableEntry) (slot : ℕ × ℕ) (p : Paging) : Paging where
  physMem := (allocFrame p.physMem).2
  table := Function.update p.table slot
    (entry (BitVec.ofInt 32 (allocFrame p.physMem).1))

/-- Free the frame of a slot and clear the slot. -/
def unmapPage (slot : ℕ × ℕ) (p : Paging) : Paging where
  physMem := freeFrame p.physMem ((pbaseAddr (p.table slot)).setWidth 32)
  table := Function.update p.table slot 0

/-- Set a slot. -/
def setEntry (slot : ℕ × ℕ) (e : PageTableEntry) (p : Paging) : Paging :=
  { p with table := Function.update p.table slot e }

/-- The slots that `set_user_pages` fills for a task, in its order, with the
kind of entry for each. -/
def userSlots (t : ℕ) : List ((ℕ × ℕ) × (DWord → PageTableEntry)) :=
  (List.range numPagCode).map (fun pag => ((t, pagLogInitCode + pag), codeEntry)) ++
    (List.range numPagData).map fun pag => ((t, pagLogInitData + pag), dataEntry)

/-- `set_user_pages`: every page of the task gets a frame, in order. -/
def setUserPages (t : ℕ) (p : Paging) : Paging :=
  (userSlots t).foldl (fun p slot => p.mapPage slot.2 slot.1) p

/-- `free_user_pages`: the data pages are taken from the task, those of its code are not. -/
def freeUserPages (t : ℕ) (p : Paging) : Paging :=
  (List.range numPagData).foldl (fun p pag => p.unmapPage (t, pagLogInitData + pag)) p

/-- The tables after initialization: the kernel's pages but the first, for every
task. -/
def initial (physMem : ℕ → Byte) : Paging where
  physMem := initFrames physMem
  table slot :=
    if slot.1 < nrTasks ∧ 1 ≤ slot.2 ∧ slot.2 < numPagKernel then kernelEntry slot.2
    else 0

theorem initial_physMem (physMem : ℕ → Byte) :
    (initial physMem).physMem = initFrames physMem := by
  rw [initial]

end Paging

/-! ## Addresses -/

namespace Layout

variable (L : Layout)

private theorem entryAddr_pageAt_toNat {base : Addr} {t k : ℕ}
    (hfits : base.toNat + nrTasks * pageSize ≤ 2 ^ 32)
    (ht : t < nrTasks) (hk : k < totalPages) :
    (entryAddr (pageAt base t) k).toNat = base.toNat + 4096 * t + 4 * k := by
  simp only [nrTasks, pageSize, totalPages] at hfits ht hk
  simp only [entryAddr, pageAt, pageSize]
  bv_omega

theorem entryAddr_tableAddr_toNat {t k : ℕ} (ht : t < nrTasks) (hk : k < totalPages) :
    (entryAddr (L.tableAddr t) k).toNat = L.pagusrTable.toNat + 4096 * t + 4 * k :=
  entryAddr_pageAt_toNat L.pagusrTable_fits ht hk

theorem entryAddr_dirAddr_toNat {t k : ℕ} (ht : t < nrTasks) (hk : k < totalPages) :
    (entryAddr (L.dirAddr t) k).toNat = L.dirPages.toNat + 4096 * t + 4 * k :=
  entryAddr_pageAt_toNat L.dirPages_fits ht hk

theorem dirField_taskAddr_toNat {t : ℕ} (ht : t < nrTasks) :
    (dirField (L.taskAddr t)).toNat = L.task.toNat + 4096 * t + 4 :=
  entryAddr_pageAt_toNat (k := 1) L.task_fits ht (by decide)

theorem dirAddr_toNat {t : ℕ} (ht : t < nrTasks) :
    (L.dirAddr t).toNat = L.dirPages.toNat + 4096 * t := by
  have h := L.entryAddr_dirAddr_toNat ht (k := 0) (by decide)
  rwa [entryAddr, Nat.mul_zero, BitVec.add_zero] at h

theorem entryAddr_tableAddr_dvd {t k : ℕ} (ht : t < nrTasks) (hk : k < totalPages) :
    4 ∣ (entryAddr (L.tableAddr t) k).toNat := by
  have h := L.pagusrTable_aligned
  rw [L.entryAddr_tableAddr_toNat ht hk]
  simp only [pageSize] at h
  omega

theorem dirAddr_dvd {t : ℕ} (ht : t < nrTasks) : 4 ∣ (L.dirAddr t).toNat := by
  have h := L.dirPages_aligned
  rw [L.dirAddr_toNat ht]
  simp only [pageSize] at h
  omega

theorem dirField_taskAddr_dvd {t : ℕ} (ht : t < nrTasks) :
    4 ∣ (dirField (L.taskAddr t)).toNat := by
  have h := L.task_aligned
  rw [L.dirField_taskAddr_toNat ht]
  simp only [pageSize] at h
  omega

/-- Different slots have different addresses. -/
theorem entryAddr_tableAddr_inj {t k t' k' : ℕ} (ht : t < nrTasks)
    (hk : k < totalPages) (ht' : t' < nrTasks) (hk' : k' < totalPages)
    (h : entryAddr (L.tableAddr t) k = entryAddr (L.tableAddr t') k') :
    t = t' ∧ k = k' := by
  have heq := congrArg BitVec.toNat h
  rw [L.entryAddr_tableAddr_toNat ht hk, L.entryAddr_tableAddr_toNat ht' hk'] at heq
  simp only [totalPages] at hk hk'
  omega

/-- The directories lie apart from the tables. -/
theorem dirAddr_ne_entryAddr {i t k : ℕ} (hi : i < nrTasks) (ht : t < nrTasks)
    (hk : k < totalPages) : L.dirAddr i ≠ entryAddr (L.tableAddr t) k := by
  intro h
  have heq := congrArg BitVec.toNat h
  rw [L.dirAddr_toNat hi, L.entryAddr_tableAddr_toNat ht hk] at heq
  have hapart := L.dirPages_pagusrTable
  simp only [nrTasks, totalPages, pageSize] at hi ht hk hapart
  omega

/-- The tasks lie apart from the tables. -/
theorem dirField_ne_entryAddr {i t k : ℕ} (hi : i < nrTasks) (ht : t < nrTasks)
    (hk : k < totalPages) :
    dirField (L.taskAddr i) ≠ entryAddr (L.tableAddr t) k := by
  intro h
  have heq := congrArg BitVec.toNat h
  rw [L.dirField_taskAddr_toNat hi, L.entryAddr_tableAddr_toNat ht hk] at heq
  have hapart := L.task_pagusrTable
  simp only [nrTasks, totalPages, pageSize] at hi ht hk hapart
  omega

/-- The tasks lie apart from the directories. -/
theorem dirField_ne_dirAddr {i j : ℕ} (hi : i < nrTasks) (hj : j < nrTasks) :
    dirField (L.taskAddr i) ≠ L.dirAddr j := by
  intro h
  have heq := congrArg BitVec.toNat h
  rw [L.dirField_taskAddr_toNat hi, L.dirAddr_toNat hj] at heq
  have hapart := L.task_dirPages
  simp only [nrTasks, pageSize] at hi hj hapart
  omega

/-- The frame number of a table, shifted back, is its address. -/
theorem tableAddr_of_frame {t : ℕ} (ht : t < nrTasks) :
    ((L.tableAddr t >>> 12).setWidth 20).setWidth 32 <<< 12 = L.tableAddr t := by
  have haligned : 4096 ∣ (L.tableAddr t).toNat := by
    have h := L.pagusrTable_aligned
    have h' := L.entryAddr_tableAddr_toNat ht (k := 0) (by decide)
    rw [entryAddr, Nat.mul_zero, BitVec.add_zero] at h'
    simp only [pageSize] at h
    omega
  have hlt := (L.tableAddr t).isLt
  apply BitVec.eq_of_toNat_eq
  simp only [BitVec.toNat_shiftLeft, BitVec.toNat_setWidth, BitVec.toNat_ushiftRight,
    Nat.shiftRight_eq_div_pow, Nat.shiftLeft_eq]
  omega

end Layout

/-! ## The relation -/

/-- Every task's directory leads to the task's own table. -/
structure Mm.Linked (L : Layout) (s : Mm) : Prop where
  dir : ∀ i < nrTasks, getDIR s (L.taskAddr i) = L.dirAddr i
  table : ∀ i < nrTasks, getPT s (L.taskAddr i) = L.tableAddr i

/-- The entries of the tables in memory. -/
def Mm.paging (L : Layout) (s : Mm) : Paging where
  physMem := s.physMem
  table slot :=
    if slot.1 < nrTasks ∧ slot.2 < totalPages then
      s.mem.load (entryAddr (L.tableAddr slot.1) slot.2)
    else 0

/-- Memory `s` holds the tables `p`. -/
structure Refines (L : Layout) (s : Mm) (p : Paging) : Prop where
  linked : s.Linked L
  paging : s.paging L = p

/-- The bytemap is that of memory. -/
theorem Refines.physMem {L : Layout} {s : Mm} {p : Paging} (h : Refines L s p) :
    s.physMem = p.physMem := by
  rw [← h.paging]
  rfl

/-- Only the words of the tasks and the directories matter for the links. -/
theorem Mm.Linked.congr {L : Layout} {s s' : Mm} (h : s.Linked L)
    (hfield : ∀ i < nrTasks, s'.mem.load (dirField (L.taskAddr i)) =
      s.mem.load (dirField (L.taskAddr i)))
    (hdir : ∀ i < nrTasks, s'.mem.load (L.dirAddr i) = s.mem.load (L.dirAddr i)) :
    s'.Linked L := by
  have hget : ∀ i < nrTasks, getDIR s' (L.taskAddr i) = L.dirAddr i := fun i hi => by
    rw [getDIR, hfield i hi]
    exact h.dir i hi
  refine ⟨hget, fun i hi => ?_⟩
  rw [getPT, hget i hi, hdir i hi, ← h.dir i hi]
  exact h.table i hi

/-- **One store into a table is one update of a slot.** -/
theorem Refines.store {L : Layout} {s : Mm} {p : Paging} (h : Refines L s p)
    {t k : ℕ} (ht : t < nrTasks) (hk : k < totalPages) (e : PageTableEntry)
    (physMem : ℕ → Byte) :
    Refines L
      { physMem := physMem, mem := s.mem.store (entryAddr (L.tableAddr t) k) e }
      { physMem := physMem, table := Function.update p.table (t, k) e } := by
  -- words that are aligned and different do not overlap
  have hload : ∀ b, 4 ∣ b.toNat → b ≠ entryAddr (L.tableAddr t) k →
      (s.mem.store (entryAddr (L.tableAddr t) k) e).load b = s.mem.load b :=
    fun b hb hne => by
      rw [Bytes.load_store_aligned _ _ (L.entryAddr_tableAddr_dvd ht hk) hb, if_neg hne]
  constructor
  · exact h.linked.congr
      (fun i hi => hload _ (L.dirField_taskAddr_dvd hi) (L.dirField_ne_entryAddr hi ht hk))
      (fun i hi => hload _ (L.dirAddr_dvd hi) (L.dirAddr_ne_entryAddr hi ht hk))
  · rw [← h.paging]
    simp only [Mm.paging, Paging.mk.injEq, true_and]
    funext slot
    by_cases hslot : slot = (t, k)
    · subst hslot
      rw [Function.update_self, if_pos ⟨ht, hk⟩, Bytes.load_store_self]
    · rw [Function.update_of_ne hslot]
      split
      · next hin =>
          refine hload _ (L.entryAddr_tableAddr_dvd hin.1 hin.2) fun heq => hslot ?_
          obtain ⟨h₁, h₂⟩ := L.entryAddr_tableAddr_inj hin.1 hin.2 ht hk heq
          exact Prod.ext h₁ h₂
      · rfl

/-- The entry of a slot, read from memory. -/
theorem Refines.load {L : Layout} {s : Mm} {p : Paging} (h : Refines L s p)
    {t k : ℕ} (ht : t < nrTasks) (hk : k < totalPages) :
    s.mem.load (entryAddr (L.tableAddr t) k) = p.table (t, k) := by
  rw [← h.paging]
  exact (if_pos ⟨ht, hk⟩).symm

/-! ## The operations -/

section Operations

variable {L : Layout} {s : Mm} {p : Paging} {t : ℕ}

private theorem refines_setCodePage (h : Refines L s p) (ht : t < nrTasks) {pag : ℕ}
    (hpag : pag < numPagCode) :
    Refines L (setCodePage (L.tableAddr t) s pag)
      (p.mapPage codeEntry (t, pagLogInitCode + pag)) := by
  have hk : pagLogInitCode + pag < totalPages := by
    simp only [numPagCode] at hpag
    simp only [pagLogInitCode, pagLogInitData, lUserStart, numPagData, totalPages]
    omega
  have hstore := h.store ht hk
    (codeEntry (BitVec.ofInt 32 (allocFrame p.physMem).1)) (allocFrame p.physMem).2
  simpa only [setCodePage, Bytes.store_modify, h.physMem, Paging.mapPage, codeEntry]
    using hstore

private theorem pagLogInitData_add_lt {pag : ℕ} (hpag : pag < numPagData) :
    pagLogInitData + pag < totalPages := by
  simp only [numPagData] at hpag
  simp only [pagLogInitData, lUserStart, totalPages]
  omega

private theorem refines_setDataPage (h : Refines L s p) (ht : t < nrTasks) {pag : ℕ}
    (hpag : pag < numPagData) :
    Refines L (setDataPage (L.tableAddr t) s pag)
      (p.mapPage dataEntry (t, pagLogInitData + pag)) := by
  have hstore := h.store ht (pagLogInitData_add_lt hpag)
    (dataEntry (BitVec.ofInt 32 (allocFrame p.physMem).1)) (allocFrame p.physMem).2
  simpa only [setDataPage, Bytes.store_modify, h.physMem, Paging.mapPage, dataEntry]
    using hstore

theorem refines_setUserPages (h : Refines L s p) (ht : t < nrTasks) :
    Refines L (setUserPages s (L.taskAddr t)) (p.setUserPages t) := by
  rw [setUserPages, h.linked.table t ht, Paging.setUserPages, Paging.userSlots,
    List.foldl_append, List.foldl_map, List.foldl_map]
  refine List.foldl_rel (r := Refines L) ?_ fun pag hpag _ _ hr =>
    refines_setDataPage hr ht (List.mem_range.mp hpag)
  exact List.foldl_rel (r := Refines L) h fun pag hpag _ _ hr =>
    refines_setCodePage hr ht (List.mem_range.mp hpag)

theorem refines_freeUserPages (h : Refines L s p) (ht : t < nrTasks) :
    Refines L (freeUserPages s (L.taskAddr t)) (p.freeUserPages t) := by
  rw [freeUserPages, h.linked.table t ht, Paging.freeUserPages]
  refine List.foldl_rel (r := Refines L) h fun pag hpag s p hr => ?_
  have hk := pagLogInitData_add_lt (List.mem_range.mp hpag)
  rw [freeDataPage, Paging.unmapPage, hr.load ht hk, hr.physMem]
  exact hr.store ht hk 0 _

theorem refines_setSsPag (h : Refines L s p) (ht : t < nrTasks) {page : DWord}
    (hpage : page.toNat < totalPages) (frame : DWord) :
    Refines L (setSsPag s (getPT s (L.taskAddr t)) page frame)
      (p.setEntry (t, page.toNat) (dataEntry frame)) := by
  rw [h.linked.table t ht]
  have hstore := h.store ht hpage (dataEntry frame) p.physMem
  simpa only [setSsPag, Bytes.store_modify, h.physMem, Paging.setEntry, dataEntry] using hstore

theorem refines_delSsPag (h : Refines L s p) (ht : t < nrTasks) {page : DWord}
    (hpage : page.toNat < totalPages) :
    Refines L (delSsPag s (getPT s (L.taskAddr t)) page)
      (p.setEntry (t, page.toNat) 0) := by
  rw [h.linked.table t ht, delSsPag, h.physMem]
  exact h.store ht hpage 0 _

end Operations

/-! ## Initialization -/

section Boot

variable (L : Layout)

/-- The initial entry of a logical page. -/
def initialEntry (k : ℕ) : PageTableEntry :=
  if 1 ≤ k ∧ k < numPagKernel then kernelEntry k else 0

private theorem initKernelPage_eq (table : Addr) (m : Bytes) (i : ℕ) :
    initKernelPage table m i = m.modify (entryAddr table i) fun e =>
      setPresent (setRw (setPbaseAddr e (BitVec.ofNat 32 i)) true) true := by
  simp only [initKernelPage, Bytes.modify_modify]

private theorem entries_pairwise {j : ℕ} (hj : j < nrTasks) {l : List ℕ}
    (hl : l.Pairwise (· < ·)) (hbound : ∀ k ∈ l, k < totalPages) :
    l.Pairwise fun k k' => entryAddr (L.tableAddr j) k ≠ entryAddr (L.tableAddr j) k' := by
  refine hl.imp_of_mem fun {k k'} hk hk' hlt heq => ?_
  have := (L.entryAddr_tableAddr_inj hj (hbound k hk) hj (hbound k' hk') heq).2
  omega

private theorem resetTable_lt : ∀ i ∈ List.range totalPages, i < totalPages :=
  fun _ hi => List.mem_range.mp hi

private theorem kernelTable_lt :
    ∀ i ∈ List.range' 1 (numPagKernel - 1), i < totalPages := by
  intro i hi
  have := List.mem_range'_1.mp hi
  simp only [numPagKernel, totalPages] at *
  omega

/-- A loop over entries of one table leaves the other tables alone. -/
private theorem load_foldl_entries_of_ne (f : ℕ → DWord → DWord) (l : List ℕ) (m : Bytes)
    (hl : ∀ i ∈ l, i < totalPages) {j t k : ℕ} (hj : j < nrTasks) (ht : t < nrTasks)
    (hk : k < totalPages) (hne : t ≠ j) :
    (l.foldl (fun m i => m.modify (entryAddr (L.tableAddr j) i) (f i)) m).load
      (entryAddr (L.tableAddr t) k) = m.load (entryAddr (L.tableAddr t) k) :=
  Bytes.load_foldl_modify_of_notMem _ _ (L.entryAddr_tableAddr_dvd ht hk) _ _
    (fun i hi => L.entryAddr_tableAddr_dvd hj (hl i hi))
    fun i hi heq => hne (L.entryAddr_tableAddr_inj ht hk hj (hl i hi) heq).1

/-- It changes each of its entries once, and no other entry of its table. -/
private theorem load_foldl_entries (f : ℕ → DWord → DWord) (l : List ℕ) (m : Bytes)
    (hl : ∀ i ∈ l, i < totalPages) (hlt : l.Pairwise (· < ·)) {t k : ℕ} (ht : t < nrTasks)
    (hk : k < totalPages) :
    (l.foldl (fun m i => m.modify (entryAddr (L.tableAddr t) i) (f i)) m).load
      (entryAddr (L.tableAddr t) k) =
        if k ∈ l then f k (m.load (entryAddr (L.tableAddr t) k))
        else m.load (entryAddr (L.tableAddr t) k) := by
  split
  · next hin =>
      exact Bytes.load_foldl_modify_of_mem (fun i => entryAddr (L.tableAddr t) i) _ _ _
        (fun i hi => L.entryAddr_tableAddr_dvd ht (hl i hi)) (entries_pairwise L ht hlt hl) hin
  · next hout =>
      refine Bytes.load_foldl_modify_of_notMem _ _ (L.entryAddr_tableAddr_dvd ht hk) _ _
        (fun i hi => L.entryAddr_tableAddr_dvd ht (hl i hi)) fun i hi heq => hout ?_
      rwa [(L.entryAddr_tableAddr_inj ht hk ht (hl i hi) heq).2]

/-- A round of `init_table_pages` sets up one table and no other. -/
theorem load_initTable (m : Bytes) {j t k : ℕ} (hj : j < nrTasks) (ht : t < nrTasks)
    (hk : k < totalPages) :
    (initTable L m j).load (entryAddr (L.tableAddr t) k) =
      if t = j then initialEntry k else m.load (entryAddr (L.tableAddr t) k) := by
  have hfun : initKernelPage (L.tableAddr j) = fun m i =>
      m.modify (entryAddr (L.tableAddr j) i) fun e =>
        setPresent (setRw (setPbaseAddr e (BitVec.ofNat 32 i)) true) true := by
    funext m i
    exact initKernelPage_eq _ m i
  simp only [initTable, hfun]
  unfold resetEntry
  split
  · next heq =>
      subst heq
      rw [load_foldl_entries L _ _ _ kernelTable_lt List.pairwise_lt_range' ht hk,
        load_foldl_entries L _ _ _ resetTable_lt List.pairwise_lt_range ht hk,
        if_pos (List.mem_range.mpr hk), initialEntry]
      refine if_congr ?_ rfl rfl
      rw [List.mem_range'_1]
      simp only [numPagKernel]
  · next hne =>
      rw [load_foldl_entries_of_ne L _ _ _ kernelTable_lt hj ht hk hne,
        load_foldl_entries_of_ne L _ _ _ resetTable_lt hj ht hk hne]

/-- `init_table_pages` sets up every table. -/
theorem load_initTablePages (s : Mm) {t k : ℕ} (ht : t < nrTasks) (hk : k < totalPages) :
    (initTablePages L s).mem.load (entryAddr (L.tableAddr t) k) = initialEntry k := by
  have hloop : ∀ (l : List ℕ) (m : Bytes), (∀ j ∈ l, j < nrTasks) →
      (l.foldl (initTable L) m).load (entryAddr (L.tableAddr t) k) =
        if t ∈ l then initialEntry k else m.load (entryAddr (L.tableAddr t) k) := by
    intro l
    induction l with
    | nil => intro m _; simp
    | cons j l ih =>
        intro m hl
        rw [List.foldl_cons, ih _ fun i hi => hl i (List.mem_cons_of_mem j hi),
          load_initTable L m (hl j List.mem_cons_self) ht hk]
        by_cases hmem : t ∈ l
        · rw [if_pos hmem, if_pos (List.mem_cons_of_mem j hmem)]
        · rw [if_neg hmem]
          by_cases htj : t = j
          · rw [if_pos htj, if_pos (htj ▸ List.mem_cons_self)]
          · rw [if_neg htj, if_neg (by simp [htj, hmem])]
  rw [initTablePages, hloop _ _ fun j hj => List.mem_range.mp hj,
    if_pos (List.mem_range.mpr ht)]

/-- The loop of `init_dir_pages` is a loop of stores. -/
private theorem initDirPage_eq :
    initDirPage L = fun m i =>
      m.modify (L.dirAddr i) fun _ => dataEntry (L.tableAddr i >>> 12) := by
  funext m i
  simp only [initDirPage, Bytes.store_modify, entryAddr, entryDirPages, Nat.mul_zero,
    BitVec.add_zero]
  rfl

private theorem dirs_pairwise :
    (List.range nrTasks).Pairwise fun i j => L.dirAddr i ≠ L.dirAddr j := by
  refine List.pairwise_lt_range.imp_of_mem fun {i j} hi hj hlt heq => ?_
  have h := congrArg BitVec.toNat heq
  rw [L.dirAddr_toNat (List.mem_range.mp hi), L.dirAddr_toNat (List.mem_range.mp hj)] at h
  omega

/-- Every directory leads to a table of its own. -/
theorem load_dirAddr_initDirPages (s : Mm) {i : ℕ} (hi : i < nrTasks) :
    (initDirPages L s).mem.load (L.dirAddr i) = dataEntry (L.tableAddr i >>> 12) := by
  rw [initDirPages, initDirPage_eq]
  exact Bytes.load_foldl_modify_of_mem (fun i => L.dirAddr i)
    (fun i _ => dataEntry (L.tableAddr i >>> 12)) _ _
    (fun i hi => L.dirAddr_dvd (List.mem_range.mp hi)) (dirs_pairwise L)
    (List.mem_range.mpr hi)

/-- `init_dir_pages` leaves the tables alone. -/
theorem load_entryAddr_initDirPages (s : Mm) {t k : ℕ} (ht : t < nrTasks)
    (hk : k < totalPages) :
    (initDirPages L s).mem.load (entryAddr (L.tableAddr t) k) =
      s.mem.load (entryAddr (L.tableAddr t) k) := by
  rw [initDirPages, initDirPage_eq]
  exact Bytes.load_foldl_modify_of_notMem _ _ (L.entryAddr_tableAddr_dvd ht hk) _ _
    (fun i hi => L.dirAddr_dvd (List.mem_range.mp hi))
    fun j hj => (L.dirAddr_ne_entryAddr (List.mem_range.mp hj) ht hk).symm

theorem allocateDIR_taskAddr (s : Mm) {i : ℕ} (hi : i < nrTasks) :
    allocateDIR L s (L.taskAddr i) =
      { s with mem := s.mem.modify (dirField (L.taskAddr i)) fun _ => L.dirAddr i } := by
  have hpos : ((L.taskAddr i - L.task) / BitVec.ofNat 32 pageSize).toNat = i := by
    simp only [nrTasks] at hi
    have hsub : L.taskAddr i - L.task = BitVec.ofNat 32 (4096 * i) := by
      simp only [Layout.taskAddr, pageAt, pageSize]
      bv_omega
    rw [hsub, BitVec.toNat_udiv, BitVec.toNat_ofNat, BitVec.toNat_ofNat, pageSize,
      Nat.mod_eq_of_lt (by omega), Nat.mod_eq_of_lt (by omega),
      Nat.mul_div_cancel_left i (by omega)]
  rw [allocateDIR, hpos]
  rfl

/-- `allocate_DIR` for the task of an index. -/
def allocateAt (s : Mm) (i : ℕ) : Mm := allocateDIR L s (L.taskAddr i)

theorem load_allocateAt (s : Mm) {i : ℕ} (hi : i < nrTasks) {b : Addr} (hb : 4 ∣ b.toNat) :
    (allocateAt L s i).mem.load b =
      if b = dirField (L.taskAddr i) then L.dirAddr i else s.mem.load b := by
  rw [allocateAt, allocateDIR_taskAddr L s hi]
  exact Bytes.load_store_aligned _ _ (L.dirField_taskAddr_dvd hi) hb

/-- The directory of the task of an index. -/
def dirAt (s : Mm) (i : ℕ) : Addr := getDIR s (L.taskAddr i)

/-- `allocate_DIR` gives a task the directory of its index, and the others none. -/
theorem dirAt_allocateAt (s : Mm) {i j : ℕ} (hi : i < nrTasks) (hj : j < nrTasks) :
    dirAt L (allocateAt L s i) j = if i = j then L.dirAddr i else dirAt L s j := by
  rw [dirAt, getDIR, load_allocateAt L s hi (L.dirField_taskAddr_dvd hj)]
  refine if_congr ⟨fun heq => ?_, fun heq => by rw [heq]⟩ rfl rfl
  have h := congrArg BitVec.toNat heq
  rw [L.dirField_taskAddr_toNat hi, L.dirField_taskAddr_toNat hj] at h
  omega

/-- In a run of `allocate_DIR`, a word that is not one of the tasks' directory fields
stays. -/
theorem load_foldl_allocateAt (s : Mm) {ts : List ℕ} (hts : ∀ i ∈ ts, i < nrTasks) {b : Addr}
    (hb : 4 ∣ b.toNat) (hne : ∀ i < nrTasks, b ≠ dirField (L.taskAddr i)) :
    (ts.foldl (allocateAt L) s).mem.load b = s.mem.load b := by
  refine List.foldlRecOn (motive := fun s' : Mm => s'.mem.load b = s.mem.load b) ts _ rfl ?_
  intro s' hs' i hi
  rw [load_allocateAt L s' (hts i hi) hb, if_neg (hne i (hts i hi)), hs']

/-- **A directory for every task, in any order, links each to its own table.** -/
theorem linked_foldl_allocateAt (s : Mm) {ts : List ℕ} (hts : ∀ i, i ∈ ts ↔ i < nrTasks) :
    (ts.foldl (allocateAt L) (initDirPages L s)).Linked L := by
  have hlt : ∀ i ∈ ts, i < nrTasks := fun i hi => (hts i).mp hi
  have hdir : ∀ i < nrTasks,
      getDIR (ts.foldl (allocateAt L) (initDirPages L s)) (L.taskAddr i) = L.dirAddr i := by
    intro i hi
    obtain ⟨j, hj, hji⟩ := latest_of_mem id ((hts i).mpr hi)
    rw [id_eq, id_eq] at hji
    rw [id_eq, hji] at hj
    have hrun : dirAt L (ts.foldl (allocateAt L) (initDirPages L s)) i =
        (latest id ts i).elim (dirAt L (initDirPages L s) i) L.dirAddr :=
      obs_foldl_latest (allocateAt L) (fun s j hj => dirAt_allocateAt L s hj hi) _ hlt
    rw [hj] at hrun
    exact hrun
  refine ⟨hdir, fun i hi => ?_⟩
  rw [getPT, hdir i hi,
    load_foldl_allocateAt L _ hlt (L.dirAddr_dvd hi) fun j hj => (L.dirField_ne_dirAddr hj hi).symm,
    load_dirAddr_initDirPages L s hi, dataEntry, pbaseAddr_setPresent, pbaseAddr_setRw,
    pbaseAddr_setUser, pbaseAddr_setPbaseAddr]
  exact L.tableAddr_of_frame hi

private theorem foldl_allocateAt_physMem (s : Mm) (ts : List ℕ) :
    (ts.foldl (allocateAt L) s).physMem = s.physMem :=
  List.foldlRecOn (motive := fun s' : Mm => s'.physMem = s.physMem) ts _ rfl
    fun _ hs' _ _ => hs'

private theorem initTablePages_physMem (s : Mm) :
    (initTablePages L s).physMem = s.physMem := by
  rw [initTablePages]

private theorem initDirPages_physMem (s : Mm) : (initDirPages L s).physMem = s.physMem := by
  rw [initDirPages]

private theorem boot_eq (s : Mm) :
    boot L s = (List.range nrTasks).foldl (allocateAt L) (initDirPages L
      { physMem := initFrames s.physMem, mem := (initTablePages L s).mem }) := by
  have hfun : (fun s i => allocateDIR L s (L.taskAddr i)) = allocateAt L := rfl
  rw [boot, hfun, initTablePages_physMem]

private theorem boot_physMem (s : Mm) : (boot L s).physMem = initFrames s.physMem := by
  rw [boot_eq, foldl_allocateAt_physMem, initDirPages_physMem]

private theorem load_tableAddr_boot (s : Mm) {t k : ℕ} (ht : t < nrTasks)
    (hk : k < totalPages) :
    (boot L s).mem.load (entryAddr (L.tableAddr t) k) = initialEntry k := by
  rw [boot_eq, load_foldl_allocateAt L _ (fun i hi => List.mem_range.mp hi)
      (L.entryAddr_tableAddr_dvd ht hk) fun j hj => (L.dirField_ne_entryAddr hj ht hk).symm,
    load_entryAddr_initDirPages L _ ht hk, load_initTablePages L s ht hk]

/-- `init_table_pages` stores into the tables alone. -/
theorem load_initTablePages_of_ne (s : Mm) {b : Addr} (hb : 4 ∣ b.toNat)
    (hne : ∀ t < nrTasks, ∀ k < totalPages, b ≠ entryAddr (L.tableAddr t) k) :
    (initTablePages L s).mem.load b = s.mem.load b := by
  -- both loops over a table store into its words alone
  have hround : ∀ (f : ℕ → DWord → DWord) (l : List ℕ) (m : Bytes) {j : ℕ}, j < nrTasks →
      (∀ i ∈ l, i < totalPages) →
      (l.foldl (fun m i => m.modify (entryAddr (L.tableAddr j) i) (f i)) m).load b = m.load b :=
    fun f l m j hj hl => Bytes.load_foldl_modify_of_notMem _ _ hb _ _
      (fun i hi => L.entryAddr_tableAddr_dvd hj (hl i hi)) fun i hi => hne j hj i (hl i hi)
  have hfun : ∀ j, initKernelPage (L.tableAddr j) = fun m i =>
      m.modify (entryAddr (L.tableAddr j) i) fun e =>
        setPresent (setRw (setPbaseAddr e (BitVec.ofNat 32 i)) true) true :=
    fun j => funext fun m => funext fun i => initKernelPage_eq _ m i
  have hloop : ∀ (l : List ℕ) (m : Bytes), (∀ j ∈ l, j < nrTasks) →
      (l.foldl (initTable L) m).load b = m.load b := by
    intro l
    induction l with
    | nil => intro m _; rfl
    | cons j l ih =>
        intro m hl
        have hj := hl j List.mem_cons_self
        rw [List.foldl_cons, ih _ fun i hi => hl i (List.mem_cons_of_mem j hi), initTable, hfun,
          hround _ _ _ hj kernelTable_lt]
        unfold resetEntry
        rw [hround _ _ _ hj resetTable_lt]
  rw [initTablePages, hloop _ _ fun j hj => List.mem_range.mp hj]

/-- `init_dir_pages` stores into the first entries of the directories alone. -/
theorem load_initDirPages_of_ne (s : Mm) {b : Addr} (hb : 4 ∣ b.toNat)
    (hne : ∀ i < nrTasks, b ≠ L.dirAddr i) :
    (initDirPages L s).mem.load b = s.mem.load b := by
  rw [initDirPages, initDirPage_eq]
  exact Bytes.load_foldl_modify_of_notMem _ _ hb _ _
    (fun i hi => L.dirAddr_dvd (List.mem_range.mp hi)) fun j hj => hne j (List.mem_range.mp hj)

/-- Initialization leaves every directory leading to its table. -/
theorem load_dirAddr_boot (s : Mm) {i : ℕ} (hi : i < nrTasks) :
    (boot L s).mem.load (L.dirAddr i) = dataEntry (L.tableAddr i >>> 12) := by
  rw [boot_eq, load_foldl_allocateAt L _ (fun j hj => List.mem_range.mp hj) (L.dirAddr_dvd hi)
    fun j hj => (L.dirField_ne_dirAddr hj hi).symm, load_dirAddr_initDirPages L _ hi]

/-- Words outside of the tables, the directories and the tasks stay through
initialization. -/
theorem load_boot_of_ne (s : Mm) {b : Addr} (hb : 4 ∣ b.toNat)
    (htable : ∀ t < nrTasks, ∀ k < totalPages, b ≠ entryAddr (L.tableAddr t) k)
    (hdir : ∀ i < nrTasks, b ≠ L.dirAddr i)
    (hfield : ∀ i < nrTasks, b ≠ dirField (L.taskAddr i)) :
    (boot L s).mem.load b = s.mem.load b := by
  rw [boot_eq, load_foldl_allocateAt L _ (fun j hj => List.mem_range.mp hj) hb hfield,
    load_initDirPages_of_ne L _ hb hdir, load_initTablePages_of_ne L s hb htable]

/-- **Initialization links every task to its own table**, with the kernel's pages
mapped in each and nothing else. -/
theorem refines_boot (s : Mm) : Refines L (boot L s) (Paging.initial s.physMem) := by
  constructor
  · rw [boot_eq]
    exact linked_foldl_allocateAt L _ fun _ => List.mem_range
  · simp only [Mm.paging, Paging.initial, boot_physMem, Paging.mk.injEq, true_and]
    funext ⟨t, k⟩
    dsimp only
    by_cases hin : t < nrTasks ∧ k < totalPages
    · rw [if_pos hin, load_tableAddr_boot L s hin.1 hin.2, initialEntry]
      simp only [hin.1, true_and]
    · rw [if_neg hin, if_neg]
      simp only [totalPages, numPagKernel] at hin ⊢
      omega

end Boot

/-! ## Every task's own table -/

/-- Store an entry through the address of a table. -/
def storeEntry (s : Mm) (PT : Addr) (k : ℕ) (e : PageTableEntry) : Mm :=
  { s with mem := s.mem.store (entryAddr PT k) e }

/-- The tasks are told apart: by their kernel stacks, by their directories and by their
tables, and a store into the table of one is not seen through another's. -/
structure OwnTables (L : Layout) (s : Mm) : Prop where
  current_eq : ∀ i < nrTasks, ∀ esp : DWord, (L.taskAddr i).toNat ≤ esp.toNat →
    esp.toNat < (L.taskAddr i).toNat + pageSize → current esp = L.taskAddr i
  dir : ∀ i < nrTasks, getDIR s (L.taskAddr i) = L.dirAddr i
  table : ∀ i < nrTasks, getPT s (L.taskAddr i) = L.tableAddr i
  apart : ∀ i < nrTasks, ∀ j < nrTasks, i ≠ j → ∀ k < totalPages, ∀ k' < totalPages, ∀ e,
    let s' := storeEntry s (getPT s (L.taskAddr i)) k e
    s'.mem.load (entryAddr (getPT s' (L.taskAddr j)) k') =
      s.mem.load (entryAddr (getPT s (L.taskAddr j)) k')

/-- The mask of `current` clears the offset in the page. -/
theorem current_toNat (esp : DWord) : (current esp).toNat = esp.toNat / 4096 * 4096 := by
  have hmask : ∀ i < 32, (0xfffff000#32).getLsbD i = decide (12 ≤ i) := by decide
  have hshift : current esp = esp >>> 12 <<< 12 := by
    apply BitVec.eq_of_getLsbD_eq
    intro i hi
    rw [current, BitVec.getLsbD_and, hmask i hi, BitVec.getLsbD_shiftLeft,
      BitVec.getLsbD_ushiftRight]
    by_cases hlow : i < 12
    · simp [hlow]
    · simp [hlow, hi, show 12 + (i - 12) = i by omega, show 12 ≤ i by omega]
  have hlt := esp.isLt
  rw [hshift, BitVec.toNat_shiftLeft, BitVec.toNat_ushiftRight, Nat.shiftRight_eq_div_pow,
    Nat.shiftLeft_eq]
  omega

/-- A stack pointer inside a task's union leads to the task. -/
theorem current_of_mem (L : Layout) {i : ℕ} (hi : i < nrTasks) {esp : DWord}
    (hle : (L.taskAddr i).toNat ≤ esp.toNat)
    (hlt : esp.toNat < (L.taskAddr i).toNat + pageSize) : current esp = L.taskAddr i := by
  have haligned := L.task_aligned
  have htask : (L.taskAddr i).toNat = L.task.toNat + 4096 * i := by
    have hfits := L.task_fits
    simp only [nrTasks, pageSize] at hfits hi
    simp only [Layout.taskAddr, pageAt, pageSize]
    bv_omega
  apply BitVec.eq_of_toNat_eq
  rw [current_toNat, htask]
  rw [htask] at hle hlt
  simp only [pageSize] at haligned hlt
  omega

/-- Stores through linked tables do not reach each other's entries. -/
theorem Mm.Linked.load_storeEntry {L : Layout} {s : Mm} (h : s.Linked L) {i j k k' : ℕ}
    (hi : i < nrTasks) (hj : j < nrTasks) (hne : i ≠ j) (hk : k < totalPages)
    (hk' : k' < totalPages) (e : PageTableEntry) :
    (storeEntry s (getPT s (L.taskAddr i)) k e).mem.load
        (entryAddr (getPT (storeEntry s (getPT s (L.taskAddr i)) k e) (L.taskAddr j)) k') =
      s.mem.load (entryAddr (getPT s (L.taskAddr j)) k') := by
  have hbefore : Refines L s (s.paging L) := ⟨h, rfl⟩
  have hafter := hbefore.store hi hk e s.physMem
  rw [h.table i hi, h.table j hj]
  calc (storeEntry s (L.tableAddr i) k e).mem.load
        (entryAddr (getPT (storeEntry s (L.tableAddr i) k e) (L.taskAddr j)) k')
      = (storeEntry s (L.tableAddr i) k e).mem.load (entryAddr (L.tableAddr j) k') := by
        rw [storeEntry, hafter.linked.table j hj]
    _ = Function.update (s.paging L).table (i, k) e (j, k') := hafter.load hj hk'
    _ = (s.paging L).table (j, k') :=
        Function.update_of_ne (fun heq => hne (congrArg Prod.fst heq).symm) _ _
    _ = s.mem.load (entryAddr (L.tableAddr j) k') := (hbefore.load hj hk').symm

/-- **Each task reaches its own page table**, wherever the three arrays are and in
whatever order the directories are given out. -/
theorem ownTables_allocateDIR (L : Layout) (s : Mm) {ts : List ℕ}
    (hts : ∀ i, i ∈ ts ↔ i < nrTasks) :
    OwnTables L
      (ts.foldl (fun s i => allocateDIR L s (L.taskAddr i)) (initDirPages L s)) := by
  have hlinked := linked_foldl_allocateAt L s hts
  constructor
  · intro i hi esp hle hlt
    exact current_of_mem L hi hle hlt
  · exact hlinked.dir
  · exact hlinked.table
  · intro i hi j hj hne k hk k' hk' e
    exact hlinked.load_storeEntry hi hj hne hk hk' e

/-- The three arrays one behind the other. -/
def Layout.packed (base : Addr) (haligned : pageSize ∣ base.toNat)
    (hfits : base.toNat + 3 * (nrTasks * pageSize) ≤ 2 ^ 32) : Layout where
  task := base
  dirPages := base + BitVec.ofNat 32 (nrTasks * pageSize)
  pagusrTable := base + BitVec.ofNat 32 (2 * (nrTasks * pageSize))
  task_aligned := haligned
  dirPages_aligned := by
    simp only [nrTasks, pageSize] at *
    bv_omega
  pagusrTable_aligned := by
    simp only [nrTasks, pageSize] at *
    bv_omega
  task_fits := by omega
  dirPages_fits := by
    simp only [nrTasks, pageSize] at *
    bv_omega
  pagusrTable_fits := by
    simp only [nrTasks, pageSize] at *
    bv_omega
  task_dirPages := by
    simp only [nrTasks, pageSize] at *
    bv_omega
  task_pagusrTable := by
    simp only [nrTasks, pageSize] at *
    bv_omega
  dirPages_pagusrTable := by
    simp only [nrTasks, pageSize] at *
    bv_omega

/-- A placement behind a kernel of 32 kilobytes. -/
def kernelLayout : Layout := Layout.packed 0x18000#32 (by decide) (by decide)

/-- The last task first, in a memory full of ones. -/
theorem ownTables_allocateDIR_reverse :
    OwnTables kernelLayout
      ((List.range nrTasks).reverse.foldl
        (fun s i => allocateDIR kernelLayout s (kernelLayout.taskAddr i))
        (initDirPages kernelLayout { physMem := fun _ => 0, mem := fun _ => 0xff#8 })) :=
  ownTables_allocateDIR kernelLayout { physMem := fun _ => 0, mem := fun _ => 0xff#8 }
    (by simp)

end Zeos
