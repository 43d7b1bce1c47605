import Zeos.TaskMemory

/-!
# What the processor marks in the tables

The processor writes to directories and tables as well: it marks the entries that it
follows as accessed, and those that it stores through as dirty.  `pagingMarks` are the bits
where it does so, and a run of `MarkedOp` has steps in which it does, at any time and with
any entries.  The kernel never looks at these bits, and translation does not either, so
the states of a marked run are those of the run without marks, marks apart
(`marked_run`); what has been said of the runs of `Zeos.TaskMemory` holds of marked ones in
this sense.

`kernel_run` is about the kernel: two runs that agree but for stores of programs and for
marks end with the same frames and the same first megabyte, marks apart.  A program's store
does leave traces there, since it makes the processor mark the entry that it goes through;
they are the only ones.

`Layout.Marks` is what is asked of a mask, also of one that has the marks of other tables
of the processor: within the tables of paging it has the two bits of `entryMarks` alone,
and in the users' memory none.
-/

namespace Zeos

open Machine PageTableEntry

/-! ## The marks -/

/-- The byte belongs to the directories. -/
def InDirectories (L : Layout) (b : Addr) : Prop :=
  L.dirPages.toNat ≤ b.toNat ∧ b.toNat < L.dirPages.toNat + nrTasks * pageSize

instance (L : Layout) (b : Addr) : Decidable (InDirectories L b) :=
  inferInstanceAs (Decidable (_ ∧ _))

instance (L : Layout) (b : Addr) : Decidable (InTables L b) :=
  inferInstanceAs (Decidable (_ ∧ _))

/-- What the processor may mark: the bits of `entryMarks` in every word of the directories and
the tables. -/
def pagingMarks (L : Layout) (b : Addr) : Byte :=
  if InDirectories L b ∨ InTables L b then Bytes.byteOf entryMarks (b.toNat % 4) else 0

/-- A byte of an array of pages is a byte of one of their words. -/
theorem exists_word {base b : Addr} (haligned : pageSize ∣ base.toNat)
    (hge : base.toNat ≤ b.toNat) (hlt : b.toNat < base.toNat + nrTasks * pageSize) :
    ∃ t < nrTasks, ∃ k < totalPages, ∃ i < 4,
      b = entryAddr (pageAt base t) k + BitVec.ofNat 32 i := by
  simp only [nrTasks, pageSize] at haligned hlt
  refine ⟨(b.toNat - base.toNat) / 4096, ?_, b.toNat % 4096 / 4, ?_, b.toNat % 4, ?_, ?_⟩
  · rw [nrTasks]
    omega
  · rw [totalPages]
    omega
  · omega
  · apply BitVec.eq_of_toNat_eq
    simp only [entryAddr, pageAt, BitVec.toNat_add, BitVec.toNat_ofNat, pageSize]
    omega

theorem exists_word_of_inTables {L : Layout} {b : Addr} (hb : InTables L b) :
    ∃ t < nrTasks, ∃ k < totalPages, ∃ i < 4,
      b = entryAddr (L.tableAddr t) k + BitVec.ofNat 32 i :=
  exists_word L.pagusrTable_aligned hb.1 hb.2

/-- Off the tables nothing is marked. -/
theorem OffTables.pagingMarks {L : Layout} {b : Addr} (hb : OffTables L b) :
    pagingMarks L b = 0 := by
  refine if_neg ?_
  rintro (hin | hin)
  · obtain ⟨t, ht, k, hk, i, hi, heq⟩ :=
      exists_word L.dirPages_aligned hin.1 hin.2
    have hout := hb.dir t ht k hk
    rw [heq, Layout.dirAddr, Bytes.toNat_add_sub _ (by omega)] at hout
    omega
  · obtain ⟨t, ht, k, hk, i, hi, heq⟩ := exists_word_of_inTables hin
    have hout := hb.table t ht k hk
    rw [heq, Bytes.toNat_add_sub _ (by omega)] at hout
    omega

/-- In the tables of paging the mask has those marks alone, and in the users' memory none. -/
structure Layout.Marks (L : Layout) (mask : Addr → Byte) : Prop where
  tables : ∀ b, ¬ OffTables L b → mask b &&& ~~~pagingMarks L b = 0
  user : ∀ b : Addr, lUserStart ≤ b.toNat → mask b = 0

/-- The two memories have the same tables, marks apart. -/
def TablesUpTo (L : Layout) (mask : Addr → Byte) (m m' : Bytes) : Prop :=
  ∀ b, ¬ OffTables L b → clear mask b (m' b) = clear mask b (m b)

theorem tablesUpTo {mask : Addr → Byte} {m m' : Bytes} (L : Layout)
    (h : SameUpTo (clear mask) m m') : TablesUpTo L mask m m' := fun b _ => h b

section Tables

variable {L : Layout} {mask : Addr → Byte} {m m' m'' : Bytes} {s : Mm} {p : Paging} {t k : ℕ}

theorem TablesUpTo.trans (h : TablesUpTo L mask m m') (h' : TablesUpTo L mask m' m'') :
    TablesUpTo L mask m m'' := fun b hb => (h' b hb).trans (h b hb)

theorem marks_pagingMarks (hL : L.InKernel) : L.Marks (pagingMarks L) :=
  ⟨fun _ _ => BitVec.and_not_self _, fun _ hb => (Layout.EndsBy.offTables hL hb).pagingMarks⟩

/-- A word of a table that may be marked. -/
theorem TablesUpTo.load (h : TablesUpTo L mask m m') (hmask : L.Marks mask) {w : Addr}
    (hw : 4 ∣ w.toNat) (hoff : ∀ b, OffTables L b → 4 ≤ (b - w).toNat) :
    m'.load w &&& ~~~entryMarks = m.load w &&& ~~~entryMarks := by
  have hon : ∀ i < 4, ¬ OffTables L (w + BitVec.ofNat 32 i) := fun i hi hin => by
    have hle := hoff _ hin
    rw [Bytes.toNat_add_sub w (by omega)] at hle
    omega
  refine SameUpTo.load (fun i hi => h _ (hon i hi)) fun i hi => ?_
  have hin := hmask.tables _ (hon i hi)
  rw [pagingMarks] at hin
  split at hin
  · have hbyte : (w + BitVec.ofNat 32 i).toNat % 4 = i := by
      rw [BitVec.toNat_add, BitVec.toNat_ofNat]
      omega
    rwa [hbyte] at hin
  · rw [eq_zero_of_subset hin]
    exact BitVec.zero_and

theorem TablesUpTo.load_dir (h : TablesUpTo L mask m m') (hmask : L.Marks mask) (ht : t < nrTasks)
    (hk : k < totalPages) : m'.load (entryAddr (L.dirAddr t) k) &&& ~~~entryMarks =
      m.load (entryAddr (L.dirAddr t) k) &&& ~~~entryMarks :=
  h.load hmask (L.entryAddr_dirAddr_dvd ht hk) fun _ hb => hb.dir t ht k hk

theorem TablesUpTo.load_table (h : TablesUpTo L mask m m') (hmask : L.Marks mask)
    (ht : t < nrTasks) (hk : k < totalPages) :
    m'.load (entryAddr (L.tableAddr t) k) &&& ~~~entryMarks =
      m.load (entryAddr (L.tableAddr t) k) &&& ~~~entryMarks :=
  h.load hmask (L.entryAddr_tableAddr_dvd ht hk) fun _ hb => hb.table t ht k hk

/-- In the fields of the tasks nothing is marked. -/
theorem TablesUpTo.load_field (h : TablesUpTo L mask m m') (hmask : L.Marks mask)
    (ht : t < nrTasks) : m'.load (dirField (L.taskAddr t)) = m.load (dirField (L.taskAddr t)) := by
  have hdirs := L.task_dirPages
  have htables := L.task_pagusrTable
  have htasks := L.task_fits
  have hword := L.dirField_taskAddr_toNat ht
  simp only [nrTasks, pageSize] at hdirs htables htasks ht
  refine Bytes.load_congr fun i hi => ?_
  have hon : ¬ OffTables L (dirField (L.taskAddr t) + BitVec.ofNat 32 i) := fun hin => by
    have hle := hin.field t ht
    rw [Bytes.toNat_add_sub _ (by omega)] at hle
    omega
  have hnat : (dirField (L.taskAddr t) + BitVec.ofNat 32 i).toNat =
      (dirField (L.taskAddr t)).toNat + i := by
    rw [BitVec.toNat_add, BitVec.toNat_ofNat, hword]
    omega
  have hmarks := hmask.tables _ hon
  -- the task's own field is in no directory and no table, so it has no marks
  rw [pagingMarks, if_neg] at hmarks
  · exact clear_injective (eq_zero_of_subset hmarks) (h _ hon)
  · simp only [InDirectories, InTables, nrTasks, pageSize, hnat, hword]
    omega

/-- The words that the processor follows for a task are the same, marks apart. -/
structure WalkUpTo (L : Layout) (t : ℕ) (m m' : Bytes) : Prop where
  dir : ∀ k < totalPages, m'.load (entryAddr (L.dirAddr t) k) &&& ~~~entryMarks =
    m.load (entryAddr (L.dirAddr t) k) &&& ~~~entryMarks
  table : ∀ k < totalPages, m'.load (entryAddr (L.tableAddr t) k) &&& ~~~entryMarks =
    m.load (entryAddr (L.tableAddr t) k) &&& ~~~entryMarks

theorem WalkUpTo.refl (L : Layout) (t : ℕ) (m : Bytes) : WalkUpTo L t m m :=
  ⟨fun _ _ => rfl, fun _ _ => rfl⟩

theorem WalkUpTo.trans (h : WalkUpTo L t m m') (h' : WalkUpTo L t m' m'') : WalkUpTo L t m m'' :=
  ⟨fun k hk => (h'.dir k hk).trans (h.dir k hk), fun k hk => (h'.table k hk).trans (h.table k hk)⟩

theorem TablesUpTo.walk (h : TablesUpTo L mask m m') (hmask : L.Marks mask) (ht : t < nrTasks) :
    WalkUpTo L t m m' :=
  ⟨fun _ hk => h.load_dir hmask ht hk, fun _ hk => h.load_table hmask ht hk⟩

/-- A store that is none to the tables. -/
theorem WalkUpTo.update (h : WalkUpTo L t m m') (ht : t < nrTasks) {b : Addr} (hb : OffTables L b)
    (v : Byte) : WalkUpTo L t m (Function.update m' b v) := by
  refine ⟨fun k hk => ?_, fun k hk => ?_⟩
  · rw [load_update_of_off (hb.dir t ht k hk) v, h.dir k hk]
  · rw [load_update_of_off (hb.table t ht k hk) v, h.table k hk]

/-- **Marks make no difference to translation.** -/
theorem Spaced.translate_of_walk (hs : Spaced L s p) (ht : t < nrTasks)
    (hm : WalkUpTo L t s.mem m) (acc : Access) :
    (pagingControl (L.dirAddr t)).translate m acc = s.space L t acc :=
  hs.refines.translate_congr hs.directed ht hm.dir hm.table acc

theorem Spaced.getDIR_of_tables (hs : Spaced L s p) (hmask : L.Marks mask) {s' : Mm}
    (hm : TablesUpTo L mask s.mem s'.mem) (ht : t < nrTasks) :
    getDIR s' (L.taskAddr t) = L.dirAddr t :=
  (hm.load_field hmask ht).trans (hs.refines.linked.dir t ht)

theorem Spaced.space_of_tables (hs : Spaced L s p) (hmask : L.Marks mask) {s' : Mm}
    (hm : TablesUpTo L mask s.mem s'.mem) (ht : t < nrTasks) (acc : Access) :
    s'.space L t acc = s.space L t acc := by
  rw [Mm.space, hs.getDIR_of_tables hmask hm ht]
  exact hs.translate_of_walk ht (hm.walk hmask ht) acc

end Tables

/-! ## Marked states -/

/-- `s'` is `s` with marks of the processor. -/
structure MarkedAs (mask : Addr → Byte) (s s' : Mm) : Prop where
  physMem : s'.physMem = s.physMem
  mem : SameUpTo (clear mask) s.mem s'.mem

section MarkedAs

variable {L : Layout} {mask : Addr → Byte} {s s' : Mm} {p : Paging} {t : ℕ}

/-- The same store on both sides. -/
theorem MarkedAs.store (h : MarkedAs mask s s') (a : Addr) (v : DWord) (physMem : ℕ → Byte) :
    MarkedAs mask { physMem := physMem, mem := s.mem.store a v }
      { physMem := physMem, mem := s'.mem.store a v } := by
  refine ⟨rfl, fun b => ?_⟩
  show clear mask b (s'.mem.write a 4 _ b) = clear mask b (s.mem.write a 4 _ b)
  rw [Bytes.write, Bytes.write]
  split
  · rfl
  · exact h.mem b

theorem Spaced.getPT_of_marked (hs : Spaced L s p) (hmask : L.Marks mask)
    (h : MarkedAs mask s s') (ht : t < nrTasks) :
    getPT s' (L.taskAddr t) = getPT s (L.taskAddr t) := by
  have hm := tablesUpTo L h.mem
  have hentry := hm.load_dir hmask ht (k := 0) (by decide)
  rw [entryAddr, Nat.mul_zero, BitVec.add_zero] at hentry
  rw [getPT, getPT, hs.getDIR_of_tables hmask hm ht, hs.refines.linked.dir t ht, pbaseAddr,
    pbaseAddr, frame_of_marks hentry]

/-- The functions do the same to both. -/
theorem MarkedAs.pageStep (h : MarkedAs mask s s') (hmask : L.Marks mask) (hs : Spaced L s p)
    (op : PageOp) : MarkedAs mask (pageStep L s op) (pageStep L s' op) := by
  cases op with
  | user op =>
      cases op with
      | setUserPages t =>
          have hPT := hs.getPT_of_marked hmask h t.isLt
          rw [Zeos.pageStep, Zeos.pageStep, userStep, userStep, setUserPages, setUserPages, hPT]
          refine List.foldl_rel (r := MarkedAs mask) ?_ fun pag _ s s' h => ?_
          · refine List.foldl_rel (r := MarkedAs mask) h fun pag _ s s' h => ?_
            simp only [setCodePage, Bytes.store_modify, h.physMem]
            exact h.store _ _ _
          · simp only [setDataPage, Bytes.store_modify, h.physMem]
            exact h.store _ _ _
      | freeUserPages t =>
          have hPT := hs.getPT_of_marked hmask h t.isLt
          rw [Zeos.pageStep, Zeos.pageStep, userStep, userStep, freeUserPages, freeUserPages, hPT,
            hs.refines.linked.table t t.isLt]
          refine List.foldl_rel (r := MarkedAs mask) h fun pag hpag s s' h => ?_
          have hk : pagLogInitData + pag < totalPages := by
            have hpag := List.mem_range.mp hpag
            rw [numPagData] at hpag
            simp only [pagLogInitData, lUserStart, totalPages]
            omega
          -- the frame to be freed is read from an entry that may be marked, above its marks
          have hentry := (tablesUpTo L h.mem).load_table hmask t.isLt hk
          rw [freeDataPage, freeDataPage, h.physMem, pbaseAddr, pbaseAddr, frame_of_marks hentry]
          exact h.store _ _ _
  | setSsPag t page frame =>
      simp only [Zeos.pageStep, setSsPag, Bytes.store_modify, hs.getPT_of_marked hmask h t.isLt,
        h.physMem]
      exact h.store _ _ _
  | delSsPag t page =>
      simp only [Zeos.pageStep, delSsPag, hs.getPT_of_marked hmask h t.isLt, h.physMem]
      exact h.store _ _ _

theorem MarkedAs.storeIn (h : MarkedAs mask s s') (hmask : L.Marks mask) (hs : Spaced L s p)
    (ht : t < nrTasks) (user : Bool) (a : Addr) (v : Byte) :
    MarkedAs mask (s.storeIn L t user a v) (s'.storeIn L t user a v) := by
  have hspace := congrFun (hs.space_of_tables hmask (tablesUpTo L h.mem) ht ⟨user, true⟩) a
  cases hab : s.space L t ⟨user, true⟩ a with
  | none =>
      rw [Mm.storeIn_of_none hab, Mm.storeIn_of_none (hspace.trans hab)]
      exact h
  | some b =>
      rw [Mm.storeIn_of_some hab, Mm.storeIn_of_some (hspace.trans hab)]
      exact ⟨h.physMem, h.mem.update b v⟩

/-- An operation does the same to both. -/
theorem MarkedAs.memoryStep (h : MarkedAs mask s s') (hmask : L.Marks mask) (hs : Spaced L s p)
    (op : MemoryOp L) : MarkedAs mask (memoryStep L s op) (memoryStep L s' op) := by
  cases op with
  | pages op => exact h.pageStep hmask hs op
  | userStore t a v => exact h.storeIn hmask hs t.isLt true a v
  | kernelStore t a v => exact h.storeIn hmask hs t.isLt false a.addr v

end MarkedAs

/-! ## Marked runs -/

/-- What happens to memory, with what the processor does to it: it puts marks of its own into
the tables. -/
inductive MarkedOp (L : Layout)
  | memory (op : MemoryOp L)
  | mark (marks : Addr → Byte)

/-- The operation, without marks. -/
def MarkedOp.unmarked {L : Layout} : MarkedOp L → Option (MemoryOp L)
  | .memory op => some op
  | .mark _ => none

/-- One step of a marked run. -/
def markedStep (L : Layout) (s : Mm) : MarkedOp L → Mm
  | .memory op => memoryStep L s op
  | .mark marks => { s with mem := withMarks (pagingMarks L) marks s.mem }

section MarkedRun

variable {L : Layout} {s s' : Mm} {p : Paging}

/-- **A marked run goes through the states of the run without marks**, marks apart. -/
theorem marked_run (hL : L.InKernel) (hs : Spaced L s p) (h : MarkedAs (pagingMarks L) s s')
    (ops : List (MarkedOp L)) : MarkedAs (pagingMarks L)
      ((ops.filterMap MarkedOp.unmarked).foldl (memoryStep L) s) (ops.foldl (markedStep L) s') := by
  induction ops generalizing s s' p with
  | nil => exact h
  | cons op ops ih =>
      cases op with
      | memory op => exact ih (hs.memoryStep hL op) (h.memoryStep (marks_pagingMarks hL) hs op)
      | mark marks =>
          exact ih hs ⟨h.physMem, h.mem.trans (sameUpTo_withMarks (pagingMarks L) marks s'.mem)⟩

end MarkedRun

/-! ## The kernel's memory -/

/-- Two states without marks are the same to the kernel: frames and the first megabyte. -/
structure SameKernel (s s' : Mm) : Prop where
  physMem : s'.physMem = s.physMem
  mem : ∀ b, b.toNat < lUserStart → s'.mem b = s.mem b

/-- Whether the operation is a program's store. -/
def MemoryOp.isUserStore {L : Layout} : MemoryOp L → Bool
  | .userStore _ _ _ => true
  | _ => false

section Kernel

variable {L : Layout} {s s' : Mm} {p : Paging}

/-- The functions do the same to what is the same to the kernel. -/
theorem SameKernel.pageStep (hs : SameKernel s s') (h : Spaced L s p) (h' : Spaced L s' p)
    (op : PageOp) : SameKernel (pageStep L s op) (pageStep L s' op) := by
  have hafter := h.pageStep op
  have hafter' := h'.pageStep op
  constructor
  · rw [hafter.refines.physMem, hafter'.refines.physMem]
  · intro b hb
    by_cases hin : InTables L b
    · obtain ⟨t, ht, k, hk, i, hi, rfl⟩ := exists_word_of_inTables hin
      refine Bytes.apply_eq_of_load_eq ?_ hi
      rw [hafter.refines.load ht hk, hafter'.refines.load ht hk]
    · rw [pageStep_mem_of_outside h.refines.linked op hin,
        pageStep_mem_of_outside h'.refines.linked op hin, hs.mem b hb]

/-- A store on one side only, behind the first megabyte. -/
theorem SameKernel.of_userStore (hs : SameKernel s s') (h : Spaced L s p) (t : Fin nrTasks)
    (a : Addr) (v : Byte) : SameKernel (memoryStep L s (.userStore t a v)) s' := by
  rw [memoryStep]
  cases hab : s.space L t ⟨true, true⟩ a with
  | none => rwa [Mm.storeIn_of_none hab]
  | some b =>
      rw [Mm.storeIn_of_some hab]
      refine ⟨hs.physMem, fun b' hb' => ?_⟩
      have hge := h.userStore_ge t.isLt hab
      have hne : b' ≠ b := by
        rintro rfl
        omega
      rw [hs.mem b' hb']
      exact (Function.update_of_ne hne v s.mem).symm

/-- The same store on both sides. -/
theorem SameKernel.kernelStore (hs : SameKernel s s') (h : Spaced L s p) (h' : Spaced L s' p)
    (t : Fin nrTasks) (a : KernelByte L) (v : Byte) :
    SameKernel (memoryStep L s (.kernelStore t a v)) (memoryStep L s' (.kernelStore t a v)) := by
  have hspace := congrFun (h.space_congr h' t.isLt (fun _ => rfl) ⟨false, true⟩) a.addr
  rw [memoryStep, memoryStep]
  cases hab : s.space L t ⟨false, true⟩ a.addr with
  | none =>
      rw [Mm.storeIn_of_none hab, Mm.storeIn_of_none (hspace.trans hab)]
      exact hs
  | some b =>
      rw [Mm.storeIn_of_some hab, Mm.storeIn_of_some (hspace.trans hab)]
      refine ⟨hs.physMem, fun b' hb' => ?_⟩
      dsimp only
      by_cases heq : b' = b
      · rw [heq, Function.update_self, Function.update_self]
      · rw [Function.update_of_ne heq, Function.update_of_ne heq, hs.mem b' hb']

/-- Two states with the same tables, and the same to the kernel. -/
structure KernelTwins (L : Layout) (s s' : Mm) : Prop where
  spaced : ∃ p, Spaced L s p ∧ Spaced L s' p
  same : SameKernel s s'

theorem KernelTwins.step (hL : L.InKernel) (h : KernelTwins L s s') {op : MemoryOp L}
    (hop : (!op.isUserStore) = true) :
    KernelTwins L (memoryStep L s op) (memoryStep L s' op) := by
  obtain ⟨⟨p, hp, hp'⟩, hs⟩ := h
  refine ⟨⟨_, hp.memoryStep hL op, hp'.memoryStep hL op⟩, ?_⟩
  cases op with
  | pages op => exact hs.pageStep hp hp' op
  | userStore t a v => exact absurd hop (by simp [MemoryOp.isUserStore])
  | kernelStore t a v => exact hs.kernelStore hp hp' t a v

theorem KernelTwins.skip (hL : L.InKernel) (h : KernelTwins L s s') {op : MemoryOp L}
    (hop : (!op.isUserStore) = false) : KernelTwins L (memoryStep L s op) s' := by
  obtain ⟨⟨p, hp, hp'⟩, hs⟩ := h
  cases op with
  | userStore t a v => exact ⟨⟨p, hp.userStore hL t a v, hp'⟩, hs.of_userStore hp t a v⟩
  | pages op => exact absurd hop (by simp [MemoryOp.isUserStore])
  | kernelStore t a v => exact absurd hop (by simp [MemoryOp.isUserStore])

/-- Without marks the programs' stores make no difference to the kernel. -/
theorem sameKernel_filter (hL : L.InKernel) (hs : Spaced L s p) (ops : List (MemoryOp L)) :
    SameKernel (ops.foldl (memoryStep L) s)
      ((ops.filter fun op => !op.isUserStore).foldl (memoryStep L) s) := by
  have hself : KernelTwins L s s := ⟨⟨p, hs, hs⟩, rfl, fun _ _ => rfl⟩
  have hrun : KernelTwins L (ops.foldl (memoryStep L) s)
      ((ops.filter fun op => !op.isUserStore).foldl (memoryStep L) s) :=
    rel_foldl_filter (memoryStep L) (fun _ _ _ h hop => h.step hL hop)
      (fun _ _ _ h hop => h.skip hL hop) hself ops
  exact hrun.same

/-- The operations of a run that are neither stores of programs nor marks. -/
def kernelOps (ops : List (MarkedOp L)) : List (MemoryOp L) :=
  (ops.filterMap MarkedOp.unmarked).filter fun op => !op.isUserStore

/-- The two states are the same to the kernel, marks apart. -/
structure SameKernelUpTo (L : Layout) (s s' : Mm) : Prop where
  physMem : s'.physMem = s.physMem
  mem : ∀ b : Addr, b.toNat < lUserStart →
    clear (pagingMarks L) b (s'.mem b) = clear (pagingMarks L) b (s.mem b)

/-- A marked run leaves to the kernel what its own operations leave. -/
theorem sameKernelUpTo_kernelOps (hL : L.InKernel) (hs : Spaced L s p)
    (ops : List (MarkedOp L)) : SameKernelUpTo L ((kernelOps ops).foldl (memoryStep L) s)
      (ops.foldl (markedStep L) s) := by
  have hmarked := marked_run hL hs ⟨rfl, SameUpTo.refl _ _⟩ ops
  have hsame := sameKernel_filter hL hs (ops.filterMap MarkedOp.unmarked)
  refine ⟨hmarked.physMem.trans hsame.physMem.symm, fun b hb => ?_⟩
  rw [hmarked.mem b]
  exact congrArg _ (hsame.mem b hb).symm

/-- **Neither the programs' stores nor marks make a difference to the kernel**, but for the
marks themselves: runs that agree without them end the same for it. -/
theorem kernel_run (hL : L.InKernel) (hzero : s.ZeroDirectories L) {ops ops' : List (MarkedOp L)}
    (hops : kernelOps ops' = kernelOps ops) :
    SameKernelUpTo L (ops.foldl (markedStep L) (boot L s))
      (ops'.foldl (markedStep L) (boot L s)) := by
  have hrun := sameKernelUpTo_kernelOps hL (spaced_boot L hzero) ops
  have hrun' := sameKernelUpTo_kernelOps hL (spaced_boot L hzero) ops'
  rw [hops] at hrun'
  exact ⟨hrun'.physMem.trans hrun.physMem.symm,
    fun b hb => (hrun'.mem b hb).trans (hrun.mem b hb).symm⟩

end Kernel

/-- A program stores into its data, which the processor marks, and into the kernel's, which
faults; in the other run it does not. -/
theorem kernel_run_two :
    SameKernelUpTo kernelLayout
      ([.memory (.pages (.user (.setUserPages lastTask))),
          .memory (.userStore lastTask 0x100000 7), .mark (fun _ => 0xff),
          .memory (.userStore lastTask 0x18000 7)].foldl (markedStep kernelLayout)
        (boot kernelLayout blankMm))
      ([.memory (.pages (.user (.setUserPages lastTask)))].foldl (markedStep kernelLayout)
        (boot kernelLayout blankMm)) :=
  kernel_run inKernel_kernelLayout (zeroDirectories_blankMm kernelLayout) rfl

end Zeos
