import Zeos.FlatMemory

/-!
# The memory that `main` sets up (`system.c`, `mm.c`)

`main` runs without paging until `init_mm` turns it on, with the directory of task 0.
The library that the kernel is linked with then gives task 0 its pages.  No other task
gets a directory here, so that memory is not yet that of `boot`; but it is for task 0
(`Alike`), so that `mainMemory_ready` follows from what is known of `boot`: the kernel goes
on where it was, and a user gets the data pages and the code pages, a frame of its own for
each.

The model computes on memory as it is, without translation, also what `set_user_pages` does
after paging is on.  That is the code only because the tables mean themselves then, for
which they have to lie between page 0, which nobody reaches, and the users' memory:
`Layout.SelfMapped` is this condition, and the second part of `mainMemory_ready` is that the
tables are found.

`userImage_run` is about what `main` does next, with paging on: it copies the user
program to the user's pages.  The copy faults exactly for programs that are longer than
these pages; all others arrive.  The sizes are bounded such that the image ends within
0x7F000 bytes, since the kernel's part of memory is not longer, and the image lies apart
from the tables, in which the processor leaves its marks during the copy.
-/

namespace Zeos

open Machine PageTableEntry

/-! ## What `main` does -/

/-- `monoprocess_init_addr_space`: map the pages of task 0, and load its directory
again. -/
def monoprocessInitAddrSpace (L : Layout) (s : Paged) : Paged :=
  let mm := setUserPages s.mm (L.taskAddr 0)
  setCr3 (getDIR mm (L.taskAddr 0)) { s with mm := mm }

/-- The memory part of `main`. -/
def mainMemory (L : Layout) (s : Paged) : Paged := monoprocessInitAddrSpace L (initMm L s)

/-! ## The other tasks' fields -/

/-- The byte is in no other task's directory field. -/
def OffOthers (L : Layout) (b : Addr) : Prop :=
  ∀ i, 1 ≤ i → i < nrTasks → 4 ≤ (b - dirField (L.taskAddr i)).toNat

/-- The two states differ at most in the directory fields of the other tasks. -/
structure Alike (L : Layout) (s s' : Mm) : Prop where
  physMem : s'.physMem = s.physMem
  mem : ∀ b, OffOthers L b → s'.mem b = s.mem b

section Alike

variable {L : Layout} {s s' : Mm}

theorem Alike.refl (L : Layout) (s : Mm) : Alike L s s := ⟨rfl, fun _ _ => rfl⟩

/-- The same store on both sides. -/
theorem Alike.store (h : Alike L s s') (a : Addr) (v : DWord) (physMem : ℕ → Byte) :
    Alike L { physMem := physMem, mem := s.mem.store a v }
      { physMem := physMem, mem := s'.mem.store a v } := by
  refine ⟨rfl, fun b hb => ?_⟩
  show s'.mem.write a 4 _ b = s.mem.write a 4 _ b
  rw [Bytes.write, Bytes.write, h.mem b hb]

/-- The other tasks' directories. -/
theorem alike_foldl_allocateAt (s : Mm) {ts : List ℕ} (hts : ∀ i ∈ ts, 1 ≤ i ∧ i < nrTasks) :
    Alike L s (ts.foldl (allocateAt L) s) := by
  refine List.foldlRecOn (motive := Alike L s) ts _ (Alike.refl L s) fun s' hs' i hi => ?_
  refine ⟨hs'.physMem, fun b hb => ?_⟩
  rw [← hs'.mem b hb]
  exact Bytes.write_apply_of_le _ _ _ (hb i (hts i hi).1 (hts i hi).2)

/-- `init_mm` leaves what `boot` leaves, the other tasks' directories apart. -/
theorem alike_initMm (L : Layout) (s : Paged) : Alike L (initMm L s).mm (boot L s.mm) := by
  have hrange : List.range nrTasks = 0 :: List.range' 1 9 := by decide
  have hothers : ∀ i ∈ List.range' 1 9, 1 ≤ i ∧ i < nrTasks := by
    intro i hi
    rw [List.mem_range'_1] at hi
    exact hi
  rw [initMm, boot, hrange, List.foldl_cons]
  dsimp only [setPeFlag, setCr3]
  generalize allocateDIR L _ _ = s'
  exact alike_foldl_allocateAt s' hothers

/-- A word that is none of the other tasks' fields, all words being aligned. -/
theorem Alike.load (h : Alike L s s') {w : Addr} (hw : 4 ∣ w.toNat)
    (hne : ∀ i, 1 ≤ i → i < nrTasks → w ≠ dirField (L.taskAddr i)) :
    s'.mem.load w = s.mem.load w := by
  refine Bytes.load_congr fun k hk => h.mem _ fun i hpos hi => ?_
  by_contra hclose
  refine hne i hpos hi (BitVec.eq_of_toNat_eq ?_)
  have hfield := L.dirField_taskAddr_dvd hi
  have hlt := w.isLt
  have hfieldLt := (dirField (L.taskAddr i)).isLt
  rw [BitVec.toNat_sub, BitVec.toNat_add, BitVec.toNat_ofNat] at hclose
  omega

theorem Alike.load_dirField (h : Alike L s s') :
    s'.mem.load (dirField (L.taskAddr 0)) = s.mem.load (dirField (L.taskAddr 0)) := by
  refine h.load (L.dirField_taskAddr_dvd (by decide)) fun i hpos hi heq => ?_
  have hnat := congrArg BitVec.toNat heq
  rw [L.dirField_taskAddr_toNat (by decide), L.dirField_taskAddr_toNat hi] at hnat
  omega

theorem Alike.load_dir (h : Alike L s s') {k : ℕ} (hk : k < totalPages) :
    s'.mem.load (entryAddr (L.dirAddr 0) k) = s.mem.load (entryAddr (L.dirAddr 0) k) := by
  refine h.load (L.entryAddr_dirAddr_dvd (by decide) hk) fun i _ hi heq => ?_
  rcases Nat.eq_zero_or_pos k with rfl | hpos
  · rw [entryAddr, Nat.mul_zero, BitVec.add_zero] at heq
    exact L.dirField_ne_dirAddr hi (by decide) heq.symm
  · exact (L.dirWord_ne (by decide) hk hpos.ne').2.2 i hi heq

theorem Alike.load_table (h : Alike L s s') {k : ℕ} (hk : k < totalPages) :
    s'.mem.load (entryAddr (L.tableAddr 0) k) = s.mem.load (entryAddr (L.tableAddr 0) k) :=
  h.load (L.entryAddr_tableAddr_dvd (by decide) hk) fun _ _ hi =>
    (L.dirField_ne_entryAddr hi (by decide) hk).symm

theorem Alike.getDIR (h : Alike L s s') :
    getDIR s' (L.taskAddr 0) = getDIR s (L.taskAddr 0) := h.load_dirField

theorem Alike.getPT (h : Alike L s s') (hs' : s'.Linked L) :
    getPT s (L.taskAddr 0) = getPT s' (L.taskAddr 0) := by
  have hdir := h.load_dir (k := 0) (by decide)
  rw [entryAddr, Nat.mul_zero, BitVec.add_zero] at hdir
  have hget := hs'.dir 0 (by decide)
  rw [Zeos.getPT, Zeos.getPT, ← h.getDIR, hget, hdir]

/-- The processor finds the same in both for task 0. -/
theorem Alike.walk (h : Alike L s s') : WalkUpTo L 0 s'.mem s.mem :=
  ⟨fun _ hk => congrArg (· &&& ~~~entryMarks) (h.load_dir hk).symm,
    fun _ hk => congrArg (· &&& ~~~entryMarks) (h.load_table hk).symm⟩

/-- `set_user_pages` does the same to both. -/
theorem Alike.setUserPages (h : Alike L s s') (hs' : s'.Linked L) :
    Alike L (setUserPages s (L.taskAddr 0)) (setUserPages s' (L.taskAddr 0)) := by
  rw [Zeos.setUserPages, Zeos.setUserPages, h.getPT hs']
  refine List.foldl_rel (r := Alike L) ?_ fun pag _ s s' h => ?_
  · refine List.foldl_rel (r := Alike L) h fun pag _ s s' h => ?_
    simp only [setCodePage, Bytes.store_modify, h.physMem]
    exact h.store _ _ _
  · simp only [setDataPage, Bytes.store_modify, h.physMem]
    exact h.store _ _ _

end Alike

/-! ## The spaces of `main` -/

/-- `set_user_pages` for task 0. -/
def firstPages : UserOp := .setUserPages ⟨0, by decide⟩

/-- The memory at that point, with a directory for every task. -/
def mainTwin (L : Layout) (s : Mm) : Mm := userStep L (boot L s) firstPages

section Main

variable {L : Layout} {s : Paged}

theorem alike_mainMemory (L : Layout) (s : Paged) :
    Alike L (mainMemory L s).mm (mainTwin L s.mm) :=
  (alike_initMm L s).setUserPages (refines_boot L s.mm).linked

theorem owned_mainTwin (L : Layout) {s : Mm} (hzero : s.ZeroDirectories L) :
    Owned L (mainTwin L s) ((Paging.initial s.physMem).userStep firstPages) :=
  (owned_boot L hzero).userStep (enoughFrames_boot L s _)

/-- Memory as `main` has set it up leads where the twin leads. -/
theorem walk_mainMemory (L : Layout) (s : Paged) :
    WalkUpTo L 0 (mainTwin L s.mm).mem (mainMemory L s).mm.mem := (alike_mainMemory L s).walk

/-- `init_mm` turns paging on, with the directory of task 0. -/
theorem control_initMm (hcr0 : s.control.cr0 = bootCr0) :
    (initMm L s).control = pagingControl (L.dirAddr 0) := by
  have hdir : getDIR (initMm L s).mm (L.taskAddr 0) = L.dirAddr 0 := by
    rw [← (alike_initMm L s).getDIR]
    exact (refines_boot L s.mm).linked.dir 0 (by decide)
  have hcontrol : (initMm L s).control =
      ⟨s.control.cr0 ||| 0x80000000#32, getDIR (initMm L s).mm (L.taskAddr 0)⟩ := rfl
  rw [hcontrol, hcr0, hdir, pagingControl]

/-- Paging is on, with the directory of task 0. -/
theorem control_mainMemory (hcr0 : s.control.cr0 = bootCr0) (hzero : s.mm.ZeroDirectories L) :
    (mainMemory L s).control = pagingControl (L.dirAddr 0) := by
  have hdir : getDIR (mainMemory L s).mm (L.taskAddr 0) = L.dirAddr 0 := by
    rw [← (alike_mainMemory L s).getDIR]
    exact (owned_mainTwin L hzero).refines.linked.dir 0 (by decide)
  have hcontrol : (mainMemory L s).control =
      ⟨s.control.cr0 ||| 0x80000000#32, getDIR (mainMemory L s).mm (L.taskAddr 0)⟩ := rfl
  rw [hcontrol, hcr0, hdir, pagingControl]

/-- The processor's view of an entry is the table's. -/
theorem Spaced.user_isSome_iff {s : Mm} {p : Paging} (h : Spaced L s p) {t : ℕ} (ht : t < nrTasks)
    (a : Addr) :
    ((s.space L t ⟨true, false⟩ a).isSome = true ↔ s.UserByte L t a) ∧
      ((s.space L t ⟨true, true⟩ a).isSome = true ↔ s.UserWritableByte L t a) := by
  rw [space_eq h.refines h.directed ht, space_eq h.refines h.directed ht]
  have hpage : pageOf a = a.toNat / pageSize := rfl
  by_cases hin : a.toNat / pageSize < totalPages
  · have hentry : s.entry L t (a.toNat / pageSize) = p.table (t, a.toNat / pageSize) :=
      h.refines.entry ht hin
    rw [Mm.UserWritableByte, Mm.UserByte, hentry, hpage]
    generalize p.table (t, a.toNat / pageSize) = e
    have hread : (pagingControl (L.dirAddr t)).allows ⟨true, false⟩ e =
        (present e && (user e || false) && (rw e || true || false)) := rfl
    have hwrite : (pagingControl (L.dirAddr t)).allows ⟨true, true⟩ e =
        (present e && (user e || false) && (rw e || false || false)) := rfl
    rw [hread, hwrite]
    simp [hin, and_assoc]
  · rw [Mm.UserWritableByte, Mm.UserByte, hpage]
    simp [hin]

/-- What has no part in translation stays. -/
theorem mainMemory_apply {b : Addr} (hb : OffTables L b) :
    (mainMemory L s).mm.mem b = s.mm.mem b := by
  obtain ⟨w, i, hi, hw, rfl⟩ : ∃ w i, i < 4 ∧ 4 ∣ w.toNat ∧ b = w + BitVec.ofNat 32 i := by
    refine ⟨BitVec.ofNat 32 (b.toNat / 4 * 4), b.toNat % 4, by omega, ?_, ?_⟩
    · rw [BitVec.toNat_ofNat]
      omega
    · rw [← BitVec.ofNat_add, Nat.div_add_mod', BitVec.ofNat_toNat, BitVec.setWidth_eq]
  -- the byte's word is none of those that are stored
  have hne : ∀ v, 4 ≤ (w + BitVec.ofNat 32 i - v).toNat → w ≠ v := by
    rintro v hv rfl
    rw [Bytes.toNat_add_sub w (by omega)] at hv
    omega
  have hfield : ∀ j < nrTasks, w ≠ dirField (L.taskAddr j) := fun j hj => hne _ (hb.field j hj)
  have hdir : ∀ j < nrTasks, w ≠ L.dirAddr j := fun j hj => by
    have hword := hb.dir j hj 0 (by decide)
    rw [entryAddr, Nat.mul_zero, BitVec.add_zero] at hword
    exact hne _ hword
  have hpages : (mainTwin L s.mm).mem.load w = (boot L s.mm).mem.load w := by
    refine Bytes.load_congr fun j hj => pageStep_mem_of_outside (refines_boot L s.mm).linked
      (.user firstPages) fun hin => ?_
    obtain ⟨t, ht, k, hk, j', hj', heq⟩ := exists_word_of_inTables hin
    have haligned := L.entryAddr_tableAddr_dvd ht hk
    have hout := hb.table t ht k hk
    generalize entryAddr (L.tableAddr t) k = v at heq haligned hout
    bv_omega
  refine Bytes.apply_eq_of_load_eq ?_ hi
  rw [← (alike_mainMemory L s).load hw fun j _ hj => hfield j hj, hpages]
  exact load_boot_of_ne L s.mm hw (fun t ht k hk => hne _ (hb.table t ht k hk)) hdir hfield

/-- What `main` sets up for the kernel and for the program of task 0. -/
structure Paged.Ready (s : Paged) : Prop where
  paging : s.control.paging = true
  kernel : ∀ write a, pageSize ≤ a.toNat → a.toNat < lUserStart →
    s.control.translate s.mm.mem ⟨false, write⟩ a = some a
  read : ∀ a, (s.control.translate s.mm.mem ⟨true, false⟩ a).isSome = true ↔
    lUserStart ≤ a.toNat ∧ a.toNat < lUserStart + (numPagCode + numPagData) * pageSize
  write : ∀ a, (s.control.translate s.mm.mem ⟨true, true⟩ a).isSome = true ↔
    lUserStart ≤ a.toNat ∧ a.toNat < lUserStart + numPagData * pageSize
  user : ∀ write a b, s.control.translate s.mm.mem ⟨true, write⟩ a = some b → lUserStart ≤ b.toNat
  apart : ∀ acc acc' a a' b, s.control.translate s.mm.mem acc a = some b →
    s.control.translate s.mm.mem acc' a' = some b → a = a'

/-- What translation finds in memory, as far as it has got. -/
theorem translate_of_walk_mainMemory (hcr0 : s.control.cr0 = bootCr0)
    (hzero : s.mm.ZeroDirectories L) {m : Bytes} (hm : WalkUpTo L 0 (mainMemory L s).mm.mem m)
    (acc : Access) :
    (mainMemory L s).control.translate m acc = (mainTwin L s.mm).space L 0 acc := by
  rw [control_mainMemory hcr0 hzero]
  exact (owned_mainTwin L hzero).toSpaced.translate_of_walk (by decide)
    ((walk_mainMemory L s).trans hm) acc

/-- In memory that has these tables, marks apart, everything is ready. -/
theorem ready_of_walk (hcr0 : s.control.cr0 = bootCr0) (hzero : s.mm.ZeroDirectories L)
    {s' : Paged} (hcontrol : s'.control = (mainMemory L s).control)
    (hm : WalkUpTo L 0 (mainMemory L s).mm.mem s'.mm.mem) : s'.Ready := by
  have htwin := owned_mainTwin L hzero
  -- what is known of the twin is known of any memory with the same walk
  have hspace : ∀ acc, s'.control.translate s'.mm.mem acc = (mainTwin L s.mm).space L 0 acc := by
    intro acc
    rw [hcontrol]
    exact translate_of_walk_mainMemory hcr0 hzero hm acc
  have hpages : mainTwin L s.mm =
      setUserPages (boot L s.mm) (L.taskAddr (⟨0, by decide⟩ : Fin nrTasks)) := rfl
  constructor
  · rw [hcontrol, control_mainMemory hcr0 hzero, pagingControl_paging]
  · intro write a hge hlt
    rw [hspace]
    exact htwin.toSpaced.kernel (by decide) write hge hlt
  · intro a
    rw [hspace, (htwin.toSpaced.user_isSome_iff (by decide) a).1, hpages]
    exact userByte_setUserPages_iff L s.mm ⟨0, by decide⟩ a
  · intro a
    rw [hspace, (htwin.toSpaced.user_isSome_iff (by decide) a).2, hpages]
    exact userWritableByte_setUserPages_iff L s.mm ⟨0, by decide⟩ a
  · intro write a b hab
    rw [hspace] at hab
    exact htwin.toSpaced.userStore_ge (by decide) hab
  · intro acc acc' a a' b hab hab'
    rw [hspace] at hab hab'
    exact (htwin.same_name (by decide) (by decide) hab hab').1

/-- **`main` turns paging on without losing its way**, and gives the user pages that are
the user's alone.  When it does so, with paging already on, it finds the tables where they
are. -/
theorem mainMemory_ready (hL : L.SelfMapped)
    (hcr0 : s.control.cr0 = bootCr0) (hzero : s.mm.ZeroDirectories L) :
    (mainMemory L s).Ready ∧ ∀ write b, ¬ OffTables L b →
      (initMm L s).control.translate (initMm L s).mm.mem ⟨false, write⟩ b = some b := by
  refine ⟨ready_of_walk hcr0 hzero rfl (WalkUpTo.refl _ _ _), fun write b hb => ?_⟩
  have hrange := hL.range hb
  have hspaced := spaced_boot L hzero
  rw [control_initMm hcr0]
  rw [hspaced.translate_of_walk (by decide) (alike_initMm L s).walk]
  exact hspaced.kernel (by decide) write hrange.1 hrange.2

/-! ## The copy of the user program -/

/-- **A program of the kernel under `main`'s paging** runs as in flat memory, or faults.
`m` is memory as far as it has got; `C` are the addresses that the program stores to. -/
theorem mainMemory_program {R : Type*} (hL : L.InKernel) (hcr0 : s.control.cr0 = bootCr0)
    (hzero : s.mm.ZeroDirectories L) {mask : Addr → Byte} (hmask : L.Marks mask)
    (μ : Marking (clear mask)) {m n : Bytes} (hm : TablesUpTo L mask (mainMemory L s).mm.mem m)
    (hn : MemoryProgram.Shows (clear mask) ((mainTwin L s.mm).space L 0 ⟨false, false⟩) m n)
    (prog : MemoryProgram Addr Byte R) {C : Addr → Prop}
    (hC : ∀ a, C a → a.toNat < lUserStart → OffTables L a)
    (hcareful : prog.Within (Unmarked mask) C n) :
    (prog.Within (fun a => ((mainTwin L s.mm).space L 0 ⟨false, false⟩ a).isSome = true)
          (fun a => ((mainTwin L s.mm).space L 0 ⟨false, false⟩ a).isSome = true) n →
        ∃ m', runKernel μ (mainMemory L s).control prog m = some ((prog.flat n).1, m') ∧
          TablesUpTo L mask m m' ∧
          (∀ b, clear mask b (m' b) ≠ clear mask b (m b) →
            ∃ a, C a ∧ (mainTwin L s.mm).space L 0 ⟨false, false⟩ a = some b) ∧
          MemoryProgram.Shows (clear mask) ((mainTwin L s.mm).space L 0 ⟨false, false⟩) m'
            (prog.flat n).2) ∧
      (¬ prog.Within (fun a => ((mainTwin L s.mm).space L 0 ⟨false, false⟩ a).isSome = true)
          (fun a => ((mainTwin L s.mm).space L 0 ⟨false, false⟩ a).isSome = true) n →
        runKernel μ (mainMemory L s).control prog m = none) := by
  rw [control_mainMemory hcr0 hzero]
  exact (owned_mainTwin L hzero).run_flat hL (by decide) hmask μ prog
    ((walk_mainMemory L s).trans (hm.walk hmask (by decide))) hn hC hcareful

/-- The kernel finds a byte behind the first megabyte exactly if it is in the user's
pages. -/
theorem mainTwin_kernel_iff (hzero : s.mm.ZeroDirectories L) {a : Addr}
    (hge : lUserStart ≤ a.toNat) :
    ((mainTwin L s.mm).space L 0 ⟨false, false⟩ a).isSome = true ↔
      a.toNat < lUserStart + (numPagCode + numPagData) * pageSize := by
  have htwin := (owned_mainTwin L hzero).toSpaced
  have hpages : mainTwin L s.mm =
      setUserPages (boot L s.mm) (L.taskAddr (⟨0, by decide⟩ : Fin nrTasks)) := rfl
  have hread := (htwin.user_isSome_iff (t := 0) (by decide) a).1
  rw [hpages, userByte_setUserPages_iff L s.mm ⟨0, by decide⟩ a, ← hpages, and_iff_right hge]
    at hread
  rw [← hread, Option.isSome_iff_exists, Option.isSome_iff_exists]
  exact exists_congr fun b => ⟨fun hab => htwin.user_of_kernel (by decide) hab hge,
    fun hab => htwin.kernel_of_user (by decide) hab⟩

/-- A byte of the user's pages the kernel and the user find at one place, which is the user's. -/
theorem exists_mainTwin_place (hzero : s.mm.ZeroDirectories L) {a : Addr}
    (hge : lUserStart ≤ a.toNat)
    (hlt : a.toNat < lUserStart + (numPagCode + numPagData) * pageSize) :
    ∃ q, (mainTwin L s.mm).space L 0 ⟨false, false⟩ a = some q ∧
      (mainTwin L s.mm).space L 0 ⟨true, false⟩ a = some q ∧ lUserStart ≤ q.toNat := by
  have htwin := owned_mainTwin L hzero
  obtain ⟨q, hq⟩ := Option.isSome_iff_exists.mp ((mainTwin_kernel_iff hzero hge).mpr hlt)
  exact ⟨q, hq, htwin.user_of_kernel (by decide) hq hge, (htwin.behind (by decide) hq hge).2⟩

/-- The bytes of the image that `main` reads: the sizes, the word for the user, and the
user program. -/
def InImage (sysSize usrSize : ℕ) (b : Addr) : Prop :=
  (b - BitVec.ofNat 32 kernelStart).toNat < 12 ∨
    (sysSize ≤ (b - BitVec.ofNat 32 kernelStart).toNat ∧
      (b - BitVec.ofNat 32 kernelStart).toNat < sysSize + usrSize)

/-- Its first three words. -/
theorem inImage_of_lt {sysSize usrSize k : ℕ} (hk : k < 12) :
    InImage sysSize usrSize (BitVec.ofNat 32 kernelStart + BitVec.ofNat 32 k) :=
  Or.inl (by rwa [Bytes.toNat_add_sub _ (by omega)])

/-- The image is in the kernel's part of memory. -/
theorem InImage.range {sysSize usrSize : ℕ} (hfit : sysSize + usrSize ≤ 0x7f000) {b : Addr}
    (hb : InImage sysSize usrSize b) : pageSize ≤ b.toNat ∧ b.toNat < lUserStart := by
  simp only [InImage, kernelStart] at hb
  rw [pageSize, lUserStart]
  bv_omega

/-- What the copy in `main` loads is in the image, and what it stores begins with the user's
memory. -/
theorem moveUserProgram_within_image {P Q : Addr → Prop} {m : Bytes} {sysSize usrSize : ℕ}
    (hfit : sysSize + usrSize ≤ 0x7f000) (hsys : m.load pSysSize = BitVec.ofNat 32 sysSize)
    (husr : (m.load pUsrSize).toInt = usrSize) (hP : ∀ b, InImage sysSize usrSize b → P b) :
    moveUserProgram.Within P Q m ↔
      ∀ i < usrSize, Q (BitVec.ofNat 32 lUserStart + BitVec.ofNat 32 i) := by
  rw [moveUserProgram_within husr, hsys]
  refine ⟨fun h => h.2.2, fun h => ⟨⟨fun i hi => ?_, fun i hi => ?_⟩, fun i hi => ?_, h⟩⟩
  · exact hP _ (inImage_of_lt (by omega))
  · have hword := hP _ (inImage_of_lt (k := 4 + i) (by omega))
    rwa [BitVec.ofNat_add, ← BitVec.add_assoc] at hword
  · refine hP _ (Or.inr ?_)
    rw [BitVec.add_assoc, ← BitVec.ofNat_add, Bytes.toNat_add_sub _ (by omega)]
    omega

/-- In flat memory the copy keeps to what is mapped exactly if the program fits into the
user's pages. -/
theorem moveUserProgram_within_iff (hzero : s.mm.ZeroDirectories L) {sysSize usrSize : ℕ}
    (hfit : sysSize + usrSize ≤ 0x7f000) {n : Bytes}
    (hsys : n.load pSysSize = BitVec.ofNat 32 sysSize) (husr : (n.load pUsrSize).toInt = usrSize) :
    moveUserProgram.Within
        (fun a => ((mainTwin L s.mm).space L 0 ⟨false, false⟩ a).isSome = true)
        (fun a => ((mainTwin L s.mm).space L 0 ⟨false, false⟩ a).isSome = true) n ↔
      usrSize ≤ (numPagCode + numPagData) * pageSize := by
  have htwin := (owned_mainTwin L hzero).toSpaced
  have hkernel : ∀ b, InImage sysSize usrSize b →
      ((mainTwin L s.mm).space L 0 ⟨false, false⟩ b).isSome = true := fun b hb => by
    obtain ⟨hge, hlt⟩ := hb.range hfit
    rw [htwin.kernel (by decide) false hge hlt, Option.isSome_some]
  have huser : ∀ i < usrSize, (BitVec.ofNat 32 lUserStart + BitVec.ofNat 32 i).toNat =
      lUserStart + i := fun i hi => by
    rw [BitVec.toNat_add, BitVec.toNat_ofNat, BitVec.toNat_ofNat, lUserStart]
    omega
  rw [moveUserProgram_within_image hfit hsys husr hkernel]
  -- the first byte behind the user's pages is the one that faults
  constructor
  · intro hstore
    by_contra hlong
    have hlast := hstore ((numPagCode + numPagData) * pageSize) (not_le.mp hlong)
    rw [mainTwin_kernel_iff hzero, huser _ (not_le.mp hlong)] at hlast
    · exact absurd hlast (lt_irrefl _)
    · rw [huser _ (not_le.mp hlong)]
      exact Nat.le_add_right _ _
  · intro hle i hi
    have hnat := huser i hi
    rw [mainTwin_kernel_iff hzero (hnat ▸ Nat.le_add_right _ _), hnat]
    omega

/-- A flat memory that has what the kernel sees of `main`'s memory has the image. -/
theorem exists_flat_image (hzero : s.mm.ZeroDirectories L) {mask : Addr → Byte}
    {sysSize usrSize : ℕ} (hfit : sysSize + usrSize ≤ 0x7f000)
    (himage : ∀ b, InImage sysSize usrSize b → mask b = 0) (m : Bytes) :
    ∃ n : Bytes,
      MemoryProgram.Shows (clear mask) ((mainTwin L s.mm).space L 0 ⟨false, false⟩) m n ∧
        ∀ b, InImage sysSize usrSize b → n b = m b := by
  have htwin := (owned_mainTwin L hzero).toSpaced
  refine ⟨_, MemoryProgram.shows_getD (clear mask) _ m 0, fun b hb => ?_⟩
  obtain ⟨hge, hlt⟩ := hb.range hfit
  exact (MemoryProgram.shows_getD (clear mask) _ m 0).eq
    (htwin.kernel (by decide) false hge hlt) (clear_injective (himage b hb))

/-- The words of the image that `main` reads are the sizes that the build has put there. -/
theorem load_of_image {sysSize usrSize k : ℕ} {m n : Bytes}
    (h : ∀ b, InImage sysSize usrSize b → n b = m b) (hk : k ≤ 8) :
    n.load (BitVec.ofNat 32 kernelStart + BitVec.ofNat 32 k) =
      m.load (BitVec.ofNat 32 kernelStart + BitVec.ofNat 32 k) :=
  Bytes.load_congr fun i hi => by
    rw [BitVec.add_assoc, ← BitVec.ofNat_add]
    exact h _ (inImage_of_lt (by omega))

/-- What the copy in `main` leaves at the beginning of the user's memory. -/
theorem moveUserProgram_moved {sysSize usrSize k : ℕ} {n : Bytes}
    (hfit : sysSize + usrSize ≤ 0x7f000) (hsys : n.load pSysSize = BitVec.ofNat 32 sysSize)
    (husr : n.load pUsrSize = BitVec.ofNat 32 usrSize) (hk : k < usrSize) :
    (moveUserProgram.flat n).2 (BitVec.ofNat 32 lUserStart + BitVec.ofNat 32 k) =
      n (BitVec.ofNat 32 kernelStart + BitVec.ofNat 32 (sysSize + k)) := by
  have hmoved : (moveUserProgram.flat n).2 = (moveUser ⟨n, []⟩).bytes :=
    congrArg Prod.snd (moveUserProgram_flat ⟨n, []⟩)
  rw [hmoved, moveUser_bytes (r := ⟨n, []⟩) hfit hsys husr, Bytes.copy,
    Bytes.write_apply_add _ _ _ hk (by omega), BitVec.add_assoc, ← BitVec.ofNat_add]

/-- **The copy of the user program under paging**, with any marks that paging allows. -/
theorem mainMemory_movesUser (hL : L.InKernel) (hcr0 : s.control.cr0 = bootCr0)
    (hzero : s.mm.ZeroDirectories L) {mask : Addr → Byte} (hmask : L.Marks mask)
    (μ : Marking (clear mask)) {m : Bytes} (hm : SameUpTo (clear mask) (mainMemory L s).mm.mem m)
    {sysSize usrSize : ℕ} (hfit : sysSize + usrSize ≤ 0x7f000)
    (himage : ∀ b, InImage sysSize usrSize b → mask b = 0)
    (hsys : m.load pSysSize = BitVec.ofNat 32 sysSize)
    (husr : m.load pUsrSize = BitVec.ofNat 32 usrSize) :
    (usrSize ≤ (numPagCode + numPagData) * pageSize → ∃ m',
        runKernel μ (mainMemory L s).control moveUserProgram m = some ((), m') ∧
        (∀ acc, (mainMemory L s).control.translate m' acc =
          (mainMemory L s).control.translate m acc) ∧
        (∀ b, b.toNat < lUserStart → clear mask b (m' b) = clear mask b (m b)) ∧
        ∀ k < usrSize,
          AddressMap.view ((mainMemory L s).control.translate m' ⟨true, false⟩) m'
              (BitVec.ofNat 32 lUserStart + BitVec.ofNat 32 k) =
            some (m (BitVec.ofNat 32 kernelStart + BitVec.ofNat 32 (sysSize + k)))) ∧
      ((numPagCode + numPagData) * pageSize < usrSize →
        runKernel μ (mainMemory L s).control moveUserProgram m = none) := by
  have htwin := owned_mainTwin L hzero
  have hwalk : ∀ {m' : Bytes}, TablesUpTo L mask (mainMemory L s).mm.mem m' →
      WalkUpTo L 0 (mainMemory L s).mm.mem m' := fun h => h.walk hmask (by decide)
  have htables := tablesUpTo L hm
  obtain ⟨n, hn, hflat⟩ := exists_flat_image hzero hfit himage m
  have hsysN : n.load pSysSize = BitVec.ofNat 32 sysSize := by
    have hzeroth := load_of_image (k := 0) hflat (by omega)
    rw [BitVec.add_zero] at hzeroth
    exact hzeroth.trans hsys
  have husrN : n.load pUsrSize = BitVec.ofNat 32 usrSize :=
    (load_of_image (k := 4) hflat (by omega)).trans husr
  have hint : (n.load pUsrSize).toInt = usrSize := by
    rw [husrN, BitVec.toInt_eq_toNat_of_lt (by bv_omega), BitVec.toNat_ofNat,
      Nat.mod_eq_of_lt (by omega)]
  have huser : ∀ i < usrSize, (BitVec.ofNat 32 lUserStart + BitVec.ofNat 32 i).toNat =
      lUserStart + i := fun i hi => by
    rw [lUserStart]
    bv_omega
  have hcareful : moveUserProgram.Within (Unmarked mask) (fun a => lUserStart ≤ a.toNat) n :=
    (moveUserProgram_within_image (P := Unmarked mask) hfit hsysN hint
      fun b hb _ => himage b hb).mpr fun i hi => huser i hi ▸ Nat.le_add_right _ _
  obtain ⟨hruns, hfaults⟩ := mainMemory_program hL hcr0 hzero hmask μ htables hn
    moveUserProgram (fun a ha hlt => absurd ha (not_le.mpr hlt)) hcareful
  rw [moveUserProgram_within_iff hzero hfit hsysN hint] at hruns hfaults
  refine ⟨fun hle => ?_, fun hlt => hfaults (not_le.mpr hlt)⟩
  obtain ⟨m', hrun, htables', hframe, hshows⟩ := hruns hle
  have hspace := translate_of_walk_mainMemory hcr0 hzero (hwalk (htables.trans htables'))
  refine ⟨m', hrun, fun acc => (hspace acc).trans
    (translate_of_walk_mainMemory hcr0 hzero (hwalk htables) acc).symm, fun b hb => ?_,
    fun k hk => ?_⟩
  · -- what the copy stores is behind the first megabyte, in memory as in the kernel's space
    by_contra hne
    obtain ⟨a, ha, hab⟩ := hframe b hne
    have hge := (htwin.behind (by decide) hab ha).2
    omega
  · have hge : lUserStart ≤ (BitVec.ofNat 32 lUserStart + BitVec.ofNat 32 k).toNat :=
      huser k hk ▸ Nat.le_add_right _ _
    obtain ⟨q, hq, hprogram, hqge⟩ :=
      exists_mainTwin_place hzero hge (by rw [huser k hk]; omega)
    have harrived := hshows.eq hq (clear_injective (hmask.user q hqge))
    rw [moveUserProgram_moved hfit hsysN husrN hk] at harrived
    rw [hspace, AddressMap.view_of_some hprogram, ← harrived]
    refine congrArg some (hflat _ (Or.inr ?_))
    rw [Bytes.toNat_add_sub _ (by omega)]
    omega

/-- **The copy of the user program under paging.**  It faults if the program is longer than
the user's pages.  Otherwise it changes nothing below them but marks, leaves translation
alone, and the user finds the program there. -/
theorem userImage_run (hL : L.SelfMapped) (hcr0 : s.control.cr0 = bootCr0)
    (hzero : s.mm.ZeroDirectories L) (μ : Marking (clear (pagingMarks L))) {m : Bytes}
    (hm : SameUpTo (clear (pagingMarks L)) (mainMemory L s).mm.mem m)
    {sysSize usrSize : ℕ} (hfit : sysSize + usrSize ≤ 0x7f000)
    (himage : ∀ b, InImage sysSize usrSize b → OffTables L b)
    (hsys : m.load pSysSize = BitVec.ofNat 32 sysSize)
    (husr : m.load pUsrSize = BitVec.ofNat 32 usrSize) :
    (usrSize ≤ (numPagCode + numPagData) * pageSize → ∃ m',
        runKernel μ (mainMemory L s).control moveUserProgram m = some ((), m') ∧
        (∀ acc, (mainMemory L s).control.translate m' acc =
          (mainMemory L s).control.translate m acc) ∧
        (∀ b, b.toNat < lUserStart →
          clear (pagingMarks L) b (m' b) = clear (pagingMarks L) b (m b)) ∧
        ∀ k < usrSize,
          AddressMap.view ((mainMemory L s).control.translate m' ⟨true, false⟩) m'
              (BitVec.ofNat 32 lUserStart + BitVec.ofNat 32 k) =
            some (m (BitVec.ofNat 32 kernelStart + BitVec.ofNat 32 (sysSize + k)))) ∧
      ((numPagCode + numPagData) * pageSize < usrSize →
        runKernel μ (mainMemory L s).control moveUserProgram m = none) :=
  mainMemory_movesUser hL.ends hcr0 hzero (marks_pagingMarks hL.ends) μ hm hfit
    (fun b hb => (himage b hb).pagingMarks) hsys husr

end Main

/-- A system of 12 bytes and a user program of three. -/
def smallImage : Bytes := fun a =>
  if a = 0x10000#32 then 12 else if a = 0x10004#32 then 3 else if a = 0x1000d#32 then 7 else 0

/-- As the boot sector leaves it. -/
def bootedPaged : Paged := ⟨⟨fun _ => 0, smallImage⟩, ⟨bootCr0, 0⟩⟩

theorem zeroDirectories_bootedPaged : bootedPaged.mm.ZeroDirectories kernelLayout := by
  intro t ht k hk
  have hword := kernelLayout.entryAddr_dirAddr_toNat ht hk
  have hdir : kernelLayout.dirPages.toNat = 0x22000 := by decide
  rw [hdir] at hword
  simp only [nrTasks, totalPages] at ht hk
  refine (Bytes.load_congr fun i hi => ?_).trans (zeroDirectories_blankMm kernelLayout t ht k hk)
  show smallImage _ = 0
  rw [smallImage, if_neg (by bv_omega), if_neg (by bv_omega), if_neg (by bv_omega)]

theorem mainMemory_ready_booted : (mainMemory kernelLayout bootedPaged).Ready ∧
    ∀ write b, ¬ OffTables kernelLayout b →
      (initMm kernelLayout bootedPaged).control.translate (initMm kernelLayout bootedPaged).mm.mem
        ⟨false, write⟩ b = some b :=
  mainMemory_ready selfMapped_kernelLayout rfl zeroDirectories_bootedPaged

/-- What is below the tables, the directories and the tasks. -/
theorem offTables_kernelLayout {b : Addr} (hb : b.toNat < 0x18000) : OffTables kernelLayout b := by
  have htable : kernelLayout.pagusrTable.toNat = 0x2c000 := by decide
  have hdir : kernelLayout.dirPages.toNat = 0x22000 := by decide
  have htask : kernelLayout.task.toNat = 0x18000 := by decide
  exact kernelLayout.offTables (Or.inl (by omega)) (Or.inl (by omega)) fun t _ => Or.inl (by omega)

/-- The small image is moved, with all entries marked. -/
theorem userImage_run_small : ∃ m',
    runKernel (Marking.constant (pagingMarks kernelLayout) fun _ => 0xff)
      (mainMemory kernelLayout bootedPaged).control moveUserProgram
      (mainMemory kernelLayout bootedPaged).mm.mem = some ((), m') := by
  have hload : ∀ w : Addr, w.toNat + 4 ≤ 0x18000 →
      (mainMemory kernelLayout bootedPaged).mm.mem.load w = smallImage.load w := fun w hlt =>
    Bytes.load_congr fun i hi => mainMemory_apply (offTables_kernelLayout (by bv_omega))
  have hsys : smallImage.load pSysSize = BitVec.ofNat 32 12 := by decide
  have husr : smallImage.load pUsrSize = BitVec.ofNat 32 3 := by decide
  have himage : ∀ b, InImage 12 3 b → OffTables kernelLayout b := fun b hb => by
    simp only [InImage, kernelStart] at hb
    exact offTables_kernelLayout (by bv_omega)
  obtain ⟨m', hrun, -⟩ := (userImage_run selfMapped_kernelLayout rfl zeroDirectories_bootedPaged _
    (SameUpTo.refl _ _) (by decide) himage ((hload pSysSize (by decide)).trans hsys)
    ((hload pUsrSize (by decide)).trans husr)).1 (by decide)
  exact ⟨m', hrun⟩

end Zeos
