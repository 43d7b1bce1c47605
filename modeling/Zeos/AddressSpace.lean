import Zeos.GiveBack
import Zeos.Machine.AddressMap
import Zeos.Machine.Mmu
import Zeos.UserPointer

/-!
# The address spaces of the tasks (`mm.c`)

What the tables mean to the processor.  `init_mm` loads `cr3` with the directory of
task 0 and turns paging on; from then on every address, also the kernel's own, goes
through directory and table.

The kernel keeps its data in the first megabyte, which every table maps to itself, so
that paging makes no difference to it (`Spaced.kernel`); a user gets what
`set_user_pages` has mapped (`space_eq`).  `addressSpaces_run` says this of every
state of every run of the functions that change tables.

The one hypothesis is that memory is zero where the directories are (`ZeroDirectories`),
as C promises of a variable without a value.  It is load-bearing: `init_mm` fills in the
first entry of a directory and leaves the others, and a word of the BIOS there would be an
entry to the processor.  Of the tables nothing is asked, since `init_table_pages` writes
every entry.  The frames that `set_ss_pag` is called with in a run are frames of users,
from 256 on (`UserFrame`); with one of the kernel's it would open the kernel to a program.
-/

namespace Zeos

open Machine PageTableEntry

/-! ## The control registers -/

/-- Memory, and the registers that say how it is addressed. -/
structure Paged where
  mm : Mm
  control : Control

/-- Load the directory. -/
def setCr3 (dir : Addr) (s : Paged) : Paged := { s with control := { s.control with cr3 := dir } }

/-- Turn paging on. -/
def setPeFlag (s : Paged) : Paged :=
  { s with control := { s.control with cr0 := s.control.cr0 ||| 0x80000000#32 } }

/-- Initializes paging for the system address space. -/
def initMm (L : Layout) (s : Paged) : Paged :=
  let mm := initTablePages L s.mm
  let mm := { mm with physMem := initFrames mm.physMem }
  let mm := initDirPages L mm
  let mm := allocateDIR L mm (L.taskAddr 0)
  setPeFlag (setCr3 (getDIR mm (L.taskAddr 0)) { s with mm := mm })

/-- `cr0` as the boot sector loads it: protected mode and nothing else. -/
def bootCr0 : DWord := 1

/-- The control registers with a directory loaded and paging turned on. -/
def pagingControl (dir : Addr) : Control := ⟨bootCr0 ||| 0x80000000#32, dir⟩

@[simp] theorem pagingControl_paging (dir : Addr) : (pagingControl dir).paging = true := by
  show (bootCr0 ||| 0x80000000#32).getLsbD 31 = true
  decide

@[simp] theorem pagingControl_writeProtect (dir : Addr) :
    (pagingControl dir).writeProtect = false := by
  show (bootCr0 ||| 0x80000000#32).getLsbD 16 = false
  decide

@[simp] theorem pagingControl_cr3 (dir : Addr) : (pagingControl dir).cr3 = dir := rfl

/-! ## Spaces -/

/-- The space of a task, for an access: what the processor finds with the task's
directory loaded. -/
def Mm.space (L : Layout) (s : Mm) (t : ℕ) (acc : Access) : AddressMap Addr Addr :=
  (pagingControl (getDIR s (L.taskAddr t))).translate s.mem acc

/-- The number of the page of an address. -/
def pageOf (a : Addr) : ℕ := a.toNat / pageSize

/-- Every directory has one entry, which leads to the task's table and lets every
access pass. -/
structure Mm.Directed (L : Layout) (s : Mm) : Prop where
  first : ∀ t < nrTasks, s.mem.load (L.dirAddr t) = dataEntry (L.tableAddr t >>> 12)
  rest : ∀ t < nrTasks, ∀ k < totalPages, k ≠ 0 → s.mem.load (entryAddr (L.dirAddr t) k) = 0

/-- The loader leaves the directories, which the program does not initialize, zero. -/
def Mm.ZeroDirectories (L : Layout) (s : Mm) : Prop :=
  ∀ t < nrTasks, ∀ k < totalPages, s.mem.load (entryAddr (L.dirAddr t) k) = 0

theorem index_lt (i : BitVec 10) : i.toNat < totalPages := by
  have hi := i.isLt
  rw [totalPages]
  omega

namespace Layout

variable (L : Layout)

/-- An entry that holds the frame of an aligned page leads into that page. -/
theorem slotIn_eq {e : DWord} {base : Addr}
    (hbase : (e.extractLsb' 12 20).toNat * 4096 = base.toNat)
    (i : BitVec 10) : slotIn e i = entryAddr base i.toNat := by
  have hi := i.isLt
  have hlt := (slotIn e i).isLt
  apply BitVec.eq_of_toNat_eq
  rw [slotIn_toNat] at hlt ⊢
  rw [entryAddr, BitVec.toNat_add, BitVec.toNat_ofNat, hbase]
  rw [hbase] at hlt
  omega

theorem slotIn_dirAddr {t : ℕ} (ht : t < nrTasks) (i : BitVec 10) :
    slotIn (L.dirAddr t) i = entryAddr (L.dirAddr t) i.toNat := by
  have haligned := L.dirPages_aligned
  have hdir := L.dirAddr_toNat ht
  have hlt := (L.dirAddr t).isLt
  refine slotIn_eq ?_ i
  rw [BitVec.extractLsb'_toNat, Nat.shiftRight_eq_div_pow]
  simp only [pageSize] at haligned
  omega

theorem slotIn_dataEntry {t : ℕ} (ht : t < nrTasks) (i : BitVec 10) :
    slotIn (dataEntry (L.tableAddr t >>> 12)) i = entryAddr (L.tableAddr t) i.toNat := by
  have hbase : pbaseAddr (dataEntry (L.tableAddr t >>> 12)) =
      (L.tableAddr t >>> 12).setWidth 20 := by
    rw [dataEntry, pbaseAddr_setPresent, pbaseAddr_setRw, pbaseAddr_setUser,
      pbaseAddr_setPbaseAddr]
  have hframe := congrArg BitVec.toNat (L.tableAddr_of_frame ht)
  refine slotIn_eq ?_ i
  have hpage : (dataEntry (L.tableAddr t >>> 12)).extractLsb' 12 20 =
      (L.tableAddr t >>> 12).setWidth 20 := hbase
  rw [hpage]
  rw [← hframe]
  generalize (L.tableAddr t >>> 12).setWidth 20 = x
  have hx := x.isLt
  rw [BitVec.toNat_shiftLeft, BitVec.toNat_setWidth, Nat.shiftLeft_eq]
  omega

end Layout

/-- The entry of a directory lets every access pass. -/
theorem dataEntry_open (frame : DWord) : (dataEntry frame).getLsbD 0 = true ∧
    (dataEntry frame).getLsbD 1 = true ∧ (dataEntry frame).getLsbD 2 = true := by
  have hpresent : present (dataEntry frame) = true := by rw [dataEntry, present_setPresent]
  have hrw : rw (dataEntry frame) = true := by rw [dataEntry, rw_setPresent, rw_setRw]
  have huser : user (dataEntry frame) = true := by
    rw [dataEntry, user_setPresent, user_setRw, user_setUser]
  exact ⟨hpresent, hrw, huser⟩

/-! ## What a space is -/

section Walk

variable {L : Layout} {s : Mm} {p : Paging} {t : ℕ}

/-- **The processor finds what the tables say.** -/
theorem space_eq (h : Refines L s p) (hd : s.Directed L) (ht : t < nrTasks) (acc : Access)
    (a : Addr) :
    s.space L t acc a =
      if pageOf a < totalPages ∧
          (pagingControl (L.dirAddr t)).allows acc (p.table (t, pageOf a)) = true then
        some (byteIn (p.table (t, pageOf a)) a)
      else none := by
  have hindex := dirIndex_toNat a
  have hslot := L.slotIn_dirAddr ht (a.extractLsb' 22 10)
  rw [Mm.space, h.linked.dir t ht, Control.translate, if_pos (pagingControl_paging _)]
  -- only the first entry of the directory is there, the one for the first four megabytes
  by_cases hfirst : a.toNat < 2 ^ 22
  · have hzero : (a.extractLsb' 22 10).toNat = 0 := by
      rw [hindex]
      omega
    rw [hzero, entryAddr, Nat.mul_zero, BitVec.add_zero] at hslot
    have hentry := hd.first t ht
    rw [← hslot] at hentry
    have hpage : (a.extractLsb' 12 10).toNat = pageOf a := by
      rw [tableIndex_toNat, pageOf, pageSize]
      omega
    have hin : pageOf a < totalPages := by
      rw [← hpage]
      exact index_lt _
    obtain ⟨hpresent, hrw, huser⟩ := dataEntry_open (L.tableAddr t >>> 12)
    rw [Control.walk_of_open (c := pagingControl (L.dirAddr t)) hentry hpresent hrw huser,
      L.slotIn_dataEntry ht, hpage,
      h.load ht hin]
    simp only [hin, true_and]
  · have hpos : (a.extractLsb' 22 10).toNat ≠ 0 := by
      rw [hindex]
      omega
    have hentry := hd.rest t ht _ (index_lt _) hpos
    rw [← hslot] at hentry
    have hclear : (s.mem.load (slotIn (L.dirAddr t) (a.extractLsb' 22 10))).getLsbD 0 = false := by
      rw [hentry]
      exact BitVec.getLsbD_zero
    rw [Control.walk_of_not_present (c := pagingControl (L.dirAddr t)) hclear, if_neg]
    rw [pageOf, pageSize, totalPages]
    omega

/-- Where the words of a task's directory and of its table are the same, marks apart, so is
what the processor finds. -/
theorem Refines.translate_congr (h : Refines L s p) (hd : s.Directed L) (ht : t < nrTasks)
    {m : Bytes}
    (hdir : ∀ k < totalPages, m.load (entryAddr (L.dirAddr t) k) &&& ~~~entryMarks =
      s.mem.load (entryAddr (L.dirAddr t) k) &&& ~~~entryMarks)
    (htable : ∀ k < totalPages, m.load (entryAddr (L.tableAddr t) k) &&& ~~~entryMarks =
      s.mem.load (entryAddr (L.tableAddr t) k) &&& ~~~entryMarks)
    (acc : Access) :
    (pagingControl (L.dirAddr t)).translate m acc = s.space L t acc := by
  rw [Mm.space, h.linked.dir t ht]
  refine Control.translate_congr (fun i => ?_) (fun i hpresent j => ?_) acc
  · rw [pagingControl_cr3, L.slotIn_dirAddr ht]
    exact hdir _ (index_lt i)
  · -- only the first word of the directory leads anywhere
    rw [pagingControl_cr3, L.slotIn_dirAddr ht] at hpresent ⊢
    have hfirst : i.toNat = 0 := by
      by_contra hpos
      rw [hd.rest t ht _ (index_lt i) hpos] at hpresent
      exact absurd hpresent (by decide)
    have hentry := hd.first t ht
    rw [hfirst, entryAddr, Nat.mul_zero, BitVec.add_zero, hentry, L.slotIn_dataEntry ht]
    exact htable _ (index_lt j)

end Walk

/-! ## Directories -/

section Directories

variable {L : Layout} {s : Mm}

theorem Layout.entryAddr_dirAddr_dvd (L : Layout) {t k : ℕ} (ht : t < nrTasks)
    (hk : k < totalPages) : 4 ∣ (entryAddr (L.dirAddr t) k).toNat := by
  have h := L.dirPages_aligned
  rw [L.entryAddr_dirAddr_toNat ht hk]
  simp only [pageSize] at h
  omega

/-- A word of a directory behind the first is none of the words that initialization
stores. -/
theorem Layout.dirWord_ne (L : Layout) {t k : ℕ} (ht : t < nrTasks) (hk : k < totalPages)
    (hpos : k ≠ 0) :
    (∀ j < nrTasks, ∀ i < totalPages, entryAddr (L.dirAddr t) k ≠ entryAddr (L.tableAddr j) i) ∧
      (∀ j < nrTasks, entryAddr (L.dirAddr t) k ≠ L.dirAddr j) ∧
      ∀ j < nrTasks, entryAddr (L.dirAddr t) k ≠ dirField (L.taskAddr j) := by
  have hword := L.entryAddr_dirAddr_toNat ht hk
  have htables := L.dirPages_pagusrTable
  have htasks := L.task_dirPages
  simp only [nrTasks, pageSize, totalPages] at *
  refine ⟨fun j hj i hi heq => ?_, fun j hj heq => ?_, fun j hj heq => ?_⟩
  · rw [heq, L.entryAddr_tableAddr_toNat hj hi] at hword
    omega
  · rw [heq, L.dirAddr_toNat hj] at hword
    omega
  · rw [heq, L.dirField_taskAddr_toNat hj] at hword
    omega

/-- Initialization sets up the directories. -/
theorem directed_boot (L : Layout) {s : Mm} (hzero : s.ZeroDirectories L) :
    (boot L s).Directed L := by
  constructor
  · intro t ht
    exact load_dirAddr_boot L s ht
  · intro t ht k hk hpos
    obtain ⟨htable, hdir, hfield⟩ := L.dirWord_ne ht hk hpos
    rw [load_boot_of_ne L s (L.entryAddr_dirAddr_dvd ht hk) htable hdir hfield]
    exact hzero t ht k hk

/-- The byte belongs to the page tables. -/
def InTables (L : Layout) (b : Addr) : Prop :=
  L.pagusrTable.toNat ≤ b.toNat ∧ b.toNat < L.pagusrTable.toNat + nrTasks * pageSize

theorem outside_of_not_inTables {b : Addr} (hb : ¬ InTables L b) {t k : ℕ} (ht : t < nrTasks)
    (hk : k < totalPages) : 4 ≤ (b - entryAddr (L.tableAddr t) k).toNat := by
  have hword := L.entryAddr_tableAddr_toNat ht hk
  have hfits := L.pagusrTable_fits
  have hlt := b.isLt
  simp only [InTables, nrTasks, pageSize, totalPages] at *
  rw [BitVec.toNat_sub, hword]
  omega

/-- The functions store into the tables alone. -/
theorem pageStep_mem_of_outside (h : s.Linked L) (op : PageOp) {b : Addr}
    (hb : ¬ InTables L b) : (pageStep L s op).mem b = s.mem b := by
  have hslots : ∀ t < nrTasks, OutsideUserSlots L t b := fun t ht k _ hk =>
    outside_of_not_inTables hb ht (lt_of_lt_of_le hk (by decide))
  cases op with
  | user op =>
      cases op with
      | setUserPages t => exact setUserPages_mem_apply h t.isLt (hslots t t.isLt)
      | freeUserPages t => exact freeUserPages_mem_apply h t.isLt (hslots t t.isLt)
  | setSsPag t page frame =>
      simp only [pageStep, setSsPag, Bytes.store_modify]
      rw [h.table t t.isLt]
      exact Bytes.write_apply_of_le _ _ _ (outside_of_not_inTables hb t.isLt page.lt)
  | delSsPag t page =>
      simp only [pageStep, delSsPag]
      rw [h.table t t.isLt]
      exact Bytes.write_apply_of_le _ _ _ (outside_of_not_inTables hb t.isLt page.lt)

/-- The bytes of a directory's words do not belong to the tables. -/
theorem Layout.not_inTables_dirWord (L : Layout) {t k i : ℕ} (ht : t < nrTasks)
    (hk : k < totalPages) (hi : i < 4) :
    ¬ InTables L (entryAddr (L.dirAddr t) k + BitVec.ofNat 32 i) := by
  have hword := L.entryAddr_dirAddr_toNat ht hk
  have hfits := L.dirPages_fits
  have hapart := L.dirPages_pagusrTable
  simp only [InTables, nrTasks, pageSize, totalPages] at *
  rw [BitVec.toNat_add, BitVec.toNat_ofNat, hword]
  omega

/-- What leaves the rest of memory alone leaves the directories alone. -/
theorem Mm.Directed.congr {s' : Mm} (h : s.Directed L)
    (hmem : ∀ b, ¬ InTables L b → s'.mem b = s.mem b) : s'.Directed L := by
  have hload : ∀ t < nrTasks, ∀ k < totalPages,
      s'.mem.load (entryAddr (L.dirAddr t) k) = s.mem.load (entryAddr (L.dirAddr t) k) :=
    fun t ht k hk => Bytes.load_congr fun i hi => hmem _ (L.not_inTables_dirWord ht hk hi)
  constructor
  · intro t ht
    have hword := hload t ht 0 (by decide)
    rw [entryAddr, Nat.mul_zero, BitVec.add_zero] at hword
    rw [hword, h.first t ht]
  · intro t ht k hk hpos
    rw [hload t ht k hk, h.rest t ht k hk hpos]

theorem Mm.Directed.pageStep (h : s.Directed L) (hlinked : s.Linked L) (op : PageOp) :
    (pageStep L s op).Directed L :=
  h.congr fun _ hb => pageStep_mem_of_outside hlinked op hb

end Directories

/-! ## The spaces in every run -/

/-- What the kernel counts on: nobody reaches page 0 or anything beyond the tables, the
kernel finds the first megabyte where it is, and a user neither names nor reaches it. -/
structure Mm.AddressSpaces (L : Layout) (s : Mm) : Prop where
  null : ∀ t < nrTasks, ∀ acc a, a.toNat < pageSize → s.space L t acc a = none
  beyond : ∀ t < nrTasks, ∀ acc a, totalPages * pageSize ≤ a.toNat → s.space L t acc a = none
  kernel : ∀ t < nrTasks, ∀ write a, pageSize ≤ a.toNat → a.toNat < lUserStart →
    s.space L t ⟨false, write⟩ a = some a
  user : ∀ t < nrTasks, ∀ write a b, s.space L t ⟨true, write⟩ a = some b →
    lUserStart ≤ a.toNat ∧ lUserStart ≤ b.toNat

section Spaces

variable {L : Layout} {s : Mm} {p : Paging}

/-- A page that is mapped to the frame of its own number is where it is. -/
theorem byteIn_of_same {e : DWord} {a : Addr} (h : (pbaseAddr e).toNat = pageOf a) :
    byteIn e a = a := by
  have hframe : (e.extractLsb' 12 20).toNat = pageOf a := h
  apply BitVec.eq_of_toNat_eq
  rw [byteIn_toNat, hframe, pageOf, pageSize]
  omega

/-- What a user may access is an entry for users. -/
theorem allows_user {c : Control} {write : Bool} {e : DWord}
    (h : c.allows ⟨true, write⟩ e = true) : present e = true ∧ user e = true := by
  simp only [Control.allows, Bool.and_eq_true, Bool.not_true, Bool.or_false] at h
  exact h.1

/-- The kernel may do everything with an entry that is present. -/
theorem allows_kernel {dir : Addr} {write : Bool} {e : DWord} (h : present e = true) :
    (pagingControl dir).allows ⟨false, write⟩ e = true := by
  have hpresent : e.getLsbD 0 = true := h
  simp [Control.allows, hpresent]

theorem not_allows_of_not_present {c : Control} {acc : Access} {e : DWord}
    (h : present e = false) : ¬ c.allows acc e = true := by
  have hpresent : e.getLsbD 0 = false := h
  rw [Control.allows, hpresent]
  simp

/-- The pages behind the kernel's are users' pages. -/
def Paging.UsersBehind (p : Paging) : Prop :=
  ∀ slot, numPagKernel ≤ slot.2 → present (p.table slot) = true → user (p.table slot) = true

/-- Memory `s` holds the tables `p` for the processor to find, and they are as the
functions keep them. -/
structure Spaced (L : Layout) (s : Mm) (p : Paging) : Prop where
  refines : Refines L s p
  directed : s.Directed L
  guarded : p.KernelProtected
  users : p.UsersBehind

namespace Paging

theorem UsersBehind.update {p : Paging} (h : p.UsersBehind) (slot : ℕ × ℕ) {e : PageTableEntry}
    (he : present e = true → PageTableEntry.user e = true) (physMem : ℕ → Byte) :
    UsersBehind { physMem := physMem, table := Function.update p.table slot e } := by
  intro slot' hge hpresent
  dsimp only at hpresent ⊢
  by_cases heq : slot' = slot
  · rw [heq, Function.update_self] at hpresent ⊢
    exact he hpresent
  · rw [Function.update_of_ne heq] at hpresent ⊢
    exact h slot' hge hpresent

theorem UsersBehind.pageStep {p : Paging} (h : p.UsersBehind) (op : PageOp) :
    (p.pageStep op).UsersBehind := by
  cases op with
  | user op =>
      cases op with
      | setUserPages t =>
          exact List.foldlRecOn (motive := UsersBehind) _ _ h fun p hp slot hslot =>
            hp.update slot.1 (fun _ => (userSlots_userEntry t slot hslot).user _) _
      | freeUserPages t =>
          exact List.foldlRecOn (motive := UsersBehind) _ _ h fun p hp pag _ =>
            hp.update _ (fun hzero => absurd hzero (by decide)) _
  | setSsPag t page frame => exact h.update _ (fun _ => userEntry_dataEntry.user _) _
  | delSsPag t page => exact h.update _ (fun hzero => absurd hzero (by decide)) _

theorem usersBehind_initial (physMem : ℕ → Byte) : (initial physMem).UsersBehind := by
  intro slot hge hpresent
  rw [initial] at hpresent
  dsimp only at hpresent
  rw [if_neg (by omega)] at hpresent
  exact absurd hpresent (by decide)

end Paging

theorem spaced_boot (L : Layout) {s : Mm} (hzero : s.ZeroDirectories L) :
    Spaced L (boot L s) (Paging.initial s.physMem) :=
  ⟨refines_boot L s, directed_boot L hzero, Paging.kernelProtected_initial _,
    Paging.usersBehind_initial _⟩

theorem Spaced.pageStep (h : Spaced L s p) (op : PageOp) :
    Spaced L (pageStep L s op) (p.pageStep op) :=
  ⟨refines_pageStep h.refines op, h.directed.pageStep h.refines.linked op, h.guarded.pageStep op,
    h.users.pageStep op⟩

/-- A page of the kernel is where it is. -/
theorem Spaced.kernel (h : Spaced L s p) {t : ℕ} (ht : t < nrTasks) (write : Bool) {a : Addr}
    (hge : pageSize ≤ a.toNat) (hlt : a.toNat < lUserStart) :
    s.space L t ⟨false, write⟩ a = some a := by
  have hpage : pageOf a < numPagKernel := (Nat.div_lt_iff_lt_mul (by decide)).mpr hlt
  have hpos : 1 ≤ pageOf a := (Nat.le_div_iff_mul_le (by decide)).mpr (by omega)
  obtain ⟨hbase, hpresent, -, -⟩ := kernelEntry_fields hpage
  have hentry : p.table (t, pageOf a) = kernelEntry (pageOf a) :=
    (h.guarded.kernel t ht _ hpage).trans (if_pos ⟨hpos, hpage⟩)
  rw [space_eq h.refines h.directed ht, hentry,
    if_pos ⟨lt_of_lt_of_le hpage (by decide), allows_kernel hpresent⟩, byteIn_of_same hbase]

theorem Spaced.null (h : Spaced L s p) {t : ℕ} (ht : t < nrTasks) (acc : Access) {a : Addr}
    (ha : a.toNat < pageSize) : s.space L t acc a = none := by
  have hpage : pageOf a = 0 := Nat.div_eq_of_lt ha
  rw [space_eq h.refines h.directed ht, hpage, h.guarded.kernel t ht 0 (by decide), if_neg]
  rintro ⟨-, hallows⟩
  exact not_allows_of_not_present (by decide) hallows

/-- What a space leads to, page by page. -/
theorem Spaced.eq_byteIn (h : Spaced L s p) {t : ℕ} (ht : t < nrTasks) {acc : Access} {a b : Addr}
    (hab : s.space L t acc a = some b) :
    pageOf a < totalPages ∧ b = byteIn (p.table (t, pageOf a)) a ∧
      (pagingControl (L.dirAddr t)).allows acc (p.table (t, pageOf a)) = true := by
  rw [space_eq h.refines h.directed ht] at hab
  split at hab
  · next hin => exact ⟨hin.1, (Option.some.inj hab).symm, hin.2⟩
  · exact absurd hab (by simp)

/-- Behind the kernel's pages there are users' pages, with frames behind the kernel's. -/
theorem Spaced.behind (h : Spaced L s p) {t : ℕ} (ht : t < nrTasks) {acc : Access} {a b : Addr}
    (hab : s.space L t acc a = some b) (hge : lUserStart ≤ a.toNat) :
    user (p.table (t, pageOf a)) = true ∧ lUserStart ≤ b.toNat := by
  obtain ⟨-, rfl, hallows⟩ := h.eq_byteIn ht hab
  have hpage : numPagKernel ≤ pageOf a := (Nat.le_div_iff_mul_le (by decide)).mpr hge
  have hpresent : present (p.table (t, pageOf a)) = true := by
    by_contra hno
    exact not_allows_of_not_present (Bool.eq_false_iff.mpr hno) hallows
  have huser := h.users (t, pageOf a) hpage hpresent
  have hframe : numPagKernel ≤ ((p.table (t, pageOf a)).extractLsb' 12 20).toNat :=
    h.guarded.user (t, pageOf a) huser
  refine ⟨huser, ?_⟩
  rw [byteIn_toNat, lUserStart]
  rw [numPagKernel] at hframe
  omega

/-- A user reaches nothing of the kernel. -/
theorem Spaced.user_ge (h : Spaced L s p) {t : ℕ} (ht : t < nrTasks) {write : Bool} {a b : Addr}
    (hab : s.space L t ⟨true, write⟩ a = some b) : lUserStart ≤ a.toNat := by
  obtain ⟨-, -, hallows⟩ := h.eq_byteIn ht hab
  obtain ⟨-, huser⟩ := allows_user hallows
  by_contra hlow
  have hpage : pageOf a < numPagKernel :=
    (Nat.div_lt_iff_lt_mul (by decide)).mpr (not_le.mp hlow)
  rw [h.guarded.kernel t ht _ hpage, initialEntry] at huser
  split at huser
  · rw [(kernelEntry_fields hpage).2.2.2] at huser
    exact absurd huser (by decide)
  · exact absurd huser (by decide)

theorem Spaced.addressSpaces (h : Spaced L s p) : s.AddressSpaces L where
  null _ ht acc _ ha := h.null ht acc ha
  beyond t ht acc a ha := by
    rw [space_eq h.refines h.directed ht, if_neg]
    rintro ⟨hlt, -⟩
    rw [pageOf, Nat.div_lt_iff_lt_mul (by decide)] at hlt
    omega
  kernel _ ht write _ hge hlt := h.kernel ht write hge hlt
  user _ ht _ _ _ hab := ⟨h.user_ge ht hab, (h.behind ht hab (h.user_ge ht hab)).2⟩

/-- **In every state of every run of the functions that change tables the address spaces
are as the kernel counts on.** -/
theorem addressSpaces_run (L : Layout) {s : Mm} (hzero : s.ZeroDirectories L)
    (ops : List PageOp) : AllStates (pageStep L) (Mm.AddressSpaces L) (boot L s) ops := by
  rw [allStates_iff_forall_foldl]
  intro bs _
  obtain ⟨p, hp⟩ := List.foldlRecOn (motive := fun s => ∃ p, Spaced L s p) bs (Zeos.pageStep L)
    ⟨_, spaced_boot L hzero⟩ fun _ ⟨_, hp⟩ op _ => ⟨_, hp.pageStep op⟩
  exact hp.addressSpaces

end Spaces

/-- A memory full of zeros. -/
def blankMm : Mm := { physMem := fun _ => 0, mem := fun _ => 0 }

theorem zeroDirectories_blankMm (L : Layout) : blankMm.ZeroDirectories L := by
  intro t _ k _
  show 0#8 ++ 0#8 ++ 0#8 ++ 0#8 = 0#32
  decide

/-- The page behind the last one of a task that has been given its pages twice. -/
def pageBehind : UserPage := ⟨284, by decide, by decide⟩

/-- The last entry of the task vector. -/
def lastTask : Fin nrTasks := ⟨9, by decide⟩

theorem addressSpaces_run_twice :
    AllStates (pageStep kernelLayout) (Mm.AddressSpaces kernelLayout) (boot kernelLayout blankMm)
      [.user (.setUserPages lastTask), .user (.setUserPages lastTask),
        .delSsPag lastTask pageBehind] :=
  addressSpaces_run kernelLayout (zeroDirectories_blankMm kernelLayout) _

end Zeos
