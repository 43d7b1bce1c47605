import Zeos.MmAddress
import Zeos.Types

/-!
# Frames and page tables (`mm.c`, `sched.c`)

Every task has a page directory and a page table.  A task is known by the address
of its `task_struct`, which holds the address of the directory, and the first
entry of the directory holds the frame number of the table; `get_PT` follows these
two words to find the table in memory.  So the model keeps the tasks, directories
and tables in byte memory, at addresses given by a `Layout`, and page table
entries are words of that memory.  The bytemap of frames, `phys_mem`, is an
array of its own.

The functions are translated loop by loop; `Zeos.Paging` says what they do to the
tables.

`Layout` says where the linker has put the three arrays: aligned, without wrapping, and
apart from each other.  This is all that the functions need of it, and so everything that
is proved holds for every such placement. Allocation fails with -1, which the callers do
not test: the truncation to the twenty bits of an entry is done by the store of the field,
as in the source.
-/

namespace Zeos

open Machine PageTableEntry

/-! ## The state -/

/-- `NR_TASKS`. -/
def nrTasks : ℕ := 10

/-- `PAGE_SIZE`, also the size of `union task_union` and of a table of 1024
entries. -/
def pageSize : ℕ := 4096

/-- Where the linker has put `task`, `dir_pages` and `pagusr_table`: the section
`.data.task` begins on a page boundary and each of the three is a whole number of
pages. -/
structure Layout where
  task : Addr
  dirPages : Addr
  pagusrTable : Addr
  task_aligned : pageSize ∣ task.toNat
  dirPages_aligned : pageSize ∣ dirPages.toNat
  pagusrTable_aligned : pageSize ∣ pagusrTable.toNat
  task_fits : task.toNat + nrTasks * pageSize ≤ 2 ^ 32
  dirPages_fits : dirPages.toNat + nrTasks * pageSize ≤ 2 ^ 32
  pagusrTable_fits : pagusrTable.toNat + nrTasks * pageSize ≤ 2 ^ 32
  task_dirPages : task.toNat + nrTasks * pageSize ≤ dirPages.toNat ∨
    dirPages.toNat + nrTasks * pageSize ≤ task.toNat
  task_pagusrTable : task.toNat + nrTasks * pageSize ≤ pagusrTable.toNat ∨
    pagusrTable.toNat + nrTasks * pageSize ≤ task.toNat
  dirPages_pagusrTable : dirPages.toNat + nrTasks * pageSize ≤ pagusrTable.toNat ∨
    pagusrTable.toNat + nrTasks * pageSize ≤ dirPages.toNat

/-- The `i`-th page-sized element of an array of them. -/
def pageAt (base : Addr) (i : ℕ) : Addr := base + BitVec.ofNat 32 (pageSize * i)

namespace Layout

variable (L : Layout)

/-- `&task[i]`. -/
def taskAddr (i : ℕ) : Addr := pageAt L.task i

/-- `&dir_pages[i]`. -/
def dirAddr (i : ℕ) : Addr := pageAt L.dirPages i

/-- `&pagusr_table[i]`. -/
def tableAddr (i : ℕ) : Addr := pageAt L.pagusrTable i

end Layout

/-- The bytemap of frames and the memory that holds tasks and tables. -/
structure Mm where
  physMem : ℕ → Byte
  mem : Bytes

/-- `&PT[k]`. -/
def entryAddr (table : Addr) (k : ℕ) : Addr := table + BitVec.ofNat 32 (4 * k)

/-- The field `dir_pages_baseAddr` of a `task_struct`, behind the `PID`. -/
def dirField (t : Addr) : Addr := t + 4#32

/-! ## Frames -/

/-- `FREE_FRAME`. -/
def freeFrameMark : Byte := 0

/-- `USED_FRAME`. -/
def usedFrameMark : Byte := 1

/-- Mark all frames as free, then the kernel's as used. -/
def initFrames (physMem : ℕ → Byte) : ℕ → Byte :=
  let physMem := (List.range totalPages).foldl
    (fun m i => Function.update m i freeFrameMark) physMem
  (List.range numPagKernel).foldl (fun m i => Function.update m i usedFrameMark) physMem

/-- The search loop of `alloc_frame`, from frame `i` on.  It skips every other
frame, on purpose. -/
def allocFrom (physMem : ℕ → Byte) (i : ℕ) : ℤ × (ℕ → Byte) :=
  if i < totalPages then
    if physMem i = freeFrameMark then (i, Function.update physMem i usedFrameMark)
    else allocFrom physMem (i + 2)
  else (-1, physMem)
termination_by totalPages - i

/-- Search a free frame and mark it as used; -1 if there is none. -/
def allocFrame (physMem : ℕ → Byte) : ℤ × (ℕ → Byte) :=
  allocFrom physMem numPagKernel

/-- Mark a frame as free. -/
def freeFrame (physMem : ℕ → Byte) (frame : DWord) : ℕ → Byte :=
  if numPagKernel < frame.toNat ∧ frame.toNat < totalPages then
    Function.update physMem frame.toNat freeFrameMark
  else physMem

/-! ## Directories -/

/-- The page directory of a task. -/
def getDIR (s : Mm) (t : Addr) : Addr := s.mem.load (dirField t)

/-- The page table of a task. -/
def getPT (s : Mm) (t : Addr) : Addr :=
  (pbaseAddr (s.mem.load (getDIR s t))).setWidth 32 <<< 12

/-- `allocate_DIR`: the directory goes by the place of the task in the vector. -/
def allocateDIR (L : Layout) (s : Mm) (t : Addr) : Mm :=
  let pos := (t - L.task) / BitVec.ofNat 32 pageSize
  { s with mem := s.mem.store (dirField t) (L.dirAddr pos.toNat) }

/-- One round of the loop of `init_dir_pages`. -/
def initDirPage (L : Layout) (m : Bytes) (i : ℕ) : Bytes :=
  let a := entryAddr (L.dirAddr i) entryDirPages
  let m := m.store a 0
  let m := m.modify a (setPbaseAddr · (L.tableAddr i >>> 12))
  let m := m.modify a (setUser · true)
  let m := m.modify a (setRw · true)
  m.modify a (setPresent · true)

/-- `init_dir_pages`. -/
def initDirPages (L : Layout) (s : Mm) : Mm :=
  { s with mem := (List.range nrTasks).foldl (initDirPage L) s.mem }

/-! ## Page tables -/

/-- Reset an entry. -/
def resetEntry (table : Addr) (m : Bytes) (i : ℕ) : Bytes :=
  m.modify (entryAddr table i) fun _ => 0

/-- Map a kernel page to the frame of the same number. -/
def initKernelPage (table : Addr) (m : Bytes) (i : ℕ) : Bytes :=
  let a := entryAddr table i
  let m := m.modify a (setPbaseAddr · (BitVec.ofNat 32 i))
  let m := m.modify a (setRw · true)
  m.modify a (setPresent · true)

/-- One round of the outer loop of `init_table_pages`.  Page 0 is left
inaccessible. -/
def initTable (L : Layout) (m : Bytes) (j : ℕ) : Bytes :=
  let m := (List.range totalPages).foldl (resetEntry (L.tableAddr j)) m
  (List.range' 1 (numPagKernel - 1)).foldl (initKernelPage (L.tableAddr j)) m

/-- `init_table_pages`. -/
def initTablePages (L : Layout) (s : Mm) : Mm :=
  { s with mem := (List.range nrTasks).foldl (initTable L) s.mem }

/-- One round of the code loop of `set_user_pages`. -/
def setCodePage (processPT : Addr) (s : Mm) (pag : ℕ) : Mm :=
  let (newPhPag, physMem) := allocFrame s.physMem
  let a := entryAddr processPT (pagLogInitCode + pag)
  let m := s.mem.store a 0
  let m := m.modify a (setPbaseAddr · (BitVec.ofInt 32 newPhPag))
  let m := m.modify a (setUser · true)
  let m := m.modify a (setPresent · true)
  { physMem := physMem, mem := m }

/-- One round of the data loop of `set_user_pages`. -/
def setDataPage (processPT : Addr) (s : Mm) (pag : ℕ) : Mm :=
  let (newPhPag, physMem) := allocFrame s.physMem
  let a := entryAddr processPT (pagLogInitData + pag)
  let m := s.mem.store a 0
  let m := m.modify a (setPbaseAddr · (BitVec.ofInt 32 newPhPag))
  let m := m.modify a (setUser · true)
  let m := m.modify a (setRw · true)
  let m := m.modify a (setPresent · true)
  { physMem := physMem, mem := m }

/-- Map the user's pages of a task.  The result of `alloc_frame` goes into the
entry without a test. -/
def setUserPages (s : Mm) (t : Addr) : Mm :=
  let processPT := getPT s t
  let s := (List.range numPagCode).foldl (setCodePage processPT) s
  (List.range numPagData).foldl (setDataPage processPT) s

/-- One round of the loop of `free_user_pages`. -/
def freeDataPage (processPT : Addr) (s : Mm) (pag : ℕ) : Mm :=
  let a := entryAddr processPT (pagLogInitData + pag)
  { physMem := freeFrame s.physMem ((pbaseAddr (s.mem.load a)).setWidth 32)
    mem := s.mem.store a 0 }

/-- Give the data pages of a task back. -/
def freeUserPages (s : Mm) (t : Addr) : Mm :=
  (List.range numPagData).foldl (freeDataPage (getPT s t)) s

/-- Associate a logical page with a frame. -/
def setSsPag (s : Mm) (PT : Addr) (page frame : DWord) : Mm :=
  let a := entryAddr PT page.toNat
  let m := s.mem.store a 0
  let m := m.modify a (setPbaseAddr · frame)
  let m := m.modify a (setUser · true)
  let m := m.modify a (setRw · true)
  let m := m.modify a (setPresent · true)
  { s with mem := m }

/-- Remove the mapping of a logical page. -/
def delSsPag (s : Mm) (PT : Addr) (page : DWord) : Mm :=
  { s with mem := s.mem.store (entryAddr PT page.toNat) 0 }

/-- The frame that a logical page is mapped to. -/
def getFrame (s : Mm) (PT : Addr) (logicalPage : DWord) : DWord :=
  (pbaseAddr (s.mem.load (entryAddr PT logicalPage.toNat))).setWidth 32

/-- The task on whose kernel stack `esp` points. -/
def current (esp : DWord) : Addr := esp &&& 0xfffff000#32

/-- Initialization up to the point where pages can be mapped: the tables, the
frames, the directories, and a directory for every task. -/
def boot (L : Layout) (s : Mm) : Mm :=
  let s := initTablePages L s
  let s := { s with physMem := initFrames s.physMem }
  let s := initDirPages L s
  (List.range nrTasks).foldl (fun s i => allocateDIR L s (L.taskAddr i)) s

end Zeos
