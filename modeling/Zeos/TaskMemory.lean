import Zeos.AddressSpace

/-!
# The memory of the tasks

Programs and the kernel store through the address spaces of `Zeos.AddressSpace`, in any
order with the functions that change tables (`MemoryOp`).  What a task sees along such a
run is a memory of its own, as long as no frame is missing and its own pages stay: its own
stores, and the kernel's in its space, one after another (`taskMemory_run`).

Two conditions carry this.  The kernel stores into no table (`KernelByte`), so that a store
changes no translation; and tables change with frames enough (`Granted`), so that a frame
is in one table only (`Owned`), and every byte behind the first megabyte has one name in
one space (`Owned.inj`).  That tasks, directories and tables end in the first megabyte
(`Layout.InKernel`) is what keeps programs' stores off them.

What the kernel has of such runs, and the bits that the processor marks in the tables on
its way, are the subject of `Zeos.Marks`.
-/

namespace Zeos

open Machine PageTableEntry

/-! ## What translation depends on -/

/-- The tasks, the directories and the tables end there. -/
structure Layout.EndsBy (L : Layout) (top : ℕ) : Prop where
  task : L.task.toNat + nrTasks * pageSize ≤ top
  dir : L.dirPages.toNat + nrTasks * pageSize ≤ top
  table : L.pagusrTable.toNat + nrTasks * pageSize ≤ top

/-- They lie in the first megabyte. -/
def Layout.InKernel (L : Layout) : Prop := L.EndsBy lUserStart

/-- They begin there. -/
structure Layout.BeginsAt (L : Layout) (bottom : ℕ) : Prop where
  task : bottom ≤ L.task.toNat
  dir : bottom ≤ L.dirPages.toNat
  table : bottom ≤ L.pagusrTable.toNat

/-- They lie where the kernel finds everything under its own address, with paging as
without. -/
structure Layout.SelfMapped (L : Layout) : Prop where
  ends : L.InKernel
  begins : L.BeginsAt pageSize

/-- The byte has no part in translation: it belongs to no table, to no directory and to
no field that holds a task's directory. -/
structure OffTables (L : Layout) (b : Addr) : Prop where
  table : ∀ t < nrTasks, ∀ k < totalPages, 4 ≤ (b - entryAddr (L.tableAddr t) k).toNat
  dir : ∀ t < nrTasks, ∀ k < totalPages, 4 ≤ (b - entryAddr (L.dirAddr t) k).toNat
  field : ∀ t < nrTasks, 4 ≤ (b - dirField (L.taskAddr t)).toNat

/-- The bytes that are outside all of these. -/
theorem Layout.offTables (L : Layout) {b : Addr}
    (htable : b.toNat < L.pagusrTable.toNat ∨ L.pagusrTable.toNat + nrTasks * pageSize ≤ b.toNat)
    (hdir : b.toNat < L.dirPages.toNat ∨ L.dirPages.toNat + nrTasks * pageSize ≤ b.toNat)
    (hfield : ∀ t < nrTasks,
      b.toNat < L.task.toNat + pageSize * t + 4 ∨ L.task.toNat + pageSize * t + 8 ≤ b.toNat) :
    OffTables L b := by
  have htables := L.pagusrTable_fits
  have hdirs := L.dirPages_fits
  have htasks := L.task_fits
  simp only [nrTasks, pageSize] at htable hdir hfield htables hdirs htasks
  constructor
  · intro t ht k hk
    have hword := L.entryAddr_tableAddr_toNat ht hk
    simp only [nrTasks, totalPages] at ht hk
    rw [BitVec.toNat_sub, hword]
    omega
  · intro t ht k hk
    have hword := L.entryAddr_dirAddr_toNat ht hk
    simp only [nrTasks, totalPages] at ht hk
    rw [BitVec.toNat_sub, hword]
    omega
  · intro t ht
    have hword := L.dirField_taskAddr_toNat ht
    have hout := hfield t ht
    rw [nrTasks] at ht
    rw [BitVec.toNat_sub, hword]
    omega

/-- Behind them nothing has a part in it. -/
theorem Layout.EndsBy.offTables {L : Layout} {top : ℕ} (hL : L.EndsBy top) {b : Addr}
    (hb : top ≤ b.toNat) : OffTables L b := by
  obtain ⟨htask, hdir, htable⟩ := hL
  refine L.offTables (Or.inr (htable.trans hb)) (Or.inr (hdir.trans hb)) fun t ht => Or.inr ?_
  simp only [nrTasks, pageSize] at htask ht ⊢
  omega

/-- What has a part in it can be reached under its own address. -/
theorem Layout.SelfMapped.range {L : Layout} (hL : L.SelfMapped) {b : Addr}
    (hb : ¬ OffTables L b) : pageSize ≤ b.toNat ∧ b.toNat < lUserStart := by
  obtain ⟨htask, hdir, htable⟩ := hL.begins
  refine ⟨?_, not_le.mp fun hge => hb (Layout.EndsBy.offTables hL.ends hge)⟩
  by_contra hlow
  exact hb (L.offTables (Or.inl (by omega)) (Or.inl (by omega)) fun t _ => Or.inl (by omega))

section Store

variable {L : Layout} {s : Mm} {p : Paging}

/-- A store into a byte that has no part in translation leaves the words that have. -/
theorem load_update_of_off {m : Bytes} {b w : Addr} (h : 4 ≤ (b - w).toNat) (v : Byte) :
    Bytes.load (Function.update m b v) w = m.load w := by
  refine Bytes.load_congr fun i hi => ?_
  have hne : w + BitVec.ofNat 32 i ≠ b := by
    rintro rfl
    rw [Bytes.toNat_add_sub w (by omega)] at h
    omega
  exact Function.update_of_ne hne v m

/-- Such a store is none to the tables. -/
theorem Spaced.update (h : Spaced L s p) {b : Addr} (hb : OffTables L b) (v : Byte) :
    Spaced L { s with mem := Function.update s.mem b v } p := by
  have hdir : ∀ t < nrTasks, Bytes.load (Function.update s.mem b v) (L.dirAddr t) =
      s.mem.load (L.dirAddr t) := fun t ht => by
    have hword := hb.dir t ht 0 (by decide)
    rw [entryAddr, Nat.mul_zero, BitVec.add_zero] at hword
    exact load_update_of_off hword v
  refine ⟨⟨h.refines.linked.congr (fun i hi => load_update_of_off (hb.field i hi) v) hdir, ?_⟩,
    ⟨fun t ht => ?_, fun t ht k hk hpos => ?_⟩, h.guarded, h.users⟩
  · rw [← h.refines.paging]
    simp only [Mm.paging, Paging.mk.injEq, true_and]
    funext slot
    split
    · next hin => exact load_update_of_off (hb.table _ hin.1 _ hin.2) v
    · rfl
  · exact (hdir t ht).trans (h.directed.first t ht)
  · exact (load_update_of_off (hb.dir t ht k hk) v).trans (h.directed.rest t ht k hk hpos)

/-- Where the tables are the same, the spaces are. -/
theorem Spaced.space_congr {s' : Mm} {p' : Paging} (h : Spaced L s p) (h' : Spaced L s' p') {t : ℕ}
    (ht : t < nrTasks) (hrow : ∀ k, p'.table (t, k) = p.table (t, k)) (acc : Access) :
    s'.space L t acc = s.space L t acc := by
  funext a
  rw [space_eq h.refines h.directed ht, space_eq h'.refines h'.directed ht, hrow]

end Store

/-! ## The operations -/

/-- A byte that the kernel may store to without changing tables. -/
structure KernelByte (L : Layout) where
  addr : Addr
  off : addr.toNat < lUserStart → OffTables L addr

/-- What happens to memory: a function changes tables, a task's program stores a byte,
or the kernel stores a byte while a task's directory is loaded. -/
inductive MemoryOp (L : Layout)
  | pages (op : PageOp)
  | userStore (t : Fin nrTasks) (a : Addr) (v : Byte)
  | kernelStore (t : Fin nrTasks) (a : KernelByte L) (v : Byte)

/-- Store a byte in the space of a task.  A store that faults changes nothing. -/
def Mm.storeIn (L : Layout) (s : Mm) (t : ℕ) (user : Bool) (a : Addr) (v : Byte) : Mm :=
  { s with mem := (s.space L t ⟨user, true⟩).store s.mem a v }

/-- What the operation does to the memory. -/
def memoryStep (L : Layout) (s : Mm) : MemoryOp L → Mm
  | .pages op => pageStep L s op
  | .userStore t a v => s.storeIn L t true a v
  | .kernelStore t a v => s.storeIn L t false a.addr v

section Steps

variable {L : Layout} {s : Mm} {p : Paging}

theorem Mm.storeIn_of_none {t : ℕ} {user : Bool} {a : Addr} (h : s.space L t ⟨user, true⟩ a = none)
    (v : Byte) : s.storeIn L t user a v = s := by
  rw [Mm.storeIn, AddressMap.store_of_none h]

theorem Mm.storeIn_of_some {t : ℕ} {user : Bool} {a b : Addr}
    (h : s.space L t ⟨user, true⟩ a = some b) (v : Byte) :
    s.storeIn L t user a v = { s with mem := Function.update s.mem b v } := by
  rw [Mm.storeIn, AddressMap.store_of_some h]

/-- A user's store reaches no byte of the first megabyte. -/
theorem Spaced.userStore_ge (h : Spaced L s p) {t : ℕ} (ht : t < nrTasks) {write : Bool}
    {a b : Addr} (hab : s.space L t ⟨true, write⟩ a = some b) : lUserStart ≤ b.toNat :=
  (h.behind ht hab (h.user_ge ht hab)).2

/-- The kernel reaches what translation depends on only by its own name. -/
theorem Spaced.kernelStore_off (hL : L.InKernel) (h : Spaced L s p) {t : ℕ} (ht : t < nrTasks)
    (a : KernelByte L) {b : Addr} (hab : s.space L t ⟨false, true⟩ a.addr = some b) :
    OffTables L b := by
  rcases Nat.lt_or_ge a.addr.toNat lUserStart with hlow | hhigh
  · rcases Nat.lt_or_ge a.addr.toNat pageSize with hnull | hge
    · rw [h.null ht _ hnull] at hab
      exact absurd hab (by simp)
    · rw [h.kernel ht true hge hlow] at hab
      obtain rfl := Option.some.inj hab
      exact a.off hlow
  · exact Layout.EndsBy.offTables hL (h.behind ht hab hhigh).2

/-- **Stores leave the tables alone.** -/
theorem Spaced.userStore (hL : L.InKernel) (h : Spaced L s p) (t : Fin nrTasks) (a : Addr)
    (v : Byte) : Spaced L (memoryStep L s (.userStore t a v)) p := by
  rw [memoryStep]
  cases hab : s.space L t ⟨true, true⟩ a with
  | none => rwa [Mm.storeIn_of_none hab]
  | some b =>
      rw [Mm.storeIn_of_some hab]
      exact h.update (Layout.EndsBy.offTables hL (h.userStore_ge t.isLt hab)) v

theorem Spaced.kernelStore (hL : L.InKernel) (h : Spaced L s p) (t : Fin nrTasks)
    (a : KernelByte L) (v : Byte) : Spaced L (memoryStep L s (.kernelStore t a v)) p := by
  rw [memoryStep]
  cases hab : s.space L t ⟨false, true⟩ a.addr with
  | none => rwa [Mm.storeIn_of_none hab]
  | some b =>
      rw [Mm.storeIn_of_some hab]
      exact h.update (h.kernelStore_off hL t.isLt a hab) v

/-- The tables that an operation leaves. -/
def Paging.memoryStep (p : Paging) : MemoryOp L → Paging
  | .pages op => p.pageStep op
  | _ => p

theorem Spaced.memoryStep (hL : L.InKernel) (h : Spaced L s p) (op : MemoryOp L) :
    Spaced L (memoryStep L s op) (p.memoryStep op) := by
  cases op with
  | pages op => exact h.pageStep op
  | userStore t a v => exact h.userStore hL t a v
  | kernelStore t a v => exact h.kernelStore hL t a v

end Steps

theorem inKernel_kernelLayout : kernelLayout.InKernel := by
  constructor <;> decide

theorem selfMapped_kernelLayout : kernelLayout.SelfMapped :=
  ⟨inKernel_kernelLayout, by constructor <;> decide⟩

/-! ## A memory of one's own -/

/-- The task whose pages an operation changes. -/
def UserOp.task : UserOp → Fin nrTasks
  | .setUserPages t => t
  | .freeUserPages t => t

/-- Tables change by `set_user_pages` and `free_user_pages` alone, and with frames enough. -/
def Granted {L : Layout} (s : Mm) : MemoryOp L → Prop
  | .pages (.user op) => EnoughFrames s op
  | .pages _ => False
  | _ => True

/-- Of these, the operations that leave the pages of a task alone. -/
def Spares {L : Layout} (t : Fin nrTasks) (s : Mm) : MemoryOp L → Prop
  | .pages (.user op) => EnoughFrames s op ∧ op.task ≠ t
  | .pages _ => False
  | _ => True

theorem Spares.granted {L : Layout} {t : Fin nrTasks} {s : Mm} {op : MemoryOp L}
    (h : Spares t s op) : Granted s op := by
  cases op with
  | pages op =>
      cases op with
      | user op => exact h.1
      | setSsPag t page frame => exact h.elim
      | delSsPag t page => exact h.elim
  | userStore t a v => trivial
  | kernelStore t a v => trivial

/-- Tables that have been changed with frames enough. -/
structure Owned (L : Layout) (s : Mm) (p : Paging) : Prop extends Spaced L s p where
  clean : p.DataClean
  exclusive : p.ExclusiveFrames

section Own

variable {L : Layout} {s : Mm} {p : Paging}

theorem owned_boot (L : Layout) {s : Mm} (hzero : s.ZeroDirectories L) :
    Owned L (boot L s) (Paging.initial s.physMem) :=
  ⟨spaced_boot L hzero, Paging.dataClean_initial _, Paging.exclusiveFrames_initial _⟩

theorem Owned.userStep (h : Owned L s p) {op : UserOp} (hop : EnoughFrames s op) :
    Owned L (userStep L s op) (p.userStep op) := by
  refine ⟨h.toSpaced.pageStep (.user op), h.clean.userStep op, ?_⟩
  cases op with
  | setUserPages t =>
      refine (h.exclusive.setUserPages_iff t).mpr ?_
      rw [← h.refines.physMem]
      exact hop
  | freeUserPages t => exact h.exclusive.freeUserPages h.clean t

theorem Owned.memoryStep (hL : L.InKernel) (h : Owned L s p) {op : MemoryOp L}
    (hop : Granted s op) : Owned L (memoryStep L s op) (p.memoryStep op) := by
  cases op with
  | pages op =>
      cases op with
      | user op => exact h.userStep hop
      | setSsPag t page frame => exact hop.elim
      | delSsPag t page => exact hop.elim
  | userStore t a v => exact ⟨h.toSpaced.userStore hL t a v, h.clean, h.exclusive⟩
  | kernelStore t a v => exact ⟨h.toSpaced.kernelStore hL t a v, h.clean, h.exclusive⟩

/-- **Behind the kernel's pages every byte of memory has one name, in one space.** -/
theorem Owned.inj (h : Owned L s p) {t t' : ℕ} (ht : t < nrTasks) (ht' : t' < nrTasks)
    {acc acc' : Access} {a a' b : Addr} (hab : s.space L t acc a = some b)
    (hab' : s.space L t' acc' a' = some b) (hge : lUserStart ≤ a.toNat)
    (hge' : lUserStart ≤ a'.toNat) : t = t' ∧ a = a' := by
  obtain ⟨huser, -⟩ := h.behind ht hab hge
  obtain ⟨huser', -⟩ := h.behind ht' hab' hge'
  obtain ⟨-, hb, hallows⟩ := h.eq_byteIn ht hab
  obtain ⟨-, hb', hallows'⟩ := h.eq_byteIn ht' hab'
  obtain ⟨hframe, hoffset⟩ := byteIn_inj (hb.symm.trans hb')
  have hpresent : ∀ {dir : Addr} {acc e}, (pagingControl dir).allows acc e = true →
      present e = true := fun hallows => by
    by_contra hno
    exact not_allows_of_not_present (Bool.eq_false_iff.mpr hno) hallows
  have hframes : (pbaseAddr (p.table (t, pageOf a))).toNat =
      (pbaseAddr (p.table (t', pageOf a'))).toNat := congrArg BitVec.toNat hframe
  have hslot := h.exclusive.inj (userFrame_eq_some.mpr ⟨hpresent hallows, huser, rfl⟩)
    (userFrame_eq_some.mpr ⟨hpresent hallows', huser', hframes.symm⟩)
  obtain ⟨rfl, hpage⟩ := Prod.mk.inj hslot
  refine ⟨rfl, BitVec.eq_of_toNat_eq ?_⟩
  simp only [pageOf, pageSize] at hpage
  omega

/-- What one space leads to below the user's pages is there in every space. -/
theorem Spaced.low (h : Spaced L s p) {t : ℕ} (ht : t < nrTasks) {acc : Access} {a b : Addr}
    (hab : s.space L t acc a = some b) (hlow : a.toNat < lUserStart) :
    acc.user = false ∧ pageSize ≤ a.toNat ∧ b = a := by
  obtain ⟨user, write⟩ := acc
  cases user with
  | true => exact absurd (h.user_ge ht hab) (by omega)
  | false =>
      have hge : pageSize ≤ a.toNat := by
        by_contra hnull
        rw [h.null ht _ (not_le.mp hnull)] at hab
        exact absurd hab (by simp)
      rw [h.kernel ht write hge hlow] at hab
      exact ⟨rfl, hge, (Option.some.inj hab).symm⟩

/-- A space leads no two addresses to one byte. -/
theorem Owned.faithful (h : Owned L s p) {t : ℕ} (ht : t < nrTasks) (acc : Access) :
    (s.space L t acc).Faithful := by
  intro a a' b hab hab'
  rcases Nat.lt_or_ge a.toNat lUserStart with hlow | hge <;>
    rcases Nat.lt_or_ge a'.toNat lUserStart with hlow' | hge'
  · exact (h.low ht hab hlow).2.2.symm.trans (h.low ht hab' hlow').2.2
  · obtain ⟨-, -, rfl⟩ := h.low ht hab hlow
    exact absurd (h.behind ht hab' hge').2 (by omega)
  · obtain ⟨-, -, rfl⟩ := h.low ht hab' hlow'
    exact absurd (h.behind ht hab hge).2 (by omega)
  · exact (h.inj ht ht hab hab' hge hge').2

theorem space_within (s : Mm) (t : ℕ) (user : Bool) :
    (s.space L t ⟨user, true⟩).Within (s.space L t ⟨user, false⟩) := by
  intro a b hab
  rw [Mm.space, Control.translate, if_pos (pagingControl_paging _)] at hab ⊢
  exact Control.walk_of_write hab

/-- A byte has the same name in every space that leads to it, and only the kernel's bytes
are in several. -/
theorem Owned.same_name (h : Owned L s p) {t t' : ℕ} (ht : t < nrTasks) (ht' : t' < nrTasks)
    {acc acc' : Access} {a a' b : Addr} (hab : s.space L t acc a = some b)
    (hab' : s.space L t' acc' a' = some b) :
    a = a' ∧ (t = t' ∨ a.toNat < lUserStart ∧ acc.user = false ∧ acc'.user = false) := by
  rcases Nat.lt_or_ge a.toNat lUserStart with hlow | hge <;>
    rcases Nat.lt_or_ge a'.toNat lUserStart with hlow' | hge'
  · obtain ⟨huser, -, rfl⟩ := h.low ht hab hlow
    obtain ⟨huser', -, rfl⟩ := h.low ht' hab' hlow'
    exact ⟨rfl, Or.inr ⟨hlow, huser, huser'⟩⟩
  · obtain ⟨-, -, rfl⟩ := h.low ht hab hlow
    exact absurd (h.behind ht' hab' hge').2 (by omega)
  · obtain ⟨-, -, rfl⟩ := h.low ht' hab' hlow'
    exact absurd (h.behind ht hab hge).2 (by omega)
  · obtain ⟨rfl, rfl⟩ := h.inj ht ht' hab hab' hge hge'
    exact ⟨rfl, Or.inl rfl⟩

/-- What a task's program, or the kernel with the task's directory loaded, sees of
memory. -/
def Mm.seen (L : Layout) (s : Mm) (t : ℕ) (user : Bool) : Addr → Option Byte :=
  (s.space L t ⟨user, false⟩).view s.mem

/-- A store in the space of one task is in the space of another, under the same name. -/
def Mm.lands (L : Layout) (s : Mm) (t : ℕ) (user : Bool) (t' : ℕ) (user' : Bool) (a : Addr) :
    Bool :=
  (s.space L t' ⟨user', true⟩ a).isSome &&
    decide (s.space L t ⟨user, false⟩ a = s.space L t' ⟨user', true⟩ a)

/-- **A store is seen under its own name by those in whose space it is.** -/
theorem Owned.seen_storeIn (h : Owned L s p) {t t' : ℕ} (ht : t < nrTasks) (ht' : t' < nrTasks)
    (user user' : Bool) (a : Addr) (v : Byte)
    (hspace : (s.storeIn L t' user' a v).space L t ⟨user, false⟩ = s.space L t ⟨user, false⟩) :
    (s.storeIn L t' user' a v).seen L t user =
      AddressMap.privateStore (s.lands L t user t' user') (s.seen L t user) (a, v) := by
  rw [Mm.seen, hspace]
  exact AddressMap.view_store (h.faithful ht _)
    (fun a a' b hab hab' => (h.same_name ht' ht hab hab').1) a v

/-- What a program can read the kernel can write, the write protection being off. -/
theorem Spaced.kernel_of_user (h : Spaced L s p) {t : ℕ} (ht : t < nrTasks) {user write : Bool}
    {a b : Addr} (hab : s.space L t ⟨user, false⟩ a = some b) :
    s.space L t ⟨false, write⟩ a = some b := by
  obtain ⟨hin, rfl, hallows⟩ := h.eq_byteIn ht hab
  have hpresent : present (p.table (t, pageOf a)) = true := by
    by_contra hno
    exact not_allows_of_not_present (Bool.eq_false_iff.mpr hno) hallows
  rw [space_eq h.refines h.directed ht, if_pos ⟨hin, allows_kernel hpresent⟩]

/-- Behind the first megabyte the kernel finds what the program finds. -/
theorem Spaced.user_of_kernel (h : Spaced L s p) {t : ℕ} (ht : t < nrTasks) {write : Bool}
    {a b : Addr} (hab : s.space L t ⟨false, write⟩ a = some b) (hge : lUserStart ≤ a.toNat) :
    s.space L t ⟨true, false⟩ a = some b := by
  obtain ⟨huser, -⟩ := h.behind ht hab hge
  obtain ⟨hin, rfl, hallows⟩ := h.eq_byteIn ht hab
  have hread : (pagingControl (L.dirAddr t)).allows ⟨true, false⟩ (p.table (t, pageOf a)) =
      true := by
    have hpresent : (p.table (t, pageOf a)).getLsbD 0 = true := by
      by_contra hno
      exact not_allows_of_not_present (Bool.eq_false_iff.mpr hno) hallows
    have husr : (p.table (t, pageOf a)).getLsbD 2 = true := huser
    rw [Control.allows, hpresent, husr]
    simp
  rw [space_eq h.refines h.directed ht, if_pos ⟨hin, hread⟩]

/-- A program sees the stores of its own that its pages admit, and of the kernel's in its
space those that it can read. -/
theorem Owned.lands_user (h : Owned L s p) {t : ℕ} (ht : t < nrTasks) (user' : Bool) (a : Addr) :
    s.lands L t true t user' a = (s.space L t ⟨true, user'⟩ a).isSome := by
  rw [Bool.eq_iff_iff, Mm.lands, Bool.and_eq_true, decide_eq_true_eq]
  simp only [Option.isSome_iff_exists]
  cases user' with
  | true =>
      refine and_iff_left_of_imp ?_
      rintro ⟨b, hab⟩
      rw [hab, space_within s t true a b hab]
  | false =>
      constructor
      · rintro ⟨⟨b, hab⟩, heq⟩
        exact ⟨b, heq.trans hab⟩
      · rintro ⟨b, hab⟩
        have hkernel : s.space L t ⟨false, true⟩ a = some b := h.kernel_of_user ht hab
        exact ⟨⟨b, hkernel⟩, hab.trans hkernel.symm⟩

theorem Owned.lands_of_ne (h : Owned L s p) {t t' : ℕ} (ht : t < nrTasks) (ht' : t' < nrTasks)
    (hne : t' ≠ t) {user user' : Bool} {a : Addr}
    (hhigh : a.toNat < lUserStart → (user || user') = true) :
    s.lands L t user t' user' a = false := by
  rw [Bool.eq_false_iff, Ne, Mm.lands, Bool.and_eq_true, decide_eq_true_eq,
    Option.isSome_iff_exists]
  rintro ⟨⟨b, hab'⟩, heq⟩
  rcases (h.same_name ht' ht hab' (heq.trans hab')).2 with htt | ⟨hlow, huser', huser⟩
  · exact hne htt
  · have hor := hhigh hlow
    rw [show user = false from huser, show user' = false from huser'] at hor
    exact absurd hor (by decide)

end Own

/-! ## Runs -/

section Run

variable {L : Layout} {s : Mm} {p : Paging}

/-- The operations on one task's pages leave the tables of the others. -/
theorem Paging.userStep_table_of_ne (p : Paging) (op : UserOp) {t k : ℕ} (hne : op.task.val ≠ t) :
    (p.userStep op).table (t, k) = p.table (t, k) := by
  have hslot : ∀ t', t' ≠ t → ∀ base pag, (t, k) ≠ (t', base + pag) := fun t' hne base pag heq =>
    hne (congrArg Prod.fst heq).symm
  cases op with
  | setUserPages t' =>
      rw [Paging.userStep, setUserPages_eq,
        mapAll_pageRow_table_of_ne _ _ _ _ fun pag _ => hslot t' hne _ pag,
        mapAll_pageRow_table_of_ne _ _ _ _ fun pag _ => hslot t' hne _ pag]
  | freeUserPages t' =>
      rw [Paging.userStep, freeUserPages_eq, clearRow_table_of_ne _ fun pag _ => hslot t' hne _ pag]

/-- What is sure of a run that spares a task: its tables are those of the beginning. -/
def Kept (L : Layout) (t : ℕ) (row : ℕ → PageTableEntry) (s : Mm) : Prop :=
  ∃ p, Owned L s p ∧ ∀ k, p.table (t, k) = row k

theorem Kept.step (hL : L.InKernel) {t : Fin nrTasks} {row : ℕ → PageTableEntry}
    (h : Kept L t row s) {op : MemoryOp L} (hop : Spares t s op) :
    Kept L t row (memoryStep L s op) := by
  obtain ⟨p, hp, hrow⟩ := h
  refine ⟨_, hp.memoryStep hL hop.granted, fun k => ?_⟩
  rw [← hrow k]
  cases op with
  | pages op =>
      cases op with
      | user op => exact p.userStep_table_of_ne op fun heq => hop.2 (Fin.ext heq)
      | setSsPag t' page frame => exact hop.elim
      | delSsPag t' page => exact hop.elim
  | userStore t' a v => rfl
  | kernelStore t' a v => rfl

/-- The spaces of a task stay while its tables do. -/
theorem Kept.space_eq {s₁ s₂ : Mm} {t : ℕ} (ht : t < nrTasks) {row : ℕ → PageTableEntry}
    (h₁ : Kept L t row s₁) (h₂ : Kept L t row s₂) (acc : Access) :
    s₂.space L t acc = s₁.space L t acc := by
  obtain ⟨p₁, hp₁, hrow₁⟩ := h₁
  obtain ⟨p₂, hp₂, hrow₂⟩ := h₂
  exact hp₁.toSpaced.space_congr hp₂.toSpaced ht (fun k => (hrow₂ k).trans (hrow₁ k).symm) acc

/-- The stores of a run that are in the space of a task: whether its program does them,
where, and what. -/
def ownStore (t : Fin nrTasks) : MemoryOp L → Option (Bool × Addr × Byte)
  | .pages _ => none
  | .userStore t' a v => if t' = t then some (true, a, v) else none
  | .kernelStore t' a v => if t' = t then some (false, a.addr, v) else none

/-- A store to a memory of its own, with the rights of the space in `s`: a program's
where it may write, the kernel's where the program may read. -/
def ownStep (L : Layout) (s : Mm) (t : ℕ) (m : Addr → Option Byte) (st : Bool × Addr × Byte) :
    Addr → Option Byte :=
  AddressMap.privateStore (fun a => (s.space L t ⟨true, st.1⟩ a).isSome) m st.2

/-- A store that does not land changes nothing. -/
theorem privateStore_of_false {V B : Type*} [DecidableEq V] {writable : V → Bool} {st : V × B}
    (h : writable st.1 = false) (m : V → Option B) : AddressMap.privateStore writable m st = m := by
  rw [AddressMap.privateStore, h]
  rfl

/-- The functions change nothing behind the first megabyte. -/
theorem Owned.seen_pages (hL : L.InKernel) (h : Owned L s p) {t : Fin nrTasks} (op : PageOp)
    (hspace : (pageStep L s op).space L t ⟨true, false⟩ = s.space L t ⟨true, false⟩) :
    (pageStep L s op).seen L t true = s.seen L t true := by
  rw [Mm.seen, hspace]
  refine AddressMap.view_congr fun a b hab => pageStep_mem_of_outside h.refines.linked op ?_
  rintro ⟨-, hlt⟩
  have hge := h.userStore_ge t.isLt hab
  have htable := Layout.EndsBy.table hL
  omega

/-- One step of a run, to a task's program. -/
theorem Kept.seen_step (hL : L.InKernel) {t : Fin nrTasks} {row : ℕ → PageTableEntry} {s₁ : Mm}
    (h₁ : Kept L t row s₁) (h : Kept L t row s) {op : MemoryOp L} (hop : Spares t s op) :
    (memoryStep L s op).seen L t true =
      (ownStore t op).elim (s.seen L t true) (ownStep L s₁ t (s.seen L t true)) := by
  have hafter := h.step hL hop
  have hspace := h.space_eq t.isLt hafter ⟨true, false⟩
  obtain ⟨p, hp, -⟩ := id h
  have hstore : ∀ (t' : Fin nrTasks) (user' : Bool) (a : Addr) (v : Byte),
      (s.storeIn L t' user' a v).space L t ⟨true, false⟩ = s.space L t ⟨true, false⟩ →
      (s.storeIn L t' user' a v).seen L t true =
        if t' = t then ownStep L s₁ t (s.seen L t true) (user', a, v) else s.seen L t true := by
    intro t' user' a v hspace
    rw [hp.seen_storeIn t.isLt t'.isLt true user' a v hspace]
    split
    · next heq =>
        subst heq
        rw [ownStep, h.space_eq t'.isLt h₁]
        refine congrArg (fun w => AddressMap.privateStore w _ _) (funext fun a => ?_)
        exact hp.lands_user t'.isLt user' a
    · next hne =>
        refine privateStore_of_false (hp.lands_of_ne t.isLt t'.isLt ?_ fun _ => rfl) _
        exact fun heq => hne (Fin.ext heq)
  cases op with
  | pages op => exact hp.seen_pages hL op hspace
  | userStore t' a v =>
      rw [memoryStep, hstore t' true a v hspace, ownStore]
      split <;> rfl
  | kernelStore t' a v =>
      rw [memoryStep, hstore t' false a.addr v hspace, ownStore]
      split <;> rfl

/-- The states that runs with frames enough reach from initialization. -/
def Reached (L : Layout) (s : Mm) : Prop :=
  ∃ s₀ : Mm, s₀.ZeroDirectories L ∧ ∃ ops, AllSteps (memoryStep L) Granted (boot L s₀) ops ∧
    s = ops.foldl (memoryStep L) (boot L s₀)

theorem reached_boot (L : Layout) {s : Mm} (hzero : s.ZeroDirectories L) : Reached L (boot L s) :=
  ⟨s, hzero, [], trivial, List.foldl_nil.symm⟩

theorem Reached.step (h : Reached L s) (op : MemoryOp L) (hop : Granted s op) :
    Reached L (memoryStep L s op) := by
  obtain ⟨s₀, hzero, ops, hops, rfl⟩ := h
  refine ⟨s₀, hzero, ops ++ [op], (allSteps_append _).mpr ⟨hops, hop, trivial⟩, ?_⟩
  rw [List.foldl_append, List.foldl_cons, List.foldl_nil]

/-- After initialization there are frames enough for a task. -/
theorem enoughFrames_boot (L : Layout) (s : Mm) (t : Fin nrTasks) :
    EnoughFrames (boot L s) (.setUserPages t) := by
  show numPagCode + numPagData ≤ (freeFrames (boot L s).physMem).card
  rw [(refines_boot L s).physMem, Paging.initial_physMem, card_freeFrames_initFrames]
  decide

theorem reached_setUserPages (L : Layout) {s : Mm} (hzero : s.ZeroDirectories L)
    (t : Fin nrTasks) : Reached L (userStep L (boot L s) (.setUserPages t)) :=
  (reached_boot L hzero).step (.pages (.user (.setUserPages t))) (enoughFrames_boot L s t)

theorem Reached.owned (hL : L.InKernel) (h : Reached L s) : ∃ p, Owned L s p := by
  obtain ⟨s₀, hzero, ops, hops, rfl⟩ := h
  exact AllSteps.foldl (memoryStep L) (J := fun s => ∃ p, Owned L s p)
    (fun s op ⟨p, hp⟩ hop => ⟨_, hp.memoryStep hL hop⟩) ⟨_, owned_boot L hzero⟩ hops

/-- Where a task's program may write it finds what it has stored, and its space is as before. -/
theorem Reached.seen_userStore (hL : L.InKernel) (hs : Reached L s) (t : Fin nrTasks) {a : Addr}
    (ha : (s.space L t ⟨true, true⟩ a).isSome = true) (v : Byte) :
    (memoryStep L s (.userStore t a v)).seen L t true =
        Function.update (s.seen L t true) a (some v) ∧
      ∀ acc, (memoryStep L s (.userStore t a v)).space L t acc = s.space L t acc := by
  obtain ⟨p, hp⟩ := hs.owned hL
  have hkept : Kept L t (fun k => p.table (t, k)) s := ⟨p, hp, fun _ => rfl⟩
  have hspares : Spares (L := L) t s (.userStore t a v) := trivial
  refine ⟨?_, fun acc => hkept.space_eq t.isLt (hkept.step hL hspares) acc⟩
  rw [hkept.seen_step hL hkept hspares, ownStore, if_pos rfl]
  exact if_pos ha

/-- **What a program sees is a memory of its own**, whatever the other programs and the
kernel do in a run that spares its pages. -/
theorem taskMemory_run (hL : L.InKernel) (hs : Reached L s) (t : Fin nrTasks)
    {ops : List (MemoryOp L)} (hops : AllSteps (memoryStep L) (Spares t) s ops) :
    (ops.foldl (memoryStep L) s).seen L t true =
      (ops.filterMap (ownStore t)).foldl (ownStep L s t) (s.seen L t true) := by
  obtain ⟨p, hp⟩ := hs.owned hL
  have hkept : Kept L t (fun k => p.table (t, k)) s := ⟨p, hp, fun _ => rfl⟩
  refine @obs_foldl_filterMap Mm (MemoryOp L) (memoryStep L) _ _ (Kept L t fun k => p.table (t, k))
    (Spares t) (fun s => s.seen L t true) (ownStore t) (ownStep L s t)
    (fun s' op h hop => h.step hL hop) (fun s' op st h hop hst => ?_)
    (fun s' op h hop hst => ?_) s ops hkept hops
  · rw [hkept.seen_step hL h hop, hst]
    rfl
  · rw [hkept.seen_step hL h hop, hst]
    rfl

end Run

/-- After initialization the last task has been given its pages. -/
def lastTaskMm : Mm := userStep kernelLayout (boot kernelLayout blankMm) (.setUserPages lastTask)

theorem reached_lastTaskMm : Reached kernelLayout lastTaskMm :=
  reached_setUserPages kernelLayout (zeroDirectories_blankMm kernelLayout) lastTask

/-- A store of the last task's program, and one of another's. -/
def twoStores : List (MemoryOp kernelLayout) :=
  [.userStore lastTask 0x100000 7, .userStore ⟨8, by decide⟩ 0x100000 5]

theorem taskMemory_run_two :
    (twoStores.foldl (memoryStep kernelLayout) lastTaskMm).seen kernelLayout lastTask true =
      (twoStores.filterMap (ownStore lastTask)).foldl (ownStep kernelLayout lastTaskMm lastTask)
        (lastTaskMm.seen kernelLayout lastTask true) :=
  taskMemory_run inKernel_kernelLayout reached_lastTaskMm lastTask ⟨trivial, trivial, trivial⟩

end Zeos
