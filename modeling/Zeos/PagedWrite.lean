import Zeos.MainMemory
import Zeos.Sys

/-!
# The write system call under paging (`sys.c`, `devices.c`)

`sys_write` as a program of the kernel: what it loads and stores, chunk by chunk.
`sysWriteProgram_flat` ties it to `sysWrite`, and `sysWriteProgram_within` says which
addresses it uses, a call that passes its checks every byte of the user's buffer.

`pagedWrite_run` puts it on the tables of a task: the call prints what the task's program
sees in its buffer and leaves all programs' memory alone, or it faults in the kernel, and
it does so exactly if the checks let a buffer pass that is not mapped.

The tables are those of a reached state with any marks of the processor in them, and while
the call runs the processor may mark more before every access (`Marking`).  So what is
said of memory is said up to these marks.  The program is a caller of `sys_write` at any
descriptor, buffer and size, with the console in any state; its buffer on the kernel's
stack lies in the kernel's memory and in no table, which is load-bearing: a chunk is
copied there.
-/

namespace Zeos

open Machine

/-! ## The program -/

/-- Load the bytes of a block. -/
def loadBlock : ℕ → Addr → MemoryProgram Addr Byte (List Byte)
  | 0, _ => .done []
  | n + 1, a => .load a fun x => (loadBlock n (a + 1#32)).bind fun xs => .done (x :: xs)

/-- Copy `n` bytes from `&buffer[current]` to the kernel buffer and print them. -/
def writeChunkProgram (buffer : Addr) (buff : KernelBuffer) (con : Console) (current n : ℤ) :
    MemoryProgram Addr Byte (Console × ℤ) :=
  (copyProgram (buffer + BitVec.ofInt 32 current) buff.addr n).bind fun _ =>
    (loadBlock n.toNat buff.addr).bind fun cs => .done (cs.foldl printc con, n)

/-- The loop and the last chunk. -/
def writeBodyProgram (buffer : Addr) (buff : KernelBuffer) (con : Console)
    (written current left : ℤ) : MemoryProgram Addr Byte (Option (ℤ × Console)) :=
  if 128 < left then
    (writeChunkProgram buffer buff con current 128).bind fun r =>
      if InInt (written + r.2) ∧ InInt (current + 128) ∧ InInt (left - 128) then
        writeBodyProgram buffer buff r.1 (written + r.2) (current + 128) (left - 128)
      else .done none
  else
    (writeChunkProgram buffer buff con current left).bind fun r =>
      .done (if InInt (written + r.2) then some (written + r.2, r.1) else none)
termination_by left.toNat

/-- The `write` service routine. -/
def sysWriteProgram (fd : DWord) (buffer : Addr) (size : DWord) (buff : KernelBuffer)
    (con : Console) : MemoryProgram Addr Byte (Option (ℤ × Console)) :=
  let check := checkFd fd escriptura
  if check < 0 then .done (some (check, con))
  else if buffer = 0 then .done (some (-22, con))
  else if size.toInt < 0 then .done (some (-22, con))
  else if accessOk lectura buffer size = 0 then .done (some (-14, con))
  else writeBodyProgram buffer buff con 0 0 size.toInt

/-! ## In flat memory -/

section Flat

variable (buffer : Addr) (buff : KernelBuffer)

theorem loadBlock_flat (n : ℕ) : ∀ (a : Addr) (m : Bytes),
    (loadBlock n a).flat m = (m.block a n, m) := by
  induction n with
  | zero => exact fun _ _ => rfl
  | succ n ih =>
      intro a m
      have hfirst : m.block a 1 = [m a] := by
        rw [Bytes.block, List.range_one, List.map_singleton]
        exact congrArg (fun b => [m b]) (BitVec.add_zero a)
      rw [loadBlock, MemoryProgram.flat, MemoryProgram.flat_bind, ih, MemoryProgram.flat_done,
        Nat.add_comm, Bytes.block_add, hfirst]
      rfl

theorem writeChunkProgram_flat (ram : Ram) (con : Console) (current n : ℤ) :
    (writeChunkProgram buffer buff con current n).flat ram.bytes =
      ((writeChunk buffer buff ram con current n).2,
        (writeChunk buffer buff ram con current n).1.bytes) := by
  rw [writeChunkProgram, MemoryProgram.flat_bind, copyProgram_flat, MemoryProgram.flat_bind,
    loadBlock_flat, MemoryProgram.flat_done, Bytes.block, List.foldl_map]
  rfl

/-- One round of the loop, and the end. -/
theorem writeBody_step (s : WriteState) :
    writeBody buffer buff s =
      if 128 < s.left then
        let (ram, con, printed) := writeChunk buffer buff s.ram s.con s.current 128
        if InInt (s.written + printed) ∧ InInt (s.current + 128) ∧ InInt (s.left - 128) then
          writeBody buffer buff ⟨ram, con, s.written + printed, s.current + 128, s.left - 128⟩
        else none
      else
        let (ram, con, printed) := writeChunk buffer buff s.ram s.con s.current s.left
        if InInt (s.written + printed) then some (s.written + printed, ram, con) else none := by
  rw [writeBody, writeLoop]
  by_cases hleft : 128 < s.left
  · rw [if_pos hleft, if_pos hleft]
    dsimp only
    split
    · next hnone =>
        split at hnone
        · next hint => rw [if_pos hint, writeBody, hnone]
        · next hint => rw [if_neg hint]
    · next hsome =>
        split at hsome
        · next hint => rw [if_pos hint, writeBody, hsome]
        · exact absurd hsome (by simp)
  · rw [if_neg hleft, if_neg hleft]

/-- What the source computes. -/
theorem writeBodyProgram_flat (n : ℕ) : ∀ (ram : Ram) (con : Console) (written current left : ℤ),
    left.toNat = n → ∀ r ram' con',
      writeBody buffer buff ⟨ram, con, written, current, left⟩ = some (r, ram', con') →
      (writeBodyProgram buffer buff con written current left).flat ram.bytes =
        (some (r, con'), ram'.bytes) := by
  induction n using Nat.strongRecOn with
  | ind n ih =>
      intro ram con written current left hn r ram' con' h
      have hchunk := writeChunkProgram_flat buffer buff ram con current
      rw [writeBody_step] at h
      rw [writeBodyProgram]
      dsimp only at h
      by_cases hleft : 128 < left
      · rw [if_pos hleft] at h ⊢
        rw [MemoryProgram.flat_bind, hchunk]
        dsimp only
        split at h
        · next hint =>
            rw [if_pos hint]
            exact ih (left - 128).toNat (by omega) _ _ _ _ _ rfl r ram' con' h
        · exact absurd h (by simp)
      · rw [if_neg hleft] at h ⊢
        rw [MemoryProgram.flat_bind, hchunk, MemoryProgram.flat_done]
        split at h
        · next hint =>
            rw [if_pos hint]
            cases h
            rfl
        · exact absurd h (by simp)

/-- **The call as a program is the call.** -/
theorem sysWriteProgram_flat {fd : DWord} {size : DWord} {ram : Ram} {con : Console} {r : ℤ}
    {ram' : Ram} {con' : Console}
    (h : sysWrite fd buffer size buff ram con = some (r, ram', con')) :
    (sysWriteProgram fd buffer size buff con).flat ram.bytes = (some (r, con'), ram'.bytes) := by
  rw [sysWrite] at h
  rw [sysWriteProgram]
  split at h
  · next hfd =>
      rw [if_pos hfd]
      cases h
      rfl
  · next hfd =>
      rw [if_neg hfd]
      split at h
      · next hnull =>
          rw [if_pos hnull]
          cases h
          rfl
      · next hnull =>
          rw [if_neg hnull]
          split at h
          · next hneg =>
              rw [if_pos hneg]
              cases h
              rfl
          · next hneg =>
              rw [if_neg hneg]
              split at h
              · next hacc =>
                  rw [if_pos hacc]
                  cases h
                  rfl
              · next hacc =>
                  rw [if_neg hacc]
                  exact writeBodyProgram_flat buffer buff _ ram con 0 0 size.toInt rfl r ram' con' h

end Flat

/-! ## What it uses -/

section Uses

variable {P Q : Addr → Prop} (buffer : Addr) (buff : KernelBuffer)

theorem loadBlock_within (n : ℕ) : ∀ (a : Addr) (m : Bytes),
    (loadBlock n a).Within P Q m ↔ ∀ i < n, P (a + BitVec.ofNat 32 i) := by
  induction n with
  | zero => exact fun a m => ⟨fun _ i hi => absurd hi i.not_lt_zero, fun _ => trivial⟩
  | succ n ih =>
      intro a m
      have hone : (∀ i < 1, P (a + BitVec.ofNat 32 i)) ↔ P a := by simp
      rw [loadBlock, MemoryProgram.Within, MemoryProgram.within_bind, ih, Nat.add_comm,
        forall_block_add, hone]
      exact and_congr_right fun _ => and_iff_left trivial

/-- The kernel may use its buffer. -/
def UsesBuffer (P Q : Addr → Prop) (buff : KernelBuffer) : Prop :=
  ∀ i < buffSize, P (buff.addr + BitVec.ofNat 32 i) ∧ Q (buff.addr + BitVec.ofNat 32 i)

variable {buff}

theorem writeChunkProgram_within (hbuff : UsesBuffer P Q buff) {n : ℕ} (hn : n ≤ buffSize)
    (con : Console) (cur : ℕ) (m : Bytes) :
    (writeChunkProgram buffer buff con cur n).Within P Q m ↔
      ∀ i < n, P (buffer + BitVec.ofNat 32 cur + BitVec.ofNat 32 i) := by
  rw [writeChunkProgram, MemoryProgram.within_bind, MemoryProgram.within_bind, loadBlock_within,
    BitVec.ofInt_natCast, copyProgram_within, Int.toNat_natCast]
  constructor
  · exact fun h => h.1.1
  · intro h
    exact ⟨⟨h, fun i hi => (hbuff i (by omega)).2⟩, fun i hi => (hbuff i (by omega)).1, trivial⟩

/-- From any point of the loop, the rest of the buffer. -/
theorem writeBodyProgram_within (hbuff : UsesBuffer P Q buff) (n : ℕ) :
    ∀ (cur : ℕ) (con : Console) (m : Bytes), cur + n < 2 ^ 31 →
      ((writeBodyProgram buffer buff con cur cur n).Within P Q m ↔
        ∀ i < n, P (buffer + BitVec.ofNat 32 cur + BitVec.ofNat 32 i)) := by
  induction n using Nat.strongRecOn with
  | ind n ih =>
      intro cur con m hint
      have hprinted : ∀ (k : ℕ) (m : Bytes),
          ((writeChunkProgram buffer buff con cur k).flat m).1.2 = k := fun k m => by
        have hflat := writeChunkProgram_flat buffer buff ⟨m, []⟩ con cur k
        rw [hflat]
        rfl
      rw [writeBodyProgram]
      by_cases hleft : 128 < n
      · obtain ⟨k, rfl⟩ : ∃ k, n = 128 + k := ⟨n - 128, by omega⟩
        have hchunk := writeChunkProgram_within (m := m) buffer hbuff (le_refl buffSize) con cur
        have hlen : ((buffSize : ℕ) : ℤ) = 128 := rfl
        have hnext : (cur : ℤ) + 128 = ((cur + 128 : ℕ) : ℤ) := by omega
        have hrest : ((128 + k : ℕ) : ℤ) - 128 = (k : ℤ) := by omega
        have hints : InInt ((cur : ℤ) + 128) ∧ InInt ((cur : ℤ) + 128) ∧
            InInt (((128 + k : ℕ) : ℤ) - 128) := by
          simp only [InInt]
          omega
        have hcount := hprinted 128 m
        rw [Nat.cast_ofNat] at hcount
        rw [hlen] at hchunk
        rw [if_pos (by omega), MemoryProgram.within_bind, hchunk]
        rw [hcount, if_pos hints, hnext, hrest, ih k (by omega) _ _ _ (by omega),
          forall_block_add, BitVec.add_assoc (z := BitVec.ofNat 32 128), ← BitVec.ofNat_add]
        exact Iff.rfl
      · rw [if_neg (by omega), MemoryProgram.within_bind,
          writeChunkProgram_within buffer hbuff (by simpa [buffSize] using hleft)]
        exact and_iff_left trivial

theorem sysWriteProgram_of_error {fd : DWord} {size : DWord} (h : writeError fd buffer size ≠ 0)
    (buff : KernelBuffer) (con : Console) :
    sysWriteProgram fd buffer size buff con = .done (some (writeError fd buffer size, con)) := by
  unfold sysWriteProgram checkFd writeError at *
  grind [escriptura]

theorem sysWriteProgram_of_ok {fd : DWord} {size : DWord} (h : writeError fd buffer size = 0)
    (buff : KernelBuffer) (con : Console) :
    sysWriteProgram fd buffer size buff con =
      writeBodyProgram buffer buff con 0 0 size.toInt := by
  unfold sysWriteProgram checkFd writeError at *
  grind [escriptura]

/-- **A call that passes its checks uses the whole buffer**, and one that does not uses
nothing. -/
theorem sysWriteProgram_within (hbuff : UsesBuffer P Q buff) (fd : DWord) (size : DWord)
    (con : Console) (m : Bytes) :
    (sysWriteProgram fd buffer size buff con).Within P Q m ↔
      (writeError fd buffer size = 0 → ∀ i < size.toNat, P (buffer + BitVec.ofNat 32 i)) := by
  by_cases herr : writeError fd buffer size = 0
  · obtain ⟨hint, hlt, -⟩ := userBlock_of_writeError_eq_zero herr
    have hbody := writeBodyProgram_within (P := P) (Q := Q) buffer hbuff size.toNat 0 con m
      (by omega)
    have hzero : buffer + BitVec.ofNat 32 0 = buffer := BitVec.add_zero buffer
    rw [hzero, Nat.cast_zero] at hbody
    rw [sysWriteProgram_of_ok buffer herr, hint, hbody]
    exact ⟨fun h _ => h, fun h => h herr⟩
  · rw [sysWriteProgram_of_error buffer herr]
    exact iff_of_true trivial fun h => absurd h herr

end Uses

/-! ## Under paging -/

/-- The buffer lies in the kernel stack, that of `task[1]`, behind the fields of its
`task_struct`. -/
structure KernelBuffer.OnStack (L : Layout) (buff : KernelBuffer) : Prop where
  bottom : (L.taskAddr 1).toNat + 8 ≤ buff.addr.toNat
  top : buff.addr.toNat + buffSize ≤ (L.taskAddr 1).toNat + pageSize

section Run

variable {L : Layout} {s : Mm} {p : Paging} {buff : KernelBuffer}

/-- A byte of the kernel's buffer has no part in translation, and is mapped. -/
theorem KernelBuffer.OnStack.byte (h : buff.OnStack L) {a : Addr}
    (ha : (a - buff.addr).toNat < buffSize) :
    OffTables L a ∧ pageSize ≤ a.toNat ∧ a.toNat < lUserStart := by
  obtain ⟨hbottom, htop⟩ := h
  have hin := buff.in_kernel
  have hstack : (L.taskAddr 1).toNat = L.task.toNat + pageSize := by
    have hfits := L.task_fits
    simp only [Layout.taskAddr, pageAt, nrTasks, pageSize] at hfits ⊢
    bv_omega
  have hnat : a.toNat = buff.addr.toNat + (a - buff.addr).toNat := by
    simp only [lUserStart, buffSize] at hin ha
    bv_omega
  have hdirs := L.task_dirPages
  have htables := L.task_pagusrTable
  rw [hstack] at hbottom htop
  simp only [nrTasks, pageSize, buffSize] at hdirs htables hbottom htop ha hin
  refine ⟨L.offTables ?_ ?_ fun t ht => ?_, ?_, by omega⟩ <;> simp only [nrTasks, pageSize] <;>
    omega

theorem KernelBuffer.OnStack.usesBuffer {P Q : Addr → Prop}
    (hP : ∀ a : Addr, (a - buff.addr).toNat < buffSize → P a)
    (hQ : ∀ a : Addr, (a - buff.addr).toNat < buffSize → Q a) : UsesBuffer P Q buff := by
  intro i hi
  have hoff : (buff.addr + BitVec.ofNat 32 i - buff.addr).toNat < buffSize := by
    simp only [buffSize] at hi ⊢
    bv_omega
  exact ⟨hP _ hoff, hQ _ hoff⟩

/-- The user's block is mapped for the kernel where it is for the program. -/
theorem Spaced.kernel_isSome_iff (h : Spaced L s p) {t : ℕ} (ht : t < nrTasks) {a : Addr}
    (hge : lUserStart ≤ a.toNat) :
    (s.space L t ⟨false, false⟩ a).isSome = true ↔ (s.seen L t true a).isSome = true := by
  rw [Mm.seen, AddressMap.view, Option.isSome_map, Option.isSome_iff_exists,
    Option.isSome_iff_exists]
  exact exists_congr fun b => ⟨fun hab => h.user_of_kernel ht hab hge,
    fun hab => h.kernel_of_user ht hab⟩

/-- A call whose buffer passes its checks loads nothing that may be marked, and stores into
the kernel's buffer alone. -/
theorem sysWriteProgram_careful (hbuff : buff.OnStack L) (fd : DWord) (buffer : Addr)
    (size : DWord) (con : Console) (n : Bytes) :
    (sysWriteProgram fd buffer size buff con).Within (Unmarked (pagingMarks L))
      (fun a => (a - buff.addr).toNat < buffSize) n := by
  have huses : UsesBuffer (Unmarked (pagingMarks L)) (fun a => (a - buff.addr).toNat < buffSize)
      buff :=
    KernelBuffer.OnStack.usesBuffer (fun a ha _ => (hbuff.byte ha).1.pagingMarks) fun _ ha => ha
  refine (sysWriteProgram_within buffer huses fd size con n).mpr fun hok i hi hlow => ?_
  obtain ⟨-, -, habove, hend⟩ := userBlock_of_writeError_eq_zero hok
  bv_omega

/-- In the users' pages there are no marks: what `s` has there a marked memory has, too, and
what the call changes is not there. -/
theorem KernelBuffer.OnStack.user_apply (hbuff : buff.OnStack L) (hL : L.InKernel) {m m' : Bytes}
    (hm : SameUpTo (clear (pagingMarks L)) s.mem m)
    (hstores : ∀ b, clear (pagingMarks L) b (m' b) ≠ clear (pagingMarks L) b (m b) →
      (b - buff.addr).toNat < buffSize) {b : Addr} (hb : lUserStart ≤ b.toNat) :
    m' b = s.mem b := by
  refine clear_injective ((marks_pagingMarks hL).user b hb) (Eq.trans ?_ (hm b))
  by_contra hne
  exact absurd (hbuff.byte (hstores b hne)).2.2 (not_lt.mpr hb)

/-- What a program sees the kernel's flat memory has. -/
theorem Spaced.seen_flat (h : Spaced L s p) (hL : L.InKernel) {t : ℕ} (ht : t < nrTasks)
    {m n : Bytes} (hm : SameUpTo (clear (pagingMarks L)) s.mem m)
    (hn : MemoryProgram.Shows (clear (pagingMarks L)) (s.space L t ⟨false, false⟩) m n) {a : Addr}
    {v : Byte} (hv : s.seen L t true a = some v) :
    (s.space L t ⟨false, false⟩ a).isSome = true ∧ n a = v := by
  obtain ⟨q, hq, rfl⟩ := Option.map_eq_some_iff.mp hv
  have hkernel : s.space L t ⟨false, false⟩ a = some q := h.kernel_of_user ht hq
  have hmarks := (marks_pagingMarks hL).user q (h.userStore_ge ht hq)
  refine ⟨by rw [hkernel, Option.isSome_some], ?_⟩
  rw [hn.eq hkernel (clear_injective hmarks)]
  exact clear_injective hmarks (hm q)

/-- So it has in a buffer the text that the program sees there. -/
theorem Spaced.block_seen (h : Spaced L s p) (hL : L.InKernel) {t : ℕ} (ht : t < nrTasks)
    {m n : Bytes} (hm : SameUpTo (clear (pagingMarks L)) s.mem m)
    (hn : MemoryProgram.Shows (clear (pagingMarks L)) (s.space L t ⟨false, false⟩) m n)
    {buffer : Addr} {k : ℕ} {text : List Byte}
    (htext : (List.range k).map (fun i => s.seen L t true (buffer + BitVec.ofNat 32 i)) =
      text.map some) :
    (∀ i < k, (s.space L t ⟨false, false⟩ (buffer + BitVec.ofNat 32 i)).isSome = true) ∧
      n.block buffer k = text := by
  have hbyte : ∀ i < k, ∃ v, s.seen L t true (buffer + BitVec.ofNat 32 i) = some v := by
    intro i hi
    have hmem : s.seen L t true (buffer + BitVec.ofNat 32 i) ∈ text.map some :=
      htext ▸ List.mem_map.mpr ⟨i, List.mem_range.mpr hi, rfl⟩
    obtain ⟨v, -, hv⟩ := List.mem_map.mp hmem
    exact ⟨v, hv.symm⟩
  constructor
  · intro i hi
    obtain ⟨v, hv⟩ := hbyte i hi
    exact (h.seen_flat hL ht hm hn hv).1
  · apply List.map_injective_iff.mpr (Option.some_injective Byte)
    rw [← htext, Bytes.block, List.map_map]
    refine List.map_congr_left fun i hi => ?_
    obtain ⟨v, hv⟩ := hbyte i (List.mem_range.mp hi)
    rw [hv, Function.comp_apply, (h.seen_flat hL ht hm hn hv).2]

/-- What a call that passes its checks does with the tables of a task loaded: the text is what
the task's program sees in the buffer. -/
theorem Owned.prints_seen (hL : L.InKernel) (h : Owned L s p) (t : Fin nrTasks)
    (hbuff : buff.OnStack L) (μ : Marking (clear (pagingMarks L))) {m : Bytes}
    (hm : SameUpTo (clear (pagingMarks L)) s.mem m) {fd : DWord} {buffer : Addr} {size : DWord}
    (con : Console) (hok : writeError fd buffer size = 0) :
    (∀ text : List Byte,
      (List.range size.toNat).map (fun i => s.seen L t true (buffer + BitVec.ofNat 32 i)) =
        text.map some →
      ∃ m',
        runKernel μ (pagingControl (L.dirAddr t)) (sysWriteProgram fd buffer size buff con) m =
          some (some (size.toInt, text.foldl printc con), m') ∧
        (∀ b, clear (pagingMarks L) b (m' b) ≠ clear (pagingMarks L) b (m b) →
          (b - buff.addr).toNat < buffSize) ∧
        ∀ t' < nrTasks, { s with mem := m' }.seen L t' true = s.seen L t' true) ∧
    ((∃ i < size.toNat, s.seen L t true (buffer + BitVec.ofNat 32 i) = none) →
      runKernel μ (pagingControl (L.dirAddr t)) (sysWriteProgram fd buffer size buff con) m =
        none) := by
  have hspaced := h.toSpaced
  have hmask := marks_pagingMarks hL
  have htables := tablesUpTo L hm
  have hkernel : ∀ a : Addr, (a - buff.addr).toNat < buffSize →
      s.space L t ⟨false, false⟩ a = some a := fun a ha =>
    hspaced.kernel t.isLt false (hbuff.byte ha).2.1 (hbuff.byte ha).2.2
  obtain ⟨n, hflat⟩ : ∃ n : Bytes,
      MemoryProgram.Shows (clear (pagingMarks L)) (s.space L t ⟨false, false⟩) m n :=
    ⟨_, MemoryProgram.shows_getD _ _ _ 0⟩
  have hmapped : UsesBuffer (fun a => (s.space L t ⟨false, false⟩ a).isSome = true)
      (fun a => (s.space L t ⟨false, false⟩ a).isSome = true) buff :=
    KernelBuffer.OnStack.usesBuffer (fun a ha => by rw [hkernel a ha, Option.isSome_some])
      fun a ha => by rw [hkernel a ha, Option.isSome_some]
  obtain ⟨hruns, hfaults⟩ := h.run_flat hL t.isLt hmask μ (sysWriteProgram fd buffer size buff con)
    (htables.walk hmask t.isLt) hflat (fun a ha _ => (hbuff.byte ha).1)
    (sysWriteProgram_careful hbuff fd buffer size con n)
  rw [sysWriteProgram_within buffer hmapped] at hruns hfaults
  refine ⟨fun text htext => ?_, fun hmissing => hfaults fun hall => ?_⟩
  · obtain ⟨hseen, hblock⟩ := hspaced.block_seen hL t.isLt hm hflat htext
    obtain ⟨ram', hsys, -⟩ := sysWrite_of_ok buff ⟨n, []⟩ con hok
    obtain ⟨m', hrun, htables', hframe, -⟩ := hruns fun _ => hseen
    have hstores : ∀ b, clear (pagingMarks L) b (m' b) ≠ clear (pagingMarks L) b (m b) →
        (b - buff.addr).toNat < buffSize := fun b hb => by
      obtain ⟨a, ha, hab⟩ := hframe b hb
      obtain rfl := Option.some.inj ((hkernel a ha).symm.trans hab)
      exact ha
    refine ⟨m', ?_, hstores, fun t' ht' => ?_⟩
    · rw [hrun, sysWriteProgram_flat buffer buff hsys, hblock]
    · rw [Mm.seen, hspaced.spaces_of_tables hmask (htables.trans htables') t' ht', Mm.seen]
      exact AddressMap.view_congr fun a b hab =>
        hbuff.user_apply hL hm hstores (hspaced.userStore_ge ht' hab)
  · obtain ⟨-, -, habove, hend⟩ := userBlock_of_writeError_eq_zero hok
    obtain ⟨i, hi, hnone⟩ := hmissing
    have hmap := hall hok i hi
    rw [hspaced.kernel_isSome_iff t.isLt (by bv_omega), hnone] at hmap
    exact absurd hmap (by decide)

/-- **`write` under paging**, in the memory of a reached state with any marks in it.  A call
that fails its checks has no effect.  One that passes prints what the task's program sees in
the buffer and leaves what all programs see, changing marks and the kernel's buffer alone,
and it faults in the kernel if the program does not see the whole buffer. -/
theorem pagedWrite_run (hL : L.InKernel) (hs : Reached L s) (t : Fin nrTasks)
    (hbuff : buff.OnStack L) (μ : Marking (clear (pagingMarks L))) {m : Bytes}
    (hm : SameUpTo (clear (pagingMarks L)) s.mem m) (fd : DWord) (buffer : Addr) (size : DWord)
    (con : Console) :
    (writeError fd buffer size ≠ 0 →
      runKernel μ (pagingControl (L.dirAddr t)) (sysWriteProgram fd buffer size buff con) m =
        some (some (writeError fd buffer size, con), m)) ∧
    (writeError fd buffer size = 0 → ∀ text : List Byte,
      (List.range size.toNat).map (fun i => s.seen L t true (buffer + BitVec.ofNat 32 i)) =
        text.map some →
      ∃ m',
        runKernel μ (pagingControl (L.dirAddr t)) (sysWriteProgram fd buffer size buff con) m =
          some (some (size.toInt, text.foldl printc con), m') ∧
        (∀ b, clear (pagingMarks L) b (m' b) ≠ clear (pagingMarks L) b (m b) →
          (b - buff.addr).toNat < buffSize) ∧
        ∀ t' < nrTasks, { s with mem := m' }.seen L t' true = s.seen L t' true) ∧
    (writeError fd buffer size = 0 →
      (∃ i < size.toNat, s.seen L t true (buffer + BitVec.ofNat 32 i) = none) →
      runKernel μ (pagingControl (L.dirAddr t)) (sysWriteProgram fd buffer size buff con) m =
        none) := by
  obtain ⟨p, hp⟩ := hs.owned hL
  refine ⟨fun herr => ?_, fun hok => (hp.prints_seen hL t hbuff μ hm con hok).1,
    fun hok => (hp.prints_seen hL t hbuff μ hm con hok).2⟩
  rw [sysWriteProgram_of_error buffer herr]
  rfl

/-- What the program reads is what its pages admit. -/
theorem Spaced.seen_isSome_iff (h : Spaced L s p) {t : ℕ} (ht : t < nrTasks) (a : Addr) :
    (s.seen L t true a).isSome = true ↔ s.UserByte L t a := by
  rw [Mm.seen, AddressMap.view, Option.isSome_map]
  exact (h.user_isSome_iff ht a).1

/-- **Once a task has its pages, a call that passes its checks faults in the kernel exactly
if its buffer is not empty and goes on behind the last page**, which the check of the
pointer lets it do by a page. -/
theorem sysWrite_faults_iff (hL : L.InKernel) (hzero : s.ZeroDirectories L) (t : Fin nrTasks)
    (hbuff : buff.OnStack L) (μ : Marking (clear (pagingMarks L))) {m : Bytes}
    (hm : SameUpTo (clear (pagingMarks L)) (setUserPages (boot L s) (L.taskAddr t)).mem m)
    {fd : DWord} {buffer : Addr} {size : DWord} (con : Console)
    (hok : writeError fd buffer size = 0) :
    runKernel μ (pagingControl (L.dirAddr t)) (sysWriteProgram fd buffer size buff con) m = none ↔
      0 < size.toNat ∧
        lUserStart + (numPagCode + numPagData) * pageSize < buffer.toNat + size.toNat := by
  have hreached : Reached L (setUserPages (boot L s) (L.taskAddr t)) :=
    reached_setUserPages L hzero t
  obtain ⟨p, hp⟩ := hreached.owned hL
  obtain ⟨hprints, hfaults⟩ := hp.prints_seen hL t hbuff μ hm con hok
  obtain ⟨-, hlt, habove, -⟩ := userBlock_of_writeError_eq_zero hok
  have hseen := fun a => hp.toSpaced.seen_isSome_iff t.isLt a
  by_cases hmapped : (setUserPages (boot L s) (L.taskAddr t)).UserMapped L t buffer size
  · obtain ⟨m', hrun, -⟩ := hprints
      ((List.range size.toNat).map fun i => ((setUserPages (boot L s) (L.taskAddr t)).seen L t true
        (buffer + BitVec.ofNat 32 i)).getD 0) (by
          rw [List.map_map]
          refine List.map_congr_left fun i hi => ?_
          obtain ⟨x, hx⟩ := Option.isSome_iff_exists.mp
            ((hseen _).mpr (hmapped i (List.mem_range.mp hi)))
          rw [Function.comp_apply, hx, Option.getD_some])
    rw [hrun]
    refine iff_of_false (by simp) ?_
    rintro ⟨hpos, hend⟩
    exact absurd ((userMapped_setUserPages_iff L s t buffer hpos hlt).mp hmapped).2
      (not_le.mpr hend)
  · obtain ⟨i, hi, hno⟩ : ∃ i < size.toNat, ¬ (setUserPages (boot L s) (L.taskAddr t)).UserByte L t
        (buffer + BitVec.ofNat 32 i) := by
      simpa only [Mm.UserMapped, not_forall, exists_prop] using hmapped
    have hpos : 0 < size.toNat := by omega
    rw [hfaults ⟨i, hi, Option.not_isSome_iff_eq_none.mp ((hseen _).not.mpr hno)⟩]
    refine iff_of_true rfl ⟨hpos, not_le.mp fun hle => hmapped ?_⟩
    exact (userMapped_setUserPages_iff L s t buffer hpos hlt).mpr ⟨habove, hle⟩

end Run

/-- A buffer at the top of the kernel stack. -/
def stackBuffer : KernelBuffer := ⟨0x19f00, by decide⟩

theorem onStack_stackBuffer : stackBuffer.OnStack kernelLayout := by
  constructor <;> decide

/-- The console before anything is printed. -/
def emptyConsole : Console := ⟨0, 19, fun _ => 0, [], []⟩

/-- The last task's program has put two letters at the beginning of its data. -/
def lettersMm : Mm :=
  memoryStep kernelLayout (memoryStep kernelLayout lastTaskMm (.userStore lastTask 0x100000 104))
    (.userStore lastTask 0x100001 105)

/-- It may write there. -/
theorem isSome_space_lastTaskMm {a : Addr} (hge : 0x100000 ≤ a.toNat) (hlt : a.toNat < 0x114000) :
    (lastTaskMm.space kernelLayout lastTask ⟨true, true⟩ a).isSome = true := by
  obtain ⟨p, hp⟩ := reached_lastTaskMm.owned inKernel_kernelLayout
  rw [(hp.toSpaced.user_isSome_iff lastTask.isLt a).2]
  exact (userWritableByte_setUserPages_iff kernelLayout blankMm lastTask a).mpr ⟨hge, hlt⟩

theorem seen_lettersMm : Reached kernelLayout lettersMm ∧
    lettersMm.seen kernelLayout lastTask true 0x100000 = some 104 ∧
    lettersMm.seen kernelLayout lastTask true 0x100001 = some 105 := by
  have hwrite := fun a hge hlt => isSome_space_lastTaskMm (a := a) hge hlt
  obtain ⟨hfirst, hspace⟩ := reached_lastTaskMm.seen_userStore inKernel_kernelLayout lastTask
    (hwrite 0x100000 (by decide) (by decide)) 104
  have hreached := reached_lastTaskMm.step (.userStore lastTask 0x100000 104) trivial
  have hsecond := (hreached.seen_userStore inKernel_kernelLayout lastTask
    (by rw [hspace]; exact hwrite 0x100001 (by decide) (by decide)) 105).1
  refine ⟨hreached.step (.userStore lastTask 0x100001 105) trivial, ?_, ?_⟩
  · rw [lettersMm, hsecond, Function.update_of_ne (by decide), hfirst, Function.update_self]
  · rw [lettersMm, hsecond, Function.update_self]

/-- The two letters are printed, with all entries marked. -/
theorem pagedWrite_run_letters : ∃ m',
    runKernel (Marking.constant (pagingMarks kernelLayout) fun _ => 0xff)
      (pagingControl (kernelLayout.dirAddr lastTask))
      (sysWriteProgram 1 0x100000 2 stackBuffer emptyConsole) lettersMm.mem =
        some (some (2, [104, 105].foldl printc emptyConsole), m') := by
  obtain ⟨hreached, hfirst, hsecond⟩ := seen_lettersMm
  have htext : (List.range (2 : DWord).toNat).map (fun i =>
      lettersMm.seen kernelLayout lastTask true (0x100000 + BitVec.ofNat 32 i)) =
        [104, 105].map some := by
    rw [show List.range (2 : DWord).toNat = [0, 1] by decide, List.map_cons, List.map_cons,
      List.map_nil]
    exact congrArg₂ (fun x y => [x, y]) hfirst hsecond
  obtain ⟨m', hrun, -⟩ := (pagedWrite_run inKernel_kernelLayout hreached lastTask
    onStack_stackBuffer _ (SameUpTo.refl _ _) 1 0x100000 2 emptyConsole).2.1 (by decide) _ htext
  exact ⟨m', hrun⟩

/-- One character behind the code faults. -/
theorem sysWrite_faults_iff_behind :
    runKernel (Marking.constant (pagingMarks kernelLayout) fun _ => 0xff)
      (pagingControl (kernelLayout.dirAddr lastTask))
      (sysWriteProgram 1 0x11c000 1 stackBuffer emptyConsole)
      (setUserPages (boot kernelLayout blankMm) (kernelLayout.taskAddr lastTask)).mem = none :=
  (sysWrite_faults_iff inKernel_kernelLayout (zeroDirectories_blankMm kernelLayout) lastTask
    onStack_stackBuffer _ (SameUpTo.refl _ _) emptyConsole (by decide)).mpr (by decide)

end Zeos
