import Zeos.Boot
import Zeos.Machine.MemoryProgram
import Zeos.Marks

/-!
# Flat memory under paging (`utils.c`, `system.c`)

The C code is written for a memory in which an address is a place, and so are the
models of it.  `init_mm` puts tables between the two.  `flatMemory_run` says that this
makes no difference to any program of the kernel that stores into no table: it runs as
in a flat memory that has what the kernel sees, or it faults, and it faults exactly if
in flat memory it would use an address that is not mapped.

While such a program runs the processor marks the entries that it goes through, so the
tables do not quite stay: `runKernel` has a `Marking`, which may change the marks before
every access, and the result holds for all of them.  It asks of the program that it load
no byte with marks (`Unmarked`), which a flat memory could not show, and what it says of
memory it says up to marks.  `Owned.run_flat` is the result for any mask that paging
allows (`Layout.Marks`), and `flatMemory_run` for the marks of paging.

The block copies are written out as such programs; `copyProgram_flat` ties them to the
copies of `Zeos.Utils`, and `copyProgram_within` says which addresses they use.
-/

namespace Zeos

open Machine

/-! ## Programs of the kernel -/

/-- Run a program of the kernel, with what the control registers say, in a memory that the
processor marks; `none` is a page fault. -/
def runKernel {mask : Addr → Byte} (μ : Marking (clear mask)) {R : Type*} (c : Control)
    (prog : MemoryProgram Addr Byte R) : Bytes → Option (R × Bytes) :=
  prog.runMapped μ (fun m => c.translate m ⟨false, false⟩) fun m => c.translate m ⟨false, true⟩

/-- The program loads no byte in which the processor may have put marks. -/
def Unmarked (mask : Addr → Byte) (a : Addr) : Prop := a.toNat < lUserStart → mask a = 0

section Flat

variable {L : Layout} {s : Mm} {p : Paging} {t : ℕ}

/-- The kernel may write where it may read. -/
theorem Spaced.kernel_write (h : Spaced L s p) (ht : t < nrTasks) :
    s.space L t ⟨false, true⟩ = s.space L t ⟨false, false⟩ := by
  funext a
  refine Option.ext fun b => ?_
  exact ⟨fun hab => space_within s t false a b hab, fun hab => h.kernel_of_user ht hab⟩

/-- Behind an address without marks there are none. -/
theorem Spaced.mask_of_unmarked (h : Spaced L s p) {mask : Addr → Byte} (hmask : L.Marks mask)
    (ht : t < nrTasks) {acc : Access} {a q : Addr} (ha : Unmarked mask a)
    (haq : s.space L t acc a = some q) : mask q = 0 := by
  rcases Nat.lt_or_ge a.toNat lUserStart with hlow | hge
  · obtain ⟨-, -, rfl⟩ := h.low ht haq hlow
    exact ha hlow
  · exact hmask.user q (h.behind ht haq hge).2

/-- A program of the kernel with the directory of a task loaded, in a memory `m` in which the
processor finds what it finds in `s`. -/
theorem Owned.run_flat {R : Type*} (hL : L.InKernel) (h : Owned L s p) (ht : t < nrTasks)
    {mask : Addr → Byte} (hmask : L.Marks mask) (μ : Marking (clear mask))
    (prog : MemoryProgram Addr Byte R) {m n : Bytes} (hm : WalkUpTo L t s.mem m)
    (hn : MemoryProgram.Shows (clear mask) (s.space L t ⟨false, false⟩) m n) {C : Addr → Prop}
    (hC : ∀ a, C a → a.toNat < lUserStart → OffTables L a)
    (hcareful : prog.Within (Unmarked mask) C n) :
    (prog.Within (fun a => (s.space L t ⟨false, false⟩ a).isSome = true)
          (fun a => (s.space L t ⟨false, false⟩ a).isSome = true) n →
        ∃ m', runKernel μ (pagingControl (L.dirAddr t)) prog m = some ((prog.flat n).1, m') ∧
          TablesUpTo L mask m m' ∧
          (∀ b, clear mask b (m' b) ≠ clear mask b (m b) →
            ∃ a, C a ∧ s.space L t ⟨false, false⟩ a = some b) ∧
          MemoryProgram.Shows (clear mask) (s.space L t ⟨false, false⟩) m' (prog.flat n).2) ∧
      (¬ prog.Within (fun a => (s.space L t ⟨false, false⟩ a).isSome = true)
          (fun a => (s.space L t ⟨false, false⟩ a).isSome = true) n →
        runKernel μ (pagingControl (L.dirAddr t)) prog m = none) := by
  have hs := h.toSpaced
  have hoff : ∀ a q, C a → s.space L t ⟨false, false⟩ a = some q → OffTables L q := by
    intro a q ha haq
    rw [← hs.kernel_write ht] at haq
    exact hs.kernelStore_off hL ht ⟨a, hC a ha⟩ haq
  obtain ⟨hruns, hfaults⟩ := MemoryProgram.runMapped_frame (J := WalkUpTo L t s.mem) μ
    (h.faithful ht ⟨false, false⟩)
    (fun m m' hm hsame => hm.trans ((tablesUpTo L hsame).walk hmask ht))
    (fun m hm => hs.translate_of_walk ht hm _)
    (fun m hm => (hs.translate_of_walk ht hm _).trans (hs.kernel_write ht))
    (fun a q ha haq => clear_injective (hs.mask_of_unmarked hmask ht ha haq))
    (fun m a q x hm ha haq => hm.update ht (hoff a q ha haq) x) prog hm hn hcareful
  refine ⟨fun hin => ?_, hfaults⟩
  obtain ⟨m', hrun, -, hframe, hshows⟩ := hruns hin
  refine ⟨m', hrun, fun b hb => ?_, hframe, hshows⟩
  by_contra hne
  obtain ⟨a, ha, hab⟩ := hframe b hne
  exact hb (hoff a b ha hab)

/-- The spaces of all tasks are still there. -/
theorem Spaced.spaces_of_tables (h : Spaced L s p) {mask : Addr → Byte} (hmask : L.Marks mask)
    {m : Bytes} (hm : TablesUpTo L mask s.mem m) :
    ∀ t' < nrTasks, ∀ acc, { s with mem := m }.space L t' acc = s.space L t' acc :=
  fun _ ht' acc =>
    h.space_of_tables hmask (show TablesUpTo L mask s.mem ({ s with mem := m } : Mm).mem from hm)
      ht' acc

/-- **Under paging a program of the kernel runs as in flat memory, or faults**, according
to whether in flat memory it keeps to what is mapped.  `m` is the memory of a reached state
with any marks in it.  The program loads from no byte with marks, and `C` are the addresses
that it stores to.  The flat memory has what the kernel sees, and what is said of memory is
said up to marks. -/
theorem flatMemory_run {R : Type*} (hL : L.InKernel) (hs : Reached L s) (t : Fin nrTasks)
    (μ : Marking (clear (pagingMarks L))) (prog : MemoryProgram Addr Byte R) {m n : Bytes}
    (hm : SameUpTo (clear (pagingMarks L)) s.mem m)
    (hn : MemoryProgram.Shows (clear (pagingMarks L)) (s.space L t ⟨false, false⟩) m n)
    {C : Addr → Prop} (hC : ∀ a, C a → a.toNat < lUserStart → OffTables L a)
    (hcareful : prog.Within (Unmarked (pagingMarks L)) C n) :
    (prog.Within (fun a => (s.space L t ⟨false, false⟩ a).isSome = true)
          (fun a => (s.space L t ⟨false, false⟩ a).isSome = true) n →
        ∃ m',
          runKernel μ (pagingControl (L.dirAddr t)) prog m = some ((prog.flat n).1, m') ∧
          (∀ t' < nrTasks, ∀ acc, { s with mem := m' }.space L t' acc = s.space L t' acc) ∧
          (∀ b, clear (pagingMarks L) b (m' b) ≠ clear (pagingMarks L) b (m b) →
            ∃ a, C a ∧ s.space L t ⟨false, false⟩ a = some b) ∧
          MemoryProgram.Shows (clear (pagingMarks L)) (s.space L t ⟨false, false⟩) m'
            (prog.flat n).2) ∧
      (¬ prog.Within (fun a => (s.space L t ⟨false, false⟩ a).isSome = true)
          (fun a => (s.space L t ⟨false, false⟩ a).isSome = true) n →
        runKernel μ (pagingControl (L.dirAddr t)) prog m = none) := by
  obtain ⟨p, hp⟩ := hs.owned hL
  have hmask := marks_pagingMarks hL
  have htables := tablesUpTo L hm
  obtain ⟨hruns, hfaults⟩ := hp.run_flat hL t.isLt hmask μ prog (htables.walk hmask t.isLt) hn hC
    hcareful
  refine ⟨fun h => ?_, hfaults⟩
  obtain ⟨m', hrun, htables', hframe, hshows⟩ := hruns h
  exact ⟨m', hrun, hp.toSpaced.spaces_of_tables hmask (htables.trans htables'), hframe, hshows⟩

end Flat

/-! ## Copies -/

/-- Load a double word. -/
def loadDWord {R : Type*} (a : Addr) (next : DWord → MemoryProgram Addr Byte R) :
    MemoryProgram Addr Byte R :=
  .load a fun x₀ => .load (a + 1#32) fun x₁ => .load (a + 2#32) fun x₂ => .load (a + 3#32) fun x₃ =>
    next (x₃ ++ x₂ ++ x₁ ++ x₀)

/-- Store a double word. -/
def storeDWord {R : Type*} (a : Addr) (v : DWord) (next : MemoryProgram Addr Byte R) :
    MemoryProgram Addr Byte R :=
  .store a (Bytes.byteOf v 0) <| .store (a + 1#32) (Bytes.byteOf v 1) <|
    .store (a + 2#32) (Bytes.byteOf v 2) <| .store (a + 3#32) (Bytes.byteOf v 3) next

/-- `while (size > 0) { *q1++ = *p1++; size--; }` over bytes. -/
def copyBytesProgram (p1 q1 : Addr) (size : ℤ) : MemoryProgram Addr Byte Unit :=
  if 0 < size then
    .load p1 fun x => .store q1 x (copyBytesProgram (p1 + 1#32) (q1 + 1#32) (size - 1))
  else .done ()
termination_by size.toNat

/-- The common body of the three copies. -/
def copyProgram (p q : Addr) (size : ℤ) : MemoryProgram Addr Byte Unit :=
  if 4 < size then
    loadDWord p fun v => storeDWord q v (copyProgram (p + 4#32) (q + 4#32) (size - 4))
  else copyBytesProgram p q size
termination_by size.toNat

/-- The copy in `main`. -/
def moveUserProgram : MemoryProgram Addr Byte Unit :=
  loadDWord pSysSize fun sys => loadDWord pUsrSize fun usr =>
    copyProgram (BitVec.ofNat 32 kernelStart + sys) (BitVec.ofNat 32 lUserStart) usr.toInt

section Copies

variable {R : Type*}

@[simp] theorem loadDWord_flat (a : Addr) (next : DWord → MemoryProgram Addr Byte R) (m : Bytes) :
    (loadDWord a next).flat m = (next (m.load a)).flat m := rfl

/-- Four stores of a byte are the store of a double word. -/
theorem update_four (m : Bytes) (a : Addr) (v : DWord) :
    Function.update (Function.update (Function.update (Function.update m a (Bytes.byteOf v 0))
      (a + 1#32) (Bytes.byteOf v 1)) (a + 2#32) (Bytes.byteOf v 2)) (a + 3#32) (Bytes.byteOf v 3) =
      m.store a v := by
  funext b
  rw [Bytes.store, Bytes.write]
  simp only [Function.update_apply]
  split_ifs <;> first | (subst_vars; congr 1; bv_omega) | bv_omega

@[simp] theorem storeDWord_flat (a : Addr) (v : DWord) (next : MemoryProgram Addr Byte R)
    (m : Bytes) : (storeDWord a v next).flat m = next.flat (m.store a v) := by
  rw [← update_four]
  rfl

theorem copyBytesProgram_flat (n : ℕ) : ∀ (r : Ram) (p q : Addr),
    (copyBytesProgram p q n).flat r.bytes = ((), (copyBytes r p q n).bytes) := by
  induction n with
  | zero =>
      intro r p q
      rw [copyBytesProgram, copyBytes, if_neg (by simp), if_neg (by simp)]
      rfl
  | succ n ih =>
      intro r p q
      rw [copyBytesProgram, copyBytes, if_pos (by omega), if_pos (by omega),
        show ((n + 1 : ℕ) : ℤ) - 1 = n by omega, ← ih]
      rw [MemoryProgram.flat, MemoryProgram.flat, Ram.storeByte_bytes]
      congr 1
      funext b
      rw [Function.update_apply, Bytes.write]
      split_ifs <;> bv_omega

/-- **The copy as a program is the copy.** -/
theorem copyProgram_flat (r : Ram) (p q : Addr) (size : ℤ) :
    (copyProgram p q size).flat r.bytes = ((), (copyBlock r p q size).bytes) := by
  -- the two loops go down by four and by one, so the induction is on the size left
  have hnat : ∀ (n : ℕ) (r : Ram) (p q : Addr),
      (copyProgram p q n).flat r.bytes = ((), (copyBlock r p q n).bytes) := by
    intro n
    induction n using Nat.strongRecOn with
    | ind n ih =>
        intro r p q
        by_cases h4 : 4 < n
        · obtain ⟨k, rfl⟩ : ∃ k, n = 4 + k := ⟨n - 4, by omega⟩
          rw [copyBlock_of_four_lt r p q (by omega), copyProgram, if_pos (by omega),
            show ((4 + k : ℕ) : ℤ) - 4 = k by omega, ← ih k (by omega), loadDWord_flat,
            storeDWord_flat, Ram.storeDWord_bytes]
        · rw [copyBlock_of_le_four r p q (by omega), copyProgram, if_neg (by omega),
            copyBytesProgram_flat]
  rcases le_or_gt size 0 with hle | hpos
  · rw [copyBlock_of_nonpos r p q hle, copyProgram, if_neg (by omega), copyBytesProgram,
      if_neg (by omega)]
    rfl
  · obtain ⟨n, rfl⟩ : ∃ n : ℕ, size = n := ⟨size.toNat, by omega⟩
    exact hnat n r p q

/-- The copy in `main` as a program. -/
theorem moveUserProgram_flat (r : Ram) :
    moveUserProgram.flat r.bytes = ((), (moveUser r).bytes) := by
  rw [moveUserProgram, loadDWord_flat, loadDWord_flat, copyProgram_flat]
  rfl

variable {P Q : Addr → Prop}

/-- A property of the bytes of a double word. -/
theorem forall_lt_four {P : Addr → Prop} (a : Addr) :
    (∀ i < 4, P (a + BitVec.ofNat 32 i)) ↔
      P a ∧ P (a + 1#32) ∧ P (a + 2#32) ∧ P (a + 3#32) := by
  have hzero : a + BitVec.ofNat 32 0 = a := BitVec.add_zero a
  constructor
  · intro h
    have h₀ := h 0 (by omega)
    rw [hzero] at h₀
    exact ⟨h₀, h 1 (by omega), h 2 (by omega), h 3 (by omega)⟩
  · rintro ⟨h₀, h₁, h₂, h₃⟩ i hi
    obtain rfl | rfl | rfl | rfl : i = 0 ∨ i = 1 ∨ i = 2 ∨ i = 3 := by omega
    · rwa [hzero]
    · exact h₁
    · exact h₂
    · exact h₃

theorem loadDWord_within (a : Addr) (next : DWord → MemoryProgram Addr Byte R) (m : Bytes) :
    (loadDWord a next).Within P Q m ↔
      (∀ i < 4, P (a + BitVec.ofNat 32 i)) ∧ (next (m.load a)).Within P Q m := by
  rw [forall_lt_four]
  exact ⟨fun ⟨h₀, h₁, h₂, h₃, hnext⟩ => ⟨⟨h₀, h₁, h₂, h₃⟩, hnext⟩,
    fun ⟨⟨h₀, h₁, h₂, h₃⟩, hnext⟩ => ⟨h₀, h₁, h₂, h₃, hnext⟩⟩

theorem storeDWord_within (a : Addr) (v : DWord) (next : MemoryProgram Addr Byte R) (m : Bytes) :
    (storeDWord a v next).Within P Q m ↔
      (∀ i < 4, Q (a + BitVec.ofNat 32 i)) ∧ next.Within P Q (m.store a v) := by
  rw [forall_lt_four, ← update_four]
  exact ⟨fun ⟨h₀, h₁, h₂, h₃, hnext⟩ => ⟨⟨h₀, h₁, h₂, h₃⟩, hnext⟩,
    fun ⟨⟨h₀, h₁, h₂, h₃⟩, hnext⟩ => ⟨h₀, h₁, h₂, h₃, hnext⟩⟩

/-- A property of a block is one of its beginning and one of the rest. -/
theorem forall_block_add {P : Addr → Prop} (a : Addr) (j k : ℕ) :
    (∀ i < j + k, P (a + BitVec.ofNat 32 i)) ↔
      (∀ i < j, P (a + BitVec.ofNat 32 i)) ∧
        ∀ i < k, P (a + BitVec.ofNat 32 j + BitVec.ofNat 32 i) := by
  have hadd : ∀ i, a + BitVec.ofNat 32 j + BitVec.ofNat 32 i = a + BitVec.ofNat 32 (j + i) :=
    fun i => by rw [BitVec.add_assoc, ← BitVec.ofNat_add]
  constructor
  · intro h
    refine ⟨fun i hi => h i (by omega), fun i hi => ?_⟩
    rw [hadd]
    exact h _ (by omega)
  · rintro ⟨hfirst, hrest⟩ i hi
    rcases Nat.lt_or_ge i j with hlt | hge
    · exact hfirst i hlt
    · have h := hrest (i - j) (by omega)
      rwa [hadd, Nat.add_sub_cancel' hge] at h

theorem copyBytesProgram_within (n : ℕ) : ∀ (p q : Addr) (m : Bytes),
    (copyBytesProgram p q n).Within P Q m ↔
      (∀ i < n, P (p + BitVec.ofNat 32 i)) ∧ ∀ i < n, Q (q + BitVec.ofNat 32 i) := by
  induction n with
  | zero =>
      intro p q m
      rw [copyBytesProgram, if_neg (by simp)]
      exact ⟨fun _ => ⟨fun i hi => absurd hi i.not_lt_zero, fun i hi => absurd hi i.not_lt_zero⟩,
        fun _ => trivial⟩
  | succ n ih =>
      intro p q m
      have hone : ∀ {P : Addr → Prop} (a : Addr), (∀ i < 1, P (a + BitVec.ofNat 32 i)) ↔ P a := by
        intro P a
        simp
      rw [copyBytesProgram, if_pos (by omega), show ((n + 1 : ℕ) : ℤ) - 1 = n by omega,
        MemoryProgram.Within, MemoryProgram.Within, ih, Nat.add_comm n 1, forall_block_add p,
        forall_block_add q, hone, hone]
      exact ⟨fun ⟨hp, hq, hps, hqs⟩ => ⟨⟨hp, hps⟩, hq, hqs⟩,
        fun ⟨⟨hp, hps⟩, hq, hqs⟩ => ⟨hp, hq, hps, hqs⟩⟩

/-- **A copy uses its two blocks and nothing else.** -/
theorem copyProgram_within (n : ℕ) : ∀ (p q : Addr) (m : Bytes),
    (copyProgram p q n).Within P Q m ↔
      (∀ i < n, P (p + BitVec.ofNat 32 i)) ∧ ∀ i < n, Q (q + BitVec.ofNat 32 i) := by
  induction n using Nat.strongRecOn with
  | ind n ih =>
      intro p q m
      by_cases h4 : 4 < n
      · obtain ⟨k, rfl⟩ : ∃ k, n = 4 + k := ⟨n - 4, by omega⟩
        rw [copyProgram, if_pos (by omega), show ((4 + k : ℕ) : ℤ) - 4 = k by omega,
          loadDWord_within, storeDWord_within, ih k (by omega), forall_block_add p,
          forall_block_add q]
        exact ⟨fun ⟨hp, hq, hps, hqs⟩ => ⟨⟨hp, hps⟩, hq, hqs⟩,
          fun ⟨⟨hp, hps⟩, hq, hqs⟩ => ⟨hp, hq, hps, hqs⟩⟩
      · rw [copyProgram, if_neg (by omega), copyBytesProgram_within]

/-- What the copy in `main` uses: the two sizes, and the blocks that they describe. -/
theorem moveUserProgram_within {m : Bytes} {usrSize : ℕ}
    (husr : (m.load pUsrSize).toInt = usrSize) :
    moveUserProgram.Within P Q m ↔
      ((∀ i < 4, P (pSysSize + BitVec.ofNat 32 i)) ∧ ∀ i < 4, P (pUsrSize + BitVec.ofNat 32 i)) ∧
        (∀ i < usrSize,
          P (BitVec.ofNat 32 kernelStart + m.load pSysSize + BitVec.ofNat 32 i)) ∧
        ∀ i < usrSize, Q (BitVec.ofNat 32 lUserStart + BitVec.ofNat 32 i) := by
  rw [moveUserProgram, loadDWord_within, loadDWord_within, husr, copyProgram_within, and_assoc]

end Copies

/-- Six bytes are copied behind the kernel's tables, with all entries marked. -/
theorem flatMemory_run_copy : ∃ m',
    runKernel (Marking.constant (pagingMarks kernelLayout) fun _ => 0xff)
      (pagingControl (kernelLayout.dirAddr lastTask)) (copyProgram 0x40000 0x50000 6)
      (boot kernelLayout blankMm).mem = some ((), m') := by
  have hzero := zeroDirectories_blankMm kernelLayout
  have hend : kernelLayout.EndsBy 0x36000 := by constructor <;> decide
  have hkernel : ∀ a : Addr, 0x1000 ≤ a.toNat → a.toNat < 0x100000 →
      ((boot kernelLayout blankMm).space kernelLayout lastTask ⟨false, false⟩ a).isSome = true :=
    fun a hge hlt => by
      rw [(spaced_boot kernelLayout hzero).kernel lastTask.isLt false hge hlt, Option.isSome_some]
  have hunmarked : ∀ i < 6, Unmarked (pagingMarks kernelLayout)
      (0x40000 + BitVec.ofNat 32 i) := fun i hi _ =>
    (hend.offTables (by bv_omega)).pagingMarks
  obtain ⟨m', hrun, -⟩ := (flatMemory_run inKernel_kernelLayout
    (reached_boot kernelLayout hzero) lastTask _ (copyProgram 0x40000 0x50000 (6 : ℕ))
    (SameUpTo.refl _ _) (MemoryProgram.shows_getD _ _ _ 0)
    (fun a (ha : 0x50000 ≤ a.toNat) _ => hend.offTables (by omega))
    ((copyProgram_within 6 _ _ _).mpr ⟨hunmarked, fun i hi => by bv_omega⟩)).1
    ((copyProgram_within 6 _ _ _).mpr ⟨fun i hi => hkernel _ (by bv_omega) (by bv_omega),
      fun i hi => hkernel _ (by bv_omega) (by bv_omega)⟩)
  exact ⟨m', hrun⟩

end Zeos
