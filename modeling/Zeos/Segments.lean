import Zeos.Idt
import Zeos.Machine.Segment
import Zeos.Preemption

/-!
# Segments and privilege levels (`bootsect.S`, `mm.c`, `system.c`)

The boot sector has a table of segment descriptors, `setGdt` completes the last one, and
`setTSS` fills the segment that it describes.  `main` calls them with `setIdt` between
the two.  `setTables_ready` says what the processor makes of the three: the four segments
of the kernel and the user are all of memory, and every interrupt enters its handler in
the kernel's code segment, a program's on the stack at `INITIAL_ESP`.

The table of the boot sector is taken from memory as it is when `main` runs
(`HasBootGdt`), where the processor has marked the descriptors that it has loaded: the
accessed bit of a descriptor may be either.  It is load-bearing for the gates that the
interrupt table is zero before `setIdt`, as C promises of it.  The three tables and the
places of their registers lie anywhere, as long as they do not overlap (`KernelData`).
-/

namespace Zeos

open Machine

/-! ## The tables -/

/-- `gdt`, as it is assembled into the boot sector. -/
def bootGdt : List Descriptor :=
  [⟨0, 0, 0, 0, 0, 0⟩,
   ⟨0, 0, 0, 0, 0, 0⟩,
   ⟨0xffff, 0, 0, 0x9a, 0xcf, 0⟩,
   ⟨0xffff, 0, 0, 0x92, 0xcf, 0⟩,
   ⟨0xffff, 0, 0, 0xfa, 0xcf, 0⟩,
   ⟨0xffff, 0, 0, 0xf2, 0xcf, 0⟩,
   ⟨104, 0, 0, 0x89, 0, 0⟩]

/-- A selector constant, as a word. -/
def selector (sel : DWord) : Word := sel.setWidth 16

/-- `KERNEL_TSS`. -/
def kernelTss : Word := 0x30

/-- `midByte`, the third byte of a base. -/
def midByte (address : DWord) : Byte := (address >>> 16 &&& 0xff#32).setWidth 8

/-- `highByte`, the last byte of a base. -/
def highByte (address : DWord) : Byte := (address >>> 24 &&& 0xff#32).setWidth 8

/-- `256 * sizeof(Descriptor)`. -/
def gdtLimit : Word := 2048

/-- Complete the descriptor of the TSS, and load `GDTR` from `gdtR`. -/
def setGdt (gdt gdtR tss : Addr) (m : Bytes) : Bytes × TableRegister :=
  let m := m.storeFields (gdt + BitVec.ofNat 32 (8 * (kernelTss.toNat / 8)))
    [.word 2 (lowWord tss), .byte 4 (midByte tss), .byte 7 (highByte tss)]
  let m := m.storeFields gdtR [.dword 2 gdt, .word 0 gdtLimit]
  (m, m.loadRegister gdtR)

/-- `USER_ESP`. -/
def userEsp : DWord := BitVec.ofNat 32 (lUserStart + numPagData * 0x1000 - 16)

/-- The assignments of `setTSS`, up to `esp`. -/
def tssFields (esp0 : Addr) : List RecordField :=
  [.word 0 0, .dword 4 esp0, .word 8 (selector kernelDs), .dword 12 0, .word 16 0, .dword 20 0,
   .word 24 0, .dword 28 0, .dword 32 0, .dword 36 0x200, .dword 40 0, .dword 44 0, .dword 48 0,
   .dword 52 0, .dword 56 userEsp]

/-- The assignments of `setTSS` from `esi` on: registers, selectors, and the place of the
port bitmap. -/
def tssRest : List RecordField :=
  [.dword 64 0, .dword 68 0, .word 72 (selector userDs), .word 76 (selector userCs),
   .word 80 (selector userDs), .word 84 (selector userDs), .word 88 0, .word 92 0,
   .word 96 kernelTss, .word 100 0, .word 102 0]

/-- Fill the TSS, and load `TR`. -/
def setTSS (tss esp0 : Addr) (gdtr : TableRegister) (m : Bytes) : Option (Bytes × TaskRegister) :=
  let m := m.storeFields tss (tssFields esp0)
  let m := m.store (tss + 60#32) (m.load (tss + 56#32))
  let m := m.storeFields tss tssRest
  loadTask m gdtr kernelTss

/-- Where the tables and the registers' images are, apart from each other. -/
structure KernelData where
  gdt : Addr
  gdtR : Addr
  idt : Addr
  idtR : Addr
  tss : Addr
  apart : [(gdt, 56), (gdtR, 6), (idt, 2048), (idtR, 6), (tss, 104)].Pairwise BlocksApart

/-- Memory and the registers that describe the tables. -/
structure SystemTables where
  mem : Bytes
  gdtr : TableRegister
  idtr : TableRegister
  tr : TaskRegister

/-- `setGdt(); setIdt(); setTSS();` -/
def setTables (D : KernelData) (h : Handlers) (esp0 : Addr) (m : Bytes) : Option SystemTables :=
  let (m, gdtr) := setGdt D.gdt D.gdtR D.tss m
  let (m, idtr) := setIdt D.idt D.idtR h m
  (setTSS D.tss esp0 gdtr m).map fun p => ⟨p.1, gdtr, idtr, p.2⟩

/-! ## What the functions leave -/

theorem midByte_eq (a : DWord) : midByte a = a.extractLsb' 16 8 := by
  rw [midByte, BitVec.setWidth_and]
  exact BitVec.and_allOnes

theorem highByte_eq (a : DWord) : highByte a = a.extractLsb' 24 8 := by
  rw [highByte, BitVec.setWidth_and]
  exact BitVec.and_allOnes

/-- The three pieces of an address are the address. -/
theorem base_pieces (a : DWord) (limit : Word) (flags1 flags2 : Byte) :
    (Descriptor.mk limit (lowWord a) (midByte a) flags1 flags2 (highByte a)).base = a := by
  have hlt := a.isLt
  show highByte a ++ midByte a ++ lowWord a = a
  rw [highByte_eq, midByte_eq, lowWord_eq]
  apply BitVec.eq_of_toNat_eq
  rw [toNat_append_eq, toNat_append_eq, BitVec.extractLsb'_toNat, BitVec.extractLsb'_toNat,
    BitVec.toNat_setWidth, Nat.shiftRight_eq_div_pow, Nat.shiftRight_eq_div_pow]
  omega

/-- Memory has the boot sector's table, in which the processor may have marked segments as
accessed. -/
def HasBootGdt (m : Bytes) (gdt : Addr) : Prop :=
  ∀ k d, bootGdt[k]? = some d → (m.loadDescriptor (gdt + BitVec.ofNat 32 (8 * k))).unaccessed = d

/-- The last descriptor is none of a segment, and cannot be marked so. -/
theorem HasBootGdt.tss {m : Bytes} {gdt : Addr} (h : HasBootGdt m gdt) :
    m.loadDescriptor (gdt + 48#32) = ⟨104, 0, 0, 0x89, 0, 0⟩ := by
  have hdescriptor := h 6 _ rfl
  have hsystem : (m.loadDescriptor (gdt + BitVec.ofNat 32 (8 * 6))).isSegment = false := by
    rw [← Descriptor.isSegment_unaccessed, hdescriptor]
    decide
  rw [Descriptor.unaccessed_of_system hsystem] at hdescriptor
  exact hdescriptor

section Image

variable {m : Bytes} {a base : Addr} {limit : Word}

theorem fieldsFit_image (base : Addr) (limit : Word) :
    Bytes.FieldsFit 6 [.dword 2 base, .word 0 limit] := by
  simp [Bytes.FieldsFit, RecordField.dword, RecordField.word]

/-- The image of a register is loaded as it was stored. -/
theorem loadRegister_image (m : Bytes) (a base : Addr) (limit : Word) :
    (m.storeFields a [.dword 2 base, .word 0 limit]).loadRegister a = ⟨limit, base⟩ := by
  have hfit : Bytes.FieldsFit (2 ^ 32) [.dword 2 base, .word 0 limit] := fun f hf =>
    (fieldsFit_image base limit f hf).trans (by omega)
  have hbyte := fun k (hk : k < 2 ^ 32) => Bytes.storeFields_apply a hk _ m hfit
  rw [Bytes.loadRegister, TableRegister.mk.injEq]
  refine ⟨Bytes.loadWord_eq_of_apply (hbyte 0 (by omega)) (hbyte 1 (by omega)),
    Bytes.load_eq_of_byteOf fun i hi => ?_⟩
  have hfield := hbyte (2 + i) (by omega)
  rw [BitVec.ofNat_add, ← BitVec.add_assoc] at hfield
  refine hfield.trans ?_
  obtain rfl | rfl | rfl | rfl : i = 0 ∨ i = 1 ∨ i = 2 ∨ i = 3 := by omega
  all_goals rfl

end Image

section Tables

variable {D : KernelData} {m : Bytes}

/-- The blocks, two at a time. -/
theorem KernelData.pairs (D : KernelData) :
    BlocksApart (D.gdt, 56) (D.gdtR, 6) ∧ BlocksApart (D.gdt, 56) (D.idt, 2048) ∧
      BlocksApart (D.gdt, 56) (D.idtR, 6) ∧ BlocksApart (D.gdt, 56) (D.tss, 104) ∧
      BlocksApart (D.gdtR, 6) (D.idt, 2048) ∧ BlocksApart (D.idt, 2048) (D.idtR, 6) ∧
      BlocksApart (D.idt, 2048) (D.tss, 104) ∧ BlocksApart (D.gdtR, 6) (D.tss, 104) ∧
      BlocksApart (D.idtR, 6) (D.tss, 104) := by
  have hapart := D.apart
  simp only [List.pairwise_cons, List.mem_cons, List.not_mem_nil, or_false, forall_eq_or_imp,
    forall_eq] at hapart
  tauto

theorem fieldsFit_gdt (tss : Addr) :
    Bytes.FieldsFit 8 [.word 2 (lowWord tss), .byte 4 (midByte tss), .byte 7 (highByte tss)] := by
  simp [Bytes.FieldsFit, RecordField.byte, RecordField.word]

theorem fieldsFit_tss (esp0 : Addr) : Bytes.FieldsFit 104 (tssFields esp0) := by
  simp [Bytes.FieldsFit, tssFields, RecordField.dword, RecordField.word]

theorem fieldsFit_rest : Bytes.FieldsFit 104 tssRest := by
  simp [Bytes.FieldsFit, tssRest, RecordField.dword, RecordField.word]

/-- `setGdt` stores into the last descriptor and the image of `GDTR`. -/
theorem setGdt_apply (D : KernelData) (m : Bytes) {b : Addr}
    (hgdt : 8 ≤ (b - (D.gdt + 48#32)).toNat) (hgdtR : 6 ≤ (b - D.gdtR).toNat) :
    (setGdt D.gdt D.gdtR D.tss m).1 b = m b := by
  rw [setGdt]
  exact (Bytes.storeFields_apply_of_le (by omega) hgdtR (fieldsFit_image _ _) _).trans
    (Bytes.storeFields_apply_of_le (by omega) hgdt (fieldsFit_gdt _) m)

/-- `setIdt` stores into the table and the image of `IDTR`. -/
theorem setIdt_apply (D : KernelData) (h : Handlers) (m : Bytes) {b : Addr}
    (hidt : 2048 ≤ (b - D.idt).toNat) (hidtR : 6 ≤ (b - D.idtR).toNat) :
    (setIdt D.idt D.idtR h m).1 b = m b := by
  rw [setIdt_eq, foldl_gateStep_apply_of_le D.idt _ _ hidt, Bytes.storeWord,
    Bytes.write_apply_of_le _ _ _ (by omega), Bytes.store,
    Bytes.write_apply_of_le _ _ _ (by bv_omega)]

/-- What `setTSS` stores before it loads `TR`. -/
def fillTSS (tss esp0 : Addr) (m : Bytes) : Bytes :=
  let m := m.storeFields tss (tssFields esp0)
  let m := m.store (tss + 60#32) (m.load (tss + 56#32))
  m.storeFields tss tssRest

theorem fillTSS_apply (tss esp0 : Addr) (m : Bytes) {b : Addr} (hb : 104 ≤ (b - tss).toNat) :
    fillTSS tss esp0 m b = m b := by
  rw [fillTSS, Bytes.storeFields_apply_of_le (by omega) hb fieldsFit_rest, Bytes.store,
    Bytes.write_apply_of_le _ _ _ (by bv_omega),
    Bytes.storeFields_apply_of_le (by omega) hb (fieldsFit_tss esp0)]

/-- The stack for level 0. -/
theorem fillTSS_stack (tss esp0 : Addr) (m : Bytes) :
    (fillTSS tss esp0 m).load (tss + 4#32) = esp0 ∧
      (fillTSS tss esp0 m).loadWord (tss + 8#32) = selector kernelDs := by
  have hbyte : ∀ k < 60, fillTSS tss esp0 m (tss + BitVec.ofNat 32 k) =
      tssRest.foldl (RecordField.onto k) ((tssFields esp0).foldl (RecordField.onto k)
        (m (tss + BitVec.ofNat 32 k))) := by
    intro k hk
    rw [fillTSS, Bytes.storeFields_apply tss (by omega) _ _ fun f hf =>
      (fieldsFit_rest f hf).trans (by omega), Bytes.store,
      Bytes.write_apply_of_le _ _ _ (by bv_omega), Bytes.storeFields_apply tss (by omega) _ _
        fun f hf => (fieldsFit_tss esp0 f hf).trans (by omega)]
  -- the two fields are read byte by byte, below the store of `ebp`
  constructor
  · refine Bytes.load_eq_of_byteOf fun i hi => ?_
    have hfield := hbyte (4 + i) (by omega)
    rw [BitVec.ofNat_add, ← BitVec.add_assoc] at hfield
    refine hfield.trans ?_
    obtain rfl | rfl | rfl | rfl : i = 0 ∨ i = 1 ∨ i = 2 ∨ i = 3 := by omega
    all_goals rfl
  · have h₈ := hbyte 8 (by omega)
    have h₉ := hbyte 9 (by omega)
    rw [show (9 : ℕ) = 8 + 1 from rfl, BitVec.ofNat_add, ← BitVec.add_assoc] at h₉
    refine Bytes.loadWord_eq_of_apply ?_ (h₉.trans rfl)
    rw [BitVec.add_assoc]
    exact h₈.trans rfl

/-- The descriptor of the TSS, completed. -/
def tssDescriptor (tss : Addr) : Descriptor :=
  ⟨104, lowWord tss, midByte tss, 0x89, 0, highByte tss⟩

theorem setGdt_tssDescriptor (hboot : HasBootGdt m D.gdt) :
    (setGdt D.gdt D.gdtR D.tss m).1.loadDescriptor (D.gdt + 48#32) = tssDescriptor D.tss := by
  obtain ⟨hgdtR, -⟩ := D.pairs
  obtain ⟨hlimit, -, -, hflags1, hflags2, -⟩ := Descriptor.mk.injEq .. |>.mp hboot.tss
  have hbyte : ∀ k < 8, (setGdt D.gdt D.gdtR D.tss m).1 (D.gdt + 48#32 + BitVec.ofNat 32 k) =
      List.foldl (RecordField.onto k) (m (D.gdt + 48#32 + BitVec.ofNat 32 k))
        [.word 2 (lowWord D.tss), .byte 4 (midByte D.tss), .byte 7 (highByte D.tss)] := by
    intro k hk
    have hin : 6 ≤ (D.gdt + 48#32 + BitVec.ofNat 32 k - D.gdtR).toNat := by
      rw [BitVec.add_assoc, ← BitVec.ofNat_add]
      exact hgdtR.symm.le_sub (by omega)
    rw [setGdt]
    refine (Bytes.storeFields_apply_of_le (by omega) hin (fieldsFit_image _ _) _).trans ?_
    exact Bytes.storeFields_apply (D.gdt + 48#32) (by omega) _ m fun f hf =>
      (fieldsFit_gdt D.tss f hf).trans (by omega)
  -- `setGdt` stores the base alone, limit and flags are the boot sector's
  have hkept : (setGdt D.gdt D.gdtR D.tss m).1.loadWord (D.gdt + 48#32 + 0#32) =
      m.loadWord (D.gdt + 48#32 + 0#32) := by
    refine Bytes.loadWord_congr fun i hi => ?_
    rw [BitVec.add_zero, hbyte i (by omega)]
    obtain rfl | rfl : i = 0 ∨ i = 1 := by omega
    all_goals rfl
  have hlow : (setGdt D.gdt D.gdtR D.tss m).1.loadWord (D.gdt + 48#32 + 2#32) = lowWord D.tss := by
    have h₃ := hbyte (2 + 1) (by omega)
    rw [BitVec.ofNat_add, ← BitVec.add_assoc] at h₃
    refine Bytes.loadWord_eq_of_apply ?_ (h₃.trans rfl)
    exact (congrArg _ (BitVec.add_zero _)).trans ((hbyte 2 (by omega)).trans rfl)
  rw [Bytes.loadDescriptor, tssDescriptor, Descriptor.mk.injEq]
  exact ⟨hkept.trans hlimit, hlow, (hbyte 4 (by omega)).trans rfl,
    (hbyte 5 (by omega)).trans hflags1, (hbyte 6 (by omega)).trans hflags2,
    (hbyte 7 (by omega)).trans rfl⟩

theorem tssDescriptor_base (tss : Addr) : (tssDescriptor tss).base = tss :=
  base_pieces tss 104 0x89 0

/-- A selector of the global table. -/
theorem descriptorAt_gdt (m : Bytes) (gdt : Addr) {limit sel : Word} {k : ℕ}
    (hk : sel.toNat / 8 = k) (hglobal : sel.getLsbD 2 = false) (hpos : 0 < k)
    (hlimit : 8 * k + 7 ≤ limit.toNat) :
    descriptorAt m ⟨limit, gdt⟩ sel =
      some (m.loadDescriptor (gdt + BitVec.ofNat 32 (8 * k))).unaccessed := by
  rw [descriptorAt, hk, hglobal, if_neg]
  dsimp only
  simp only [Bool.false_eq_true, false_or]
  omega

/-- `ltr` finds the segment, and marks it. -/
theorem setTSS_eq (D : KernelData) (esp0 : Addr)
    (htss : m.loadDescriptor (D.gdt + 48#32) = tssDescriptor D.tss) :
    setTSS D.tss esp0 ⟨gdtLimit, D.gdt⟩ m =
      some ((fillTSS D.tss esp0 m).write (D.gdt + 48#32 + 5#32) 1 fun _ => 0x8b#8,
        ⟨D.tss, 104⟩) := by
  obtain ⟨-, -, -, hgdt, -⟩ := D.pairs
  have hkept : (fillTSS D.tss esp0 m).loadDescriptor (D.gdt + 48#32) = tssDescriptor D.tss := by
    rw [← htss]
    refine Bytes.loadDescriptor_congr fun i hi => fillTSS_apply _ _ _ ?_
    rw [BitVec.add_assoc, ← BitVec.ofNat_add]
    exact hgdt.symm.le_sub (by omega)
  have hsystem : (tssDescriptor D.tss).isSegment = false := by
    show (0x89 : Byte).getLsbD 4 = false
    decide
  have hfound : descriptorAt (fillTSS D.tss esp0 m) ⟨gdtLimit, D.gdt⟩ kernelTss =
      some (tssDescriptor D.tss) := by
    rw [descriptorAt_gdt _ _ (k := 6) rfl rfl (by omega) (by decide),
      ← Descriptor.unaccessed_of_system hsystem, ← hkept]
  have hload : setTSS D.tss esp0 ⟨gdtLimit, D.gdt⟩ m =
      loadTask (fillTSS D.tss esp0 m) ⟨gdtLimit, D.gdt⟩ kernelTss := rfl
  -- the descriptor is available, and `ltr` marks it busy
  have htask : ((tssDescriptor D.tss).availableTask && (tssDescriptor D.tss).present) = true := by
    simp [tssDescriptor, Descriptor.availableTask, Descriptor.present]
  have hspan : (tssDescriptor D.tss).span = 104 := by simp [tssDescriptor, Descriptor.span]
  have hbusy : (tssDescriptor D.tss).flags1 ||| 2#8 = 0x8b#8 := by
    show 0x89#8 ||| 2#8 = 0x8b#8
    decide
  have hindex : 8 * (kernelTss.toNat / 8) = 48 := rfl
  rw [hload, loadTask, hfound, Option.bind_some, if_pos htask, tssDescriptor_base, hspan, hbusy,
    hindex]

/-- What the processor finds in the tables. -/
structure SystemTables.Ready (d : SystemTables) (h : Handlers) (esp0 : Addr) : Prop where
  flat : ∀ sel ∈ [kernelCs, selector kernelDs, selector userCs, selector userDs],
    ∀ offset, linear d.mem d.gdtr sel offset = some offset
  interrupts : ∀ v cpl, enterHandler d.mem d.idtr d.gdtr d.tr cpl false v =
    (h.at v.toNat).map fun a =>
      ⟨kernelCs, a, true, if 0 < cpl then some (selector kernelDs, esp0) else none⟩
  software : ∀ v cpl, 0 < cpl → enterHandler d.mem d.idtr d.gdtr d.tr cpl true v = none

/-- The byte is in none of the tables and images that the three functions store into. -/
structure KernelData.Off (D : KernelData) (b : Addr) : Prop where
  descriptor : 8 ≤ (b - (D.gdt + 48#32)).toNat
  gdtR : 6 ≤ (b - D.gdtR).toNat
  idt : 2048 ≤ (b - D.idt).toNat
  idtR : 6 ≤ (b - D.idtR).toNat
  tss : 104 ≤ (b - D.tss).toNat

/-- The other descriptors are. -/
theorem KernelData.off_gdt (D : KernelData) {i : ℕ} (hi : i < 48) :
    D.Off (D.gdt + BitVec.ofNat 32 i) := by
  obtain ⟨hgdtR, hidt, hidtR, htss, -⟩ := D.pairs
  exact ⟨by bv_omega, hgdtR.symm.le_sub (by omega), hidt.symm.le_sub (by omega),
    hidtR.symm.le_sub (by omega), htss.symm.le_sub (by omega)⟩

/-- The memory at the end, and the registers. -/
theorem setTables_eq (D : KernelData) (h : Handlers) (esp0 : Addr) (hboot : HasBootGdt m D.gdt)
    (hzero : ∀ i < 2048, m (D.idt + BitVec.ofNat 32 i) = 0) :
    ∃ m₁ d, setTables D h esp0 m = some d ∧
      d.mem = (fillTSS D.tss esp0 (setIdt D.idt D.idtR h m₁).1).write (D.gdt + 48#32 + 5#32) 1
        (fun _ => 0x8b#8) ∧
      d.gdtr = ⟨gdtLimit, D.gdt⟩ ∧ d.idtr = ⟨idtLimit, D.idt⟩ ∧ d.tr = ⟨D.tss, 104⟩ ∧
      (∀ i < 2048, m₁ (D.idt + BitVec.ofNat 32 i) = 0) ∧
      (∀ i < 104, (setIdt D.idt D.idtR h m₁).1 (D.tss + BitVec.ofNat 32 i) =
        m (D.tss + BitVec.ofNat 32 i)) ∧
      ∀ b, D.Off b → d.mem b = m b := by
  obtain ⟨hgdtR, hidt, hidtR', hgdt, hidtGdtR, hidtR, htssIdt, htssGdtR, htssIdtR⟩ := D.pairs
  have hgdtr : (setGdt D.gdt D.gdtR D.tss m).2 = ⟨gdtLimit, D.gdt⟩ := loadRegister_image _ _ _ _
  have htss : (setIdt D.idt D.idtR h (setGdt D.gdt D.gdtR D.tss m).1).1.loadDescriptor
      (D.gdt + 48#32) = tssDescriptor D.tss := by
    rw [← setGdt_tssDescriptor hboot]
    refine Bytes.loadDescriptor_congr fun i hi => ?_
    rw [BitVec.add_assoc, ← BitVec.ofNat_add]
    exact setIdt_apply D h _ (hidt.symm.le_sub (by omega)) (hidtR'.symm.le_sub (by omega))
  -- each of the three stores in places of its own, so the last ones keep what the first has done
  refine ⟨(setGdt D.gdt D.gdtR D.tss m).1,
    ⟨(fillTSS D.tss esp0 (setIdt D.idt D.idtR h (setGdt D.gdt D.gdtR D.tss m).1).1).write
      (D.gdt + 48#32 + 5#32) 1 fun _ => 0x8b#8, _,
      (setIdt D.idt D.idtR h (setGdt D.gdt D.gdtR D.tss m).1).2, _⟩, ?_, rfl, rfl,
    loadRegister_setIdt (fun i hi => hidtR.le_sub hi) h, rfl, fun i hi => ?_, fun i hi => ?_,
    fun b hb => ?_⟩
  · have hrun : setTables D h esp0 m =
        (setTSS D.tss esp0 (setGdt D.gdt D.gdtR D.tss m).2
          (setIdt D.idt D.idtR h (setGdt D.gdt D.gdtR D.tss m).1).1).map fun p =>
            ⟨p.1, (setGdt D.gdt D.gdtR D.tss m).2,
              (setIdt D.idt D.idtR h (setGdt D.gdt D.gdtR D.tss m).1).2, p.2⟩ := rfl
    rw [hrun, hgdtr, setTSS_eq D esp0 htss, Option.map_some]
  · rw [setGdt_apply D m ?_ (hidtGdtR.le_sub hi), hzero i hi]
    have hout := hidt.le_sub hi
    bv_omega
  · rw [setIdt_apply D h _ (htssIdt.le_sub hi) (htssIdtR.le_sub hi),
      setGdt_apply D m ?_ (htssGdtR.le_sub hi)]
    have hout := hgdt.le_sub hi
    bv_omega
  · have hdescriptor := hb.descriptor
    have hflags : 1 ≤ (b - (D.gdt + 48#32 + 5#32)).toNat := by
      clear hzero
      bv_omega
    show (fillTSS D.tss esp0 (setIdt D.idt D.idtR h (setGdt D.gdt D.gdtR D.tss m).1).1).write
      (D.gdt + 48#32 + 5#32) 1 (fun _ => 0x8b#8) b = m b
    rw [Bytes.write_apply_of_le _ _ _ hflags, fillTSS_apply _ _ _ hb.tss,
      setIdt_apply D h _ hb.idt hb.idtR, setGdt_apply D m hb.descriptor hb.gdtR]

/-- A segment of 4 GB from 0 on, of code or data: `access` has its rights. -/
def flatDescriptor (access : Byte) : Descriptor := ⟨0xffff, 0, 0, access, 0xcf, 0⟩

theorem flatDescriptor_base (access : Byte) : (flatDescriptor access).base = 0 := by
  show (0#8 ++ 0#8 ++ 0#16 : Addr) = 0
  decide

theorem flatDescriptor_span (access : Byte) : (flatDescriptor access).span = 2 ^ 32 - 1 := by
  have hlimit : (BitVec.extractLsb' 0 4 (0xcf : Byte) ++ (0xffff : Word)).toNat = 0xfffff := by
    decide
  have hpages : (0xcf : Byte).getLsbD 7 = true := by decide
  rw [flatDescriptor, Descriptor.span]
  dsimp only
  rw [hlimit, if_pos hpages]
  omega

theorem linear_of_flat {gdtr : TableRegister} {sel : Word} {access : Byte}
    (hfound : descriptorAt m gdtr sel = some (flatDescriptor access))
    (haccess : ((flatDescriptor access).isSegment && (flatDescriptor access).present &&
      ((flatDescriptor access).executable || !(flatDescriptor access).special)) = true)
    (offset : Addr) : linear m gdtr sel offset = some offset := by
  have hspan : offset.toNat ≤ (flatDescriptor access).span := by
    rw [flatDescriptor_span]
    exact Nat.le_sub_one_of_lt offset.isLt
  rw [linear, hfound, Option.bind_some, if_pos ⟨haccess, hspan⟩, flatDescriptor_base]
  exact congrArg some (BitVec.zero_add offset)

/-- The boot sector's segments, in memory that has kept its descriptors. -/
theorem HasBootGdt.segment {gdt : Addr} (h : HasBootGdt m gdt) {m' : Bytes}
    (hkept : ∀ i < 48, m' (gdt + BitVec.ofNat 32 i) = m (gdt + BitVec.ofNat 32 i))
    {limit sel : Word} {k : ℕ} {access : Byte} (hentry : bootGdt[k]? = some (flatDescriptor access))
    (hk : sel.toNat / 8 = k) (hglobal : sel.getLsbD 2 = false) (hpos : 0 < k) (hlt : k < 6)
    (hlimit : 47 ≤ limit.toNat) :
    descriptorAt m' ⟨limit, gdt⟩ sel = some (flatDescriptor access) := by
  have hsame : m'.loadDescriptor (gdt + BitVec.ofNat 32 (8 * k)) =
      m.loadDescriptor (gdt + BitVec.ofNat 32 (8 * k)) := Bytes.loadDescriptor_congr fun i hi => by
    rw [BitVec.add_assoc, ← BitVec.ofNat_add]
    exact hkept _ (by omega)
  rw [descriptorAt_gdt _ _ hk hglobal hpos (by omega), hsame, h k _ hentry]

/-- The gates are those of `setIdt` when `setTSS` has run. -/
theorem deliver_fillTSS (D : KernelData) (esp0 : Addr) (m : Bytes) (cpl : ℕ) (software : Bool)
    (v : Byte) :
    deliver ((fillTSS D.tss esp0 m).write (D.gdt + 48#32 + 5#32) 1 fun _ => 0x8b#8)
        ⟨idtLimit, D.idt⟩ cpl software v =
      deliver m ⟨idtLimit, D.idt⟩ cpl software v := by
  obtain ⟨-, hidt, -, -, -, -, htss, -⟩ := D.pairs
  have hv := v.isLt
  refine deliver_congr (Bytes.loadGate_congr fun i hi => ?_)
  have hbyte : D.idt + BitVec.ofNat 32 (8 * v.toNat) + BitVec.ofNat 32 i =
      D.idt + BitVec.ofNat 32 (8 * v.toNat + i) := by rw [BitVec.add_assoc, ← BitVec.ofNat_add]
  have hout : 56 ≤ (D.idt + BitVec.ofNat 32 (8 * v.toNat + i) - D.gdt).toNat :=
    hidt.le_sub (by omega)
  have hgate := fillTSS_apply D.tss esp0 m
    (htss.symm.le_sub (show 8 * v.toNat + i < 2048 by omega))
  dsimp only
  rw [hbyte, ← hgate]
  generalize D.idt + BitVec.ofNat 32 (8 * v.toNat + i) = b at hout
  exact Bytes.write_apply_of_le _ _ _ (by bv_omega)

/-- The stack for level 0 is the one that `setTSS` has stored. -/
theorem innerStack_fillTSS (D : KernelData) (esp0 : Addr) (m : Bytes) :
    innerStack ((fillTSS D.tss esp0 m).write (D.gdt + 48#32 + 5#32) 1 fun _ => 0x8b#8)
      ⟨D.tss, 104⟩ 0 = some (selector kernelDs, esp0) := by
  obtain ⟨-, -, -, hgdt, -⟩ := D.pairs
  obtain ⟨hesp, hss⟩ := fillTSS_stack D.tss esp0 m
  generalize hfilled : (fillTSS D.tss esp0 m).write (D.gdt + 48#32 + 5#32) 1 (fun _ => 0x8b#8) = m'
  -- the mark of `ltr` is in the table of descriptors, not in the TSS
  have htask : ∀ i < 104, m' (D.tss + BitVec.ofNat 32 i) =
      fillTSS D.tss esp0 m (D.tss + BitVec.ofNat 32 i) := by
    intro i hi
    have hout := hgdt.le_sub hi
    rw [← hfilled, Bytes.write_apply_of_le _ _ _ (by bv_omega)]
  have hload : m'.load (D.tss + 4#32) = esp0 := by
    rw [← hesp]
    refine Bytes.load_congr fun i hi => ?_
    have hfield := htask (4 + i) (by omega)
    rwa [BitVec.ofNat_add, ← BitVec.add_assoc] at hfield
  have hword : m'.loadWord (D.tss + 8#32) = selector kernelDs := by
    rw [← hss]
    refine Bytes.loadWord_congr fun i hi => ?_
    have hfield := htask (8 + i) (by omega)
    rwa [BitVec.ofNat_add, ← BitVec.add_assoc] at hfield
  have hspan : ¬ (⟨D.tss, 104⟩ : TaskRegister).span < 8 * 0 + 9 := by
    show ¬ 104 < 9
    omega
  rw [innerStack, if_neg hspan, ← hload, ← hword]

/-- A gate to the kernel's code segment: where the handler is entered, and on which stack. -/
theorem enterHandler_kernel {idtr gdtr : TableRegister} {tr : TaskRegister} {cpl : ℕ}
    {software : Bool} {v : Byte} {a : Addr} {st : Word × Addr}
    (hdeliver : deliver m idtr cpl software v = some ⟨kernelCs, a, true⟩)
    (hcode : descriptorAt m gdtr kernelCs = some (flatDescriptor 0x9a))
    (hchange : changeStack m gdtr tr 0 = some st) :
    enterHandler m idtr gdtr tr cpl software v =
      some ⟨kernelCs, a, true, if 0 < cpl then some st else none⟩ := by
  have hspan := flatDescriptor_span 0x9a
  have hlt := a.isLt
  have hspecial : (flatDescriptor 0x9a).special = false := by decide
  have hdpl : (flatDescriptor 0x9a).dpl = 0 := by decide
  have hcs : kernelCs &&& 0xfffc#16 ||| BitVec.ofNat 16 0 = kernelCs := by decide
  have haccess :
      ((flatDescriptor 0x9a).executable && (flatDescriptor 0x9a).present) = true := by decide
  rw [enterHandler, hdeliver, Option.bind_some]
  dsimp only
  rw [hcode, Option.bind_some, hspan, hspecial, hdpl, haccess, if_neg Bool.false_ne_true, hcs,
    if_neg (by simp; omega)]
  rcases Nat.eq_zero_or_pos cpl with rfl | hpos
  · rw [if_pos rfl]
    rfl
  · rw [if_neg (by omega), hchange, if_pos hpos]
    rfl

section Run

variable {h : Handlers} {esp0 : Addr} {d : SystemTables} (hboot : HasBootGdt m D.gdt)
  (hzero : ∀ i < 2048, m (D.idt + BitVec.ofNat 32 i) = 0) (hrun : setTables D h esp0 m = some d)

include hboot hzero hrun

/-- What the three functions have left if they have run. -/
theorem setTables_cases : ∃ m₁,
    d.mem = (fillTSS D.tss esp0 (setIdt D.idt D.idtR h m₁).1).write (D.gdt + 48#32 + 5#32) 1
      (fun _ => 0x8b#8) ∧
    d.gdtr = ⟨gdtLimit, D.gdt⟩ ∧ d.idtr = ⟨idtLimit, D.idt⟩ ∧ d.tr = ⟨D.tss, 104⟩ ∧
    (∀ i < 2048, m₁ (D.idt + BitVec.ofNat 32 i) = 0) ∧
    (∀ i < 104, (setIdt D.idt D.idtR h m₁).1 (D.tss + BitVec.ofNat 32 i) =
      m (D.tss + BitVec.ofNat 32 i)) ∧
    ∀ b, D.Off b → d.mem b = m b := by
  obtain ⟨m₁, d', hrun', hleft⟩ := setTables_eq D h esp0 hboot hzero
  obtain rfl : d = d' := Option.some.inj (hrun.symm.trans hrun')
  exact ⟨m₁, hleft⟩

/-- The boot sector's descriptors are not among the bytes that change. -/
theorem descriptors_of_setTables : ∀ i < 48,
    d.mem (D.gdt + BitVec.ofNat 32 i) = m (D.gdt + BitVec.ofNat 32 i) := by
  obtain ⟨-, -, -, -, -, -, -, hoff⟩ := setTables_cases hboot hzero hrun
  exact fun i hi => hoff _ (D.off_gdt hi)

/-- A selector of one of the boot sector's segments finds it. -/
theorem segment_of_setTables {sel : Word} {k : ℕ} {access : Byte}
    (hentry : bootGdt[k]? = some (flatDescriptor access)) (hk : sel.toNat / 8 = k)
    (hglobal : sel.getLsbD 2 = false) (hpos : 0 < k) (hlt : k < 6) :
    descriptorAt d.mem d.gdtr sel = some (flatDescriptor access) := by
  obtain ⟨-, -, hgdtr, -⟩ := setTables_cases hboot hzero hrun
  rw [hgdtr]
  exact hboot.segment (descriptors_of_setTables hboot hzero hrun) hentry hk hglobal hpos hlt
    (by decide)

/-- The gates are those that `setIdt` has set. -/
theorem deliver_of_setTables (v : Byte) :
    (∀ cpl, deliver d.mem d.idtr cpl false v =
      (h.at v.toNat).map fun a => ⟨kernelCs, a, true⟩) ∧
    ∀ cpl, 0 < cpl → deliver d.mem d.idtr cpl true v = none := by
  obtain ⟨m₁, hmem, -, hidtr, -, hzero₁, -⟩ := setTables_cases hboot hzero hrun
  obtain ⟨-, -, -, -, -, hidtR, -⟩ := D.pairs
  have hapart : ∀ i < 6, 2048 ≤ (D.idtR + BitVec.ofNat 32 i - D.idt).toNat :=
    fun i hi => hidtR.le_sub hi
  have hgates : ∀ cpl software, deliver d.mem d.idtr cpl software v =
      deliver (setIdt D.idt D.idtR h m₁).1 (setIdt D.idt D.idtR h m₁).2 cpl software v := by
    intro cpl software
    rw [hidtr, hmem, deliver_fillTSS, loadRegister_setIdt hapart]
  constructor
  · intro cpl
    rw [hgates]
    exact deliver_setIdt_interrupt hapart h hzero₁ v cpl
  · intro cpl hcpl
    rw [hgates]
    exact deliver_setIdt_software hapart h hzero₁ v hcpl

/-- The stack for level 0, in a segment that the processor takes for it. -/
theorem changeStack_of_setTables :
    changeStack d.mem d.gdtr d.tr 0 = some (selector kernelDs, esp0) := by
  obtain ⟨_, hmem, -, -, htr, -⟩ := setTables_cases hboot hzero hrun
  have hdata : descriptorAt d.mem d.gdtr (selector kernelDs) = some (flatDescriptor 0x92) :=
    segment_of_setTables hboot hzero hrun (k := 3) rfl rfl rfl (by omega) (by omega)
  have hlevel : (selector kernelDs).toNat % 4 = 0 := by decide
  rw [changeStack, htr, hmem, innerStack_fillTSS, Option.bind_some, ← hmem, hdata,
    Option.bind_some]
  exact if_pos ⟨by decide, by decide, hlevel⟩

theorem ready_of_setTables : d.Ready h esp0 := by
  have hcode : descriptorAt d.mem d.gdtr kernelCs = some (flatDescriptor 0x9a) :=
    segment_of_setTables hboot hzero hrun (k := 2) rfl rfl rfl (by omega) (by omega)
  -- the segments, the ways in from outside, and the gates that a program finds closed
  refine ⟨fun sel hsel => ?_, fun v cpl => ?_, fun v cpl hcpl => ?_⟩
  · obtain rfl | rfl | rfl | rfl : sel = kernelCs ∨ sel = selector kernelDs ∨
        sel = selector userCs ∨ sel = selector userDs := by simpa using hsel
    · exact linear_of_flat hcode (by decide)
    · exact linear_of_flat (segment_of_setTables hboot hzero hrun (k := 3) rfl rfl rfl (by omega)
        (by omega)) (by decide)
    · exact linear_of_flat (segment_of_setTables hboot hzero hrun (k := 4) rfl rfl rfl (by omega)
        (by omega)) (by decide)
    · exact linear_of_flat (segment_of_setTables hboot hzero hrun (k := 5) rfl rfl rfl (by omega)
        (by omega)) (by decide)
  · have hdeliver := (deliver_of_setTables hboot hzero hrun v).1 cpl
    cases hv : h.at v.toNat with
    | none =>
        rw [enterHandler, hdeliver, hv]
        rfl
    | some a =>
        rw [hv] at hdeliver
        exact enterHandler_kernel hdeliver hcode (changeStack_of_setTables hboot hzero hrun)
  · rw [enterHandler, (deliver_of_setTables hboot hzero hrun v).2 cpl hcpl]
    rfl

end Run

/-- **Every interrupt enters its handler on the kernel's stack.**  Once `main` has set the
tables, the four segments are all of memory, an interrupt or an exception finds its
handler in the kernel's code segment, the stack of a program is changed for the one at
`INITIAL_ESP`, and a program's `int` enters nothing. -/
theorem setTables_ready (D : KernelData) (h : Handlers) (L : Layout) (hboot : HasBootGdt m D.gdt)
    (hzero : ∀ i < 2048, m (D.idt + BitVec.ofNat 32 i) = 0) :
    ∃ d, setTables D h (initialEsp L) m = some d ∧ d.Ready h (initialEsp L) := by
  obtain ⟨-, d, hrun, -⟩ := setTables_eq D h (initialEsp L) hboot hzero
  exact ⟨d, hrun, ready_of_setTables hboot hzero hrun⟩

end Tables

/-- `gdt` byte by byte. -/
def bootGdtBytes : List Byte :=
  [0, 0, 0, 0, 0, 0, 0, 0, 0, 0, 0, 0, 0, 0, 0, 0,
   0xff, 0xff, 0, 0, 0, 0x9a, 0xcf, 0, 0xff, 0xff, 0, 0, 0, 0x92, 0xcf, 0,
   0xff, 0xff, 0, 0, 0, 0xfa, 0xcf, 0, 0xff, 0xff, 0, 0, 0, 0xf2, 0xcf, 0,
   104, 0, 0, 0, 0, 0x89, 0, 0]

/-- Memory that has it at `GDT_START`. -/
def bootSector : Bytes := fun a => bootGdtBytes.getD (a - 0x901b3#32).toNat 0

theorem bootSector_of_le {a : Addr} (ha : 56 ≤ (a - 0x901b3#32).toNat) : bootSector a = 0 := by
  rw [bootSector, List.getD_eq_getElem?_getD, List.getElem?_eq_none ha, Option.getD_none]

theorem hasBootGdt_bootSector : HasBootGdt bootSector 0x901b3 := by
  intro k d hk
  have hlt : k < 7 := (List.getElem?_eq_some_iff.mp hk).1
  have hd : bootGdt[k]? =
      some (bootSector.loadDescriptor (0x901b3 + BitVec.ofNat 32 (8 * k))).unaccessed := by
    obtain rfl | rfl | rfl | rfl | rfl | rfl | rfl :
      k = 0 ∨ k = 1 ∨ k = 2 ∨ k = 3 ∨ k = 4 ∨ k = 5 ∨ k = 6 := by omega
    all_goals decide
  exact Option.some.inj (hd.symm.trans hk)

/-- Tables at made-up addresses. -/
def someData : KernelData where
  gdt := 0x901b3
  gdtR := 0x15008
  idt := 0x14000
  idtR := 0x15000
  tss := 0x15010
  apart := by decide

/-- A timer interrupt of a program. -/
theorem setTables_ready_timer : ∃ d, setTables someData someHandlers (initialEsp kernelLayout)
    bootSector = some d ∧
      enterHandler d.mem d.idtr d.gdtr d.tr 3 false 32 =
        some ⟨kernelCs, 0x11200, true, some (selector kernelDs, initialEsp kernelLayout)⟩ := by
  obtain ⟨d, hrun, hready⟩ := setTables_ready someData someHandlers kernelLayout
    hasBootGdt_bootSector fun i hi => bootSector_of_le (by
      show 56 ≤ (0x14000#32 + BitVec.ofNat 32 i - 0x901b3#32).toNat
      bv_omega)
  exact ⟨d, hrun, hready.interrupts 32 3⟩

end Zeos
