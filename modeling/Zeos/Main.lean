import Zeos.Machine.Stack
import Zeos.MainMemory
import Zeos.Privilege

/-!
# From the boot sector to the program (`system.c`, `hardware.c`, `entry.S`)

`main` sets up tables, registers and memory, moves the user program, and leaves for it by a
far return (`return_gate`), as if the program had called.  `main_starts` says that the
program then runs: at the user's level, in its own segments and on its own stack, with
its image in its pages, and with everything in place that keeps it from the kernel.  If
the image is longer than the user's pages `main` does not get there: the copy faults.

The assumptions are in two structures.  `Placement` is about the linker and the build: what
`main` stores into lies in the first megabyte behind page 0, each part for itself, and the
image is apart from it.  Most of it is load-bearing.  Were a table in page 0 or behind the
first megabyte, `set_user_pages` would not find it once paging is on; were the image among
the tables, the processor's marks would get into the copy.  The image has to end within
0x7F000 bytes, as the kernel's part of memory does not go on behind it.  `Booted` is what
the boot sector leaves: its table of descriptors, in which the far jump to `main` has
already marked one as accessed, zeros where the directories and the gates will be, and the
sizes of the image.

The processor marks the entries and descriptors that it uses, at times of its own choice
(`Marking`).  Two markings stand for what it does from the copy on; nothing looks at a
mark before that, and a `Marking` may begin with any marks.

`writeMsr` is a function on the registers, which `writeMsrCode_spec` reads off its code.
Left out are what `main` prints, `reset_clock_ticks`, the write of `enable_int` to the port
of the interrupt controller, and the functions that do nothing; none of them changes the
memory or the registers that are modelled here.  Interrupts between `enable_int` and the far
return find the same handlers.
-/

namespace Zeos

open Machine

/-! ## `writeMsr` -/

/-- The model-specific registers. -/
abbrev Msrs := DWord → BitVec 64

/-- `wrmsr`. -/
def wrmsr (c : Cpu Msrs) : Cpu Msrs :=
  { c with world := Function.update c.world (c.regs .ecx) (c.regs .edx ++ c.regs .eax) }

/-- `writeMsr`, up to its `ret`. -/
def writeMsrCode (c : Cpu Msrs) : Cpu Msrs :=
  let c := c.push (c.read (.reg .ebp))
  let c := c.write (.reg .ebp) (c.read (.reg .esp))
  let c := c.write (.reg .ecx) (c.read (.mem 8 .ebp))
  let c := c.write (.reg .eax) (c.read (.mem 12 .ebp))
  let c := c.write (.reg .edx) (c.read (.imm 0))
  let c := wrmsr c
  c.pop (.reg .ebp)

/-- What it does for its caller. -/
def writeMsr (msrs : Msrs) (number value : DWord) : Msrs :=
  Function.update msrs number ((0 : DWord) ++ value)

/-- **`writeMsr` writes its second argument to the register that its first one names**, and
leaves the stack to its `ret`. -/
theorem writeMsrCode_spec {c : Cpu Msrs} {ret number value : DWord} {ws : List DWord}
    (h : c.Stack (ret :: number :: value :: ws)) (hlen : 4 * (ws.length + 4) ≤ 2 ^ 32) :
    (writeMsrCode c).world = writeMsr c.world number value ∧
      (writeMsrCode c).Stack (ret :: number :: value :: ws) ∧
      (writeMsrCode c).regs .ebp = c.regs .ebp := by
  have hpush : (c.push (c.regs .ebp)).Stack (c.regs .ebp :: ret :: number :: value :: ws) :=
    Cpu.push_stack _ h (by simpa using hlen)
  have hnumber : (c.push (c.regs .ebp)).mem.load ((c.push (c.regs .ebp)).regs .esp + 8) = number :=
    hpush.load [c.regs .ebp, ret]
  have hvalue : (c.push (c.regs .ebp)).mem.load ((c.push (c.regs .ebp)).regs .esp + 12) = value :=
    hpush.load [c.regs .ebp, ret, number]
  generalize hpushed : c.push (c.regs .ebp) = c₁ at hpush hnumber hvalue
  have hworld : c₁.world = c.world := by rw [← hpushed, Cpu.push_world]
  -- the state that `pop` finds
  let c₂ : Cpu Msrs :=
    { c₁ with
      regs := Function.update (Function.update (Function.update (Function.update c₁.regs .ebp
        (c₁.regs .esp)) .ecx number) .eax value) .edx 0
      world := writeMsr c.world number value }
  have hcode : writeMsrCode c = c₂.pop (.reg .ebp) := by
    simp only [writeMsrCode, Cpu.read, hpushed, Cpu.write, wrmsr, Function.update_self, ne_eq,
      reduceCtorEq, not_false_eq_true, Function.update_of_ne, hnumber, hvalue, hworld]
    rfl
  have hstack : c₂.Stack (c.regs .ebp :: ret :: number :: value :: ws) := by
    rw [Cpu.Stack]
    exact hpush
  have htarget : Cpu.PopTarget (.reg .ebp) := show Reg.ebp ≠ Reg.esp by decide
  obtain ⟨hpop, hrest⟩ := Cpu.pop_stack hstack htarget
  rw [hcode]
  refine ⟨?_, hrest, ?_⟩
  · rw [hpop, Cpu.write_world]
    rfl
  · rw [hpop]
    simp [Cpu.write]

/-- The three registers of `sysenter`, in `main`'s order. -/
theorem writeMsr_sysenter (msrs : Msrs) (cs esp eip : DWord) :
    (writeMsr (writeMsr (writeMsr msrs 0x174 cs) 0x175 esp) 0x176 eip 0x174).setWidth 32 = cs ∧
      (writeMsr (writeMsr (writeMsr msrs 0x174 cs) 0x175 esp) 0x176 eip 0x175).setWidth 32 = esp ∧
      (writeMsr (writeMsr (writeMsr msrs 0x174 cs) 0x175 esp) 0x176 eip 0x176).setWidth 32 =
        eip := by
  have hself : ∀ (msrs : Msrs) (number value : DWord),
      (writeMsr msrs number value number).setWidth 32 = value := fun msrs number value => by
    rw [writeMsr, Function.update_self]
    exact BitVec.setWidth_append_eq_right
  have hother : ∀ (msrs : Msrs) {number number' : DWord} (value : DWord), number' ≠ number →
      writeMsr msrs number value number' = msrs number' := fun msrs number number' value hne =>
    Function.update_of_ne hne _ _
  refine ⟨?_, ?_, hself _ _ _⟩
  · rw [hother _ _ (by decide), hother _ _ (by decide), hself]
  · rw [hother _ _ (by decide), hself]

/-! ## Segments -/

/-- `set_seg_regs`: load the segment registers, with room left on the stack. -/
def setSegRegs (m : Bytes) (gdtr : TableRegister) (dataSel stackSel : Word) (esp : Addr)
    (s : Selectors) : Except Byte (Selectors × Addr) := do
  let esp := esp - 20
  let s ← s.load m gdtr .ds dataSel
  let s ← s.load m gdtr .es dataSel
  let s ← s.load m gdtr .fs dataSel
  let s ← s.load m gdtr .gs dataSel
  let s ← s.loadStack m gdtr stackSel
  pure (s, esp)

/-- The kernel's segments. -/
def kernelSegments : Selectors := ⟨kernelCs, selector kernelDs, fun _ => selector kernelDs⟩

/-- What a far return takes off the stack. -/
structure FarFrame where
  ss : Word
  esp : Addr
  cs : Word
  eip : Addr

/-- `p_rdtr`. -/
def pRdtr : Addr := BitVec.ofNat 32 kernelStart + 8#32

/-- `usr_main`. -/
def usrMain : Addr := BitVec.ofNat 32 (pagLogInitCode * pageSize)

/-- The loads and stores of `return_gate`, those of its `lret` included.  `sp` is the stack
pointer before the pushes. -/
def returnGateProgram (sp : Addr) (ss esp cs eip : DWord) : MemoryProgram Addr Byte FarFrame :=
  loadDWord pRdtr fun rdtr => storeDWord (esp + 12#32) rdtr <|
    storeDWord (sp - 4#32) ss <| storeDWord (sp - 8#32) esp <|
    storeDWord (sp - 12#32) cs <| storeDWord (sp - 16#32) eip <|
    loadDWord (sp - 16#32) fun eip => loadDWord (sp - 12#32) fun cs =>
    loadDWord (sp - 8#32) fun esp => loadDWord (sp - 4#32) fun ss =>
      .done ⟨ss.setWidth 16, esp, cs.setWidth 16, eip⟩

/-- `return_gate`.  The checks of the data segments come first, which need nothing of what
the program loads. -/
def returnGate {mask : Addr → Byte} (ν : Marking (clear mask)) (c : Control)
    (gdtr : TableRegister) (sp : Addr) (ds : Word) (ss esp cs eip : DWord) (s : Selectors)
    (m : Bytes) : Option (Selectors × FarFrame × Bytes) := do
  let s ← (s.load m gdtr .es ds).toOption
  let s ← (s.load m gdtr .ds ds).toOption
  let p ← runKernel ν c (returnGateProgram sp ss esp cs eip) m
  let s ← (s.farReturn p.2 gdtr p.1.cs p.1.eip p.1.ss).toOption
  some (s, p.1, p.2)

/-! ## `main` -/

/-- The machine as a program finds it. -/
structure Started where
  paged : Paged
  registers : SystemRegisters
  flags : DWord
  segments : Selectors
  esp : Addr
  eip : Addr

/-- The tables of the machine. -/
def Started.tables (st : Started) : SystemTables :=
  ⟨st.paged.mm.mem, st.registers.gdtr, st.registers.idtr, st.registers.tr⟩

/-- `set_eflags`: all flags clear, the reserved one apart. -/
def setEflags : DWord := 2

/-- What the compiler decides in `main`: how far the stack is in use at the pushes of
`return_gate`, and what is behind the selectors that it pushes. -/
structure Compiled where
  depth : ℕ
  aboveSs : Word
  aboveCs : Word

/-- What the boot sector has loaded into `GDTR` (`gdt_48`). -/
def bootGdtr (D : KernelData) : TableRegister := ⟨0x8000, D.gdt⟩

/-- `main`.  `start` are the segments that the boot sector jumps with; of the flags, those
that later instructions change are left out. -/
def main (D : KernelData) (h : Handlers) (L : Layout) (syscallHandler : Addr) (C : Compiled)
    (μ ν : Marking (clear (marks D L))) (start : Selectors) (msrs : Msrs) (s : Paged) :
    Option Started := do
  let flags := setEflags
  let stack ← (setSegRegs s.mm.mem (bootGdtr D) (selector kernelDs) (selector kernelDs)
    (L.taskAddr 4) start).toOption
  let d ← setTables D h (initialEsp L) s.mm.mem
  let msrs := writeMsr msrs 0x174 (kernelCs.setWidth 32)
  let msrs := writeMsr msrs 0x175 (initialEsp L)
  let msrs := writeMsr msrs 0x176 syscallHandler
  let s := mainMemory L ⟨⟨s.mm.physMem, d.mem⟩, s.control⟩
  let moved ← runKernel μ s.control moveUserProgram s.mm.mem
  let flags := withBit flags ifBit true
  let gate ← returnGate ν s.control d.gdtr (stack.2 - BitVec.ofNat 32 C.depth) (selector userDs)
    (C.aboveSs ++ selector userDs) userEsp (C.aboveCs ++ selector userCs) usrMain stack.1 moved.2
  some
    { paged := ⟨⟨s.mm.physMem, gate.2.2⟩, s.control⟩
      registers := ⟨d.gdtr, d.idtr, d.tr, (msrs 0x174).setWidth 32, (msrs 0x175).setWidth 32,
        (msrs 0x176).setWidth 32⟩
      flags := flags
      segments := gate.1
      esp := gate.2.1.esp
      eip := gate.2.1.eip }

/-! ## The steps -/

section Steps

variable {m n : Bytes} {gdtr : TableRegister} {sp : Addr} {ss esp cs eip : DWord}

theorem HasBootGdt.kernelData {D : KernelData} (h : HasBootGdt m D.gdt) :
    descriptorAt m (bootGdtr D) (selector kernelDs) = some (flatDescriptor 0x92) :=
  h.segment (fun _ _ => rfl) (k := 3) rfl rfl rfl (by omega) (by omega) (by decide)

/-- The kernel's data segment is loaded everywhere. -/
theorem setSegRegs_kernel
    (hdata : descriptorAt m gdtr (selector kernelDs) = some (flatDescriptor 0x92))
    {s : Selectors} (hs : s.cs = kernelCs) (esp : Addr) :
    setSegRegs m gdtr (selector kernelDs) (selector kernelDs) esp s =
      .ok (kernelSegments, esp - 20) := by
  have hload : ∀ ss data r, Selectors.load m gdtr ⟨kernelCs, ss, data⟩ r (selector kernelDs) =
      .ok ⟨kernelCs, ss, Function.update data r (selector kernelDs)⟩ := by
    intro ss data r
    have hcheck : dataFault m gdtr (rpl kernelCs) (selector kernelDs) = none :=
      dataFault_eq_none_iff.mpr (Or.inr ⟨_, hdata, by decide, by decide⟩)
    rw [Selectors.load, Selectors.cpl, hcheck]
  have hstack : ∀ ss data, Selectors.loadStack m gdtr ⟨kernelCs, ss, data⟩ (selector kernelDs) =
      .ok ⟨kernelCs, selector kernelDs, data⟩ := by
    intro ss data
    have hcheck : stackFault m gdtr (rpl kernelCs) (selector kernelDs) = none :=
      stackFault_eq_none_iff.mpr ⟨_, hdata, by decide, by decide⟩
    rw [Selectors.loadStack, Selectors.cpl, hcheck]
  obtain ⟨cs, ss, data⟩ := s
  obtain rfl : cs = kernelCs := hs
  simp only [setSegRegs, hload, hstack, bind, Except.bind, pure, Except.pure]
  refine congrArg (fun data => Except.ok ((⟨kernelCs, selector kernelDs, data⟩ : Selectors), _)) ?_
  funext r
  cases r <;> rfl

/-- The frame that `lret` finds is the one that was pushed. -/
theorem returnGateProgram_flat (n : Bytes) :
    (returnGateProgram sp ss esp cs eip).flat n =
      (⟨ss.setWidth 16, esp, cs.setWidth 16, eip⟩,
        ((((n.store (esp + 12#32) (n.load pRdtr)).store (sp - 4#32) ss).store (sp - 8#32) esp).store
          (sp - 12#32) cs).store (sp - 16#32) eip) := by
  simp only [returnGateProgram, loadDWord_flat, storeDWord_flat, MemoryProgram.flat_done]
  generalize n.store (esp + 12#32) (n.load pRdtr) = n'
  -- the words popped are those pushed, since each is stored below the ones before
  have hstep : ∀ (n : Bytes) (k j : ℕ) (v : DWord), k + 4 ≤ j → j ≤ 16 →
      (n.store (sp - BitVec.ofNat 32 j) v).load (sp - BitVec.ofNat 32 k) =
        n.load (sp - BitVec.ofNat 32 k) := fun n k j v hkj hj =>
    Bytes.load_store_of_le _ _ _ _ (by bv_omega) (by bv_omega)
  have h₁₂ := hstep (((n'.store (sp - 4#32) ss).store (sp - 8#32) esp).store (sp - 12#32) cs) 12 16
    eip (by omega) (by omega)
  have h₈ := hstep (((n'.store (sp - 4#32) ss).store (sp - 8#32) esp).store (sp - 12#32) cs) 8 16
    eip (by omega) (by omega)
  have h₈' := hstep ((n'.store (sp - 4#32) ss).store (sp - 8#32) esp) 8 12 cs (by omega) (by omega)
  have h₄ := hstep (((n'.store (sp - 4#32) ss).store (sp - 8#32) esp).store (sp - 12#32) cs) 4 16
    eip (by omega) (by omega)
  have h₄' := hstep ((n'.store (sp - 4#32) ss).store (sp - 8#32) esp) 4 12 cs (by omega) (by omega)
  have h₄'' := hstep (n'.store (sp - 4#32) ss) 4 8 esp (by omega) (by omega)
  rw [Bytes.load_store_self] at h₁₂
  rw [h₈', Bytes.load_store_self] at h₈
  rw [h₄', h₄'', Bytes.load_store_self] at h₄
  rw [Bytes.load_store_self, h₁₂, h₈, h₄]

/-- What the program uses: the word for the user, and the four words of the frame. -/
theorem returnGateProgram_within {P Q : Addr → Prop}
    (hrdtr : ∀ i < 4, P (pRdtr + BitVec.ofNat 32 i))
    (huser : ∀ i < 4, Q (esp + 12#32 + BitVec.ofNat 32 i))
    (hread : ∀ i < 16, P (sp - 16#32 + BitVec.ofNat 32 i))
    (hwrite : ∀ i < 16, Q (sp - 16#32 + BitVec.ofNat 32 i)) (n : Bytes) :
    (returnGateProgram sp ss esp cs eip).Within P Q n := by
  have hword : ∀ {P : Addr → Prop}, (∀ i < 16, P (sp - 16#32 + BitVec.ofNat 32 i)) → ∀ k ≤ 12,
      ∀ i < 4, P (sp - BitVec.ofNat 32 (16 - k) + BitVec.ofNat 32 i) := by
    intro P hP k hk i hi
    have heq : sp - BitVec.ofNat 32 (16 - k) + BitVec.ofNat 32 i =
        sp - 16#32 + BitVec.ofNat 32 (k + i) := by bv_omega
    rw [heq]
    exact hP _ (by omega)
  simp only [returnGateProgram, loadDWord_within, storeDWord_within]
  exact ⟨hrdtr, huser, hword hwrite 12 (by omega), hword hwrite 8 (by omega),
    hword hwrite 4 (by omega), hword hwrite 0 (by omega), hword hread 0 (by omega),
    hword hread 4 (by omega), hword hread 8 (by omega), hword hread 12 (by omega), trivial⟩

/-- The pushes store below the stack pointer. -/
theorem pushes_apply {a : Addr} (ha : 16 ≤ (a - (sp - 16#32)).toNat) (n : Bytes)
    (v₁ v₂ v₃ v₄ : DWord) :
    ((((n.store (sp - 4#32) v₁).store (sp - 8#32) v₂).store (sp - 12#32) v₃).store
      (sp - 16#32) v₄) a = n a := by
  have hword : ∀ i < 4, 4 ≤ (a - (sp - 16#32 + BitVec.ofNat 32 (4 * i))).toNat := by
    intro i hi
    bv_omega
  have h₁₂ := hword 3 (by omega)
  have h₈ := hword 2 (by omega)
  have h₄ := hword 1 (by omega)
  have h₀ := hword 0 (by omega)
  simp only [Bytes.store]
  rw [Bytes.write_apply_of_le _ _ _ (by bv_omega), Bytes.write_apply_of_le _ _ _ (by bv_omega),
    Bytes.write_apply_of_le _ _ _ (by bv_omega), Bytes.write_apply_of_le _ _ _ (by bv_omega)]

variable {d : SystemTables} {h : Handlers} {esp0 : Addr}

/-- The kernel loads the user's data segment. -/
theorem SystemTables.Guarded.load_userDs (hd : d.Guarded h esp0) (ss : Word) (data : Seg → Word)
    (r : Seg) : Selectors.load d.mem d.gdtr ⟨kernelCs, ss, data⟩ r (selector userDs) =
      .ok ⟨kernelCs, ss, Function.update data r (selector userDs)⟩ := by
  have hcheck : dataFault d.mem d.gdtr (rpl kernelCs) (selector userDs) = none :=
    dataFault_eq_none_iff.mpr (Or.inr ⟨_, hd.userData, by decide, by decide⟩)
  rw [Selectors.load, Selectors.cpl, hcheck]

/-- The far return from the kernel's segments, with the user's in `ds` and `es`: the other two
are cleared. -/
theorem SystemTables.Guarded.farReturn_user (hd : d.Guarded h esp0) (ss : Word) (eip : Addr) :
    Selectors.farReturn d.mem d.gdtr ⟨kernelCs, ss, Function.update (Function.update
        (fun _ => selector kernelDs) .es (selector userDs)) .ds (selector userDs)⟩
      (selector userCs) eip (selector userDs) = .ok userSegments := by
  have hback := hd.confined.back eip
  have hlevel : rpl kernelCs = 0 := rfl
  have huser : rpl (selector userCs) = 3 := rfl
  have huserDs : keptSelector d.mem d.gdtr 3 (selector userDs) = selector userDs :=
    keptSelector_of_dataFault (dataFault_eq_none_iff.mpr
      (Or.inr ⟨_, hd.userData, by decide, by decide⟩))
  have hkernelDs : keptSelector d.mem d.gdtr 3 (selector kernelDs) = 0 := by
    rw [keptSelector, hd.kernelData]
    exact if_pos (by decide)
  -- the kernel's segments in `fs` and `gs` are taken from the program, the user's stay
  have hkept : (fun r => keptSelector d.mem d.gdtr 3 (Function.update (Function.update
      (fun _ => selector kernelDs) Seg.es (selector userDs)) Seg.ds (selector userDs) r)) =
        userSegments.data := by
    funext r
    cases r with
    | ds => exact huserDs
    | es => exact huserDs
    | fs => exact hkernelDs
    | gs => exact hkernelDs
  rw [Selectors.farReturn, Selectors.cpl, hlevel, hback]
  dsimp only
  rw [Selectors.returned, Selectors.cpl, hlevel, huser, if_pos (by omega), hkept]
  rfl

end Steps

/-! ## Placement -/

/-- Where the linker has put what `main` stores into, and the boot sector its table: in the
first megabyte, each for itself and apart from what `main` reads. -/
structure Placement (D : KernelData) (L : Layout) (sysSize usrSize : ℕ) : Prop where
  fit : sysSize + usrSize ≤ 0x7f000
  mapped : L.SelfMapped
  range : ∀ b, InSystemTables D b → pageSize ≤ b.toNat ∧ b.toNat < lUserStart
  wide : ∀ i, 56 ≤ i → i < 2048 → D.Off (D.gdt + BitVec.ofNat 32 i)
  offTables : ∀ b, InSystemTables D b ∨ ¬ D.Off b → OffTables L b
  offTasks : ∀ b, InSystemTables D b →
    b.toNat < L.task.toNat ∨ L.task.toNat + nrTasks * pageSize ≤ b.toNat
  image : ∀ b, InImage sysSize usrSize b → D.Off b ∧ ¬ InSystemTables D b ∧ OffTables L b

/-- The machine as the boot sector leaves it, with the image in memory. -/
structure Booted (D : KernelData) (L : Layout) (s : Paged) (sysSize usrSize : ℕ) : Prop where
  cr0 : s.control.cr0 = bootCr0
  directories : s.mm.ZeroDirectories L
  gdt : HasBootGdt s.mm.mem D.gdt
  rest : ∀ k, 7 ≤ k → k < 256 →
    Closed (s.mm.mem.loadDescriptor (D.gdt + BitVec.ofNat 32 (8 * k)))
  idt : ∀ i < 2048, s.mm.mem (D.idt + BitVec.ofNat 32 i) = 0
  sysSize : s.mm.mem.load pSysSize = BitVec.ofNat 32 sysSize
  usrSize : s.mm.mem.load pUsrSize = BitVec.ofNat 32 usrSize

section Placement

variable {D : KernelData} {L : Layout} {s : Paged} {sysSize usrSize : ℕ}

theorem Placement.marks (hplaced : Placement D L sysSize usrSize) : L.Marks (marks D L) :=
  marks_marks hplaced.mapped.ends (fun b hb => hplaced.offTables b (Or.inl hb))
    fun b hb => (hplaced.range b hb).2

/-- Off all tables nothing is marked. -/
theorem marks_eq_zero {b : Addr} (hoff : OffTables L b) (hno : ¬ InSystemTables D b) :
    marks D L b = 0 := by
  rw [marks_of_offTables hoff]
  exact descriptorMarks_of_le (not_lt.mp fun hlt => hno (Or.inl (by omega)))

/-- The image is not. -/
theorem Placement.marks_image (hplaced : Placement D L sysSize usrSize) {b : Addr}
    (hb : InImage sysSize usrSize b) : Zeos.marks D L b = 0 :=
  marks_eq_zero (hplaced.image b hb).2.2 (hplaced.image b hb).2.1

/-- In memory that has the bytes of the tables, the tables are what they were. -/
theorem Placement.guarded (hplaced : Placement D L sysSize usrSize) {h : Handlers}
    {d : SystemTables} (hd : d.Guarded h (initialEsp L)) (hat : d.At D) {m : Bytes}
    (hm : ∀ b, InSystemTables D b → clear (Zeos.marks D L) b (m b) =
      clear (Zeos.marks D L) b (d.mem b)) :
    ({ d with mem := m } : SystemTables).Guarded h (initialEsp L) := by
  have hbytes : ∀ b, InSystemTables D b →
      clear (descriptorMarks D) b (m b) = clear (descriptorMarks D) b (d.mem b) := fun b hb => by
    have hbyte := hm b hb
    simp only [clear, marks_of_offTables (hplaced.offTables b (Or.inl hb))] at hbyte ⊢
    exact hbyte
  have hsame := hd.sameTables hat hbytes 0
  exact hd.congr hsame.gdt hsame.idt hsame.tss

end Placement

/-! ## The far return -/

section Gate

variable {D : KernelData} {L : Layout} {s : Paged} {sysSize usrSize depth : ℕ}

/-- Where `return_gate` stores: below the stack pointer, and the word for the user. -/
def GateStores (sp a : Addr) : Prop :=
  (a - (sp - 16#32)).toNat < 16 ∨ (a - (userEsp + 12#32)).toNat < 4

/-- The stack pointer at its pushes. -/
def gateStack (L : Layout) (depth : ℕ) : Addr := L.taskAddr 4 - 20 - BitVec.ofNat 32 depth

theorem gateStores_push (sp : Addr) {i : ℕ} (hi : i < 16) :
    (sp - 16#32 + BitVec.ofNat 32 i - (sp - 16#32)).toNat < 16 := by
  rw [Bytes.toNat_add_sub _ (by omega)]
  exact hi

theorem gateStores_user {i : ℕ} (hi : i < 4) :
    (userEsp + 12#32 + BitVec.ofNat 32 i - (userEsp + 12#32)).toNat < 4 := by
  rw [Bytes.toNat_add_sub _ (by omega)]
  exact hi

/-- The word for the user is in the image. -/
theorem inImage_rdtr {i : ℕ} (hi : i < 4) :
    InImage sysSize usrSize (pRdtr + BitVec.ofNat 32 i) := by
  rw [pRdtr, BitVec.add_assoc, ← BitVec.ofNat_add]
  exact inImage_of_lt (by omega)

/-- The bytes that `return_gate` pushes are in the fourth task's stack. -/
theorem Placement.stack (hplaced : Placement D L sysSize usrSize) (hdepth : depth + 44 ≤ pageSize)
    {a : Addr} (ha : (a - (gateStack L depth - 16#32)).toNat < 16) :
    OffTables L a ∧ pageSize ≤ a.toNat ∧ a.toNat < lUserStart ∧
      L.task.toNat ≤ a.toNat ∧ a.toNat < L.task.toNat + nrTasks * pageSize := by
  have hpage := hplaced.mapped.begins.task
  have htop := Layout.EndsBy.task hplaced.mapped.ends
  have hdirs := L.task_dirPages
  have htables := L.task_pagusrTable
  simp only [nrTasks, pageSize, lUserStart] at hpage htop hdirs htables hdepth
  have hnat : a.toNat = L.task.toNat + 4 * 4096 - 36 - depth +
      (a - (gateStack L depth - 16#32)).toNat := by
    simp only [gateStack, Layout.taskAddr, pageAt, pageSize] at ha ⊢
    bv_omega
  have hbottom : L.task.toNat ≤ a.toNat := by omega
  refine ⟨L.offTables ?_ ?_ fun t ht => ?_, ?_, ?_, hbottom, ?_⟩ <;>
    simp only [nrTasks, pageSize, lUserStart] <;> omega

/-- The word for the user is the last one of its data. -/
theorem userWord {a : Addr} (ha : (a - (userEsp + 12#32)).toNat < 4) :
    a.toNat = lUserStart + numPagData * pageSize - 4 + (a - (userEsp + 12#32)).toNat := by
  have hword : userEsp + 12#32 = 0x113ffc#32 := by decide
  rw [hword] at ha ⊢
  simp only [lUserStart, numPagData, pageSize]
  bv_omega

theorem userWord_range {a : Addr} (ha : (a - (userEsp + 12#32)).toNat < 4) : lUserStart ≤ a.toNat ∧
    a.toNat < lUserStart + (numPagCode + numPagData) * pageSize := by
  have hnat := userWord ha
  simp only [lUserStart, numPagData, numPagCode, pageSize] at hnat ⊢
  omega

theorem Placement.gateStores_off (hplaced : Placement D L sysSize usrSize)
    (hdepth : depth + 44 ≤ pageSize) {a : Addr} (ha : GateStores (gateStack L depth) a)
    (hlt : a.toNat < lUserStart) : OffTables L a := by
  rcases ha with ha | ha
  · exact (hplaced.stack hdepth ha).1
  · exact absurd (userWord_range ha).1 (not_le.mpr hlt)

/-- None of the stores goes to the tables of the processor. -/
theorem Placement.gateStores_system (hplaced : Placement D L sysSize usrSize)
    (hdepth : depth + 44 ≤ pageSize) (hzero : s.mm.ZeroDirectories L) {a b : Addr}
    (ha : GateStores (gateStack L depth) a)
    (hab : (mainTwin L s.mm).space L 0 ⟨false, false⟩ a = some b) : ¬ InSystemTables D b := by
  have htwin := owned_mainTwin L hzero
  intro hb
  have hlt := (hplaced.range b hb).2
  rcases ha with ha | ha
  · obtain ⟨-, hge, hlow, hbottom, htop⟩ := hplaced.stack hdepth ha
    rw [htwin.kernel (by decide) false hge hlow] at hab
    obtain rfl := Option.some.inj hab
    have hout := hplaced.offTasks a hb
    omega
  · have hge := (htwin.behind (by decide) hab (userWord_range ha).1).2
    omega

/-- It loads nothing that may be marked. -/
theorem returnGateProgram_careful (hplaced : Placement D L sysSize usrSize)
    (hdepth : depth + 44 ≤ pageSize) (ss cs eip : DWord) (n : Bytes) :
    (returnGateProgram (gateStack L depth) ss userEsp cs eip).Within (Unmarked (marks D L))
      (GateStores (gateStack L depth)) n := by
  refine returnGateProgram_within (fun i hi _ => hplaced.marks_image (inImage_rdtr hi))
    (fun i hi => Or.inr (gateStores_user hi)) (fun i hi _ => ?_)
    (fun i hi => Or.inl (gateStores_push _ hi)) n
  obtain ⟨hoff, -, -, hbottom, htop⟩ := hplaced.stack hdepth (gateStores_push _ hi)
  refine marks_eq_zero hoff fun hin => ?_
  have hout := hplaced.offTasks _ hin
  omega

/-- It uses mapped memory alone. -/
theorem returnGateProgram_mapped (hplaced : Placement D L sysSize usrSize)
    (hdepth : depth + 44 ≤ pageSize) (hzero : s.mm.ZeroDirectories L) (ss cs eip : DWord)
    (n : Bytes) :
    (returnGateProgram (gateStack L depth) ss userEsp cs eip).Within
      (fun a => ((mainTwin L s.mm).space L 0 ⟨false, false⟩ a).isSome = true)
      (fun a => ((mainTwin L s.mm).space L 0 ⟨false, false⟩ a).isSome = true) n := by
  have hmapped : ∀ a : Addr, pageSize ≤ a.toNat → a.toNat < lUserStart →
      ((mainTwin L s.mm).space L 0 ⟨false, false⟩ a).isSome = true := fun a hge hlt => by
    rw [(owned_mainTwin L hzero).kernel (by decide) false hge hlt, Option.isSome_some]
  have hpush : ∀ i < 16, ((mainTwin L s.mm).space L 0 ⟨false, false⟩
      (gateStack L depth - 16#32 + BitVec.ofNat 32 i)).isSome = true := fun i hi => by
    obtain ⟨-, hge, hlt, -⟩ := hplaced.stack hdepth (gateStores_push _ hi)
    exact hmapped _ hge hlt
  refine returnGateProgram_within (fun i hi => ?_) (fun i hi => ?_) hpush hpush n
  · have himage : InImage sysSize usrSize (pRdtr + BitVec.ofNat 32 i) := inImage_rdtr hi
    obtain ⟨hge, hlt⟩ := himage.range hplaced.fit
    exact hmapped _ hge hlt
  · obtain ⟨hge, hlt⟩ := userWord_range (gateStores_user hi)
    exact (mainTwin_kernel_iff hzero hge).mpr hlt

/-- What `return_gate` leaves in memory: marks apart the tables stay, and of what the user
sees nothing changes but the word for the user. -/
structure GateLeaves (D : KernelData) (L : Layout) (s : Mm) (m m' : Bytes) : Prop where
  tables : TablesUpTo L (marks D L) m m'
  system : ∀ b, InSystemTables D b → clear (marks D L) b (m' b) = clear (marks D L) b (m b)
  user : ∀ a q, (mainTwin L s).space L 0 ⟨false, false⟩ a = some q → lUserStart ≤ a.toNat →
    4 ≤ (a - (userEsp + 12#32)).toNat → m' q = m q
  rdtr : ∀ i < 4, ∀ q, (mainTwin L s).space L 0 ⟨false, false⟩
    (userEsp + 12#32 + BitVec.ofNat 32 i) = some q → m' q = m (pRdtr + BitVec.ofNat 32 i)

/-- The stores of `return_gate` under paging. -/
theorem returnGateProgram_runs (hplaced : Placement D L sysSize usrSize)
    (hdepth : depth + 44 ≤ pageSize) (hcr0 : s.control.cr0 = bootCr0)
    (hzero : s.mm.ZeroDirectories L) (ν : Marking (clear (marks D L))) {m : Bytes}
    (hm : TablesUpTo L (marks D L) (mainMemory L s).mm.mem m) (ss cs : Word) (eip : DWord)
    (aboveSs aboveCs : Word) :
    ∃ m', runKernel ν (mainMemory L s).control (returnGateProgram (gateStack L depth)
        (aboveSs ++ ss) userEsp (aboveCs ++ cs) eip) m = some (⟨ss, userEsp, cs, eip⟩, m') ∧
      GateLeaves D L s.mm m m' := by
  have htwin := owned_mainTwin L hzero
  have hmask := hplaced.marks
  obtain ⟨n, hn⟩ : ∃ n : Bytes, MemoryProgram.Shows (clear (marks D L))
      ((mainTwin L s.mm).space L 0 ⟨false, false⟩) m n := ⟨_, MemoryProgram.shows_getD _ _ _ 0⟩
  obtain ⟨m', hrun, htables, hframe, hshows⟩ := (mainMemory_program hplaced.mapped.ends hcr0 hzero
    hmask ν hm hn _ (fun a ha hlt => hplaced.gateStores_off hdepth ha hlt)
    (returnGateProgram_careful hplaced hdepth (aboveSs ++ ss) (aboveCs ++ cs) eip n)).1
    (returnGateProgram_mapped hplaced hdepth hzero _ _ _ n)
  rw [returnGateProgram_flat] at hrun hshows
  have hss : (aboveSs ++ ss).setWidth 16 = ss := BitVec.setWidth_append_eq_right
  have hcs : (aboveCs ++ cs).setWidth 16 = cs := BitVec.setWidth_append_eq_right
  rw [hss, hcs] at hrun
  dsimp only at hshows
  -- in the user's pages there are no marks
  have hunmarked : ∀ {a q : Addr}, (mainTwin L s.mm).space L 0 ⟨false, false⟩ a = some q →
      lUserStart ≤ a.toNat → Function.Injective (clear (marks D L) q) := fun haq hge =>
    clear_injective (hmask.user _ (htwin.behind (by decide) haq hge).2)
  have habove : ∀ a : Addr, lUserStart ≤ a.toNat → 16 ≤ (a - (gateStack L depth - 16#32)).toNat :=
    fun a hge => not_lt.mp fun hin => by
      obtain ⟨-, -, hlt, -⟩ := hplaced.stack hdepth hin
      omega
  refine ⟨m', hrun, htables, fun b hb => ?_, fun a q haq hge hout => ?_, fun i hi q hq => ?_⟩
  · by_contra hne
    obtain ⟨a, ha, hab⟩ := hframe b hne
    exact hplaced.gateStores_system hdepth hzero ha hab hb
  · rw [← hshows.eq haq (hunmarked haq hge), ← hn.eq haq (hunmarked haq hge),
      pushes_apply (habove a hge)]
    exact Bytes.write_apply_of_le _ _ _ hout
  · obtain ⟨hge, -⟩ := userWord_range (gateStores_user hi)
    have himage : InImage sysSize usrSize (pRdtr + BitVec.ofNat 32 i) := inImage_rdtr hi
    obtain ⟨hfrom, hto⟩ := himage.range hplaced.fit
    rw [← hshows.eq hq (hunmarked hq hge), pushes_apply (habove _ hge), Bytes.store,
      Bytes.write_apply_add _ _ _ hi (by omega), Bytes.byteOf_load _ _ hi]
    exact hn.eq (htwin.kernel (by decide) false hfrom hto)
      (clear_injective (hplaced.marks_image (inImage_rdtr hi)))

/-- **`return_gate` leaves for the program**, at the user's level and with the user's
segments. -/
theorem returnGate_runs {h : Handlers} {d : SystemTables} (hplaced : Placement D L sysSize usrSize)
    (hdepth : depth + 44 ≤ pageSize) (hcr0 : s.control.cr0 = bootCr0)
    (hzero : s.mm.ZeroDirectories L) (ν : Marking (clear (marks D L))) {m : Bytes}
    (hm : TablesUpTo L (marks D L) (mainMemory L s).mm.mem m) (hat : d.At D)
    (hd : ({ d with mem := m } : SystemTables).Guarded h (initialEsp L)) (aboveSs aboveCs : Word) :
    ∃ m', returnGate ν (mainMemory L s).control d.gdtr (gateStack L depth) (selector userDs)
        (aboveSs ++ selector userDs) userEsp (aboveCs ++ selector userCs) usrMain kernelSegments m =
          some (userSegments, ⟨selector userDs, userEsp, selector userCs, usrMain⟩, m') ∧
      GateLeaves D L s.mm m m' := by
  obtain ⟨m', hrun, hleaves⟩ := returnGateProgram_runs hplaced hdepth hcr0 hzero ν hm
    (selector userDs) (selector userCs) usrMain aboveSs aboveCs
  refine ⟨m', ?_, hleaves⟩
  have hat' : ({ d with mem := m } : SystemTables).At D := ⟨hat.gdtr, hat.idtr, hat.tr⟩
  have hload := hd.load_userDs (selector kernelDs)
  have hguarded := hplaced.guarded hd hat' hleaves.system
  have hreturn := hguarded.farReturn_user (selector kernelDs) usrMain
  dsimp only at hload hreturn
  simp only [returnGate, kernelSegments, hload, hrun, hreturn, Except.toOption,
    Option.bind_eq_bind, Option.bind_some]

end Gate

/-! ## The program's start -/

/-- The machine runs the user program: what the program has, and what it does not.  `m` is
memory as the boot sector has left it. -/
structure Started.Runs (st : Started) (D : KernelData) (h : Handlers) (L : Layout)
    (syscallHandler : Addr) (m : Bytes) (sysSize usrSize : ℕ) : Prop where
  segments : st.segments = userSegments
  esp : st.esp = userEsp
  eip : st.eip = usrMain
  flags : st.flags = 0x202
  image : ∀ k < usrSize, k < numPagData * pageSize - 4 ∨ numPagData * pageSize ≤ k →
    AddressMap.view (st.paged.control.translate st.paged.mm.mem ⟨true, false⟩) st.paged.mm.mem
        (BitVec.ofNat 32 lUserStart + BitVec.ofNat 32 k) =
      some (m (BitVec.ofNat 32 kernelStart + BitVec.ofNat 32 (sysSize + k)))
  rdtr : ∀ i < 4,
    AddressMap.view (st.paged.control.translate st.paged.mm.mem ⟨true, false⟩) st.paged.mm.mem
        (userEsp + 12#32 + BitVec.ofNat 32 i) = some (m (pRdtr + BitVec.ofNat 32 i))
  ready : st.paged.Ready
  keeps : ∀ m', TablesUpTo L (marks D L) st.paged.mm.mem m' → ∀ acc,
    st.paged.control.translate m' acc = st.paged.control.translate st.paged.mm.mem acc
  stored : ∃ d, setTables D h (initialEsp L) m = some d ∧ ∀ b, InSystemTables D b →
    clear (marks D L) b (st.paged.mm.mem b) = clear (marks D L) b (d.mem b)
  located : st.tables.At D
  guarded : st.tables.Guarded h (initialEsp L)
  registers : st.registers = st.tables.registers (initialEsp L) syscallHandler

section Main

variable {D : KernelData} {h : Handlers} {L : Layout} {s : Paged} {sysSize usrSize : ℕ}

/-- The bytes of the directories are none of the tables' that `main` sets up first. -/
theorem Booted.zeroDirectories (hplaced : Placement D L sysSize usrSize)
    (hboot : Booted D L s sysSize usrSize) {m : Bytes} (hm : ∀ b, D.Off b → m b = s.mm.mem b) :
    ({ s.mm with mem := m } : Mm).ZeroDirectories L := by
  intro t ht k hk
  rw [← hboot.directories t ht k hk]
  refine Bytes.load_congr fun i hi => hm _ ?_
  by_contra hon
  have hout := (hplaced.offTables _ (Or.inr hon)).dir t ht k hk
  rw [Bytes.toNat_add_sub _ (by omega)] at hout
  omega

/-- The machine when the tables have been set up. -/
def Paged.withTables (s : Paged) (d : SystemTables) : Paged := ⟨⟨s.mm.physMem, d.mem⟩, s.control⟩

/-- What `main` has when it comes to the copy. -/
structure Prepared (D : KernelData) (h : Handlers) (L : Layout) (s : Paged) (d : SystemTables) :
    Prop where
  set : setTables D h (initialEsp L) s.mm.mem = some d
  guarded : d.Guarded h (initialEsp L)
  located : d.At D
  off : ∀ b, D.Off b → d.mem b = s.mm.mem b

theorem Booted.prepared (hplaced : Placement D L sysSize usrSize)
    (hboot : Booted D L s sysSize usrSize) (h : Handlers) : ∃ d, Prepared D h L s d := by
  obtain ⟨d, hset, hguarded, hgdtr, hidtr, htr, hoff⟩ :=
    setTables_guarded D h L hboot.gdt hboot.idt hboot.rest hplaced.wide
  exact ⟨d, hset, hguarded, ⟨hgdtr, hidtr, htr⟩, hoff⟩

variable {d : SystemTables}

/-- What `main` reads of the image, once paging is on, is as it was loaded. -/
theorem Prepared.image (hd : Prepared D h L s d) (hplaced : Placement D L sysSize usrSize)
    {b : Addr} (hb : InImage sysSize usrSize b) :
    (mainMemory L (s.withTables d)).mm.mem b = s.mm.mem b := by
  obtain ⟨hoff, -, htables⟩ := hplaced.image b hb
  rw [mainMemory_apply htables]
  exact hd.off b hoff

theorem Prepared.sizes (hd : Prepared D h L s d) (hplaced : Placement D L sysSize usrSize)
    (hboot : Booted D L s sysSize usrSize) :
    (mainMemory L (s.withTables d)).mm.mem.load pSysSize = BitVec.ofNat 32 sysSize ∧
      (mainMemory L (s.withTables d)).mm.mem.load pUsrSize = BitVec.ofNat 32 usrSize := by
  have hword := fun k hk => load_of_image (k := k) (fun b hb => hd.image hplaced hb) hk
  have hzeroth := hword 0 (by omega)
  rw [BitVec.add_zero] at hzeroth
  exact ⟨hzeroth.trans hboot.sysSize, (hword 4 (by omega)).trans hboot.usrSize⟩

/-- The two ends of the copy in `main`. -/
theorem Prepared.copies (hd : Prepared D h L s d) (hplaced : Placement D L sysSize usrSize)
    (hboot : Booted D L s sysSize usrSize) (μ : Marking (clear (marks D L))) :
    (usrSize ≤ (numPagCode + numPagData) * pageSize → ∃ m,
        runKernel μ (mainMemory L (s.withTables d)).control moveUserProgram
          (mainMemory L (s.withTables d)).mm.mem = some ((), m) ∧
        (∀ acc, (mainMemory L (s.withTables d)).control.translate m acc =
          (mainMemory L (s.withTables d)).control.translate
            (mainMemory L (s.withTables d)).mm.mem acc) ∧
        (∀ b, b.toNat < lUserStart → clear (marks D L) b (m b) =
          clear (marks D L) b ((mainMemory L (s.withTables d)).mm.mem b)) ∧
        ∀ k < usrSize,
          AddressMap.view ((mainMemory L (s.withTables d)).control.translate m ⟨true, false⟩) m
              (BitVec.ofNat 32 lUserStart + BitVec.ofNat 32 k) =
            some (s.mm.mem (BitVec.ofNat 32 kernelStart + BitVec.ofNat 32 (sysSize + k)))) ∧
      ((numPagCode + numPagData) * pageSize < usrSize →
        runKernel μ (mainMemory L (s.withTables d)).control moveUserProgram
          (mainMemory L (s.withTables d)).mm.mem = none) := by
  obtain ⟨hsys, husr⟩ := hd.sizes hplaced hboot
  obtain ⟨harrives, hfaults⟩ := mainMemory_movesUser hplaced.mapped.ends
    (s := s.withTables d) hboot.cr0 (hboot.zeroDirectories hplaced hd.off) hplaced.marks μ
    (SameUpTo.refl _ _) hplaced.fit (fun b hb => hplaced.marks_image hb) hsys husr
  refine ⟨fun hle => ?_, hfaults⟩
  obtain ⟨m, hrun, htranslate, hkept, hview⟩ := harrives hle
  refine ⟨m, hrun, htranslate, hkept, fun k hk => ?_⟩
  rw [hview k hk, hd.image hplaced (Or.inr ?_)]
  have hfit := hplaced.fit
  rw [Bytes.toNat_add_sub _ (by omega)]
  omega

/-- The steps of `main` up to the copy go through. -/
theorem Prepared.main_eq (hd : Prepared D h L s d) (hboot : Booted D L s sysSize usrSize)
    (syscallHandler : Addr) (C : Compiled) (μ ν : Marking (clear (marks D L))) {start : Selectors}
    (hstart : start.cs = kernelCs) (msrs : Msrs) :
    main D h L syscallHandler C μ ν start msrs s =
      (runKernel μ (mainMemory L (s.withTables d)).control moveUserProgram
        (mainMemory L (s.withTables d)).mm.mem).bind fun moved =>
          (returnGate ν (mainMemory L (s.withTables d)).control d.gdtr (gateStack L C.depth)
            (selector userDs) (C.aboveSs ++ selector userDs) userEsp (C.aboveCs ++ selector userCs)
            usrMain kernelSegments moved.2).bind fun gate =>
              some
                { paged := ⟨⟨(mainMemory L (s.withTables d)).mm.physMem, gate.2.2⟩,
                    (mainMemory L (s.withTables d)).control⟩
                  registers := d.registers (initialEsp L) syscallHandler
                  flags := 0x202
                  segments := gate.1
                  esp := gate.2.1.esp
                  eip := gate.2.1.eip } := by
  have hsegs := setSegRegs_kernel hboot.gdt.kernelData hstart (L.taskAddr 4)
  have hflags : withBit setEflags ifBit true = 0x202 := by decide
  obtain ⟨hcs, hesp, heip⟩ :=
    writeMsr_sysenter msrs (kernelCs.setWidth 32) (initialEsp L) syscallHandler
  simp only [main, hsegs, Except.toOption, Option.bind_eq_bind, Option.bind_some, hd.set, hflags,
    hcs, hesp, heip]
  rfl

/-- What keeps the first megabyte up to marks keeps the bytes of the tables as they were
stored. -/
theorem system_kept (hplaced : Placement D L sysSize usrSize) {m : Bytes}
    (hkept : ∀ b, b.toNat < lUserStart → clear (marks D L) b (m b) =
      clear (marks D L) b ((mainMemory L (s.withTables d)).mm.mem b)) {b : Addr}
    (hb : InSystemTables D b) :
    clear (marks D L) b (m b) = clear (marks D L) b (d.mem b) := by
  rw [hkept b (hplaced.range b hb).2, mainMemory_apply (hplaced.offTables b (Or.inl hb))]
  rfl

/-- What the machine has when `return_gate` is done. -/
theorem Prepared.runs (hd : Prepared D h L s d) (hplaced : Placement D L sysSize usrSize)
    (hboot : Booted D L s sysSize usrSize)
    (husr : usrSize ≤ (numPagCode + numPagData) * pageSize) (syscallHandler : Addr) {m m' : Bytes}
    (htranslate : ∀ acc, (mainMemory L (s.withTables d)).control.translate m acc =
      (mainMemory L (s.withTables d)).control.translate (mainMemory L (s.withTables d)).mm.mem acc)
    (hkept : ∀ b, b.toNat < lUserStart → clear (marks D L) b (m b) =
      clear (marks D L) b ((mainMemory L (s.withTables d)).mm.mem b))
    (hview : ∀ k < usrSize,
      AddressMap.view ((mainMemory L (s.withTables d)).control.translate m ⟨true, false⟩) m
          (BitVec.ofNat 32 lUserStart + BitVec.ofNat 32 k) =
        some (s.mm.mem (BitVec.ofNat 32 kernelStart + BitVec.ofNat 32 (sysSize + k))))
    (hleaves : GateLeaves D L (s.withTables d).mm m m') :
    (Started.mk ⟨⟨(mainMemory L (s.withTables d)).mm.physMem, m'⟩,
      (mainMemory L (s.withTables d)).control⟩ (d.registers (initialEsp L) syscallHandler) 0x202
      userSegments userEsp usrMain).Runs D h L syscallHandler s.mm.mem sysSize usrSize := by
  have hmask := hplaced.marks
  have hcr0 : (s.withTables d).control.cr0 = bootCr0 := hboot.cr0
  have hzero : (s.withTables d).mm.ZeroDirectories L := hboot.zeroDirectories hplaced hd.off
  have htables : TablesUpTo L (marks D L) (mainMemory L (s.withTables d)).mm.mem m' :=
    TablesUpTo.trans (fun b hb => hkept b (hplaced.mapped.range hb).2) hleaves.tables
  have hspace : ∀ m'' : Bytes, TablesUpTo L (marks D L) m' m'' → ∀ acc,
      (mainMemory L (s.withTables d)).control.translate m'' acc =
        (mainTwin L (s.withTables d).mm).space L 0 acc := fun _ hm'' acc =>
    translate_of_walk_mainMemory hcr0 hzero ((htables.trans hm'').walk hmask (by decide)) acc
  have hspace' := hspace m' fun _ _ => rfl
  have hsystem : ∀ b, InSystemTables D b → clear (marks D L) b (m' b) =
      clear (marks D L) b (d.mem b) := fun b hb =>
    (hleaves.system b hb).trans (system_kept hplaced hkept hb)
  refine ⟨rfl, rfl, rfl, rfl, fun k hk hout => ?_, fun i hi => ?_, ?_, fun m'' hm'' acc => ?_,
    ⟨d, hd.set, hsystem⟩, ⟨hd.located.gdtr, hd.located.idtr, hd.located.tr⟩,
    hplaced.guarded hd.guarded hd.located hsystem, rfl⟩
  · have hnat : (BitVec.ofNat 32 lUserStart + BitVec.ofNat 32 k).toNat = lUserStart + k := by
      simp only [numPagCode, numPagData, pageSize] at husr
      rw [lUserStart]
      bv_omega
    obtain ⟨q, hkernel, hprogram, -⟩ := exists_mainTwin_place hzero
      (show lUserStart ≤ (BitVec.ofNat 32 lUserStart + BitVec.ofNat 32 k).toNat by omega)
      (by omega)
    -- the word for the user lies over the image's bytes that are left out here
    have hword : 4 ≤ (BitVec.ofNat 32 lUserStart + BitVec.ofNat 32 k -
        (userEsp + 12#32)).toNat := not_lt.mp fun hin => by
      have hin' := userWord hin
      rw [hnat] at hin'
      simp only [numPagData, pageSize] at hin' hout
      omega
    have hloaded := hview k hk
    rw [htranslate, translate_of_walk_mainMemory hcr0 hzero (WalkUpTo.refl _ _ _),
      AddressMap.view_of_some hprogram] at hloaded
    dsimp only
    rw [hspace', AddressMap.view_of_some hprogram, hleaves.user _ q hkernel (by omega) hword,
      hloaded]
  · have hin := gateStores_user hi
    obtain ⟨hge, hlt⟩ := userWord_range hin
    obtain ⟨q, hkernel, hprogram, -⟩ := exists_mainTwin_place hzero hge hlt
    have himage : InImage sysSize usrSize (pRdtr + BitVec.ofNat 32 i) := inImage_rdtr hi
    dsimp only
    rw [hspace', AddressMap.view_of_some hprogram, hleaves.rdtr i hi q hkernel,
      ← hd.image hplaced himage]
    exact congrArg some (clear_injective (hplaced.marks_image himage)
      (hkept _ (himage.range hplaced.fit).2))
  · exact ready_of_walk hcr0 hzero rfl (htables.walk hmask (by decide))
  · exact (hspace m'' hm'' acc).trans (hspace' acc).symm

/-- No step of `main` faults if the image fits into the user's pages. -/
theorem main_runs (h : Handlers) (syscallHandler : Addr) {C : Compiled} {start : Selectors}
    (msrs : Msrs) (hplaced : Placement D L sysSize usrSize) (hboot : Booted D L s sysSize usrSize)
    (μ ν : Marking (clear (marks D L))) (husr : usrSize ≤ (numPagCode + numPagData) * pageSize)
    (hdepth : C.depth + 44 ≤ pageSize) (hstart : start.cs = kernelCs) :
    ∃ st, main D h L syscallHandler C μ ν start msrs s = some st ∧
      st.Runs D h L syscallHandler s.mm.mem sysSize usrSize := by
  obtain ⟨d, hd⟩ := hboot.prepared hplaced h
  obtain ⟨m, hcopy, htranslate, hkept, hview⟩ := (hd.copies hplaced hboot μ).1 husr
  have hguarded : ({ d with mem := m } : SystemTables).Guarded h (initialEsp L) :=
    hplaced.guarded hd.guarded hd.located fun b hb => system_kept hplaced hkept hb
  obtain ⟨m', hgate, hleaves⟩ := returnGate_runs (s := s.withTables d) hplaced hdepth hboot.cr0
    (hboot.zeroDirectories hplaced hd.off) ν (fun b hb => hkept b (hplaced.mapped.range hb).2)
    hd.located hguarded C.aboveSs C.aboveCs
  refine ⟨_, ?_, hd.runs hplaced hboot husr syscallHandler htranslate hkept hview hleaves⟩
  rw [hd.main_eq hboot syscallHandler C μ ν hstart msrs, hcopy, Option.bind_some, hgate]
  rfl

/-- **`main` reaches the program, or faults.**  If the image fits into the user's pages, no
step of `main` faults, and in the end the program runs; a longer image is not copied. -/
theorem main_starts (h : Handlers) (syscallHandler : Addr) {C : Compiled} {start : Selectors}
    (msrs : Msrs) (hplaced : Placement D L sysSize usrSize) (hboot : Booted D L s sysSize usrSize)
    (μ ν : Marking (clear (marks D L))) (hdepth : C.depth + 44 ≤ pageSize)
    (hstart : start.cs = kernelCs) :
    (usrSize ≤ (numPagCode + numPagData) * pageSize →
        ∃ st, main D h L syscallHandler C μ ν start msrs s = some st ∧
          st.Runs D h L syscallHandler s.mm.mem sysSize usrSize) ∧
      ((numPagCode + numPagData) * pageSize < usrSize →
        main D h L syscallHandler C μ ν start msrs s = none) := by
  refine ⟨fun husr => main_runs h syscallHandler msrs hplaced hboot μ ν husr hdepth hstart,
    fun hlong => ?_⟩
  obtain ⟨d, hd⟩ := hboot.prepared hplaced h
  rw [hd.main_eq hboot syscallHandler C μ ν hstart msrs, (hd.copies hplaced hboot μ).2 hlong,
    Option.bind_none]

end Main

/-! ## A small image -/

/-- A system of 152 KB and a user program of three bytes, with the boot sector. -/
def startImage : Bytes := fun a =>
  if a = 0x10001#32 then 0x60 else if a = 0x10002#32 then 2 else if a = 0x10004#32 then 3
  else if a = 0x36001#32 then 7 else bootSector a

/-- The machine in which they have been loaded. -/
def startMachine : Paged := ⟨⟨fun _ => 0, startImage⟩, ⟨bootCr0, 0⟩⟩

theorem startImage_of_ge {a : Addr} (ha : 0x40000 ≤ a.toNat) : startImage a = bootSector a := by
  rw [startImage, if_neg (by bv_omega), if_neg (by bv_omega), if_neg (by bv_omega),
    if_neg (by bv_omega)]

theorem startImage_of_between {a : Addr} (hge : 0x10008 ≤ a.toNat) (hlt : a.toNat < 0x36000) :
    startImage a = 0 := by
  rw [startImage, if_neg (by bv_omega), if_neg (by bv_omega), if_neg (by bv_omega),
    if_neg (by bv_omega), bootSector_of_le (by bv_omega)]

theorem inSystemTables_someData {b : Addr} (hb : InSystemTables someData b) :
    (0x14000 ≤ b.toNat ∧ b.toNat < 0x18000) ∨ (0x901b3 ≤ b.toNat ∧ b.toNat < 0x90a00) := by
  have hcases : (b - 0x901b3#32).toNat ≤ 2048 ∨ (b - 0x14000#32).toNat < 2048 ∨
      (b - 0x15010#32).toNat ≤ 104 := hb
  bv_omega

theorem off_someData {b : Addr} (hb : ¬ someData.Off b) :
    (0x14000 ≤ b.toNat ∧ b.toNat < 0x18000) ∨ (0x901b3 ≤ b.toNat ∧ b.toNat < 0x90a00) := by
  by_contra hout
  refine hb ⟨?_, ?_, ?_, ?_, ?_⟩
  · show 8 ≤ (b - (0x901b3#32 + 48#32)).toNat
    bv_omega
  · show 6 ≤ (b - 0x15008#32).toNat
    bv_omega
  · show 2048 ≤ (b - 0x14000#32).toNat
    bv_omega
  · show 6 ≤ (b - 0x15000#32).toNat
    bv_omega
  · show 104 ≤ (b - 0x15010#32).toNat
    bv_omega

theorem placed_someData : Placement someData kernelLayout 0x26000 3 := by
  have hend : kernelLayout.EndsBy 0x36000 := by constructor <;> decide
  have htask : kernelLayout.task.toNat = 0x18000 := by decide
  -- all that is stored into lies in three pieces, away from the image's parts
  have htables : ∀ b : Addr, (0x14000 ≤ b.toNat ∧ b.toNat < 0x18000) ∨
      (0x901b3 ≤ b.toNat ∧ b.toNat < 0x90a00) → OffTables kernelLayout b := by
    rintro b (hb | hb)
    · exact offTables_kernelLayout hb.2
    · exact hend.offTables (by omega)
  refine ⟨by decide, selfMapped_kernelLayout, fun b hb => ?_, fun _ => wide_someData,
    fun b hb => htables b (hb.elim inSystemTables_someData off_someData), fun b hb => ?_,
    fun b hb => ?_⟩
  · have hrange := inSystemTables_someData hb
    rw [pageSize, lUserStart]
    omega
  · have hrange := inSystemTables_someData hb
    simp only [htask, nrTasks, pageSize]
    omega
  · have hrange : (0x10000 ≤ b.toNat ∧ b.toNat < 0x1000c) ∨
        (0x36000 ≤ b.toNat ∧ b.toNat < 0x36003) := by
      simp only [InImage, kernelStart] at hb
      bv_omega
    refine ⟨?_, fun hin => ?_, ?_⟩
    · by_contra hon
      have hrange' := off_someData hon
      omega
    · have hrange' := inSystemTables_someData hin
      omega
    · rcases hrange with hlow | hhigh
      · exact offTables_kernelLayout (by omega)
      · exact hend.offTables (by omega)

theorem booted_startMachine : Booted someData kernelLayout startMachine 0x26000 3 := by
  refine ⟨rfl, fun t ht k hk => ?_, fun k d hk => ?_, fun k hge hlt => ?_, fun i hi => ?_, ?_, ?_⟩
  · have hword := kernelLayout.entryAddr_dirAddr_toNat ht hk
    have hdir : kernelLayout.dirPages.toNat = 0x22000 := by decide
    rw [hdir] at hword
    simp only [nrTasks, totalPages] at ht hk
    exact (Bytes.load_congr fun i hi => startImage_of_between (by bv_omega) (by bv_omega)).trans
      (zeroDirectories_blankMm kernelLayout t ht k hk)
  · have hlt : k < 7 := (List.getElem?_eq_some_iff.mp hk).1
    rw [← hasBootGdt_bootSector k d hk]
    refine congrArg _ (Bytes.loadDescriptor_congr fun i hi => startImage_of_ge ?_)
    show 0x40000 ≤ (0x901b3#32 + BitVec.ofNat 32 (8 * k) + BitVec.ofNat 32 i).toNat
    bv_omega
  · have hsame : startMachine.mm.mem.loadDescriptor (someData.gdt + BitVec.ofNat 32 (8 * k)) =
        bootSector.loadDescriptor (someData.gdt + BitVec.ofNat 32 (8 * k)) := by
      refine Bytes.loadDescriptor_congr fun i hi => startImage_of_ge ?_
      show 0x40000 ≤ (0x901b3#32 + BitVec.ofNat 32 (8 * k) + BitVec.ofNat 32 i).toNat
      bv_omega
    rw [hsame]
    exact closed_bootSector hge hlt
  · refine startImage_of_between ?_ ?_
    · show 0x10008 ≤ (0x14000#32 + BitVec.ofNat 32 i).toNat
      bv_omega
    · show (0x14000#32 + BitVec.ofNat 32 i).toNat < 0x36000
      bv_omega
  · decide
  · decide

/-- The compiler's choice: 100 bytes of stack. -/
def someCompiled : Compiled := ⟨100, 0, 0⟩

/-- All that may be marked is marked. -/
def someMarking : Marking (clear (marks someData kernelLayout)) :=
  Marking.constant (marks someData kernelLayout) fun _ => 0xff

theorem main_starts_small : ∃ st, main someData someHandlers kernelLayout 0x11400 someCompiled
    someMarking someMarking kernelSegments (fun _ => 0) startMachine = some st ∧
      st.segments = userSegments := by
  obtain ⟨st, hmain, hst⟩ := (main_starts someHandlers 0x11400 (C := someCompiled) (fun _ => 0)
    placed_someData booted_startMachine someMarking someMarking (by decide)
    (show kernelSegments.cs = kernelCs from rfl)).1 (by decide)
  exact ⟨st, hmain, hst.segments⟩

end Zeos
