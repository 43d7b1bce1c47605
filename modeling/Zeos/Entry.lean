import Zeos.Machine.Stack

/-!
# Entry into the kernel (`entry.S`, `sys_call_table.S`)

The handlers are lists of instructions, copied from the assembly text; the macros
`SAVE_ALL`, `RESTORE_ALL` and `EOI` are lists of their own.  The part that the two
system-call handlers have in common, the test of the number and the call through
`sys_call_table`, is `serviceCall`.

`exec_systemCallHandler` and `exec_syscallHandler` say what a run of them does:
`service` is the state at the end of the dispatch, and behind it the registers are
popped from the frame that `SAVE_ALL` has pushed.

What the handlers call is not here: an environment links every symbol to an address and
every address to a function on states, and the lemmas of this module ask of these
functions that they follow the C calling convention (`Cdecl`) with the arguments that the
handler has pushed.  Nothing is asked of where the stack is.  An `outb` does nothing to
the state; what it is for is in `Zeos.Pic`.  The jumps of the assembly text go forward
only, and the labels are those of the text.
-/

namespace Zeos

open Machine

/-! ## The code -/

/-- `__KERNEL_DS`, the selector that `SAVE_ALL` loads for the kernel's data. -/
def kernelDs : DWord := 0x18

/-- `__USER_CS`, with the requested privilege level of the user. -/
def userCs : DWord := 0x23

/-- `__USER_DS`, with the requested privilege level of the user. -/
def userDs : DWord := 0x2b

/-- `ENOSYS`, what a number behind the table is answered with, negated. -/
def ENOSYS : DWord := 38

/-- The labels of `entry.S`. -/
inductive EntryLabel
  | err | fin | sysenterErr | sysenterFin
  deriving DecidableEq, Repr

/-- The symbols that `entry.S` is linked with. -/
inductive EntrySymbol
  | sysCallTable | printPageFault | pageFaultRoutine | keyboardRoutine | clockRoutine
  deriving DecidableEq, Repr

/-- The service routines. -/
inductive Service
  | sysNiSyscall | sysWrite | sysGettime
  deriving DecidableEq, Repr

open Service in
/-- `sys_call_table`. -/
def sysCallTable : List Service :=
  [sysNiSyscall, sysNiSyscall, sysNiSyscall, sysNiSyscall, sysWrite, sysNiSyscall,
    sysNiSyscall, sysNiSyscall, sysNiSyscall, sysNiSyscall, sysGettime]

/-- `MAX_SYSCALL`, the number of entries. -/
def MAX_SYSCALL : DWord := BitVec.ofNat 32 sysCallTable.length

/-- Code of `entry.S`. -/
abbrev Code := List (Instr EntryLabel EntrySymbol)

open Instr Operand

/-- `SAVE_ALL`. -/
def saveAll : Code :=
  [pushl (seg .gs), pushl (seg .fs), pushl (seg .es), pushl (seg .ds),
    pushl (reg .eax), pushl (reg .ebp), pushl (reg .edi), pushl (reg .esi),
    pushl (reg .ebx), pushl (reg .ecx), pushl (reg .edx),
    movl (imm kernelDs) (reg .edx), movl (reg .edx) (seg .ds),
    movl (reg .edx) (seg .es)]

/-- What `RESTORE_ALL` pops into, in its order. -/
def restored : List Operand :=
  [reg .edx, reg .ecx, reg .ebx, reg .esi, reg .edi, reg .ebp, reg .eax,
    seg .ds, seg .es, seg .fs, seg .gs]

/-- `RESTORE_ALL`. -/
def restoreAll : Code := restored.map popl

/-- `EOI`. -/
def eoi : Code := [movbAl 0x20, outb 0x20]

/-- Call the service routine whose number is in `eax`, and put its result, or the
error, into the frame. -/
def serviceCall (lErr lFin : EntryLabel) : Code :=
  [cmpl 0#32 .eax, jl lErr, cmpl MAX_SYSCALL .eax, jg lErr, callTable .sysCallTable .eax,
    jmp lFin, label lErr, movl (imm (-ENOSYS)) (reg .eax), label lFin,
    movl (reg .eax) (mem 0x18#32 .esp)]

/-- `system_call_handler`, behind the gate of `int $0x80`. -/
def systemCallHandler : Code :=
  saveAll ++ serviceCall .err .fin ++ restoreAll ++ [iret]

/-- `syscall_handler`, where `sysenter` goes: it pushes itself what `int` pushes. -/
def syscallHandler : Code :=
  [pushl (imm userDs), pushl (reg .ebp), pushfl, pushl (imm userCs),
    pushl (mem 4#32 .ebp)] ++
    saveAll ++ serviceCall .sysenterErr .sysenterFin ++ restoreAll ++
    [movl (mem 0#32 .esp) (reg .edx), movl (mem 12#32 .esp) (reg .ecx), sti, sysexit]

/-- `page_fault_handler2`, which takes neither the argument of its call nor the error code
off the stack. -/
def pageFaultHandler2 : Code :=
  saveAll ++ [pushl (mem 0x30#32 .esp), call .printPageFault, call .pageFaultRoutine] ++
    eoi ++ restoreAll ++ [iret]

/-- `keyboard_handler`: the routine, and then the end of the interrupt. -/
def keyboardHandler : Code :=
  saveAll ++ [call .keyboardRoutine] ++ eoi ++ restoreAll ++ [iret]

/-- `clock_handler`: the end of the interrupt, and then the routine. -/
def clockHandler : Code :=
  saveAll ++ eoi ++ [call .clockRoutine] ++ restoreAll ++ [iret]

/-! ## What the pieces do -/

section Pieces

variable {W : Type*} (env : Env EntryLabel EntrySymbol W)

/-- The words that `SAVE_ALL` pushes, the first one first. -/
def saved (c : Cpu W) : List DWord :=
  [(c.segs .gs).setWidth 32, (c.segs .fs).setWidth 32, (c.segs .es).setWidth 32,
    (c.segs .ds).setWidth 32, c.regs .eax, c.regs .ebp, c.regs .edi, c.regs .esi,
    c.regs .ebx, c.regs .ecx, c.regs .edx]

/-- The state after `SAVE_ALL`. -/
def afterSave (c : Cpu W) : Cpu W :=
  (((c.pushAll (saved c)).write (reg .edx) kernelDs).write (seg .ds) kernelDs).write
    (seg .es) kernelDs

theorem exec_saveAll (rest : Code) (c : Cpu W) :
    exec env (saveAll ++ rest) none c = exec env rest none (afterSave c) := by
  simp [saveAll, exec, afterSave, saved, Cpu.read, Cpu.write]

theorem exec_restoreAll (rest : Code) (c : Cpu W) :
    exec env (restoreAll ++ rest) none c = exec env rest none (c.popAll restored) := rfl

/-- The state after the dispatch of a service call. -/
def service (c : Cpu W) : Cpu W :=
  let c₁ := { c with eflags := cmpFlags c.eflags (c.regs .eax) 0#32 }
  if (c.regs .eax).slt 0#32 then c₁.write (reg .eax) (-ENOSYS)
  else
    let c₂ := { c₁ with eflags := cmpFlags c₁.eflags (c.regs .eax) MAX_SYSCALL }
    if MAX_SYSCALL.slt (c.regs .eax) then c₂.write (reg .eax) (-ENOSYS)
    else env.callTable c₂ .sysCallTable .eax

/-- Put `eax` into its slot of the frame. -/
def storeResult (c : Cpu W) : Cpu W := c.write (mem 0x18#32 .esp) (c.regs .eax)

theorem exec_serviceCall {lErr lFin : EntryLabel} (hne : lErr ≠ lFin) (rest : Code)
    (c : Cpu W) :
    exec env (serviceCall lErr lFin ++ rest) none c =
      exec env rest none (storeResult (service env c)) := by
  unfold serviceCall service
  by_cases hneg : (c.regs .eax).slt 0#32
  · simp [exec, hneg, storeResult, Cpu.read]
  · by_cases hbig : MAX_SYSCALL.slt (c.regs .eax)
    · simp [exec, hneg, hbig, storeResult, Cpu.read]
    · simp [exec, hneg, hbig, hne, storeResult, Cpu.read]

/-! ### The frame -/

/-- The eleven words of a frame, from the top of the stack. -/
structure Frame where
  (edx ecx ebx esi edi ebp eax ds es fs gs : DWord)

/-- The words in the order in which they lie in memory, from `%esp` up. -/
def Frame.words (f : Frame) : List DWord :=
  [f.edx, f.ecx, f.ebx, f.esi, f.edi, f.ebp, f.eax, f.ds, f.es, f.fs, f.gs]

/-- The frame that `SAVE_ALL` builds. -/
def Frame.of (c : Cpu W) : Frame where
  edx := c.regs .edx
  ecx := c.regs .ecx
  ebx := c.regs .ebx
  esi := c.regs .esi
  edi := c.regs .edi
  ebp := c.regs .ebp
  eax := c.regs .eax
  ds := (c.segs .ds).setWidth 32
  es := (c.segs .es).setWidth 32
  fs := (c.segs .fs).setWidth 32
  gs := (c.segs .gs).setWidth 32

/-- `c'` has the registers of the frame `f` and is otherwise like `c`, with the
frame taken off the stack. -/
structure Restored (f : Frame) (c c' : Cpu W) : Prop where
  edx : c'.regs .edx = f.edx
  ecx : c'.regs .ecx = f.ecx
  ebx : c'.regs .ebx = f.ebx
  esi : c'.regs .esi = f.esi
  edi : c'.regs .edi = f.edi
  ebp : c'.regs .ebp = f.ebp
  eax : c'.regs .eax = f.eax
  esp : c'.regs .esp = c.regs .esp + 44#32
  ds : c'.segs .ds = f.ds.setWidth 16
  es : c'.segs .es = f.es.setWidth 16
  fs : c'.segs .fs = f.fs.setWidth 16
  gs : c'.segs .gs = f.gs.setWidth 16
  eflags : c'.eflags = c.eflags
  mem : c'.mem = c.mem
  calls : c'.calls = c.calls
  world : c'.world = c.world

/-- Segment registers that were saved zero-extended come back as they were. -/
theorem Restored.segs_eq {f : Frame} {s c u : Cpu W} (h : Restored f s c)
    (hds : f.ds = (u.segs .ds).setWidth 32) (hes : f.es = (u.segs .es).setWidth 32)
    (hfs : f.fs = (u.segs .fs).setWidth 32) (hgs : f.gs = (u.segs .gs).setWidth 32) :
    c.segs = u.segs := by
  have hword : ∀ w : Word, (w.setWidth 32).setWidth 16 = w := fun w => by simp
  funext r
  cases r with
  | ds => rw [h.ds, hds, hword]
  | es => rw [h.es, hes, hword]
  | fs => rw [h.fs, hfs, hword]
  | gs => rw [h.gs, hgs, hword]

theorem afterSave_eax (c : Cpu W) : (afterSave c).regs .eax = c.regs .eax := by
  simp [afterSave, Cpu.write, Cpu.pushAll_regs_of_ne]

theorem afterSave_esp (c : Cpu W) : (afterSave c).regs .esp = c.regs .esp - 44#32 := by
  have hpush : (c.pushAll (saved c)).regs .esp = c.regs .esp - 44#32 :=
    Cpu.pushAll_regs_esp c (saved c)
  simp only [afterSave, Cpu.write]
  rw [Function.update_of_ne (by decide), hpush]

theorem afterSave_calls (c : Cpu W) : (afterSave c).calls = c.calls := by
  simp [afterSave, Cpu.write, Cpu.pushAll_calls]

theorem afterSave_world (c : Cpu W) : (afterSave c).world = c.world := by
  simp [afterSave, Cpu.write, Cpu.pushAll_world]

theorem afterSave_mem (c : Cpu W) : (afterSave c).mem = (c.pushAll (saved c)).mem := rfl

theorem afterSave_stack {c : Cpu W} {ws : List DWord} (h : c.Stack ws)
    (hlen : 4 * (11 + ws.length) ≤ 2 ^ 32) :
    (afterSave c).Stack ((Frame.of c).words ++ ws) := by
  have hpush := Cpu.pushAll_stack (saved c) h hlen
  exact hpush

/-- `RESTORE_ALL` gives the registers of the frame on the stack back. -/
theorem restored_popAll {c : Cpu W} {f : Frame} {ws : List DWord}
    (h : c.Stack (f.words ++ ws)) :
    Restored f c (c.popAll restored) ∧ (c.popAll restored).Stack ws := by
  have hpop := Cpu.popAll_eq (restored.zip f.words) h (by
    simp [restored, Frame.words, Cpu.PopTarget])
  have hfst : (restored.zip f.words).map Prod.fst = restored := rfl
  rw [hfst] at hpop
  rw [hpop.1]
  refine ⟨?_, hpop.2⟩
  constructor
  case esp =>
    simp [Cpu.assignAll, restored, Frame.words, Cpu.setEsp, Cpu.write, BitVec.add_assoc]
  all_goals rfl

/-- What is on the stack may be read as a frame. -/
theorem exists_frame (c : Cpu W) : ∃ f : Frame, c.Stack (f.words ++ []) :=
  ⟨⟨_, _, _, _, _, _, _, _, _, _, _⟩, rfl, rfl, rfl, rfl, rfl, rfl, rfl, rfl, rfl, rfl, rfl,
    trivial⟩

/-- Behind the dispatch, the frame on the stack is restored with `eax` replaced by
the result. -/
theorem restored_storeResult {c : Cpu W} {f : Frame} {ws : List DWord}
    (h : c.Stack (f.words ++ ws)) (hlen : 4 * (11 + ws.length) ≤ 2 ^ 32) :
    Restored { f with eax := c.regs .eax } (storeResult c)
        ((storeResult c).popAll restored) ∧
      ((storeResult c).popAll restored).Stack ws := by
  have hstore : (storeResult c).Stack ((Frame.words { f with eax := c.regs .eax }) ++ ws) :=
    Bytes.HasWords.store_at [f.edx, f.ecx, f.ebx, f.esi, f.edi, f.ebp]
      ([f.ds, f.es, f.fs, f.gs] ++ ws) (c.regs .eax) h (by
        simp only [List.length_cons, List.length_append, List.length_nil]
        omega)
  exact restored_popAll hstore

/-! ### The dispatch -/

/-- The numbers that the handlers call a routine for.  The comparisons are signed,
and the second one lets the number of entries itself through. -/
theorem dispatched_iff (eax : DWord) :
    (¬ eax.slt 0#32 ∧ ¬ MAX_SYSCALL.slt eax) ↔ eax.toNat ≤ sysCallTable.length := by
  have hlt := eax.isLt
  have hmax : MAX_SYSCALL.toInt = 11 := by decide
  have hlen : sysCallTable.length = 11 := rfl
  rw [BitVec.slt_iff_toInt_lt, BitVec.slt_iff_toInt_lt, hmax, hlen, BitVec.toInt_zero,
    BitVec.toInt_eq_toNat_cond]
  split <;> omega

/-- For a number that is dispatched, the routine is called. -/
theorem service_of_le (c : Cpu W) (h : (c.regs .eax).toNat ≤ sysCallTable.length) :
    ∃ eflags, service env c =
      env.callTable { c with eflags := eflags } .sysCallTable .eax := by
  obtain ⟨hneg, hbig⟩ := (dispatched_iff _).mpr h
  unfold service
  simp only [if_neg hneg, if_neg hbig]
  exact ⟨_, rfl⟩

/-- For any other number, the result is an error. -/
theorem service_of_lt (c : Cpu W) (h : sysCallTable.length < (c.regs .eax).toNat) :
    ∃ eflags, service env c =
      Cpu.write { c with eflags := eflags } (reg .eax) (-ENOSYS) := by
  have hnot := mt (dispatched_iff (c.regs .eax)).mp (not_le_of_gt h)
  unfold service
  by_cases hneg : (c.regs .eax).slt 0#32
  · simp only [if_pos hneg]
    exact ⟨_, rfl⟩
  · have hbig : MAX_SYSCALL.slt (c.regs .eax) := by
      by_contra hsmall
      exact hnot ⟨hneg, hsmall⟩
    simp only [if_neg hneg, if_pos hbig]
    exact ⟨_, rfl⟩

/-- If the routine that is called has `args` arguments, the dispatch keeps what lies
behind them on the stack. -/
theorem service_stack {args depth : ℕ} {c : Cpu W}
    (hcall : (c.regs .eax).toNat ≤ sysCallTable.length →
      Cdecl args depth (env.routine (c.mem.load (env.slot .sysCallTable (c.regs .eax)))))
    {us ws : List DWord} (h : c.Stack (us ++ ws)) (hus : us.length = args)
    (hlen : args + ws.length ≤ depth) :
    (service env c).regs .esp = c.regs .esp ∧
      (service env c).Stack ((service env c).mem.words (c.regs .esp) args ++ ws) := by
  rcases Nat.lt_or_ge sysCallTable.length (c.regs .eax).toNat with hlt | hge
  · obtain ⟨eflags, heq⟩ := service_of_lt env c hlt
    obtain ⟨hfront, -⟩ := (Bytes.hasWords_append _ _ _ _).mp h
    have hwords : us = c.mem.words (c.regs .esp) args := hus ▸ hfront.eq_words
    have hesp : (service env c).regs .esp = c.regs .esp := by simp [heq, Cpu.write]
    have hmem : (service env c).mem = c.mem := by rw [heq]; rfl
    refine ⟨hesp, ?_⟩
    rw [Cpu.Stack, hesp, hmem, ← hwords]
    exact h
  · obtain ⟨eflags, heq⟩ := service_of_le env c hge
    rw [heq]
    exact ⟨(hcall hge).esp _,
      (hcall hge).stack us (c := { c with eflags := eflags }) h hus hlen⟩

/-! ## The handlers -/

/-- The interrupt frame that `syscall_handler` rebuilds.  The return address is
read through the user's `ebp`. -/
def rebuildFrame (c : Cpu W) : Cpu W :=
  let c := c.pushAll [userDs, c.regs .ebp, c.eflags, userCs]
  c.push (c.mem.load (c.regs .ebp + 4#32))

theorem rebuildFrame_regs_of_ne (c : Cpu W) {r : Reg} (hr : r ≠ .esp) :
    (rebuildFrame c).regs r = c.regs r := by
  simp only [rebuildFrame, Cpu.push_regs_of_ne _ _ hr, Cpu.pushAll_regs_of_ne _ _ hr]

theorem rebuildFrame_calls (c : Cpu W) : (rebuildFrame c).calls = c.calls := by
  simp only [rebuildFrame, Cpu.push_calls, Cpu.pushAll_calls]

/-- The address that `syscall_handler` resumes at. -/
def returnAddress (c : Cpu W) : Addr :=
  (c.pushAll [userDs, c.regs .ebp, c.eflags, userCs]).mem.load (c.regs .ebp + 4#32)

theorem rebuildFrame_eq (c : Cpu W) :
    rebuildFrame c =
      c.pushAll [userDs, c.regs .ebp, c.eflags, userCs, returnAddress c] := rfl

theorem rebuildFrame_esp (c : Cpu W) : (rebuildFrame c).regs .esp = c.regs .esp - 20#32 := by
  rw [rebuildFrame_eq, Cpu.pushAll_regs_esp]
  rfl

theorem rebuildFrame_world (c : Cpu W) : (rebuildFrame c).world = c.world := by
  rw [rebuildFrame_eq, Cpu.pushAll_world]

/-- The handler's frames take sixteen words of the stack, and nothing else in memory
changes up to the call. -/
theorem fastCall_mem (c : Cpu W) {a : Addr} (h : 64 ≤ (a - (c.regs .esp - 64#32)).toNat) :
    (afterSave (rebuildFrame c)).mem a = c.mem a := by
  rw [afterSave_mem, Cpu.pushAll_mem _ _ (by simp [saved]), rebuildFrame_eq,
    Cpu.pushAll_mem _ _ (by simp)]
  · simp only [List.length_cons, List.length_nil]
    bv_omega
  · rw [rebuildFrame_esp]
    simp only [saved, List.length_cons, List.length_nil]
    bv_omega

/-- The end of `syscall_handler`. -/
def loadReturn (c : Cpu W) : Cpu W :=
  let c := c.write (reg .edx) (c.mem.load (c.regs .esp + 0#32))
  let c := c.write (reg .ecx) (c.mem.load (c.regs .esp + 12#32))
  { c with eflags := withBit c.eflags ifBit true }

theorem loadReturn_regs_of_ne (c : Cpu W) {r : Reg} (hecx : r ≠ .ecx) (hedx : r ≠ .edx) :
    (loadReturn c).regs r = c.regs r := by
  simp [loadReturn, Cpu.write, hecx, hedx]

theorem loadReturn_calls (c : Cpu W) : (loadReturn c).calls = c.calls := rfl

theorem loadReturn_world (c : Cpu W) : (loadReturn c).world = c.world := rfl

theorem exec_systemCallHandler (c : Cpu W) :
    exec env systemCallHandler none c =
      some (.iret, (storeResult (service env (afterSave c))).popAll restored) := by
  rw [systemCallHandler, List.append_assoc, List.append_assoc, exec_saveAll,
    exec_serviceCall env (by decide), exec_restoreAll]
  rfl

theorem exec_syscallHandler (c : Cpu W) :
    exec env syscallHandler none c =
      some (.sysexit,
        loadReturn ((storeResult (service env (afterSave (rebuildFrame c)))).popAll
          restored)) := by
  have hframe : ∀ rest, exec env ([pushl (imm userDs), pushl (reg .ebp), pushfl,
      pushl (imm userCs), pushl (mem 4#32 .ebp)] ++ rest) none c =
        exec env rest none (rebuildFrame c) := by
    intro rest
    simp [exec, Cpu.read, rebuildFrame]
  rw [syscallHandler, List.append_assoc, List.append_assoc, List.append_assoc, hframe,
    exec_saveAll, exec_serviceCall env (by decide), exec_restoreAll]
  rfl

/-- `clock_handler` calls its routine behind `SAVE_ALL` and `EOI`. -/
theorem exec_clockHandler (c : Cpu W) :
    exec env clockHandler none c =
      some (.iret, (env.routine (env.symbol .clockRoutine)
        ((afterSave c).setAl 0x20)).popAll restored) := by
  rw [clockHandler, List.append_assoc, List.append_assoc, List.append_assoc, exec_saveAll]
  rfl

/-- The state of `syscall_handler` after its dispatch. -/
def fastService (c : Cpu W) : Cpu W := service env (afterSave (rebuildFrame c))

theorem rebuildFrame_stack (c : Cpu W) :
    (rebuildFrame c).Stack [returnAddress c, userCs, c.eflags, c.regs .ebp, userDs] := by
  have hempty : c.Stack [] := trivial
  have hfour := Cpu.pushAll_stack [userDs, c.regs .ebp, c.eflags, userCs] hempty (by simp)
  exact Cpu.push_stack _ hfour (by simp)

theorem rebuildFrame_segs (c : Cpu W) : (rebuildFrame c).segs = c.segs := by
  simp only [rebuildFrame, Cpu.push_segs, Cpu.pushAll_segs]

/-- The two registers that `sysexit` takes, by the frame on the stack. -/
theorem loadReturn_stack {c : Cpu W} {eip cs eflags esp ss : DWord}
    (hstack : c.Stack [eip, cs, eflags, esp, ss]) :
    (loadReturn c).regs .edx = eip ∧ (loadReturn c).regs .ecx = esp := by
  have hedx : c.mem.load (c.regs .esp + 0#32) = eip := by
    rw [BitVec.add_zero]
    exact hstack.1
  have hecx : c.mem.load (c.regs .esp + 12#32) = esp :=
    Cpu.Stack.load [eip, cs, eflags] hstack
  constructor
  · simp only [loadReturn, Cpu.write, hedx]
    simp
  · simp [loadReturn, Cpu.write, hecx]

/-- The registers at the `sysexit`, by the frames on the stack. -/
theorem loadReturn_restored {s c : Cpu W} {f : Frame} {eip cs eflags esp ss : DWord}
    (h : Restored f s c) (hstack : c.Stack [eip, cs, eflags, esp, ss]) :
    (loadReturn c).regs = fun
      | .eax => f.eax
      | .ecx => esp
      | .edx => eip
      | .ebx => f.ebx
      | .esp => s.regs .esp + 44#32
      | .ebp => f.ebp
      | .esi => f.esi
      | .edi => f.edi := by
  obtain ⟨hedx, hecx⟩ := loadReturn_stack hstack
  funext r
  cases r with
  | eax => rw [loadReturn_regs_of_ne _ (by decide) (by decide), h.eax]
  | ecx => exact hecx
  | edx => exact hedx
  | ebx => rw [loadReturn_regs_of_ne _ (by decide) (by decide), h.ebx]
  | esp => rw [loadReturn_regs_of_ne _ (by decide) (by decide), h.esp]
  | ebp => rw [loadReturn_regs_of_ne _ (by decide) (by decide), h.ebp]
  | esi => rw [loadReturn_regs_of_ne _ (by decide) (by decide), h.esi]
  | edi => rw [loadReturn_regs_of_ne _ (by decide) (by decide), h.edi]

/-- The registers and the rest of the state that `syscall_handler` leaves at its
`sysexit`.  Of the registers that user mode gets back, `ebx` lies among the
arguments of the service routine. -/
structure FastReturn (c c' : Cpu W) : Prop where
  regs : c'.regs = fun
    | .eax => (fastService env c).regs .eax
    | .ecx => c.regs .ebp
    | .edx => returnAddress c
    | .ebx => (fastService env c).mem.load ((fastService env c).regs .esp + 4 + 4)
    | .esp => (fastService env c).regs .esp + 44#32
    | .ebp => c.regs .ebp
    | .esi => c.regs .esi
    | .edi => c.regs .edi
  segs : c'.segs = c.segs
  mem : c'.mem = (storeResult (fastService env c)).mem
  calls : c'.calls = (fastService env c).calls
  world : c'.world = (fastService env c).world

theorem fastReturn_of_stack {c : Cpu W} {edx ecx ebx : DWord}
    (h : (fastService env c).Stack
      ([edx, ecx, ebx] ++ ([c.regs .esi, c.regs .edi, c.regs .ebp, c.regs .eax,
        (c.segs .ds).setWidth 32, (c.segs .es).setWidth 32, (c.segs .fs).setWidth 32,
        (c.segs .gs).setWidth 32] ++
        [returnAddress c, userCs, c.eflags, c.regs .ebp, userDs]))) :
    FastReturn env c
      (loadReturn ((storeResult (fastService env c)).popAll restored)) := by
  have hebx : (fastService env c).mem.load ((fastService env c).regs .esp + 4 + 4) = ebx :=
    h.2.2.1
  obtain ⟨hrestored, hrest⟩ := restored_storeResult
    (f := ⟨edx, ecx, ebx, c.regs .esi, c.regs .edi, c.regs .ebp, c.regs .eax,
      (c.segs .ds).setWidth 32, (c.segs .es).setWidth 32, (c.segs .fs).setWidth 32,
      (c.segs .gs).setWidth 32⟩) h (by simp)
  generalize (storeResult (fastService env c)).popAll restored = c' at hrestored hrest ⊢
  refine ⟨?_, hrestored.segs_eq rfl rfl rfl rfl, hrestored.mem, hrestored.calls,
    hrestored.world⟩
  rw [loadReturn_restored hrestored hrest, hebx]
  rfl

/-- The words on the stack at the dispatch: the arguments of the service routine,
the rest of the frame, and the rebuilt interrupt frame. -/
theorem fastCall_stack (c : Cpu W) :
    (afterSave (rebuildFrame c)).Stack
      ([c.regs .edx, c.regs .ecx, c.regs .ebx] ++
        ([c.regs .esi, c.regs .edi, c.regs .ebp, c.regs .eax,
          (c.segs .ds).setWidth 32, (c.segs .es).setWidth 32, (c.segs .fs).setWidth 32,
          (c.segs .gs).setWidth 32] ++
          [returnAddress c, userCs, c.eflags, c.regs .ebp, userDs])) := by
  have hframe : (Frame.of (rebuildFrame c)).words = [c.regs .edx, c.regs .ecx, c.regs .ebx,
      c.regs .esi, c.regs .edi, c.regs .ebp, c.regs .eax, (c.segs .ds).setWidth 32,
      (c.segs .es).setWidth 32, (c.segs .fs).setWidth 32, (c.segs .gs).setWidth 32] := by
    simp [Frame.words, Frame.of, rebuildFrame_segs, rebuildFrame_regs_of_ne]
  have hstack := afterSave_stack (rebuildFrame_stack c) (by simp)
  rw [hframe] at hstack
  exact hstack

/-- **A run of `syscall_handler`** with service routines of three arguments. -/
theorem fastReturn_syscallHandler (hcall : ∀ a, Cdecl 3 16 (env.routine a)) (c : Cpu W) :
    ∃ c', exec env syscallHandler none c = some (.sysexit, c') ∧ FastReturn env c c' := by
  obtain ⟨hesp, hstack⟩ := service_stack env (fun _ => hcall _) (fastCall_stack c) rfl (by simp)
  rw [← hesp] at hstack
  exact ⟨_, exec_syscallHandler env c, fastReturn_of_stack env hstack⟩

/-- The call of a service routine by `syscall_handler`: `s` is the state at the
call. -/
structure FastCall (c s : Cpu W) : Prop where
  service : fastService env c =
    let s' := env.routine (s.mem.load (env.slot .sysCallTable (c.regs .eax))) s
    { s' with calls := (env.slot .sysCallTable (c.regs .eax), s'.regs .eax) :: s'.calls }
  esp : s.regs .esp = c.regs .esp - 64#32
  args : s.Stack [c.regs .edx, c.regs .ecx, c.regs .ebx]
  calls : s.calls = c.calls
  world : s.world = c.world
  mem : ∀ a, 64 ≤ (a - (c.regs .esp - 64#32)).toNat → s.mem a = c.mem a

/-- A number that is dispatched leads to such a call. -/
theorem exists_fastCall (c : Cpu W) (h : (c.regs .eax).toNat ≤ sysCallTable.length) :
    ∃ s, FastCall env c s := by
  have heax : (afterSave (rebuildFrame c)).regs .eax = c.regs .eax := by
    rw [afterSave_eax, rebuildFrame_regs_of_ne c (by decide)]
  have hesp : (afterSave (rebuildFrame c)).regs .esp = c.regs .esp - 64#32 := by
    rw [afterSave_esp, rebuildFrame_esp]
    bv_omega
  obtain ⟨hargs, -⟩ := (Bytes.hasWords_append _ _ _ _).mp (fastCall_stack c)
  have hcalls : (afterSave (rebuildFrame c)).calls = c.calls := by
    rw [afterSave_calls, rebuildFrame_calls]
  have hworld : (afterSave (rebuildFrame c)).world = c.world := by
    rw [afterSave_world, rebuildFrame_world]
  have hmem : ∀ a, 64 ≤ (a - (c.regs .esp - 64#32)).toNat →
      (afterSave (rebuildFrame c)).mem a = c.mem a := fun a ha => fastCall_mem c ha
  obtain ⟨eflags, hservice⟩ :=
    service_of_le env (afterSave (rebuildFrame c)) (by rw [heax]; exact h)
  have hfast : fastService env c = service env (afterSave (rebuildFrame c)) := rfl
  -- from here on only these facts about the state matter
  generalize afterSave (rebuildFrame c) = s at *
  refine ⟨{ s with eflags := eflags }, ?_, hesp, hargs, hcalls, hworld, hmem⟩
  rw [hfast, hservice, Env.callTable]
  simp only [heax]

/-- The store of the result goes into the handler's frame. -/
theorem storeResult_mem (c : Cpu W) {a : Addr} (h : 64 ≤ (a - c.regs .esp).toNat) :
    (storeResult c).mem a = c.mem a :=
  Bytes.write_apply_of_le c.mem _ _ (by bv_omega)

end Pieces

end Zeos
