import Zeos.Machine.Memory

/-!
# A 32-bit x86 processor for straight handlers

The entry and exit code of a kernel is a few dozen instructions that save
registers on a stack, branch forward and leave by one of the return
instructions.  This module gives such code a meaning.

* `Cpu` is the processor state over a byte memory, with a component `world` for
  whatever the called routines keep outside the memory that the code handles.
* `Instr` is the instruction set; `exec` runs a list of instructions up to the
  one that leaves it.  All jumps go forward, so `exec` is a structural recursion
  on the code that is left: a taken jump skips to its label.
* A called routine is a function on states, the effect of the whole call.

`Zeos.Machine.Stack` has the rules to follow a register through pushes, pops and
calls.
-/

namespace Zeos.Machine

/-- The general registers. -/
inductive Reg
  | eax | ecx | edx | ebx | esp | ebp | esi | edi
  deriving DecidableEq, Repr

/-- The segment registers that a program loads. -/
inductive Seg
  | ds | es | fs | gs
  deriving DecidableEq, Repr

/-- The processor, its memory, and the rest of the program's state.  `calls`
records the indirect calls, the latest first: the address from which the target
was read, and the value that the routine returned in `eax`. -/
structure Cpu (W : Type*) where
  regs : Reg → DWord
  segs : Seg → Word
  eflags : DWord
  mem : Bytes
  calls : List (Addr × DWord)
  world : W

/-! ## Flags -/

/-- The bit of `ZF` in `%eflags`, one of the three that the conditional jumps read. -/
def zfBit : ℕ := 6

/-- The bit of `SF` in `%eflags`. -/
def sfBit : ℕ := 7

/-- The bit of `OF` in `%eflags`. -/
def ofBit : ℕ := 11

/-- The interrupt flag. -/
def ifBit : ℕ := 9

/-- The flags after an addition or a subtraction with the given result. -/
def arithFlags (eflags result : DWord) (overflow : Bool) : DWord :=
  withBit (withBit (withBit eflags zfBit (result == 0)) sfBit result.msb)
    ofBit overflow

@[simp] theorem arithFlags_zf (eflags result : DWord) (overflow : Bool) :
    (arithFlags eflags result overflow).getLsbD zfBit = (result == 0) := by
  rw [arithFlags, getLsbD_withBit_of_ne _ _ (by decide) (by decide),
    getLsbD_withBit_of_ne _ _ (by decide) (by decide), getLsbD_withBit_self _ _ (by decide)]

@[simp] theorem arithFlags_sf (eflags result : DWord) (overflow : Bool) :
    (arithFlags eflags result overflow).getLsbD sfBit = result.msb := by
  rw [arithFlags, getLsbD_withBit_of_ne _ _ (by decide) (by decide),
    getLsbD_withBit_self _ _ (by decide)]

@[simp] theorem arithFlags_of (eflags result : DWord) (overflow : Bool) :
    (arithFlags eflags result overflow).getLsbD ofBit = overflow := by
  rw [arithFlags, getLsbD_withBit_self _ _ (by decide)]

/-- The flags after `cmpl $b, a`. -/
def cmpFlags (eflags a b : DWord) : DWord :=
  arithFlags eflags (a - b) (a.ssubOverflow b)

/-- The condition of `jl`: the sign and overflow flags differ. -/
def isLess (eflags : DWord) : Bool :=
  eflags.getLsbD sfBit != eflags.getLsbD ofBit

/-- The condition of `jg`. -/
def isGreater (eflags : DWord) : Bool :=
  !eflags.getLsbD zfBit && !isLess eflags

private theorem msb_bne_ssubOverflow (a b : DWord) :
    ((a - b).msb != a.ssubOverflow b) = a.slt b := by
  have ha := a.toInt_lt
  have ha' := a.le_toInt
  have hb := b.toInt_lt
  have hb' := b.le_toInt
  simp only [BitVec.msb_eq_toInt, BitVec.toInt_sub, BitVec.ssubOverflow,
    BitVec.slt_eq_decide]
  rw [Int.bmod_def]
  grind

/-- After a comparison, `jl` jumps on signed less. -/
@[simp] theorem isLess_cmpFlags (eflags a b : DWord) :
    isLess (cmpFlags eflags a b) = a.slt b := by
  rw [isLess, cmpFlags, arithFlags_sf, arithFlags_of, msb_bne_ssubOverflow]

/-- After a comparison, `jg` jumps on signed greater. -/
@[simp] theorem isGreater_cmpFlags (eflags a b : DWord) :
    isGreater (cmpFlags eflags a b) = b.slt a := by
  have hzero : (a - b == 0) = decide (a.toInt = b.toInt) := by
    have hsub : a - b = 0 ↔ a.toInt = b.toInt := by
      rw [BitVec.toInt_inj]
      bv_omega
    rw [beq_eq_decide]
    exact decide_eq_decide.mpr hsub
  rw [isGreater, isLess_cmpFlags, cmpFlags, arithFlags_zf, hzero,
    BitVec.slt_eq_decide, BitVec.slt_eq_decide]
  grind

/-! ## Operands -/

/-- An instruction's operand.  `mem off base` is `off(%base)`. -/
inductive Operand
  | imm (v : DWord)
  | reg (r : Reg)
  | seg (s : Seg)
  | mem (off : DWord) (base : Reg)
  deriving DecidableEq, Repr

namespace Cpu

variable {W : Type*}

/-- The value of an operand.  A segment register is read zero-extended. -/
def read (c : Cpu W) : Operand → DWord
  | .imm v => v
  | .reg r => c.regs r
  | .seg s => (c.segs s).setWidth 32
  | .mem off base => c.mem.load (c.regs base + off)

/-- Write an operand.  A segment register takes the low sixteen bits. -/
def write (c : Cpu W) : Operand → DWord → Cpu W
  | .imm _, _ => c
  | .reg r, v => { c with regs := Function.update c.regs r v }
  | .seg s, v => { c with segs := Function.update c.segs s (v.setWidth 16) }
  | .mem off base, v => { c with mem := c.mem.store (c.regs base + off) v }

/-- The double word on top of the stack. -/
def top (c : Cpu W) : DWord := c.mem.load (c.regs .esp)

/-- Move the stack pointer. -/
def setEsp (c : Cpu W) (a : Addr) : Cpu W :=
  { c with regs := Function.update c.regs .esp a }

/-- `v` on top of the stack. -/
def push (c : Cpu W) (v : DWord) : Cpu W :=
  { c with
    regs := Function.update c.regs .esp (c.regs .esp - 4)
    mem := c.mem.store (c.regs .esp - 4) v }

/-- `popl`: the destination is written after the stack pointer has moved. -/
def pop (c : Cpu W) (dst : Operand) : Cpu W :=
  (c.setEsp (c.regs .esp + 4)).write dst c.top

end Cpu

/-! ## Instructions -/

/-- The instructions of the handlers, over a type `L` of code labels and a type
`F` of external symbols. -/
inductive Instr (L F : Type*)
  | pushl (src : Operand)
  | pushLabel (l : L)
  | pushfl
  | popl (dst : Operand)
  | movl (src dst : Operand)
  | movbAl (v : Byte)
  | outb (port : Byte)
  | addl (v : DWord) (r : Reg)
  | cmpl (v : DWord) (r : Reg)
  | sti
  | label (l : L)
  | jmp (l : L)
  | jl (l : L)
  | jg (l : L)
  | jge (l : L)
  | call (f : F)
  | callTable (table : F) (index : Reg)
  | sysenter
  | sysexit
  | iret
  | ret

/-- The instructions that leave a piece of code. -/
inductive Exit
  | sysexit | iret | ret
  deriving DecidableEq, Repr

/-- What the code is linked with: the addresses of its labels and of the external
symbols, the routines, and what lies behind `sysenter`.  A routine is given as
the effect of the whole call, from the state at the `call` to the state after
it; `sysenter` as the effect up to the return to the code's privilege level,
with the address at which it resumes. -/
structure Env (L F W : Type*) where
  address : L → Addr
  labelAt : Addr → Option L
  labelAt_address : ∀ l, labelAt (address l) = some l
  symbol : F → Addr
  routine : Addr → Cpu W → Cpu W
  sysenter : Cpu W → Option (Addr × Cpu W)

section Exec

variable {L F W : Type*}

/-- Store the low byte of `eax`. -/
def Cpu.setAl (c : Cpu W) (v : Byte) : Cpu W :=
  c.write (.reg .eax) ((c.regs .eax).extractLsb' 8 24 ++ v)

/-- The address from which `call *table(, %index, 4)` reads its target. -/
def Env.slot (env : Env L F W) (table : F) (index : DWord) : Addr :=
  env.symbol table + 4 * index

/-- `call *table(, %index, 4)`. -/
def Env.callTable (env : Env L F W) (c : Cpu W) (table : F) (index : Reg) : Cpu W :=
  let slot := env.slot table (c.regs index)
  let c := env.routine (c.mem.load slot) c
  { c with calls := (slot, c.regs .eax) :: c.calls }

variable [DecidableEq L]

/-- Run code from its first instruction, or, after a taken jump, from a label
further on, up to the instruction that leaves it.  The state returned is the one
in which that instruction is executed.  `none` is a run off the end of the code
or a return from `sysenter` to an address that is no label ahead.

The output to a port has no effect on the state. -/
def exec (env : Env L F W) :
    List (Instr L F) → Option L → Cpu W → Option (Exit × Cpu W)
  | [], _, _ => none
  | .label l' :: is, some l, c => exec env is (if l' = l then none else some l) c
  | _ :: is, some l, c => exec env is (some l) c
  | i :: is, none, c =>
      match i with
      | .pushl src => exec env is none (c.push (c.read src))
      | .pushLabel l => exec env is none (c.push (env.address l))
      | .pushfl => exec env is none (c.push c.eflags)
      | .popl dst => exec env is none (c.pop dst)
      | .movl src dst => exec env is none (c.write dst (c.read src))
      | .movbAl v => exec env is none (c.setAl v)
      | .outb _ => exec env is none c
      | .addl v r =>
          exec env is none
            { c.write (.reg r) (c.regs r + v) with
              eflags := arithFlags c.eflags (c.regs r + v)
                ((c.regs r).saddOverflow v) }
      | .cmpl v r =>
          exec env is none { c with eflags := cmpFlags c.eflags (c.regs r) v }
      | .sti => exec env is none { c with eflags := withBit c.eflags ifBit true }
      | .label _ => exec env is none c
      | .jmp l => exec env is (some l) c
      | .jl l => exec env is (if isLess c.eflags then some l else none) c
      | .jg l => exec env is (if isGreater c.eflags then some l else none) c
      | .jge l => exec env is (if isLess c.eflags then none else some l) c
      | .call f => exec env is none (env.routine (env.symbol f) c)
      | .callTable table index => exec env is none (env.callTable c table index)
      | .sysenter =>
          match env.sysenter c with
          | none => none
          | some (eip, c') =>
              match env.labelAt eip with
              | none => none
              | some l => exec env is (some l) c'
      | .sysexit => some (.sysexit, c)
      | .iret => some (.iret, c)
      | .ret => some (.ret, c)

end Exec

end Zeos.Machine
