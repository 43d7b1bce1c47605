import Zeos.Machine.Stack

/-!
# Interrupted programs

A processor that runs a program has an instruction pointer and a code and a stack
segment, which the code of a handler does not touch.  An interrupt pushes them on the
kernel's stack together with the flags and the program's stack pointer (`enter`), and
`iret` takes the five words off again (`leave`).

What a program can see of the processor and of memory is its `UserState`;
`leave_of_frame` says when it finds that again after a handler.

Which part of memory is the program's own is a parameter (`own`), and memory outside of it
is no part of a `UserState`: what a handler leaves on its own stack is not the program's
to see. The selectors are words and the frame has double words, of which `iret` takes the
lower halves.
-/

namespace Zeos.Machine

/-- A processor that runs a program. -/
structure Running (W : Type*) where
  cpu : Cpu W
  eip : Addr
  cs : Word
  ss : Word

/-- What a program can see: the registers, and the bytes that are its own. -/
@[ext] structure UserState (own : Addr → Prop) where
  regs : Reg → DWord
  segs : Seg → Word
  eflags : DWord
  eip : Addr
  mem : { a // own a } → Byte

namespace Running

variable {W : Type*}

section User

variable (own : Addr → Prop)

/-- What the program has of the processor: all but the part of memory that is not its own. -/
def user (r : Running W) : UserState own where
  regs := r.cpu.regs
  segs := r.cpu.segs
  eflags := r.cpu.eflags
  eip := r.eip
  mem a := r.cpu.mem a

variable {own} [DecidablePred own]

/-- Replace what the program can see. -/
def setUser (r : Running W) (u : UserState own) : Running W :=
  { r with
    cpu :=
      { r.cpu with
        regs := u.regs
        segs := u.segs
        eflags := u.eflags
        mem := fun a => if h : own a then u.mem ⟨a, h⟩ else r.cpu.mem a }
    eip := u.eip }

@[simp] theorem user_setUser (r : Running W) (u : UserState own) : (r.setUser u).user own = u := by
  refine UserState.ext rfl rfl rfl rfl ?_
  funext a
  exact dif_pos a.property

end User

/-- The words that the processor pushes, the one on top first. -/
def frame (r : Running W) : List DWord :=
  [r.eip, r.cs.setWidth 32, r.cpu.eflags, r.cpu.regs .esp, r.ss.setWidth 32]

/-- The state at the first instruction of a handler behind an interrupt gate. -/
def enter (esp0 : Addr) (r : Running W) : Cpu W :=
  Cpu.pushAll
    { r.cpu.setEsp esp0 with eflags := withBit r.cpu.eflags ifBit false } r.frame.reverse

/-- `iret` to a program. -/
def leave (c : Cpu W) : Running W where
  cpu :=
    { c.setEsp (c.mem.load (c.regs .esp + 12#32)) with
      eflags := c.mem.load (c.regs .esp + 8#32) }
  eip := c.top
  cs := (c.mem.load (c.regs .esp + 4#32)).setWidth 16
  ss := (c.mem.load (c.regs .esp + 16#32)).setWidth 16

theorem enter_stack (esp0 : Addr) (r : Running W) : (r.enter esp0).Stack r.frame := by
  have hempty : Cpu.Stack
      { r.cpu.setEsp esp0 with eflags := withBit r.cpu.eflags ifBit false } [] := trivial
  have h := Cpu.pushAll_stack r.frame.reverse hempty (by simp [frame])
  rwa [List.reverse_reverse, List.append_nil] at h

theorem enter_regs_esp (esp0 : Addr) (r : Running W) :
    (r.enter esp0).regs .esp = esp0 - 20#32 := by
  rw [enter, Cpu.pushAll_regs_esp]
  simp [frame, Cpu.setEsp]

theorem enter_regs_of_ne (esp0 : Addr) (r : Running W) {reg : Reg} (h : reg ≠ .esp) :
    (r.enter esp0).regs reg = r.cpu.regs reg := by
  rw [enter, Cpu.pushAll_regs_of_ne _ _ h]
  exact Function.update_of_ne h _ _

theorem enter_segs (esp0 : Addr) (r : Running W) : (r.enter esp0).segs = r.cpu.segs := by
  rw [enter, Cpu.pushAll_segs]
  rfl

theorem enter_world (esp0 : Addr) (r : Running W) : (r.enter esp0).world = r.cpu.world := by
  rw [enter, Cpu.pushAll_world]
  rfl

/-- The processor's words take five words of the stack. -/
theorem enter_mem (esp0 : Addr) (r : Running W) {a : Addr} (h : 20 ≤ (a - (esp0 - 20#32)).toNat) :
    (r.enter esp0).mem a = r.cpu.mem a := by
  refine Cpu.pushAll_mem _ _ (by simp [frame]) ?_
  simpa [frame, Cpu.setEsp] using h

/-- **Back from a handler the program finds what it has left**, if the handler gives back
the registers and has the processor's words on the stack, and the program's memory is as
it was. -/
theorem leave_of_frame {esp0 : Addr} {r : Running W} {c : Cpu W} {own : Addr → Prop}
    (hregs : c.regs = (r.enter esp0).regs) (hsegs : c.segs = (r.enter esp0).segs)
    (hframe : c.Stack r.frame) (hmem : ∀ a, own a → c.mem a = r.cpu.mem a) :
    (leave c).user own = r.user own ∧ (leave c).cs = r.cs ∧ (leave c).ss = r.ss := by
  have heip : c.top = r.eip := hframe.top
  have hcs : c.mem.load (c.regs .esp + 4#32) = r.cs.setWidth 32 := Cpu.Stack.load [_] hframe
  have heflags : c.mem.load (c.regs .esp + 8#32) = r.cpu.eflags := Cpu.Stack.load [_, _] hframe
  have hesp : c.mem.load (c.regs .esp + 12#32) = r.cpu.regs .esp :=
    Cpu.Stack.load [_, _, _] hframe
  have hss : c.mem.load (c.regs .esp + 16#32) = r.ss.setWidth 32 :=
    Cpu.Stack.load [_, _, _, _] hframe
  refine ⟨?_, ?_, ?_⟩
  · apply UserState.ext
    · funext reg
      show (c.setEsp _).regs reg = r.cpu.regs reg
      rw [Cpu.setEsp, hesp]
      dsimp only
      by_cases h : reg = .esp
      · rw [h, Function.update_self]
      · rw [Function.update_of_ne h, hregs, enter_regs_of_ne esp0 r h]
    · exact hsegs.trans (enter_segs esp0 r)
    · exact heflags
    · exact heip
    · funext a
      exact hmem a a.property
  · show (c.mem.load (c.regs .esp + 4#32)).setWidth 16 = r.cs
    rw [hcs]
    exact BitVec.setWidth_setWidth_of_le _ (by decide)
  · show (c.mem.load (c.regs .esp + 16#32)).setWidth 16 = r.ss
    rw [hss]
    exact BitVec.setWidth_setWidth_of_le _ (by decide)

end Running

end Zeos.Machine
