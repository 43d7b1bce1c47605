import Zeos.Sys
import Zeos.SystemCall

/-!
# System calls from user mode (`libc_sys.S`, `libc.c`)

The wrappers `write` and `gettime` are lists of instructions, copied from the
assembly text with the macros `SYSCALL` and `CHECK_ERROR` as lists of their own.
What lies behind their `sysenter` is `sysenterThrough`: a run of
`syscall_handler` on the kernel stack, up to its `sysexit`.

The variable `errno` is kept in the component `world` of the processor, and
`set_errno` writes it there.

`exec_syscall` follows the macro `SYSCALL` through the kernel and back, and
`write_correct` the whole wrapper.

The service may be any function that keeps to the C calling convention and leaves `errno`
alone.  Two things beyond it are load-bearing: the kernel's stack lies below the user's
memory and has room for the frames (`System`), and the service leaves alone the twenty
bytes in which the wrapper has its frame.  The second is asked only of the call that is
made (`ServiceCall`), with the stack pointer at the handler's arguments, so that a
compiled routine, which stores below its stack pointer, meets it as it is.  The second
part of `write_correct` is about `sys_write`: each of its errors has a message.
-/

namespace Zeos

open Machine

/-! ## The code -/

/-- The labels of `libc_sys.S`. -/
inductive LibcLabel
  | sysRet4 | errFi4 | sysRet10 | errFi10
  deriving DecidableEq, Repr

/-- The symbols that `libc_sys.S` is linked with. -/
inductive LibcSymbol
  | setErrno
  deriving DecidableEq, Repr

/-- Code of `libc_sys.S`. -/
abbrev LibcCode := List (Instr LibcLabel LibcSymbol)

section Code

open Instr Operand

/-- `CHECK_ERROR`. -/
def checkError (errFi : LibcLabel) : LibcCode :=
  [cmpl 0#32 .eax, jge errFi, pushl (reg .eax), call .setErrno, addl 4#32 .esp,
    movl (imm (-1)) (reg .eax), label errFi]

/-- `SYSCALL`. -/
def syscall (sysid : DWord) (sysRet errFi : LibcLabel) : LibcCode :=
  [movl (imm sysid) (reg .eax), pushLabel sysRet, pushl (reg .ebp),
    movl (reg .esp) (reg .ebp), sysenter, label sysRet, popl (reg .ebp),
    addl 4#32 .esp] ++ checkError errFi

/-- `write`. -/
def write : LibcCode :=
  [pushl (reg .ebp), movl (reg .esp) (reg .ebp), pushl (reg .ebx),
    movl (mem 8#32 .ebp) (reg .edx), movl (mem 12#32 .ebp) (reg .ecx),
    movl (mem 16#32 .ebp) (reg .ebx)] ++
    syscall 4#32 .sysRet4 .errFi4 ++ [popl (reg .ebx), popl (reg .ebp), ret]

/-- `gettime`. -/
def gettime : LibcCode :=
  [pushl (reg .ebp), movl (reg .esp) (reg .ebp)] ++
    syscall 10#32 .sysRet10 .errFi10 ++ [popl (reg .ebp), ret]

end Code

/-! ## `errno` -/

/-- The part of the state that neither the wrappers nor the handlers touch
themselves. -/
structure World (K : Type*) where
  errno : DWord
  kernel : K

variable {K : Type*}

/-- `set_errno`, which is called with the negative result of the service. -/
def setErrno (value : DWord) (w : World K) : World K := { w with errno := -value }

/-- `errno_message`. -/
def errnoMessage : List String := [
  "", "", "", "", "", "", "", "",
  "", "Bad file number", "", "", "", "Permission denied", "Bad address", "",
  "", "", "", "", "", "", "Invalid argument", "",
  "", "", "", "", "", "", "", "",
  "", "", "", "", "", "", "Function not implemented", "",
  "", "", "", "", "", "", "", "",
  "", "", "", "", "", "", "", "",
  "", "", "", "", "", "", "", "",
  "", "", "", "", "", "", "", "",
  "", "", "", "", "", "", "", "",
  "", "", "", "", "", "", "", "",
  "", "", "", "", "", "", "", "",
  "", "", "", "", "", "", "", "",
  "", "", "", "", "", "", "", "",
  "", "", "", "", "", "", "", "",
  "", "", "", "", "", "", "", ""]

/-- The text that `perror` prints, if `errno` lies within the table. -/
def perror (w : World K) : Option String := errnoMessage[w.errno.toNat]?

/-! ## The privilege switch -/

/-- `sysenter` and everything up to the return to user mode: the handler runs on
the stack `esp0` with interrupts disabled, and its `sysexit` resumes at `edx` with
the stack pointer from `ecx`. -/
def sysenterThrough (kernel : Env EntryLabel EntrySymbol (World K)) (esp0 : Addr)
    (c : Cpu (World K)) : Option (Addr × Cpu (World K)) :=
  match exec kernel syscallHandler none
    { c.setEsp esp0 with eflags := withBit c.eflags ifBit false } with
  | some (.sysexit, c') => some (c'.regs .edx, c'.setEsp (c'.regs .ecx))
  | _ => none

/-- A kernel and a C library that are linked with each other, and what the code of
the two macros relies on: the kernel stack has room for the frames and lies below
the user's memory, and the routines follow the calling convention, with three
arguments for a service and one for `set_errno`. -/
structure System (K : Type*) where
  kernel : Env EntryLabel EntrySymbol (World K)
  libc : Env LibcLabel LibcSymbol (World K)
  esp0 : Addr
  sysenter : libc.sysenter = sysenterThrough kernel esp0
  room : 64 ≤ esp0.toNat
  below : esp0.toNat ≤ lUserStart
  service : ∀ a, Cdecl 3 16 (kernel.routine a)
  service_errno : ∀ a c, (kernel.routine a c).world.errno = c.world.errno
  setErrno : Cdecl 1 4 (libc.routine (libc.symbol .setErrno))
  setErrno_world : ∀ c, (libc.routine (libc.symbol .setErrno) c).world =
    Zeos.setErrno c.top c.world

section Wrapper

variable (S : System K)

/-- What the caller of a wrapper finds for the result `r` of the kernel. -/
def Reported (r : DWord) (c c' : Cpu (World K)) : Prop :=
  (0 ≤ r.toInt → c'.regs .eax = r ∧ c'.world.errno = c.world.errno) ∧
    (r.toInt < 0 → c'.regs .eax = -1 ∧ c'.world.errno = -r)

/-! ### The error check -/

/-- A result that is not negative is passed on. -/
theorem exec_checkError_of_nonneg (errFi : LibcLabel) (rest : LibcCode) {c : Cpu (World K)}
    (hnonneg : ¬ (c.regs .eax).slt 0#32) :
    exec S.libc (checkError errFi ++ rest) none c =
      exec S.libc rest none { c with eflags := cmpFlags c.eflags (c.regs .eax) 0#32 } := by
  simp [checkError, exec, hnonneg]

/-- The call of `set_errno`, with a negative result as its argument. -/
def callSetErrno (c : Cpu (World K)) : Cpu (World K) :=
  S.libc.routine (S.libc.symbol .setErrno)
    (Cpu.push { c with eflags := cmpFlags c.eflags (c.regs .eax) 0#32 } (c.regs .eax))

/-- What `set_errno` leaves of the state before the call: its argument is on top of the
stack, and everything behind it and all registers that are preserved are as they
were. -/
theorem callSetErrno_stack {c : Cpu (World K)} {ws : List DWord} (h : c.Stack ws)
    (hlen : ws.length ≤ 3) : ∃ w, (callSetErrno S c).Stack (w :: ws) ∧
      (callSetErrno S c).regs .esp + 4#32 = c.regs .esp ∧
      (callSetErrno S c).world = Zeos.setErrno (c.regs .eax) c.world := by
  have hpush : (Cpu.push { c with eflags := cmpFlags c.eflags (c.regs .eax) 0#32 }
      (c.regs .eax)).Stack (c.regs .eax :: ws) :=
    Cpu.push_stack (c := { c with eflags := _ }) _ h (by omega)
  refine ⟨_, S.setErrno.stack [c.regs .eax] hpush rfl (by omega), ?_, ?_⟩
  · rw [callSetErrno, S.setErrno.esp, Cpu.push_regs_esp]
    exact BitVec.sub_add_cancel _ _
  · have htop := hpush.top
    rw [callSetErrno, S.setErrno_world, htop]
    rfl

/-- A negative result goes to `errno`, and -1 is passed on. -/
theorem exec_checkError_of_neg (errFi : LibcLabel) (rest : LibcCode) {c : Cpu (World K)}
    {ws : List DWord} (h : c.Stack ws) (hlen : ws.length ≤ 3)
    (hneg : (c.regs .eax).slt 0#32) :
    ∃ c', exec S.libc (checkError errFi ++ rest) none c = exec S.libc rest none c' ∧
      c'.Stack ws ∧ c'.regs .esp = c.regs .esp ∧
      (∀ r ∈ calleeSaved, c'.regs r = c.regs r) ∧ c'.calls = c.calls ∧
      c'.regs .eax = -1 ∧ c'.world = Zeos.setErrno (c.regs .eax) c.world := by
  obtain ⟨w, hstack, hesp, hworld⟩ := callSetErrno_stack S h hlen
  have hsaved : ∀ r ∈ calleeSaved, (callSetErrno S c).regs r = c.regs r := by
    intro r hr
    have hne : r ≠ .esp := by
      rintro rfl
      exact absurd hr (by decide)
    rw [callSetErrno, S.setErrno.saved _ r hr, Cpu.push_regs_of_ne _ _ hne]
  have hcalls : (callSetErrno S c).calls = c.calls := S.setErrno.calls _
  have hrun : exec S.libc (checkError errFi ++ rest) none c = exec S.libc rest none
      (Cpu.write { (callSetErrno S c).setEsp ((callSetErrno S c).regs .esp + 4#32) with
        eflags := arithFlags (callSetErrno S c).eflags ((callSetErrno S c).regs .esp + 4#32)
          (((callSetErrno S c).regs .esp).saddOverflow 4#32) } (.reg .eax) (-1)) := by
    simp only [checkError, List.cons_append, List.nil_append, exec, isLess_cmpFlags, hneg,
      if_true, Cpu.read]
    rfl
  -- of the call only the convention matters
  generalize callSetErrno S c = c₂ at *
  refine ⟨_, hrun, ?_, ?_, fun r hr => ?_, hcalls, ?_, hworld⟩
  · have hrest : c₂.mem.HasWords (c₂.regs .esp + 4#32) ws := hstack.2
    simpa [Cpu.Stack, Cpu.write, Cpu.setEsp] using hrest
  · simp [Cpu.write, Cpu.setEsp, hesp]
  · have hne : r ≠ .eax ∧ r ≠ .esp := by
      constructor <;> rintro rfl <;> exact absurd hr (by decide)
    simp [Cpu.write, Cpu.setEsp, hne, hsaved r hr]
  · simp [Cpu.write]

/-- `CHECK_ERROR` turns a negative result into -1 and `errno`, and leaves the
stack and the registers alone. -/
theorem exec_checkError (errFi : LibcLabel) (rest : LibcCode) {c : Cpu (World K)}
    {ws : List DWord} (h : c.Stack ws) (hlen : ws.length ≤ 3) :
    ∃ c', exec S.libc (checkError errFi ++ rest) none c = exec S.libc rest none c' ∧
      c'.Stack ws ∧ c'.regs .esp = c.regs .esp ∧
      (∀ r ∈ calleeSaved, c'.regs r = c.regs r) ∧ c'.calls = c.calls ∧
      c'.world.kernel = c.world.kernel ∧ Reported (c.regs .eax) c c' := by
  have hslt : (c.regs .eax).slt 0#32 ↔ (c.regs .eax).toInt < 0 := by
    rw [BitVec.slt_iff_toInt_lt, BitVec.toInt_zero]
  by_cases hneg : (c.regs .eax).slt 0#32
  · obtain ⟨c', hrun, hstack, hesp, hsaved, hcalls, heax, hworld⟩ :=
      exec_checkError_of_neg S errFi rest h hlen hneg
    have herrno : c'.world.errno = -(c.regs .eax) := by rw [hworld]; rfl
    have hkernel : c'.world.kernel = c.world.kernel := by rw [hworld]; rfl
    refine ⟨c', hrun, hstack, hesp, hsaved, hcalls, hkernel, fun hge => ?_,
      fun _ => ⟨heax, herrno⟩⟩
    have hlt := hslt.mp hneg
    omega
  · refine ⟨_, exec_checkError_of_nonneg S errFi rest hneg, h, rfl, fun _ _ => rfl, rfl, rfl,
      fun _ => ⟨rfl, rfl⟩, fun hlt => ?_⟩
    exact absurd (hslt.mpr hlt) hneg

/-! ### The kernel -/

/-- The result of the service routine that is called in state `s` by number
`sysid`. -/
def result (sysid : DWord) (s : Cpu (World K)) : DWord :=
  (S.kernel.routine (s.mem.load (S.kernel.slot .sysCallTable sysid)) s).regs .eax

/-- `s` is a call of a service routine with the words `args` on its stack, made for
a program in state `c`: the program's memory is as the program left it, `below`
bytes under its stack pointer apart. -/
structure CalledFor (args : List DWord) (below : ℕ) (c s : Cpu (World K)) : Prop where
  args : s.Stack args
  world : s.world = c.world
  mem : ∀ a : Addr, lUserStart ≤ a.toNat →
    below ≤ (a - (c.regs .esp - BitVec.ofNat 32 below)).toNat → s.mem a = c.mem a

/-- `s` is a state in which `syscall_handler` calls a service routine for a program in state
`c`: the routine is called on the kernel's stack, and of the memory below the user's at most
the words of the handler's frames differ. -/
structure ServiceCall (c s : Cpu (World K)) : Prop where
  esp : s.regs .esp = S.esp0 - 64#32
  mem : ∀ a : Addr, a.toNat < lUserStart → 64 ≤ (a - (S.esp0 - 64#32)).toNat → s.mem a = c.mem a

/-- The call of the service routine in state `s`, from the kernel's side: the routine is
called with the kernel's memory as it was, and the state that it leaves to the kernel is
that after the system call. -/
structure KernelSide (sysid : DWord) (c s c' : Cpu (World K)) : Prop where
  call : ServiceCall S c s
  world : c'.world.kernel = (S.kernel.routine
    (s.mem.load (S.kernel.slot .sysCallTable sysid)) s).world.kernel

/-- The state in which `syscall_handler` is entered. -/
def enterKernel (c : Cpu (World K)) : Cpu (World K) :=
  { c.setEsp S.esp0 with eflags := withBit c.eflags ifBit false }

@[simp] theorem enterKernel_regs_esp (c : Cpu (World K)) :
    (enterKernel S c).regs .esp = S.esp0 := by
  simp [enterKernel, Cpu.setEsp]

theorem enterKernel_regs_of_ne (c : Cpu (World K)) {r : Reg} (hr : r ≠ .esp) :
    (enterKernel S c).regs r = c.regs r := by
  simp [enterKernel, Cpu.setEsp, hr]

@[simp] theorem enterKernel_mem (c : Cpu (World K)) : (enterKernel S c).mem = c.mem := rfl

@[simp] theorem enterKernel_calls (c : Cpu (World K)) :
    (enterKernel S c).calls = c.calls := rfl

@[simp] theorem enterKernel_world (c : Cpu (World K)) :
    (enterKernel S c).world = c.world := rfl

/-- User memory lies apart from the frames on the kernel stack. -/
theorem frames_apart {a : Addr} (ha : lUserStart ≤ a.toNat) :
    64 ≤ (a - (S.esp0 - 64#32)).toNat := by
  have hroom := S.room
  have hbelow := S.below
  simp only [lUserStart] at ha hbelow
  bv_omega

/-- A block that begins in user memory and does not wrap stays there. -/
theorem user_add {a : Addr} {n i : ℕ} (hlow : lUserStart ≤ a.toNat)
    (hhigh : a.toNat + n ≤ 2 ^ 32) (hi : i < n) :
    lUserStart ≤ (a + BitVec.ofNat 32 i).toNat := by
  simp only [lUserStart] at hlow ⊢
  bv_omega

/-- The handler finds the address to resume at behind the word that `ebp` points
to. -/
theorem returnAddress_enterKernel {c : Cpu (World K)} {fp eip : DWord} {ws : List DWord}
    (hesp : c.regs .ebp = c.regs .esp) (h : c.Stack (fp :: eip :: ws))
    (hlow : lUserStart ≤ (c.regs .esp).toNat) (hhigh : (c.regs .esp).toNat + 8 ≤ 2 ^ 32) :
    returnAddress (enterKernel S c) = eip := by
  have hebp : (enterKernel S c).regs .ebp = c.regs .esp := by
    rw [enterKernel_regs_of_ne S c (by decide), hesp]
  have hload : returnAddress (enterKernel S c) = c.mem.load (c.regs .esp + 4#32) := by
    rw [← hebp]
    refine Bytes.load_congr fun i hi => ?_
    have hout := frames_apart S (user_add hlow hhigh (by omega : 4 + i < 8))
    refine Cpu.pushAll_mem (enterKernel S c)
      [userDs, (enterKernel S c).regs .ebp, (enterKernel S c).eflags, userCs] (by simp) ?_
    rw [hebp, BitVec.add_assoc, ← BitVec.ofNat_add, enterKernel_regs_esp]
    simp only [List.length_cons, List.length_nil]
    bv_omega
  rw [hload]
  exact h.2.1

/-- What a run of the handler leaves: memory apart from its own stack and from what
the service routine stores, and the record of the one call it makes. -/
theorem exists_fastReturn {c : Cpu (World K)}
    (hid : (c.regs .eax).toNat ≤ sysCallTable.length) :
    ∃ s c', exec S.kernel syscallHandler none (enterKernel S c) = some (.sysexit, c') ∧
      FastReturn S.kernel (enterKernel S c) c' ∧
      CalledFor [c.regs .edx, c.regs .ecx, c.regs .ebx] 0 c s ∧
      (fastService S.kernel (enterKernel S c)).regs .eax = result S (c.regs .eax) s ∧
      (∀ a : Addr, lUserStart ≤ a.toNat →
        (S.kernel.routine (s.mem.load (S.kernel.slot .sysCallTable (c.regs .eax))) s).mem a =
          s.mem a → c'.mem a = c.mem a) ∧
      c'.calls = (S.kernel.slot .sysCallTable (c.regs .eax), result S (c.regs .eax) s) ::
        c.calls ∧
      c'.world.errno = c.world.errno ∧ KernelSide S (c.regs .eax) c s c' := by
  have heax : (enterKernel S c).regs .eax = c.regs .eax :=
    enterKernel_regs_of_ne S c (by decide)
  obtain ⟨s, hs⟩ := exists_fastCall S.kernel (enterKernel S c) (by rw [heax]; exact hid)
  obtain ⟨c', hexec, hreturn⟩ := fastReturn_syscallHandler S.kernel S.service (enterKernel S c)
  have hsesp : (fastService S.kernel (enterKernel S c)).regs .esp = S.esp0 - 64#32 := by
    rw [hs.service, ← enterKernel_regs_esp S c, ← hs.esp]
    exact (S.service _).esp s
  have hresult : (fastService S.kernel (enterKernel S c)).regs .eax =
      result S (c.regs .eax) s := by
    rw [hs.service, heax]
    rfl
  -- the handler's frames are the 64 bytes below `esp0`, other memory is the caller's
  have hoff : ∀ a : Addr, 64 ≤ (a - (S.esp0 - 64#32)).toNat → s.mem a = c.mem a := by
    intro a hout
    rw [← enterKernel_regs_esp S c] at hout
    rw [hs.mem a hout, enterKernel_mem]
  have hsmem : ∀ a : Addr, lUserStart ≤ a.toNat → s.mem a = c.mem a :=
    fun a ha => hoff a (frames_apart S ha)
  have hworld : c'.world =
      (S.kernel.routine (s.mem.load (S.kernel.slot .sysCallTable (c.regs .eax))) s).world := by
    rw [hreturn.world, hs.service, heax]
  refine ⟨s, c', hexec, hreturn, ⟨?_, hs.world, fun a ha _ => hsmem a ha⟩, hresult,
    fun a ha hkeep => ?_, ?_, ?_, ⟨?_, fun a _ hout => hoff a hout⟩, congrArg World.kernel hworld⟩
  · rw [← enterKernel_regs_of_ne S c (by decide : Reg.edx ≠ .esp),
      ← enterKernel_regs_of_ne S c (by decide : Reg.ecx ≠ .esp),
      ← enterKernel_regs_of_ne S c (by decide : Reg.ebx ≠ .esp)]
    exact hs.args
  · rw [hreturn.mem, storeResult_mem _ (by rw [hsesp]; exact frames_apart S ha), hs.service,
      heax]
    exact hkeep.trans (hsmem a ha)
  · rw [hreturn.calls, ← hresult, hs.service, heax]
    simp only [(S.service _).calls, hs.calls, enterKernel_calls]
  · rw [hworld, S.service_errno, hs.world, enterKernel_world]
  · rw [hs.esp, enterKernel_regs_esp]

/-- A property of the registers that a system call saves. -/
theorem forall_saved {P : Reg → Prop} (hesp : P .esp) (hebp : P .ebp) (hesi : P .esi)
    (hedi : P .edi) : ∀ r ∈ [Reg.esp, .ebp, .esi, .edi], P r := by
  simp only [List.forall_mem_cons]
  exact ⟨hesp, hebp, hesi, hedi, List.forall_mem_nil P⟩

/-- **Through the kernel and back.**  With `ebp` at a saved word that is followed by
the address to resume at, `sysenter` resumes there with the stack pointer back at
`ebp`, and leaves the words behind alone as long as the service routine does. -/
theorem sysenter_return {c : Cpu (World K)} {ws : List DWord} {fp eip : DWord}
    (hid : (c.regs .eax).toNat ≤ sysCallTable.length)
    (hesp : c.regs .ebp = c.regs .esp) (h : c.Stack (fp :: eip :: ws))
    (hlow : lUserStart ≤ (c.regs .esp).toNat)
    (hhigh : (c.regs .esp).toNat + 4 * (ws.length + 2) ≤ 2 ^ 32)
    (hkeep : ∀ s, ServiceCall S c s → ∀ i < 4 * (ws.length + 2),
      (S.kernel.routine (s.mem.load (S.kernel.slot .sysCallTable (c.regs .eax))) s).mem
          (c.regs .esp + BitVec.ofNat 32 i) =
        s.mem (c.regs .esp + BitVec.ofNat 32 i)) :
    ∃ s c', S.libc.sysenter c = some (eip, c') ∧ c'.Stack (fp :: eip :: ws) ∧
      CalledFor [c.regs .edx, c.regs .ecx, c.regs .ebx] 0 c s ∧
      c'.regs .eax = result S (c.regs .eax) s ∧
      (∀ r ∈ [Reg.esp, .ebp, .esi, .edi], c'.regs r = c.regs r) ∧
      c'.calls =
        (S.kernel.slot .sysCallTable (c.regs .eax), c'.regs .eax) :: c.calls ∧
      c'.world.errno = c.world.errno ∧ KernelSide S (c.regs .eax) c s c' := by
  obtain ⟨s, c₁, hexec, hreturn, hcalled, hresult, hmemory, hcalls, herrno, hkernel⟩ :=
    exists_fastReturn S hid
  have hregs : ∀ r, r ≠ .esp → (enterKernel S c).regs r = c.regs r :=
    fun r hr => enterKernel_regs_of_ne S c hr
  have hebp : (enterKernel S c).regs .ebp = c.regs .esp := by
    rw [hregs .ebp (by decide), hesp]
  have heip : returnAddress (enterKernel S c) = eip :=
    returnAddress_enterKernel S hesp h hlow (by omega)
  have hmem : ∀ i < 4 * (ws.length + 2),
      c₁.mem (c.regs .esp + BitVec.ofNat 32 i) = c.mem (c.regs .esp + BitVec.ofNat 32 i) :=
    fun i hi => hmemory _ (user_add hlow hhigh hi) (hkeep s hkernel.call i hi)
  refine ⟨s, c₁.setEsp (c₁.regs .ecx), ?_, ?_, hcalled, ?_, ?_, ?_, herrno,
    hkernel.call, hkernel.world⟩
  · have hrun : exec S.kernel syscallHandler none
        { c.setEsp S.esp0 with eflags := withBit c.eflags ifBit false } =
          some (.sysexit, c₁) := hexec
    rw [S.sysenter, sysenterThrough, hrun]
    simp only [hreturn.regs, heip]
  · have hstack : c₁.mem.HasWords _ _ := h.congr fun i hi => hmem i (by simpa using hi)
    simpa [Cpu.Stack, Cpu.setEsp, hreturn.regs, hebp] using hstack
  · simp [Cpu.setEsp, hreturn.regs, hresult]
  · apply forall_saved
    · simp [Cpu.setEsp, hreturn.regs, hebp]
    · simp [Cpu.setEsp, hreturn.regs, hregs]
    · simp [Cpu.setEsp, hreturn.regs, hregs]
    · simp [Cpu.setEsp, hreturn.regs, hregs]
  · simp [Cpu.setEsp, hreturn.regs, hcalls, hresult]

/-! ### The wrappers -/

/-- A system call `sysid` has been made from `c`, by a call of its service routine in
state `s`, and has come back in `c'`.  The wrapper has used `below` bytes under the
stack pointer. -/
structure Syscall (sysid : DWord) (args : List DWord) (below : ℕ)
    (c s c' : Cpu (World K)) : Prop where
  called : CalledFor args below c s
  calls : c'.calls = (S.kernel.slot .sysCallTable sysid, result S sysid s) :: c.calls
  saved : ∀ r ∈ [Reg.esp, .ebp, .esi, .edi], c'.regs r = c.regs r
  reported : Reported (result S sysid s) c c'

/-- What has been pushed before a call lies below the stack pointer as well. -/
theorem CalledFor.of_frame {args : List DWord} {n : ℕ} {c c₁ s : Cpu (World K)}
    (h : CalledFor args 8 c₁ s) (hn : n + 8 ≤ 2 ^ 32)
    (hesp : c₁.regs .esp = c.regs .esp - BitVec.ofNat 32 n)
    (hmem : ∀ a, n ≤ (a - (c.regs .esp - BitVec.ofNat 32 n)).toNat → c₁.mem a = c.mem a)
    (hworld : c₁.world = c.world) : CalledFor args (n + 8) c s where
  args := h.args
  world := h.world.trans hworld
  mem := fun a ha hout => by
    have hout₁ : 8 ≤ (a - (c₁.regs .esp - BitVec.ofNat 32 8)).toNat := by
      rw [hesp]
      bv_omega
    rw [h.mem a ha hout₁]
    exact hmem a (by bv_omega)

/-- A system call within a frame: the wrapper pushes `n` bytes before it, and behind it
pops them and leaves `eax` alone. -/
theorem Syscall.of_frame {sysid : DWord} {args : List DWord} {n : ℕ}
    {c c₁ s c₂ c' : Cpu (World K)} (h : Syscall S sysid args 8 c₁ s c₂) (hn : n + 8 ≤ 2 ^ 32)
    (hesp : c₁.regs .esp = c.regs .esp - BitVec.ofNat 32 n)
    (hkept : ∀ r ∈ [Reg.esi, .edi], c₁.regs r = c.regs r)
    (hmem : ∀ a, n ≤ (a - (c.regs .esp - BitVec.ofNat 32 n)).toNat → c₁.mem a = c.mem a)
    (hcalls : c₁.calls = c.calls) (hworld : c₁.world = c.world)
    (hesp' : c'.regs .esp = c₂.regs .esp + BitVec.ofNat 32 n)
    (hebp' : c'.regs .ebp = c.regs .ebp)
    (hkept' : ∀ r ∈ [Reg.eax, .esi, .edi], c'.regs r = c₂.regs r)
    (hcalls' : c'.calls = c₂.calls) (hworld' : c'.world = c₂.world) :
    Syscall S sysid args (n + 8) c s c' where
  called := h.called.of_frame hn hesp hmem hworld
  calls := by rw [hcalls', h.calls, hcalls]
  saved := by
    apply forall_saved
    · rw [hesp', h.saved .esp (by simp), hesp, BitVec.sub_add_cancel]
    · exact hebp'
    · rw [hkept' .esi (by simp), h.saved .esi (by simp), hkept .esi (by simp)]
    · rw [hkept' .edi (by simp), h.saved .edi (by simp), hkept .edi (by simp)]
  reported := by
    have hreported := h.reported
    rwa [Reported, hworld, ← hworld', ← hkept' .eax (by simp)] at hreported

/-- The state in which `SYSCALL` executes `sysenter`. -/
def atSysenter (sysid : DWord) (sysRet : LibcLabel) (c : Cpu (World K)) : Cpu (World K) :=
  let c := c.write (.reg .eax) sysid
  let c := c.pushAll [S.libc.address sysRet, c.regs .ebp]
  c.write (.reg .ebp) (c.regs .esp)

theorem atSysenter_regs (sysid : DWord) (sysRet : LibcLabel) (c : Cpu (World K)) :
    (atSysenter S sysid sysRet c).regs = fun
      | .eax => sysid
      | .esp => c.regs .esp - 8#32
      | .ebp => c.regs .esp - 8#32
      | r => c.regs r := by
  funext r
  cases r <;> simp [atSysenter, Cpu.write, Cpu.push, BitVec.sub_sub]

theorem atSysenter_mem (sysid : DWord) (sysRet : LibcLabel) (c : Cpu (World K))
    {a : Addr} (h : 8 ≤ (a - (c.regs .esp - 8#32)).toNat) :
    (atSysenter S sysid sysRet c).mem a = c.mem a :=
  Cpu.pushAll_mem (c.write (.reg .eax) sysid) [S.libc.address sysRet, c.regs .ebp]
    (by simp) (by simpa [Cpu.write] using h)

theorem atSysenter_stack (sysid : DWord) (sysRet : LibcLabel) {c : Cpu (World K)}
    {ws : List DWord} (h : c.Stack ws) (hlen : ws.length ≤ 3) :
    (atSysenter S sysid sysRet c).Stack (c.regs .ebp :: S.libc.address sysRet :: ws) := by
  have hpush : ((c.write (.reg .eax) sysid).pushAll
      [S.libc.address sysRet, c.regs .ebp]).Stack
        (c.regs .ebp :: S.libc.address sysRet :: ws) :=
    Cpu.pushAll_stack [S.libc.address sysRet, c.regs .ebp]
      (by simpa [Cpu.Stack, Cpu.write] using h) (by
        simp only [List.length_cons, List.length_nil]
        omega)
  simpa [Cpu.Stack, atSysenter, Cpu.write] using hpush

/-- The state behind the label: the saved word is popped into `ebp` and the address to
resume at is dropped. -/
def leaveSysenter (c : Cpu (World K)) : Cpu (World K) :=
  { (c.pop (.reg .ebp)).setEsp ((c.pop (.reg .ebp)).regs .esp + 4#32) with
    eflags := arithFlags c.eflags ((c.pop (.reg .ebp)).regs .esp + 4#32)
      (((c.pop (.reg .ebp)).regs .esp).saddOverflow 4#32) }

theorem exec_leaveSysenter (sysRet : LibcLabel) (rest : LibcCode) {c c' : Cpu (World K)}
    (h : S.libc.sysenter c = some (S.libc.address sysRet, c')) :
    exec S.libc ([.sysenter, .label sysRet, .popl (.reg .ebp), .addl 4#32 .esp] ++ rest)
      none c = exec S.libc rest none (leaveSysenter c') := by
  simp only [List.cons_append, List.nil_append, exec, h, S.libc.labelAt_address, if_true]
  rfl

theorem leaveSysenter_spec {c : Cpu (World K)} {fp eip : DWord} {ws : List DWord}
    (h : c.Stack (fp :: eip :: ws)) :
    (leaveSysenter c).Stack ws ∧ (leaveSysenter c).calls = c.calls ∧
      (leaveSysenter c).world = c.world ∧
      (leaveSysenter c).regs = fun
        | .esp => c.regs .esp + 8#32
        | .ebp => fp
        | r => c.regs r := by
  have htarget : Cpu.PopTarget (.reg .ebp) := by simp [Cpu.PopTarget]
  obtain ⟨hpop, hstack⟩ := Cpu.pop_stack h htarget
  refine ⟨?_, rfl, rfl, ?_⟩
  · simpa [Cpu.Stack, leaveSysenter, Cpu.setEsp] using hstack.2
  · funext r
    cases r <;> simp [leaveSysenter, hpop, Cpu.setEsp, Cpu.write, BitVec.add_assoc]

/-- **A run of `SYSCALL`.**  The words `ws` on the stack are those that the service
routine has to leave alone. -/
theorem exec_syscall (sysid : DWord) (hid : sysid.toNat ≤ sysCallTable.length)
    (sysRet errFi : LibcLabel) (rest : LibcCode) {c : Cpu (World K)} {ws : List DWord}
    (h : c.Stack ws) (hlen : ws.length ≤ 3)
    (hlow : lUserStart + 8 ≤ (c.regs .esp).toNat)
    (hhigh : (c.regs .esp).toNat + 4 * ws.length ≤ 2 ^ 32)
    (hkeep : ∀ s, ServiceCall S c s → ∀ i < 4 * (ws.length + 2),
      (S.kernel.routine (s.mem.load (S.kernel.slot .sysCallTable sysid)) s).mem
          (c.regs .esp - 8#32 + BitVec.ofNat 32 i) =
        s.mem (c.regs .esp - 8#32 + BitVec.ofNat 32 i)) :
    ∃ s c', exec S.libc (syscall sysid sysRet errFi ++ rest) none c =
        exec S.libc rest none c' ∧ c'.Stack ws ∧
      Syscall S sysid [c.regs .edx, c.regs .ecx, c.regs .ebx] 8 c s c' ∧
      KernelSide S sysid c s c' := by
  have hregs := atSysenter_regs S sysid sysRet c
  have hstack := atSysenter_stack S sysid sysRet h hlen
  have hmem := fun a => atSysenter_mem S sysid sysRet c (a := a)
  have hrun : exec S.libc (syscall sysid sysRet errFi ++ rest) none c =
      exec S.libc ([.sysenter, .label sysRet, .popl (.reg .ebp), .addl 4#32 .esp] ++
        (checkError errFi ++ rest)) none (atSysenter S sysid sysRet c) := by
    simp [syscall, exec, atSysenter, Cpu.read]
  have hcalls : (atSysenter S sysid sysRet c).calls = c.calls := rfl
  have hworld : (atSysenter S sysid sysRet c).world = c.world := rfl
  generalize atSysenter S sysid sysRet c = c₁ at *
  have hsub : (c.regs .esp - 8#32).toNat = (c.regs .esp).toNat - 8 := by
    simp only [lUserStart] at hlow
    bv_omega
  -- the two words pushed lie in the user's memory
  have hkernel : ∀ s, ServiceCall S c₁ s → ServiceCall S c s := by
    refine fun s hs => ⟨hs.esp, fun a ha hout => ?_⟩
    rw [hs.mem a ha hout, hmem a (by bv_omega)]
  -- into the kernel and back to the label
  obtain ⟨s, c₂, hsysenter, hstack₂, hcalled, heax, hsaved, hcalls₂, herrno, hside⟩ :=
    sysenter_return S (c := c₁) (by simpa [hregs] using hid) (by simp [hregs]) hstack
      (by simp only [hregs, hsub]; omega) (by simp only [hregs, hsub]; omega)
      (by simpa only [hregs] using fun s hs => hkeep s (hkernel s hs))
  have hrun₂ := exec_leaveSysenter S sysRet (checkError errFi ++ rest) hsysenter
  obtain ⟨hstack₃, hcalls₃, hworld₃, hregs₃⟩ := leaveSysenter_spec hstack₂
  generalize leaveSysenter c₂ = c₃ at *
  have hesp₃ : c₃.regs .esp = c.regs .esp := by
    simp only [hregs₃, hsaved .esp (by simp), hregs]
    exact BitVec.sub_add_cancel _ _
  have heax₃ : c₃.regs .eax = result S sysid s := by
    simp only [hregs₃, heax, hregs]
  -- the error check, and what is left of the state at the call
  obtain ⟨c', hrun₃, hstack', hesp', hsaved', hcalls', hworld', hreported⟩ :=
    exec_checkError S errFi rest hstack₃ hlen
  refine ⟨s, c', hrun.trans (hrun₂.trans hrun₃), hstack', ⟨⟨?_, ?_, ?_⟩, ?_, ?_, ?_⟩,
    hkernel s hside.call, ?_⟩
  · simpa only [hregs] using hcalled.args
  · exact hcalled.world.trans hworld
  · intro a ha hout
    rw [hcalled.mem a ha (Nat.zero_le _), hmem a hout]
  · rw [hcalls', hcalls₃, hcalls₂, heax, hregs, hcalls]
  · apply forall_saved
    · rw [hesp', hesp₃]
    · rw [hsaved' .ebp (by decide), hregs₃]
    · rw [hsaved' .esi (by decide), hregs₃]
      simp only [hsaved .esi (by simp), hregs]
    · rw [hsaved' .edi (by decide), hregs₃]
      simp only [hsaved .edi (by simp), hregs]
  · have herrno₃ : c₃.world.errno = c.world.errno := by rw [hworld₃, herrno, hworld]
    rw [heax₃] at hreported
    exact ⟨fun hge => ⟨(hreported.1 hge).1, (hreported.1 hge).2.trans herrno₃⟩, hreported.2⟩
  · rw [hworld', hworld₃, hside.world]
    simp only [hregs]

/-! ### `write` -/

/-- The state with the frame of `write` on the stack. -/
def enterWrite (c : Cpu (World K)) : Cpu (World K) :=
  ((c.push (c.regs .ebp)).write (.reg .ebp) (c.regs .esp - 4#32)).push (c.regs .ebx)

/-- The state with the arguments in the registers. -/
def loadArgs (c : Cpu (World K)) (fd buffer size : DWord) : Cpu (World K) :=
  ((c.write (.reg .edx) fd).write (.reg .ecx) buffer).write (.reg .ebx) size

theorem exec_enterWrite (rest : LibcCode) (c : Cpu (World K)) :
    exec S.libc ([.pushl (.reg .ebp), .movl (.reg .esp) (.reg .ebp),
      .pushl (.reg .ebx)] ++ rest) none c = exec S.libc rest none (enterWrite c) := by
  simp [exec, Cpu.read, Cpu.write, enterWrite]

theorem enterWrite_regs (c : Cpu (World K)) :
    (enterWrite c).regs = fun
      | .esp => c.regs .esp - 8#32
      | .ebp => c.regs .esp - 4#32
      | r => c.regs r := by
  funext r
  cases r <;> simp [enterWrite, Cpu.write, Cpu.push, BitVec.sub_sub]

theorem enterWrite_mem (c : Cpu (World K)) {a : Addr}
    (h : 8 ≤ (a - (c.regs .esp - 8#32)).toNat) : (enterWrite c).mem a = c.mem a := by
  have hpush : (enterWrite c).mem = (c.pushAll [c.regs .ebp, c.regs .ebx]).mem := by
    simp [enterWrite, Cpu.push, Cpu.write]
  rw [hpush]
  exact Cpu.pushAll_mem c _ (by simp) h

theorem enterWrite_stack {c : Cpu (World K)} {ws : List DWord} (h : c.Stack ws)
    (hlen : ws.length ≤ 4) :
    (enterWrite c).Stack (c.regs .ebx :: c.regs .ebp :: ws) := by
  have hpush : (c.push (c.regs .ebp)).Stack (c.regs .ebp :: ws) :=
    Cpu.push_stack _ h (by omega)
  refine Cpu.push_stack _ ?_ (by simp only [List.length_cons]; omega)
  simpa [Cpu.Stack, Cpu.write] using hpush

/-- The arguments lie behind the frame and the return address. -/
theorem exec_loadArgs (rest : LibcCode) {c : Cpu (World K)}
    {ebx ebp ret fd buffer size : DWord} (h : c.Stack [ebx, ebp, ret, fd, buffer, size])
    (hebp : c.regs .ebp = c.regs .esp + 4#32) :
    exec S.libc ([.movl (.mem 8#32 .ebp) (.reg .edx), .movl (.mem 12#32 .ebp) (.reg .ecx),
      .movl (.mem 16#32 .ebp) (.reg .ebx)] ++ rest) none c =
        exec S.libc rest none (loadArgs c fd buffer size) := by
  have hfd : c.mem.load (c.regs .ebp + 8#32) = fd := by
    rw [hebp, BitVec.add_assoc]
    exact Cpu.Stack.load [ebx, ebp, ret] h
  have hbuffer : c.mem.load (c.regs .ebp + 12#32) = buffer := by
    rw [hebp, BitVec.add_assoc]
    exact Cpu.Stack.load [ebx, ebp, ret, fd] h
  have hsize : c.mem.load (c.regs .ebp + 16#32) = size := by
    rw [hebp, BitVec.add_assoc]
    exact Cpu.Stack.load [ebx, ebp, ret, fd, buffer] h
  simp [exec, Cpu.read, Cpu.write, loadArgs, hfd, hbuffer, hsize]

theorem loadArgs_regs (c : Cpu (World K)) (fd buffer size : DWord) :
    (loadArgs c fd buffer size).regs = fun
      | .edx => fd
      | .ecx => buffer
      | .ebx => size
      | r => c.regs r := by
  funext r
  cases r <;> simp [loadArgs, Cpu.write]

/-- The return of `write`, with its frame on the stack. -/
theorem exec_leaveWrite {c : Cpu (World K)} {ebx ebp ret : DWord}
    (h : c.Stack [ebx, ebp, ret]) :
    ∃ c', exec S.libc [.popl (.reg .ebx), .popl (.reg .ebp), .ret] none c = some (.ret, c') ∧
      c'.top = ret ∧ c'.calls = c.calls ∧ c'.world = c.world ∧
      c'.regs = fun
        | .ebx => ebx
        | .ebp => ebp
        | .esp => c.regs .esp + 8#32
        | r => c.regs r := by
  obtain ⟨hpop, hstack⟩ := Cpu.popAll_eq [(.reg .ebx, ebx), (.reg .ebp, ebp)] h
    (by simp [Cpu.PopTarget])
  refine ⟨c.popAll [.reg .ebx, .reg .ebp], rfl, ?_⟩
  have heq : c.popAll [.reg .ebx, .reg .ebp] =
      c.assignAll [(.reg .ebx, ebx), (.reg .ebp, ebp)] := hpop
  rw [heq]
  refine ⟨hstack.top, rfl, rfl, ?_⟩
  funext r
  cases r <;> simp [Cpu.assignAll, Cpu.write, Cpu.setEsp, BitVec.add_assoc]

/-- What `write` does before its `SYSCALL`. -/
theorem exec_writeEntry {c : Cpu (World K)} {ret fd buffer size : DWord}
    (h : c.Stack [ret, fd, buffer, size]) (rest : LibcCode) :
    ∃ c₁, exec S.libc ([.pushl (.reg .ebp), .movl (.reg .esp) (.reg .ebp), .pushl (.reg .ebx),
        .movl (.mem 8#32 .ebp) (.reg .edx), .movl (.mem 12#32 .ebp) (.reg .ecx),
        .movl (.mem 16#32 .ebp) (.reg .ebx)] ++ rest) none c = exec S.libc rest none c₁ ∧
      c₁.Stack [c.regs .ebx, c.regs .ebp, ret] ∧ c₁.mem = (enterWrite c).mem ∧
      c₁.calls = c.calls ∧ c₁.world = c.world ∧
      c₁.regs = fun
        | .edx => fd
        | .ecx => buffer
        | .ebx => size
        | .esp => c.regs .esp - 8#32
        | .ebp => c.regs .esp - 4#32
        | r => c.regs r := by
  have hstack := enterWrite_stack h (by simp)
  have hregs := enterWrite_regs c
  have hregs₁ := loadArgs_regs (enterWrite c) fd buffer size
  refine ⟨loadArgs (enterWrite c) fd buffer size, ?_, ?_, rfl, rfl, rfl, ?_⟩
  · have henter := exec_enterWrite S ([.movl (.mem 8#32 .ebp) (.reg .edx),
      .movl (.mem 12#32 .ebp) (.reg .ecx), .movl (.mem 16#32 .ebp) (.reg .ebx)] ++ rest) c
    have hload := exec_loadArgs S rest hstack (by simp only [hregs]; bv_omega)
    exact henter.trans hload
  · have hfront :=
      ((Bytes.hasWords_append _ _ [c.regs .ebx, c.regs .ebp, ret] _).mp hstack).1
    rw [Cpu.Stack, hregs₁]
    exact hfront
  · rw [hregs₁, hregs]
    funext r
    cases r <;> rfl

/-- **A call of `write` returns to its caller with the kernel's result.** -/
theorem exec_write {c : Cpu (World K)} {ret fd buffer size : DWord}
    (h : c.Stack [ret, fd, buffer, size])
    (hlow : lUserStart + 16 ≤ (c.regs .esp).toNat)
    (hhigh : (c.regs .esp).toNat + 16 ≤ 2 ^ 32)
    (hkeep : ∀ s, ServiceCall S c s → ∀ i < 20,
      (S.kernel.routine (s.mem.load (S.kernel.slot .sysCallTable 4#32)) s).mem
          (c.regs .esp - 16#32 + BitVec.ofNat 32 i) =
        s.mem (c.regs .esp - 16#32 + BitVec.ofNat 32 i)) :
    ∃ s c', exec S.libc write none c = some (.ret, c') ∧ c'.top = ret ∧
      c'.regs .ebx = c.regs .ebx ∧ Syscall S 4#32 [fd, buffer, size] 16 c s c' := by
  have hsub : (c.regs .esp - 8#32).toNat = (c.regs .esp).toNat - 8 := by
    simp only [lUserStart] at hlow
    bv_omega
  obtain ⟨c₁, hentry, hstack₁, hmem₁, hcalls₁, hworld₁, hregs₁⟩ := exec_writeEntry S h
    (syscall 4#32 .sysRet4 .errFi4 ++ [.popl (.reg .ebx), .popl (.reg .ebp), .ret])
  have hrun₁ : exec S.libc write none c =
      exec S.libc (syscall 4#32 .sysRet4 .errFi4 ++
        [.popl (.reg .ebx), .popl (.reg .ebp), .ret]) none c₁ := by
    rw [write, List.append_assoc]
    exact hentry
  -- the words pushed lie in the user's memory
  have hkernel : ∀ s, ServiceCall S c₁ s → ServiceCall S c s := by
    refine fun s hs => ⟨hs.esp, fun a ha hout => ?_⟩
    rw [hs.mem a ha hout, hmem₁]
    exact enterWrite_mem c (by bv_omega)
  obtain ⟨s, c₂, hrun₂, hstack₂, hcall, -⟩ := exec_syscall S 4#32 (by decide)
    .sysRet4 .errFi4 [.popl (.reg .ebx), .popl (.reg .ebp), .ret] hstack₁ le_rfl
    (by simp only [hregs₁, hsub]; omega)
    (by simp only [hregs₁, hsub, List.length_cons, List.length_nil]; omega)
    (by
      have hsp : c₁.regs .esp - 8#32 = c.regs .esp - 16#32 := by
        simp only [hregs₁]
        bv_omega
      rw [hsp]
      exact fun s hs => hkeep s (hkernel s hs))
  obtain ⟨c', hrun', htop, hcalls', hworld', hregs'⟩ := exec_leaveWrite S hstack₂
  have hmem : ∀ a, 8 ≤ (a - (c.regs .esp - 8#32)).toNat → c₁.mem a = c.mem a := by
    intro a hout
    rw [hmem₁]
    exact enterWrite_mem c hout
  have hframe := hcall.of_frame S (n := 8) (by decide) (by rw [hregs₁]) (by simp [hregs₁])
    hmem hcalls₁ hworld₁ (by rw [hregs']) (by rw [hregs']) (by simp [hregs']) hcalls' hworld'
  refine ⟨s, c', hrun₁.trans (hrun₂.trans hrun'), htop, by rw [hregs'], ?_⟩
  simpa only [hregs₁] using hframe

/-- What `sys_write` can return is a count or one of three errors. -/
theorem sysWrite_result {fd : DWord} {buffer : Addr} {size : DWord} {buff : KernelBuffer}
    {ram ram' : Ram} {con con' : Console} {r : ℤ}
    (h : sysWrite fd buffer size buff ram con = some (r, ram', con')) (hr : r < 0) :
    r = -9 ∨ r = -22 ∨ r = -14 := by
  by_cases herr : writeError fd buffer size = 0
  · obtain ⟨ram₁, heq, -⟩ := sysWrite_of_ok buff ram con herr
    obtain ⟨hint, -, -⟩ := userBlock_of_writeError_eq_zero herr
    rw [heq] at h
    have hsize : size.toInt = r := congrArg Prod.fst (Option.some.inj h)
    omega
  · rw [sysWrite_of_error buff ram con herr] at h
    have hcode : writeError fd buffer size = r := congrArg Prod.fst (Option.some.inj h)
    rw [← hcode]
    unfold writeError at *
    grind

/-- There is a text for each error of `sys_write`. -/
theorem perror_sysWrite {r : ℤ} (h : r = -9 ∨ r = -22 ∨ r = -14) (w : World K) :
    ∃ text, perror (setErrno (BitVec.ofInt 32 r) w) = some text ∧ text ≠ "" := by
  rcases h with rfl | rfl | rfl
  · exact ⟨"Bad file number", rfl, by decide⟩
  · exact ⟨"Invalid argument", rfl, by decide⟩
  · exact ⟨"Bad address", rfl, by decide⟩

/-- **`write` is correct end to end**, and every error that `sys_write` reports
through it has a text to print. -/
theorem write_correct {c : Cpu (World K)} {ret fd buffer size : DWord}
    (h : c.Stack [ret, fd, buffer, size])
    (hlow : lUserStart + 16 ≤ (c.regs .esp).toNat)
    (hhigh : (c.regs .esp).toNat + 16 ≤ 2 ^ 32)
    (hkeep : ∀ s, ServiceCall S c s → ∀ i < 20,
      (S.kernel.routine (s.mem.load (S.kernel.slot .sysCallTable 4#32)) s).mem
          (c.regs .esp - 16#32 + BitVec.ofNat 32 i) =
        s.mem (c.regs .esp - 16#32 + BitVec.ofNat 32 i)) :
    (∃ s c', exec S.libc write none c = some (.ret, c') ∧ c'.top = ret ∧
      c'.regs .ebx = c.regs .ebx ∧ Syscall S 4#32 [fd, buffer, size] 16 c s c') ∧
    ∀ fd buffer size buff ram con r ram' con',
      sysWrite fd buffer size buff ram con = some (r, ram', con') → r < 0 →
        ∃ text, perror (setErrno (BitVec.ofInt 32 r) c.world) = some text ∧ text ≠ "" :=
  ⟨exec_write S h hlow hhigh hkeep, fun _ _ _ _ _ _ _ _ _ hsys hr =>
    perror_sysWrite (sysWrite_result hsys hr) c.world⟩

end Wrapper

/-- An address for each label. -/
def LibcLabel.address : LibcLabel → Addr
  | .sysRet4 => 0x114010#32
  | .errFi4 => 0x114020#32
  | .sysRet10 => 0x114030#32
  | .errFi10 => 0x114040#32

/-- A system whose services all return one result. -/
def constSystem (r : DWord) : System Unit where
  kernel := constEnv (World Unit) r
  libc := {
    address := LibcLabel.address
    labelAt a := [LibcLabel.sysRet4, .errFi4, .sysRet10, .errFi10].find? (·.address == a)
    labelAt_address l := by cases l <;> decide
    symbol _ := 0x115000#32
    routine _ c := { c with world := setErrno c.top c.world }
    sysenter := sysenterThrough (constEnv (World Unit) r) 0x21000#32 }
  esp0 := 0x21000#32
  sysenter := rfl
  room := by decide
  below := by decide
  service a := cdecl_constEnv (World Unit) r 3 16 a
  service_errno _ _ := rfl
  setErrno := {
    esp _ := rfl
    calls _ := rfl
    saved _ _ _ := rfl
    segs _ := rfl
    frame _ _ _ _ := rfl }
  setErrno_world _ := rfl

/-- A program that has pushed the arguments of `write` and is about to call it. -/
def callingCpu : Cpu (World Unit) where
  regs r := if r = .esp then 0x11bf10#32 else 0
  segs _ := 0x2b#16
  eflags := 0x202#32
  mem _ := 0
  calls := []
  world := ⟨0, ()⟩

theorem callingCpu_stack : callingCpu.Stack [] := trivial

theorem write_correct_five :
    (∃ s c', exec (constSystem 5).libc write none
        (callingCpu.pushAll [5, 0x100000, 1, 0x114100]) = some (.ret, c') ∧
      c'.top = 0x114100 ∧
      c'.regs .ebx = (callingCpu.pushAll [5, 0x100000, 1, 0x114100]).regs .ebx ∧
      Syscall (constSystem 5) 4#32 [1, 0x100000, 5] 16
        (callingCpu.pushAll [5, 0x100000, 1, 0x114100]) s c') ∧
    ∀ fd buffer size buff ram con r ram' con',
      sysWrite fd buffer size buff ram con = some (r, ram', con') → r < 0 →
        ∃ text, perror (setErrno (BitVec.ofInt 32 r)
          (callingCpu.pushAll [5, 0x100000, 1, 0x114100]).world) = some text ∧ text ≠ "" :=
  write_correct (constSystem 5)
    (Cpu.pushAll_stack [5, 0x100000, 1, 0x114100] callingCpu_stack (by decide))
    (by decide) (by decide) (fun _ _ _ _ => rfl)

end Zeos
