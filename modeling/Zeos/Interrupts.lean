import Zeos.Machine.Recording
import Zeos.SystemCall

/-!
# Interrupts and exceptions (`entry.S`)

A program that is interrupted must not notice it.  `clock_handler` and
`keyboard_handler` are `Transparent`: at their `iret` every register is as it was when
the interrupt arrived, and the stack pointer is at the frame that the processor has
pushed.

`page_fault_handler2` has two more words on its stack, the processor's error code below
the frame and the argument of `print_page_fault`, and takes neither of them off.
`pageFaultHandler2_run` follows it to its `iret`: the stack pointer is left two words
below the frame, and the registers are popped from the slots next to theirs.

The routines are parameters, with the C calling convention as the hypothesis, and they may
use any number of bytes below their arguments.  `Transparent` speaks of what the program
has, registers, segments and the frame, and of the rest of memory only above the words
that the handler uses.  For `page_fault_handler2` nothing is left to a condition: whatever
the routines do within the convention, the words at the stack pointer are not the frame
(`pageFaultHandler2_never`).
-/

namespace Zeos

open Machine

section Interrupts

variable {W : Type*} {env : Env EntryLabel EntrySymbol W}

/-! ## Transparent handlers -/

/-- What an interrupted program sees of a handler that has started in `c` and is at its
`iret` in `c'`: all registers, the stack pointer among them, and the `n` words that the
processor has pushed are as they were. -/
structure Transparent (n : ℕ) (c c' : Cpu W) : Prop where
  regs : c'.regs = c.regs
  segs : c'.segs = c.segs
  frame : c'.mem.words (c.regs .esp) n = c.mem.words (c.regs .esp) n

theorem setAl_esp (c : Cpu W) (v : Byte) : (c.setAl v).regs .esp = c.regs .esp :=
  Cpu.write_regs_esp c _ (by decide : Reg.eax ≠ .esp)

theorem setAl_stack {c : Cpu W} {ws : List DWord} (h : c.Stack ws) (v : Byte) :
    (c.setAl v).Stack ws := by
  show (c.setAl v).mem.HasWords ((c.setAl v).regs .esp) ws
  rw [setAl_esp]
  exact h

/-- The frame that `SAVE_ALL` has built for `c` is still on the stack of `s`, with the
`n` words behind it. -/
structure Saved (n : ℕ) (c s : Cpu W) : Prop where
  stack : s.Stack ((Frame.of c).words ++ c.mem.words (c.regs .esp) n)
  esp : s.regs .esp = c.regs .esp - 44#32

theorem saved_afterSave (c : Cpu W) {n : ℕ} (hn : 11 + n ≤ 2 ^ 30) :
    Saved n c (afterSave c) := by
  refine ⟨afterSave_stack (Bytes.hasWords_words _ _ n) ?_, afterSave_esp c⟩
  rw [Bytes.words_length]
  omega

/-- `EOI` overwrites `al` and nothing on the stack. -/
theorem Saved.setAl {n : ℕ} {c s : Cpu W} (h : Saved n c s) (v : Byte) :
    Saved n c (s.setAl v) :=
  ⟨setAl_stack h.stack v, (setAl_esp s v).trans h.esp⟩

/-- A routine without arguments keeps the frame. -/
theorem Saved.call {n : ℕ} {c s : Cpu W} (h : Saved n c s) {f : Cpu W → Cpu W}
    (hf : Cdecl 0 (11 + n) f) : Saved n c (f s) := by
  constructor
  · have hlen : 0 + ((Frame.of c).words ++ c.mem.words (c.regs .esp) n).length ≤ 11 + n := by
      rw [List.length_append, Bytes.words_length, Nat.zero_add]
      exact le_refl _
    exact hf.stack [] h.stack rfl hlen
  · rw [hf.esp, h.esp]

/-- `RESTORE_ALL` undoes `SAVE_ALL`, whatever has happened to the registers since. -/
theorem Saved.transparent {n : ℕ} {c s : Cpu W} (h : Saved n c s) :
    Transparent n c (s.popAll restored) := by
  obtain ⟨hregs, hframe⟩ := restored_popAll h.stack
  have hesp : (s.popAll restored).regs .esp = c.regs .esp := by
    rw [hregs.esp, h.esp, BitVec.sub_add_cancel]
  constructor
  · funext r
    cases r with
    | eax => exact hregs.eax
    | ecx => exact hregs.ecx
    | edx => exact hregs.edx
    | ebx => exact hregs.ebx
    | esp => exact hesp
    | ebp => exact hregs.ebp
    | esi => exact hregs.esi
    | edi => exact hregs.edi
  · exact hregs.segs_eq rfl rfl rfl rfl
  · have hwords := hframe.eq_words
    rw [Bytes.words_length, hesp] at hwords
    exact hwords.symm

/-- `keyboard_handler` calls its routine behind `SAVE_ALL` and before `EOI`. -/
theorem exec_keyboardHandler (env : Env EntryLabel EntrySymbol W) (c : Cpu W) :
    exec env keyboardHandler none c =
      some (.iret, ((env.routine (env.symbol .keyboardRoutine)
        (afterSave c)).setAl 0x20).popAll restored) := by
  rw [keyboardHandler, List.append_assoc, List.append_assoc, List.append_assoc, exec_saveAll]
  rfl

/-- **Interrupts are transparent**, with routines that follow the C calling convention
and leave the handler's frame and the processor's alone. -/
theorem interrupts_transparent {n : ℕ} (hn : 11 + n ≤ 2 ^ 30)
    (hclock : Cdecl 0 (11 + n) (env.routine (env.symbol .clockRoutine)))
    (hkeyboard : Cdecl 0 (11 + n) (env.routine (env.symbol .keyboardRoutine))) (c : Cpu W) :
    (∃ c', exec env clockHandler none c = some (.iret, c') ∧ Transparent n c c') ∧
      ∃ c', exec env keyboardHandler none c = some (.iret, c') ∧ Transparent n c c' := by
  have hsaved := saved_afterSave c hn
  constructor
  · exact ⟨_, exec_clockHandler env c, ((hsaved.setAl 0x20).call hclock).transparent⟩
  · exact ⟨_, exec_keyboardHandler env c, ((hsaved.call hkeyboard).setAl 0x20).transparent⟩

/-! ## The page fault -/

/-- The word in the slot of `eip`, above the error code that the processor has pushed. -/
def faultingEip (c : Cpu W) : DWord := c.mem.load (c.regs .esp + 4#32)

/-- The state in which `print_page_fault` is called. -/
def atReport (c : Cpu W) : Cpu W :=
  (afterSave c).push ((afterSave c).mem.load ((afterSave c).regs .esp + 0x30#32))

/-- The state after `EOI`. -/
def afterReport (env : Env EntryLabel EntrySymbol W) (c : Cpu W) : Cpu W :=
  (env.routine (env.symbol .pageFaultRoutine)
    (env.routine (env.symbol .printPageFault) (atReport c))).setAl 0x20

theorem exec_pageFaultHandler2 (env : Env EntryLabel EntrySymbol W) (c : Cpu W) :
    exec env pageFaultHandler2 none c =
      some (.iret, (afterReport env c).popAll restored) := by
  rw [pageFaultHandler2, List.append_assoc, List.append_assoc, List.append_assoc, exec_saveAll]
  rfl

/-- The argument of `print_page_fault` is the faulting `eip`. -/
theorem atReport_top (c : Cpu W) : (atReport c).top = faultingEip c := by
  have hstack : c.Stack [c.top, faultingEip c] := ⟨rfl, rfl, trivial⟩
  have hsaved := afterSave_stack hstack (by simp)
  have heip : (afterSave c).mem.load ((afterSave c).regs .esp + 0x30#32) = faultingEip c :=
    Cpu.Stack.load ((Frame.of c).words ++ [c.top]) hsaved
  rw [atReport, heip]
  exact (Cpu.push_stack _ (Bytes.hasWords_nil _ _) (by simp)).top

theorem atReport_esp (c : Cpu W) : (atReport c).regs .esp = c.regs .esp - 48#32 := by
  rw [atReport, Cpu.push_regs_esp, afterSave_esp]
  bv_omega

theorem popAll_restored_esp (c : Cpu W) :
    (c.popAll restored).regs .esp = c.regs .esp + 44#32 := by
  obtain ⟨f, hf⟩ := exists_frame c
  exact (restored_popAll hf).1.esp

/-- `code` runs from `c` to its `iret` in `c'` and calls the routines of `log` on the
way, the latest first, each with the given word on top of its stack. -/
def RunsToIret (env : Env EntryLabel EntrySymbol W) (code : Code) (c : Cpu W)
    (log : List CallRecord) (c' : Cpu W) : Prop :=
  exec (env.recording 1) code none (c.withLog []) = some (.iret, c'.withLog log)

/-- A run of the recording linking is a run with what it has recorded. -/
theorem runsToIret_of_recording {code : Code} {c : Cpu W} {s : Cpu (W × List CallRecord)}
    (h : exec (env.recording 1) code none (c.withLog []) = some (.iret, s)) :
    RunsToIret env code c s.world.2 s.forget := h

theorem balanced_recording {a : Addr} (h : Balanced (env.routine a)) (n : ℕ) :
    Balanced ((env.recording n).routine a) where
  esp c := h.esp c.forget
  calls c := h.calls c.forget

theorem afterReport_esp (env : Env EntryLabel EntrySymbol W)
    (hprint : Balanced (env.routine (env.symbol .printPageFault)))
    (hroutine : Balanced (env.routine (env.symbol .pageFaultRoutine))) (c : Cpu W) :
    (afterReport env c).regs .esp = c.regs .esp - 48#32 := by
  rw [afterReport, setAl_esp, hroutine.esp, hprint.esp, atReport_esp]

/-- The calls that the handler makes. -/
theorem afterReport_log (env : Env EntryLabel EntrySymbol W) (c : Cpu W) :
    ∃ word, (afterReport (env.recording 1) (c.withLog [])).world.2 =
      [⟨env.symbol .pageFaultRoutine, [word]⟩,
        ⟨env.symbol .printPageFault, [faultingEip c]⟩] := by
  have hcall : ∀ a s, ((env.recording 1).routine a s).world.2 =
      ⟨a, [s.top]⟩ :: s.world.2 := fun _ _ => rfl
  have hnone : (atReport (c.withLog [])).world.2 = [] := by
    rw [atReport, Cpu.push_world, afterSave_world]
    rfl
  have heip : (atReport (c.withLog [])).top = faultingEip c := atReport_top (c.withLog [])
  refine ⟨((env.recording 1).routine (env.symbol .printPageFault)
    (atReport (c.withLog []))).top, ?_⟩
  rw [afterReport, Cpu.setAl, Cpu.write_world, hcall, hcall, hnone, heip]
  rfl

/-- **Where `page_fault_handler2` gets to.**  It passes `eip` on, and it is at its
`iret` with the stack pointer one word below where it has started, which is two words
below the slot of `eip`. -/
theorem pageFaultHandler2_run
    (hprint : Balanced (env.routine (env.symbol .printPageFault)))
    (hroutine : Balanced (env.routine (env.symbol .pageFaultRoutine))) (c : Cpu W) :
    ∃ c' word, RunsToIret env pageFaultHandler2 c
        [⟨env.symbol .pageFaultRoutine, [word]⟩,
          ⟨env.symbol .printPageFault, [faultingEip c]⟩] c' ∧
      c'.regs .esp = c.regs .esp - 4#32 := by
  have hexec := exec_pageFaultHandler2 (env.recording 1) (c.withLog [])
  have hesp := afterReport_esp (env.recording 1) (balanced_recording hprint 1)
    (balanced_recording hroutine 1) (c.withLog [])
  obtain ⟨word, hlog⟩ := afterReport_log env c
  generalize afterReport (env.recording 1) (c.withLog []) = s at hexec hesp hlog
  have hrun := runsToIret_of_recording hexec
  rw [Cpu.popAll_world, hlog] at hrun
  refine ⟨_, word, hrun, ?_⟩
  show (s.popAll restored).regs .esp = _
  rw [popAll_restored_esp, hesp]
  show c.regs .esp - 48#32 + 44#32 = _
  bv_omega

/-- What a page fault asks of its handler, which has started in `c` and is at its `iret`
in `c'`: `print_page_fault` has been given the faulting `eip`, and the registers are as
they were, with the stack pointer at the slot of `eip`. -/
structure KeepsDiscipline (env : Env EntryLabel EntrySymbol W) (c : Cpu W)
    (log : List CallRecord) (c' : Cpu W) : Prop where
  eip : ⟨env.symbol .printPageFault, [faultingEip c]⟩ ∈ log
  regs : ∀ r, r ≠ .esp → c'.regs r = c.regs r
  segs : c'.segs = c.segs
  esp : c'.regs .esp = c.regs .esp + 4#32

/-- The run is determined, so what it ends with is. -/
theorem runsToIret_unique {code : Code} {c c₁ c₂ : Cpu W} {log₁ log₂ : List CallRecord}
    (h₁ : RunsToIret env code c log₁ c₁) (h₂ : RunsToIret env code c log₂ c₂) :
    log₁ = log₂ ∧ c₁ = c₂ := by
  unfold RunsToIret at h₁ h₂
  rw [h₁, Option.some.injEq, Prod.mk.injEq] at h₂
  exact ⟨congrArg (fun s => s.world.2) h₂.2, congrArg Cpu.forget h₂.2⟩

theorem not_discipline_of_balanced
    (hprint : Balanced (env.routine (env.symbol .printPageFault)))
    (hroutine : Balanced (env.routine (env.symbol .pageFaultRoutine))) (c : Cpu W) :
    ¬ ∃ log c', RunsToIret env pageFaultHandler2 c log c' ∧ KeepsDiscipline env c log c' := by
  rintro ⟨log, c', hrun, hkeeps⟩
  obtain ⟨c'', word, hrun', hesp⟩ := pageFaultHandler2_run hprint hroutine c
  obtain ⟨-, rfl⟩ := runsToIret_unique hrun hrun'
  have heip := hkeeps.esp
  rw [hesp] at heip
  bv_omega

/-- **The stack discipline is broken at every page fault**, whatever is in the registers
and on the stack. -/
theorem pageFaultHandler2_never {depth : ℕ}
    (hprint : Cdecl 1 depth (env.routine (env.symbol .printPageFault)))
    (hroutine : Cdecl 0 depth (env.routine (env.symbol .pageFaultRoutine))) (c : Cpu W) :
    ¬ ∃ log c', RunsToIret env pageFaultHandler2 c log c' ∧ KeepsDiscipline env c log c' :=
  not_discipline_of_balanced hprint.toBalanced hroutine.toBalanced c

end Interrupts

/-- The two interrupts, with routines that destroy `eax`. -/
theorem interrupts_transparent_five :
    (∃ c', exec (constEnv Unit 7) clockHandler none (enteringCpu 3 0x11bff0) =
        some (.iret, c') ∧ Transparent 5 (enteringCpu 3 0x11bff0) c') ∧
      ∃ c', exec (constEnv Unit 7) keyboardHandler none (enteringCpu 3 0x11bff0) =
        some (.iret, c') ∧ Transparent 5 (enteringCpu 3 0x11bff0) c' :=
  interrupts_transparent (by decide) (cdecl_constEnv Unit 7 0 16 _)
    (cdecl_constEnv Unit 7 0 16 _) (enteringCpu 3 0x11bff0)

theorem pageFaultHandler2_never_entering : ¬ ∃ log c',
    RunsToIret (constEnv Unit 0) pageFaultHandler2 (enteringCpu 3 0x11bff0) log c' ∧
      KeepsDiscipline (constEnv Unit 0) (enteringCpu 3 0x11bff0) log c' :=
  pageFaultHandler2_never (cdecl_constEnv Unit 0 1 18 _) (cdecl_constEnv Unit 0 0 18 _)
    (enteringCpu 3 0x11bff0)

/-- A page fault with the stack pointer at `0x21000`, and routines that return at once. -/
theorem not_keepsDiscipline :
    ¬ ∀ (env : Env EntryLabel EntrySymbol Unit) (c : Cpu Unit),
      Cdecl 1 18 (env.routine (env.symbol .printPageFault)) →
      Cdecl 0 18 (env.routine (env.symbol .pageFaultRoutine)) →
      ∃ log c', RunsToIret env pageFaultHandler2 c log c' ∧ KeepsDiscipline env c log c' := by
  intro hall
  have hprint := cdecl_constEnv Unit 0 1 18 ((constEnv Unit 0).symbol .printPageFault)
  have hroutine := cdecl_constEnv Unit 0 0 18 ((constEnv Unit 0).symbol .pageFaultRoutine)
  exact not_discipline_of_balanced hprint.toBalanced hroutine.toBalanced
    (enteringCpu 3 0x11bff0) (hall (constEnv Unit 0) (enteringCpu 3 0x11bff0) hprint hroutine)

end Zeos
