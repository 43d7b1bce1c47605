import Zeos.Interrupts
import Zeos.Machine.UserMode
import Zeos.TaskMemory

/-!
# Programs among interrupts (`entry.S`, `system.c`)

`main` enters the program of task 0 with interrupts enabled, and from then on the timer
and the keyboard may interrupt it between any two instructions.  The handlers run on the
kernel's stack of task 1, with interrupts disabled.

`preemption_run` is about any such run: what the program computes is what it would
compute alone, and the kernel's world is as if there had been only the devices and the
interrupts.

The routines of the two handlers are parameters.  `InterruptRoutine` asks of them what a C
function for the kernel does: the calling convention, an effect on the world that does not
depend on the rest, and no store to the user's pages when it is called at the top of the
kernel's stack.  The program is any sequence of steps on what a program has (`UserState`),
so that nothing is assumed of it but that its own memory is from `L_USER_START` on.  That
interrupts are enabled is load-bearing at the beginning only; `iret` gives the flag back.
-/

namespace Zeos

open Machine

/-! ## Events -/

/-- `INITIAL_ESP`, which `setTSS` puts into `esp0`: the top of the stack of task 1. -/
def initialEsp (L : Layout) : Addr := L.taskAddr 1 + BitVec.ofNat 32 pageSize

/-- The hardware interrupts that are enabled. -/
inductive Interrupt
  | clock | keyboard
  deriving DecidableEq

/-- The handler. -/
def Interrupt.code : Interrupt → Code
  | .clock => clockHandler
  | .keyboard => keyboardHandler

/-- The function in C that the handler calls. -/
def Interrupt.routine : Interrupt → EntrySymbol
  | .clock => .clockRoutine
  | .keyboard => .keyboardRoutine

/-- The bytes of memory that a program can see. -/
def UserOwn (a : Addr) : Prop := lUserStart ≤ a.toNat

instance : DecidablePred UserOwn := fun a => inferInstanceAs (Decidable (lUserStart ≤ a.toNat))

/-- An instruction of a program.  In user mode none changes the interrupt flag. -/
structure ProgramStep where
  run : UserState UserOwn → UserState UserOwn
  keepsIf : ∀ u, (run u).eflags.getLsbD ifBit = u.eflags.getLsbD ifBit

/-- What happens next: the program executes an instruction, a device changes the world,
or an interrupt arrives. -/
inductive Event (W : Type*)
  | program (p : ProgramStep)
  | device (g : W → W)
  | interrupt (i : Interrupt)

section Events

variable {W : Type*}

/-- Take an interrupt.  `none` is a handler that does not come to its `iret`. -/
def takeInterrupt (env : Env EntryLabel EntrySymbol W) (esp0 : Addr) (r : Running W)
    (i : Interrupt) : Option (Running W) :=
  match exec env i.code none (r.enter esp0) with
  | some (.iret, c) => some (Running.leave c)
  | _ => none

/-- With the interrupt flag clear, an interrupt is not taken. -/
def eventStep (env : Env EntryLabel EntrySymbol W) (esp0 : Addr) (r : Running W) :
    Event W → Option (Running W)
  | .program p => some (r.setUser (p.run (r.user UserOwn)))
  | .device g => some { r with cpu := { r.cpu with world := g r.cpu.world } }
  | .interrupt i => if r.cpu.eflags.getLsbD ifBit then takeInterrupt env esp0 r i else some r

/-- The program's part of an event. -/
def Event.programStep : Event W → Option ProgramStep
  | .program p => some p
  | _ => none

/-- The kernel's part of an event, by the effects of the routines. -/
def Event.worldStep (effect : Interrupt → W → W) : Event W → Option (W → W)
  | .program _ => none
  | .device g => some g
  | .interrupt i => some (effect i)

/-- The routine of an interrupt: a C function without arguments that leaves the frames on
the stack alone, and the program's memory when a handler calls it. -/
structure InterruptRoutine (esp0 : Addr) (f : Cpu W → Cpu W) (effect : W → W) : Prop extends
    Cdecl 0 16 f where
  user : ∀ c a, c.regs .esp = esp0 - 64#32 → UserOwn a → (f c).mem a = c.mem a
  world : ∀ c, (f c).world = effect c.world

/-! ## One interrupt -/

variable {env : Env EntryLabel EntrySymbol W} {effect : Interrupt → W → W}

/-- `RESTORE_ALL` pops into registers. -/
theorem restored_popTarget : ∀ dst ∈ restored, Cpu.PopTarget dst := by
  simp [restored, Cpu.PopTarget]

/-- What a handler leaves, up to the registers. -/
theorem exec_interrupt (env : Env EntryLabel EntrySymbol W) (i : Interrupt) (c : Cpu W) :
    ∃ s, exec env i.code none c = some (.iret, s.popAll restored) ∧
      (s = env.routine (env.symbol i.routine) ((afterSave c).setAl 0x20) ∨
        s = (env.routine (env.symbol i.routine) (afterSave c)).setAl 0x20) := by
  cases i with
  | clock => exact ⟨_, exec_clockHandler env c, Or.inl rfl⟩
  | keyboard => exact ⟨_, exec_keyboardHandler env c, Or.inr rfl⟩

/-- The processor's words and the handler's frame are below the program's memory. -/
theorem afterSave_enter_mem {esp0 : Addr} (hlow : 64 ≤ esp0.toNat) (hhigh : esp0.toNat ≤ lUserStart)
    (r : Running W) {a : Addr} (ha : UserOwn a) :
    (afterSave (r.enter esp0)).mem a = r.cpu.mem a := by
  have hown : lUserStart ≤ a.toNat := ha
  rw [lUserStart] at hown hhigh
  rw [afterSave_mem, Cpu.pushAll_mem _ _ (by simp [saved]), Running.enter_mem]
  · bv_omega
  · rw [Running.enter_regs_esp]
    simp only [saved, List.length_cons, List.length_nil]
    bv_omega

/-- A transparent handler has the processor's words on the stack. -/
theorem Transparent.stack {esp0 : Addr} {r : Running W} {c : Cpu W}
    (h : Transparent 5 (r.enter esp0) c) : c.Stack r.frame := by
  have hwords := Bytes.hasWords_words c.mem ((r.enter esp0).regs .esp) 5
  have hentered : r.frame = (r.enter esp0).mem.words ((r.enter esp0).regs .esp) 5 :=
    (Running.enter_stack esp0 r).eq_words
  rwa [h.frame, ← hentered, ← h.regs] at hwords

/-- The state at the `iret` of a handler. -/
theorem exec_interrupt_enter {esp0 : Addr} (hlow : 64 ≤ esp0.toNat)
    (hhigh : esp0.toNat ≤ lUserStart) (i : Interrupt)
    (h : InterruptRoutine esp0 (env.routine (env.symbol i.routine)) (effect i)) (r : Running W) :
    ∃ c, exec env i.code none (r.enter esp0) = some (.iret, c) ∧ Transparent 5 (r.enter esp0) c ∧
      (∀ a, UserOwn a → c.mem a = r.cpu.mem a) ∧ c.world = effect i r.cpu.world := by
  obtain ⟨s, hexec, hs⟩ := exec_interrupt env i (r.enter esp0)
  have hdepth : 11 + 5 ≤ 2 ^ 30 := by omega
  have hsaved := saved_afterSave (r.enter esp0) hdepth
  refine ⟨s.popAll restored, hexec, Saved.transparent ?_, fun a ha => ?_, ?_⟩
  · rcases hs with rfl | rfl
    · exact (hsaved.setAl 0x20).call h.toCdecl
    · exact (hsaved.call h.toCdecl).setAl 0x20
  · rw [Cpu.popAll_mem _ restored_popTarget, ← afterSave_enter_mem hlow hhigh r ha]
    have hesp : (afterSave (r.enter esp0)).regs .esp = esp0 - 64#32 := by
      rw [afterSave_esp, Running.enter_regs_esp]
      bv_omega
    rcases hs with rfl | rfl
    · exact h.user _ a ((setAl_esp _ _).trans hesp) ha
    · exact h.user _ a hesp ha
  · rw [Cpu.popAll_world, ← Running.enter_world esp0 r, ← afterSave_world]
    rcases hs with rfl | rfl
    · exact h.world _
    · exact h.world _

/-- **An interrupt is nothing to the program, and its effect to the world.** -/
theorem takeInterrupt_user {esp0 : Addr} (hlow : 64 ≤ esp0.toNat) (hhigh : esp0.toNat ≤ lUserStart)
    (i : Interrupt)
    (h : InterruptRoutine esp0 (env.routine (env.symbol i.routine)) (effect i)) (r : Running W) :
    ∃ r', takeInterrupt env esp0 r i = some r' ∧ r'.user UserOwn = r.user UserOwn ∧
      r'.cs = r.cs ∧ r'.ss = r.ss ∧ r'.cpu.world = effect i r.cpu.world := by
  obtain ⟨c, hexec, htransparent, hmem, hworld⟩ := exec_interrupt_enter hlow hhigh i h r
  obtain ⟨huser, hcs, hss⟩ :=
    Running.leave_of_frame htransparent.regs htransparent.segs htransparent.stack hmem
  refine ⟨Running.leave c, ?_, huser, hcs, hss, hworld⟩
  rw [takeInterrupt, hexec]

/-! ## Runs -/

/-- The top of that stack lies in the kernel's memory, with room below. -/
theorem initialEsp_bounds {L : Layout} (hL : L.InKernel) :
    64 ≤ (initialEsp L).toNat ∧ (initialEsp L).toNat ≤ lUserStart := by
  have htask := Layout.EndsBy.task hL
  have hesp : (initialEsp L).toNat = L.task.toNat + 2 * pageSize := by
    have hfits := L.task_fits
    simp only [initialEsp, Layout.taskAddr, pageAt, nrTasks, pageSize] at *
    bv_omega
  rw [hesp]
  simp only [nrTasks, pageSize] at *
  omega

/-- **A program among interrupts.**  In any order of the program's instructions, the
devices' events and the interrupts, the program does what it would do alone, and the
world has what the devices and the interrupts make of it. -/
theorem preemption_run {L : Layout} (hL : L.InKernel)
    (h : ∀ i, InterruptRoutine (initialEsp L) (env.routine (env.symbol i.routine)) (effect i))
    {r : Running W} (hif : r.cpu.eflags.getLsbD ifBit = true) (events : List (Event W)) :
    ∃ r', events.foldlM (eventStep env (initialEsp L)) r = some r' ∧
      r'.user UserOwn =
        (events.filterMap Event.programStep).foldl (fun u p => p.run u) (r.user UserOwn) ∧
      r'.cs = r.cs ∧ r'.ss = r.ss ∧
      r'.cpu.world =
        (events.filterMap (Event.worldStep effect)).foldl (fun w g => g w) r.cpu.world := by
  obtain ⟨hlow, hhigh⟩ := initialEsp_bounds hL
  induction events generalizing r with
  | nil => exact ⟨r, rfl, rfl, rfl, rfl, rfl⟩
  | cons event events ih =>
      rw [List.foldlM_cons]
      cases event with
      | program p =>
          have hif' : (r.setUser (p.run (r.user UserOwn))).cpu.eflags.getLsbD ifBit = true :=
            (p.keepsIf _).trans hif
          obtain ⟨r', hrun, huser, hcs, hss, hworld⟩ := ih hif'
          rw [Running.user_setUser] at huser
          exact ⟨r', hrun, huser, hcs, hss, hworld⟩
      | device g =>
          have hif' : Running.cpu { r with cpu := { r.cpu with world := g r.cpu.world } }
              |>.eflags.getLsbD ifBit := hif
          exact ih hif'
      | interrupt i =>
          obtain ⟨r₁, htaken, huser₁, hcs₁, hss₁, hworld₁⟩ :=
            takeInterrupt_user hlow hhigh i (h i) r
          -- the flags are the program's again, so the next interrupt is taken, too
          have hif₁ : r₁.cpu.eflags.getLsbD ifBit = true := by
            have heflags : r₁.cpu.eflags = r.cpu.eflags := congrArg UserState.eflags huser₁
            rwa [heflags]
          obtain ⟨r', hrun, huser, hcs, hss, hworld⟩ := ih hif₁
          have hstep : eventStep env (initialEsp L) r (.interrupt i) = some r₁ := by
            rw [eventStep, if_pos hif, htaken]
          refine ⟨r', ?_, ?_, hcs.trans hcs₁, hss.trans hss₁, ?_⟩
          · rw [hstep]
            exact hrun
          · rw [huser, huser₁]
            rfl
          · rw [hworld, hworld₁]
            rfl

end Events

/-- A kernel whose routines count their calls. -/
def tickingEnv : Env EntryLabel EntrySymbol ℕ :=
  { constEnv ℕ 0 with routine := fun _ c => { c with world := c.world + 1 } }

theorem interruptRoutine_tickingEnv (esp0 : Addr) (i : Interrupt) :
    InterruptRoutine esp0 (tickingEnv.routine (tickingEnv.symbol i.routine)) (· + 1) where
  esp _ := rfl
  calls _ := rfl
  saved _ _ _ := rfl
  segs _ := rfl
  frame _ _ _ _ := rfl
  user _ _ _ _ := rfl
  world _ := rfl

/-- `incl %eax`, its flags left out. -/
def inclEax : ProgramStep where
  run u := { u with regs := Function.update u.regs .eax (u.regs .eax + 1), eip := u.eip + 1#32 }
  keepsIf _ := rfl

/-- A program at its beginning. -/
def startedProgram : Running ℕ where
  cpu :=
    { regs := fun _ => 0
      segs := fun _ => 0x2b
      eflags := 0x202
      mem := fun _ => 0
      calls := []
      world := 0 }
  eip := 0x114000
  cs := 0x23
  ss := 0x2b

theorem preemption_run_two : ∃ r',
    [.interrupt .clock, .program inclEax, .interrupt .keyboard, .program inclEax].foldlM
      (eventStep tickingEnv (initialEsp kernelLayout)) startedProgram = some r' ∧
    r'.cpu.regs .eax = 2 ∧ r'.cpu.world = 2 := by
  obtain ⟨r', hrun, huser, -, -, hworld⟩ := preemption_run inKernel_kernelLayout
    (interruptRoutine_tickingEnv _) (r := startedProgram) (by decide)
    [.interrupt .clock, .program inclEax, .interrupt .keyboard, .program inclEax]
  have heax := congrFun (congrArg UserState.regs huser) .eax
  exact ⟨r', hrun, heax, hworld⟩

end Zeos
