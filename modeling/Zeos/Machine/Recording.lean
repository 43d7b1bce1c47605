import Zeos.Machine.Stack

/-!
# Runs that record their calls

The state at the end of a run says what the called routines have done, but not
which of them were called and what they found on the stack.  `Env.recording`
adds a log of these to the component `world`.

Code does not look at this component: `exec_mapWorld` says so for any two linkings
whose routines agree up to a map of worlds, and `exec_recording` is the case that
the log is forgotten.

The map of worlds may be any function, so that the rule also carries a run over to a
system that keeps less.  What is asked of the two linkings is that they have the same
addresses and that each routine, seen through the map, is the other's (`Env.Over`);
nothing is asked of the code.
-/

namespace Zeos.Machine

variable {L F V W : Type*}

/-- The processor with another world. -/
def Cpu.mapWorld (g : V → W) (c : Cpu V) : Cpu W where
  regs := c.regs
  segs := c.segs
  eflags := c.eflags
  mem := c.mem
  calls := c.calls
  world := g c.world

/-- `env'` is linked like `env`, over a world from which `g` takes that of `env`. -/
structure Env.Over (g : V → W) (env' : Env L F V) (env : Env L F W) : Prop where
  address : env'.address = env.address
  labelAt : env'.labelAt = env.labelAt
  symbol : env'.symbol = env.symbol
  routine : ∀ a c, (env'.routine a c).mapWorld g = env.routine a (c.mapWorld g)
  sysenter : ∀ c, (env'.sysenter c).map (Prod.map id (Cpu.mapWorld g)) =
    env.sysenter (c.mapWorld g)

section MapWorld

variable {g : V → W} {env' : Env L F V} {env : Env L F W}

theorem Cpu.mapWorld_write (g : V → W) (c : Cpu V) (dst : Operand) (v : DWord) :
    (c.write dst v).mapWorld g = (c.mapWorld g).write dst v := by
  cases dst <;> rfl

theorem Cpu.mapWorld_read (g : V → W) (c : Cpu V) (src : Operand) :
    (c.mapWorld g).read src = c.read src := by
  cases src <;> rfl

theorem Cpu.mapWorld_pop (g : V → W) (c : Cpu V) (dst : Operand) :
    (c.pop dst).mapWorld g = (c.mapWorld g).pop dst :=
  Cpu.mapWorld_write g _ dst _

theorem Cpu.mapWorld_pushAll (g : V → W) (c : Cpu V) (vs : List DWord) :
    (c.pushAll vs).mapWorld g = (c.mapWorld g).pushAll vs := by
  induction vs generalizing c with
  | nil => rfl
  | cons v vs ih => exact ih (c.push v)

theorem Env.Over.callTable (h : Env.Over g env' env) (c : Cpu V) (table : F) (index : Reg) :
    (env'.callTable c table index).mapWorld g =
      env.callTable (c.mapWorld g) table index := by
  have hslot : env'.slot table (c.regs index) = env.slot table (c.regs index) := by
    rw [Env.slot, Env.slot, h.symbol]
  have hroutine := h.routine (c.mem.load (env.slot table (c.regs index))) c
  simp only [Env.callTable, hslot]
  rw [show (c.mapWorld g).regs index = c.regs index from rfl,
    show (c.mapWorld g).mem = c.mem from rfl, ← hroutine]
  rfl

variable [DecidableEq L]

/-- A run over the larger world is a run over the smaller one. -/
theorem exec_mapWorld (h : Env.Over g env' env) (code : List (Instr L F)) (l : Option L)
    (c : Cpu V) : (exec env' code l c).map (Prod.map id (Cpu.mapWorld g)) =
      exec env code l (c.mapWorld g) := by
  induction code generalizing l c with
  | nil => rfl
  | cons i is ih =>
      cases l with
      | some l => cases i <;> exact ih _ _
      | none =>
          cases i with
          | pushl src => exact (ih _ _).trans (by rw [exec, Cpu.mapWorld_read]; rfl)
          | pushLabel l => exact (ih _ _).trans (by rw [exec, h.address]; rfl)
          | popl dst => exact (ih _ _).trans (by rw [exec, Cpu.mapWorld_pop])
          | movl src dst =>
              exact (ih _ _).trans (by rw [exec, Cpu.mapWorld_write, Cpu.mapWorld_read])
          | call f => exact (ih _ _).trans (by rw [exec, h.routine, h.symbol])
          | callTable table index => exact (ih _ _).trans (by rw [exec, h.callTable])
          | sysenter =>
              have hsysenter := h.sysenter c
              cases hc : env'.sysenter c with
              | none =>
                  rw [hc] at hsysenter
                  simp only [exec, hc, ← hsysenter, Option.map_none]
              | some p =>
                  rw [hc] at hsysenter
                  simp only [exec, hc, ← hsysenter, Option.map_some, Prod.map, id, h.labelAt]
                  cases env.labelAt p.1 with
                  | none => rfl
                  | some l => exact ih _ _
          | sysexit => rfl
          | iret => rfl
          | ret => rfl
          | _ => exact ih _ _

end MapWorld

/-! ## The log -/

/-- A call of a routine, by its address and the words on top of the stack. -/
structure CallRecord where
  routine : Addr
  args : List DWord

/-- A state without its log. -/
def Cpu.forget (c : Cpu (W × List CallRecord)) : Cpu W := c.mapWorld Prod.fst

/-- A state with a log, the latest call first. -/
def Cpu.withLog (c : Cpu W) (log : List CallRecord) : Cpu (W × List CallRecord) :=
  c.mapWorld fun w => (w, log)

/-- The linking in which each routine is recorded with the `n` words on top of the
stack, and then run. -/
def Env.recording (env : Env L F W) (n : ℕ) : Env L F (W × List CallRecord) where
  address := env.address
  labelAt := env.labelAt
  labelAt_address := env.labelAt_address
  symbol := env.symbol
  routine a c := (env.routine a c.forget).withLog
    (⟨a, c.mem.words (c.regs .esp) n⟩ :: c.world.2)
  sysenter c := (env.sysenter c.forget).map fun p => (p.1, p.2.withLog c.world.2)

theorem Env.recording_over (env : Env L F W) (n : ℕ) :
    Env.Over Prod.fst (env.recording n) env where
  address := rfl
  labelAt := rfl
  symbol := rfl
  routine _ _ := rfl
  sysenter c := by
    rw [show (c.mapWorld Prod.fst : Cpu W) = c.forget from rfl, Env.recording, Option.map_map]
    exact congrFun Option.map_id _

/-- Recording does not change the run. -/
theorem exec_recording [DecidableEq L] (env : Env L F W) (n : ℕ) (code : List (Instr L F))
    (c : Cpu W) (log : List CallRecord) :
    (exec (env.recording n) code none (c.withLog log)).map (Prod.map id Cpu.forget) =
      exec env code none c :=
  exec_mapWorld (env.recording_over n) code none (c.withLog log)

/-- A recorded indirect call is the latest of the log. -/
theorem Env.callTable_recording_log (env : Env L F W) (n : ℕ)
    (c : Cpu (W × List CallRecord)) (table : F) (index : Reg) :
    ((env.recording n).callTable c table index).world.2 =
      ⟨c.mem.load (env.slot table (c.regs index)), c.mem.words (c.regs .esp) n⟩ ::
        c.world.2 := rfl

/-- A recorded routine follows the same convention. -/
theorem Cdecl.recording {env : Env L F W} {args depth : ℕ} {a : Addr}
    (h : Cdecl args depth (env.routine a)) (n : ℕ) :
    Cdecl args depth ((env.recording n).routine a) where
  esp c := h.esp c.forget
  calls c := h.calls c.forget
  saved c := h.saved c.forget
  segs c := h.segs c.forget
  frame c := h.frame c.forget

end Zeos.Machine
