import Zeos.Machine.Recording
import Zeos.SystemCall

/-!
# The two paths of a system call

A program can enter the kernel through `system_call_handler`, with an interrupt, or
through `syscall_handler`, with `sysenter`.  The frames are built in different ways and
left in different ways.  `paths_agree` says that the difference ends with the address
and the stack pointer that the program resumes with: both handlers call the same
routine with the same six words, return its result, and give the registers back.

What a handler calls is read off a recording run (`Runs`).

The hypotheses are on the routines and on the places of what is read.  A service routine
keeps to the C calling convention and has a result that depends neither on the flags nor
on where the handler returns to; the words of `sys_call_table` and the word behind the
program's `%ebp` are not on the kernel's stack, where the two handlers push different
things.  The last is load-bearing: `sysenter` keeps no return address, and the handler
takes the one that the wrapper has pushed.
-/

namespace Zeos

open Machine

variable {W : Type*}

/-! ## The way in and out -/

/-- The state in which `system_call_handler` is entered: on the kernel stack `esp0`,
where the processor has pushed the frame of the interrupted program. -/
def enterInterrupt (esp0 eip : Addr) (cs ss eflags : DWord) (u : Cpu W) : Cpu W :=
  { (u.setEsp esp0).pushAll [ss, u.regs .esp, u.eflags, cs, eip] with eflags := eflags }

/-- The state in which `syscall_handler` is entered. -/
def enterSysenter (esp0 : Addr) (u : Cpu W) : Cpu W :=
  { u.setEsp esp0 with eflags := withBit u.eflags ifBit false }

/-- Where a program resumes after the instruction that ends a handler, and its stack
pointer there. -/
def resumesAt (c : Cpu W) : Exit → Addr × Addr
  | .iret => (c.top, c.mem.load (c.regs .esp + 12#32))
  | .sysexit => (c.regs .edx, c.regs .ecx)
  | .ret => (c.top, c.regs .esp + 4#32)

/-- The number of words that a system call passes: `edx`, `ecx`, `ebx`, `esi`, `edi` and
`ebp`. -/
def argWords : ℕ := 6

/-- `code` runs from `c` to `exit` in state `c'`, and calls the routines of `log` on the
way. -/
def Runs (env : Env EntryLabel EntrySymbol W) (code : Code) (c : Cpu W) (log : List CallRecord)
    (exit : Exit) (c' : Cpu W) : Prop :=
  exec env code none c = some (exit, c') ∧
    exec (env.recording argWords) code none (c.withLog []) = some (exit, c'.withLog log)

/-- The call that a program's registers ask for, if its number is dispatched. -/
def requested (env : Env EntryLabel EntrySymbol W) (u : Cpu W) : List CallRecord :=
  if (u.regs .eax).toNat ≤ sysCallTable.length then
    [⟨u.mem.load (env.slot .sysCallTable (u.regs .eax)),
      [u.regs .edx, u.regs .ecx, u.regs .ebx, u.regs .esi, u.regs .edi, u.regs .ebp]⟩]
  else []

theorem requested_of_le {env : Env EntryLabel EntrySymbol W} {u : Cpu W}
    (h : (u.regs .eax).toNat ≤ sysCallTable.length) :
    requested env u = [⟨u.mem.load (env.slot .sysCallTable (u.regs .eax)),
      [u.regs .edx, u.regs .ecx, u.regs .ebx, u.regs .esi, u.regs .edi, u.regs .ebp]⟩] :=
  if_pos h

theorem requested_of_lt {env : Env EntryLabel EntrySymbol W} {u : Cpu W}
    (h : sysCallTable.length < (u.regs .eax).toNat) : requested env u = [] :=
  if_neg (not_le_of_gt h)

/-- The registers that both paths give back. -/
structure GivesBack (u c : Cpu W) : Prop where
  ebx : c.regs .ebx = u.regs .ebx
  esi : c.regs .esi = u.regs .esi
  edi : c.regs .edi = u.regs .edi
  ebp : c.regs .ebp = u.regs .ebp
  segs : c.segs = u.segs

/-! ## What the handlers rely on -/

/-- The double word at `a` lies outside the sixteen words below `esp0`, in which the
handlers build their frames. -/
def OffStack (esp0 a : Addr) : Prop :=
  ∀ i < 4, 64 ≤ (a + BitVec.ofNat 32 i - (esp0 - 64#32)).toNat

/-- Two states of a routine's call that differ at most in the flags and in the frame
below the saved registers, which tells a handler where to return to. -/
structure SameCall (c₁ c₂ : Cpu W) : Prop where
  regs : c₁.regs = c₂.regs
  segs : c₁.segs = c₂.segs
  calls : c₁.calls = c₂.calls
  world : c₁.world = c₂.world
  mem : ∀ a, 20 ≤ (a - (c₁.regs .esp + 44#32)).toNat → c₁.mem a = c₂.mem a

/-- A service routine: it follows the calling convention, does not write into its
caller's frame, and has a result that depends neither on the flags nor on where the
handler returns to. -/
structure ServiceRoutine (f : Cpu W → Cpu W) : Prop extends Cdecl 0 16 f where
  eax : ∀ c₁ c₂, SameCall c₁ c₂ → (f c₁).regs .eax = (f c₂).regs .eax

/-! ## The call -/

/-- `c` is the state of the program `u` in the kernel, with the frame of five words on
the stack `esp0`. -/
structure Framed (esp0 : Addr) (u c : Cpu W) : Prop where
  esp : c.regs .esp = esp0 - 20#32
  regs : ∀ r, r ≠ .esp → c.regs r = u.regs r
  segs : c.segs = u.segs
  calls : c.calls = u.calls
  world : c.world = u.world
  mem : ∀ a, 20 ≤ (a - (esp0 - 20#32)).toNat → c.mem a = u.mem a

/-- Five words pushed on the kernel stack are such a frame. -/
theorem framed_pushAll {esp0 : Addr} {u e : Cpu W} (hregs : e.regs = (u.setEsp esp0).regs)
    (hsegs : e.segs = u.segs) (hcalls : e.calls = u.calls) (hworld : e.world = u.world)
    (hmem : e.mem = u.mem) (vs : List DWord) (hlen : vs.length = 5) :
    Framed esp0 u (e.pushAll vs) where
  esp := by
    rw [Cpu.pushAll_regs_esp, hlen, hregs]
    simp [Cpu.setEsp]
  regs r hr := by
    rw [Cpu.pushAll_regs_of_ne _ _ hr, hregs]
    simp [Cpu.setEsp, hr]
  segs := by rw [Cpu.pushAll_segs, hsegs]
  calls := by rw [Cpu.pushAll_calls, hcalls]
  world := by rw [Cpu.pushAll_world, hworld]
  mem a ha := by
    rw [← hmem]
    refine Cpu.pushAll_mem e vs (by omega) ?_
    rw [hlen, hregs]
    simpa [Cpu.setEsp] using ha

/-- The flags have no part in it. -/
theorem Framed.withEflags {esp0 : Addr} {u c : Cpu W} (h : Framed esp0 u c) (eflags : DWord) :
    Framed esp0 u { c with eflags := eflags } :=
  ⟨h.esp, h.regs, h.segs, h.calls, h.world, h.mem⟩

theorem framed_enterInterrupt (esp0 eip : Addr) (cs ss eflags : DWord) (u : Cpu W) :
    Framed esp0 u (enterInterrupt esp0 eip cs ss eflags u) := by
  have hframed := framed_pushAll (e := u.setEsp esp0) rfl rfl rfl rfl rfl
    [ss, u.regs .esp, u.eflags, cs, eip] rfl
  exact hframed.withEflags eflags

theorem framed_rebuildFrame (esp0 : Addr) (u : Cpu W) :
    Framed esp0 u (rebuildFrame (enterSysenter esp0 u)) := by
  have hregs : (enterSysenter esp0 u).regs = (u.setEsp esp0).regs := rfl
  rw [rebuildFrame_eq]
  exact framed_pushAll hregs rfl rfl rfl rfl _ rfl

section Call

variable {env : Env EntryLabel EntrySymbol W} {esp0 : Addr} {u c : Cpu W}

theorem afterSave_regs (c : Cpu W) :
    (afterSave c).regs = fun
      | .esp => c.regs .esp - 44#32
      | .edx => kernelDs
      | r => c.regs r := by
  funext r
  cases r with
  | esp => exact afterSave_esp c
  | edx => simp [afterSave, Cpu.write]
  | _ => simp [afterSave, Cpu.write, Cpu.pushAll_regs_of_ne]

theorem afterSave_segs (c : Cpu W) :
    (afterSave c).segs = Function.update (Function.update c.segs .ds (kernelDs.setWidth 16))
      .es (kernelDs.setWidth 16) := by
  simp only [afterSave, Cpu.write, Cpu.pushAll_segs]

theorem Framed.saved_eq (h : Framed esp0 u c) : saved c = saved u := by
  simp [saved, h.regs, h.segs]

/-- The two handlers call in states that differ only in what a service routine does not
look at. -/
theorem Framed.sameCall {c₁ c₂ : Cpu W} (h₁ : Framed esp0 u c₁) (h₂ : Framed esp0 u c₂) :
    SameCall (afterSave c₁) (afterSave c₂) where
  regs := by
    rw [afterSave_regs, afterSave_regs]
    funext r
    cases r with
    | esp => simp only [h₁.esp, h₂.esp]
    | edx => rfl
    | _ => exact (h₁.regs _ (by decide)).trans (h₂.regs _ (by decide)).symm
  segs := by rw [afterSave_segs, afterSave_segs, h₁.segs, h₂.segs]
  calls := by rw [afterSave_calls, afterSave_calls, h₁.calls, h₂.calls]
  world := by rw [afterSave_world, afterSave_world, h₁.world, h₂.world]
  mem a ha := by
    have hframe : 20 ≤ (a - (esp0 - 20#32)).toNat := by
      rwa [afterSave_esp, BitVec.sub_add_cancel, h₁.esp] at ha
    rw [afterSave_mem, afterSave_mem, h₁.saved_eq, h₂.saved_eq]
    refine Cpu.pushAll_mem_congr c₁ c₂ (h₁.esp.trans h₂.esp.symm) (saved u) (by simp [saved]) ?_
    exact Or.inl ((h₁.mem a hframe).trans (h₂.mem a hframe).symm)

/-- A word off the stack is read as the program left it. -/
theorem Framed.call_load (h : Framed esp0 u c) {a : Addr} (ha : OffStack esp0 a) :
    (afterSave c).mem.load a = u.mem.load a := by
  refine Bytes.load_congr fun i hi => ?_
  have hout := ha i hi
  rw [afterSave_mem, Cpu.pushAll_mem c (saved c) (by simp [saved])]
  · exact h.mem _ (by bv_omega)
  · rw [h.esp]
    simp only [saved, List.length_cons, List.length_nil]
    bv_omega

/-- The routine finds the program's registers as its arguments. -/
theorem Framed.args (h : Framed esp0 u c) :
    (afterSave c).mem.words ((afterSave c).regs .esp) argWords =
      [u.regs .edx, u.regs .ecx, u.regs .ebx, u.regs .esi, u.regs .edi, u.regs .ebp] := by
  have hempty : c.Stack [] := trivial
  have hstack := afterSave_stack hempty (by decide)
  obtain ⟨hfront, -⟩ := (Bytes.hasWords_append _ _ [c.regs .edx, c.regs .ecx, c.regs .ebx,
    c.regs .esi, c.regs .edi, c.regs .ebp] _).mp hstack
  have hwords := hfront.eq_words
  simpa [h.regs, argWords] using hwords.symm

/-- Calls that the same routine answers have the same result. -/
theorem service_eax_congr {c₁ c₂ : Cpu W} (h : SameCall c₁ c₂)
    (hroutine : (c₁.regs .eax).toNat ≤ sysCallTable.length →
      c₁.mem.load (env.slot .sysCallTable (c₁.regs .eax)) =
        c₂.mem.load (env.slot .sysCallTable (c₁.regs .eax)) ∧
      ServiceRoutine (env.routine (c₁.mem.load (env.slot .sysCallTable (c₁.regs .eax))))) :
    (service env c₁).regs .eax = (service env c₂).regs .eax := by
  have heax : c₁.regs .eax = c₂.regs .eax := congrFun h.regs .eax
  rcases Nat.lt_or_ge sysCallTable.length (c₁.regs .eax).toNat with hlt | hge
  · obtain ⟨_, heq₁⟩ := service_of_lt env c₁ hlt
    obtain ⟨_, heq₂⟩ := service_of_lt env c₂ (heax ▸ hlt)
    rw [heq₁, heq₂]
    simp [Cpu.write]
  · obtain ⟨eflags₁, heq₁⟩ := service_of_le env c₁ hge
    obtain ⟨eflags₂, heq₂⟩ := service_of_le env c₂ (heax ▸ hge)
    obtain ⟨htarget, hcdecl⟩ := hroutine hge
    rw [heq₁, heq₂]
    simp only [Env.callTable, ← heax, ← htarget]
    exact hcdecl.eax _ _ ⟨h.regs, h.segs, h.calls, h.world, h.mem⟩

/-- A recorded routine is still a service routine. -/
theorem ServiceRoutine.recording {a : Addr} (h : ServiceRoutine (env.routine a)) (n : ℕ) :
    ServiceRoutine ((env.recording n).routine a) where
  toCdecl := h.toCdecl.recording n
  eax c₁ c₂ hsame := h.eax c₁.forget c₂.forget
    ⟨hsame.regs, hsame.segs, hsame.calls, congrArg Prod.fst hsame.world, hsame.mem⟩

/-- The dispatch logs the call that the program's registers ask for. -/
theorem Framed.service_log {u : Cpu W} {c : Cpu (W × List CallRecord)}
    (h : Framed esp0 (u.withLog []) c)
    (htable : (u.regs .eax).toNat ≤ sysCallTable.length →
      OffStack esp0 (env.slot .sysCallTable (u.regs .eax))) :
    (service (env.recording argWords) (afterSave c)).world.2 = requested env u := by
  have heax : (afterSave c).regs .eax = u.regs .eax := by
    rw [afterSave_eax, h.regs _ (by decide)]
    rfl
  have hlog : (afterSave c).world.2 = [] := by
    rw [afterSave_world, h.world]
    rfl
  rcases Nat.lt_or_ge sysCallTable.length (u.regs .eax).toNat with hlt | hge
  · obtain ⟨_, heq⟩ := service_of_lt (env.recording argWords) (afterSave c) (heax ▸ hlt)
    rw [heq, requested_of_lt hlt]
    simp only [Cpu.write, hlog]
  · have hload : (afterSave c).mem.load (env.slot .sysCallTable (u.regs .eax)) =
        u.mem.load (env.slot .sysCallTable (u.regs .eax)) := h.call_load (htable hge)
    obtain ⟨_, heq⟩ := service_of_le (env.recording argWords) (afterSave c) (heax ▸ hge)
    rw [heq, Env.callTable_recording_log, requested_of_le hge]
    simp only [heax, hload, h.args, hlog]
    rfl

end Call

/-! ## The way back -/

section Handled

variable {env : Env EntryLabel EntrySymbol W} {esp0 : Addr} {u c : Cpu W}

variable (env) in
/-- The state at the end of `RESTORE_ALL`, from the one before `SAVE_ALL`. -/
def handled (c : Cpu W) : Cpu W := (storeResult (service env (afterSave c))).popAll restored

/-- What both handlers leave at the end of `RESTORE_ALL`. -/
structure Handled (env : Env EntryLabel EntrySymbol W) (u c : Cpu W) (ws : List DWord)
    (c' : Cpu W) : Prop where
  back : GivesBack u c'
  edx : c'.regs .edx = u.regs .edx
  ecx : c'.regs .ecx = u.regs .ecx
  eax : c'.regs .eax = (service env (afterSave c)).regs .eax
  world : c'.world = (service env (afterSave c)).world
  stack : c'.Stack ws

variable (env) in
/-- The saved registers survive the call, and so does the frame behind them. -/
theorem Framed.handled_spec (h : Framed esp0 u c) {ws : List DWord} (hws : c.Stack ws)
    (hlen : ws.length ≤ 5)
    (htable : (u.regs .eax).toNat ≤ sysCallTable.length →
      OffStack esp0 (env.slot .sysCallTable (u.regs .eax)))
    (hcall : (u.regs .eax).toNat ≤ sysCallTable.length →
      Cdecl 0 16 (env.routine (u.mem.load (env.slot .sysCallTable (u.regs .eax))))) :
    Handled env u c ws (handled env c) := by
  have heax : (afterSave c).regs .eax = u.regs .eax := by
    rw [afterSave_eax, h.regs _ (by decide)]
  have hsave : (afterSave c).Stack ([] ++ ((Frame.of c).words ++ ws)) :=
    afterSave_stack hws (by omega)
  have hwords : ((Frame.of c).words ++ ws).length = 11 + ws.length := List.length_append
  have hcalled : (u.regs .eax).toNat ≤ sysCallTable.length → Cdecl 0 16
      (env.routine ((afterSave c).mem.load (env.slot .sysCallTable (u.regs .eax)))) := by
    intro hid
    rw [h.call_load (htable hid)]
    exact hcall hid
  rw [← heax] at hcalled
  obtain ⟨hesp, hstack⟩ := service_stack env hcalled hsave rfl (by omega)
  rw [← hesp] at hstack
  obtain ⟨hrestored, hrest⟩ := restored_storeResult hstack (by omega)
  have hreg : ∀ r, r ≠ .esp → c.regs r = u.regs r := h.regs
  have hsegs := hrestored.segs_eq (u := u) (by rw [← h.segs]; rfl) (by rw [← h.segs]; rfl)
    (by rw [← h.segs]; rfl) (by rw [← h.segs]; rfl)
  exact {
    back := {
      ebx := hrestored.ebx.trans (hreg _ (by decide))
      esi := hrestored.esi.trans (hreg _ (by decide))
      edi := hrestored.edi.trans (hreg _ (by decide))
      ebp := hrestored.ebp.trans (hreg _ (by decide))
      segs := hsegs }
    edx := hrestored.edx.trans (hreg _ (by decide))
    ecx := hrestored.ecx.trans (hreg _ (by decide))
    eax := hrestored.eax
    world := hrestored.world
    stack := hrest }

/-- The address behind the word at `ebp`, as `syscall_handler` reads it. -/
theorem returnAddress_enterSysenter (h : OffStack esp0 (u.regs .ebp + 4#32)) :
    returnAddress (enterSysenter esp0 u) = u.mem.load (u.regs .ebp + 4#32) := by
  have hebp : (enterSysenter esp0 u).regs .ebp = u.regs .ebp := by
    simp [enterSysenter, Cpu.setEsp]
  rw [returnAddress, hebp]
  refine Bytes.load_congr fun i hi => ?_
  have hout := h i hi
  refine Cpu.pushAll_mem (enterSysenter esp0 u) _ (by simp) ?_
  simp only [enterSysenter, Cpu.setEsp, Function.update_self, List.length_cons,
    List.length_nil]
  bv_omega

/-- A recorded run is a run of the handler and its log. -/
theorem runs_of_recording {code : Code} {exit : Exit} {c' : Cpu (W × List CallRecord)}
    (h : exec (env.recording argWords) code none (c.withLog []) = some (exit, c')) :
    Runs env code c c'.world.2 exit c'.forget := by
  have hforget := exec_recording env argWords code c []
  rw [h] at hforget
  exact ⟨hforget.symm, h⟩

/-- What a recorded run of a handler leaves. -/
theorem Framed.recorded {u : Cpu W} {c : Cpu (W × List CallRecord)}
    (h : Framed esp0 (u.withLog []) c) {ws : List DWord} (hws : c.Stack ws)
    (hlen : ws.length ≤ 5)
    (hservice : ∀ call ∈ requested env u, ServiceRoutine (env.routine call.routine))
    (htable : (u.regs .eax).toNat ≤ sysCallTable.length →
      OffStack esp0 (env.slot .sysCallTable (u.regs .eax))) :
    Handled (env.recording argWords) (u.withLog []) c ws (handled (env.recording argWords) c) ∧
      (handled (env.recording argWords) c).world.2 = requested env u := by
  have hcdecl : (u.regs .eax).toNat ≤ sysCallTable.length →
      Cdecl 0 16 ((env.recording argWords).routine
        (u.mem.load (env.slot .sysCallTable (u.regs .eax)))) := by
    intro hid
    rw [requested_of_le hid] at hservice
    exact (hservice _ (List.mem_singleton_self _)).toCdecl.recording argWords
  have hhandled := h.handled_spec (env.recording argWords) hws hlen htable hcdecl
  exact ⟨hhandled, by rw [hhandled.world, h.service_log htable]⟩

theorem enterInterrupt_stack (esp0 eip : Addr) (cs ss eflags : DWord) (u : Cpu W) :
    (enterInterrupt esp0 eip cs ss eflags u).Stack [eip, cs, u.eflags, u.regs .esp, ss] := by
  have hempty : (u.setEsp esp0).Stack [] := trivial
  have hstack := Cpu.pushAll_stack [ss, u.regs .esp, u.eflags, cs, eip] hempty (by simp)
  exact hstack.withEflags eflags

theorem enterInterrupt_withLog (esp0 eip : Addr) (cs ss eflags : DWord) (u : Cpu W)
    (log : List CallRecord) : enterInterrupt esp0 eip cs ss eflags (u.withLog log) =
      (enterInterrupt esp0 eip cs ss eflags u).withLog log := by
  have hpush := Cpu.mapWorld_pushAll (fun w => (w, log)) (u.setEsp esp0)
    [ss, u.regs .esp, u.eflags, cs, eip]
  exact congrArg (fun c : Cpu (W × List CallRecord) => { c with eflags := eflags }) hpush.symm

/-- Between its frame and its `iret`, `system_call_handler` runs as recorded. -/
theorem runs_systemCallHandler {c : Cpu W} {log : List CallRecord}
    (h : (handled (env.recording argWords) (c.withLog [])).world.2 = log) :
    Runs env systemCallHandler c log .iret
      (handled (env.recording argWords) (c.withLog [])).forget := by
  rw [← h]
  exact runs_of_recording (exec_systemCallHandler (env.recording argWords) (c.withLog []))

theorem loadReturn_forget (c : Cpu (W × List CallRecord)) :
    (loadReturn c).forget = loadReturn c.forget := rfl

/-- `syscall_handler` runs the same way from the frame that it rebuilds. -/
theorem runs_syscallHandler {c : Cpu W} {log : List CallRecord}
    (h : (handled (env.recording argWords) (rebuildFrame (c.withLog []))).world.2 = log) :
    Runs env syscallHandler c log .sysexit
      (loadReturn (handled (env.recording argWords) (rebuildFrame (c.withLog []))).forget) := by
  have hruns := runs_of_recording (exec_syscallHandler (env.recording argWords) (c.withLog []))
  rw [← handled, loadReturn_forget, loadReturn_world, h] at hruns
  exact hruns

/-- Recorded calls from two frames of one program have the same result. -/
theorem Framed.service_eax {u : Cpu W} {c₁ c₂ : Cpu (W × List CallRecord)}
    (h₁ : Framed esp0 (u.withLog []) c₁) (h₂ : Framed esp0 (u.withLog []) c₂)
    (hservice : ∀ call ∈ requested env u, ServiceRoutine (env.routine call.routine))
    (htable : (u.regs .eax).toNat ≤ sysCallTable.length →
      OffStack esp0 (env.slot .sysCallTable (u.regs .eax))) :
    (service (env.recording argWords) (afterSave c₁)).regs .eax =
      (service (env.recording argWords) (afterSave c₂)).regs .eax := by
  have heax : (afterSave c₁).regs .eax = u.regs .eax := by
    rw [afterSave_eax, h₁.regs _ (by decide)]
    rfl
  refine service_eax_congr (h₁.sameCall h₂) fun hid => ?_
  rw [heax] at hid ⊢
  have hload₁ : (afterSave c₁).mem.load (env.slot .sysCallTable (u.regs .eax)) =
      u.mem.load (env.slot .sysCallTable (u.regs .eax)) := h₁.call_load (htable hid)
  have hload₂ : (afterSave c₂).mem.load (env.slot .sysCallTable (u.regs .eax)) =
      u.mem.load (env.slot .sysCallTable (u.regs .eax)) := h₂.call_load (htable hid)
  rw [requested_of_le hid] at hservice
  refine ⟨hload₁.trans hload₂.symm, ?_⟩
  rw [show (env.recording argWords).slot .sysCallTable (u.regs .eax) =
    env.slot .sysCallTable (u.regs .eax) from rfl, hload₁]
  exact (hservice _ (List.mem_singleton_self _)).recording argWords

theorem GivesBack.forget {c : Cpu (W × List CallRecord)} {log : List CallRecord}
    (h : GivesBack (u.withLog log) c) : GivesBack u c.forget :=
  ⟨h.ebx, h.esi, h.edi, h.ebp, h.segs⟩

/-- The end of `syscall_handler` touches none of the registers that are given back. -/
theorem GivesBack.loadReturn (h : GivesBack u c) : GivesBack u (loadReturn c) where
  ebx := (loadReturn_regs_of_ne c (by decide) (by decide)).trans h.ebx
  esi := (loadReturn_regs_of_ne c (by decide) (by decide)).trans h.esi
  edi := (loadReturn_regs_of_ne c (by decide) (by decide)).trans h.edi
  ebp := (loadReturn_regs_of_ne c (by decide) (by decide)).trans h.ebp
  segs := h.segs

/-- **The two paths of a system call agree.** -/
theorem paths_agree {u : Cpu W}
    (hservice : ∀ call ∈ requested env u, ServiceRoutine (env.routine call.routine))
    (htable : ∀ n : DWord, n.toNat ≤ sysCallTable.length →
      OffStack esp0 (env.slot .sysCallTable n))
    (hreturn : OffStack esp0 (u.regs .ebp + 4#32)) (eip : Addr) (cs ss eflags : DWord) :
    ∃ c₁ c₂,
      Runs env systemCallHandler (enterInterrupt esp0 eip cs ss eflags u) (requested env u)
        .iret c₁ ∧
      Runs env syscallHandler (enterSysenter esp0 u) (requested env u) .sysexit c₂ ∧
      c₁.regs .eax = c₂.regs .eax ∧ GivesBack u c₁ ∧ GivesBack u c₂ ∧
      c₁.regs .edx = u.regs .edx ∧ c₁.regs .ecx = u.regs .ecx ∧
      resumesAt c₁ .iret = (eip, u.regs .esp) ∧
      resumesAt c₂ .sysexit = (u.mem.load (u.regs .ebp + 4#32), u.regs .ebp) := by
  -- both handlers build their frames from the program's state, with an empty log
  have hentry₁ : enterInterrupt esp0 eip cs ss eflags (u.withLog []) =
      (enterInterrupt esp0 eip cs ss eflags u).withLog [] := enterInterrupt_withLog ..
  have hentry₂ : enterSysenter esp0 (u.withLog []) = (enterSysenter esp0 u).withLog [] := rfl
  have hframed₁ := framed_enterInterrupt esp0 eip cs ss eflags (u.withLog [])
  have hframed₂ := framed_rebuildFrame esp0 (u.withLog [])
  obtain ⟨hhandled₁, hlog₁⟩ := hframed₁.recorded
    (enterInterrupt_stack esp0 eip cs ss eflags (u.withLog [])) le_rfl hservice (htable _)
  obtain ⟨hhandled₂, hlog₂⟩ := hframed₂.recorded
    (rebuildFrame_stack (enterSysenter esp0 (u.withLog []))) le_rfl hservice (htable _)
  have heax := hframed₁.service_eax hframed₂ hservice (htable _)
  rw [← hhandled₁.eax, ← hhandled₂.eax] at heax
  -- the frames behind the registers say where the program resumes
  have hiret := hhandled₁.stack
  have hsysexit := hhandled₂.stack
  rw [returnAddress_enterSysenter (u := u.withLog []) hreturn] at hsysexit
  rw [hentry₁] at hhandled₁ hlog₁ heax hiret
  rw [hentry₂] at hhandled₂ hlog₂ heax hsysexit
  have hruns₁ := runs_systemCallHandler hlog₁
  have hruns₂ := runs_syscallHandler hlog₂
  generalize handled (env.recording argWords)
    ((enterInterrupt esp0 eip cs ss eflags u).withLog []) = c₁ at *
  generalize handled (env.recording argWords)
    (rebuildFrame ((enterSysenter esp0 u).withLog [])) = c₂ at *
  obtain ⟨hedx, hecx⟩ := loadReturn_stack (c := c₂.forget) hsysexit
  refine ⟨c₁.forget, loadReturn c₂.forget, hruns₁, hruns₂, ?_, hhandled₁.back.forget,
    hhandled₂.back.forget.loadReturn, hhandled₁.edx, hhandled₁.ecx, ?_, ?_⟩
  · rw [loadReturn_regs_of_ne _ (by decide) (by decide)]
    exact heax
  · exact Prod.ext hiret.1 (Cpu.Stack.load [eip, cs, u.eflags] hiret)
  · have hebp : (enterSysenter esp0 u).regs .ebp = u.regs .ebp := by
      simp [enterSysenter, Cpu.setEsp]
    exact Prod.ext hedx (hecx.trans hebp)

end Handled

/-- A program that asks for the service 4, with its stack in user memory and the address
to resume at behind the word that `ebp` points to. -/
def askingCpu : Cpu Unit where
  regs
    | .eax => 4
    | .edx => 1
    | .ecx => 0x100000#32
    | .ebx => 5
    | .esp => 0x11bff0#32
    | .ebp => 0x11bff0#32
    | _ => 0
  segs _ := 0x2b#16
  eflags := 0x202#32
  mem := Bytes.store (fun _ => 0) 0x11bff4#32 0x114010#32
  calls := []
  world := ()

theorem serviceRoutine_constEnv (W : Type*) (result : DWord) (a : Addr) :
    ServiceRoutine ((constEnv W result).routine a) where
  toCdecl := cdecl_constEnv W result 0 16 a
  eax _ _ _ := by simp [constEnv, Cpu.write]

theorem paths_agree_four :
    ∃ c₁ c₂,
      Runs (constEnv Unit 5) systemCallHandler
        (enterInterrupt 0x21000 0x114008 userCs userDs 0x2 askingCpu)
        (requested (constEnv Unit 5) askingCpu) .iret c₁ ∧
      Runs (constEnv Unit 5) syscallHandler (enterSysenter 0x21000 askingCpu)
        (requested (constEnv Unit 5) askingCpu) .sysexit c₂ ∧
      c₁.regs .eax = c₂.regs .eax ∧ GivesBack askingCpu c₁ ∧ GivesBack askingCpu c₂ ∧
      c₁.regs .edx = askingCpu.regs .edx ∧ c₁.regs .ecx = askingCpu.regs .ecx ∧
      resumesAt c₁ .iret = (0x114008, askingCpu.regs .esp) ∧
      resumesAt c₂ .sysexit =
        (askingCpu.mem.load (askingCpu.regs .ebp + 4#32), askingCpu.regs .ebp) :=
  paths_agree (fun _ _ => serviceRoutine_constEnv Unit 5 _)
    (fun n hn i hi => by
      have hslot : (constEnv Unit 5).slot .sysCallTable n = 0x11000#32 + 4 * n := rfl
      have hlen : sysCallTable.length = 11 := rfl
      rw [hslot]
      bv_omega)
    (by unfold OffStack; decide) 0x114008 userCs userDs 0x2

end Zeos
