import Zeos.Entry
import Zeos.MmAddress

/-!
# The system-call handlers

Two questions about `system_call_handler` and `syscall_handler`.

* **Which routine is called** (`routesNumber_iff`).  The number in `eax` is
  compared with `MAX_SYSCALL`, which is the number of entries of the table and
  not the last of them, by a jump on *greater*.  So the number eleven goes
  through, and its target is read from behind the table.
* **What user mode learns** (`nonInterfering_iff`).  `syscall_handler` reads the
  return address through the user's `ebp`, in ring 0 and without a check, and
  hands it back as the address to resume at.  User mode learns nothing about
  kernel memory exactly as long as `ebp` does not point there.

Both are equivalences for every state of the processor.  In the first the table and what
lies behind it are parameters, so the routine that number eleven leads to is any at all.
In the second two states are compared that agree in all that a program knows
(`KnownByte`): the condition is on four addresses and the entry's stack pointer, not on
what memory holds there, and where it fails two such states are given that end
differently.
-/

namespace Zeos

open Machine

variable {W : Type*}

/-! ## Routing of the numbers -/

/-- What a handler owes to its caller: it comes to an end; for the number of an
entry of `sys_call_table` it makes one call through this entry and returns the
routine's result, and for any other number it makes no call and returns the
error. -/
def RoutesNumber (env : Env EntryLabel EntrySymbol W) (code : Code) (c : Cpu W) : Prop :=
  ∃ exit c', exec env code none c = some (exit, c') ∧
    if (c.regs .eax).toNat < sysCallTable.length then
      ∃ result, c'.calls = (env.slot .sysCallTable (c.regs .eax), result) :: c.calls ∧
        c'.regs .eax = result
    else c'.calls = c.calls ∧ c'.regs .eax = -ENOSYS

section Routing

variable {env : Env EntryLabel EntrySymbol W}

/-- The dispatch, by what it records and returns. -/
theorem service_routed (hret : ∀ a, Balanced (env.routine a)) (c : Cpu W) :
    if (c.regs .eax).toNat ≤ sysCallTable.length then
      (service env c).calls =
        (env.slot .sysCallTable (c.regs .eax), (service env c).regs .eax) :: c.calls
    else (service env c).calls = c.calls ∧ (service env c).regs .eax = -ENOSYS := by
  split
  · next h =>
      obtain ⟨eflags, heq⟩ := service_of_le env c h
      rw [heq, Env.callTable]
      simp only [(hret _).calls]
  · next h =>
      obtain ⟨eflags, heq⟩ := service_of_lt env c (lt_of_not_ge h)
      rw [heq]
      exact ⟨rfl, by simp [Cpu.write]⟩

variable (env) in
/-- The end of a handler keeps the result and the record of the dispatch. -/
theorem restored_service (c : Cpu W) :
    ((storeResult (service env c)).popAll restored).regs .eax =
        (service env c).regs .eax ∧
      ((storeResult (service env c)).popAll restored).calls = (service env c).calls := by
  obtain ⟨f, hf⟩ := exists_frame (service env c)
  obtain ⟨hrestored, -⟩ := restored_storeResult hf (by decide)
  exact ⟨hrestored.eax, hrestored.calls⟩

/-- A handler that dispatches the caller's number routes it, the number of
entries apart. -/
theorem routesNumber_of_dispatch (hret : ∀ a, Balanced (env.routine a)) {code : Code}
    {c s c' : Cpu W} {exit : Exit} (hexec : exec env code none c = some (exit, c'))
    (hnum : s.regs .eax = c.regs .eax) (hcalls : s.calls = c.calls)
    (hres : c'.regs .eax = (service env s).regs .eax)
    (hrec : c'.calls = (service env s).calls) :
    RoutesNumber env code c ↔ c.regs .eax ≠ BitVec.ofNat 32 sysCallTable.length := by
  have hrouted := service_routed hret s
  have hlast : c.regs .eax ≠ BitVec.ofNat 32 sysCallTable.length ↔
      (c.regs .eax).toNat ≠ sysCallTable.length := by
    rw [Ne, ← BitVec.toNat_inj]
    rfl
  rw [← hres, ← hrec, hnum, hcalls] at hrouted
  rw [hlast]
  constructor
  · rintro ⟨exit₁, c₁, hexec₁, hroutes⟩ heq
    obtain ⟨rfl, rfl⟩ : exit = exit₁ ∧ c' = c₁ := by
      simpa [hexec] using hexec₁
    rw [if_neg (by omega)] at hroutes
    rw [if_pos (by omega), hroutes.1] at hrouted
    exact absurd hrouted.symm (List.cons_ne_self _ _)
  · intro hne
    refine ⟨exit, c', hexec, ?_⟩
    split
    · next hlt =>
        rw [if_pos (by omega)] at hrouted
        exact ⟨_, hrouted, rfl⟩
    · next hge =>
        rwa [if_neg (by omega)] at hrouted

theorem systemCallHandler_routes_iff (hret : ∀ a, Balanced (env.routine a)) (c : Cpu W) :
    RoutesNumber env systemCallHandler c ↔
      c.regs .eax ≠ BitVec.ofNat 32 sysCallTable.length := by
  obtain ⟨heax, hcalls⟩ := restored_service env (afterSave c)
  exact routesNumber_of_dispatch hret (exec_systemCallHandler env c) (afterSave_eax c)
    (afterSave_calls c) heax hcalls

theorem syscallHandler_routes_iff (hret : ∀ a, Balanced (env.routine a)) (c : Cpu W) :
    RoutesNumber env syscallHandler c ↔
      c.regs .eax ≠ BitVec.ofNat 32 sysCallTable.length := by
  obtain ⟨heax, hcalls⟩ := restored_service env (afterSave (rebuildFrame c))
  refine routesNumber_of_dispatch hret (s := afterSave (rebuildFrame c))
    (exec_syscallHandler env c) ?_ ?_ ?_ ?_
  · rw [afterSave_eax, rebuildFrame_regs_of_ne c (by decide)]
  · rw [afterSave_calls, rebuildFrame_calls]
  · rw [loadReturn_regs_of_ne _ (by decide) (by decide)]
    exact heax
  · rw [loadReturn_calls]
    exact hcalls

/-- **Both handlers route every number but eleven.** -/
theorem routesNumber_iff (hret : ∀ a, Balanced (env.routine a)) (c : Cpu W) :
    (RoutesNumber env systemCallHandler c ↔ c.regs .eax ≠ 11#32) ∧
      (RoutesNumber env syscallHandler c ↔ c.regs .eax ≠ 11#32) :=
  ⟨systemCallHandler_routes_iff hret c, syscallHandler_routes_iff hret c⟩

end Routing

/-- An address for each label. -/
def EntryLabel.address : EntryLabel → Addr
  | .err => 0x10100#32
  | .fin => 0x10105#32
  | .sysenterErr => 0x10150#32
  | .sysenterFin => 0x10155#32

/-- A kernel whose routines all return one result. -/
def constEnv (W : Type*) (result : DWord) : Env EntryLabel EntrySymbol W where
  address := EntryLabel.address
  labelAt a := [EntryLabel.err, .fin, .sysenterErr, .sysenterFin].find? (·.address == a)
  labelAt_address l := by cases l <;> decide
  symbol
    | .sysCallTable => 0x11000#32
    | .printPageFault => 0x12000#32
    | .pageFaultRoutine => 0x12100#32
    | .keyboardRoutine => 0x12200#32
    | .clockRoutine => 0x12300#32
  routine _ c := c.write (.reg .eax) result
  sysenter _ := none

theorem cdecl_constEnv (W : Type*) (result : DWord) (args depth : ℕ) (a : Addr) :
    Cdecl args depth ((constEnv W result).routine a) where
  esp c := by simp [constEnv, Cpu.write]
  calls _ := rfl
  saved c r hr := by
    have hne : r ≠ .eax := by
      rintro rfl
      exact absurd hr (by decide)
    simp [constEnv, Cpu.write, hne]
  segs _ := rfl
  frame _ _ _ _ := rfl

/-- A processor that enters the kernel with a system-call number. -/
def enteringCpu (eax ebp : DWord) : Cpu Unit where
  regs
    | .eax => eax
    | .ebp => ebp
    | .esp => 0x21000#32
    | _ => 0
  segs _ := 0x2b#16
  eflags := 0x2#32
  mem _ := 0
  calls := []
  world := ()

theorem routesNumber_four :
    (RoutesNumber (constEnv Unit 5) systemCallHandler (enteringCpu 4 0x11bff0) ↔
        (enteringCpu 4 0x11bff0).regs .eax ≠ 11#32) ∧
      (RoutesNumber (constEnv Unit 5) syscallHandler (enteringCpu 4 0x11bff0) ↔
        (enteringCpu 4 0x11bff0).regs .eax ≠ 11#32) :=
  routesNumber_iff (fun a => (cdecl_constEnv Unit 5 0 0 a).toBalanced)
    (enteringCpu 4 0x11bff0)

/-- The number eleven makes the kernel call what the word behind the table
says. -/
theorem not_routesNumber_eleven :
    ¬ RoutesNumber (constEnv Unit 5) systemCallHandler (enteringCpu 11 0x11bff0) ∧
      ¬ RoutesNumber (constEnv Unit 5) syscallHandler (enteringCpu 11 0x11bff0) := by
  have hret : ∀ a, Balanced ((constEnv Unit 5).routine a) :=
    fun a => (cdecl_constEnv Unit 5 0 0 a).toBalanced
  constructor
  · rw [systemCallHandler_routes_iff hret]
    decide
  · rw [syscallHandler_routes_iff hret]
    decide

/-! ## What user mode learns -/

/-- What user mode finds after a `sysexit`: the address it resumes at, and the
general registers, with the stack pointer taken from `ecx`. -/
def resume : Option (Exit × Cpu W) → Option (Addr × (Reg → DWord))
  | some (.sysexit, c) => some (c.regs .edx, Function.update c.regs .esp (c.regs .ecx))
  | _ => none

/-- The service routine comes back with the same result and the same words in its
argument slots. -/
structure SameService (env : Env EntryLabel EntrySymbol W) (c₁ c₂ : Cpu W) : Prop where
  eax : (fastService env c₁).regs .eax = (fastService env c₂).regs .eax
  args : (fastService env c₁).mem.words ((fastService env c₁).regs .esp) 3 =
    (fastService env c₂).mem.words ((fastService env c₂).regs .esp) 3

/-- From the registers of `c`, user mode resumes in the same state for any two
memories that agree on the user's part, given the same result of the service
routine. -/
def NonInterfering (c : Cpu W) : Prop :=
  ∀ env : Env EntryLabel EntrySymbol W, (∀ a, Cdecl 3 16 (env.routine a)) →
    ∀ m₁ m₂ : Bytes, (∀ a : Addr, lUserStart ≤ a.toNat → m₁ a = m₂ a) →
      SameService env { c with mem := m₁ } { c with mem := m₂ } →
      ∃ view, resume (exec env syscallHandler none { c with mem := m₁ }) = some view ∧
        resume (exec env syscallHandler none { c with mem := m₂ }) = some view

section NonInterference

/-- What user mode finds, in terms of the state before the `sysenter`. -/
theorem resume_syscallHandler {env : Env EntryLabel EntrySymbol W}
    (hcall : ∀ a, Cdecl 3 16 (env.routine a)) (c : Cpu W) :
    resume (exec env syscallHandler none c) =
      some (returnAddress c, fun
        | .eax => (fastService env c).regs .eax
        | .ecx => c.regs .ebp
        | .edx => returnAddress c
        | .ebx => (fastService env c).mem.load ((fastService env c).regs .esp + 4 + 4)
        | .esp => c.regs .ebp
        | .ebp => c.regs .ebp
        | .esi => c.regs .esi
        | .edi => c.regs .edi) := by
  obtain ⟨c', hexec, hreturn⟩ := fastReturn_syscallHandler env hcall c
  rw [hexec]
  simp only [resume, hreturn.regs, Option.some.injEq, Prod.mk.injEq, true_and]
  funext r
  cases r <;> simp

/-- The bytes that `syscall_handler` reads through the user's `ebp`. -/
def returnByte (c : Cpu W) (i : ℕ) : Addr := c.regs .ebp + 4#32 + BitVec.ofNat 32 i

/-- A byte that user mode may know: one of its own, or one of the sixteen that the
handler has pushed before. -/
def KnownByte (c : Cpu W) (a : Addr) : Prop :=
  lUserStart ≤ a.toNat ∨ (a - (c.regs .esp - 16#32)).toNat < 16

theorem nonInterfering_of_known {c : Cpu W} (h : ∀ i < 4, KnownByte c (returnByte c i)) :
    NonInterfering c := by
  intro env hcall m₁ m₂ hagree hsame
  have haddr : returnAddress { c with mem := m₁ } = returnAddress { c with mem := m₂ } := by
    refine Bytes.load_congr fun i hi => ?_
    exact Cpu.pushAll_mem_congr { c with mem := m₁ } { c with mem := m₂ } rfl
      [userDs, c.regs .ebp, c.eflags, userCs] (by simp) ((h i hi).imp_left (hagree _))
  have hebx : (fastService env { c with mem := m₁ }).mem.load
        ((fastService env { c with mem := m₁ }).regs .esp + 4 + 4) =
      (fastService env { c with mem := m₂ }).mem.load
        ((fastService env { c with mem := m₂ }).regs .esp + 4 + 4) :=
    congrArg (·.getD 2 0) hsame.args
  refine ⟨_, resume_syscallHandler hcall _, ?_⟩
  rw [resume_syscallHandler hcall, haddr, hebx, hsame.eax]

/-- With routines that leave memory alone, the service does. -/
theorem service_constEnv (result : DWord) (c : Cpu W) :
    (service (constEnv W result) c).mem = c.mem ∧
      (service (constEnv W result) c).regs .esp = c.regs .esp ∧
      (service (constEnv W result) c).regs .eax =
        if (c.regs .eax).toNat ≤ sysCallTable.length then result else -ENOSYS := by
  split
  · next hle =>
      obtain ⟨eflags, heq⟩ := service_of_le (constEnv W result) c hle
      rw [heq]
      simp [Env.callTable, constEnv, Cpu.write]
  · next hgt =>
      obtain ⟨eflags, heq⟩ := service_of_lt (constEnv W result) c (lt_of_not_ge hgt)
      rw [heq]
      simp [Cpu.write]

/-- A byte that user mode may not know is leaked, whatever the service routine
does. -/
theorem not_nonInterfering_of_not_known {c : Cpu W} {i : ℕ} (hi : i < 4)
    (h : ¬ KnownByte c (returnByte c i)) : ¬ NonInterfering c := by
  intro hni
  obtain ⟨hkernel, hframe⟩ := not_or.mp h
  have hcall : ∀ a, Cdecl 3 16 ((constEnv W 0).routine a) :=
    fun a => cdecl_constEnv W 0 3 16 a
  let m₁ : Bytes := fun _ => 0
  let m₂ : Bytes := Function.update m₁ (returnByte c i) 1
  have hagree : ∀ a : Addr, lUserStart ≤ a.toNat → m₁ a = m₂ a := by
    intro a ha
    refine (Function.update_of_ne ?_ _ _).symm
    rintro rfl
    exact hkernel ha
  have hargs : ∀ m : Bytes, (fastService (constEnv W 0) { c with mem := m }).mem.words
      ((fastService (constEnv W 0) { c with mem := m }).regs .esp) 3 =
        [c.regs .edx, c.regs .ecx, c.regs .ebx] := by
    intro m
    obtain ⟨hmem, hesp, -⟩ :=
      service_constEnv 0 (afterSave (rebuildFrame { c with mem := m }))
    obtain ⟨hfront, -⟩ := (Bytes.hasWords_append _ _ _ _).mp
      (fastCall_stack { c with mem := m })
    rw [fastService, hmem, hesp]
    exact hfront.eq_words.symm
  have heax : ∀ m : Bytes, (fastService (constEnv W 0) { c with mem := m }).regs .eax =
      if (c.regs .eax).toNat ≤ sysCallTable.length then 0 else -ENOSYS := by
    intro m
    rw [fastService, (service_constEnv 0 _).2.2, afterSave_eax,
      rebuildFrame_regs_of_ne _ (by decide)]
  have hsame : SameService (constEnv W 0) { c with mem := m₁ } { c with mem := m₂ } :=
    ⟨(heax m₁).trans (heax m₂).symm, (hargs m₁).trans (hargs m₂).symm⟩
  obtain ⟨view, h₁, h₂⟩ := hni (constEnv W 0) hcall m₁ m₂ hagree hsame
  rw [resume_syscallHandler hcall] at h₁ h₂
  have haddr : returnAddress { c with mem := m₁ } = returnAddress { c with mem := m₂ } :=
    congrArg Prod.fst (Option.some.inj (h₁.trans h₂.symm))
  have hkeep : ∀ m : Bytes,
      (Cpu.pushAll { c with mem := m } [userDs, c.regs .ebp, c.eflags, userCs]).mem
        (returnByte c i) = m (returnByte c i) :=
    fun m => Cpu.pushAll_mem { c with mem := m } _ (by simp) (le_of_not_gt hframe)
  have hbyte : m₁ (returnByte c i) = m₂ (returnByte c i) :=
    (hkeep m₁).symm.trans ((Bytes.apply_eq_of_load_eq haddr hi).trans (hkeep m₂))
  simp [m₂, m₁] at hbyte

/-- **`syscall_handler` keeps kernel memory to itself exactly if the return address
is read from bytes that user mode may know.** -/
theorem nonInterfering_iff (c : Cpu W) :
    NonInterfering c ↔ ∀ i < 4, KnownByte c (returnByte c i) := by
  constructor
  · intro hni i hi
    by_contra hnot
    exact not_nonInterfering_of_not_known hi hnot hni
  · exact nonInterfering_of_known

end NonInterference

/-- With `ebp` pointing into the kernel's image, user mode resumes at an address read
from there. -/
theorem not_nonInterfering_kernel : ¬ NonInterfering (enteringCpu 4 0x10000) :=
  not_nonInterfering_of_not_known (by decide : 0 < 4) (by
    rw [KnownByte, returnByte]
    decide)

end Zeos
