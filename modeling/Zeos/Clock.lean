import Zeos.Machine.Recording
import Zeos.Machine.Run
import Zeos.LibcSys

/-!
# The clock (`clock.c`, `sys_gettime` of `sys.c`)

The handler `clock_handler` counts its interrupts in `zeos_ticks`, and a program reads
the counter through the wrapper `gettime`.  Both run as code here: a step of the run is
an interrupt, through the handler, or a call of the wrapper, through `sysenter` and back.

The counter is a signed `int`, and the wrapper takes a negative result for an error.
`gettime_run_iff` says how far the two go together: the calls of a run are right exactly
as long as each is made with fewer than 2³¹ interrupts behind it.

The run is over any processor, any program and any order of the two kinds of step.  What
is asked of the routines is a structure of hypotheses (`ClockSystem`): that they keep to
the C calling convention and do to the counter what their source says, and that
`sys_gettime`, called with the stack where `syscall_handler` puts it, leaves the user's
memory alone.  The counter wraps at 2³² and its sign at 2³¹; the theorem counts the
interrupts as a natural number, so the two directions say what the wrapper makes of every
value of the counter.
-/

namespace Zeos

open Machine

/-! ## The C functions -/

/-- The kernel's state: the counter, and the rest, for `zeos_show_clock`. -/
structure Clock (R : Type*) where
  zeosTicks : DWord
  rest : R

section C

variable {R : Type*}

/-- `reset_clock_ticks`. -/
def resetClockTicks (k : Clock R) : Clock R := { k with zeosTicks := 0 }

/-- `get_clock_ticks`. -/
def getClockTicks (k : Clock R) : DWord := k.zeosTicks

/-- `clock_routine`.  The increment wraps around. -/
def clockRoutine (zeosShowClock : Clock R → Clock R) (k : Clock R) : Clock R :=
  zeosShowClock { k with zeosTicks := k.zeosTicks + 1 }

/-- `sys_gettime`. -/
def sysGettime (k : Clock R) : DWord := getClockTicks k

end C

/-! ## The wrapper -/

section Wrapper

variable {K : Type*} (S : System K)

/-- The state with the frame of `gettime` on the stack. -/
def enterGettime (c : Cpu (World K)) : Cpu (World K) :=
  (c.push (c.regs .ebp)).write (.reg .ebp) (c.regs .esp - 4#32)

theorem exec_enterGettime (rest : LibcCode) (c : Cpu (World K)) :
    exec S.libc ([.pushl (.reg .ebp), .movl (.reg .esp) (.reg .ebp)] ++ rest) none c =
      exec S.libc rest none (enterGettime c) := by
  simp [exec, Cpu.read, enterGettime]

theorem enterGettime_regs (c : Cpu (World K)) :
    (enterGettime c).regs = fun
      | .esp => c.regs .esp - 4#32
      | .ebp => c.regs .esp - 4#32
      | r => c.regs r := by
  funext r
  cases r <;> simp [enterGettime, Cpu.write]

theorem enterGettime_mem (c : Cpu (World K)) {a : Addr}
    (h : 4 ≤ (a - (c.regs .esp - 4#32)).toNat) : (enterGettime c).mem a = c.mem a :=
  Bytes.write_apply_of_le c.mem _ _ h

theorem enterGettime_stack {c : Cpu (World K)} {ws : List DWord} (h : c.Stack ws)
    (hlen : ws.length ≤ 4) : (enterGettime c).Stack (c.regs .ebp :: ws) := by
  have hpush : (c.push (c.regs .ebp)).Stack (c.regs .ebp :: ws) :=
    Cpu.push_stack _ h (by omega)
  simpa [Cpu.Stack, enterGettime, Cpu.write] using hpush

/-- The return of `gettime`, with its frame on the stack. -/
theorem exec_leaveGettime {c : Cpu (World K)} {ebp ret : DWord} (h : c.Stack [ebp, ret]) :
    ∃ c', exec S.libc [.popl (.reg .ebp), .ret] none c = some (.ret, c') ∧ c'.top = ret ∧
      c'.calls = c.calls ∧ c'.world = c.world ∧
      c'.regs = fun
        | .ebp => ebp
        | .esp => c.regs .esp + 4#32
        | r => c.regs r := by
  have htarget : Cpu.PopTarget (.reg .ebp) := by simp [Cpu.PopTarget]
  obtain ⟨hpop, hstack⟩ := Cpu.pop_stack h htarget
  refine ⟨c.pop (.reg .ebp), rfl, hstack.top, rfl, rfl, ?_⟩
  rw [hpop]
  funext r
  cases r <;> simp [Cpu.write, Cpu.setEsp]

/-- **A call of `gettime` returns to its caller with the kernel's result.** -/
theorem exec_gettime {c : Cpu (World K)} {ret : DWord} (h : c.Stack [ret])
    (hlow : lUserStart + 12 ≤ (c.regs .esp).toNat)
    (hhigh : (c.regs .esp).toNat + 4 ≤ 2 ^ 32)
    (hkeep : ∀ s, ServiceCall S c s → ∀ i < 16,
      (S.kernel.routine (s.mem.load (S.kernel.slot .sysCallTable 10#32)) s).mem
          (c.regs .esp - 12#32 + BitVec.ofNat 32 i) =
        s.mem (c.regs .esp - 12#32 + BitVec.ofNat 32 i)) :
    ∃ s c', exec S.libc gettime none c = some (.ret, c') ∧ c'.top = ret ∧
      Syscall S 10#32 [c.regs .edx, c.regs .ecx, c.regs .ebx] 12 c s c' ∧
      KernelSide S 10#32 c s c' := by
  have hstack₁ := enterGettime_stack h (by simp)
  have hregs₁ := enterGettime_regs c
  have hmem₁ := fun a => enterGettime_mem c (a := a)
  have hcalls₁ : (enterGettime c).calls = c.calls := rfl
  have hworld₁ : (enterGettime c).world = c.world := rfl
  have hrun₁ : exec S.libc gettime none c =
      exec S.libc (syscall 10#32 .sysRet10 .errFi10 ++ [.popl (.reg .ebp), .ret]) none
        (enterGettime c) := by
    rw [gettime, List.append_assoc, exec_enterGettime]
  generalize enterGettime c = c₁ at *
  have hsub : (c.regs .esp - 4#32).toNat = (c.regs .esp).toNat - 4 := by
    simp only [lUserStart] at hlow
    bv_omega
  have hsp : c₁.regs .esp - 8#32 = c.regs .esp - 12#32 := by
    simp only [hregs₁]
    bv_omega
  -- the word pushed lies in the user's memory
  have hkernel : ∀ s, ServiceCall S c₁ s → ServiceCall S c s := by
    refine fun s hs => ⟨hs.esp, fun a ha hout => ?_⟩
    rw [hs.mem a ha hout, hmem₁ a (by bv_omega)]
  obtain ⟨s, c₂, hrun₂, hstack₂, hcall, hside⟩ := exec_syscall S 10#32 (by decide)
    .sysRet10 .errFi10 [.popl (.reg .ebp), .ret] hstack₁ (by simp)
    (by simp only [hregs₁, hsub]; omega)
    (by simp only [hregs₁, hsub, List.length_cons, List.length_nil]; omega)
    (by rw [hsp]; exact fun s hs => hkeep s (hkernel s hs))
  obtain ⟨c', hrun', htop, hcalls', hworld', hregs'⟩ := exec_leaveGettime S hstack₂
  have hframe := hcall.of_frame S (n := 4) (by decide) (by rw [hregs₁]) (by simp [hregs₁])
    hmem₁ hcalls₁ hworld₁ (by rw [hregs']) (by rw [hregs']) (by simp [hregs']) hcalls' hworld'
  have hworld : c'.world.kernel = (S.kernel.routine
      (s.mem.load (S.kernel.slot .sysCallTable 10#32)) s).world.kernel := by
    rw [hworld', hside.world]
  refine ⟨s, c', hrun₁.trans (hrun₂.trans hrun'), htop, ?_, hkernel s hside.call, hworld⟩
  simpa only [hregs₁] using hframe

end Wrapper

/-! ## The run -/

/-- The processor of a program, with what lies behind its registers and its memory. -/
def inWorld {W : Type*} (w : W) (c : Cpu Unit) : Cpu W := c.mapWorld fun _ => w

/-- A system whose kernel counts.  The address `sysGettime` is that of `sys_gettime`,
which leaves the kernel's state alone, and called on the kernel's stack the user's memory. -/
structure ClockSystem (R : Type*) extends System (Clock R) where
  zeosShowClock : Clock R → Clock R
  zeosShowClock_ticks : ∀ k, (zeosShowClock k).zeosTicks = k.zeosTicks
  clockRoutine : ∀ c, (kernel.routine (kernel.symbol .clockRoutine) c).world.kernel =
    Zeos.clockRoutine zeosShowClock c.world.kernel
  sysGettime : Addr
  sysGettime_eax : ∀ c, (kernel.routine sysGettime c).regs .eax =
    Zeos.sysGettime c.world.kernel
  sysGettime_kernel : ∀ c, (kernel.routine sysGettime c).world.kernel = c.world.kernel
  sysGettime_mem : ∀ c (a : Addr), c.regs .esp = esp0 - 64#32 → lUserStart ≤ a.toNat →
    (kernel.routine sysGettime c).mem a = c.mem a
  table_off : ∀ i < 4, 64 ≤ (kernel.slot .sysCallTable 10#32 + BitVec.ofNat 32 i -
    (esp0 - 64#32)).toNat
  table_below : ∀ i < 4, (kernel.slot .sysCallTable 10#32 + BitVec.ofNat 32 i).toNat <
    lUserStart

section Run

variable {R : Type*} (S : ClockSystem R)

/-- A program that is about to enter `gettime`, with room on its stack, and with the
address of `sys_gettime` in the table. -/
structure Caller where
  cpu : Cpu Unit
  low : lUserStart + 12 ≤ (cpu.regs .esp).toNat
  high : (cpu.regs .esp).toNat + 4 ≤ 2 ^ 32
  table : cpu.mem.load (S.kernel.slot .sysCallTable 10#32) = S.sysGettime

/-- What happens to the clock: an interrupt arrives, with the processor in any state, or a
program calls `gettime`. -/
inductive ClockOp
  | clock (c : Cpu Unit)
  | gettime (caller : Caller S)

/-- A call of `gettime` that has returned: the interrupts handled before it, its result,
and `errno` before and after. -/
structure GettimeCall where
  handled : ℕ
  result : DWord
  errno : DWord
  errno' : DWord

/-- The world, the number of interrupts handled since the reset, and the calls that have
returned, the latest first. -/
structure ClockState (R : Type*) where
  world : World (Clock R)
  handled : ℕ
  calls : List GettimeCall

/-- The state after `reset_clock_ticks`. -/
def afterReset (w : World (Clock R)) : ClockState R where
  world := { w with kernel := resetClockTicks w.kernel }
  handled := 0
  calls := []

/-- One operation: a run of `clock_handler`, or of `gettime`.  `none` is a run that does
not come back. -/
def clockStep (s : ClockState R) : ClockOp S → Option (ClockState R)
  | .clock c =>
      match exec S.kernel clockHandler none (inWorld s.world c) with
      | some (.iret, c') => some { s with world := c'.world, handled := s.handled + 1 }
      | _ => none
  | .gettime caller =>
      match exec S.libc gettime none (inWorld s.world caller.cpu) with
      | some (.ret, c') => some { s with
          world := c'.world
          calls := ⟨s.handled, c'.regs .eax, s.world.errno, c'.world.errno⟩ :: s.calls }
      | _ => none

/-- An operation of a run that has come back so far. -/
def clockRun (s : Option (ClockState R)) (op : ClockOp S) : Option (ClockState R) :=
  s.bind fun s => clockStep S s op

/-- A call returns the number of interrupts handled, and leaves `errno` alone. -/
def GettimeCall.Exact (call : GettimeCall) : Prop :=
  call.result.toInt = call.handled ∧ call.errno' = call.errno

/-- The calls have returned and are exact, and their results never decrease. -/
def ExactCalls (s : Option (ClockState R)) : Prop :=
  ∃ s', s = some s' ∧ (∀ call ∈ s'.calls, call.Exact) ∧
    s'.calls.Pairwise fun later earlier => earlier.result.toInt ≤ later.result.toInt

/-- The counter holds the number of interrupts, up to its width, and no call saw more. -/
structure Counting (s : ClockState R) : Prop where
  ticks : s.world.kernel.zeosTicks = BitVec.ofNat 32 s.handled
  calls : ∀ call ∈ s.calls, call.handled ≤ s.handled

/-! ### One operation -/

/-- An interrupt comes back, with one more count. -/
theorem clockStep_clock (s : ClockState R) (c : Cpu Unit) :
    ∃ w, clockStep S s (.clock c) = some { s with world := w, handled := s.handled + 1 } ∧
      w.kernel.zeosTicks = s.world.kernel.zeosTicks + 1 := by
  have hexec := exec_clockHandler S.kernel (inWorld s.world c)
  have hworld : ((afterSave (inWorld s.world c)).setAl 0x20).world = s.world := by
    rw [Cpu.setAl, Cpu.write_world, afterSave_world]
    rfl
  generalize (afterSave (inWorld s.world c)).setAl 0x20 = c₁ at hexec hworld
  refine ⟨_, by rw [clockStep, hexec], ?_⟩
  rw [Cpu.popAll_world, S.clockRoutine, hworld, Zeos.clockRoutine, S.zeosShowClock_ticks]

/-- The service routine that a caller reaches is `sys_gettime`. -/
theorem Caller.load_table (caller : Caller S) {w : World (Clock R)} {s : Cpu (World (Clock R))}
    (hs : ServiceCall S.toSystem (inWorld w caller.cpu) s) :
    s.mem.load (S.kernel.slot .sysCallTable 10#32) = S.sysGettime := by
  rw [← caller.table]
  exact Bytes.load_congr fun i hi => hs.mem _ (S.table_below i hi) (S.table_off i hi)

/-- A call of `gettime` comes back with the counter, or with an error if that is
negative. -/
theorem clockStep_gettime (s : ClockState R) (caller : Caller S) :
    ∃ w call, clockStep S s (.gettime caller) =
        some { s with world := w, calls := call :: s.calls } ∧
      w.kernel = s.world.kernel ∧ call.handled = s.handled ∧
      (0 ≤ s.world.kernel.zeosTicks.toInt →
        call.result = s.world.kernel.zeosTicks ∧ call.errno' = call.errno) ∧
      (s.world.kernel.zeosTicks.toInt < 0 → call.result = -1) := by
  have hstack : (inWorld s.world caller.cpu).Stack [(inWorld s.world caller.cpu).top] :=
    ⟨rfl, trivial⟩
  -- the wrapper's frame is the user's memory, which `sys_gettime` leaves alone
  have hkeep : ∀ s₁, ServiceCall S.toSystem (inWorld s.world caller.cpu) s₁ → ∀ i < 16,
      (S.kernel.routine (s₁.mem.load (S.kernel.slot .sysCallTable 10#32)) s₁).mem
          (caller.cpu.regs .esp - 12#32 + BitVec.ofNat 32 i) =
        s₁.mem (caller.cpu.regs .esp - 12#32 + BitVec.ofNat 32 i) := by
    intro s₁ hs₁ i hi
    have hlow := caller.low
    have hhigh := caller.high
    rw [caller.load_table S hs₁]
    refine S.sysGettime_mem s₁ _ hs₁.esp (user_add ?_ ?_ hi)
    · simp only [lUserStart] at hlow ⊢
      bv_omega
    · simp only [lUserStart] at hlow
      bv_omega
  obtain ⟨s₁, c', hexec, -, hcall, hside⟩ :=
    exec_gettime S.toSystem hstack caller.low caller.high hkeep
  have hworld : s₁.world = s.world := hcall.called.world
  have hresult : result S.toSystem 10#32 s₁ = s.world.kernel.zeosTicks := by
    rw [result, caller.load_table S hside.call, S.sysGettime_eax, hworld]
    rfl
  have hkernel : c'.world.kernel = s.world.kernel := by
    rw [hside.world, caller.load_table S hside.call, S.sysGettime_kernel, hworld]
  have hreported := hcall.reported
  rw [hresult] at hreported
  exact ⟨c'.world, ⟨s.handled, c'.regs .eax, s.world.errno, c'.world.errno⟩,
    by rw [clockStep, hexec], hkernel, rfl, hreported.1, fun hneg => (hreported.2 hneg).1⟩

/-- As a signed number, a counter of 32 bits is exact below 2³¹. -/
theorem toInt_ofNat_eq_iff (n : ℕ) : (BitVec.ofNat 32 n).toInt = n ↔ n < 2 ^ 31 := by
  rw [BitVec.toInt_eq_toNat_cond, BitVec.toNat_ofNat]
  split <;> omega

/-- The number of interrupts in a run. -/
def interrupts : List (ClockOp S) → ℕ
  | [] => 0
  | .clock _ :: ops => interrupts ops + 1
  | .gettime _ :: ops => interrupts ops

theorem interrupts_append (ops ops' : List (ClockOp S)) :
    interrupts S (ops ++ ops') = interrupts S ops + interrupts S ops' := by
  induction ops with
  | nil => exact (Nat.zero_add _).symm
  | cons op ops ih =>
      cases op with
      | clock c => rw [List.cons_append, interrupts, interrupts, ih, Nat.add_right_comm]
      | gettime caller => rw [List.cons_append, interrupts, interrupts, ih]

/-- The counter goes on counting. -/
theorem Counting.clockStep {s : ClockState R} (h : Counting s) (op : ClockOp S) :
    ∃ s', clockStep S s op = some s' ∧ Counting s' ∧
      s'.handled = s.handled + interrupts S [op] := by
  cases op with
  | clock c =>
      obtain ⟨w, hstep, hticks⟩ := clockStep_clock S s c
      refine ⟨_, hstep, ⟨?_, fun call hcall => (h.calls call hcall).trans (Nat.le_succ _)⟩, rfl⟩
      show w.kernel.zeosTicks = BitVec.ofNat 32 (s.handled + 1)
      rw [hticks, h.ticks, BitVec.ofNat_add]
      rfl
  | gettime caller =>
      obtain ⟨w, call, hstep, hkernel, hhandled, -, -⟩ := clockStep_gettime S s caller
      refine ⟨_, hstep, ⟨?_, List.forall_mem_cons.mpr ⟨hhandled.le, h.calls⟩⟩, rfl⟩
      show w.kernel.zeosTicks = BitVec.ofNat 32 s.handled
      rw [hkernel, h.ticks]

/-- A call of `gettime` is exact as long as the counter fits a signed number. -/
theorem Counting.exact_iff {s : ClockState R} (h : Counting s) {call : GettimeCall}
    (hhandled : call.handled = s.handled)
    (hnonneg : 0 ≤ s.world.kernel.zeosTicks.toInt →
      call.result = s.world.kernel.zeosTicks ∧ call.errno' = call.errno)
    (hneg : s.world.kernel.zeosTicks.toInt < 0 → call.result = -1) :
    call.Exact ↔ s.handled < 2 ^ 31 := by
  have hiff := toInt_ofNat_eq_iff s.handled
  rw [h.ticks] at hnonneg hneg
  rw [GettimeCall.Exact, hhandled]
  constructor
  · rintro ⟨hresult, -⟩
    rcases lt_or_ge (BitVec.ofNat 32 s.handled).toInt 0 with hlt | hge
    · rw [hneg hlt, show ((-1 : DWord)).toInt = -1 from rfl] at hresult
      omega
    · rw [(hnonneg hge).1] at hresult
      exact hiff.mp hresult
  · intro hlt
    have hint := hiff.mpr hlt
    obtain ⟨hresult, herrno⟩ := hnonneg (by omega)
    exact ⟨by rw [hresult, hint], herrno⟩

/-- The condition of an operation: a call of `gettime` is made with fewer than 2³¹
interrupts behind it. -/
def InRange (s : Option (ClockState R)) : ClockOp S → Prop
  | .clock _ => True
  | .gettime _ => ∀ s', s = some s' → s'.handled < 2 ^ 31

/-- An operation keeps the calls exact exactly if it meets the condition. -/
theorem exactCalls_clockRun_iff {s : ClockState R} (hcount : Counting s)
    (hexact : ExactCalls (some s)) (op : ClockOp S) :
    ExactCalls (clockRun S (some s) op) ↔ InRange S (some s) op := by
  obtain ⟨s₀, hs₀, hcalls, hsorted⟩ := hexact
  obtain rfl : s = s₀ := Option.some.inj hs₀
  -- an interrupt adds no call, so only a call can be wrong
  cases op with
  | clock c =>
      obtain ⟨w, hstep, -⟩ := clockStep_clock S s c
      exact iff_of_true ⟨_, hstep, hcalls, hsorted⟩ trivial
  | gettime caller =>
      obtain ⟨w, call, hstep, -, hhandled, hnonneg, hneg⟩ := clockStep_gettime S s caller
      have hiff := hcount.exact_iff hhandled hnonneg hneg
      constructor
      · rintro ⟨s', hs', hcalls', -⟩ s₁ hs₁
        obtain rfl : s = s₁ := Option.some.inj hs₁
        have hnext : _ = some s' := hstep.symm.trans hs'
        rw [← Option.some.inj hnext] at hcalls'
        exact hiff.mp (hcalls' call List.mem_cons_self)
      · intro hrange
        have hcall := hiff.mpr (hrange s rfl)
        refine ⟨_, hstep, List.forall_mem_cons.mpr ⟨hcall, hcalls⟩,
          List.pairwise_cons.mpr ⟨fun earlier hmem => ?_, hsorted⟩⟩
        rw [(hcalls earlier hmem).1, hcall.1, hhandled]
        exact_mod_cast hcount.calls earlier hmem

/-! ### The whole run -/

/-- A run comes back, and has counted its interrupts. -/
theorem Counting.run {s : ClockState R} (h : Counting s) (ops : List (ClockOp S)) :
    ∃ s', ops.foldl (clockRun S) (some s) = some s' ∧ Counting s' ∧
      s'.handled = s.handled + interrupts S ops := by
  induction ops generalizing s with
  | nil => exact ⟨s, rfl, h, rfl⟩
  | cons op ops ih =>
      obtain ⟨s₁, hstep, hcount, hhandled⟩ := h.clockStep S op
      obtain ⟨s₂, hrun, hcount₂, hhandled₂⟩ := ih hcount
      refine ⟨s₂, ?_, hcount₂, ?_⟩
      · rw [List.foldl_cons, clockRun, Option.bind_some, hstep]
        exact hrun
      · rw [hhandled₂, hhandled, Nat.add_assoc, ← interrupts_append]
        rfl

theorem counting_afterReset (w : World (Clock R)) : Counting (afterReset w) where
  ticks := rfl
  calls _ hcall := absurd hcall List.not_mem_nil

theorem exactCalls_afterReset (w : World (Clock R)) : ExactCalls (some (afterReset w)) :=
  ⟨_, rfl, fun _ hcall => absurd hcall List.not_mem_nil, List.Pairwise.nil⟩

/-- **The calls of a run are exact exactly if each is made with fewer than 2³¹
interrupts since the reset.** -/
theorem gettime_run_iff (w : World (Clock R)) (ops : List (ClockOp S)) :
    AllStates (clockRun S) ExactCalls (some (afterReset w)) ops ↔
      ∀ before caller after, ops = before ++ .gettime caller :: after →
        interrupts S before < 2 ^ 31 := by
  have hcounting : ∀ o op, (∃ s, o = some s ∧ Counting s) →
      ∃ s, clockRun S o op = some s ∧ Counting s := by
    rintro _ op ⟨s, rfl, hcount⟩
    obtain ⟨s', hstep, hcount', -⟩ := hcount.clockStep S op
    exact ⟨s', hstep, hcount'⟩
  -- calls are the steps that can break exactness, and all steps keep `Counting`
  rw [allStates_iff_allSteps (clockRun S) (G := InRange S) hcounting
      (by
        rintro _ op ⟨s, rfl, hcount⟩ hexact
        exact exactCalls_clockRun_iff S hcount hexact op)
      ⟨_, rfl, counting_afterReset w⟩ (exactCalls_afterReset w),
    allSteps_iff_forall_append]
  constructor
  · intro hall before caller after hops
    obtain ⟨s, hrun, -, hhandled⟩ := (counting_afterReset w).run S before
    have hrange := hall before _ after hops s hrun
    rw [hhandled] at hrange
    simpa [afterReset] using hrange
  · intro hall before op after hops
    cases op with
    | clock c => trivial
    | gettime caller =>
        intro s hs
        obtain ⟨s', hrun, -, hhandled⟩ := (counting_afterReset w).run S before
        obtain rfl : s' = s := Option.some.inj (hrun.symm.trans hs)
        rw [hhandled]
        simpa [afterReset] using hall before caller after hops

/-- A call that is made too late is not exact. -/
theorem not_exactCalls_of_late (w : World (Clock R)) {ops : List (ClockOp S)}
    (h : 2 ^ 31 ≤ interrupts S ops) (caller : Caller S) :
    ¬ AllStates (clockRun S) ExactCalls (some (afterReset w)) (ops ++ [.gettime caller]) := by
  intro hall
  rw [allStates_iff_forall_foldl] at hall
  have hbefore := hall ops (List.prefix_append ops _)
  have hafter := hall _ (List.prefix_refl _)
  obtain ⟨s, hrun, hcount, hhandled⟩ := (counting_afterReset w).run S ops
  rw [List.foldl_append, hrun] at hafter
  rw [hrun] at hbefore
  have hrange := (exactCalls_clockRun_iff S hcount hbefore (.gettime caller)).mp hafter s rfl
  rw [hhandled] at hrange
  exact absurd (hrange.trans_le h) (by simp [afterReset])

theorem interrupts_replicate (n : ℕ) (c : Cpu Unit) :
    interrupts S (List.replicate n (.clock c)) = n := by
  induction n with
  | zero => rfl
  | succ n ih => rw [List.replicate_succ, interrupts, ih]

end Run

/-- A kernel with a clock and the service `gettime`. -/
def countingEnv : Env EntryLabel EntrySymbol (World (Clock Unit)) where
  address := (constEnv Unit 0).address
  labelAt := (constEnv Unit 0).labelAt
  labelAt_address := (constEnv Unit 0).labelAt_address
  symbol := (constEnv Unit 0).symbol
  routine a c :=
    if a = 0x13000#32 then c.write (.reg .eax) (sysGettime c.world.kernel)
    else { c with world := { c.world with kernel := clockRoutine id c.world.kernel } }
  sysenter _ := none

theorem countingEnv_sysGettime (c : Cpu (World (Clock Unit))) :
    countingEnv.routine 0x13000#32 c = c.write (.reg .eax) (sysGettime c.world.kernel) := by
  simp [countingEnv]

theorem countingEnv_of_ne {a : Addr} (h : a ≠ 0x13000#32) (c : Cpu (World (Clock Unit))) :
    countingEnv.routine a c =
      { c with world := { c.world with kernel := clockRoutine id c.world.kernel } } :=
  if_neg h

theorem cdecl_countingEnv (args depth : ℕ) (a : Addr) :
    Cdecl args depth (countingEnv.routine a) := by
  by_cases h : a = 0x13000#32
  · rw [h, funext countingEnv_sysGettime]
    exact {
      esp := fun c => by simp [Cpu.write]
      calls := fun _ => rfl
      saved := fun c r hr => by
        have hne : r ≠ .eax := by
          rintro rfl
          exact absurd hr (by decide)
        simp [Cpu.write, hne]
      segs := fun _ => rfl
      frame := fun _ _ _ _ => rfl }
  · rw [funext (countingEnv_of_ne h)]
    exact {
      esp := fun _ => rfl
      calls := fun _ => rfl
      saved := fun _ _ _ => rfl
      segs := fun _ => rfl
      frame := fun _ _ _ _ => rfl }

/-- The kernel with the C library. -/
def countingSystem : ClockSystem Unit where
  kernel := countingEnv
  libc := {
    address := LibcLabel.address
    labelAt := (constSystem 0).libc.labelAt
    labelAt_address := (constSystem 0).libc.labelAt_address
    symbol := (constSystem 0).libc.symbol
    routine _ c := { c with world := setErrno c.top c.world }
    sysenter := sysenterThrough countingEnv 0x21000#32 }
  esp0 := 0x21000#32
  sysenter := rfl
  room := (constSystem 0).room
  below := (constSystem 0).below
  service a := cdecl_countingEnv 3 16 a
  service_errno a c := by
    by_cases h : a = 0x13000#32
    · rw [h, countingEnv_sysGettime, Cpu.write_world]
    · rw [countingEnv_of_ne h]
  setErrno := {
    esp _ := rfl
    calls _ := rfl
    saved _ _ _ := rfl
    segs _ := rfl
    frame _ _ _ _ := rfl }
  setErrno_world _ := rfl
  zeosShowClock := id
  zeosShowClock_ticks _ := rfl
  clockRoutine c := by rw [countingEnv_of_ne (by decide)]
  sysGettime := 0x13000#32
  sysGettime_eax c := by simp [countingEnv_sysGettime, Cpu.write]
  sysGettime_kernel c := by rw [countingEnv_sysGettime, Cpu.write_world]
  sysGettime_mem c _ _ _ := by
    rw [countingEnv_sysGettime]
    rfl
  table_off := by decide
  table_below := by decide

/-- A program that asks for the time. -/
def clockCaller : Caller countingSystem where
  cpu := {
    regs r := if r = .esp then 0x11bff0#32 else 0
    segs _ := 0x2b#16
    eflags := 0x202#32
    mem := Bytes.store (fun _ => 0) 0x11028#32 0x13000#32
    calls := []
    world := () }
  low := by decide
  high := by decide
  table := by decide

/-- The 2³¹-th interrupt makes the counter negative, and `gettime` reports an error. -/
theorem not_gettime_run :
    ¬ AllStates (clockRun countingSystem) ExactCalls (some (afterReset ⟨0, ⟨0, ()⟩⟩))
      (List.replicate (2 ^ 31) (.clock clockCaller.cpu) ++ [.gettime clockCaller]) :=
  not_exactCalls_of_late countingSystem _ (interrupts_replicate countingSystem _ _).ge _

end Zeos
