import Zeos.Main

/-!
# The running system (`system.c`, `interrupt.c`, `mm.c`)

What lasts of what `main` has set up.  A run is a list of events: the program takes a step,
which may be anything (`ProgramEvent`), or memory changes, by a store of the program or of
the kernel through the tables of paging, or by the processor, which marks what it uses.
`system_run` is about every run in which the kernel does not store into its tables: the
program stays in its segments, the kernel is entered by the handlers alone, on its own
stack, and every address means what it meant.

What the handlers do is not modelled here, and two things about them are assumed or left
open.  That they store off the tables is the condition on the run (`MemoryEvent.Spares`);
the functions of `mm.c`, which do store there, have results of their own.  Whether a
handler comes back is left to the run: each step of the program says whether a handler that
it enters returns to where it was entered from, with the segments that it has saved.  Not
all do.  `page_fault_handler2` returns from two words below the frame, and the exception
routines that the kernel is linked with never return.  After such a step the program is gone,
and only memory goes on.  For a handler that does come back, what is proved is that the
processor does not refuse it the way: the loads of the saved segments and the return go
through, whatever the program has loaded.
-/

namespace Zeos

open Machine

/-- What becomes of memory: a store of a byte, by the program or by the kernel, or other marks. -/
inductive MemoryEvent
  | store (user : Bool) (addr : Addr) (value : Byte)
  | mark (f : Addr → Byte)

/-- Stores go through the tables, marks do not. -/
def memoryEvent (D : KernelData) (L : Layout) (c : Control) (m : Bytes) : MemoryEvent → Bytes
  | .store user a v => AddressMap.store (c.translate m ⟨user, true⟩) m a v
  | .mark f => withMarks (marks D L) f m

/-- The kernel does not store into the tables. -/
def MemoryEvent.Spares (D : KernelData) (L : Layout) : MemoryEvent → Prop
  | .store user a _ => user = false → OffTables L a ∧ ¬ InSystemTables D a
  | .mark _ => True

/-- The byte belongs to a table. -/
def InAnyTable (D : KernelData) (L : Layout) (b : Addr) : Prop :=
  ¬ OffTables L b ∨ InSystemTables D b

/-- The system from the program's start on. -/
def Started.run (st : Started) (D : KernelData) (L : Layout)
    (events : List (SystemEvent MemoryEvent)) : Bytes × Option Selectors :=
  systemRun (memoryEvent D L st.paged.control) st.registers (selector kernelDs)
    (st.paged.mm.mem, some st.segments) events

/-- What the kernel has of a run. -/
def Started.outcomes (st : Started) (D : KernelData) (L : Layout)
    (events : List (SystemEvent MemoryEvent)) : List Outcome :=
  outputs (systemStep (memoryEvent D L st.paged.control) st.registers (selector kernelDs))
    (st.paged.mm.mem, some st.segments) events

section Run

variable {D : KernelData} {h : Handlers} {L : Layout} {syscallHandler : Addr} {st : Started}
  {m : Bytes} {sysSize usrSize : ℕ}

/-- The bytes of the tables are those of the start, marks apart. -/
def SameBytes (D : KernelData) (L : Layout) (m m' : Bytes) : Prop :=
  ∀ b, InAnyTable D L b → clear (marks D L) b (m' b) = clear (marks D L) b (m b)

theorem Placement.range_any (hplaced : Placement D L sysSize usrSize) {b : Addr}
    (hb : InAnyTable D L b) : pageSize ≤ b.toNat ∧ b.toNat < lUserStart :=
  hb.elim hplaced.mapped.range (hplaced.range b)

/-- **The tables stay**: a program's stores do not reach them, and the kernel reaches them
only under their own names. -/
theorem Started.Runs.step (hst : st.Runs D h L syscallHandler m sysSize usrSize)
    (hplaced : Placement D L sysSize usrSize) {m' : Bytes}
    (hm' : SameBytes D L st.paged.mm.mem m') {x : MemoryEvent} (hx : x.Spares D L) :
    SameBytes D L st.paged.mm.mem (memoryEvent D L st.paged.control m' x) := by
  intro b hb
  cases x with
  | mark f => exact (sameUpTo_withMarks (marks D L) f m' b).trans (hm' b hb)
  | store user a v =>
      have hspace := hst.keeps m' (fun b hb => hm' b (Or.inl hb)) ⟨user, true⟩
      obtain ⟨hge, hlt⟩ := hplaced.range_any hb
      rw [memoryEvent]
      cases hq : st.paged.control.translate m' ⟨user, true⟩ a with
      | none => rw [AddressMap.store_of_none hq, hm' b hb]
      | some q =>
          rw [AddressMap.store_of_some hq]
          rw [hspace] at hq
          have hne : b ≠ q := by
            rintro rfl
            cases user with
            | true => exact absurd (hst.ready.user true _ _ hq) (not_le.mpr hlt)
            | false =>
                have hself := hst.ready.kernel true b hge hlt
                have hname := hst.ready.apart _ _ _ _ _ hq hself
                obtain ⟨hoff, hnot⟩ := hx rfl
                rw [hname] at hoff hnot
                rcases hb with hb | hb
                · exact hb hoff
                · exact hnot hb
          rw [Function.update_of_ne hne, hm' b hb]

/-- In such memory the processor finds the same tables. -/
theorem Started.Runs.sameTables (hst : st.Runs D h L syscallHandler m sysSize usrSize)
    (hplaced : Placement D L sysSize usrSize) {m' : Bytes}
    (hm' : SameBytes D L st.paged.mm.mem m') : SameTables st.registers st.paged.mm.mem m' := by
  rw [hst.registers]
  refine hst.guarded.sameTables hst.located (fun b hb => ?_) syscallHandler
  have hbyte := hm' b (Or.inr hb)
  simp only [clear, marks_of_offTables (hplaced.offTables b (Or.inl hb))] at hbyte ⊢
  exact hbyte

/-- From there on every run is confined. -/
theorem Started.Runs.run (hst : st.Runs D h L syscallHandler m sysSize usrSize)
    (hplaced : Placement D L sysSize usrSize) {events : List (SystemEvent MemoryEvent)}
    (hevents : ∀ x, .memory x ∈ events → x.Spares D L) :
    ConfinedRun st.paged.mm.mem st.registers.gdtr (selector userCs) (selector userDs)
        (KernelDoor h (initialEsp L) syscallHandler) events (st.outcomes D L events)
        (some st.segments) (st.run D L events).2 ∧
      SameBytes D L st.paged.mm.mem (st.run D L events).1 := by
  have hconfined : Confined st.paged.mm.mem st.registers.gdtr (selector userCs)
      (selector userDs) := hst.guarded.confined
  have hdoors : Doors st.registers st.paged.mm.mem (selector userCs) (selector userDs)
      (selector kernelDs) (KernelDoor h (initialEsp L) syscallHandler) := by
    rw [hst.registers]
    exact hst.guarded.doors syscallHandler
  have hlevel : ∀ sel, some st.segments = some sel →
      sel.InLevel st.paged.mm.mem st.registers.gdtr (selector userCs) (selector userDs) := by
    intro sel hsel
    rw [← Option.some.inj hsel, hst.segments]
    exact hst.guarded.inLevel
  have hkeep : ∀ (m' : Bytes) (x : MemoryEvent), SameBytes D L st.paged.mm.mem m' → x.Spares D L →
      SameBytes D L st.paged.mm.mem (memoryEvent D L st.paged.control m' x) :=
    fun m' x hm' hx => hst.step hplaced hm' hx
  exact confined_run (R := st.registers) (s := (st.paged.mm.mem, some st.segments)) hconfined
    hdoors (fun m' hm' => hst.sameTables hplaced hm') hkeep hevents (fun _ _ => rfl) hlevel

/-- **The system, from the boot sector on.**  Whatever the program tries, in whatever order with
its own stores, with the processor's marks and with stores of the kernel off the tables: as
long as it goes on it is in its segments, and it goes on if every handler comes back; the
kernel is entered by the handlers alone, and no way back of one is refused; and every
address means what it meant. -/
theorem system_run (h : Handlers) (syscallHandler : Addr) {C : Compiled} {start : Selectors}
    {s : Paged} (msrs : Msrs) (hplaced : Placement D L sysSize usrSize)
    (hboot : Booted D L s sysSize usrSize) (μ ν : Marking (clear (marks D L)))
    (husr : usrSize ≤ (numPagCode + numPagData) * pageSize) (hdepth : C.depth + 44 ≤ pageSize)
    (hstart : start.cs = kernelCs) :
    ∃ st, main D h L syscallHandler C μ ν start msrs s = some st ∧
      ∀ events : List (SystemEvent MemoryEvent), (∀ x, .memory x ∈ events → x.Spares D L) →
        (∀ o ∈ st.outcomes D L events, ∃ e, (o = .entered e ∨ o = .kept e) ∧
          KernelDoor h (initialEsp L) syscallHandler e) ∧
        (∀ sel, (st.run D L events).2 = some sel →
          sel.cs = selector userCs ∧ sel.ss = selector userDs) ∧
        ((∀ event, .program event false ∉ events) → (st.run D L events).2.isSome = true) ∧
        ∀ acc, st.paged.control.translate (st.run D L events).1 acc =
          st.paged.control.translate st.paged.mm.mem acc := by
  obtain ⟨st, hmain, hst⟩ := main_runs h syscallHandler msrs hplaced hboot μ ν husr hdepth hstart
  refine ⟨st, hmain, fun events hevents => ?_⟩
  obtain ⟨hrun, htables⟩ := hst.run hplaced hevents
  exact ⟨hrun.outcomes, fun sel hsel => ⟨(hrun.level sel hsel).cs, (hrun.level sel hsel).ss⟩,
    fun hall => hrun.goesOn hall rfl, hst.keeps _ fun b hb => htables b (Or.inl hb)⟩

end Run

/-- The program tries the kernel's data segment, and calls; it stores into its data, and the
kernel behind its tables; everything is marked; and a page fault keeps the processor. -/
def someRun : List (SystemEvent MemoryEvent) :=
  [.program (.attempt (.load .ds (selector kernelDs)) 0x114000) true,
   .program (.sysenter 0x114004) true, .memory (.store true 0x101000 7),
   .memory (.store false 0x40000 7), .memory (.mark fun _ => 0xff),
   .program (.interrupt 14 0x114008) false, .program (.int 0x80 0x11400a) true]

theorem system_run_tries : ∃ st, main someData someHandlers kernelLayout 0x11400 someCompiled
    someMarking someMarking kernelSegments (fun _ => 0) startMachine = some st ∧
      ∀ o ∈ st.outcomes someData kernelLayout someRun, ∃ e, (o = .entered e ∨ o = .kept e) ∧
        KernelDoor someHandlers (initialEsp kernelLayout) 0x11400 e := by
  obtain ⟨st, hmain, hprotects⟩ := system_run someHandlers 0x11400 (C := someCompiled)
    (fun _ => 0) placed_someData booted_startMachine someMarking someMarking (by decide)
    (by decide) (show kernelSegments.cs = kernelCs from rfl)
  refine ⟨st, hmain, (hprotects someRun fun x hx => ?_).1⟩
  obtain rfl | rfl | rfl : x = .store true 0x101000 7 ∨ x = .store false 0x40000 7 ∨
      x = .mark fun _ => 0xff := by simpa [someRun] using hx
  · exact fun hno => absurd hno (by decide)
  · have hend : kernelLayout.EndsBy 0x36000 := by constructor <;> decide
    exact fun _ => ⟨hend.offTables (by decide), by decide⟩
  · trivial

end Zeos
