import Zeos.Machine.Cpu
import Zeos.Machine.Run
import Zeos.Machine.Segment

/-!
# Privilege levels

A processor runs at the level of its code segment.  A program leaves its segments by
loading a selector, by a jump or a return to another code segment, through a gate, or with
`sysenter`.  The processor checks the selector against the tables each time, and raises
an exception for what it refuses.

`levelStep` is a step of a program.  Whether a handler that is entered comes back to the
program is for the handler to say and not for the processor, so each step is told
(`back`).  A handler that comes back puts the program's segments in place again and returns
to where it was entered from; of this the processor checks every load and the return, and
may refuse it (`Outcome.stuck`).  A handler that does not come back keeps the processor
(`Outcome.kept`): nothing is said of what it does then, and the program takes no more steps.

`Confined` says that the tables leave the program nothing but its own segments, and
`Doors` that whatever the program does the kernel is entered where its tables say.  Both
are about the checks in one memory.  `confined_run` is what follows from them for a run in
which memory changes, as long as the tables' contents do not (`SameTables`): what a program
finds there decides each of its steps, so that is the load-bearing condition, and it is for
those who know who writes where to show it.

Call gates and task switches are not modelled, nor is there a local table.  The processor
keeps the descriptors that it has loaded; here they are looked up again, in tables that
do not change.  The marks of segments that it puts into the tables are no change in this
sense, as `descriptorAt` does not have them.
-/

namespace Zeos.Machine

/-! ## Selectors -/

/-- The level that a selector asks for. -/
def rpl (sel : Word) : ℕ := sel.toNat % 4

/-- The selector with a level put in. -/
def withRpl (sel : Word) (level : ℕ) : Word := (sel &&& 0xfffc#16) ||| BitVec.ofNat 16 level

/-- The segment registers. -/
structure Selectors where
  cs : Word
  ss : Word
  data : Seg → Word

/-- The level at which the processor runs. -/
def Selectors.cpl (s : Selectors) : ℕ := rpl s.cs

namespace Descriptor

/-- Data, or code that may be read. -/
def readable (d : Descriptor) : Bool :=
  d.isSegment && (!d.flags1.getLsbD 3 || d.flags1.getLsbD 1)

/-- Code that runs at the level of its caller. -/
def conforming (d : Descriptor) : Bool := d.executable && d.special

/-- Data that the level and the selector may use. -/
def loadable (d : Descriptor) (cpl : ℕ) (sel : Word) : Bool :=
  d.readable && (d.conforming || decide (max cpl (rpl sel) ≤ d.dpl))

/-- Code that the level may jump to. -/
def jumpable (d : Descriptor) (cpl : ℕ) (sel : Word) : Bool :=
  d.executable &&
    if d.conforming then decide (d.dpl ≤ cpl) else decide (rpl sel ≤ cpl) && decide (d.dpl = cpl)

/-- Code that the level may return to. -/
def returnable (d : Descriptor) (cpl : ℕ) (sel : Word) : Bool :=
  d.executable && decide (cpl ≤ rpl sel) &&
    if d.conforming then decide (d.dpl ≤ rpl sel) else decide (d.dpl = rpl sel)

/-- A stack for a level. -/
def stackable (d : Descriptor) (level : ℕ) (sel : Word) : Bool :=
  d.writable && decide (rpl sel = level) && decide (d.dpl = level)

end Descriptor

/-! ## Checks -/

/-- The vector of the exception for a handler that cannot be entered. -/
def doubleFault : Byte := 8

/-- The vector for a segment that is not present. -/
def segmentNotPresent : Byte := 11

/-- The vector for a stack segment that is not present. -/
def stackException : Byte := 12

/-- The vector for what the checks refuse otherwise. -/
def generalProtection : Byte := 13

section Checks

variable (m : Bytes) (gdtr : TableRegister)

/-- What loading a data segment register raises.  A selector of the first descriptor is
loaded, and names no segment. -/
def dataFault (cpl : ℕ) (sel : Word) : Option Byte :=
  if sel.toNat / 4 = 0 then none
  else
    match descriptorAt m gdtr sel with
    | none => some generalProtection
    | some d =>
        if d.loadable cpl sel = false then some generalProtection
        else if d.present = false then some segmentNotPresent
        else none

/-- What loading the stack segment register raises. -/
def stackFault (level : ℕ) (sel : Word) : Option Byte :=
  match descriptorAt m gdtr sel with
  | none => some generalProtection
  | some d =>
      if d.stackable level sel = false then some generalProtection
      else if d.present = false then some stackException
      else none

/-- What a far jump or a far call raises. -/
def jumpFault (cpl : ℕ) (sel : Word) (eip : Addr) : Option Byte :=
  match descriptorAt m gdtr sel with
  | none => some generalProtection
  | some d =>
      if d.jumpable cpl sel = false then some generalProtection
      else if d.present = false then some segmentNotPresent
      else if d.span < eip.toNat then some generalProtection
      else none

/-- What a far return or an `iret` raises.  Only one to a less privileged level takes a
stack along. -/
def returnFault (cpl : ℕ) (sel : Word) (eip : Addr) (ss : Word) : Option Byte :=
  match descriptorAt m gdtr sel with
  | none => some generalProtection
  | some d =>
      if d.returnable cpl sel = false then some generalProtection
      else if d.present = false then some segmentNotPresent
      else
        (if cpl < rpl sel then stackFault m gdtr (rpl sel) ss else none).or
          (if d.span < eip.toNat then some generalProtection else none)

/-- What a return to a less privileged level leaves in a data segment register. -/
def keptSelector (level : ℕ) (sel : Word) : Word :=
  match descriptorAt m gdtr sel with
  | none => sel
  | some d => if d.conforming = false ∧ d.dpl < level then 0 else sel

/-- The segments after a return. -/
def Selectors.returned (s : Selectors) (cs ss : Word) : Selectors :=
  if s.cpl < rpl cs then ⟨cs, ss, fun r => keptSelector m gdtr (rpl cs) (s.data r)⟩
  else { s with cs := cs }

/-- Load a data segment register, or raise an exception. -/
def Selectors.load (s : Selectors) (r : Seg) (sel : Word) : Except Byte Selectors :=
  match dataFault m gdtr s.cpl sel with
  | none => .ok { s with data := Function.update s.data r sel }
  | some v => .error v

/-- Load the stack segment register, or raise an exception. -/
def Selectors.loadStack (s : Selectors) (sel : Word) : Except Byte Selectors :=
  match stackFault m gdtr s.cpl sel with
  | none => .ok { s with ss := sel }
  | some v => .error v

/-- A far return or an `iret`, or the exception that it raises. -/
def Selectors.farReturn (s : Selectors) (sel : Word) (eip : Addr) (ss : Word) :
    Except Byte Selectors :=
  match returnFault m gdtr s.cpl sel eip ss with
  | none => .ok (s.returned m gdtr sel ss)
  | some v => .error v

end Checks

/-- Whether a program may use `width` ports from `port` on: the task state segment has a
bit for each, which must be clear. -/
def portAllowed (m : Bytes) (tr : TaskRegister) (port width : ℕ) : Bool :=
  let base := (m.loadWord (tr.base + 102#32)).toNat
  decide (103 ≤ tr.span) && decide (base + port / 8 + 1 ≤ tr.span) &&
    (List.range width).all fun k =>
      !(m.loadWord (tr.base + BitVec.ofNat 32 (base + port / 8))).getLsbD (port % 8 + k)

/-! ## A program and its kernel -/

/-- The registers by which the processor finds the kernel. -/
structure SystemRegisters where
  gdtr : TableRegister
  idtr : TableRegister
  tr : TaskRegister
  sysenterCs : DWord
  sysenterEsp : Addr
  sysenterEip : Addr

/-- What a program does that may change its segments, or be refused. -/
inductive Attempt
  | load (r : Seg) (sel : Word)
  | loadStack (sel : Word)
  | farJump (sel : Word) (eip : Addr)
  | farReturn (sel : Word) (eip : Addr) (ss : Word)
  | port (port width : ℕ)
  | privileged

/-- What happens while a program runs, with the instruction at `eip` the next one: it makes
an attempt, an exception or a device interrupts it, or it calls the kernel. -/
inductive ProgramEvent
  | attempt (a : Attempt) (eip : Addr)
  | interrupt (v : Byte) (eip : Addr)
  | int (v : Byte) (eip : Addr)
  | sysenter (eip : Addr)

/-- What the kernel's side has of an event: it has been entered and has come back, it has
been entered and keeps the processor, it has been entered and its way back is refused, or
there is no handler that could be entered. -/
inductive Outcome
  | entered (e : HandlerEntry)
  | kept (e : HandlerEntry)
  | stuck (e : HandlerEntry) (v : Byte)
  | shutdown

section Step

variable (R : SystemRegisters) (m : Bytes)

/-- The segments after an attempt, or the exception that it raises. -/
def Selectors.attempt (s : Selectors) : Attempt → Except Byte Selectors
  | .load r sel => s.load m R.gdtr r sel
  | .loadStack sel => s.loadStack m R.gdtr sel
  | .farJump sel eip =>
      match jumpFault m R.gdtr s.cpl sel eip with
      | none => .ok { s with cs := withRpl sel s.cpl }
      | some v => .error v
  | .farReturn sel eip ss => s.farReturn m R.gdtr sel eip ss
  | .port port width =>
      if portAllowed m R.tr port width then .ok s else .error generalProtection
  | .privileged => .error generalProtection

/-- The exceptions that do not go together with another one. -/
def contributory : List Byte := [0, 10, 11, 12, 13, 14]

/-- Enter the handler of a vector.  One that cannot be entered raises an exception of its
own. -/
def raise (cpl : ℕ) (v : Byte) : Option HandlerEntry :=
  let enter := enterHandler m R.idtr R.gdtr R.tr cpl false
  (enter v).or
    ((if v ∈ contributory then none else enter generalProtection).or (enter doubleFault))

/-- `sysenter`, if its registers have been set. -/
def sysenterEntry : Option HandlerEntry :=
  if R.sysenterCs.toNat / 4 % 2 ^ 14 = 0 then none
  else
    some ⟨withRpl (R.sysenterCs.setWidth 16) 0, R.sysenterEip, true,
      some (withRpl (R.sysenterCs.setWidth 16) 0 + 8, R.sysenterEsp)⟩

/-- `sysexit`. -/
def Selectors.sysexit (s : Selectors) : Selectors :=
  let cs := R.sysenterCs.setWidth 16
  ⟨withRpl (cs + 16) 3, withRpl (cs + 24) 3, s.data⟩

/-- What the kernel's loads of its own data segment, and then of the program's, raise. -/
def restoreFault (own : Word) (s : Selectors) : Option Byte :=
  [own, s.data .ds, s.data .es, s.data .fs, s.data .gs].findSome? (dataFault m R.gdtr 0)

/-- Enter the kernel.  A handler that comes back does so by `iret` to the instruction at
`eip`. -/
def serve (own : Word) (s : Selectors) (eip : Addr) (back : Bool) :
    Option HandlerEntry → Option Selectors × Option Outcome
  | none => (none, some .shutdown)
  | some e =>
      if back = false then (none, some (.kept e))
      else
        match (restoreFault R m own s).or (returnFault m R.gdtr 0 s.cs eip s.ss) with
        | some v => (none, some (.stuck e v))
        | none =>
            (some (Selectors.returned m R.gdtr { s with cs := e.cs } s.cs s.ss), some (.entered e))

/-- Enter the kernel by `sysenter`.  A handler that comes back does so by `sysexit`. -/
def serveFast (own : Word) (s : Selectors) (back : Bool) (e : HandlerEntry) :
    Option Selectors × Option Outcome :=
  if back = false then (none, some (.kept e))
  else
    match restoreFault R m own s with
    | some v => (none, some (.stuck e v))
    | none => (some (s.sysexit R), some (.entered e))

/-- What an event makes of the segments, if the program goes on, and what the kernel has of
it.  `own` is the kernel's data segment, and `back` says whether a handler comes back. -/
def levelStep (own : Word) (s : Selectors) (back : Bool) :
    ProgramEvent → Option Selectors × Option Outcome
  | .attempt a eip =>
      match s.attempt R m a with
      | .ok s' => (some s', none)
      | .error v => serve R m own s eip back (raise R m s.cpl v)
  | .interrupt v eip => serve R m own s eip back (raise R m s.cpl v)
  | .int v eip =>
      serve R m own s eip back
        ((enterHandler m R.idtr R.gdtr R.tr s.cpl true v).or (raise R m s.cpl generalProtection))
  | .sysenter eip =>
      match sysenterEntry R with
      | none => serve R m own s eip back (raise R m s.cpl generalProtection)
      | some e => serveFast R m own s back e

end Step

/-! ## Confined programs -/

section Confined

variable {m : Bytes} {gdtr : TableRegister} {R : SystemRegisters}

/-- A check that finds nothing wrong has found a descriptor. -/
theorem dataFault_eq_none_iff {cpl : ℕ} {sel : Word} :
    dataFault m gdtr cpl sel = none ↔
      sel.toNat / 4 = 0 ∨
        ∃ d, descriptorAt m gdtr sel = some d ∧ d.loadable cpl sel = true ∧ d.present = true := by
  rw [dataFault]
  split
  · next hnull => exact iff_of_true rfl (Or.inl hnull)
  · next hnull =>
      rw [or_iff_right hnull]
      cases descriptorAt m gdtr sel with
      | none => simp
      | some d => cases hload : d.loadable cpl sel <;> cases hpresent : d.present <;> simp [*]

theorem stackFault_eq_none_iff {level : ℕ} {sel : Word} :
    stackFault m gdtr level sel = none ↔
      ∃ d, descriptorAt m gdtr sel = some d ∧ d.stackable level sel = true ∧ d.present = true := by
  rw [stackFault]
  cases descriptorAt m gdtr sel with
  | none => simp
  | some d => cases hstack : d.stackable level sel <;> cases hpresent : d.present <;> simp [*]

theorem jumpFault_eq_none_iff {cpl : ℕ} {sel : Word} {eip : Addr} :
    jumpFault m gdtr cpl sel eip = none ↔
      ∃ d, descriptorAt m gdtr sel = some d ∧ d.jumpable cpl sel = true ∧ d.present = true ∧
        eip.toNat ≤ d.span := by
  rw [jumpFault]
  cases descriptorAt m gdtr sel with
  | none => simp
  | some d => cases hjump : d.jumpable cpl sel <;> cases hpresent : d.present <;> simp [*]

theorem returnFault_eq_none_iff {cpl : ℕ} {sel : Word} {eip : Addr} {ss : Word} :
    returnFault m gdtr cpl sel eip ss = none ↔
      ∃ d, descriptorAt m gdtr sel = some d ∧ d.returnable cpl sel = true ∧ d.present = true ∧
        eip.toNat ≤ d.span ∧ (cpl < rpl sel → stackFault m gdtr (rpl sel) ss = none) := by
  rw [returnFault]
  cases descriptorAt m gdtr sel with
  | none => simp
  | some d =>
      cases hreturn : d.returnable cpl sel <;> cases hpresent : d.present <;>
        simp [*, Option.or_eq_none_iff, and_comm]

/-- What may be loaded at a level may be loaded at a more privileged one. -/
theorem dataFault_mono {cpl cpl' : ℕ} {sel : Word} (h : dataFault m gdtr cpl sel = none)
    (hle : cpl' ≤ cpl) : dataFault m gdtr cpl' sel = none := by
  rw [dataFault_eq_none_iff] at h ⊢
  refine h.imp_right fun hfound => ?_
  obtain ⟨d, hd, hload, hpresent⟩ := hfound
  refine ⟨d, hd, ?_, hpresent⟩
  simp only [Descriptor.loadable, Bool.and_eq_true, Bool.or_eq_true, decide_eq_true_eq] at hload ⊢
  exact hload.imp_right (Or.imp_right fun hmax => (max_le_max_right _ hle).trans hmax)

/-- A return to the level clears no selector that may be loaded there. -/
theorem keptSelector_of_dataFault {level : ℕ} {sel : Word}
    (h : dataFault m gdtr level sel = none) : keptSelector m gdtr level sel = sel := by
  rw [keptSelector]
  rcases dataFault_eq_none_iff.mp h with hnull | ⟨d, hd, hload, -⟩
  · have hnone : descriptorAt m gdtr sel = none := by
      rw [descriptorAt, if_pos (Or.inr (Or.inl (by omega)))]
    rw [hnone]
  · rw [hd]
    refine if_neg fun hclears => ?_
    obtain ⟨hconforming, hlow⟩ := hclears
    simp only [Descriptor.loadable, hconforming, Bool.false_or, Bool.and_eq_true,
      decide_eq_true_eq] at hload
    exact absurd hlow (not_lt.mpr ((le_max_left _ _).trans hload.2))

/-- The tables leave a program at the level of `code` nothing but its own segments, to
which the kernel can return. -/
structure Confined (m : Bytes) (gdtr : TableRegister) (code stack : Word) : Prop where
  jump : ∀ sel eip, jumpFault m gdtr (rpl code) sel eip = none → withRpl sel (rpl code) = code
  farReturn : ∀ sel eip ss, returnFault m gdtr (rpl code) sel eip ss = none → sel = code
  back : ∀ eip, returnFault m gdtr 0 code eip stack = none
  loadStack : ∀ sel, stackFault m gdtr (rpl code) sel = none → sel = stack

/-- The ways into the kernel from a level.  `own` is the kernel's data segment. -/
structure Doors (R : SystemRegisters) (m : Bytes) (code stack own : Word)
    (door : HandlerEntry → Prop) : Prop where
  raised : ∀ v, ∃ e, raise R m (rpl code) v = some e ∧ door e
  int : ∀ v e, enterHandler m R.idtr R.gdtr R.tr (rpl code) true v = some e → door e
  sysenter : ∀ e, sysenterEntry R = some e →
    door e ∧ ∀ s, Selectors.sysexit R s = ⟨code, stack, s.data⟩
  inner : ∀ e, door e → rpl e.cs < rpl code
  own : dataFault m R.gdtr 0 own = none

/-- The program is in its own segments. -/
structure Selectors.InLevel (s : Selectors) (m : Bytes) (gdtr : TableRegister)
    (code stack : Word) : Prop where
  cs : s.cs = code
  ss : s.ss = stack
  data : ∀ r, dataFault m gdtr (rpl code) (s.data r) = none

variable {code stack own : Word} {door : HandlerEntry → Prop} {s : Selectors}

/-- An attempt that goes through leads nowhere else. -/
theorem Selectors.InLevel.attempt (h : s.InLevel m R.gdtr code stack)
    (hconfined : Confined m R.gdtr code stack) {a : Attempt} {s' : Selectors}
    (ha : s.attempt R m a = .ok s') : s'.InLevel m R.gdtr code stack := by
  have hcpl : s.cpl = rpl code := congrArg rpl h.cs
  -- what is let through has passed a check, and `Confined` says what passes
  cases a with
  | load r sel =>
      rw [Selectors.attempt, Selectors.load] at ha
      split at ha
      · next hload =>
          obtain rfl := Except.ok.inj ha
          refine ⟨h.cs, h.ss, fun r' => ?_⟩
          rw [hcpl] at hload
          dsimp only
          rcases eq_or_ne r' r with rfl | hne
          · rwa [Function.update_self]
          · rw [Function.update_of_ne hne, h.data r']
      · exact absurd ha (by simp)
  | loadStack sel =>
      rw [Selectors.attempt, Selectors.loadStack] at ha
      split at ha
      · next hload =>
          obtain rfl := Except.ok.inj ha
          rw [hcpl] at hload
          exact ⟨h.cs, hconfined.loadStack sel hload, h.data⟩
      · exact absurd ha (by simp)
  | farJump sel eip =>
      rw [Selectors.attempt] at ha
      split at ha
      · next hjump =>
          obtain rfl := Except.ok.inj ha
          rw [hcpl] at hjump
          exact ⟨(congrArg _ hcpl).trans (hconfined.jump sel eip hjump), h.ss, h.data⟩
      · exact absurd ha (by simp)
  | farReturn sel eip ss =>
      rw [Selectors.attempt, Selectors.farReturn] at ha
      split at ha
      · next hreturn =>
          obtain rfl := Except.ok.inj ha
          rw [hcpl] at hreturn
          obtain rfl := hconfined.farReturn sel eip ss hreturn
          rw [Selectors.returned, hcpl, if_neg (lt_irrefl _)]
          exact ⟨rfl, h.ss, h.data⟩
      · exact absurd ha (by simp)
  | port port width =>
      rw [Selectors.attempt] at ha
      split at ha
      · obtain rfl := Except.ok.inj ha
        exact h
      · exact absurd ha (by simp)
  | privileged => exact absurd ha (by simp [Selectors.attempt])

/-- The kernel can load whatever the program has loaded. -/
theorem Selectors.InLevel.restoreFault (h : s.InLevel m R.gdtr code stack)
    (hown : dataFault m R.gdtr 0 own = none) : restoreFault R m own s = none := by
  have hdata : ∀ r, dataFault m R.gdtr 0 (s.data r) = none := fun r =>
    dataFault_mono (h.data r) (Nat.zero_le _)
  rw [Machine.restoreFault, List.findSome?_eq_none_iff]
  simp [hown, hdata]

/-- **The program finds its segments again**, if the handler comes back. -/
theorem Selectors.InLevel.serve (h : s.InLevel m R.gdtr code stack)
    (hconfined : Confined m R.gdtr code stack) (hown : dataFault m R.gdtr 0 own = none)
    (eip : Addr) {e : HandlerEntry} (he : rpl e.cs < rpl code) :
    serve R m own s eip true (some e) = (some s, some (.entered e)) := by
  have hback := hconfined.back eip
  rw [← h.cs, ← h.ss] at hback
  have hlevel : rpl e.cs < rpl s.cs := by rwa [h.cs]
  have hkept : (fun r => keptSelector m R.gdtr (rpl s.cs) (s.data r)) = s.data := by
    funext r
    refine keptSelector_of_dataFault ?_
    rw [h.cs]
    exact h.data r
  have hreturned : Selectors.returned m R.gdtr { s with cs := e.cs } s.cs s.ss = s := by
    rw [Selectors.returned, Selectors.cpl, if_pos hlevel, hkept]
  rw [Machine.serve, if_neg (by decide), h.restoreFault hown, hback]
  exact congrArg (fun s' => (some s', some (Outcome.entered e))) hreturned

/-- What a step should leave: a program that goes on is in its own segments, and what the
kernel has of it is an entry through a door, which the program does not see in its segments
if it is left again. -/
structure StaysInLevel (m : Bytes) (gdtr : TableRegister) (code stack : Word)
    (door : HandlerEntry → Prop) (s : Selectors) (back : Bool)
    (p : Option Selectors × Option Outcome) : Prop where
  level : ∀ s', p.1 = some s' → s'.InLevel m gdtr code stack
  outcome : ∀ o, p.2 = some o →
    ∃ e, door e ∧ (o = .entered e ∧ p.1 = some s ∨ o = .kept e ∧ back = false)
  goesOn : back = true → p.1.isSome = true

/-- **A confined program stays where it is, and enters the kernel through its doors.** -/
theorem Selectors.InLevel.levelStep (h : s.InLevel m R.gdtr code stack)
    (hconfined : Confined m R.gdtr code stack) (hdoors : Doors R m code stack own door)
    (back : Bool) (event : ProgramEvent) :
    StaysInLevel m R.gdtr code stack door s back (levelStep R m own s back event) := by
  have hcpl : s.cpl = rpl code := congrArg rpl h.cs
  -- a step ends without the kernel, with a handler that is back, or with one that is not
  have hgoes : ∀ s' o, s'.InLevel m R.gdtr code stack →
      (∀ o', o = some o' → ∃ e, door e ∧ o' = .entered e ∧ s' = s) →
      StaysInLevel m R.gdtr code stack door s back (some s', o) := by
    intro s' o hs' ho
    refine ⟨fun s'' hs'' => Option.some.inj hs'' ▸ hs', fun o' ho' => ?_, fun _ => rfl⟩
    obtain ⟨e, he, hentered, hsame⟩ := ho o' ho'
    exact ⟨e, he, Or.inl ⟨hentered, congrArg some hsame⟩⟩
  have hentered : ∀ e, door e →
      StaysInLevel m R.gdtr code stack door s back (some s, some (.entered e)) := fun e he =>
    hgoes s _ h fun o ho => ⟨e, he, (Option.some.inj ho).symm, rfl⟩
  have hkept : ∀ e, door e → back = false →
      StaysInLevel m R.gdtr code stack door s back (none, some (.kept e)) := fun e he hback =>
    ⟨fun s' hs' => absurd hs' (by simp), fun o ho => ⟨e, he, Or.inr ⟨(Option.some.inj ho).symm,
      hback⟩⟩, fun hgoes => absurd (hback.symm.trans hgoes) (by decide)⟩
  have hserve : ∀ eip e, door e →
      StaysInLevel m R.gdtr code stack door s back (Machine.serve R m own s eip back (some e)) := by
    intro eip e he
    cases back with
    | false => exact hkept e he rfl
    | true =>
        rw [h.serve hconfined hdoors.own eip (hdoors.inner e he)]
        exact hentered e he
  -- every exception has a door, so whatever is refused comes to `hserve`
  have hraise : ∀ v eip, StaysInLevel m R.gdtr code stack door s back
      (Machine.serve R m own s eip back (raise R m s.cpl v)) := by
    intro v eip
    obtain ⟨e, hv, he⟩ := hdoors.raised v
    rw [hcpl, hv]
    exact hserve eip e he
  cases event with
  | attempt a eip =>
      rw [Machine.levelStep]
      split
      · next s' ha => exact hgoes s' none (h.attempt hconfined ha) fun o ho => absurd ho (by simp)
      · next v _ => exact hraise v eip
  | interrupt v eip => exact hraise v eip
  | int v eip =>
      rw [Machine.levelStep]
      cases hint : enterHandler m R.idtr R.gdtr R.tr s.cpl true v with
      | none => exact hraise generalProtection eip
      | some e =>
          rw [hcpl] at hint
          exact hserve eip e (hdoors.int v e hint)
  | sysenter eip =>
      rw [Machine.levelStep]
      split
      · exact hraise generalProtection eip
      · next e hentry =>
          obtain ⟨he, hexit⟩ := hdoors.sysenter e hentry
          have hsame : s.sysexit R = s := by rw [hexit, ← h.cs, ← h.ss]
          cases back with
          | false => exact hkept e he rfl
          | true =>
              rw [serveFast, if_neg (by decide), h.restoreFault hdoors.own, hsame]
              exact hentered e he

/-! ## Runs -/

/-- The contents of the tables are the same. -/
structure SameTables (R : SystemRegisters) (m m' : Bytes) : Prop where
  gdt : ∀ sel, descriptorAt m' R.gdtr sel = descriptorAt m R.gdtr sel
  idt : SameTable m m' R.idtr.base R.idtr.limit.toNat
  tss : SameTable m m' R.tr.base R.tr.span

variable {m' : Bytes}

theorem SameTables.dataFault (h : SameTables R m m') (cpl : ℕ) (sel : Word) :
    dataFault m' R.gdtr cpl sel = dataFault m R.gdtr cpl sel := by
  rw [Machine.dataFault, Machine.dataFault, h.gdt]

theorem SameTables.stackFault (h : SameTables R m m') (level : ℕ) (sel : Word) :
    stackFault m' R.gdtr level sel = stackFault m R.gdtr level sel := by
  rw [Machine.stackFault, Machine.stackFault, h.gdt]

theorem SameTables.returnFault (h : SameTables R m m') (cpl : ℕ) (sel : Word) (eip : Addr)
    (ss : Word) : returnFault m' R.gdtr cpl sel eip ss = returnFault m R.gdtr cpl sel eip ss := by
  simp only [Machine.returnFault, h.gdt, h.stackFault]

theorem SameTables.enterHandler (h : SameTables R m m') (cpl : ℕ) (software : Bool) (v : Byte) :
    enterHandler m' R.idtr R.gdtr R.tr cpl software v =
      enterHandler m R.idtr R.gdtr R.tr cpl software v :=
  enterHandler_congr h.idt h.gdt h.tss cpl software v

theorem SameTables.symm (h : SameTables R m m') : SameTables R m' m :=
  ⟨fun sel => (h.gdt sel).symm, fun i hi => (h.idt i hi).symm, fun i hi => (h.tss i hi).symm⟩

theorem Confined.congr (h : Confined m R.gdtr code stack) (hsame : SameTables R m m') :
    Confined m' R.gdtr code stack := by
  refine ⟨fun sel eip hjump => h.jump sel eip ?_,
    fun sel eip ss hreturn => h.farReturn sel eip ss ?_, fun eip => ?_,
    fun sel hload => h.loadStack sel ?_⟩
  · rwa [jumpFault, hsame.gdt] at hjump
  · rwa [hsame.returnFault] at hreturn
  · rw [hsame.returnFault, h.back]
  · rwa [hsame.stackFault] at hload

theorem Doors.congr (h : Doors R m code stack own door) (hsame : SameTables R m m') :
    Doors R m' code stack own door := by
  refine ⟨fun v => ?_, fun v e he => h.int v e ?_, h.sysenter, h.inner, ?_⟩
  · obtain ⟨e, he, hdoor⟩ := h.raised v
    refine ⟨e, ?_, hdoor⟩
    rw [← he]
    simp only [raise, hsame.enterHandler]
  · rwa [hsame.enterHandler] at he
  · rw [hsame.dataFault, h.own]

theorem Selectors.InLevel.congr (h : s.InLevel m R.gdtr code stack) (hsame : SameTables R m m') :
    s.InLevel m' R.gdtr code stack :=
  ⟨h.cs, h.ss, fun r => (hsame.dataFault _ _).trans (h.data r)⟩

/-- What happens in a system: memory changes, or there is an event of the program, which a
handler comes back from or not. -/
inductive SystemEvent (M : Type*)
  | memory (x : M)
  | program (event : ProgramEvent) (back : Bool)

variable {M : Type*} {change : Bytes → M → Bytes}

/-- Memory, and the program's segments as long as it goes on. -/
def systemStep (change : Bytes → M → Bytes) (R : SystemRegisters) (own : Word)
    (s : Bytes × Option Selectors) :
    SystemEvent M → (Bytes × Option Selectors) × Option Outcome
  | .memory x => ((change s.1 x, s.2), none)
  | .program event back =>
      match s.2 with
      | none => (s, none)
      | some sel =>
          ((s.1, (levelStep R s.1 own sel back event).1), (levelStep R s.1 own sel back event).2)

/-- The state at the end of a run. -/
def systemRun (change : Bytes → M → Bytes) (R : SystemRegisters) (own : Word)
    (s : Bytes × Option Selectors) (events : List (SystemEvent M)) : Bytes × Option Selectors :=
  events.foldl (fun s e => (systemStep change R own s e).1) s

/-- What a run should leave: everything that the kernel has of it is an entry through a
door, a program that goes on is in its own segments, and it goes on if every handler comes
back. -/
structure ConfinedRun (m : Bytes) (gdtr : TableRegister) (code stack : Word)
    (door : HandlerEntry → Prop) (events : List (SystemEvent M)) (os : List Outcome)
    (s s' : Option Selectors) : Prop where
  outcomes : ∀ o ∈ os, ∃ e, (o = .entered e ∨ o = .kept e) ∧ door e
  level : ∀ sel, s' = some sel → sel.InLevel m gdtr code stack
  goesOn : (∀ event, .program event false ∉ events) → s.isSome = true → s'.isSome = true

/-- **In a run that keeps the tables a confined program stays at its level**, and all that
comes of it to the kernel comes through the doors. -/
theorem confined_run {J : Bytes → Prop} {ok : M → Prop} (hconfined : Confined m R.gdtr code stack)
    (hdoors : Doors R m code stack own door) (hsame : ∀ m', J m' → SameTables R m m')
    (hchange : ∀ m' x, J m' → ok x → J (change m' x)) {events : List (SystemEvent M)}
    (hevents : ∀ x, .memory x ∈ events → ok x) {s : Bytes × Option Selectors} (hs : J s.1)
    (hlevel : ∀ sel, s.2 = some sel → sel.InLevel m R.gdtr code stack) :
    ConfinedRun m R.gdtr code stack door events (outputs (systemStep change R own) s events) s.2
        (systemRun change R own s events).2 ∧
      J (systemRun change R own s events).1 := by
  induction events generalizing s with
  | nil => exact ⟨⟨fun o ho => absurd ho (by simp [outputs]), hlevel, fun _ h => h⟩, hs⟩
  | cons event events ih =>
      have hrest := fun x hx => hevents x (List.mem_cons_of_mem _ hx)
      rw [outputs, systemRun, List.foldl_cons]
      cases event with
      | memory x =>
          have hok := hevents x List.mem_cons_self
          obtain ⟨hrun, hend⟩ := ih (s := (change s.1 x, s.2)) hrest (hchange _ _ hs hok) hlevel
          exact ⟨⟨hrun.outcomes, hrun.level, fun hall => hrun.goesOn fun e he =>
            hall e (List.mem_cons_of_mem _ he)⟩, hend⟩
      | program event back =>
          -- the tables of this memory are those of `m`, for which the doors are known
          have hsame' := hsame _ hs
          obtain ⟨m₀, segments⟩ := s
          cases segments with
          | none =>
              obtain ⟨hrun, hend⟩ := ih (s := (m₀, none)) hrest hs fun sel hsel => hlevel sel hsel
              exact ⟨⟨hrun.outcomes, hrun.level, fun _ hsome => absurd hsome (by simp)⟩, hend⟩
          | some sel =>
              have hstep := ((hlevel sel rfl).congr hsame').levelStep (hconfined.congr hsame')
                (hdoors.congr hsame') back event
              obtain ⟨hrun, hend⟩ := ih
                (s := (systemStep change R own (m₀, some sel) (.program event back)).1) hrest hs
                fun sel' hsel' => (hstep.level sel' hsel').congr hsame'.symm
              refine ⟨⟨fun o ho => ?_, hrun.level, fun hall _ => ?_⟩, hend⟩
              · rcases List.mem_append.mp ho with hfirst | hlater
                · obtain ⟨e, he, hcase⟩ := hstep.outcome o (Option.mem_toList.mp hfirst)
                  exact ⟨e, hcase.imp And.left And.left, he⟩
                · exact hrun.outcomes o hlater
              · have hback : back = true := by
                  by_contra hno
                  exact hall event (Bool.eq_false_iff.mpr hno ▸ List.mem_cons_self)
                exact hrun.goesOn (fun e he => hall e (List.mem_cons_of_mem _ he))
                  (hstep.goesOn hback)

end Confined

end Zeos.Machine
