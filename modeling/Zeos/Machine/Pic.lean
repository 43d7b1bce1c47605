import Zeos.Machine.Memory
import Zeos.Machine.Run

/-!
# The interrupt controllers

An 8259A latches the requests of eight lines, holds back those that are masked and those
that do not come before one in service, and gives the processor a vector for the first of
the rest.  It is told by commands what its vectors are, which lines are masked, and that
a service has ended.  A second one hangs on line 2 of the first.

Rotating priorities, polling, the special mask mode and reading a controller back are not
modelled.

A controller begins in any state; `ICW1` makes the words that follow the rest of the
initialization and forgets what was requested and in service, which is why results about a
programmed controller need no hypothesis on the state before.  What the words do does not
depend on the requests either: this is what the `forget` lemmas say.  A request is latched
until it is acknowledged, and a second one in between is lost, as with lines that are
triggered by an edge.
-/

namespace Zeos.Machine

/-- The bit of a line. -/
def lineBit (n : ℕ) : Byte := 1#8 <<< n

/-- The first line of a set of lines. -/
def firstLine (b : Byte) : Option ℕ := (List.range 8).find? b.getLsbD

/-- What the next word to the data port is. -/
inductive Expects
  | icw2 | icw3 | icw4 | mask
  deriving DecidableEq

/-- A controller: the words of its initialization, and its three registers. -/
structure Pic where
  expects : Expects
  single : Bool
  needsIcw4 : Bool
  base : Byte
  autoEoi : Bool
  mask : Byte
  requested : Byte
  inService : Byte

namespace Pic

/-- A word to the command port: `ICW1`, or `OCW2`, of which the end of a service is
modelled. -/
def writeCommand (p : Pic) (v : Byte) : Pic :=
  if v.getLsbD 4 then
    { p with
      expects := .icw2
      single := v.getLsbD 1
      needsIcw4 := v.getLsbD 0
      autoEoi := false
      mask := 0
      requested := 0
      inService := 0 }
  else if v &&& 0xf8#8 = 0x20#8 then
    match firstLine p.inService with
    | some n => { p with inService := p.inService &&& ~~~lineBit n }
    | none => p
  else if v &&& 0xf8#8 = 0x60#8 then
    { p with inService := p.inService &&& ~~~lineBit (v &&& 7#8).toNat }
  else p

/-- What comes behind the words so far. -/
def afterIcw3 (p : Pic) : Expects := if p.needsIcw4 then .icw4 else .mask

/-- A word to the data port. -/
def writeData (p : Pic) (v : Byte) : Pic :=
  match p.expects with
  | .icw2 => { p with
      base := v &&& 0xf8#8
      expects := if p.single then p.afterIcw3 else .icw3 }
  | .icw3 => { p with expects := p.afterIcw3 }
  | .icw4 => { p with
      autoEoi := v.getLsbD 1
      expects := .mask }
  | .mask => { p with mask := v }

/-- A device requests an interrupt. -/
def raise (p : Pic) (n : ℕ) : Pic := { p with requested := p.requested ||| lineBit n }

/-- The line to be served next. -/
def pending (p : Pic) : Option ℕ :=
  match firstLine (p.requested &&& ~~~p.mask), firstLine p.inService with
  | some n, some k => if n < k then some n else none
  | n, _ => n

/-- Begin to serve a line. -/
def serve (p : Pic) (n : ℕ) : Pic :=
  { p with
    requested := p.requested &&& ~~~lineBit n
    inService := if p.autoEoi then p.inService else p.inService ||| lineBit n }

/-- The vector of a line. -/
def vector (p : Pic) (n : ℕ) : Byte := p.base ||| BitVec.ofNat 8 n

end Pic

/-- The two controllers. -/
structure Pics where
  master : Pic
  slave : Pic

namespace Pics

/-- `outb`. -/
def out (p : Pics) (w : Byte × Byte) : Pics :=
  if w.1 = 0x20#8 then { p with master := p.master.writeCommand w.2 }
  else if w.1 = 0x21#8 then { p with master := p.master.writeData w.2 }
  else if w.1 = 0xa0#8 then { p with slave := p.slave.writeCommand w.2 }
  else if w.1 = 0xa1#8 then { p with slave := p.slave.writeData w.2 }
  else p

/-- A device on one of the sixteen lines requests an interrupt. -/
def raise (p : Pics) (n : ℕ) : Pics :=
  if n < 8 then { p with master := p.master.raise n } else { p with slave := p.slave.raise (n - 8) }

/-- The first controller, whose line 2 is the second's request. -/
def merged (p : Pics) : Pic :=
  { p.master with
    requested := if p.slave.pending.isSome then p.master.requested ||| lineBit 2
      else p.master.requested &&& ~~~lineBit 2 }

/-- The processor acknowledges an interrupt, if there is one, and gets its vector. -/
def acknowledge (p : Pics) : Pics × Option Byte :=
  match p.merged.pending with
  | none => (p, none)
  | some 2 =>
      match p.slave.pending with
      | none => (p, none)
      | some k => (⟨p.merged.serve 2, p.slave.serve k⟩, some (p.slave.vector k))
  | some n => (⟨p.merged.serve n, p.slave⟩, some (p.merged.vector n))

end Pics

/-! ## Lines -/

theorem getLsbD_lineBit {n i : ℕ} (hi : i < 8) : (lineBit n).getLsbD i = decide (i = n) := by
  rw [lineBit, BitVec.getLsbD_shiftLeft]
  by_cases h : i = n
  · simp [h, show n < 8 from h ▸ hi]
  · have hone : (1#8).getLsbD (i - n) = decide (i - n = 0) := by
      rw [BitVec.getLsbD_one]
      simp
    rw [hone]
    simp only [hi, decide_true, Bool.true_and]
    rw [decide_eq_false h]
    simp only [Bool.and_eq_false_imp, Bool.not_eq_true', decide_eq_false_iff_not]
    omega

/-- Of two lines, the first comes first. -/
theorem firstLine_of_two {b : Byte} (h : ∀ i < 8, 1 < i → b.getLsbD i = false) :
    firstLine b = if b.getLsbD 0 then some 0 else if b.getLsbD 1 then some 1 else none := by
  have hrange : List.range 8 = [0, 1, 2, 3, 4, 5, 6, 7] := rfl
  rw [firstLine, hrange]
  simp only [List.find?_cons, List.find?_nil, h 2 (by omega) (by omega), h 3 (by omega) (by omega),
    h 4 (by omega) (by omega), h 5 (by omega) (by omega), h 6 (by omega) (by omega),
    h 7 (by omega) (by omega)]
  cases b.getLsbD 0 <;> cases b.getLsbD 1 <;> rfl

/-- The other lines are the first controller's own. -/
theorem Pics.merged_getLsbD (p : Pics) {i : ℕ} (hi : i < 8) (hne : i ≠ 2) :
    p.merged.requested.getLsbD i = p.master.requested.getLsbD i := by
  have hline : (lineBit 2).getLsbD i = false := by
    rw [getLsbD_lineBit hi, decide_eq_false hne]
  rw [Pics.merged]
  dsimp only
  split
  · rw [BitVec.getLsbD_or, hline, Bool.or_false]
  · rw [BitVec.getLsbD_and, BitVec.getLsbD_not, hline, decide_eq_true hi, Bool.not_false,
      Bool.and_true, Bool.and_true]

/-- A line that is served requests no longer; the others do as before. -/
theorem Pic.serve_getLsbD (p : Pic) (n : ℕ) {i : ℕ} (hi : i < 8) :
    (p.serve n).requested.getLsbD i = (p.requested.getLsbD i && decide (n ≠ i)) := by
  rw [Pic.serve, BitVec.getLsbD_and, BitVec.getLsbD_not, getLsbD_lineBit hi, decide_eq_true hi,
    Bool.true_and, ← decide_not, decide_eq_decide.mpr (by omega : ¬ i = n ↔ n ≠ i)]

/-- With nothing in service, the first line that is open is next. -/
theorem Pic.pending_of_idle {p : Pic} (h : p.inService = 0) :
    p.pending = firstLine (p.requested &&& ~~~p.mask) := by
  have hnone : firstLine p.inService = none := by
    rw [h]
    rfl
  rw [Pic.pending, hnone]
  cases firstLine (p.requested &&& ~~~p.mask) <;> rfl

/-- The end of the only service. -/
theorem Pic.writeCommand_eoi {p : Pic} {n : ℕ} (hn : n < 8) (h : p.inService = lineBit n) :
    p.writeCommand 0x20 = { p with inService := 0 } := by
  have hall : ∀ k < 8, firstLine (lineBit k) = some k ∧ lineBit k &&& ~~~lineBit k = 0 := by
    decide
  have hcommand : p.writeCommand 0x20 =
      match firstLine p.inService with
      | some n => { p with inService := p.inService &&& ~~~lineBit n }
      | none => p := rfl
  rw [hcommand, h, (hall n hn).1]
  dsimp only
  rw [(hall n hn).2]

/-! ## What requests do not touch -/

/-- A controller but for what has been requested. -/
def Pic.forget (p : Pic) : Pic := { p with requested := 0 }

theorem Pic.forget_writeCommand (p : Pic) (v : Byte) :
    (p.writeCommand v).forget = (p.forget.writeCommand v).forget := by
  have hservice : p.forget.inService = p.inService := rfl
  rw [Pic.writeCommand, Pic.writeCommand, hservice]
  split
  · rfl
  · split
    · cases firstLine p.inService <;> rfl
    · split <;> rfl

theorem Pic.forget_writeData (p : Pic) (v : Byte) :
    (p.writeData v).forget = (p.forget.writeData v).forget := by
  have hexpects : p.forget.expects = p.expects := rfl
  rw [Pic.writeData, Pic.writeData, hexpects]
  cases p.expects <;> rfl

/-- Both of them. -/
def Pics.forget (p : Pics) : Pics := ⟨p.master.forget, p.slave.forget⟩

theorem Pics.forget_out (p : Pics) (w : Byte × Byte) :
    (p.out w).forget = (p.forget.out w).forget := by
  rw [Pics.out, Pics.out]
  split
  · exact congrArg (fun q => Pics.mk q p.slave.forget) (p.master.forget_writeCommand w.2)
  · split
    · exact congrArg (fun q => Pics.mk q p.slave.forget) (p.master.forget_writeData w.2)
    · split
      · exact congrArg (fun q => Pics.mk p.master.forget q) (p.slave.forget_writeCommand w.2)
      · split
        · exact congrArg (fun q => Pics.mk p.master.forget q) (p.slave.forget_writeData w.2)
        · rfl

theorem Pics.forget_raise (p : Pics) (n : ℕ) : (p.raise n).forget = p.forget := by
  rw [Pics.raise]
  split <;> rfl

end Zeos.Machine
