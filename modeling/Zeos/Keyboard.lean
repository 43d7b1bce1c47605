import Zeos.Io
import Zeos.Machine.Run

/-!
# The keyboard driver (`keyboard.c`)

`keyboard_routine` reads a scan code, looks a make code up in `char_map` and prints
the character in the last cell of the screen.  Its state is the console, with a
record of the indices at which `char_map` is read.

Two properties of runs that mix printing and keyboard interrupts:

* **Printing is immune to interrupts** (`printing_immune`).  `printc_xy` moves the
  global cursor, so that what is printed next depends on its being put back; it is,
  and only the last cell can tell.
* **Bounds** (`inBounds_run_iff`).  Cursor and stores stay within the screen, but
  the table has 98 entries for the 128 codes that the mask lets through.

A run starts in any state for the first property and at `bootDrivers` for the second, with
any contents of the screen.  The scan codes are arbitrary bytes and may come between any
two operations; an interrupt in the middle of a `printk` is one between its characters,
each printed by a `printc`.  What lies behind `char_map` is a parameter of the event
(`behind`): the driver prints whatever it reads there.  So a code from 98 on that is not a
break code is out of bounds whatever comes of it, which is the other direction of
`inBounds_run_iff`.
-/

namespace Zeos

open Machine

/-- `'\0'`. -/
def nul : Char := Char.ofNat 0

/-- The characters of the keys, by scan code. -/
def charMap : List Byte :=
  [nul, nul, '1', '2', '3', '4', '5', '6', '7', '8',
   '9', '0', Char.ofNat 39, nul, nul, nul, 'q', 'w', 'e', 'r',
   't', 'y', 'u', 'i', 'o', 'p', Char.ofNat 96, '+', nul, nul,
   'a', 's', 'd', 'f', 'g', 'h', 'j', 'k', 'l', nul,
   nul, nul, nul, nul, 'z', 'x', 'c', 'v', 'b', 'n',
   'm', ',', '.', '-', nul, '*', nul, nul, nul, nul,
   nul, nul, nul, nul, nul, nul, nul, nul, nul, nul,
   nul, '7', '8', '9', '-', '4', '5', '6', '+', '1',
   '2', '3', '0', nul, nul, nul, '<', nul, nul, nul,
   nul, nul, nul, nul, nul, nul, nul, nul].map fun c => BitVec.ofNat 8 c.toNat

/-- `char_map[code]`, where `behind` is what memory holds behind the table. -/
def charMapAt (behind : ℕ → Byte) (code : ℕ) : Byte := charMap.getD code (behind code)

/-- The state of the two drivers. -/
structure Drivers where
  con : Console
  loads : List ℕ

/-- Handle the scan code `event`, the byte at port `0x60`.  A code without a character
prints as `'C'`. -/
def keyboardRoutine (behind : ℕ → Byte) (s : Drivers) (event : Byte) : Drivers :=
  let make := event >>> 7 = 0
  let code := event &&& 0x7f
  if make then
    let c := charMapAt behind code.toNat
    let c := if c = 0 then 67 else c
    { con := printcXy s.con 79 24 c, loads := code.toNat :: s.loads }
  else s

/-! ## Runs -/

/-- What uses the drivers: printing, and interrupts that find some scan code at the
port and some bytes behind the table. -/
inductive DriverOp
  | printc (c : Byte)
  | printk (string : List Byte)
  | keyboard (event : Byte) (behind : ℕ → Byte)

/-- One call into the drivers. -/
def driverStep (s : Drivers) : DriverOp → Drivers
  | .printc c => { s with con := printc s.con c }
  | .printk string => { s with con := printk s.con string }
  | .keyboard event behind => keyboardRoutine behind s event

/-- The operation is no interrupt. -/
def DriverOp.isPrint : DriverOp → Bool
  | .keyboard _ _ => false
  | _ => true

/-! ## Printing is immune to interrupts -/

/-- The last cell of the screen. -/
def lastCell : ℕ := 24 * numColumns + 79

theorem sameBut_keyboardRoutine (behind : ℕ → Byte) (s : Drivers) (event : Byte) :
    SameBut lastCell (keyboardRoutine behind s event).con s.con := by
  unfold keyboardRoutine
  dsimp only
  split
  · exact sameBut_printcXy s.con 79 24 _
  · exact SameBut.refl _ _

/-- **Printing is immune to keyboard interrupts.**  A run ends with the cursor and the
screen of the same run without the interrupts, except for the last cell. -/
theorem printing_immune (s : Drivers) (ops : List DriverOp) :
    (ops.foldl driverStep s).con.x =
        ((ops.filter DriverOp.isPrint).foldl driverStep s).con.x ∧
      (ops.foldl driverStep s).con.y =
        ((ops.filter DriverOp.isPrint).foldl driverStep s).con.y ∧
      ∀ cell, cell ≠ 24 * numColumns + 79 →
        (ops.foldl driverStep s).con.screen cell =
          ((ops.filter DriverOp.isPrint).foldl driverStep s).con.screen cell := by
  have hsame : SameBut lastCell (ops.foldl driverStep s).con
      ((ops.filter DriverOp.isPrint).foldl driverStep s).con := by
    refine rel_foldl_filter driverStep (r := fun s s' => SameBut lastCell s.con s'.con)
      (fun s s' op h hop => ?_) (fun s s' op h hop => ?_) (SameBut.refl _ _) ops
    · cases op with
      | printc c => exact h.printc c
      | printk string => exact h.printk string
      | keyboard event behind => exact absurd hop Bool.false_ne_true
    · cases op with
      | printc c => exact absurd hop.symm Bool.false_ne_true
      | printk string => exact absurd hop.symm Bool.false_ne_true
      | keyboard event behind => exact (sameBut_keyboardRoutine behind s event).trans h
  exact ⟨hsame.x, hsame.y, hsame.screen⟩

/-! ## Bounds -/

/-- The drivers have stayed within the screen and within the table. -/
structure InBounds (s : Drivers) : Prop where
  con : InScreen s.con
  loads : ∀ code ∈ s.loads, code < charMap.length

/-- A scan code that does not lead out of the table: a break code, or one the table
has an entry for. -/
def InTable : DriverOp → Prop
  | .keyboard event _ => 0x80 ≤ event.toNat ∨ event.toNat < charMap.length
  | _ => True

theorem InScreen.keyboardRoutine {s : Drivers} (h : InScreen s.con) (behind : ℕ → Byte)
    (event : Byte) : InScreen (keyboardRoutine behind s event).con := by
  unfold Zeos.keyboardRoutine
  dsimp only
  split
  · exact h.printcXy (by decide) (by decide) _
  · exact h

theorem InScreen.driverStep {s : Drivers} (h : InScreen s.con) (op : DriverOp) :
    InScreen (driverStep s op).con := by
  cases op with
  | printc c => exact h.printc c
  | printk string => exact of_printk (fun _ c h => h.printc c) h string
  | keyboard event behind => exact h.keyboardRoutine behind event

/-- A make code is its own index. -/
theorem keyboardRoutine_loads (behind : ℕ → Byte) (s : Drivers) (event : Byte) :
    (keyboardRoutine behind s event).loads =
      if event.toNat < 0x80 then event.toNat :: s.loads else s.loads := by
  have hevent := event.isLt
  have hmake : event >>> 7 = 0 ↔ event.toNat < 0x80 := by
    have hzero : (0 : Byte).toNat = 0 := rfl
    rw [← BitVec.toNat_inj, BitVec.toNat_ushiftRight, Nat.shiftRight_eq_div_pow, hzero]
    omega
  have hcode : (event &&& 0x7f).toNat = event.toNat % 2 ^ 7 := by
    rw [BitVec.toNat_and, ← Nat.and_two_pow_sub_one_eq_mod]
    rfl
  unfold keyboardRoutine
  dsimp only
  rw [hcode]
  by_cases hlt : event.toNat < 0x80
  · have hmod : event.toNat % 2 ^ 7 = event.toNat := Nat.mod_eq_of_lt hlt
    rw [if_pos (hmake.mpr hlt), if_pos hlt, hmod]
  · rw [if_neg (fun h => hlt (hmake.mp h)), if_neg hlt]

/-- An operation stays within the bounds exactly if it stays within the table. -/
theorem inBounds_driverStep_iff {s : Drivers} (h : InBounds s) (op : DriverOp) :
    InBounds (driverStep s op) ↔ InTable op := by
  have hcon := h.con.driverStep op
  -- only an interrupt reads the table, and only for a make code
  cases op with
  | printc c => exact iff_of_true ⟨hcon, h.loads⟩ trivial
  | printk string => exact iff_of_true ⟨hcon, h.loads⟩ trivial
  | keyboard event behind =>
      have hloads : (driverStep s (.keyboard event behind)).loads =
          if event.toNat < 0x80 then event.toNat :: s.loads else s.loads :=
        keyboardRoutine_loads behind s event
      constructor
      · intro hafter
        have hbound := hafter.loads
        rw [hloads] at hbound
        rcases Nat.lt_or_ge event.toNat 0x80 with hmake | hbreak
        · rw [if_pos hmake] at hbound
          exact Or.inr (hbound _ List.mem_cons_self)
        · exact Or.inl hbreak
      · intro htable
        refine ⟨hcon, ?_⟩
        rw [hloads]
        split
        · next hmake =>
            exact List.forall_mem_cons.mpr
              ⟨htable.resolve_left (not_le.mpr hmake), h.loads⟩
        · exact h.loads

/-- The drivers at boot: the cursor is at the beginning of row 19. -/
def bootDrivers (screen : ℕ → Word) : Drivers where
  con := { x := 0, y := 19, screen := screen, port := [], stores := [] }
  loads := []

/-- **A run from boot stays within all bounds exactly if every make code that arrives
has an entry in the table.** -/
theorem inBounds_run_iff (screen : ℕ → Word) (ops : List DriverOp) :
    AllStates driverStep
        (fun s => s.con.x.toNat < 80 ∧ s.con.y.toNat < 25 ∧
          (∀ cell ∈ s.con.stores, cell < 80 * 25) ∧
          ∀ code ∈ s.loads, code < charMap.length) (bootDrivers screen) ops ↔
      ∀ event behind, .keyboard event behind ∈ ops →
        0x80 ≤ event.toNat ∨ event.toNat < charMap.length := by
  -- the statement spells the invariant out
  have hbounds : (fun s : Drivers => s.con.x.toNat < 80 ∧ s.con.y.toNat < 25 ∧
      (∀ cell ∈ s.con.stores, cell < 80 * 25) ∧
      ∀ code ∈ s.loads, code < charMap.length) = InBounds := by
    funext s
    refine propext ⟨fun ⟨hx, hy, hstores, hloads⟩ => ⟨⟨hx, hy, hstores⟩, hloads⟩, ?_⟩
    exact fun ⟨⟨hx, hy, hstores⟩, hloads⟩ => ⟨hx, hy, hstores, hloads⟩
  have hboot : InBounds (bootDrivers screen) := by
    have hx : (0 : Byte).toNat < numColumns := by decide
    have hy : (19 : Byte).toNat < numRows := by decide
    exact ⟨⟨hx, hy, fun _ hcell => absurd hcell List.not_mem_nil⟩,
      fun _ hcode => absurd hcode List.not_mem_nil⟩
  rw [hbounds, allStates_iff_allSteps driverStep (J := fun _ => True) (P := InBounds)
      (G := fun _ => InTable)
    (fun _ _ _ => trivial) (fun _ op _ h => inBounds_driverStep_iff h op) trivial hboot,
    allSteps_iff_forall_mem]
  constructor
  · intro hall event behind hop
    exact hall _ hop
  · intro hall op hop
    cases op with
    | keyboard event behind => exact hall event behind hop
    | _ => trivial

/-- The table has 98 entries. -/
theorem length_charMap : charMap.length = 98 := rfl

/-- A make code of 98 reads behind the table. -/
theorem not_inBounds_run :
    ¬ AllStates driverStep
        (fun s => s.con.x.toNat < 80 ∧ s.con.y.toNat < 25 ∧
          (∀ cell ∈ s.con.stores, cell < 80 * 25) ∧
          ∀ code ∈ s.loads, code < charMap.length) (bootDrivers fun _ => 0)
        [.keyboard 98 fun _ => 0] := by
  rintro ⟨-, -, -, -, hloads⟩
  have hload := hloads 98 (by decide)
  rw [length_charMap] at hload
  exact absurd hload (lt_irrefl 98)

end Zeos
