import Zeos.Machine.Memory

/-!
# Page table entries (`types.h`)

`page_table_entry` is a 32-bit word with named bit fields.  Reading a field takes
bits out of the word; writing one replaces them and keeps the rest, a value that
is too wide losing its upper bits.

The order of the fields is the compiler's, from the lowest bit up, which is what the
processor expects of an entry.  The lemmas are the reads of every field after every write,
so that no module above has to look at the bits of an entry.
-/

namespace Zeos

open Machine

/-- `page_table_entry`, the whole word. -/
abbrev PageTableEntry := DWord

namespace PageTableEntry

/-- The bit `present`. -/
def present (e : PageTableEntry) : Bool := e.getLsbD 0

/-- The bit `rw`: the page may be written to. -/
def rw (e : PageTableEntry) : Bool := e.getLsbD 1

/-- The bit `user`: programs may use the page. -/
def user (e : PageTableEntry) : Bool := e.getLsbD 2

/-- The twenty bits of the frame number. -/
def pbaseAddr (e : PageTableEntry) : BitVec 20 := e.extractLsb' 12 20

/-- `bits.present = b`. -/
def setPresent (e : PageTableEntry) (b : Bool) : PageTableEntry := withBit e 0 b

/-- `bits.rw = b`. -/
def setRw (e : PageTableEntry) (b : Bool) : PageTableEntry := withBit e 1 b

/-- `bits.user = b`. -/
def setUser (e : PageTableEntry) (b : Bool) : PageTableEntry := withBit e 2 b

/-- `bits.pbase_addr = v`: the field has twenty bits. -/
def setPbaseAddr (e : PageTableEntry) (v : DWord) : PageTableEntry :=
  v.setWidth 20 ++ e.extractLsb' 0 12

section Fields

variable (e : PageTableEntry) (b : Bool) (v : DWord)

@[simp] theorem present_setPresent : present (setPresent e b) = b :=
  getLsbD_withBit_self e b (by omega)

@[simp] theorem present_setRw : present (setRw e b) = present e :=
  getLsbD_withBit_of_ne e b (by omega) (by omega)

@[simp] theorem present_setUser : present (setUser e b) = present e :=
  getLsbD_withBit_of_ne e b (by omega) (by omega)

@[simp] theorem rw_setPresent : rw (setPresent e b) = rw e :=
  getLsbD_withBit_of_ne e b (by omega) (by omega)

@[simp] theorem rw_setRw : rw (setRw e b) = b :=
  getLsbD_withBit_self e b (by omega)

@[simp] theorem rw_setUser : rw (setUser e b) = rw e :=
  getLsbD_withBit_of_ne e b (by omega) (by omega)

@[simp] theorem user_setPresent : user (setPresent e b) = user e :=
  getLsbD_withBit_of_ne e b (by omega) (by omega)

@[simp] theorem user_setRw : user (setRw e b) = user e :=
  getLsbD_withBit_of_ne e b (by omega) (by omega)

@[simp] theorem user_setUser : user (setUser e b) = b :=
  getLsbD_withBit_self e b (by omega)

/-- Setting a flag keeps the frame number. -/
theorem pbaseAddr_withBit {k : ℕ} (hk : k < 12) :
    pbaseAddr (withBit e k b) = pbaseAddr e := by
  apply BitVec.eq_of_getLsbD_eq
  intro i hi
  rw [pbaseAddr, pbaseAddr, BitVec.getLsbD_extractLsb', BitVec.getLsbD_extractLsb',
    getLsbD_withBit_of_ne e b (by omega) (by omega)]

@[simp] theorem pbaseAddr_setPresent : pbaseAddr (setPresent e b) = pbaseAddr e :=
  pbaseAddr_withBit e b (by omega)

@[simp] theorem pbaseAddr_setRw : pbaseAddr (setRw e b) = pbaseAddr e :=
  pbaseAddr_withBit e b (by omega)

@[simp] theorem pbaseAddr_setUser : pbaseAddr (setUser e b) = pbaseAddr e :=
  pbaseAddr_withBit e b (by omega)

@[simp] theorem pbaseAddr_setPbaseAddr : pbaseAddr (setPbaseAddr e v) = v.setWidth 20 := by
  apply BitVec.eq_of_getLsbD_eq
  intro i hi
  simp only [pbaseAddr, setPbaseAddr, BitVec.getLsbD_extractLsb', BitVec.getLsbD_append]
  simp [hi]

/-- Setting the frame number keeps the flags. -/
theorem getLsbD_setPbaseAddr {k : ℕ} (hk : k < 12) :
    (setPbaseAddr e v).getLsbD k = e.getLsbD k := by
  simp only [setPbaseAddr, BitVec.getLsbD_append, BitVec.getLsbD_extractLsb', hk,
    decide_true, Bool.true_and, if_true, Nat.zero_add]

@[simp] theorem present_setPbaseAddr : present (setPbaseAddr e v) = present e :=
  getLsbD_setPbaseAddr e v (by omega)

@[simp] theorem rw_setPbaseAddr : rw (setPbaseAddr e v) = rw e :=
  getLsbD_setPbaseAddr e v (by omega)

@[simp] theorem user_setPbaseAddr : user (setPbaseAddr e v) = user e :=
  getLsbD_setPbaseAddr e v (by omega)

end Fields

end PageTableEntry

end Zeos
