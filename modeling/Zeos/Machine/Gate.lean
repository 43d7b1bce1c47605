import Zeos.Machine.Memory

/-!
# The gates of an interrupt descriptor table

A table of gates, eight bytes each, says where the processor goes on an interrupt, an
exception or an `int` instruction.  A register holds the table's address and the offset
of its last byte.  `deliver` looks a vector up; what it refuses, the processor turns into
an exception of another vector.  Task gates and the gates of 16-bit code are not modelled.

Where the privilege level matters it is that of the caller of an `int`: a gate whose level
is below it refuses (`deliver`), and interrupts of the devices are not subject to it.
-/

namespace Zeos.Machine

namespace Bytes

/-- The little-endian word at `a`. -/
def loadWord (m : Bytes) (a : Addr) : Word := m (a + 1#32) ++ m a

/-- Store a word at `a`, little-endian. -/
def storeWord (m : Bytes) (a : Addr) (v : Word) : Bytes :=
  m.write a 2 fun k => v.extractLsb' (8 * k) 8

theorem loadWord_congr {m m' : Bytes} {a : Addr}
    (h : ∀ i < 2, m' (a + BitVec.ofNat 32 i) = m (a + BitVec.ofNat 32 i)) :
    m'.loadWord a = m.loadWord a := by
  have h₀ : m' (a + 0#32) = m (a + 0#32) := h 0 (by omega)
  have h₁ : m' (a + 1#32) = m (a + 1#32) := h 1 (by omega)
  rw [BitVec.add_zero] at h₀
  rw [loadWord, loadWord, h₀, h₁]

theorem loadWord_storeWord_self (m : Bytes) (a : Addr) (v : Word) :
    (m.storeWord a v).loadWord a = v := by
  have h₀ : (m.storeWord a v) (a + 0#32) = v.extractLsb' 0 8 :=
    write_apply_add m a _ (by omega) (by omega)
  have h₁ : (m.storeWord a v) (a + 1#32) = v.extractLsb' 8 8 :=
    write_apply_add m a _ (by omega) (by omega)
  rw [BitVec.add_zero] at h₀
  rw [loadWord, h₀, h₁]
  apply BitVec.eq_of_getLsbD_eq
  intro i hi
  rw [BitVec.getLsbD_append]
  split
  · next h => simp [h]
  · next h =>
      rw [BitVec.getLsbD_extractLsb']
      simp [show i - 8 < 8 by omega, show 8 + (i - 8) = i by omega]

theorem loadWord_storeWord_of_le (m : Bytes) {a b : Addr} (v : Word) (h : 2 ≤ (b - a).toNat)
    (h' : 2 ≤ (a - b).toNat) : (m.storeWord a v).loadWord b = m.loadWord b :=
  loadWord_congr fun i hi => write_apply_of_le m a _ (by bv_omega)

/-- The words of an array. -/
theorem loadWord_storeWord (m : Bytes) (base : Addr) {j k : ℕ} (hj : j < 2 ^ 16) (hk : k < 2 ^ 16)
    (v : Word) :
    (m.storeWord (base + BitVec.ofNat 32 (2 * j)) v).loadWord (base + BitVec.ofNat 32 (2 * k)) =
      if j = k then v else m.loadWord (base + BitVec.ofNat 32 (2 * k)) := by
  split
  · next h =>
      subst h
      exact loadWord_storeWord_self _ _ v
  · next h => exact loadWord_storeWord_of_le m v (by bv_omega) (by bv_omega)

end Bytes

/-! ## Gates -/

/-- A gate of a descriptor table. -/
structure Gate where
  lowOffset : Word
  segmentSelector : Word
  flags : Word
  highOffset : Word

namespace Gate

/-- Where the handler is. -/
def offset (g : Gate) : Addr := g.highOffset ++ g.lowOffset

/-- The bit `P`: without it the processor does not use the gate. -/
def present (g : Gate) : Bool := g.flags.getLsbD 15

/-- The least privileged level from which `int` may pass. -/
def dpl (g : Gate) : ℕ := (g.flags.extractLsb' 13 2).toNat

/-- The type of the gate, with the bit that tells gates from segments. -/
def kind (g : Gate) : BitVec 5 := g.flags.extractLsb' 8 5

/-- The type of an interrupt gate of 32-bit code; behind it interrupts are disabled. -/
def interruptKind : BitVec 5 := 0b01110

/-- The type of a trap gate of 32-bit code, which leaves the interrupts as they are. -/
def trapKind : BitVec 5 := 0b01111

end Gate

/-- Load the gate at an address. -/
def Bytes.loadGate (m : Bytes) (a : Addr) : Gate where
  lowOffset := m.loadWord (a + 0#32)
  segmentSelector := m.loadWord (a + 2#32)
  flags := m.loadWord (a + 4#32)
  highOffset := m.loadWord (a + 6#32)

theorem Bytes.loadGate_congr {m m' : Bytes} {a : Addr}
    (h : ∀ i < 8, m' (a + BitVec.ofNat 32 i) = m (a + BitVec.ofNat 32 i)) :
    m'.loadGate a = m.loadGate a := by
  have hword : ∀ k < 7, m'.loadWord (a + BitVec.ofNat 32 k) = m.loadWord (a + BitVec.ofNat 32 k) :=
    fun k hk => Bytes.loadWord_congr fun i hi => by
      rw [BitVec.add_assoc, ← BitVec.ofNat_add]
      exact h _ (by omega)
  exact Gate.mk.injEq .. |>.mpr
    ⟨hword 0 (by omega), hword 2 (by omega), hword 4 (by omega), hword 6 (by omega)⟩

/-- `IDTR` or `GDTR`. -/
structure TableRegister where
  limit : Word
  base : Addr

/-- Where the processor goes on, and whether with interrupts disabled. -/
structure Delivery where
  selector : Word
  offset : Addr
  masked : Bool

/-- Look up a vector, at a privilege level; `software` is the `int` instruction. -/
def deliver (m : Bytes) (idtr : TableRegister) (cpl : ℕ) (software : Bool) (v : BitVec 8) :
    Option Delivery :=
  let g := m.loadGate (idtr.base + BitVec.ofNat 32 (8 * v.toNat))
  if idtr.limit.toNat < 8 * v.toNat + 7 then none
  else if g.kind ≠ Gate.interruptKind ∧ g.kind ≠ Gate.trapKind then none
  else if software = true ∧ g.dpl < cpl then none
  else if g.present then some ⟨g.segmentSelector, g.offset, g.kind = Gate.interruptKind⟩
  else none

/-- `lidt` and `lgdt` load six bytes. -/
def Bytes.loadRegister (m : Bytes) (a : Addr) : TableRegister := ⟨m.loadWord a, m.load (a + 2#32)⟩

/-- A gate of zeros is no gate. -/
theorem deliver_of_zero {m : Bytes} {idtr : TableRegister} {v : BitVec 8}
    (h : ∀ i < 8, m (idtr.base + BitVec.ofNat 32 (8 * v.toNat + i)) = 0) (cpl : ℕ)
    (software : Bool) : deliver m idtr cpl software v = none := by
  have hflags : m.loadWord (idtr.base + BitVec.ofNat 32 (8 * v.toNat) + 4#32) = 0 := by
    have h₄ := h 4 (by omega)
    have h₅ := h 5 (by omega)
    rw [BitVec.ofNat_add, ← BitVec.add_assoc] at h₄ h₅
    have hnext : idtr.base + BitVec.ofNat 32 (8 * v.toNat) + 4#32 + 1#32 =
        idtr.base + BitVec.ofNat 32 (8 * v.toNat) + 5#32 := by
      rw [BitVec.add_assoc]
      rfl
    rw [Bytes.loadWord, hnext]
    exact congrArg₂ (· ++ ·) h₅ h₄
  have hkind : (m.loadGate (idtr.base + BitVec.ofNat 32 (8 * v.toNat))).kind = 0 := by
    show (m.loadWord (idtr.base + BitVec.ofNat 32 (8 * v.toNat) + 4#32)).extractLsb' 8 5 = 0
    rw [hflags]
    decide
  rw [deliver, hkind]
  split
  · rfl
  · exact if_pos ⟨by decide, by decide⟩

/-- Only the table matters. -/
theorem deliver_congr {m m' : Bytes} {idtr : TableRegister} {cpl : ℕ} {software : Bool}
    {v : BitVec 8} (h : m'.loadGate (idtr.base + BitVec.ofNat 32 (8 * v.toNat)) =
      m.loadGate (idtr.base + BitVec.ofNat 32 (8 * v.toNat))) :
    deliver m' idtr cpl software v = deliver m idtr cpl software v := by
  rw [deliver, deliver, h]

end Zeos.Machine
