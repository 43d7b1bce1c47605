import Zeos.Machine.Gate
import Zeos.Machine.Mmu
import Zeos.Machine.Run

/-!
# The interrupt descriptor table (`interrupt.c`)

`setInterruptHandler` and `setTrapHandler` store a gate word by word, and the processor
reads it back to find a handler.  `gates_run` says that this makes the table a map from
vectors to handlers, whatever has been stored before: `deliver` finds the handler that was
set last, with the privilege level that was asked for.

`setIdt_delivers` is about the table that `setIdt` leaves: which vectors lead where, and
that none of them lets a user in by an `int` instruction.

In `gates_run` the table may be anywhere and hold anything, and the calls may be for any
vector, handler and level; a gate is compared by what `deliver` makes of it, at every
privilege level and for both ways to raise it.  In `setIdt_delivers` it is load-bearing
that the table is zero before: most vectors get no gate, and what memory had there would
be one.  That `idtR` lies apart from the table is load-bearing too: its bytes would be
part of a gate.
-/

namespace Zeos

open Machine

/-! ## Setting gates -/

/-- `lowWord`, the lower half of an offset. -/
def lowWord (address : DWord) : Word := (address &&& 0xffff#32).setWidth 16

/-- `highWord`, the upper half of an offset. -/
def highWord (address : DWord) : Word := (address >>> 16 &&& 0xffff#32).setWidth 16

/-- `__KERNEL_CS`. -/
def kernelCs : Word := 0x10

/-- The flags that both functions compute: present, and the type of an interrupt gate. -/
def gateFlags (maxAccessibleFromPL : ℤ) : Word :=
  (BitVec.ofInt 32 maxAccessibleFromPL <<< 13).setWidth 16 ||| 0x8e00#16

/-- `idt[vector] = …`, field by field. -/
def setGate (idt : Addr) (m : Bytes) (vector : ℕ) (handler : Addr) (flags : Word) : Bytes :=
  let gate := idt + BitVec.ofNat 32 (8 * vector)
  let m := m.storeWord (gate + 0#32) (lowWord handler)
  let m := m.storeWord (gate + 2#32) kernelCs
  let m := m.storeWord (gate + 4#32) flags
  m.storeWord (gate + 6#32) (highWord handler)

/-- `setInterruptHandler`: a gate that turns the interrupts off. -/
def setInterruptHandler (idt : Addr) (m : Bytes) (vector : ℕ) (handler : Addr)
    (maxAccessibleFromPL : ℤ) : Bytes :=
  setGate idt m vector handler (gateFlags maxAccessibleFromPL)

/-- An interrupt gate, too, since the type was changed. -/
def setTrapHandler (idt : Addr) (m : Bytes) (vector : ℕ) (handler : Addr)
    (maxAccessibleFromPL : ℤ) : Bytes :=
  setGate idt m vector handler (gateFlags maxAccessibleFromPL)

theorem lowWord_eq (a : DWord) : lowWord a = a.setWidth 16 := by
  rw [lowWord, BitVec.setWidth_and]
  exact BitVec.and_allOnes

theorem highWord_eq (a : DWord) : highWord a = a.extractLsb' 16 16 := by
  rw [highWord, BitVec.setWidth_and]
  exact BitVec.and_allOnes

/-- The two halves of an address are the address. -/
theorem highWord_append_lowWord (a : DWord) : highWord a ++ lowWord a = a := by
  have hlt := a.isLt
  rw [highWord_eq, lowWord_eq]
  apply BitVec.eq_of_toNat_eq
  rw [toNat_append_eq, BitVec.extractLsb'_toNat, BitVec.toNat_setWidth,
    Nat.shiftRight_eq_div_pow]
  omega

theorem gateFlags_getLsbD (pl : ℤ) {i : ℕ} (hi : i < 16) :
    (gateFlags pl).getLsbD i =
      ((decide (13 ≤ i) && (BitVec.ofInt 32 pl).getLsbD (i - 13)) || (0x8e00#16).getLsbD i) := by
  have hi32 : i < 32 := by omega
  have hle : decide (13 ≤ i) = !decide (i < 13) := by
    rw [← decide_not, decide_eq_decide]
    exact Nat.not_lt.symm
  rw [gateFlags, BitVec.getLsbD_or, BitVec.getLsbD_setWidth, BitVec.getLsbD_shiftLeft, hle,
    decide_eq_true hi, decide_eq_true hi32, Bool.true_and, Bool.true_and]

theorem gateFlags_present (pl : ℤ) : (gateFlags pl).getLsbD 15 = true := by
  rw [gateFlags_getLsbD pl (by omega)]
  have hset : (0x8e00#16).getLsbD 15 = true := by decide
  rw [hset, Bool.or_true]

theorem gateFlags_kind (pl : ℤ) : (gateFlags pl).extractLsb' 8 5 = Gate.interruptKind := by
  apply BitVec.eq_of_getLsbD_eq
  intro i hi
  have hlow : decide (13 ≤ 8 + i) = false := by
    rw [decide_eq_false_iff_not]
    omega
  rw [BitVec.getLsbD_extractLsb', gateFlags_getLsbD pl (by omega), hlow,
    Bool.false_and, Bool.false_or]
  obtain rfl | rfl | rfl | rfl | rfl : i = 0 ∨ i = 1 ∨ i = 2 ∨ i = 3 ∨ i = 4 := by omega
  all_goals decide

/-- The privilege level, as far as two bits go. -/
theorem gateFlags_dpl (pl : ℤ) : (((gateFlags pl).extractLsb' 13 2).toNat : ℤ) = pl % 4 := by
  have hbits : (gateFlags pl).extractLsb' 13 2 = (BitVec.ofInt 32 pl).setWidth 2 := by
    apply BitVec.eq_of_getLsbD_eq
    intro i hi
    have hhigh : decide (13 ≤ 13 + i) = true := decide_eq_true (by omega)
    rw [BitVec.getLsbD_extractLsb', gateFlags_getLsbD pl (by omega), BitVec.getLsbD_setWidth, hhigh,
      Nat.add_sub_cancel_left]
    obtain rfl | rfl : i = 0 ∨ i = 1 := by omega
    · simp
    · simp
  rw [hbits, BitVec.toNat_setWidth, BitVec.toNat_ofInt]
  omega

/-! ## The table as a map -/

/-- A call of one of the two functions. -/
structure GateOp where
  trap : Bool
  vector : BitVec 8
  handler : Addr
  maxAccessibleFromPL : ℤ

/-- One call: `setTrapHandler` or `setInterruptHandler`. -/
def gateStep (idt : Addr) (m : Bytes) (op : GateOp) : Bytes :=
  if op.trap then setTrapHandler idt m op.vector.toNat op.handler op.maxAccessibleFromPL
  else setInterruptHandler idt m op.vector.toNat op.handler op.maxAccessibleFromPL

/-- `IDT_ENTRIES * sizeof(Gate) - 1`. -/
def idtLimit : Word := 2047

/-- What a caller of the processor at a privilege level gets of a handler. -/
def GateOp.delivery (op : GateOp) (cpl : ℕ) (software : Bool) : Option Delivery :=
  if software = true ∧ op.maxAccessibleFromPL % 4 < cpl then none
  else some ⟨kernelCs, op.handler, true⟩

section Table

variable (idt : Addr)

theorem gateStep_eq (m : Bytes) (op : GateOp) :
    gateStep idt m op =
      setGate idt m op.vector.toNat op.handler (gateFlags op.maxAccessibleFromPL) := by
  rw [gateStep]
  split <;> rfl

/-- The words of the table are an array. -/
theorem wordOf_gate (v k : ℕ) : idt + BitVec.ofNat 32 (8 * v) + BitVec.ofNat 32 (2 * k) =
    idt + BitVec.ofNat 32 (2 * (4 * v + k)) := by
  rw [BitVec.add_assoc, ← BitVec.ofNat_add]
  congr 2
  omega

/-- A gate that is set is read back as it was set; the others stay. -/
theorem loadGate_setGate (m : Bytes) {v v' : ℕ} (hv : v < 256) (hv' : v' < 256) (handler : Addr)
    (flags : Word) :
    (setGate idt m v handler flags).loadGate (idt + BitVec.ofNat 32 (8 * v')) =
      if v = v' then ⟨lowWord handler, kernelCs, flags, highWord handler⟩
      else m.loadGate (idt + BitVec.ofNat 32 (8 * v')) := by
  have hword : ∀ (m : Bytes) (w : Word) (j k : ℕ), j < 4 → k < 4 →
      (m.storeWord (idt + BitVec.ofNat 32 (8 * v) + BitVec.ofNat 32 (2 * j)) w).loadWord
          (idt + BitVec.ofNat 32 (8 * v') + BitVec.ofNat 32 (2 * k)) =
        if v = v' ∧ j = k then w
        else m.loadWord (idt + BitVec.ofNat 32 (8 * v') + BitVec.ofNat 32 (2 * k)) := by
    intro m w j k hj hk
    rw [wordOf_gate, wordOf_gate, Bytes.loadWord_storeWord m idt (by omega) (by omega)]
    exact if_congr (by omega) rfl rfl
  -- four stores in order: of a word the last one to it is read
  have hread : ∀ k < 4, (setGate idt m v handler flags).loadWord
      (idt + BitVec.ofNat 32 (8 * v') + BitVec.ofNat 32 (2 * k)) =
        if v = v' then [lowWord handler, kernelCs, flags, highWord handler].getD k 0
        else m.loadWord (idt + BitVec.ofNat 32 (8 * v') + BitVec.ofNat 32 (2 * k)) := by
    intro k hk
    rw [setGate]
    refine (hword _ _ 3 k (by omega) hk).trans ?_
    refine (if_congr Iff.rfl rfl ((hword _ _ 2 k (by omega) hk).trans
      (if_congr Iff.rfl rfl ((hword _ _ 1 k (by omega) hk).trans
        (if_congr Iff.rfl rfl (hword _ _ 0 k (by omega) hk)))))).trans ?_
    obtain rfl | rfl | rfl | rfl : k = 0 ∨ k = 1 ∨ k = 2 ∨ k = 3 := by omega
    all_goals by_cases h : v = v' <;> simp [h]
  have h₀ := hread 0 (by omega)
  have h₁ := hread 1 (by omega)
  have h₂ := hread 2 (by omega)
  have h₃ := hread 3 (by omega)
  rw [Bytes.loadGate, Bytes.loadGate]
  split
  · next h =>
      rw [if_pos h] at h₀ h₁ h₂ h₃
      exact Gate.mk.injEq .. |>.mpr ⟨h₀, h₁, h₂, h₃⟩
  · next h =>
      rw [if_neg h] at h₀ h₁ h₂ h₃
      exact Gate.mk.injEq .. |>.mpr ⟨h₀, h₁, h₂, h₃⟩

/-- What the processor finds behind a gate that is set. -/
theorem deliver_gateStep (m : Bytes) (op : GateOp) (cpl : ℕ) (software : Bool) (v : BitVec 8) :
    deliver (gateStep idt m op) ⟨idtLimit, idt⟩ cpl software v =
      if op.vector = v then op.delivery cpl software
      else deliver m ⟨idtLimit, idt⟩ cpl software v := by
  have hv := v.isLt
  have hgate := loadGate_setGate idt m op.vector.isLt hv op.handler
    (gateFlags op.maxAccessibleFromPL)
  rw [← gateStep_eq] at hgate
  -- the gate of this vector is read back field by field, any other is as it was
  split
  · next h =>
      subst h
      rw [if_pos rfl] at hgate
      have hlimit : ¬ idtLimit.toNat < 8 * op.vector.toNat + 7 := by
        rw [show idtLimit.toNat = 2047 from rfl]
        omega
      rw [deliver]
      dsimp only
      rw [hgate, if_neg hlimit, Gate.kind, gateFlags_kind, if_neg (fun h => h.1 rfl), Gate.present,
        gateFlags_present, Gate.offset, highWord_append_lowWord, GateOp.delivery, Gate.dpl,
        if_pos rfl]
      refine if_congr (and_congr_right fun _ => ?_) rfl ?_
      · rw [← gateFlags_dpl, Nat.cast_lt]
      · rw [decide_eq_true rfl]
  · next h =>
      rw [if_neg (fun heq => h (BitVec.eq_of_toNat_eq heq))] at hgate
      exact deliver_congr hgate

/-- **The table is a map from vectors to handlers**: the processor finds what has been set
last for the vector, and only where nothing has, what was there before. -/
theorem gates_run (m : Bytes) (ops : List GateOp) (cpl : ℕ) (software : Bool) (v : BitVec 8) :
    deliver (ops.foldl (gateStep idt) m) ⟨idtLimit, idt⟩ cpl software v =
      (latest GateOp.vector ops v).elim (deliver m ⟨idtLimit, idt⟩ cpl software v)
        fun op => op.delivery cpl software :=
  @obs_foldl_latest Bytes GateOp (gateStep idt) (BitVec 8) (Option Delivery) _ GateOp.vector
    (fun op => op.delivery cpl software)
    (fun m v => deliver m ⟨idtLimit, idt⟩ cpl software v) (fun _ => True) v
    (fun m op _ => deliver_gateStep idt m op cpl software v) m ops fun _ _ => trivial

/-- In a table without gates the calls are all that there is. -/
theorem deliver_foldl_of_blank {m : Bytes} {cpl : ℕ} {software : Bool} {v : BitVec 8}
    (hblank : deliver m ⟨idtLimit, idt⟩ cpl software v = none) (ops : List GateOp) :
    deliver (ops.foldl (gateStep idt) m) ⟨idtLimit, idt⟩ cpl software v =
      (latest GateOp.vector ops v).elim none fun op => op.delivery cpl software := by
  rw [← hblank]
  exact @obs_foldl_latest Bytes GateOp (gateStep idt) (BitVec 8) (Option Delivery) _
    GateOp.vector (fun op => op.delivery cpl software)
    (fun m v => deliver m ⟨idtLimit, idt⟩ cpl software v) (fun _ => True) v
    (fun m op _ => deliver_gateStep idt m op cpl software v) m ops fun _ _ => trivial

/-- A gate is stored into the table. -/
theorem setGate_apply_of_le (m : Bytes) {v : ℕ} (hv : v < 256) (handler : Addr) (flags : Word)
    {a : Addr} (ha : 2048 ≤ (a - idt).toNat) : setGate idt m v handler flags a = m a := by
  have hword : ∀ (m : Bytes) (k : ℕ) (w : Word), k < 4 →
      m.storeWord (idt + BitVec.ofNat 32 (8 * v) + BitVec.ofNat 32 (2 * k)) w a = m a := by
    intro m k w hk
    exact Bytes.write_apply_of_le m _ _ (by bv_omega)
  rw [setGate]
  exact (hword _ 3 _ (by omega)).trans ((hword _ 2 _ (by omega)).trans
    ((hword _ 1 _ (by omega)).trans (hword _ 0 _ (by omega))))

end Table

/-! ## The table of the kernel -/

/-- The handlers that the table is filled with: those of `entry.S`, and the library's for
the exceptions. -/
structure Handlers where
  pageFaultHandler2 : Addr
  keyboardHandler : Addr
  clockHandler : Addr
  exception : ℕ → Addr

/-- `set_handlers`, of the library that the kernel is linked with. -/
def setHandlers (idt : Addr) (exception : ℕ → Addr) (m : Bytes) : Bytes :=
  (List.range 18).foldl (fun m v => setInterruptHandler idt m v (exception v) 0) m

/-- Program the service routines, and load `IDTR` from `idtR`. -/
def setIdt (idt idtR : Addr) (h : Handlers) (m : Bytes) : Bytes × TableRegister :=
  let m := m.store (idtR + 2#32) idt
  let m := m.storeWord idtR idtLimit
  let m := setHandlers idt h.exception m
  let m := setInterruptHandler idt m 14 h.pageFaultHandler2 0
  let m := setInterruptHandler idt m 33 h.keyboardHandler 0
  let m := setInterruptHandler idt m 32 h.clockHandler 0
  (m, m.loadRegister idtR)

/-- The handler of a vector. -/
def Handlers.at (h : Handlers) (v : ℕ) : Option Addr :=
  if v = 32 then some h.clockHandler
  else if v = 33 then some h.keyboardHandler
  else if v = 14 then some h.pageFaultHandler2
  else if v < 18 then some (h.exception v)
  else none

/-- The handler of an exception, set for the kernel alone. -/
def exceptionOp (exception : ℕ → Addr) (v : ℕ) : GateOp := ⟨false, BitVec.ofNat 8 v, exception v, 0⟩

/-- The calls of `setIdt`. -/
def Handlers.ops (h : Handlers) : List GateOp :=
  (List.range 18).map (exceptionOp h.exception) ++ [⟨false, 14, h.pageFaultHandler2, 0⟩] ++
    [⟨false, 33, h.keyboardHandler, 0⟩] ++ [⟨false, 32, h.clockHandler, 0⟩]

/-- The exceptions, each set once. -/
theorem latest_exceptionOp (exception : ℕ → Addr) {n : ℕ} (hn : n ≤ 256) (v : BitVec 8) :
    latest GateOp.vector ((List.range n).map (exceptionOp exception)) v =
      if v.toNat < n then some (exceptionOp exception v.toNat) else none := by
  induction n with
  | zero =>
      rw [if_neg (Nat.not_lt_zero _)]
      rfl
  | succ n ih =>
      have hvector : (exceptionOp exception n).vector = v ↔ v.toNat = n := by
        rw [exceptionOp]
        constructor
        · rintro rfl
          rw [BitVec.toNat_ofNat]
          omega
        · rintro rfl
          exact BitVec.eq_of_toNat_eq ((BitVec.toNat_ofNat _ _).trans (Nat.mod_eq_of_lt v.isLt))
      rw [List.range_succ, List.map_append, List.map_singleton, latest_concat, ih (by omega)]
      by_cases h : v.toNat = n
      · rw [if_pos (hvector.mpr h), if_pos (by omega), h]
      · rw [if_neg (fun heq => h (hvector.mp heq))]
        exact if_congr (by omega) rfl rfl

/-- What is set last, for each vector. -/
theorem latest_ops (h : Handlers) (v : BitVec 8) :
    (latest GateOp.vector h.ops v).map (fun op => (op.handler, op.maxAccessibleFromPL)) =
      (h.at v.toNat).map fun a => (a, 0) := by
  have hkey : ∀ k : BitVec 8, k = v ↔ v.toNat = k.toNat := fun k =>
    ⟨fun hk => by rw [hk], fun hk => BitVec.eq_of_toNat_eq hk.symm⟩
  rw [Handlers.ops, latest_concat, latest_concat, latest_concat,
    latest_exceptionOp h.exception (by omega), Handlers.at, if_congr (hkey 32) rfl rfl,
    if_congr (hkey 33) rfl rfl, if_congr (hkey 14) rfl rfl]
  show Option.map _ (if v.toNat = 32 then _ else if v.toNat = 33 then _ else
    if v.toNat = 14 then _ else _) = _
  split_ifs <;> rfl

/-- The calls are the operations. -/
theorem setIdt_eq (idt idtR : Addr) (h : Handlers) (m : Bytes) :
    (setIdt idt idtR h m).1 =
      h.ops.foldl (gateStep idt) ((m.store (idtR + 2#32) idt).storeWord idtR idtLimit) := by
  have hexceptions : ∀ (m : Bytes) (n : ℕ), n ≤ 256 →
      (List.range n).foldl (fun m v => setInterruptHandler idt m v (h.exception v) 0) m =
        ((List.range n).map (exceptionOp h.exception)).foldl (gateStep idt) m := by
    intro m n hn
    rw [List.foldl_map]
    refine List.foldl_ext _ _ _ fun m v hv => ?_
    have hlt := List.mem_range.mp hv
    have hvector : (exceptionOp h.exception v).vector.toNat = v := by
      rw [exceptionOp, BitVec.toNat_ofNat]
      omega
    rw [gateStep_eq, hvector]
    rfl
  rw [setIdt, setHandlers, hexceptions _ 18 (by omega), Handlers.ops, List.foldl_append,
    List.foldl_append, List.foldl_append]
  rfl

/-- Outside of the table a run leaves memory alone. -/
theorem foldl_gateStep_apply_of_le (idt : Addr) (m : Bytes) (ops : List GateOp) {a : Addr}
    (ha : 2048 ≤ (a - idt).toNat) : ops.foldl (gateStep idt) m a = m a := by
  refine List.foldlRecOn (motive := fun m' : Bytes => m' a = m a) ops _ rfl fun m' hm' op _ => ?_
  rw [gateStep_eq, setGate_apply_of_le idt m' op.vector.isLt _ _ ha, hm']

section SetIdt

variable {idt idtR : Addr} (hapart : ∀ i < 6, 2048 ≤ (idtR + BitVec.ofNat 32 i - idt).toNat)
  (h : Handlers) {m : Bytes}

include hapart

/-- The image of `IDTR` outlives the calls, and it describes the table. -/
theorem loadRegister_setIdt : (setIdt idt idtR h m).2 = ⟨idtLimit, idt⟩ := by
  have hkept : ∀ i < 6, (setIdt idt idtR h m).1 (idtR + BitVec.ofNat 32 i) =
      ((m.store (idtR + 2#32) idt).storeWord idtR idtLimit) (idtR + BitVec.ofNat 32 i) := by
    intro i hi
    rw [setIdt_eq, foldl_gateStep_apply_of_le idt _ _ (hapart i hi)]
  have hlimit : (setIdt idt idtR h m).1.loadWord idtR = idtLimit := by
    rw [Bytes.loadWord_congr fun i hi => hkept i (by omega), Bytes.loadWord_storeWord_self]
  have hbase : (setIdt idt idtR h m).1.load (idtR + 2#32) = idt := by
    refine (Bytes.load_congr fun i hi => ?_).trans (Bytes.load_store_self m (idtR + 2#32) idt)
    have hnext : idtR + 2#32 + BitVec.ofNat 32 i = idtR + BitVec.ofNat 32 (2 + i) := by
      rw [BitVec.add_assoc, ← BitVec.ofNat_add]
    rw [hnext, hkept _ (by omega)]
    exact Bytes.write_apply_of_le _ _ _ (by bv_omega)
  have hload : (setIdt idt idtR h m).2 = (setIdt idt idtR h m).1.loadRegister idtR := rfl
  rw [hload, Bytes.loadRegister, hlimit, hbase]

/-- The image is not in the table, which is as blank with it as before. -/
theorem deliver_register (hzero : ∀ i < 2048, m (idt + BitVec.ofNat 32 i) = 0) (cpl : ℕ)
    (software : Bool) (v : BitVec 8) :
    deliver ((m.store (idtR + 2#32) idt).storeWord idtR idtLimit) ⟨idtLimit, idt⟩ cpl software v =
      none := by
  refine deliver_of_zero (fun i hi => ?_) cpl software
  have hv := v.isLt
  show ((m.store (idtR + 2#32) idt).storeWord idtR idtLimit)
    (idt + BitVec.ofNat 32 (8 * v.toNat + i)) = 0
  have hout : 6 ≤ (idt + BitVec.ofNat 32 (8 * v.toNat + i) - idtR).toNat := by
    by_contra hin
    have hfield := hapart (idt + BitVec.ofNat 32 (8 * v.toNat + i) - idtR).toNat (by omega)
    rw [BitVec.ofNat_toNat, BitVec.setWidth_eq, BitVec.add_comm, BitVec.sub_add_cancel] at hfield
    bv_omega
  rw [Bytes.storeWord, Bytes.write_apply_of_le _ _ _ (by omega), Bytes.store,
    Bytes.write_apply_of_le _ _ _ (by bv_omega)]
  exact hzero _ (by omega)

variable (hzero : ∀ i < 2048, m (idt + BitVec.ofNat 32 i) = 0)

include hzero

/-- The latest of the calls for a vector decides what is found. -/
theorem deliver_setIdt (cpl : ℕ) (software : Bool) (v : BitVec 8) :
    deliver (setIdt idt idtR h m).1 (setIdt idt idtR h m).2 cpl software v =
      (latest GateOp.vector h.ops v).elim none fun op => op.delivery cpl software := by
  rw [loadRegister_setIdt hapart h, setIdt_eq,
    deliver_foldl_of_blank idt (deliver_register hapart hzero cpl software v)]

/-- An interrupt or an exception finds the handler of its vector. -/
theorem deliver_setIdt_interrupt (v : BitVec 8) (cpl : ℕ) :
    deliver (setIdt idt idtR h m).1 (setIdt idt idtR h m).2 cpl false v =
      (h.at v.toNat).map fun a => ⟨kernelCs, a, true⟩ := by
  have hops := latest_ops h v
  rw [deliver_setIdt hapart h hzero]
  cases hlatest : latest GateOp.vector h.ops v with
  | none =>
      rw [hlatest, Option.map_none] at hops
      have hnone : h.at v.toNat = none := Option.map_eq_none_iff.mp hops.symm
      rw [hnone]
      rfl
  | some op =>
      rw [hlatest, Option.map_some] at hops
      obtain ⟨a, ha, heq⟩ := Option.map_eq_some_iff.mp hops.symm
      rw [ha, (Prod.mk.inj heq).1]
      rfl

/-- Every gate is the kernel's alone. -/
theorem deliver_setIdt_software (v : BitVec 8) {cpl : ℕ} (hcpl : 0 < cpl) :
    deliver (setIdt idt idtR h m).1 (setIdt idt idtR h m).2 cpl true v = none := by
  have hops := latest_ops h v
  rw [deliver_setIdt hapart h hzero]
  cases hlatest : latest GateOp.vector h.ops v with
  | none => rfl
  | some op =>
      rw [hlatest, Option.map_some] at hops
      obtain ⟨a, -, heq⟩ := Option.map_eq_some_iff.mp hops.symm
      have hpl : 0 = op.maxAccessibleFromPL := (Prod.mk.inj heq).2
      refine if_pos ⟨rfl, ?_⟩
      rw [← hpl]
      omega

end SetIdt

/-- **The doors of the kernel.**  `IDTR` describes the table.  Interrupts and exceptions
find the handlers, with interrupts disabled behind each, and nothing else is a gate; a
user's `int` passes none of them. -/
theorem setIdt_delivers {idt idtR : Addr}
    (hapart : ∀ i < 6, 2048 ≤ (idtR + BitVec.ofNat 32 i - idt).toNat) (h : Handlers)
    {m : Bytes} (hzero : ∀ i < 2048, m (idt + BitVec.ofNat 32 i) = 0) :
    (setIdt idt idtR h m).2 = ⟨idtLimit, idt⟩ ∧
      ∀ v : BitVec 8,
        (∀ cpl, deliver (setIdt idt idtR h m).1 (setIdt idt idtR h m).2 cpl false v =
          (h.at v.toNat).map fun a => ⟨kernelCs, a, true⟩) ∧
        ∀ cpl, 0 < cpl →
          deliver (setIdt idt idtR h m).1 (setIdt idt idtR h m).2 cpl true v = none :=
  ⟨loadRegister_setIdt hapart h, fun v => ⟨deliver_setIdt_interrupt hapart h hzero v,
    fun _ hcpl => deliver_setIdt_software hapart h hzero v hcpl⟩⟩

/-- Handlers at made-up addresses. -/
def someHandlers : Handlers := ⟨0x11000, 0x11100, 0x11200, fun v => BitVec.ofNat 32 (16 * v)⟩

/-- A timer interrupt, and an `int 0x80` of a user. -/
theorem setIdt_delivers_two :
    deliver (setIdt 0x14000 0x15000 someHandlers fun _ => 0).1
        (setIdt 0x14000 0x15000 someHandlers fun _ => 0).2 3 false 32 =
      some ⟨kernelCs, 0x11200, true⟩ ∧
    deliver (setIdt 0x14000 0x15000 someHandlers fun _ => 0).1
        (setIdt 0x14000 0x15000 someHandlers fun _ => 0).2 3 true 0x80 = none := by
  obtain ⟨-, hv⟩ := @setIdt_delivers 0x14000 0x15000 (fun i hi => by bv_omega) someHandlers
    (fun _ => 0) fun _ _ => rfl
  exact ⟨(hv 32).1 3, (hv 0x80).2 3 (by omega)⟩

end Zeos
