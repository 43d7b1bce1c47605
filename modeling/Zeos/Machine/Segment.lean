import Zeos.Machine.Gate

/-!
# Segments and the task state segment

A descriptor says where a segment is and who may use it.  Its base address is in three
pieces.  The descriptor of a task state segment says where the processor finds the stack
that it changes to when it enters a more privileged level.

`enterHandler` is the whole way of an interrupt: the gate, the code segment that it
names, and the stack.  Segments that grow down, call gates and hardware task switches
are not modelled.

The processor marks the descriptor of a segment as accessed when it loads the segment,
and none of its checks look at the mark.  `descriptorAt` therefore returns the descriptor
without it (`Descriptor.unaccessed`), and all that follows is about what it returns.  The
two descriptors of a system segment that differ in the same bit are not one: there the bit
is a part of the type, and it stays.

Only the tables matter to the checks: `enterHandler_congr` asks that the two memories have
the same descriptors, and the bytes of the other tables.  That descriptors are the same
which differ in the mark is `loadDescriptor_unaccessed_congr`; it is load-bearing there
that the descriptor is one of a segment.

`storeFields` stores a record field by field; `storeFields_apply` says what is in memory
afterwards, byte by byte.
-/

namespace Zeos.Machine

/-! ## Records in memory -/

/-- A field of a record: its offset, and what is stored there. -/
structure RecordField where
  offset : ℕ
  bytes : List Byte

namespace RecordField

/-- A field of one byte. -/
def byte (offset : ℕ) (v : Byte) : RecordField := ⟨offset, [v]⟩

/-- A field of two bytes, the low one first. -/
def word (offset : ℕ) (v : Word) : RecordField := ⟨offset, [v.extractLsb' 0 8, v.extractLsb' 8 8]⟩

/-- A field of four bytes, the low one first. -/
def dword (offset : ℕ) (v : DWord) : RecordField :=
  ⟨offset, [Bytes.byteOf v 0, Bytes.byteOf v 1, Bytes.byteOf v 2, Bytes.byteOf v 3]⟩

/-- What the field makes of the byte `k` of a record. -/
def onto (k : ℕ) (x : Byte) (f : RecordField) : Byte :=
  if f.offset ≤ k ∧ k < f.offset + f.bytes.length then f.bytes.getD (k - f.offset) 0 else x

end RecordField

namespace Bytes

/-- Store a field of the record at `base`. -/
def storeField (base : Addr) (m : Bytes) (f : RecordField) : Bytes :=
  m.write (base + BitVec.ofNat 32 f.offset) f.bytes.length fun k => f.bytes.getD k 0

/-- Store fields, one after another. -/
def storeFields (m : Bytes) (base : Addr) (fs : List RecordField) : Bytes :=
  fs.foldl (storeField base) m

/-- The fields end within `n` bytes. -/
def FieldsFit (n : ℕ) (fs : List RecordField) : Prop := ∀ f ∈ fs, f.offset + f.bytes.length ≤ n

instance (n : ℕ) (fs : List RecordField) : Decidable (FieldsFit n fs) :=
  inferInstanceAs (Decidable (∀ f ∈ fs, _))

theorem storeField_apply (m : Bytes) (base : Addr) {f : RecordField}
    (hf : f.offset + f.bytes.length ≤ 2 ^ 32) {k : ℕ} (hk : k < 2 ^ 32) :
    storeField base m f (base + BitVec.ofNat 32 k) =
      f.onto k (m (base + BitVec.ofNat 32 k)) := by
  rw [storeField, RecordField.onto]
  split
  · next hin =>
      have hbyte : base + BitVec.ofNat 32 k =
          base + BitVec.ofNat 32 f.offset + BitVec.ofNat 32 (k - f.offset) := by
        rw [BitVec.add_assoc, ← BitVec.ofNat_add, Nat.add_sub_cancel' hin.1]
      rw [hbyte]
      exact write_apply_add m _ _ (by omega) (by omega)
  · next hout => exact write_apply_of_le m _ _ (by bv_omega)

/-- **A byte of a record is what the last field over it has put there.** -/
theorem storeFields_apply (base : Addr) {k : ℕ} (hk : k < 2 ^ 32) (fs : List RecordField) :
    ∀ m : Bytes, FieldsFit (2 ^ 32) fs →
      m.storeFields base fs (base + BitVec.ofNat 32 k) =
        fs.foldl (RecordField.onto k) (m (base + BitVec.ofNat 32 k)) := by
  induction fs with
  | nil => exact fun _ _ => rfl
  | cons f fs ih =>
      intro m hfit
      obtain ⟨hf, hfs⟩ := List.forall_mem_cons.mp hfit
      rw [storeFields, List.foldl_cons, List.foldl_cons, ← storeField_apply m base hf hk]
      exact ih _ hfs

/-- Behind the record nothing changes. -/
theorem storeFields_apply_of_le {base b : Addr} {n : ℕ} (hn : n ≤ 2 ^ 32)
    (hb : n ≤ (b - base).toNat) {fs : List RecordField} (hfit : FieldsFit n fs) (m : Bytes) :
    m.storeFields base fs b = m b := by
  have hbyte : b = base + BitVec.ofNat 32 (b - base).toNat := by
    rw [BitVec.ofNat_toNat, BitVec.setWidth_eq, BitVec.add_comm, BitVec.sub_add_cancel]
  rw [hbyte, storeFields_apply base (b - base).isLt fs m fun f hf => (hfit f hf).trans hn]
  refine List.foldlRecOn (motive := fun x => x = m _) fs _ rfl fun x hx f hf => ?_
  have hend := hfit f hf
  rw [RecordField.onto, if_neg (by omega), hx]

theorem loadWord_eq_of_apply {m : Bytes} {a : Addr} {v : Word}
    (h₀ : m (a + BitVec.ofNat 32 0) = v.extractLsb' 0 8)
    (h₁ : m (a + BitVec.ofNat 32 1) = v.extractLsb' 8 8) : m.loadWord a = v := by
  have hword := loadWord_storeWord_self m a v
  rw [← hword]
  refine (loadWord_congr fun i hi => ?_).symm
  rw [storeWord, write_apply_add m a _ hi (by omega)]
  obtain rfl | rfl : i = 0 ∨ i = 1 := by omega
  · exact h₀.symm
  · exact h₁.symm

end Bytes

/-! ## Blocks of memory -/

/-- Two blocks of memory, each a first byte and a length, have no byte in common. -/
def BlocksApart (p q : Addr × ℕ) : Prop :=
  p.2 ≤ (q.1 - p.1).toNat ∧ q.2 ≤ (p.1 - q.1).toNat

instance (p q : Addr × ℕ) : Decidable (BlocksApart p q) :=
  inferInstanceAs (Decidable (_ ∧ _))

theorem BlocksApart.symm {p q : Addr × ℕ} (h : BlocksApart p q) : BlocksApart q p := ⟨h.2, h.1⟩

/-- A byte of the one block is behind the other. -/
theorem BlocksApart.le_sub {a b : Addr} {n k : ℕ} (h : BlocksApart (a, n) (b, k)) {i : ℕ}
    (hi : i < k) : n ≤ (b + BitVec.ofNat 32 i - a).toNat := by
  obtain ⟨hab, hba⟩ := h
  dsimp only at hab hba
  bv_omega

/-! ## Descriptors -/

/-- A segment descriptor. -/
structure Descriptor where
  limit : Word
  lowBase : Word
  midBase : Byte
  flags1 : Byte
  flags2 : Byte
  highBase : Byte
  deriving DecidableEq

namespace Descriptor

/-- Where the segment begins. -/
def base (d : Descriptor) : Addr := d.highBase ++ d.midBase ++ d.lowBase

/-- The offset of its last byte, in bytes or in pages. -/
def span (d : Descriptor) : ℕ :=
  let limit := (d.flags2.extractLsb' 0 4 ++ d.limit).toNat
  if d.flags2.getLsbD 7 then limit * 4096 + 4095 else limit

/-- The bit `P`: without it the segment cannot be loaded. -/
def present (d : Descriptor) : Bool := d.flags1.getLsbD 7

/-- The level that it belongs to. -/
def dpl (d : Descriptor) : ℕ := (d.flags1.extractLsb' 5 2).toNat

/-- Code and data, as opposed to the segments of the system. -/
def isSegment (d : Descriptor) : Bool := d.flags1.getLsbD 4

/-- A code segment. -/
def executable (d : Descriptor) : Bool := d.isSegment && d.flags1.getLsbD 3

/-- A data segment that may be written to. -/
def writable (d : Descriptor) : Bool := d.isSegment && !d.flags1.getLsbD 3 && d.flags1.getLsbD 1

/-- Conforming, of code; growing down, of data. -/
def special (d : Descriptor) : Bool := d.flags1.getLsbD 2

/-- A 32-bit task state segment that is not busy. -/
def availableTask (d : Descriptor) : Bool := d.flags1.extractLsb' 0 5 = 0b01001#5

/-- The bit of the rights by which the processor marks a segment as accessed. -/
def accessedMark : Byte := 1

/-- The descriptor without the mark. -/
def unaccessed (d : Descriptor) : Descriptor :=
  if d.isSegment then { d with flags1 := d.flags1 &&& ~~~accessedMark } else d

/-- The other bits of the rights. -/
theorem getLsbD_unaccessed (d : Descriptor) {i : ℕ} (hi : 0 < i) (hlt : i < 8) :
    d.unaccessed.flags1.getLsbD i = d.flags1.getLsbD i := by
  have hbit : (accessedMark : Byte).getLsbD i = false := by
    rw [accessedMark, BitVec.ofNat_eq_ofNat, BitVec.getLsbD_one]
    simp
    omega
  rw [unaccessed]
  split
  · rw [BitVec.getLsbD_and, BitVec.getLsbD_not, hbit]
    simp [hlt]
  · rfl

@[simp] theorem isSegment_unaccessed (d : Descriptor) : d.unaccessed.isSegment = d.isSegment :=
  getLsbD_unaccessed d (by omega) (by omega)

@[simp] theorem present_unaccessed (d : Descriptor) : d.unaccessed.present = d.present :=
  getLsbD_unaccessed d (by omega) (by omega)

@[simp] theorem special_unaccessed (d : Descriptor) : d.unaccessed.special = d.special :=
  getLsbD_unaccessed d (by omega) (by omega)

@[simp] theorem executable_unaccessed (d : Descriptor) :
    d.unaccessed.executable = d.executable := by
  rw [executable, executable, isSegment_unaccessed, getLsbD_unaccessed d (by omega) (by omega)]

@[simp] theorem dpl_unaccessed (d : Descriptor) : d.unaccessed.dpl = d.dpl := by
  have hbits : d.unaccessed.flags1.extractLsb' 5 2 = d.flags1.extractLsb' 5 2 := by
    apply BitVec.eq_of_getLsbD_eq
    intro i hi
    rw [BitVec.getLsbD_extractLsb', BitVec.getLsbD_extractLsb',
      getLsbD_unaccessed d (by omega) (by omega)]
  rw [dpl, dpl, hbits]

/-- What is not a segment has no such mark. -/
theorem unaccessed_of_system {d : Descriptor} (h : d.isSegment = false) : d.unaccessed = d := by
  rw [unaccessed, h, if_neg Bool.false_ne_true]

end Descriptor

/-- Load the descriptor at an address. -/
def Bytes.loadDescriptor (m : Bytes) (a : Addr) : Descriptor where
  limit := m.loadWord (a + 0#32)
  lowBase := m.loadWord (a + 2#32)
  midBase := m (a + 4#32)
  flags1 := m (a + 5#32)
  flags2 := m (a + 6#32)
  highBase := m (a + 7#32)

theorem Bytes.loadDescriptor_congr {m m' : Bytes} {a : Addr}
    (h : ∀ i < 8, m' (a + BitVec.ofNat 32 i) = m (a + BitVec.ofNat 32 i)) :
    m'.loadDescriptor a = m.loadDescriptor a := by
  have hword : ∀ k < 7, m'.loadWord (a + BitVec.ofNat 32 k) = m.loadWord (a + BitVec.ofNat 32 k) :=
    fun k hk => Bytes.loadWord_congr fun i hi => by
      rw [BitVec.add_assoc, ← BitVec.ofNat_add]
      exact h _ (by omega)
  exact Descriptor.mk.injEq .. |>.mpr
    ⟨hword 0 (by omega), hword 2 (by omega), h 4 (by omega), h 5 (by omega), h 6 (by omega),
      h 7 (by omega)⟩

/-- Segments that differ in the mark. -/
theorem Bytes.loadDescriptor_unaccessed_congr {m m' : Bytes} {a : Addr}
    (hseg : (m.loadDescriptor a).isSegment = true)
    (h : ∀ i < 8, i ≠ 5 → m' (a + BitVec.ofNat 32 i) = m (a + BitVec.ofNat 32 i))
    (hflags : m' (a + 5#32) &&& ~~~Descriptor.accessedMark =
      m (a + 5#32) &&& ~~~Descriptor.accessedMark) :
    (m'.loadDescriptor a).unaccessed = (m.loadDescriptor a).unaccessed := by
  -- the same bytes, but for the rights
  let m₁ : Bytes := Function.update m' (a + 5#32) (m (a + 5#32))
  have hbytes : m₁.loadDescriptor a = m.loadDescriptor a := by
    refine Bytes.loadDescriptor_congr fun i hi => ?_
    by_cases hfive : i = 5
    · subst hfive
      exact Function.update_self _ _ _
    · rw [← h i hi hfive]
      exact Function.update_of_ne (by bv_omega) _ _
  have hother : ∀ k < 8, k ≠ 5 → m₁ (a + BitVec.ofNat 32 k) = m' (a + BitVec.ofNat 32 k) :=
    fun k hk hne => Function.update_of_ne (by bv_omega) _ _
  have hword : ∀ k < 7, k + 1 < 5 →
      m₁.loadWord (a + BitVec.ofNat 32 k) = m'.loadWord (a + BitVec.ofNat 32 k) :=
    fun k hk hlow => Bytes.loadWord_congr fun i hi => by
      rw [BitVec.add_assoc, ← BitVec.ofNat_add]
      exact hother _ (by omega) (by omega)
  have hload : m'.loadDescriptor a =
      { m.loadDescriptor a with flags1 := m' (a + 5#32) } := by
    rw [← hbytes]
    exact Descriptor.mk.injEq .. |>.mpr ⟨(hword 0 (by omega) (by omega)).symm,
      (hword 2 (by omega) (by omega)).symm, (hother 4 (by omega) (by omega)).symm, rfl,
      (hother 6 (by omega) (by omega)).symm, (hother 7 (by omega) (by omega)).symm⟩
  have hbit : (m' (a + 5#32)).getLsbD 4 = (m (a + 5#32)).getLsbD 4 := by
    have hclear := congrArg (fun v : Byte => v.getLsbD 4) hflags
    simpa [Descriptor.accessedMark] using hclear
  have hseg' : (m'.loadDescriptor a).isSegment = true := by
    rw [hload, ← hseg]
    exact hbit
  rw [Descriptor.unaccessed, Descriptor.unaccessed, hseg, hseg', if_pos rfl, if_pos rfl, hload]
  dsimp only
  rw [hflags]
  rfl

/-- The descriptor that a selector names, in the global table, as the checks see it; the first
is none. -/
def descriptorAt (m : Bytes) (gdtr : TableRegister) (sel : Word) : Option Descriptor :=
  if sel.getLsbD 2 = true ∨ sel.toNat / 8 = 0 ∨ gdtr.limit.toNat < 8 * (sel.toNat / 8) + 7 then none
  else some (m.loadDescriptor (gdtr.base + BitVec.ofNat 32 (8 * (sel.toNat / 8)))).unaccessed

/-- The linear address of an offset into a segment. -/
def linear (m : Bytes) (gdtr : TableRegister) (sel : Word) (offset : Addr) : Option Addr :=
  (descriptorAt m gdtr sel).bind fun d =>
    if (d.isSegment && d.present && (d.executable || !d.special)) = true ∧
        offset.toNat ≤ d.span then
      some (d.base + offset)
    else none

/-- `TR`, with what it holds of the descriptor. -/
structure TaskRegister where
  base : Addr
  span : ℕ

/-- `ltr`, which marks the segment as busy. -/
def loadTask (m : Bytes) (gdtr : TableRegister) (sel : Word) : Option (Bytes × TaskRegister) :=
  (descriptorAt m gdtr sel).bind fun d =>
    if (d.availableTask && d.present) = true then
      some (m.write (gdtr.base + BitVec.ofNat 32 (8 * (sel.toNat / 8)) + 5#32) 1
        fun _ => d.flags1 ||| 2#8, ⟨d.base, d.span⟩)
    else none

/-- The stack of a level, in the task state segment. -/
def innerStack (m : Bytes) (tr : TaskRegister) (level : ℕ) : Option (Word × Addr) :=
  if tr.span < 8 * level + 9 then none
  else some (m.loadWord (tr.base + BitVec.ofNat 32 (8 * level + 8)),
    m.load (tr.base + BitVec.ofNat 32 (8 * level + 4)))

/-! ## The way of an interrupt -/

/-- How a handler is entered: where, whether with interrupts disabled, and on which stack
if it is not the one that is in use. -/
structure HandlerEntry where
  cs : Word
  eip : Addr
  masked : Bool
  stack : Option (Word × Addr)

/-- The stack to change to when a level is entered. -/
def changeStack (m : Bytes) (gdtr : TableRegister) (tr : TaskRegister) (level : ℕ) :
    Option (Word × Addr) :=
  (innerStack m tr level).bind fun st =>
    (descriptorAt m gdtr st.1).bind fun d =>
      if (d.writable && d.present) = true ∧ d.dpl = level ∧ st.1.toNat % 4 = level then some st
      else none

/-- Enter the handler of a vector, from a level. -/
def enterHandler (m : Bytes) (idtr gdtr : TableRegister) (tr : TaskRegister) (cpl : ℕ)
    (software : Bool) (v : BitVec 8) : Option HandlerEntry :=
  (deliver m idtr cpl software v).bind fun g =>
    (descriptorAt m gdtr g.selector).bind fun d =>
      let level := if d.special then cpl else d.dpl
      let cs := (g.selector &&& 0xfffc#16) ||| BitVec.ofNat 16 level
      if (d.executable && d.present) = false ∨ cpl < d.dpl ∨ d.span < g.offset.toNat then none
      else if level = cpl then some ⟨cs, g.offset, g.masked, none⟩
      else (changeStack m gdtr tr level).map fun st => ⟨cs, g.offset, g.masked, some st⟩

/-! ## Only the tables matter -/

section Congr

variable {m m' : Bytes} {gdtr idtr : TableRegister} {tr : TaskRegister}

/-- The bytes of a table are the same. -/
def SameTable (m m' : Bytes) (base : Addr) (last : ℕ) : Prop :=
  ∀ i ≤ last, m' (base + BitVec.ofNat 32 i) = m (base + BitVec.ofNat 32 i)

/-- The same descriptors, marks apart. -/
theorem descriptorAt_congr
    (h : ∀ k, 0 < k → 8 * k + 7 ≤ gdtr.limit.toNat →
      (m'.loadDescriptor (gdtr.base + BitVec.ofNat 32 (8 * k))).unaccessed =
        (m.loadDescriptor (gdtr.base + BitVec.ofNat 32 (8 * k))).unaccessed) (sel : Word) :
    descriptorAt m' gdtr sel = descriptorAt m gdtr sel := by
  rw [descriptorAt, descriptorAt]
  split
  · rfl
  · next hin => exact congrArg some (h _ (by omega) (by omega))

theorem changeStack_congr (hgdt : ∀ sel, descriptorAt m' gdtr sel = descriptorAt m gdtr sel)
    (htss : SameTable m m' tr.base tr.span) (level : ℕ) :
    changeStack m' gdtr tr level = changeStack m gdtr tr level := by
  have hinner : innerStack m' tr level = innerStack m tr level := by
    rw [innerStack, innerStack]
    split
    · rfl
    · next hin =>
        refine congrArg some (Prod.ext (Bytes.loadWord_congr fun i hi => ?_)
          (Bytes.load_congr fun i hi => ?_))
        all_goals
          rw [BitVec.add_assoc, ← BitVec.ofNat_add]
          exact htss _ (by omega)
  simp only [changeStack, hinner, hgdt]

theorem enterHandler_congr (hidt : SameTable m m' idtr.base idtr.limit.toNat)
    (hgdt : ∀ sel, descriptorAt m' gdtr sel = descriptorAt m gdtr sel)
    (htss : SameTable m m' tr.base tr.span) (cpl : ℕ) (software : Bool) (v : BitVec 8) :
    enterHandler m' idtr gdtr tr cpl software v = enterHandler m idtr gdtr tr cpl software v := by
  have hdeliver : deliver m' idtr cpl software v = deliver m idtr cpl software v := by
    rw [deliver, deliver]
    split
    · rfl
    · next hin =>
        have hgate : m'.loadGate (idtr.base + BitVec.ofNat 32 (8 * v.toNat)) =
            m.loadGate (idtr.base + BitVec.ofNat 32 (8 * v.toNat)) := by
          refine Bytes.loadGate_congr fun i hi => ?_
          rw [BitVec.add_assoc, ← BitVec.ofNat_add]
          exact hidt _ (by omega)
        rw [hgate]
  simp only [enterHandler, hdeliver, hgdt, changeStack_congr hgdt htss]

end Congr

end Zeos.Machine
