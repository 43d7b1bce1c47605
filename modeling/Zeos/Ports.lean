import Zeos.Pic
import Zeos.Privilege

/-!
# The ports of a program (`mm.c`)

`setTSS` leaves the address of the I/O permission bitmap zero, so the processor takes the
TSS itself for the bitmap.  `openPorts_iff` says which ports that opens to a program.  The
ports of the first interrupt controller are among them, whose bits are those of `esp0`:
`silenced_run` says that a program can turn off the clock and the keyboard for good.

A port is open if its bit in the bitmap is clear and lies within the segment's limit, and
the bitmap is here the TSS as `setTSS` has filled it (`tssImage`).  The hypotheses are
those of `setTables_ready`, and that the TSS is zero before, because `setTSS` leaves parts
of it as they are.  `silenced_run` puts the two results together: the port is open in the
tables, and after the write no event brings an interrupt, in every state that the
controllers can reach.
-/

namespace Zeos

open Machine

/-! ## The TSS, bit by bit -/

/-- The TSS as `setTSS` leaves it, word by word. -/
def tssImage (esp0 : Addr) : List DWord :=
  [0, esp0, kernelDs, 0, 0, 0, 0, 0, 0, 0x200, 0, 0, 0, 0, userEsp, userEsp, 0, 0, userDs, userCs,
   userDs, userDs, 0, 0, kernelTss.setWidth 32, 0]

/-- A byte of a TSS that was zero before. -/
def tssByte (esp0 : Addr) (k : ℕ) : Byte :=
  (tssFields esp0 ++ .dword 60 userEsp :: tssRest).foldl (RecordField.onto k) 0

/-- The other words do not depend on the stack. -/
theorem tssImage_getD (esp0 : Addr) : ∀ j, j ≠ 1 → (tssImage esp0).getD j 0 = (tssImage 0).getD j 0
  | 0, _ => rfl
  | 1, h => absurd rfl h
  | _ + 2, _ => rfl

theorem tssByte_eq (esp0 : Addr) {k : ℕ} (hk : k < 104) :
    tssByte esp0 k = Bytes.byteOf ((tssImage esp0).getD (k / 4) 0) (k % 4) := by
  by_cases hesp : 4 ≤ k ∧ k < 8
  · obtain rfl | rfl | rfl | rfl : k = 4 ∨ k = 5 ∨ k = 6 ∨ k = 7 := by omega
    all_goals rfl
  · have hfields : ∀ x, (RecordField.dword 4 esp0).onto k x = (RecordField.dword 4 0).onto k x := by
      intro x
      rw [RecordField.onto, RecordField.onto]
      exact (if_neg hesp).trans (if_neg hesp).symm
    have hbyte : tssByte esp0 k = tssByte 0 k := by
      simp only [tssByte, tssFields, List.cons_append, List.foldl_cons, hfields]
    have hall : ∀ k < 104, tssByte 0 k = Bytes.byteOf ((tssImage 0).getD (k / 4) 0) (k % 4) := by
      decide +kernel
    rw [hbyte, tssImage_getD esp0 _ (by omega), hall k hk]

/-- What `setTSS` stores is that. -/
theorem fillTSS_apply_add {tss : Addr} (esp0 : Addr) {m : Bytes}
    (hzero : ∀ i < 104, m (tss + BitVec.ofNat 32 i) = 0) {k : ℕ} (hk : k < 104) :
    fillTSS tss esp0 m (tss + BitVec.ofNat 32 k) = tssByte esp0 k := by
  have hfit : ∀ {fs : List RecordField}, Bytes.FieldsFit 104 fs → Bytes.FieldsFit (2 ^ 32) fs :=
    fun h f hf => (h f hf).trans (by omega)
  have hfields := fun i (hi : i < 104) => Bytes.storeFields_apply tss (k := i) (by omega) _ m
    (hfit (fieldsFit_tss esp0))
  have hesp : (m.storeFields tss (tssFields esp0)).load (tss + 56#32) = userEsp := by
    refine Bytes.load_eq_of_byteOf fun i hi => ?_
    have hfield := hfields (56 + i) (by omega)
    rw [BitVec.ofNat_add, ← BitVec.add_assoc] at hfield
    refine hfield.trans ?_
    obtain rfl | rfl | rfl | rfl : i = 0 ∨ i = 1 ∨ i = 2 ∨ i = 3 := by omega
    all_goals rfl
  have hebp : ∀ m : Bytes, m.store (tss + 60#32) userEsp =
      Bytes.storeField tss m (.dword 60 userEsp) := by
    intro m
    refine Bytes.write_congr _ _ fun i hi => ?_
    obtain rfl | rfl | rfl | rfl : i = 0 ∨ i = 1 ∨ i = 2 ∨ i = 3 := by omega
    all_goals rfl
  rw [fillTSS, hesp, Bytes.storeFields_apply tss (by omega) _ _ (hfit fieldsFit_rest), hebp,
    Bytes.storeField_apply _ _ (by decide) (by omega), hfields k hk, hzero k hk, tssByte,
    List.foldl_append, List.foldl_cons]

section Open

variable {m : Bytes}

/-- The byte of a bitmap that has the bit of a port. -/
theorem getLsbD_byteOf (v : DWord) (p : ℕ) :
    (Bytes.byteOf v (p / 8 % 4)).getLsbD (p % 8) = v.getLsbD (p % 32) := by
  have hbit : 8 * (p / 8 % 4) + p % 8 = p % 32 := by omega
  rw [Bytes.byteOf, BitVec.getLsbD_extractLsb', decide_eq_true (Nat.mod_lt _ (by omega)),
    Bool.true_and, hbit]

/-- The stack of the kernel begins at a page. -/
theorem initialEsp_getLsbD (L : Layout) {i : ℕ} (hi : i < 12) :
    (initialEsp L).getLsbD i = false := by
  have haligned := L.task_aligned
  have hesp : (initialEsp L).toNat % 2 ^ 12 = 0 := by
    rw [initialEsp, Layout.taskAddr, pageAt, BitVec.toNat_add, BitVec.toNat_add, BitVec.toNat_ofNat,
      BitVec.toNat_ofNat]
    simp only [pageSize] at haligned ⊢
    omega
  have hbit := Nat.testBit_mod_two_pow (initialEsp L).toNat 12 i
  rw [hesp, Nat.zero_testBit, decide_eq_true hi, Bool.true_and] at hbit
  exact hbit.symm

/-- The low byte of a word. -/
theorem loadWord_getLsbD (m : Bytes) (a : Addr) {i : ℕ} (hi : i < 8) :
    (m.loadWord a).getLsbD i = (m a).getLsbD i := by
  rw [Bytes.loadWord, BitVec.getLsbD_append, if_pos hi]

section Run

variable {D : KernelData} {h : Handlers} {esp0 : Addr} {d : SystemTables}
  (hboot : HasBootGdt m D.gdt) (hzero : ∀ i < 2048, m (D.idt + BitVec.ofNat 32 i) = 0)
  (htss : ∀ i < 104, m (D.tss + BitVec.ofNat 32 i) = 0) (hrun : setTables D h esp0 m = some d)

include hboot hzero htss hrun

/-- The TSS that `setTSS` leaves, byte by byte. -/
theorem tss_of_setTables : ∀ i < 104, d.mem (D.tss + BitVec.ofNat 32 i) =
    Bytes.byteOf ((tssImage esp0).getD (i / 4) 0) (i % 4) := by
  intro i hi
  obtain ⟨_, hmem, -, -, -, -, hkept, -⟩ := setTables_cases hboot hzero hrun
  obtain ⟨-, -, -, hgdt, -⟩ := D.pairs
  have hout := hgdt.le_sub hi
  rw [hmem, Bytes.write_apply_of_le _ _ _ (by bv_omega),
    fillTSS_apply_add _ (fun i hi => (hkept i hi).trans (htss i hi)) hi, tssByte_eq _ hi]

/-- The processor looks for the bitmap at the TSS itself, and finds its bytes. -/
theorem portAllowed_of_setTables (p : ℕ) : portAllowed d.mem d.tr p 1 = true ↔
    p < 832 ∧ ((tssImage esp0).getD (p / 32) 0).getLsbD (p % 32) = false := by
  have hbyte := tss_of_setTables hboot hzero htss hrun
  obtain ⟨-, -, -, -, htr, -⟩ := setTables_cases hboot hzero hrun
  have hmap : d.mem.loadWord (D.tss + 102#32) = 0 := by
    have hlast : ∀ k < 4, Bytes.byteOf 0 k = 0 := by decide
    have h₂ : d.mem (D.tss + 102#32) = 0 := (hbyte 102 (by omega)).trans (hlast 2 (by omega))
    have h₃ : d.mem (D.tss + 102#32 + 1#32) = 0 := by
      rw [BitVec.add_assoc]
      exact (hbyte 103 (by omega)).trans (hlast 3 (by omega))
    rw [Bytes.loadWord, h₂, h₃]
    rfl
  have hbase : ((0 : Word).toNat) = 0 := rfl
  have hspan : decide (103 ≤ 104) = true := rfl
  rw [portAllowed, htr]
  dsimp only
  rw [hmap, hbase, hspan, Bool.true_and, Nat.zero_add, List.range_one, List.all_cons,
    List.all_nil, Bool.and_true, Bool.and_eq_true, decide_eq_true_eq, Bool.not_eq_true',
    Nat.add_zero (p % 8), loadWord_getLsbD _ _ (Nat.mod_lt _ (by omega))]
  have hin : p / 8 + 1 ≤ 104 ↔ p < 832 := by omega
  rw [hin]
  refine and_congr_right fun hp => ?_
  rw [hbyte _ (by omega), show p / 8 / 4 = p / 32 by omega, getLsbD_byteOf]

end Run

/-- The ports of the interrupt controllers and of the keyboard controller. -/
theorem tssImage_device (L : Layout) {p : ℕ} (hp : p ∈ [0x20, 0x21, 0x60, 0x64, 0xa0, 0xa1]) :
    p < 832 ∧ ((tssImage (initialEsp L)).getD (p / 32) 0).getLsbD (p % 32) = false := by
  obtain rfl | rfl | rfl | rfl | rfl | rfl : p = 0x20 ∨ p = 0x21 ∨ p = 0x60 ∨ p = 0x64 ∨ p = 0xa0 ∨
      p = 0xa1 := by simpa using hp
  -- the first two are bits of the kernel's stack pointer
  · exact ⟨by omega, initialEsp_getLsbD L (by omega)⟩
  · exact ⟨by omega, initialEsp_getLsbD L (by omega)⟩
  all_goals exact ⟨by omega, BitVec.getLsbD_zero⟩

/-- **The ports of a program are the zeros of the TSS**, and the interrupt controllers' and
the keyboard controller's are among them. -/
theorem openPorts_iff (D : KernelData) (h : Handlers) (L : Layout) (hboot : HasBootGdt m D.gdt)
    (hzero : ∀ i < 2048, m (D.idt + BitVec.ofNat 32 i) = 0)
    (htss : ∀ i < 104, m (D.tss + BitVec.ofNat 32 i) = 0) :
    ∃ d, setTables D h (initialEsp L) m = some d ∧
      (∀ p, portAllowed d.mem d.tr p 1 = true ↔
        p < 832 ∧ ((tssImage (initialEsp L)).getD (p / 32) 0).getLsbD (p % 32) = false) ∧
      ∀ p ∈ [0x20, 0x21, 0x60, 0x64, 0xa0, 0xa1], portAllowed d.mem d.tr p 1 = true := by
  obtain ⟨-, d, hrun, -⟩ := setTables_eq D h (initialEsp L) hboot hzero
  have hports := portAllowed_of_setTables hboot hzero htss hrun
  exact ⟨d, hrun, hports, fun p hp => (hports p).mpr (tssImage_device L hp)⟩

end Open

/-- The memory behind the boot sector's table is zero. -/
theorem bootSector_zero (base : Addr) (n : ℕ) (hn : n ≤ 2048)
    (hbase : 56 ≤ (base - 0x901b3#32).toNat ∧ (base - 0x901b3#32).toNat + n ≤ 2 ^ 32) :
    ∀ i < n, bootSector (base + BitVec.ofNat 32 i) = 0 := by
  intro i hi
  refine bootSector_of_le ?_
  bv_omega

/-- The keyboard controller is open, and the mode of the clock's counters is not. -/
theorem openPorts_iff_two : ∃ d, setTables someData someHandlers (initialEsp kernelLayout)
    bootSector = some d ∧ portAllowed d.mem d.tr 0x64 1 = true ∧
      ¬ portAllowed d.mem d.tr 0x43 1 = true := by
  obtain ⟨d, hrun, hopen, hports⟩ := openPorts_iff someData someHandlers kernelLayout
    hasBootGdt_bootSector (bootSector_zero 0x14000 2048 (by omega) (by decide))
    (bootSector_zero 0x15010 104 (by omega) (by decide))
  refine ⟨d, hrun, hports 0x64 (by simp), ?_⟩
  rw [hopen]
  decide

/-! ## A program that silences the controllers -/

/-- A program's `outb`. -/
def PicSystem.out (s : PicSystem) (w : Byte × Byte) : PicSystem := { s with pics := s.pics.out w }

/-- No line is open, and no handler opens one. -/
structure Silenced (s : PicSystem) : Prop where
  expects : s.pics.master.expects = .mask
  mask : s.pics.master.mask = 0xff
  running : s.running = none ∨ s.running = some [eoiWrite] ∨ s.running = some []

/-- The end of a service changes neither. -/
theorem writeCommand_eoi_keeps (p : Pic) :
    (p.writeCommand 0x20).expects = p.expects ∧ (p.writeCommand 0x20).mask = p.mask := by
  have hinit : ¬ (0x20 : Byte).getLsbD 4 = true := by decide
  have heoi : (0x20 : Byte) &&& 0xf8#8 = 0x20#8 := by decide
  rw [Pic.writeCommand, if_neg hinit, if_pos heoi]
  cases firstLine p.inService with
  | none => exact ⟨rfl, rfl⟩
  | some n => exact ⟨rfl, rfl⟩

/-- A controller whose lines are all masked has nothing to offer. -/
theorem pending_of_masked {p : Pic} (h : p.mask = 0xff) : p.pending = none := by
  have hnone : firstLine (p.requested &&& ~~~p.mask) = none := by
    have hclosed : p.requested &&& ~~~p.mask = 0 := by
      rw [h]
      exact BitVec.and_zero
    rw [hclosed]
    rfl
  rw [Pic.pending, hnone]

/-- **Nothing comes through.** -/
theorem Silenced.step {s : PicSystem} (h : Silenced s) (e : PicEvent) :
    (picStep s e).2 = none ∧ Silenced (picStep s e).1 := by
  obtain ⟨pics, running⟩ := s
  obtain ⟨hexpects, hmask, hrunning⟩ := h
  cases e with
  | raise n =>
      have hkept : (pics.raise n).master.expects = pics.master.expects ∧
          (pics.raise n).master.mask = pics.master.mask := by
        rw [Pics.raise]
        split <;> exact ⟨rfl, rfl⟩
      exact ⟨rfl, hkept.1.trans hexpects, hkept.2.trans hmask, hrunning⟩
  | step =>
      -- nothing is being served, or a handler is left to finish
      rcases hrunning with hnone | heoi | hended
      · obtain rfl : running = none := hnone
        have hack : pics.acknowledge = (pics, none) := by
          rw [Pics.acknowledge, pending_of_masked (p := pics.merged) hmask]
        have hstep : picStep ⟨pics, none⟩ .step =
            (⟨pics.acknowledge.1, pics.acknowledge.2.map handlerWrites⟩, pics.acknowledge.2) := rfl
        rw [hstep, hack]
        exact ⟨rfl, hexpects, hmask, Or.inl rfl⟩
      · obtain rfl : running = some [eoiWrite] := heoi
        obtain ⟨hsame, hsame'⟩ := writeCommand_eoi_keeps pics.master
        exact ⟨rfl, hsame.trans hexpects, hsame'.trans hmask, Or.inr (Or.inr rfl)⟩
      · obtain rfl : running = some [] := hended
        exact ⟨rfl, hexpects, hmask, Or.inl rfl⟩

theorem Silenced.outputs_eq {s : PicSystem} (h : Silenced s) (events : List PicEvent) :
    outputs picStep s events = [] := by
  induction events generalizing s with
  | nil => rfl
  | cons e events ih =>
      obtain ⟨hnone, hnext⟩ := h.step e
      rw [outputs, hnone, ih hnext]
      rfl

/-- A word to a controller that has been programmed. -/
theorem writeData_mask {p : Pic} (h : p.expects = .mask) (v : Byte) :
    (p.writeData v).expects = .mask ∧ (p.writeData v).mask = v := by
  rw [Pic.writeData, h]
  exact ⟨rfl, rfl⟩

/-- What a program leaves that masks all lines of the first controller. -/
theorem Follows.silenced {s : PicSystem} {t : Waiting} (h : Follows s t) :
    Silenced (s.out (0x21, 0xff)) := by
  obtain ⟨hexpects, hmask⟩ := writeData_mask h.expects 0xff
  refine ⟨hexpects, hmask, ?_⟩
  cases h.phase with
  | program hrunning => exact Or.inl hrunning
  | handler n hn hrunning => exact Or.inr (Or.inl hrunning)
  | ended hrunning => exact Or.inr (Or.inr hrunning)

/-- **A program can turn off the clock and the keyboard for good**: the port is open to it,
and whenever it writes there nothing is delivered from then on. -/
theorem silenced_run {m : Bytes} (D : KernelData) (h : Handlers) (L : Layout)
    (hboot : HasBootGdt m D.gdt) (hzero : ∀ i < 2048, m (D.idt + BitVec.ofNat 32 i) = 0)
    (htss : ∀ i < 104, m (D.tss + BitVec.ofNat 32 i) = 0) (p : Pics) (boot : List BootEvent)
    (hpics : boot.filterMap BootEvent.write = remapPics ++ enableInt)
    (before after : List PicEvent) :
    (∃ d, setTables D h (initialEsp L) m = some d ∧ portAllowed d.mem d.tr 0x21 1 = true) ∧
      outputs picStep ((before.foldl (fun s e => (picStep s e).1)
        ⟨boot.foldl bootStep p, none⟩).out (0x21, 0xff)) after = [] := by
  obtain ⟨-, d, hrun, -⟩ := setTables_eq D h (initialEsp L) hboot hzero
  refine ⟨⟨d, hrun, (portAllowed_of_setTables hboot hzero htss hrun 0x21).mpr
    (tssImage_device L (by simp))⟩, ?_⟩
  obtain ⟨t, hfollows⟩ : ∃ t, Follows (before.foldl (fun s e => (picStep s e).1)
      ⟨boot.foldl bootStep p, none⟩) t :=
    List.foldlRecOn (motive := fun s => ∃ t, Follows s t) before _ ⟨_, follows_boot p hpics⟩
      fun _ hs e _ => hs.elim fun _ ht => ⟨_, (ht.event e).2⟩
  exact hfollows.silenced.outputs_eq after

/-- The clock ticks on. -/
theorem silenced_run_clock :
    outputs picStep (([PicEvent.raise 0, .step].foldl (fun s e => (picStep s e).1)
      ⟨someBoot.foldl bootStep biosPics, none⟩).out (0x21, 0xff)) [.step, .step, .raise 0, .step] =
        [] :=
  (silenced_run someData someHandlers kernelLayout hasBootGdt_bootSector
    (bootSector_zero 0x14000 2048 (by omega) (by decide))
    (bootSector_zero 0x15010 104 (by omega) (by decide)) biosPics someBoot rfl
    [.raise 0, .step] [.step, .step, .raise 0, .step]).2

end Zeos
