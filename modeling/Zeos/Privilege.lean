import Zeos.Machine.Privilege
import Zeos.Marks
import Zeos.Segments

/-!
# What a program may reach (`mm.c`, `interrupt.c`, `system.c`)

The tables that `main` sets up, and the registers that it gives to `writeMsr`, leave a
program two segments (`SystemTables.Guarded.confined`), and the handlers as the ways into
the kernel, on the kernel's stack (`SystemTables.Guarded.doors`).  What follows for every
run, whatever selectors a program tries, is `system_run`.

The descriptors behind the seventh are what memory has there, since `gdtR.limit` covers
256 of them; `Closed` is what the result asks of them.

A program's own loads change the tables: the processor sets the accessed bit of a
descriptor that is loaded.  So tables are compared up to these bits (`descriptorMarks`),
and `SystemTables.Guarded.sameTables` says that nothing depends on them.  That memory has
only closed descriptors behind the seventh is load-bearing, and not the kernel's doing:
`gdt` is the table in the boot sector, and most of the 256 lie in memory behind it that
nobody writes.
-/

namespace Zeos

open Machine

/-! ## The tables -/

/-- A descriptor that is no use to a program. -/
def Closed (d : Descriptor) : Prop := d.present = false ∨ (d.dpl < 3 ∧ d.conforming = false)

instance (d : Descriptor) : Decidable (Closed d) := inferInstanceAs (Decidable (_ ∨ _))

/-- The mark of the processor makes no difference. -/
theorem closed_unaccessed {d : Descriptor} (h : Closed d) : Closed d.unaccessed := by
  rw [Closed, Descriptor.conforming] at h ⊢
  simpa using h

/-- What a program finds in the tables, beside the handlers. -/
structure SystemTables.Guarded (d : SystemTables) (h : Handlers) (esp0 : Addr) : Prop extends
    d.Ready h esp0 where
  kernelData : descriptorAt d.mem d.gdtr (selector kernelDs) = some (flatDescriptor 0x92)
  userCode : descriptorAt d.mem d.gdtr (selector userCs) = some (flatDescriptor 0xfa)
  userData : descriptorAt d.mem d.gdtr (selector userDs) = some (flatDescriptor 0xf2)
  closed : ∀ sel e, descriptorAt d.mem d.gdtr sel = some e →
    sel.toNat / 8 = 4 ∨ sel.toNat / 8 = 5 ∨ Closed e

section Guarded

variable {D : KernelData} {h : Handlers} {m : Bytes} {d : SystemTables} {esp0 : Addr}

/-- What finds a descriptor has an index into the table. -/
theorem descriptorAt_eq_some {gdt : Addr} {sel : Word} {e : Descriptor}
    (he : descriptorAt m ⟨gdtLimit, gdt⟩ sel = some e) :
    sel.getLsbD 2 = false ∧ 0 < sel.toNat / 8 ∧ sel.toNat / 8 < 256 ∧
      e = (m.loadDescriptor (gdt + BitVec.ofNat 32 (8 * (sel.toNat / 8)))).unaccessed := by
  have hlimit : gdtLimit.toNat = 2048 := rfl
  rw [descriptorAt] at he
  split at he
  · exact absurd he (by simp)
  · next hin =>
      simp only [not_or, Bool.not_eq_true, hlimit] at hin
      exact ⟨hin.1, Nat.pos_of_ne_zero hin.2.1, by omega, (Option.some.inj he).symm⟩

/-- The descriptors of the table, but for the user's two, once `ltr` has marked the last of
the boot sector's as busy. -/
theorem closed_of_boot {gdt : Addr} (hboot : HasBootGdt m gdt)
    (hrest : ∀ k, 7 ≤ k → k < 256 → Closed (m.loadDescriptor (gdt + BitVec.ofNat 32 (8 * k))))
    {m' : Bytes} (hkept : ∀ k < 256, k ≠ 6 → m'.loadDescriptor (gdt + BitVec.ofNat 32 (8 * k)) =
      m.loadDescriptor (gdt + BitVec.ofNat 32 (8 * k)))
    (hbusy : m' (gdt + 48#32 + 5#32) = 0x8b) {k : ℕ} (hpos : 0 < k) (hlt : k < 256) :
    k = 4 ∨ k = 5 ∨ Closed (m'.loadDescriptor (gdt + BitVec.ofNat 32 (8 * k))).unaccessed := by
  by_cases hseven : 7 ≤ k
  · rw [hkept k hlt (by omega)]
    exact Or.inr (Or.inr (closed_unaccessed (hrest k hseven hlt)))
  · obtain rfl | rfl | rfl | rfl | rfl | rfl :
      k = 1 ∨ k = 2 ∨ k = 3 ∨ k = 4 ∨ k = 5 ∨ k = 6 := by omega
    · rw [hkept 1 hlt (by omega), hboot 1 _ rfl]
      exact Or.inr (Or.inr (by decide))
    · rw [hkept 2 hlt (by omega), hboot 2 _ rfl]
      exact Or.inr (Or.inr (by decide))
    · rw [hkept 3 hlt (by omega), hboot 3 _ rfl]
      exact Or.inr (Or.inr (by decide))
    · exact Or.inl rfl
    · exact Or.inr (Or.inl rfl)
    · have hflags : (m'.loadDescriptor (gdt + BitVec.ofNat 32 (8 * 6))).flags1 = 0x8b := hbusy
      refine Or.inr (Or.inr (closed_unaccessed (Or.inr ⟨?_, ?_⟩)))
      · rw [Descriptor.dpl, hflags]
        decide
      · rw [Descriptor.conforming, Descriptor.executable, Descriptor.isSegment, hflags]
        rfl

/-- **What `main` sets up leaves a program its two segments**, if nothing behind the boot
sector's descriptors could be of use to it. -/
theorem setTables_guarded (D : KernelData) (h : Handlers) (L : Layout)
    (hboot : HasBootGdt m D.gdt) (hzero : ∀ i < 2048, m (D.idt + BitVec.ofNat 32 i) = 0)
    (hrest : ∀ k, 7 ≤ k → k < 256 → Closed (m.loadDescriptor (D.gdt + BitVec.ofNat 32 (8 * k))))
    (hwide : ∀ i, 56 ≤ i → i < 2048 → D.Off (D.gdt + BitVec.ofNat 32 i)) :
    ∃ d, setTables D h (initialEsp L) m = some d ∧ d.Guarded h (initialEsp L) ∧
      d.gdtr = ⟨gdtLimit, D.gdt⟩ ∧ d.idtr = ⟨idtLimit, D.idt⟩ ∧ d.tr = ⟨D.tss, 104⟩ ∧
      ∀ b, D.Off b → d.mem b = m b := by
  obtain ⟨m₁, d, hrun, hmem, hgdtr, hidtr, htr, -, -, hoff⟩ :=
    setTables_eq D h (initialEsp L) hboot hzero
  have hkept : ∀ k < 256, k ≠ 6 → d.mem.loadDescriptor (D.gdt + BitVec.ofNat 32 (8 * k)) =
      m.loadDescriptor (D.gdt + BitVec.ofNat 32 (8 * k)) := by
    intro k hk hne
    refine Bytes.loadDescriptor_congr fun i hi => ?_
    rw [BitVec.add_assoc, ← BitVec.ofNat_add]
    rcases Nat.lt_or_ge k 6 with hlt | hge
    · exact descriptors_of_setTables hboot hzero hrun _ (by omega)
    · exact hoff _ (hwide _ (by omega) (by omega))
  -- `ltr` has marked the descriptor of the TSS busy, so this one is not the boot sector's
  have hbusy : d.mem (D.gdt + 48#32 + 5#32) = 0x8b := by
    rw [hmem]
    have hself := Bytes.write_apply_add
      (fillTSS D.tss (initialEsp L) (setIdt D.idt D.idtR h m₁).1) (D.gdt + 48#32 + 5#32)
      (fun _ => 0x8b#8) (Nat.zero_lt_one) (by omega)
    rwa [BitVec.add_zero] at hself
  refine ⟨d, hrun, ⟨ready_of_setTables hboot hzero hrun,
    segment_of_setTables hboot hzero hrun (k := 3) rfl rfl rfl (by omega) (by omega),
    segment_of_setTables hboot hzero hrun (k := 4) rfl rfl rfl (by omega) (by omega),
    segment_of_setTables hboot hzero hrun (k := 5) rfl rfl rfl (by omega) (by omega),
    fun sel e he => ?_⟩, hgdtr, hidtr, htr, hoff⟩
  rw [hgdtr] at he
  obtain ⟨-, hpos, hlt, rfl⟩ := descriptorAt_eq_some he
  exact closed_of_boot hboot hrest hkept hbusy hpos hlt

/-- The tables again, in another memory. -/
theorem SystemTables.Guarded.congr (hd : d.Guarded h esp0) {m' : Bytes}
    (hgdt : ∀ sel, descriptorAt m' d.gdtr sel = descriptorAt d.mem d.gdtr sel)
    (hidt : SameTable d.mem m' d.idtr.base d.idtr.limit.toNat)
    (htss : SameTable d.mem m' d.tr.base d.tr.span) :
    ({ d with mem := m' } : SystemTables).Guarded h esp0 := by
  refine ⟨⟨fun sel hsel offset => ?_, fun v cpl => ?_, fun v cpl hcpl => ?_⟩, ?_, ?_, ?_,
    fun sel e he => ?_⟩
  · rw [← hd.flat sel hsel offset, linear, linear, hgdt]
  · rw [← hd.interrupts v cpl]
    exact enterHandler_congr hidt hgdt htss cpl false v
  · rw [← hd.software v cpl hcpl]
    exact enterHandler_congr hidt hgdt htss cpl true v
  · exact (hgdt _).trans hd.kernelData
  · exact (hgdt _).trans hd.userCode
  · exact (hgdt _).trans hd.userData
  · exact hd.closed sel e ((hgdt sel).symm.trans he)

/-- Selectors of one descriptor. -/
theorem descriptorAt_of_index {gdtr : TableRegister} {sel : Word} (sel' : Word)
    (hindex : sel.toNat / 8 = sel'.toNat / 8) (hglobal : sel.getLsbD 2 = sel'.getLsbD 2) :
    descriptorAt m gdtr sel = descriptorAt m gdtr sel' := by
  rw [descriptorAt, descriptorAt, hindex, hglobal]

/-- What a program may find in the table. -/
theorem SystemTables.Guarded.cases (hd : d.Guarded h esp0) {sel : Word} {e : Descriptor}
    (he : descriptorAt d.mem d.gdtr sel = some e) :
    (sel.toNat / 4 = 8 ∧ e = flatDescriptor 0xfa) ∨
      (sel.toNat / 4 = 10 ∧ e = flatDescriptor 0xf2) ∨ Closed e := by
  have hglobal : sel.getLsbD 2 = false := by
    rw [descriptorAt] at he
    split at he
    · exact absurd he (by simp)
    · next hin => exact Bool.eq_false_iff.mpr fun hlocal => hin (Or.inl hlocal)
  have hbit : sel.toNat / 4 % 2 = 0 := by
    rw [BitVec.getLsbD, Nat.testBit_eq_decide_div_mod_eq] at hglobal
    simpa using hglobal
  rcases hd.closed sel e he with hindex | hindex | hclosed
  · refine Or.inl ⟨by omega, ?_⟩
    rw [descriptorAt_of_index (selector userCs) hindex hglobal, hd.userCode] at he
    exact (Option.some.inj he).symm
  · refine Or.inr (Or.inl ⟨by omega, ?_⟩)
    rw [descriptorAt_of_index (selector userDs) hindex hglobal, hd.userData] at he
    exact (Option.some.inj he).symm
  · exact Or.inr (Or.inr hclosed)

/-- The selectors of the user's segments. -/
theorem withRpl_userCs {sel : Word} (hsel : sel.toNat / 4 = 8) :
    withRpl sel 3 = selector userCs := by
  have hall : ∀ level < 4, withRpl (BitVec.ofNat 16 (32 + level)) 3 = selector userCs := by decide
  have heq : sel = BitVec.ofNat 16 (32 + sel.toNat % 4) := BitVec.eq_of_toNat_eq (by
    rw [BitVec.toNat_ofNat]
    omega)
  rw [heq]
  exact hall _ (Nat.mod_lt _ (by omega))

theorem eq_userCs {sel : Word} (hsel : sel.toNat / 4 = 8) (hlevel : rpl sel = 3) :
    sel = selector userCs := by
  have huser : (selector userCs).toNat = 35 := rfl
  rw [rpl] at hlevel
  exact BitVec.eq_of_toNat_eq (by omega)

theorem eq_userDs {sel : Word} (hsel : sel.toNat / 4 = 10) (hlevel : rpl sel = 3) :
    sel = selector userDs := by
  have huser : (selector userDs).toNat = 43 := rfl
  rw [rpl] at hlevel
  exact BitVec.eq_of_toNat_eq (by omega)

theorem rpl_userCs : rpl (selector userCs) = 3 := rfl

/-- What a program may find in the table and could use. -/
theorem SystemTables.Guarded.usable (hd : d.Guarded h esp0) {sel : Word} {e : Descriptor}
    (he : descriptorAt d.mem d.gdtr sel = some e) (hpresent : e.present = true)
    (hlevel : e.conforming = true ∨ e.dpl = 3) :
    (sel.toNat / 4 = 8 ∧ e = flatDescriptor 0xfa) ∨
      (sel.toNat / 4 = 10 ∧ e = flatDescriptor 0xf2) := by
  rcases hd.cases he with hcode | hdata | hno | ⟨hlow, hno⟩
  · exact Or.inl hcode
  · exact Or.inr hdata
  · rw [hpresent] at hno
    exact absurd hno (by simp)
  · rw [hno] at hlevel
    rcases hlevel with hconforming | hdpl
    · exact absurd hconforming (by simp)
    · omega

/-- **A program at the user's level has the user's segments and no others.** -/
theorem SystemTables.Guarded.confined (hd : d.Guarded h esp0) :
    Confined d.mem d.gdtr (selector userCs) (selector userDs) := by
  constructor
  · intro sel eip hjump
    obtain ⟨e, he, hjumpable, hpresent, -⟩ := jumpFault_eq_none_iff.mp hjump
    rw [rpl_userCs, Descriptor.jumpable, Bool.and_eq_true] at hjumpable
    obtain ⟨hexec, hlevel⟩ := hjumpable
    -- conforming code or code of level 3: what a program may use is one of its two segments
    have huse : e.conforming = true ∨ e.dpl = 3 := by
      cases hconforming : e.conforming with
      | true => exact Or.inl rfl
      | false =>
          rw [hconforming, if_neg Bool.false_ne_true, Bool.and_eq_true] at hlevel
          exact Or.inr (of_decide_eq_true hlevel.2)
    rcases hd.usable he hpresent huse with ⟨hindex, -⟩ | ⟨-, rfl⟩
    · exact withRpl_userCs hindex
    · exact absurd hexec (by decide)
  · intro sel eip ss hreturn
    obtain ⟨e, he, hreturnable, hpresent, -⟩ := returnFault_eq_none_iff.mp hreturn
    rw [rpl_userCs, Descriptor.returnable, Bool.and_eq_true, Bool.and_eq_true] at hreturnable
    obtain ⟨⟨hexec, houter⟩, hlevel⟩ := hreturnable
    have hrpl : rpl sel = 3 := by
      have hlt : rpl sel < 4 := Nat.mod_lt _ (by omega)
      have hle := of_decide_eq_true houter
      omega
    have huse : e.conforming = true ∨ e.dpl = 3 := by
      cases hconforming : e.conforming with
      | true => exact Or.inl rfl
      | false =>
          rw [hconforming, if_neg Bool.false_ne_true, hrpl] at hlevel
          exact Or.inr (of_decide_eq_true hlevel)
    rcases hd.usable he hpresent huse with ⟨hindex, -⟩ | ⟨-, rfl⟩
    · exact eq_userCs hindex hrpl
    · exact absurd hexec (by decide)
  · intro eip
    have hspan := flatDescriptor_span 0xfa
    have hlt := eip.isLt
    exact returnFault_eq_none_iff.mpr ⟨_, hd.userCode, by decide, by decide, by omega,
      fun _ => stackFault_eq_none_iff.mpr ⟨_, hd.userData, by decide, by decide⟩⟩
  · intro sel hload
    obtain ⟨e, he, hstackable, hpresent⟩ := stackFault_eq_none_iff.mp hload
    rw [rpl_userCs, Descriptor.stackable, Bool.and_eq_true, Bool.and_eq_true] at hstackable
    obtain ⟨⟨hwritable, hrpl⟩, hdpl⟩ := hstackable
    rcases hd.usable he hpresent (Or.inr (of_decide_eq_true hdpl)) with ⟨-, rfl⟩ | ⟨hindex, -⟩
    · exact absurd hwritable (by decide)
    · exact eq_userDs hindex (of_decide_eq_true hrpl)

/-! ## The ways into the kernel -/

/-- The registers of the processor: those of the tables, and what `main` gives to
`writeMsr`. -/
def SystemTables.registers (d : SystemTables) (esp0 handler : Addr) : SystemRegisters where
  gdtr := d.gdtr
  idtr := d.idtr
  tr := d.tr
  sysenterCs := kernelCs.setWidth 32
  sysenterEsp := esp0
  sysenterEip := handler

/-- A handler is entered in the kernel's segment, on the kernel's stack and with interrupts
disabled. -/
structure KernelDoor (h : Handlers) (esp0 syscallHandler : Addr) (e : HandlerEntry) : Prop where
  cs : e.cs = kernelCs
  masked : e.masked = true
  stack : e.stack = some (selector kernelDs, esp0)
  eip : (∃ v, h.at v = some e.eip) ∨ e.eip = syscallHandler

/-- The exceptions that come together with others have handlers. -/
theorem Handlers.at_contributory (h : Handlers) {v : Byte} (hv : v ∈ contributory) :
    ∃ a, h.at v.toNat = some a := by
  have hlt : ∀ v ∈ contributory, v.toNat < 18 := by decide
  rw [Handlers.at]
  split_ifs
  · exact ⟨_, rfl⟩
  · exact ⟨_, rfl⟩
  · exact ⟨_, rfl⟩
  · exact ⟨_, rfl⟩
  · next hno => exact absurd (hlt v hv) hno

/-- **A program enters the kernel by its handlers.** -/
theorem SystemTables.Guarded.doors (hd : d.Guarded h esp0) (syscallHandler : Addr) :
    Doors (d.registers esp0 syscallHandler) d.mem (selector userCs) (selector userDs)
      (selector kernelDs) (KernelDoor h esp0 syscallHandler) := by
  have henter : ∀ v, enterHandler d.mem d.idtr d.gdtr d.tr (rpl (selector userCs)) false v =
      (h.at v.toNat).map fun a => ⟨kernelCs, a, true, some (selector kernelDs, esp0)⟩ := by
    intro v
    rw [hd.interrupts, rpl_userCs, if_pos (by omega)]
  refine ⟨fun v => ?_, fun v e he => ?_, fun e he => ?_, fun e he => ?_, ?_⟩
  · have hfound : ∀ {v : Byte} {a : Addr}, h.at v.toNat = some a →
        KernelDoor h esp0 syscallHandler ⟨kernelCs, a, true, some (selector kernelDs, esp0)⟩ :=
      fun {v a} ha => ⟨rfl, rfl, rfl, Or.inl ⟨v.toNat, ha⟩⟩
    have hraise : raise (d.registers esp0 syscallHandler) d.mem (rpl (selector userCs)) v =
        (enterHandler d.mem d.idtr d.gdtr d.tr (rpl (selector userCs)) false v).or
          ((if v ∈ contributory then none else
            enterHandler d.mem d.idtr d.gdtr d.tr (rpl (selector userCs)) false
              generalProtection).or
            (enterHandler d.mem d.idtr d.gdtr d.tr (rpl (selector userCs)) false doubleFault)) :=
      rfl
    rw [hraise, henter v]
    cases hv : h.at v.toNat with
    | some a => exact ⟨_, rfl, hfound hv⟩
    | none =>
        -- the exceptions of which a double fault could come have handlers of their own
        have hnot : v ∉ contributory := fun hin => by
          obtain ⟨a, ha⟩ := h.at_contributory hin
          exact absurd (hv.symm.trans ha) (by simp)
        obtain ⟨a, ha⟩ := h.at_contributory (v := generalProtection) (by decide)
        rw [if_neg hnot, henter, ha]
        exact ⟨_, rfl, hfound ha⟩
  · have hnone := hd.software v (rpl (selector userCs)) (by decide)
    exact absurd (hnone.symm.trans he) (by simp)
  · have hentry : sysenterEntry (d.registers esp0 syscallHandler) =
        some ⟨kernelCs, syscallHandler, true, some (selector kernelDs, esp0)⟩ := by
      have hcs : (d.registers esp0 syscallHandler).sysenterCs = 0x10#32 := rfl
      have hcode : withRpl ((0x10#32).setWidth 16) 0 = kernelCs := by decide
      have hdata : kernelCs + 8 = selector kernelDs := by decide
      rw [sysenterEntry, hcs, if_neg (by decide), hcode, hdata]
      rfl
    obtain rfl := Option.some.inj (hentry.symm.trans he)
    refine ⟨⟨rfl, rfl, rfl, Or.inr rfl⟩, fun s => ?_⟩
    -- `sysexit` finds the user's descriptors behind the kernel's, in this order
    have hexit : s.sysexit (d.registers esp0 syscallHandler) =
        ⟨withRpl ((0x10#32).setWidth 16 + 16) 3, withRpl ((0x10#32).setWidth 16 + 24) 3, s.data⟩ :=
      rfl
    have hcode : withRpl ((0x10#32).setWidth 16 + 16) 3 = selector userCs := by decide
    have hdata : withRpl ((0x10#32).setWidth 16 + 24) 3 = selector userDs := by decide
    rw [hexit, hcode, hdata]
  · rw [he.cs]
    decide
  · exact dataFault_eq_none_iff.mpr (Or.inr ⟨_, hd.kernelData, by decide, by decide⟩)

end Guarded

/-! ## The bytes of the tables -/

/-- The byte belongs to a table of the processor.  The limits of two of them are one byte
too large. -/
def InSystemTables (D : KernelData) (b : Addr) : Prop :=
  (b - D.gdt).toNat ≤ 2048 ∨ (b - D.idt).toNat < 2048 ∨ (b - D.tss).toNat ≤ 104

instance (D : KernelData) (b : Addr) : Decidable (InSystemTables D b) :=
  inferInstanceAs (Decidable (_ ∨ _))

/-- The registers describe the tables. -/
structure SystemTables.At (d : SystemTables) (D : KernelData) : Prop where
  gdtr : d.gdtr = ⟨gdtLimit, D.gdt⟩
  idtr : d.idtr = ⟨idtLimit, D.idt⟩
  tr : d.tr = ⟨D.tss, 104⟩

/-- Where the processor marks segments as accessed: in the descriptors of the kernel's two
segments and of the user's. -/
def descriptorMarks (D : KernelData) (b : Addr) : Byte :=
  if (b - D.gdt).toNat % 8 = 5 ∧ 2 ≤ (b - D.gdt).toNat / 8 ∧ (b - D.gdt).toNat / 8 ≤ 5 then
    Descriptor.accessedMark
  else 0

/-- All that the processor may mark. -/
def marks (D : KernelData) (L : Layout) (b : Addr) : Byte :=
  pagingMarks L b ||| descriptorMarks D b

section Bytes

variable {D : KernelData} {h : Handlers} {d : SystemTables} {esp0 : Addr}

/-- Behind the descriptors there are no such marks. -/
theorem descriptorMarks_of_le {b : Addr} (hb : 48 ≤ (b - D.gdt).toNat) :
    descriptorMarks D b = 0 := if_neg (by omega)

theorem descriptorMarks_of_ne {k i : ℕ} (hk : k < 256) (hi : i < 8)
    (hno : ¬ (i = 5 ∧ 2 ≤ k ∧ k ≤ 5)) :
    descriptorMarks D (D.gdt + BitVec.ofNat 32 (8 * k) + BitVec.ofNat 32 i) = 0 := by
  rw [descriptorMarks, BitVec.add_assoc, ← BitVec.ofNat_add, Bytes.toNat_add_sub _ (by omega)]
  exact if_neg (by omega)

theorem descriptorMarks_of_segment {k : ℕ} (hge : 2 ≤ k) (hle : k ≤ 5) :
    descriptorMarks D (D.gdt + BitVec.ofNat 32 (8 * k) + 5#32) = Descriptor.accessedMark := by
  have hbyte : D.gdt + BitVec.ofNat 32 (8 * k) + 5#32 = D.gdt + BitVec.ofNat 32 (8 * k + 5) := by
    rw [BitVec.add_assoc, BitVec.ofNat_add]
  rw [descriptorMarks, hbyte, Bytes.toNat_add_sub _ (by omega)]
  exact if_pos (by omega)

/-- An offset that translates is one into a segment. -/
theorem isSegment_of_linear {m : Bytes} {gdtr : TableRegister} {sel : Word} {offset a : Addr}
    (h : linear m gdtr sel offset = some a) :
    ∃ e, descriptorAt m gdtr sel = some e ∧ e.isSegment = true := by
  rw [linear] at h
  obtain ⟨e, he, hlinear⟩ := Option.bind_eq_some_iff.mp h
  refine ⟨e, he, ?_⟩
  split at hlinear
  · next hin =>
      obtain ⟨haccess, -⟩ := hin
      simp only [Bool.and_eq_true] at haccess
      exact haccess.1.1
  · exact absurd hlinear (by simp)

/-- The descriptors that may be marked are those of segments. -/
theorem SystemTables.Ready.segment (hd : d.Ready h esp0) (hat : d.At D) {k : ℕ} (hge : 2 ≤ k)
    (hle : k ≤ 5) : (d.mem.loadDescriptor (D.gdt + BitVec.ofNat 32 (8 * k))).isSegment = true := by
  have hsel : ∀ sel ∈ [kernelCs, selector kernelDs, selector userCs, selector userDs],
      (d.mem.loadDescriptor (D.gdt + BitVec.ofNat 32 (8 * (sel.toNat / 8)))).isSegment = true := by
    intro sel hsel
    obtain ⟨e, he, hseg⟩ := isSegment_of_linear (hd.flat sel hsel 0)
    rw [hat.gdtr] at he
    obtain ⟨-, -, -, rfl⟩ := descriptorAt_eq_some he
    rwa [Descriptor.isSegment_unaccessed] at hseg
  obtain rfl | rfl | rfl | rfl : k = 2 ∨ k = 3 ∨ k = 4 ∨ k = 5 := by omega
  · exact hsel kernelCs (by simp)
  · exact hsel (selector kernelDs) (by simp)
  · exact hsel (selector userCs) (by simp)
  · exact hsel (selector userDs) (by simp)

/-- **What leaves the bytes of the tables leaves the tables**, marks apart. -/
theorem SystemTables.Guarded.sameTables (hd : d.Guarded h esp0) (hat : d.At D) {m' : Bytes}
    (hsame : ∀ b, InSystemTables D b →
      clear (descriptorMarks D) b (m' b) = clear (descriptorMarks D) b (d.mem b))
    (handler : Addr) : SameTables (d.registers esp0 handler) d.mem m' := by
  obtain ⟨-, hidtGdt, -, htssGdt, -⟩ := D.pairs
  have hgdt : (d.registers esp0 handler).gdtr = ⟨gdtLimit, D.gdt⟩ := hat.gdtr
  have hidt : (d.registers esp0 handler).idtr = ⟨idtLimit, D.idt⟩ := hat.idtr
  have htss : (d.registers esp0 handler).tr = ⟨D.tss, 104⟩ := hat.tr
  have hgdtLimit : gdtLimit.toNat = 2048 := rfl
  have hidtLimit : idtLimit.toNat = 2047 := rfl
  have hbyte : ∀ b, InSystemTables D b → descriptorMarks D b = 0 → m' b = d.mem b :=
    fun b hb hno => clear_injective hno (hsame b hb)
  have hin : ∀ k < 256, ∀ i < 8,
      InSystemTables D (D.gdt + BitVec.ofNat 32 (8 * k) + BitVec.ofNat 32 i) := by
    intro k hk i hi
    refine Or.inl ?_
    rw [BitVec.add_assoc, ← BitVec.ofNat_add, Bytes.toNat_add_sub _ (by omega)]
    omega
  constructor
  · rw [hgdt]
    refine descriptorAt_congr fun k hpos hlimit => ?_
    have hk : k < 256 := by
      dsimp only at hlimit
      omega
    by_cases hmarked : 2 ≤ k ∧ k ≤ 5
    · have hflags := hsame _ (hin k hk 5 (by omega))
      simp only [clear] at hflags
      rw [descriptorMarks_of_segment hmarked.1 hmarked.2] at hflags
      exact Bytes.loadDescriptor_unaccessed_congr (hd.segment hat hmarked.1 hmarked.2)
        (fun i hi hne => hbyte _ (hin k hk i hi) (descriptorMarks_of_ne hk hi (by omega))) hflags
    · exact congrArg _ (Bytes.loadDescriptor_congr fun i hi =>
        hbyte _ (hin k hk i hi) (descriptorMarks_of_ne hk hi (by omega)))
  · rw [hidt]
    intro i hi
    dsimp only at hi
    have hout := hidtGdt.le_sub (show i < 2048 by omega)
    have hnone : descriptorMarks D (D.idt + BitVec.ofNat 32 i) = 0 :=
      descriptorMarks_of_le (by omega)
    refine hbyte _ (Or.inr (Or.inl ?_)) hnone
    rw [Bytes.toNat_add_sub D.idt (by omega)]
    omega
  · rw [htss]
    intro i hi
    dsimp only at hi
    refine hbyte _ (Or.inr (Or.inr ?_)) ?_
    · rw [Bytes.toNat_add_sub D.tss (by omega)]
      omega
    · -- the last byte may be the first of the descriptors
      obtain ⟨hbefore, hbehind⟩ := htssGdt
      dsimp only at hbefore hbehind
      refine if_neg ?_
      bv_omega

/-- The marks of the tables of paging are none of these. -/
theorem marks_marks {L : Layout} (hL : L.InKernel)
    (hoff : ∀ b, InSystemTables D b → OffTables L b)
    (hrange : ∀ b, InSystemTables D b → b.toNat < lUserStart) : L.Marks (marks D L) := by
  have hnone : ∀ b, ¬ InSystemTables D b → descriptorMarks D b = 0 := fun b hb =>
    descriptorMarks_of_le (not_lt.mp fun hlt => hb (Or.inl (by omega)))
  have hpaging := marks_pagingMarks hL
  refine ⟨fun b hb => ?_, fun b hb => ?_⟩
  · rw [marks, hnone b fun hin => hb (hoff b hin), BitVec.ofNat_eq_ofNat, BitVec.or_zero]
    exact hpaging.tables b hb
  · rw [marks, hnone b fun hin => absurd (hrange b hin) (not_lt.mpr hb), hpaging.user b hb]
    rfl

/-- In the tables of the processor there are the marks of segments alone. -/
theorem marks_of_offTables {L : Layout} {b : Addr} (hb : OffTables L b) :
    marks D L b = descriptorMarks D b := by
  rw [marks, hb.pagingMarks, BitVec.ofNat_eq_ofNat, BitVec.zero_or]

end Bytes

/-- The segments that `return_gate` leaves to the program. -/
def userSegments : Selectors where
  cs := selector userCs
  ss := selector userDs
  data r := match r with
    | .ds => selector userDs
    | .es => selector userDs
    | .fs => 0
    | .gs => 0

theorem SystemTables.Guarded.inLevel {h : Handlers} {d : SystemTables} {esp0 : Addr}
    (hd : d.Guarded h esp0) :
    userSegments.InLevel d.mem d.gdtr (selector userCs) (selector userDs) := by
  have hdata : dataFault d.mem d.gdtr (rpl (selector userCs)) (selector userDs) = none :=
    dataFault_eq_none_iff.mpr (Or.inr ⟨_, hd.userData, by decide, by decide⟩)
  have hnull : dataFault d.mem d.gdtr (rpl (selector userCs)) 0 = none :=
    dataFault_eq_none_iff.mpr (Or.inl rfl)
  refine ⟨rfl, rfl, fun r => ?_⟩
  cases r with
  | ds => exact hdata
  | es => exact hdata
  | fs => exact hnull
  | gs => exact hnull

theorem closed_bootSector {k : ℕ} (hk : 7 ≤ k) (hlt : k < 256) :
    Closed (bootSector.loadDescriptor (someData.gdt + BitVec.ofNat 32 (8 * k))) := by
  have hflags : bootSector (someData.gdt + BitVec.ofNat 32 (8 * k) + 5#32) = 0 := by
    refine bootSector_of_le ?_
    show 56 ≤ (0x901b3#32 + BitVec.ofNat 32 (8 * k) + 5#32 - 0x901b3#32).toNat
    bv_omega
  refine Or.inl ?_
  rw [Descriptor.present, Bytes.loadDescriptor, hflags]
  exact BitVec.getLsbD_zero

theorem wide_someData {i : ℕ} (hi : 56 ≤ i) (hlt : i < 2048) :
    someData.Off (someData.gdt + BitVec.ofNat 32 i) := by
  constructor
  · show 8 ≤ (0x901b3#32 + BitVec.ofNat 32 i - (0x901b3#32 + 48#32)).toNat
    bv_omega
  · show 6 ≤ (0x901b3#32 + BitVec.ofNat 32 i - 0x15008#32).toNat
    bv_omega
  · show 2048 ≤ (0x901b3#32 + BitVec.ofNat 32 i - 0x14000#32).toNat
    bv_omega
  · show 6 ≤ (0x901b3#32 + BitVec.ofNat 32 i - 0x15000#32).toNat
    bv_omega
  · show 104 ≤ (0x901b3#32 + BitVec.ofNat 32 i - 0x15010#32).toNat
    bv_omega

end Zeos
