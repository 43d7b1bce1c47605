import Zeos.Machine.Run
import Zeos.Paging

/-!
# A page table as a finite map (`mm.c`)

`set_ss_pag` and `del_ss_pag` write the bit fields of an entry one at a time.  Each of
them comes to one store of one word (`tableStep_eq`), at addresses that do not overlap
for different pages, wherever the table is.  So a run of them leaves under every page
what the latest operation on it has put there.

It is load-bearing that an operation is `Valid`: a page from 1024 on has no entry in the
table, so that the store would go elsewhere, and of a frame the field has twenty bits.
`tableMap_run` is an equality of states, for any table, any memory before and any
sequence; that two operations on different pages commute is a case of it.
-/

namespace Zeos

open Machine PageTableEntry

/-- An operation on a page table. -/
inductive TableOp
  | setSsPag (page frame : DWord)
  | delSsPag (page : DWord)

namespace TableOp

/-- The page whose entry the call sets. -/
def page : TableOp → DWord
  | setSsPag page _ => page
  | delSsPag page => page

/-- The frame that the operation maps its page to; 0 if it removes the mapping. -/
def frame : TableOp → DWord
  | setSsPag _ frame => frame
  | delSsPag _ => 0

/-- The page is one of the table's, and the frame number fits its field. -/
def Valid (op : TableOp) : Prop := op.page.toNat < totalPages ∧ op.frame.toNat < 2 ^ 20

instance (op : TableOp) : Decidable op.Valid := inferInstanceAs (Decidable (_ ∧ _))

/-- The number that the operation leaves in the entry. -/
def word : TableOp → ℕ
  | setSsPag _ frame => frame.toNat * 4096 + 7
  | delSsPag _ => 0

end TableOp

/-- One operation on the table at `PT`. -/
def tableStep (PT : Addr) (s : Mm) : TableOp → Mm
  | .setSsPag page frame => setSsPag s PT page frame
  | .delSsPag page => delSsPag s PT page

/-! ## One operation -/

/-- The entry that an operation stores. -/
def TableOp.entry : TableOp → PageTableEntry
  | setSsPag _ frame => dataEntry frame
  | delSsPag _ => 0

theorem tableStep_eq (PT : Addr) (s : Mm) (op : TableOp) :
    tableStep PT s op =
      { s with mem := s.mem.store (entryAddr PT op.page.toNat) op.entry } := by
  cases op with
  | setSsPag page frame =>
      simp only [tableStep, setSsPag, Bytes.store_modify, TableOp.page, TableOp.entry, dataEntry]
  | delSsPag page => rfl

/-- Setting a flag that is clear adds its weight. -/
theorem toNat_withBit_true {e : DWord} {k : ℕ} (hk : k < 32) (hclear : e.getLsbD k = false) :
    (withBit e k true).toNat = e.toNat + 2 ^ k := by
  have hand : e &&& (1#32 <<< k) = 0#32 := by
    apply BitVec.eq_of_getLsbD_eq
    intro i hi
    rw [BitVec.getLsbD_and, BitVec.getLsbD_zero]
    by_cases hik : i = k
    · rw [hik, hclear, Bool.false_and]
    · grind
  have hweight : (1#32 <<< k).toNat = 2 ^ k := by
    rw [BitVec.toNat_shiftLeft, Nat.shiftLeft_eq, BitVec.toNat_one (by omega), one_mul,
      Nat.mod_eq_of_lt (Nat.pow_lt_pow_right (by omega) hk)]
  rw [withBit, if_pos rfl, ← BitVec.add_eq_or_of_and_eq_zero _ _ hand,
    BitVec.toNat_add_of_and_eq_zero hand, hweight]

/-- The frame number alone. -/
theorem setPbaseAddr_zero_toNat {frame : DWord} (h : frame.toNat < 2 ^ 20) :
    (setPbaseAddr 0 frame).toNat = frame.toNat * 4096 := by
  have hlow : (BitVec.extractLsb' 0 12 (0 : PageTableEntry)).toNat = 0 := rfl
  rw [setPbaseAddr, BitVec.toNat_append, hlow, Nat.or_zero, BitVec.toNat_setWidth,
    Nat.mod_eq_of_lt h, Nat.shiftLeft_eq]

/-- The entry of a writable user page, as a number: the three flags are bits 0 to 2. -/
theorem dataEntry_toNat {frame : DWord} (h : frame.toNat < 2 ^ 20) :
    (dataEntry frame).toNat = frame.toNat * 4096 + 7 := by
  have hclear : ∀ k < 12, (setPbaseAddr 0 frame).getLsbD k = false := by
    intro k hk
    rw [getLsbD_setPbaseAddr _ _ hk]
    exact BitVec.getLsbD_zero
  have huser : (setUser (setPbaseAddr 0 frame) true).toNat = frame.toNat * 4096 + 2 ^ 2 := by
    rw [setUser, toNat_withBit_true (by omega) (hclear 2 (by omega)),
      setPbaseAddr_zero_toNat h]
  have hrw : (setRw (setUser (setPbaseAddr 0 frame) true) true).toNat =
      frame.toNat * 4096 + 2 ^ 2 + 2 ^ 1 := by
    have hbit : (setUser (setPbaseAddr 0 frame) true).getLsbD 1 = false := by
      rw [setUser, getLsbD_withBit_of_ne _ _ (by omega) (by omega)]
      exact hclear 1 (by omega)
    rw [setRw, toNat_withBit_true (by omega) hbit, huser]
  have hbit : (setRw (setUser (setPbaseAddr 0 frame) true) true).getLsbD 0 = false := by
    rw [setRw, getLsbD_withBit_of_ne _ _ (by omega) (by omega), setUser,
      getLsbD_withBit_of_ne _ _ (by omega) (by omega)]
    exact hclear 0 (by omega)
  rw [dataEntry, setPresent, toNat_withBit_true (by omega) hbit, hrw]
  omega

theorem TableOp.entry_toNat {op : TableOp} (h : op.Valid) : op.entry.toNat = op.word := by
  cases op with
  | setSsPag page frame => exact dataEntry_toNat h.2
  | delSsPag page => rfl

theorem TableOp.pbaseAddr_entry {op : TableOp} (h : op.Valid) :
    (pbaseAddr op.entry).setWidth 32 = op.frame := by
  cases op with
  | setSsPag page frame =>
      have hframe : frame.toNat < 2 ^ 20 := h.2
      show (pbaseAddr (dataEntry frame)).setWidth 32 = frame
      rw [dataEntry, pbaseAddr_setPresent, pbaseAddr_setRw, pbaseAddr_setUser,
        pbaseAddr_setPbaseAddr]
      apply BitVec.eq_of_toNat_eq
      rw [BitVec.toNat_setWidth, BitVec.toNat_setWidth]
      omega
  | delSsPag page =>
      show (pbaseAddr 0).setWidth 32 = 0
      decide

/-- Entries of different pages are apart, wherever the table is. -/
theorem entryAddr_apart (PT : Addr) {k k' : ℕ} (hk : k < totalPages) (hk' : k' < totalPages)
    (hne : k ≠ k') : 4 ≤ (entryAddr PT k - entryAddr PT k').toNat := by
  simp only [totalPages] at hk hk'
  unfold entryAddr
  bv_omega

/-- The word of a page's entry. -/
def entryWord (PT : Addr) (s : Mm) (page : DWord) : DWord :=
  s.mem.load (entryAddr PT page.toNat)

/-- **What an operation does**: it puts its entry under its page, and leaves the others
alone. -/
theorem entryWord_tableStep (PT : Addr) (s : Mm) {op : TableOp} (hop : op.Valid) {page : DWord}
    (hpage : page.toNat < totalPages) :
    entryWord PT (tableStep PT s op) page =
      if op.page = page then op.entry else entryWord PT s page := by
  rw [tableStep_eq, entryWord]
  split
  · next h => rw [h, Bytes.load_store_self]
  · next h =>
      have hne : op.page.toNat ≠ page.toNat := fun heq => h (BitVec.eq_of_toNat_eq heq)
      exact Bytes.load_store_of_le _ _ _ _ (entryAddr_apart PT hpage hop.1 hne.symm)
        (entryAddr_apart PT hop.1 hpage hne)

/-- Operations on different pages commute. -/
theorem tableStep_comm (PT : Addr) (s : Mm) {op op' : TableOp} (hop : op.Valid)
    (hop' : op'.Valid) (hne : op.page ≠ op'.page) :
    tableStep PT (tableStep PT s op) op' = tableStep PT (tableStep PT s op') op := by
  have hne' : op.page.toNat ≠ op'.page.toNat := fun heq => hne (BitVec.eq_of_toNat_eq heq)
  simp only [tableStep_eq, Mm.mk.injEq, true_and]
  exact Bytes.store_comm _ _ _ (entryAddr_apart PT hop'.1 hop.1 hne'.symm)
    (entryAddr_apart PT hop.1 hop'.1 hne')

/-! ## A run -/

/-- What the entries of a table are after a run of operations, with `s` before it and
`s'` behind it. -/
structure TableMap (PT : Addr) (ops : List TableOp) (s s' : Mm) : Prop where
  touched : ∀ page : DWord, page.toNat < totalPages → ∀ op,
    latest TableOp.page ops page = some op →
      (entryWord PT s' page).toNat = op.word ∧ getFrame s' PT page = op.frame
  untouched : ∀ page : DWord, page.toNat < totalPages →
    latest TableOp.page ops page = none → entryWord PT s' page = entryWord PT s page
  comm : ∀ op op' : TableOp, op.Valid → op'.Valid → op.page ≠ op'.page →
    tableStep PT (tableStep PT s' op) op' = tableStep PT (tableStep PT s' op') op

/-- **A page table behaves as a finite map**, from any contents and at any address. -/
theorem tableMap_run (PT : Addr) (s : Mm) {ops : List TableOp} (hops : ∀ op ∈ ops, op.Valid) :
    TableMap PT ops s (ops.foldl (tableStep PT) s) := by
  have hrun : ∀ page : DWord, page.toNat < totalPages →
      entryWord PT (ops.foldl (tableStep PT) s) page =
        (latest TableOp.page ops page).elim (entryWord PT s page) TableOp.entry :=
    fun page hpage => obs_foldl_latest (tableStep PT)
      (fun s op hop => entryWord_tableStep PT s hop hpage) s hops
  -- the latest operation decides, and without one the entry is what it was
  constructor
  · intro page hpage op hlatest
    have hword := hrun page hpage
    rw [hlatest] at hword
    have hvalid := hops op (mem_of_latest hlatest)
    constructor
    · rw [hword]
      exact TableOp.entry_toNat hvalid
    · show (pbaseAddr (entryWord PT _ page)).setWidth 32 = op.frame
      rw [hword]
      exact TableOp.pbaseAddr_entry hvalid
  · intro page hpage hnone
    rw [hrun page hpage, hnone]
    rfl
  · intro op op' hop hop' hne
    exact tableStep_comm PT _ hop hop' hne

/-- A page is mapped, removed and mapped again in a table full of ones. -/
theorem tableMap_run_recycled :
    TableMap 0x1000#32 [.setSsPag 300 5, .delSsPag 300, .setSsPag 300 9]
      { physMem := fun _ => 0, mem := fun _ => 0xff#8 }
      ([.setSsPag 300 5, .delSsPag 300, .setSsPag 300 9].foldl (tableStep 0x1000#32)
        { physMem := fun _ => 0, mem := fun _ => 0xff#8 }) :=
  tableMap_run 0x1000#32 { physMem := fun _ => 0, mem := fun _ => 0xff#8 } (by decide)

end Zeos
