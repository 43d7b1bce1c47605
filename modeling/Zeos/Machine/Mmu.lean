import Mathlib.Logic.Function.Basic
import Zeos.Machine.Marks

/-!
# Address translation

How a 32-bit processor with two levels of tables and pages of 4096 bytes finds the
byte at a linear address.  `cr3` holds the frame of a directory; the upper ten bits
of the address choose a word of the directory, which holds the frame of a table, the
middle ten bits a word of the table, which holds the frame of the page.  Both words
also say who may use them: bit 0 that there is anything behind them, bit 1 that it may
be written, bit 2 that user code may access it.

Without the paging bit of `cr0` there is no translation, and without its
write-protect bit the kernel may write to what is not writable.

Every access is translated by the words that memory holds at the time.  The
processor may remember translations until `cr3` is loaded again; that is not
modelled.

The processor also writes to the words that it follows: bit 5 of both says that there has
been an access, bit 6 of the second that there has been a store.  `entryMarks` are these
bits.  The walk does not set them, since the processor need not set them with the access,
and sets the first also for accesses that it only prepares; they are left to a `Marking` of
the memory.  What makes that sound is that translation does not look at them:
`translate_congr` asks for the same words `entryMarks` apart, and gives the same
translation.
-/

namespace Zeos.Machine

/-! ## Control -/

/-- The control registers that translation depends on. -/
structure Control where
  cr0 : DWord
  cr3 : DWord

/-- Who asks for a byte, and whether to write it. -/
structure Access where
  user : Bool
  write : Bool
  deriving DecidableEq

namespace Control

/-- Translation is turned on. -/
def paging (c : Control) : Bool := c.cr0.getLsbD 31

/-- The kernel, too, is kept from writing to what is not writable. -/
def writeProtect (c : Control) : Bool := c.cr0.getLsbD 16

/-- An entry lets an access pass. -/
def allows (c : Control) (acc : Access) (e : DWord) : Bool :=
  e.getLsbD 0 && (e.getLsbD 2 || !acc.user) &&
    (e.getLsbD 1 || !acc.write || !(acc.user || c.writeProtect))

end Control

/-! ## The walk -/

/-- The word of a directory or table with the given number, the frame being taken
from an entry or from `cr3`. -/
def slotIn (e : DWord) (i : BitVec 10) : Addr := e.extractLsb' 12 20 ++ (i ++ 0#2)

/-- The bits of a word that the processor sets: accessed and dirty. -/
def entryMarks : DWord := 0x60

/-- The byte of a page that an address means. -/
def byteIn (e : DWord) (a : Addr) : Addr := e.extractLsb' 12 20 ++ a.extractLsb' 0 12

namespace Control

/-- Follow the tables from `cr3` on. -/
def walk (c : Control) (m : Bytes) (acc : Access) (a : Addr) : Option Addr :=
  let pde := m.load (slotIn c.cr3 (a.extractLsb' 22 10))
  if c.allows acc pde then
    let pte := m.load (slotIn pde (a.extractLsb' 12 10))
    if c.allows acc pte then some (byteIn pte a) else none
  else none

/-- Where the byte at a linear address is in memory; `none` is a page fault. -/
def translate (c : Control) (m : Bytes) (acc : Access) (a : Addr) : Option Addr :=
  if c.paging then c.walk m acc a else some a

end Control

/-! ## Parts of an address -/

theorem toNat_append_eq {m n : ℕ} (x : BitVec m) (y : BitVec n) :
    (x ++ y).toNat = x.toNat * 2 ^ n + y.toNat := by
  rw [BitVec.toNat_append, ← Nat.shiftLeft_add_eq_or_of_lt y.isLt, Nat.shiftLeft_eq]

theorem slotIn_toNat (e : DWord) (i : BitVec 10) :
    (slotIn e i).toNat = (e.extractLsb' 12 20).toNat * 4096 + 4 * i.toNat := by
  rw [slotIn, toNat_append_eq, toNat_append_eq, BitVec.toNat_zero]
  omega

theorem byteIn_toNat (e : DWord) (a : Addr) :
    (byteIn e a).toNat = (e.extractLsb' 12 20).toNat * 4096 + a.toNat % 4096 := by
  have hoffset : (a.extractLsb' 0 12).toNat = a.toNat % 4096 := by
    rw [BitVec.extractLsb'_toNat, Nat.shiftRight_zero]
  rw [byteIn, toNat_append_eq, hoffset]
  rfl

theorem dirIndex_toNat (a : Addr) : (a.extractLsb' 22 10).toNat = a.toNat / 2 ^ 22 := by
  have hlt := a.isLt
  rw [BitVec.extractLsb'_toNat, Nat.shiftRight_eq_div_pow]
  omega

theorem tableIndex_toNat (a : Addr) :
    (a.extractLsb' 12 10).toNat = a.toNat / 4096 % 1024 := by
  rw [BitVec.extractLsb'_toNat, Nat.shiftRight_eq_div_pow]

/-- Two bytes are the same byte exactly if frames and places in the page are. -/
theorem byteIn_inj {e e' : DWord} {a a' : Addr} (h : byteIn e a = byteIn e' a') :
    e.extractLsb' 12 20 = e'.extractLsb' 12 20 ∧ a.toNat % 4096 = a'.toNat % 4096 := by
  have hnat := congrArg BitVec.toNat h
  rw [byteIn_toNat, byteIn_toNat] at hnat
  exact ⟨BitVec.eq_of_toNat_eq (by omega), by omega⟩

/-! ## Marks -/

section EntryMarks

variable {e e' : DWord}

/-- The other bits are the same. -/
theorem getLsbD_of_marks (h : e' &&& ~~~entryMarks = e &&& ~~~entryMarks) {i : ℕ}
    (hi : entryMarks.getLsbD i = false) : e'.getLsbD i = e.getLsbD i := by
  have hbit := congrArg (fun v : DWord => v.getLsbD i) h
  simp only [BitVec.getLsbD_and, BitVec.getLsbD_not, hi, Bool.not_false, Bool.and_true] at hbit
  by_cases hlt : i < 32
  · simpa [hlt] using hbit
  · rw [BitVec.getLsbD_of_ge _ _ (by omega), BitVec.getLsbD_of_ge _ _ (by omega)]

/-- The frame is the same. -/
theorem frame_of_marks (h : e' &&& ~~~entryMarks = e &&& ~~~entryMarks) :
    e'.extractLsb' 12 20 = e.extractLsb' 12 20 := by
  apply BitVec.eq_of_getLsbD_eq
  intro i hi
  have hclear : ∀ i < 20, entryMarks.getLsbD (12 + i) = false := by decide
  rw [BitVec.getLsbD_extractLsb', BitVec.getLsbD_extractLsb', getLsbD_of_marks h (hclear i hi)]

theorem Control.allows_of_marks (h : e' &&& ~~~entryMarks = e &&& ~~~entryMarks) (c : Control)
    (acc : Access) : c.allows acc e' = c.allows acc e := by
  rw [Control.allows, Control.allows, getLsbD_of_marks h (i := 0) (by decide),
    getLsbD_of_marks h (i := 1) (by decide), getLsbD_of_marks h (i := 2) (by decide)]

theorem slotIn_of_marks (h : e' &&& ~~~entryMarks = e &&& ~~~entryMarks) (i : BitVec 10) :
    slotIn e' i = slotIn e i := by
  rw [slotIn, slotIn, frame_of_marks h]

theorem byteIn_of_marks (h : e' &&& ~~~entryMarks = e &&& ~~~entryMarks) (a : Addr) :
    byteIn e' a = byteIn e a := by
  rw [byteIn, byteIn, frame_of_marks h]

end EntryMarks

/-! ## The walk through one table -/

namespace Control

variable {c : Control} {m : Bytes} {acc : Access} {a : Addr}

/-- Through an entry of the directory that is not present nothing is reached. -/
theorem walk_of_not_present (h : (m.load (slotIn c.cr3 (a.extractLsb' 22 10))).getLsbD 0 = false) :
    c.walk m acc a = none := by
  rw [walk, if_neg]
  rw [allows, h]
  simp

/-- Behind an entry of the directory that lets everything pass, the table decides. -/
theorem walk_of_open {e : DWord} (hpde : m.load (slotIn c.cr3 (a.extractLsb' 22 10)) = e)
    (h₀ : e.getLsbD 0 = true) (h₁ : e.getLsbD 1 = true) (h₂ : e.getLsbD 2 = true) :
    c.walk m acc a =
      if c.allows acc (m.load (slotIn e (a.extractLsb' 12 10))) then
        some (byteIn (m.load (slotIn e (a.extractLsb' 12 10))) a)
      else none := by
  rw [walk, hpde]
  refine if_pos ?_
  rw [allows, h₀, h₁, h₂]
  rfl

/-- **Translation depends on the words of the directory**, and on those of the tables that it
leads to, and in them on nothing that the processor marks. -/
theorem translate_congr {m' : Bytes}
    (hdir : ∀ i, m'.load (slotIn c.cr3 i) &&& ~~~entryMarks =
      m.load (slotIn c.cr3 i) &&& ~~~entryMarks)
    (htable : ∀ i, (m.load (slotIn c.cr3 i)).getLsbD 0 = true → ∀ j,
      m'.load (slotIn (m.load (slotIn c.cr3 i)) j) &&& ~~~entryMarks =
        m.load (slotIn (m.load (slotIn c.cr3 i)) j) &&& ~~~entryMarks)
    (acc : Access) : c.translate m' acc = c.translate m acc := by
  funext a
  have hpde := hdir (a.extractLsb' 22 10)
  rw [translate, translate, walk, walk]
  dsimp only
  rw [allows_of_marks hpde, slotIn_of_marks hpde]
  cases hpresent : (m.load (slotIn c.cr3 (a.extractLsb' 22 10))).getLsbD 0 with
  | false =>
      have hno : c.allows acc (m.load (slotIn c.cr3 (a.extractLsb' 22 10))) = false := by
        rw [allows, hpresent, Bool.false_and, Bool.false_and]
      rw [hno]
      rfl
  | true =>
      have hpte := htable _ hpresent (a.extractLsb' 12 10)
      rw [allows_of_marks hpte, byteIn_of_marks hpte]

/-- What may be written may be read, and is found in the same place. -/
theorem walk_of_write {user : Bool} {p : Addr} (h : c.walk m ⟨user, true⟩ a = some p) :
    c.walk m ⟨user, false⟩ a = some p := by
  have hle : ∀ e, c.allows ⟨user, true⟩ e = true → c.allows ⟨user, false⟩ e = true := by
    intro e he
    simp only [allows, Bool.and_eq_true] at he ⊢
    exact ⟨he.1, by simp⟩
  rw [walk] at h ⊢
  dsimp only at h ⊢
  split at h
  · next hpde =>
      rw [if_pos (hle _ hpde)]
      split at h
      · next hpte => rwa [if_pos (hle _ hpte)]
      · exact absurd h (by simp)
  · exact absurd h (by simp)

end Control

end Zeos.Machine
