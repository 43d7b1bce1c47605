import Mathlib.Data.List.Basic
import Zeos.Machine.Memory

/-!
# Marks that a processor leaves in memory

A processor that looks things up in tables keeps notes in them: it marks an entry as
accessed or as dirty, a segment as accessed.  When it does so is its own affair; it may
do it ahead of an access, or not at all where it remembers the entry from before.  So
nothing is said here about when, only about where.  `hide` takes from the contents of a
cell what may be marked there, and `SameUpTo hide` is the relation of two memories that
differ in marks at most.

Two things follow for what runs in such a memory.  A cell in which nothing may be marked
(`hide` is injective there) is the same in both memories (`SameUpTo.eq`), and a store of
the same value to both keeps the relation, wherever it goes (`SameUpTo.update`).  Neither
needs to know what the marks are, so both hold for every way of marking; a program is run
under a `Marking`, which may change the marks as it likes before each access.

For memory of bytes the marks are the bits of a mask, one for each address (`clear`).  A
word is then the same but for the bits that its four bytes' masks make up
(`SameUpTo.load`); this is where a result about marked memory meets the fields that the
processor looks at.  That these fields are none of the marks is the load-bearing fact, and
it is proved where the fields are defined.
-/

namespace Zeos.Machine

/-! ## Memories that differ in marks -/

section Marks

variable {P B C : Type*}

/-- The two memories differ at most in what `hide` takes from their cells. -/
def SameUpTo (hide : P → B → C) (m m' : P → B) : Prop := ∀ p, hide p (m' p) = hide p (m p)

namespace SameUpTo

variable {hide : P → B → C} {m m' m'' : P → B}

theorem refl (hide : P → B → C) (m : P → B) : SameUpTo hide m m := fun _ => rfl

theorem symm (h : SameUpTo hide m m') : SameUpTo hide m' m := fun p => (h p).symm

theorem trans (h : SameUpTo hide m m') (h' : SameUpTo hide m' m'') : SameUpTo hide m m'' :=
  fun p => (h' p).trans (h p)

/-- A cell from which nothing is taken is the same in both. -/
theorem eq (h : SameUpTo hide m m') {p : P} (hp : Function.Injective (hide p)) : m' p = m p :=
  hp (h p)

variable [DecidableEq P]

/-- The same store to both. -/
theorem update (h : SameUpTo hide m m') (p : P) (x : B) :
    SameUpTo hide (Function.update m p x) (Function.update m' p x) := by
  intro q
  rcases eq_or_ne q p with rfl | hne
  · rw [Function.update_self, Function.update_self]
  · rw [Function.update_of_ne hne, Function.update_of_ne hne, h q]

end SameUpTo

/-- How memory is marked in the course of a run: before its `i`-th access the marks become
what `mark i` makes of them. -/
structure Marking (hide : P → B → C) where
  mark : ℕ → (P → B) → P → B
  same : ∀ i m, SameUpTo hide m (mark i m)

end Marks

/-! ## Marks in bytes -/

/-- A byte without the bits of the mask. -/
def clear (mask : Addr → Byte) (b : Addr) (x : Byte) : Byte := x &&& ~~~mask b

/-- Put other marks into memory. -/
def withMarks (mask f : Addr → Byte) (m : Bytes) : Bytes := fun b =>
  (m b &&& ~~~mask b) ||| (f b &&& mask b)

section Bytes

variable {mask : Addr → Byte} {m m' : Bytes}

theorem clear_of_zero {b : Addr} (h : mask b = 0) (x : Byte) : clear mask b x = x := by
  rw [clear, h]
  exact BitVec.and_allOnes

/-- Where the mask is empty nothing is taken. -/
theorem clear_injective {b : Addr} (h : mask b = 0) : Function.Injective (clear mask b) :=
  fun x y hxy => by rwa [clear_of_zero h, clear_of_zero h] at hxy

/-- What is the same without the bits of a mask is so without those of a larger one. -/
theorem clear_eq_of_subset {x y mask mask' : Byte} (hle : mask &&& ~~~mask' = 0)
    (h : x &&& ~~~mask = y &&& ~~~mask) : x &&& ~~~mask' = y &&& ~~~mask' := by
  have hmask : ~~~mask' = ~~~mask &&& ~~~mask' := by
    apply BitVec.eq_of_getLsbD_eq
    intro i hi
    have hbit := congrArg (fun v : Byte => v.getLsbD i) hle
    simp only [BitVec.getLsbD_and, BitVec.getLsbD_not, BitVec.getLsbD_zero, BitVec.ofNat_eq_ofNat,
      hi, decide_true, Bool.true_and] at hbit ⊢
    cases hm : mask.getLsbD i <;> cases hm' : mask'.getLsbD i <;> simp_all
  rw [hmask, ← BitVec.and_assoc, ← BitVec.and_assoc, h]

/-- Below the empty mask there is none. -/
theorem eq_zero_of_subset {x : Byte} (h : x &&& ~~~(0 : Byte) = 0) : x = 0 := by
  have hall : ~~~(0 : Byte) = BitVec.allOnes 8 := by decide
  rwa [hall, BitVec.and_allOnes] at h

/-- Other marks make no difference but in marks. -/
theorem sameUpTo_withMarks (mask f : Addr → Byte) (m : Bytes) :
    SameUpTo (clear mask) m (withMarks mask f m) := by
  intro b
  apply BitVec.eq_of_getLsbD_eq
  intro i hi
  simp only [clear, withMarks, BitVec.getLsbD_and, BitVec.getLsbD_or, BitVec.getLsbD_not, hi,
    decide_true, Bool.true_and]
  cases (mask b).getLsbD i <;> simp

/-- The same marks, before every access. -/
def Marking.constant (mask f : Addr → Byte) : Marking (clear mask) :=
  ⟨fun _ => withMarks mask f, fun _ => sameUpTo_withMarks mask f⟩

/-- A double word is its four bytes. -/
theorem eq_of_byteOf {v v' : DWord} (h : ∀ k < 4, Bytes.byteOf v' k = Bytes.byteOf v k) :
    v' = v := by
  rw [← Bytes.byteOf_append v, ← Bytes.byteOf_append v', h 0 (by omega), h 1 (by omega),
    h 2 (by omega), h 3 (by omega)]

/-- **A word in marked memory** is the same without the bits that may be marked in its bytes. -/
theorem SameUpTo.load {a : Addr} {marks : DWord}
    (h : ∀ i < 4, clear mask (a + BitVec.ofNat 32 i) (m' (a + BitVec.ofNat 32 i)) =
      clear mask (a + BitVec.ofNat 32 i) (m (a + BitVec.ofNat 32 i)))
    (hmarks : ∀ i < 4, mask (a + BitVec.ofNat 32 i) &&& ~~~Bytes.byteOf marks i = 0) :
    m'.load a &&& ~~~marks = m.load a &&& ~~~marks := by
  have hbyte : ∀ (v : DWord), ∀ k < 4,
      Bytes.byteOf (v &&& ~~~marks) k = Bytes.byteOf v k &&& ~~~Bytes.byteOf marks k := by
    intro v k hk
    apply BitVec.eq_of_getLsbD_eq
    intro i hi
    have hin : 8 * k + i < 32 := by omega
    simp only [Bytes.byteOf, BitVec.getLsbD_extractLsb', BitVec.getLsbD_and, BitVec.getLsbD_not, hi,
      hin, decide_true, Bool.true_and]
  refine eq_of_byteOf fun k hk => ?_
  rw [hbyte _ k hk, hbyte _ k hk, Bytes.byteOf_load _ _ hk, Bytes.byteOf_load _ _ hk]
  exact clear_eq_of_subset (hmarks k hk) (h k hk)

end Bytes

end Zeos.Machine
