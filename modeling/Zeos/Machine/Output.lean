import Mathlib.Data.List.GetD
import Zeos.Machine.Memory

/-!
# Output files

A file that is written at a position, which each write moves on and a seek sets.
Bytes are read off it with zero beyond its end; `byte_write` is the rule for what a
write does to them, and `write_append` makes consecutive writes one.

A position may be behind the end: a write there fills the gap with zeros, as files do.
Two files with the same bytes need not have the same length, and the lemmas keep the two
apart.
-/

namespace Zeos.Machine

/-- Overwrite the bytes from a position on.  A gap before them reads as zero. -/
def writeAt (l : List Byte) (pos : ℕ) (bs : List Byte) : List Byte :=
  (l ++ List.replicate (pos - l.length) 0).take pos ++ bs ++ l.drop (pos + bs.length)

theorem length_writeAt (l : List Byte) (pos : ℕ) (bs : List Byte) :
    (writeAt l pos bs).length = max l.length (pos + bs.length) := by
  simp only [writeAt, List.length_append, List.length_take, List.length_replicate,
    List.length_drop]
  omega

/-- The bytes after a write. -/
theorem getD_writeAt (l : List Byte) (pos : ℕ) (bs : List Byte) (i : ℕ) :
    (writeAt l pos bs).getD i 0 =
      if pos ≤ i ∧ i < pos + bs.length then bs.getD (i - pos) 0 else l.getD i 0 := by
  have hfront : ((l ++ List.replicate (pos - l.length) 0).take pos).length = pos := by
    simp only [List.length_take, List.length_append, List.length_replicate]
    omega
  rw [writeAt, List.append_assoc]
  rcases Nat.lt_or_ge i pos with hlt | hge
  · rw [List.getD_append _ _ _ _ (by omega), if_neg (by omega)]
    simp only [List.getD_eq_getElem?_getD, List.getElem?_take, hlt, if_true,
      List.getElem?_append, List.getElem?_replicate]
    split
    · rfl
    · next hout =>
        rw [List.getElem?_eq_none (by omega)]
        split <;> rfl
  · rw [List.getD_append_right _ _ _ _ (by omega), hfront]
    rcases Nat.lt_or_ge (i - pos) bs.length with hin | hout
    · rw [List.getD_append _ _ _ _ hin, if_pos (by omega)]
    · rw [List.getD_append_right _ _ _ _ hout, if_neg (by omega)]
      simp only [List.getD_eq_getElem?_getD, List.getElem?_drop]
      congr 2
      omega

/-- Lists of one length with the same bytes are equal. -/
theorem eq_of_getD_eq {l l' : List Byte} (hlen : l.length = l'.length)
    (h : ∀ i, l.getD i 0 = l'.getD i 0) : l = l' := by
  refine List.ext_getElem hlen fun i hi hi' => ?_
  rw [← List.getD_eq_getElem l 0 hi, ← List.getD_eq_getElem l' 0 hi', h i]

/-- A file being written. -/
structure Output where
  data : List Byte
  pos : ℕ

namespace Output

/-- A file before anything is written. -/
def empty : Output := ⟨[], 0⟩

/-- Write at the position. -/
def write (o : Output) (bs : List Byte) : Output where
  data := writeAt o.data o.pos bs
  pos := o.pos + bs.length

/-- Set the position. -/
def seek (o : Output) (pos : ℕ) : Output := { o with pos := pos }

/-- A byte of the file, zero beyond its end. -/
def byte (o : Output) (i : ℕ) : Byte := o.data.getD i 0

variable (o : Output)

theorem byte_write (bs : List Byte) (i : ℕ) :
    (o.write bs).byte i =
      if o.pos ≤ i ∧ i < o.pos + bs.length then bs.getD (i - o.pos) 0 else o.byte i :=
  getD_writeAt o.data o.pos bs i

@[simp] theorem byte_seek (pos i : ℕ) : (o.seek pos).byte i = o.byte i := rfl

@[simp] theorem pos_write (bs : List Byte) : (o.write bs).pos = o.pos + bs.length := rfl

@[simp] theorem pos_seek (pos : ℕ) : (o.seek pos).pos = pos := rfl

/-- Writing nothing changes nothing, unless the position is behind the end. -/
theorem write_nil (h : o.pos ≤ o.data.length) : o.write [] = o := by
  obtain ⟨data, pos⟩ := o
  simp only [write, List.length_nil, Nat.add_zero, Output.mk.injEq, and_true]
  refine eq_of_getD_eq ?_ fun i => ?_
  · simpa [length_writeAt] using h
  · rw [getD_writeAt, if_neg (by simp)]

theorem pos_le_length_write (bs : List Byte) :
    (o.write bs).pos ≤ (o.write bs).data.length := by
  simp only [write, length_writeAt]
  omega

/-- Two writes in a row are one. -/
theorem write_append (as bs : List Byte) : (o.write as).write bs = o.write (as ++ bs) := by
  simp only [write, Output.mk.injEq, List.length_append, Nat.add_assoc, and_true]
  refine eq_of_getD_eq ?_ fun i => ?_
  · simp only [length_writeAt, List.length_append]
    omega
  · rw [getD_writeAt, getD_writeAt, getD_writeAt, List.length_append]
    -- before both, in the first one, or behind it
    rcases Nat.lt_or_ge i o.pos with hbefore | hge
    · rw [if_neg (by omega), if_neg (by omega), if_neg (by omega)]
    · rcases Nat.lt_or_ge i (o.pos + as.length) with hfirst | hbehind
      · rw [if_neg (by omega), if_pos ⟨hge, hfirst⟩, if_pos (by omega),
          List.getD_append _ _ _ _ (by omega)]
      · rw [List.getD_append_right _ _ _ _ (by omega), Nat.sub_sub,
          if_neg (by omega : ¬ (o.pos ≤ i ∧ i < o.pos + as.length))]
        exact if_congr (by omega) rfl rfl

end Output

end Zeos.Machine
