import Mathlib.Data.Nat.Digits.Lemmas
import Zeos.Machine.Memory

/-!
# Numerals

`numeral base n` is the text of a natural number in a base up to sixteen, with capital
letters, and `decimal z` that of an integer.  A numeral can be read back
(`valueOf_numeral`), so different numbers have different texts.  `Canonical` says what the
text of a positive number has to be, without saying how it is made, and `canonical_iff`
that the numeral is the only one.

The base is at least two, which is load-bearing for reading back, and at most sixteen,
since there are sixteen characters for digits.  `numeral` of zero is a single zero, the
one text that begins with one, and `Canonical` is about positive numbers for this reason.
-/

namespace Zeos.Machine

/-- The character of a digit. -/
def digitChar (d : ℕ) : Byte := if d < 10 then BitVec.ofNat 8 (48 + d) else BitVec.ofNat 8 (55 + d)

/-- The digits of a number, the most significant first. -/
def digitsOf (base n : ℕ) : List ℕ := if n = 0 then [0] else (base.digits n).reverse

/-- The text of a natural number. -/
def numeral (base n : ℕ) : List Byte := (digitsOf base n).map digitChar

/-- The text of an integer in base ten. -/
def decimal (z : ℤ) : List Byte :=
  if z < 0 then 45 :: numeral 10 z.natAbs else numeral 10 z.natAbs

example : decimal (-2147483648) = [45, 50, 49, 52, 55, 52, 56, 51, 54, 52, 56] := by decide
example : numeral 16 0x3f0a = [51, 70, 48, 65] := by decide

/-- The characters of the sixteen digits, and of no others, as a table. -/
theorem digitChar_toNat {d : ℕ} (hd : d < 16) :
    (digitChar d).toNat = if d < 10 then 48 + d else 55 + d := by
  unfold digitChar
  split <;> rw [BitVec.toNat_ofNat] <;> omega

/-- The value of a digit's character. -/
def digitValue (c : Byte) : ℕ := if c.toNat < 58 then c.toNat - 48 else c.toNat - 55

theorem digitValue_digitChar {d : ℕ} (hd : d < 16) : digitValue (digitChar d) = d := by
  unfold digitValue
  rw [digitChar_toNat hd]
  by_cases hten : d < 10
  · rw [if_pos hten, if_pos (by omega), Nat.add_sub_cancel_left]
  · rw [if_neg hten, if_neg (by omega), Nat.add_sub_cancel_left]

/-- The value of a text. -/
def valueOf (base : ℕ) (text : List Byte) : ℕ :=
  Nat.ofDigits base (text.map digitValue).reverse

/-- The canonical text of a positive number: it is made of digits, does not begin with a
zero, and has the number as its value. -/
structure Canonical (base n : ℕ) (text : List Byte) : Prop where
  digits : ∀ c ∈ text, ∃ d < base, c = digitChar d
  first : text.head? ≠ some (digitChar 0)
  value : valueOf base text = n

/-- A text that is made of digits is made of the digits of its values. -/
theorem map_digitChar_digitValue {base : ℕ} {text : List Byte} (hle : base ≤ 16)
    (h : ∀ c ∈ text, ∃ d < base, c = digitChar d) :
    (text.map digitValue).map digitChar = text ∧ ∀ d ∈ text.map digitValue, d < base := by
  have hvalue : ∀ c ∈ text, digitChar (digitValue c) = c ∧ digitValue c < base := by
    intro c hc
    obtain ⟨d, hd, rfl⟩ := h c hc
    rw [digitValue_digitChar (by omega)]
    exact ⟨rfl, hd⟩
  constructor
  · rw [List.map_map]
    exact (List.map_congr_left fun c hc => (hvalue c hc).1).trans (List.map_id _)
  · intro d hd
    obtain ⟨c, hc, rfl⟩ := List.mem_map.mp hd
    exact (hvalue c hc).2

section Base

variable {base : ℕ} (hbase : 1 < base) (hle : base ≤ 16)

theorem digitsOf_of_pos {n : ℕ} (hn : 0 < n) : digitsOf base n = (base.digits n).reverse :=
  if_neg (by omega)

theorem numeral_of_pos {n : ℕ} (hn : 0 < n) :
    numeral base n = (base.digits n).reverse.map digitChar := by
  rw [numeral, digitsOf_of_pos hn]

theorem length_numeral {n : ℕ} (hn : 0 < n) :
    (numeral base n).length = (base.digits n).length := by
  rw [numeral_of_pos hn, List.length_map, List.length_reverse]

include hbase

/-- A number below the `k`-th power of the base has at most `k` digits. -/
theorem length_numeral_le {n k : ℕ} (hk : 0 < k) (hn : n < base ^ k) :
    (numeral base n).length ≤ k := by
  rw [numeral, List.length_map]
  unfold digitsOf
  split
  · exact hk
  · rw [List.length_reverse, Nat.digits_length_le_iff hbase]
    exact hn

include hle

theorem lt_of_mem_digitsOf {n d : ℕ} (hd : d ∈ digitsOf base n) : d < 16 := by
  unfold digitsOf at hd
  split at hd
  · rw [List.mem_singleton.mp hd]
    omega
  · have := Nat.digits_lt_base hbase (List.mem_reverse.mp hd)
    omega

/-- Every character of a numeral is printable. -/
theorem lt_of_mem_numeral {n : ℕ} {c : Byte} (hc : c ∈ numeral base n) : 47 < c.toNat := by
  obtain ⟨d, hd, rfl⟩ := List.mem_map.mp hc
  rw [digitChar_toNat (lt_of_mem_digitsOf hbase hle hd)]
  split <;> omega

/-- **A numeral is read back** as the number it is made from. -/
theorem valueOf_numeral (n : ℕ) : valueOf base (numeral base n) = n := by
  have hvalues : (numeral base n).map digitValue = digitsOf base n := by
    rw [numeral, List.map_map]
    refine (List.map_congr_left fun d hd => ?_).trans (List.map_id _)
    exact digitValue_digitChar (lt_of_mem_digitsOf hbase hle hd)
  rw [valueOf, hvalues]
  unfold digitsOf
  split
  · next hzero => rw [hzero, List.reverse_singleton, Nat.ofDigits_singleton]
  · rw [List.reverse_reverse, Nat.ofDigits_digits]

theorem canonical_numeral {n : ℕ} (hn : 0 < n) : Canonical base n (numeral base n) := by
  have hnumeral : numeral base n = _ := numeral_of_pos hn
  constructor
  · intro c hc
    rw [hnumeral] at hc
    obtain ⟨d, hd, rfl⟩ := List.mem_map.mp hc
    exact ⟨d, Nat.digits_lt_base hbase (List.mem_reverse.mp hd), rfl⟩
  · intro hfirst
    -- the first digit is the last one that has been split off
    have hne : base.digits n ≠ [] := Nat.digits_ne_nil_iff_ne_zero.mpr (by omega)
    have hlast := Nat.getLast_digit_ne_zero base (by omega : n ≠ 0)
    rw [hnumeral, List.head?_map, List.head?_reverse, List.getLast?_eq_some_getLast hne,
      Option.map_some, Option.some_inj] at hfirst
    have hlt := Nat.digits_lt_base hbase (List.getLast_mem hne)
    have hvalue := congrArg digitValue hfirst
    rw [digitValue_digitChar (by omega), digitValue_digitChar (by omega)] at hvalue
    exact hlast hvalue
  · exact valueOf_numeral hbase hle n

/-- **The numeral is the canonical text**, and there is no other. -/
theorem canonical_iff {n : ℕ} (hn : 0 < n) (text : List Byte) :
    Canonical base n text ↔ text = numeral base n := by
  constructor
  · intro h
    obtain ⟨htext, hlt⟩ := map_digitChar_digitValue hle h.digits
    have hdigits : base.digits n = (text.map digitValue).reverse := by
      rw [← h.value]
      refine Nat.digits_ofDigits base hbase _ (fun d hd => hlt d (List.mem_reverse.mp hd)) ?_
      intro hne hzero
      rw [List.getLast_reverse] at hzero
      cases text with
      | nil => exact hne rfl
      | cons c cs =>
          have hc : digitValue c = 0 := hzero
          refine h.first ?_
          rw [← htext, List.map_cons, List.map_cons, hc]
          rfl
    rw [numeral_of_pos hn, hdigits, List.reverse_reverse, htext]
  · rintro rfl
    exact canonical_numeral hbase hle hn

end Base

theorem numeral_ne_nil (base n : ℕ) : numeral base n ≠ [] := by
  unfold numeral digitsOf
  split
  · exact List.cons_ne_nil _ _
  · next hne =>
      rw [ne_eq, List.map_eq_nil_iff, List.reverse_eq_nil_iff]
      exact Nat.digits_ne_nil_iff_ne_zero.mpr hne

theorem decimal_ne_nil (z : ℤ) : decimal z ≠ [] := by
  unfold decimal
  split
  · exact List.cons_ne_nil _ _
  · exact numeral_ne_nil _ _

/-- A minus sign is no digit. -/
theorem cons_minus_ne_numeral (text : List Byte) (n : ℕ) : 45 :: text ≠ numeral 10 n := by
  intro h
  have hminus : (45 : Byte) ∈ numeral 10 n := h ▸ List.mem_cons_self
  exact absurd (lt_of_mem_numeral (by decide) (by decide) hminus) (by decide)

/-- **Different integers have different texts.** -/
theorem decimal_injective : Function.Injective decimal := by
  have hvalue : ∀ {n n' : ℕ}, numeral 10 n = numeral 10 n' → n = n' := by
    intro n n' h
    have hread : ∀ k, valueOf 10 (numeral 10 k) = k :=
      valueOf_numeral (by decide) (by decide)
    rw [← hread n, h, hread n']
  intro z z' h
  unfold decimal at h
  split at h <;> split at h
  · have := hvalue (List.cons_eq_cons.mp h).2
    omega
  · exact absurd h (cons_minus_ne_numeral _ _)
  · exact absurd h.symm (cons_minus_ne_numeral _ _)
  · have := hvalue h
    omega

end Zeos.Machine
