import Zeos.Machine.LongDivision
import Zeos.Machine.Memory

/-!
# Dividing 64 bits by 32 (`utils.c`)

`do_div` divides a 64-bit number by a 32-bit one in two steps, as `divl` divides 64 bits
by 32 and faults if the quotient does not fit into 32.  It is long division of two
digits: the remainder of the upper word is the upper word of what `divl` divides.

`divl` is a partial function, so that a fault of the division would show as the absence of
a result, and the second division is where it could: its upper word is a remainder, and
hence below the divisor.  The numbers are words of 64 and 32 bits and the quotient is
again one of 64.  `exactDivision` needs that the base is not zero, and `get_ticks` divides
by a constant.
-/

namespace Zeos

open Machine

/-- `divl` for the dividend `edx:eax`: the quotient and the remainder, or `none` for a
divide error. -/
def divl (edx eax divisor : DWord) : Option (DWord × DWord) :=
  let dividend := edx.toNat * 2 ^ 32 + eax.toNat
  if divisor = 0 ∨ 2 ^ 32 ≤ dividend / divisor.toNat then none
  else some (BitVec.ofNat 32 (dividend / divisor.toNat),
    BitVec.ofNat 32 (dividend % divisor.toNat))

/-- What `do_div` does to `__upper` and `__high` before its `divl`. -/
def divideHigh (high base : DWord) : DWord × DWord :=
  if high ≠ 0 then (high % base, high / base) else (high, high)

/-- `do_div`: what it leaves in `n`, and the remainder.  A base of zero is a divide error
here as well as in the division of the upper word. -/
def doDiv (n : BitVec 64) (base : DWord) : Option (BitVec 64 × DWord) := do
  let low := n.setWidth 32
  let high := (n >>> 32).setWidth 32
  let (upper, high) := divideHigh high base
  let (low, mod) ← divl upper low base
  return (high ++ low, mod)

/-- `CYCLESPERTICK`. -/
def cyclesPerTick : DWord := 109000

/-- `get_ticks`, with the cycle counter that `rdtsc` reads. -/
def getTicks (cycles : BitVec 64) : Option DWord := do
  let eax : DWord := cycles.setWidth 32
  let edx : DWord := (cycles >>> 32).setWidth 32
  let ticks := (edx.setWidth 64 <<< 32) + eax.setWidth 64
  let (ticks, _) ← doDiv ticks cyclesPerTick
  return ticks.setWidth 32

/-! ## The instruction -/

/-- `divl` does not fault if and only if the upper word is below the divisor. -/
theorem divl_isSome_iff (edx eax divisor : DWord) :
    (divl edx eax divisor).isSome ↔ edx.toNat < divisor.toNat := by
  unfold divl
  rcases Nat.eq_zero_or_pos divisor.toNat with hzero | hpos
  · have hdivisor : divisor = 0 := BitVec.eq_of_toNat_eq hzero
    rw [if_pos (Or.inl hdivisor), hzero]
    exact iff_of_false Bool.false_ne_true (Nat.not_lt_zero _)
  · have hdivisor : divisor ≠ 0 := by
      rintro rfl
      exact absurd hpos (by decide)
    rcases Nat.lt_or_ge edx.toNat divisor.toNat with hlt | hge
    · have hquotient := quotient_lt hlt eax.isLt
      rw [if_neg (not_or.mpr ⟨hdivisor, Nat.not_le.mpr hquotient⟩)]
      exact iff_of_true rfl hlt
    · have hquotient : 2 ^ 32 ≤ (edx.toNat * 2 ^ 32 + eax.toNat) / divisor.toNat := by
        rw [Nat.le_div_iff_mul_le hpos, Nat.mul_comm]
        exact (Nat.mul_le_mul_right _ hge).trans (Nat.le_add_right _ _)
      rw [if_pos (Or.inr hquotient)]
      exact iff_of_false Bool.false_ne_true (Nat.not_lt.mpr hge)

/-- What it computes where it does not fault. -/
theorem divl_toNat {edx eax divisor quotient mod : DWord}
    (h : divl edx eax divisor = some (quotient, mod)) :
    quotient.toNat = (edx.toNat * 2 ^ 32 + eax.toNat) / divisor.toNat ∧
      mod.toNat = (edx.toNat * 2 ^ 32 + eax.toNat) % divisor.toNat := by
  unfold divl at h
  dsimp only at h
  split at h
  · exact absurd h (by simp)
  · next hfits =>
      obtain ⟨hdivisor, hquotient⟩ := not_or.mp hfits
      obtain ⟨rfl, rfl⟩ := Prod.mk.inj (Option.some.inj h)
      have hpos : 0 < divisor.toNat := by
        refine Nat.pos_of_ne_zero fun hzero => hdivisor ?_
        exact BitVec.eq_of_toNat_eq hzero
      have hmod : (edx.toNat * 2 ^ 32 + eax.toNat) % divisor.toNat < 2 ^ 32 :=
        (Nat.mod_lt _ hpos).trans divisor.isLt
      rw [BitVec.toNat_ofNat, BitVec.toNat_ofNat, Nat.mod_eq_of_lt (Nat.not_le.mp hquotient),
        Nat.mod_eq_of_lt hmod]
      exact ⟨rfl, rfl⟩

/-! ## The macro -/

/-- The shortcut for an upper word of zero does what the division would do. -/
theorem divideHigh_eq (high base : DWord) : divideHigh high base = (high % base, high / base) := by
  unfold divideHigh
  split
  · rfl
  · next hzero =>
      obtain rfl : high = 0 := not_not.mp hzero
      show ((0 : DWord), (0 : DWord)) = (0#32 % base, 0#32 / base)
      rw [BitVec.zero_umod, BitVec.zero_udiv]
      rfl

/-- The two words of a 64-bit number are its digits. -/
theorem valueFrom_words (n : BitVec 64) :
    valueFrom (2 ^ 32) 0 [((n >>> 32).setWidth 32).toNat, (n.setWidth 32).toNat] = n.toNat := by
  have hlt := n.isLt
  simp only [valueFrom, List.foldl_cons, List.foldl_nil, BitVec.toNat_setWidth,
    BitVec.toNat_ushiftRight, Nat.shiftRight_eq_div_pow]
  omega

theorem valueFrom_append (high low : DWord) :
    (high ++ low).toNat = valueFrom (2 ^ 32) 0 [high.toNat, low.toNat] := by
  rw [BitVec.toNat_append, ← Nat.shiftLeft_add_eq_or_of_lt low.isLt, Nat.shiftLeft_eq]
  simp only [valueFrom, List.foldl_cons, List.foldl_nil, Nat.zero_mul, Nat.zero_add]

/-- The division of `n` by `base` with `do_div` is exact: the upper word that its `divl` is
given is below `base`, so that there is no divide error, and what it leaves are the whole
quotient and the remainder. -/
structure ExactDivision (n : BitVec 64) (base : DWord) : Prop where
  upper : (divideHigh ((n >>> 32).setWidth 32) base).1.toNat < base.toNat
  result : ∃ quotient mod, doDiv n base = some (quotient, mod) ∧
    quotient.toNat = n.toNat / base.toNat ∧ mod.toNat = n.toNat % base.toNat

theorem exactDivision_of_pos (n : BitVec 64) {base : DWord} (hpos : 0 < base.toNat) :
    ExactDivision n base := by
  generalize hhigh : (n >>> 32).setWidth 32 = high
  generalize hlow : n.setWidth 32 = low
  have hupper : (divideHigh high base).1.toNat < base.toNat := by
    rw [divideHigh_eq, BitVec.toNat_umod]
    exact Nat.mod_lt _ hpos
  obtain ⟨⟨quotient, mod⟩, hdivl⟩ :=
    Option.isSome_iff_exists.mp ((divl_isSome_iff _ low _).mpr hupper)
  obtain ⟨hquotient, hmod⟩ := divl_toNat hdivl
  -- the two steps are those of the long division of two digits
  have hlong : longDiv (2 ^ 32) base.toNat 0 [high.toNat, low.toNat] =
      ([(divideHigh high base).2.toNat, quotient.toNat], mod.toNat) := by
    rw [hquotient, hmod, divideHigh_eq, BitVec.toNat_umod, BitVec.toNat_udiv]
    simp only [longDiv, Nat.zero_mul, Nat.zero_add]
  obtain ⟨hdiv, hrem⟩ := longDiv_eq (B := 2 ^ 32) hpos [high.toNat, low.toNat]
  have hvalue := valueFrom_words n
  rw [hhigh, hlow] at hvalue
  rw [hlong, hvalue] at hdiv hrem
  refine ⟨by rw [hhigh]; exact hupper, (divideHigh high base).2 ++ quotient, mod, ?_, ?_, hrem⟩
  · simp only [doDiv, hhigh, hlow, hdivl]
    rfl
  · rw [valueFrom_append]
    exact hdiv

/-- `get_ticks` puts the two halves of the counter together again. -/
theorem join_words (n : BitVec 64) :
    (((n >>> 32).setWidth 32 : DWord).setWidth 64 <<< 32) + (n.setWidth 32 : DWord).setWidth 64 =
      n := by
  have hlt := n.isLt
  apply BitVec.eq_of_toNat_eq
  simp only [BitVec.toNat_add, BitVec.toNat_shiftLeft, BitVec.toNat_setWidth,
    BitVec.toNat_ushiftRight, Nat.shiftRight_eq_div_pow, Nat.shiftLeft_eq]
  omega

/-- **`do_div` is exact**, and so `get_ticks` is the low word of the quotient. -/
theorem exactDivision (n : BitVec 64) {base : DWord} (hbase : base ≠ 0) :
    ExactDivision n base ∧ ∀ cycles : BitVec 64, ∃ ticks, getTicks cycles = some ticks ∧
      ticks.toNat = cycles.toNat / cyclesPerTick.toNat % 2 ^ 32 := by
  constructor
  · refine exactDivision_of_pos n (Nat.pos_of_ne_zero fun hzero => hbase ?_)
    exact BitVec.eq_of_toNat_eq hzero
  · intro cycles
    obtain ⟨quotient, mod, hdiv, hquotient, -⟩ :=
      (exactDivision_of_pos cycles (by decide : 0 < cyclesPerTick.toNat)).result
    refine ⟨quotient.setWidth 32, ?_, ?_⟩
    · simp only [getTicks, join_words, hdiv]
      rfl
    · rw [BitVec.toNat_setWidth, hquotient]

/-- The largest dividend, with a base that leaves a remainder in both steps. -/
theorem exactDivision_max : ExactDivision (-1#64) 1000000007 ∧ ∀ cycles : BitVec 64,
    ∃ ticks, getTicks cycles = some ticks ∧
      ticks.toNat = cycles.toNat / cyclesPerTick.toNat % 2 ^ 32 :=
  exactDivision (-1#64) (by decide)

end Zeos
