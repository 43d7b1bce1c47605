import Mathlib.Algebra.Order.Ring.Nat
import Mathlib.Data.Nat.ModEq
import Mathlib.Tactic.Ring

/-!
# Long division

Numbers are lists of digits in a base `B`, the most significant digit first.  A number is
divided by a divisor `d` digit by digit: the remainder of one step, which is below `d`, is
carried into the next, so that a quotient is again one digit (`quotient_lt`).  The digits
of the quotients and the last remainder are those of the division of the whole number
(`longDiv_eq`).

Nothing is asked of the digits: the value of a list is defined for numbers above the base
as well, and the division is right for them too.  Only `quotient_lt` needs that a digit is
below the base, and it is what a machine needs that has one word for a quotient.
-/

namespace Zeos.Machine

/-- The value of the digits `xs` behind the value `r`. -/
def valueFrom (B : ℕ) (r : ℕ) (xs : List ℕ) : ℕ := xs.foldl (fun v x => v * B + x) r

/-- Divide digit by digit, with `r` carried into the first step: the digits of the
quotient and the remainder. -/
def longDiv (B d : ℕ) : ℕ → List ℕ → List ℕ × ℕ
  | r, [] => ([], r)
  | r, x :: xs =>
      let rest := longDiv B d ((r * B + x) % d) xs
      ((r * B + x) / d :: rest.1, rest.2)

variable {B d r : ℕ}

theorem valueFrom_eq (B r : ℕ) (xs : List ℕ) :
    valueFrom B r xs = r * B ^ xs.length + valueFrom B 0 xs := by
  induction xs generalizing r with
  | nil => simp [valueFrom]
  | cons x xs ih =>
      have hcons : ∀ v, valueFrom B v (x :: xs) = valueFrom B (v * B + x) xs := fun _ => rfl
      rw [hcons, hcons, ih (r * B + x), ih (0 * B + x), List.length_cons]
      ring

/-- A quotient is one digit, if what is carried is a remainder. -/
theorem quotient_lt {x : ℕ} (hr : r < d) (hx : x < B) : (r * B + x) / d < B := by
  apply Nat.div_lt_of_lt_mul
  calc r * B + x < r * B + B := Nat.add_lt_add_left hx _
    _ = (r + 1) * B := (Nat.succ_mul r B).symm
    _ ≤ d * B := Nat.mul_le_mul_right B hr

theorem longDiv_length (r : ℕ) (xs : List ℕ) : (longDiv B d r xs).1.length = xs.length := by
  induction xs generalizing r with
  | nil => rfl
  | cons x xs ih => exact congrArg Nat.succ (ih _)

/-- Every step keeps the value, and carries a remainder on. -/
theorem longDiv_spec (hr : r < d) (xs : List ℕ) :
    d * valueFrom B 0 (longDiv B d r xs).1 + (longDiv B d r xs).2 = valueFrom B r xs ∧
      (longDiv B d r xs).2 < d := by
  induction xs generalizing r with
  | nil => exact ⟨Nat.zero_add r, hr⟩
  | cons x xs ih =>
      have hrem : (r * B + x) % d < d := Nat.mod_lt _ (by omega)
      obtain ⟨hvalue, hlt⟩ := ih hrem
      refine ⟨?_, hlt⟩
      have hstep := Nat.div_add_mod (r * B + x) d
      generalize hq : (r * B + x) / d = q at hstep
      have hquotient : valueFrom B 0 (longDiv B d r (x :: xs)).1 =
          q * B ^ xs.length + valueFrom B 0 (longDiv B d ((r * B + x) % d) xs).1 := by
        show valueFrom B (0 * B + (r * B + x) / d) _ = _
        rw [hq, Nat.zero_mul, Nat.zero_add, valueFrom_eq, longDiv_length]
      rw [hquotient]
      show _ + (longDiv B d ((r * B + x) % d) xs).2 = valueFrom B (r * B + x) xs
      calc d * (q * B ^ xs.length + valueFrom B 0 (longDiv B d ((r * B + x) % d) xs).1) +
            (longDiv B d ((r * B + x) % d) xs).2
          = d * q * B ^ xs.length +
              (d * valueFrom B 0 (longDiv B d ((r * B + x) % d) xs).1 +
                (longDiv B d ((r * B + x) % d) xs).2) := by ring
        _ = d * q * B ^ xs.length +
              ((r * B + x) % d * B ^ xs.length + valueFrom B 0 xs) := by
            rw [hvalue, valueFrom_eq]
        _ = (d * q + (r * B + x) % d) * B ^ xs.length + valueFrom B 0 xs := by ring
        _ = valueFrom B (r * B + x) xs := by rw [hstep, ← valueFrom_eq]

/-- **Long division is division.** -/
theorem longDiv_eq (hd : 0 < d) (xs : List ℕ) :
    valueFrom B 0 (longDiv B d 0 xs).1 = valueFrom B 0 xs / d ∧
      (longDiv B d 0 xs).2 = valueFrom B 0 xs % d := by
  obtain ⟨hvalue, hlt⟩ := longDiv_spec (B := B) hd xs
  obtain ⟨hdiv, hmod⟩ := (Nat.div_mod_unique hd).mpr ⟨(Nat.add_comm _ _).trans hvalue, hlt⟩
  exact ⟨hdiv.symm, hmod.symm⟩

end Zeos.Machine
