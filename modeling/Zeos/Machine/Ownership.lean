import Mathlib.Logic.Function.Basic
import Mathlib.Tactic.Common

/-!
# Exclusive ownership

Slots hold resources, each slot at most one.  Ownership is exclusive when no
resource is in two slots and every resource in a slot is in use.  It survives the
two things an allocator does: putting a resource that is not in use into a slot,
whatever was there (`Exclusive.assign`), and emptying a slot, after which its
resource need not be in use any more (`Exclusive.release`).

What *in use* means is left to the user of the library; it is a predicate that may change
with each step, and the two lemmas say what has to be kept of it.  That the resource of an
assignment was not in use is load-bearing: an allocator that hands out a resource twice,
or an error value in its place, breaks ownership at this point and nowhere else.
-/

namespace Zeos.Machine

variable {S R : Type*}

/-- No resource has two owners, and what is owned is in use. -/
structure Exclusive (own : S → Option R) (inUse : R → Prop) : Prop where
  inj : ∀ {s s' r}, own s = some r → own s' = some r → s = s'
  used : ∀ {s r}, own s = some r → inUse r

namespace Exclusive

variable {own : S → Option R} {inUse inUse' : R → Prop}

/-- Where nothing is owned, ownership is exclusive. -/
theorem of_none (h : ∀ s, own s = none) : Exclusive own inUse where
  inj {s s' r} hs _ := by simp [h s] at hs
  used {s r} hs := by simp [h s] at hs

/-- More may be in use. -/
theorem mono (h : Exclusive own inUse) (himp : ∀ r, inUse r → inUse' r) :
    Exclusive own inUse' where
  inj := h.inj
  used hs := himp _ (h.used hs)

variable [DecidableEq S]

/-- A slot may be given a resource that was not in use. -/
theorem assign (h : Exclusive own inUse) (s : S) {r : R} (hfresh : ¬ inUse r)
    (hr : inUse' r) (himp : ∀ r, inUse r → inUse' r) :
    Exclusive (Function.update own s (some r)) inUse' where
  inj {s₁ s₂ r'} h₁ h₂ := by
    by_cases e₁ : s₁ = s <;> by_cases e₂ : s₂ = s
    · rw [e₁, e₂]
    · subst e₁
      rw [Function.update_self, Option.some_inj] at h₁
      rw [Function.update_of_ne e₂, ← h₁] at h₂
      exact absurd (h.used h₂) hfresh
    · subst e₂
      rw [Function.update_self, Option.some_inj] at h₂
      rw [Function.update_of_ne e₁, ← h₂] at h₁
      exact absurd (h.used h₁) hfresh
    · rw [Function.update_of_ne e₁] at h₁
      rw [Function.update_of_ne e₂] at h₂
      exact h.inj h₁ h₂
  used {s₁ r'} h₁ := by
    by_cases e₁ : s₁ = s
    · subst e₁
      rw [Function.update_self, Option.some_inj] at h₁
      exact h₁ ▸ hr
    · rw [Function.update_of_ne e₁] at h₁
      exact himp _ (h.used h₁)

/-- A slot may be emptied; only its own resource may cease to be in use. -/
theorem release (h : Exclusive own inUse) (s : S)
    (himp : ∀ r, inUse r → own s ≠ some r → inUse' r) :
    Exclusive (Function.update own s none) inUse' where
  inj {s₁ s₂ r'} h₁ h₂ := by
    have e₁ : s₁ ≠ s := fun e => by simp [e] at h₁
    have e₂ : s₂ ≠ s := fun e => by simp [e] at h₂
    rw [Function.update_of_ne e₁] at h₁
    rw [Function.update_of_ne e₂] at h₂
    exact h.inj h₁ h₂
  used {s₁ r'} h₁ := by
    have e₁ : s₁ ≠ s := fun e => by simp [e] at h₁
    rw [Function.update_of_ne e₁] at h₁
    exact himp _ (h.used h₁) fun hs => e₁ (h.inj h₁ hs)

end Exclusive

end Zeos.Machine
