import Mathlib.Logic.Function.Basic
import Mathlib.Tactic.Common
import Zeos.Machine.Run

/-!
# Memory seen through address maps

An address map says where in memory the addresses of a space are, for those that are
anywhere.  What a program sees of memory is its `view` through the map for reading, and
what it stores goes through the map for writing.

A map that leads no two addresses to one place makes a memory of its own: a store is
seen at its own address and nowhere else (`view_update`).  `view_store` says what is
seen through one map of a store through another.

Reading and writing have a map each, since an address may be readable and not writable.
Two hypotheses are load-bearing in `view_store`: that the map for reading is faithful, and
that a place that both maps lead to has one name in the two.  Without the second a store
at one address could be seen at another, as under tables that map a frame twice.
-/

namespace Zeos.Machine

variable {V P B : Type*}

/-- Where the addresses of a space are in memory. -/
abbrev AddressMap (V P : Type*) := V → Option P

namespace AddressMap

/-- Memory seen through a map. -/
def view (f : AddressMap V P) (m : P → B) (v : V) : Option B := (f v).map m

/-- Store through a map; where the map leads nowhere, nothing happens. -/
def store [DecidableEq P] (f : AddressMap V P) (m : P → B) (v : V) (x : B) : P → B :=
  match f v with
  | none => m
  | some p => Function.update m p x

/-- No two addresses lead to one place. -/
def Faithful (f : AddressMap V P) : Prop := ∀ v v' p, f v = some p → f v' = some p → v = v'

/-- Wherever the first map leads, the second leads to the same place. -/
def Within (f g : AddressMap V P) : Prop := ∀ v p, f v = some p → g v = some p

/-- A store to a memory of its own: only at its own address, and only where the
address is writable. -/
def privateStore [DecidableEq V] (writable : V → Bool) (m : V → Option B) (s : V × B) :
    V → Option B :=
  if writable s.1 then Function.update m s.1 (some s.2) else m

variable {f w : AddressMap V P} {m : P → B}

theorem view_of_none {v : V} (h : f v = none) : f.view m v = none := by
  rw [view, h, Option.map_none]

theorem view_of_some {v : V} {p : P} (h : f v = some p) : f.view m v = some (m p) := by
  rw [view, h, Option.map_some]

/-- What is seen depends only on the places that the map leads to. -/
theorem view_congr {m' : P → B} (h : ∀ v p, f v = some p → m' p = m p) : f.view m' = f.view m := by
  funext v
  cases hv : f v with
  | none => rw [view_of_none hv, view_of_none hv]
  | some p => rw [view_of_some hv, view_of_some hv, h v p hv]

variable [DecidableEq P]

theorem store_of_none {v : V} (h : f v = none) (x : B) : f.store m v x = m := by
  rw [store, h]

theorem store_of_some {v : V} {p : P} (h : f v = some p) (x : B) :
    f.store m v x = Function.update m p x := by
  rw [store, h]

/-- A store to a place that the map does not lead to is not seen. -/
theorem view_update_of_unreached {p : P} (h : ∀ v, f v ≠ some p) (x : B) :
    f.view (Function.update m p x) = f.view m := by
  refine view_congr fun v q hq => Function.update_of_ne ?_ x m
  rintro rfl
  exact h v hq

/-- **Through a faithful map a store is seen at its own address and nowhere else.** -/
theorem view_update [DecidableEq V] (hf : Faithful f) {v : V} {p : P} (h : f v = some p) (x : B) :
    f.view (Function.update m p x) = Function.update (f.view m) v (some x) := by
  funext v'
  by_cases hne : v' = v
  · subst hne
    rw [Function.update_self, view_of_some h, Function.update_self]
  · rw [Function.update_of_ne hne]
    cases hv' : f v' with
    | none => rw [view_of_none hv', view_of_none hv']
    | some p' =>
        have hp : p' ≠ p := fun heq => hne (hf v' v p (heq ▸ hv') h)
        rw [view_of_some hv', view_of_some hv', Function.update_of_ne hp]

/-- **A store through another map**, for maps under which a place has one name: it is
seen where both maps lead to the same place. -/
theorem view_store [DecidableEq V] (hf : Faithful f)
    (hw : ∀ v v' p, w v = some p → f v' = some p → v = v') (v : V) (x : B) :
    f.view (w.store m v x) =
      privateStore (fun v => (w v).isSome && decide (f v = w v)) (f.view m) (v, x) := by
  cases hv : w v with
  | none =>
      rw [store_of_none hv, privateStore, if_neg]
      simp [hv]
  | some p =>
      rw [store_of_some hv, privateStore]
      by_cases hfv : f v = some p
      · rw [if_pos (by simp [hv, hfv]), view_update hf hfv]
      · rw [if_neg (by simp [hv, hfv]), view_update_of_unreached]
        intro v' hv'
        obtain rfl := hw v v' p hv hv'
        exact hfv hv'

end AddressMap

end Zeos.Machine
