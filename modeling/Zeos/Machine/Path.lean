import Mathlib.Data.List.Chain
import Mathlib.Data.List.Nodup

/-!
# Paths of pointers

A pointer field is a function `f` from addresses to pointers, `none` being the null
pointer.  `Path f a l b` says that following `f` from `a` leads through the addresses
of `l`, in order, to `b`; a circular list is a path from its head to its head.

`Path.insert` and `Path.remove` are for the two ways a path is changed by redirecting
a single pointer.  Which pointer that is does not depend on the direction, so that a
doubly linked list uses each of them twice, the second time for the reversed list.

A path may lead through an address more than once, and it is load-bearing for both lemmas
that it does not (`Nodup`), because a redirected pointer would then be met on the rest of
the path as well.  The new function of pointers is compared with the old one on the
addresses of the path alone, so that whatever else a step does to memory is not looked at.
-/

namespace Zeos.Machine

variable {α : Type*} {f g : α → Option α} {a b n : α} {l l₁ l₂ : List α}

/-- Following `f` from `a` leads through `l` to `b`. -/
def Path (f : α → Option α) (a : α) (l : List α) (b : α) : Prop :=
  List.IsChain (fun x y => f x = some y) (a :: (l ++ [b]))

theorem path_nil : Path f a [] b ↔ f a = some b :=
  List.isChain_pair

theorem path_cons {c : α} : Path f a (c :: l) b ↔ f a = some c ∧ Path f c l b :=
  List.isChain_cons_cons

/-- A path goes through each of its addresses. -/
theorem path_append : Path f a (l₁ ++ n :: l₂) b ↔ Path f a l₁ n ∧ Path f n l₂ b := by
  unfold Path
  rw [List.append_assoc, List.cons_append, ← List.cons_append, List.isChain_split,
    List.cons_append]

/-- Only the pointers at its addresses matter for a path. -/
theorem Path.congr (h : Path f a l b) (hfg : ∀ x ∈ a :: l, g x = f x) : Path g a l b := by
  induction l generalizing a with
  | nil =>
      rw [path_nil] at h ⊢
      exact (hfg a List.mem_cons_self).trans h
  | cons c l ih =>
      rw [path_cons] at h ⊢
      exact ⟨(hfg a List.mem_cons_self).trans h.1,
        ih h.2 fun x hx => hfg x (List.mem_cons_of_mem a hx)⟩

/-- The pointer at the start of a path. -/
theorem Path.first (h : Path f a l b) : f a = some (l.headD b) := by
  cases l with
  | nil => exact path_nil.mp h
  | cons c l => exact (path_cons.mp h).1

/-- The pointer that leads from the first part of a path to the second. -/
theorem Path.at_split (h : Path f a (l₁ ++ l₂) b) :
    f (l₁.getLastD a) = some (l₂.headD b) := by
  induction l₁ generalizing a with
  | nil => exact Path.first h
  | cons c l₁ ih =>
      rw [List.getLastD_cons]
      exact ih (path_cons.mp h).2

/-- The first part ends at one of its addresses. -/
theorem getLastD_mem_cons (a : α) (l : List α) : l.getLastD a ∈ a :: l := by
  induction l generalizing a with
  | nil => exact List.mem_cons_self
  | cons c l ih =>
      rw [List.getLastD_cons]
      exact List.mem_cons_of_mem a (ih c)

/-- The address that a part begins with, seen from the other side. -/
theorem getLastD_reverse (a : α) (l : List α) : l.reverse.getLastD a = l.headD a := by
  cases l with
  | nil => rfl
  | cons c l => rw [List.reverse_cons, List.getLastD_concat, List.headD_cons]

/-- The address that a part ends with, seen from the other side. -/
theorem headD_reverse (a : α) (l : List α) : l.reverse.headD a = l.getLastD a := by
  rw [← getLastD_reverse, List.reverse_reverse]

/-- A head and its nodes, in either order. -/
theorem mem_cons_reverse {x : α} : x ∈ a :: l.reverse ↔ x ∈ a :: l := by
  rw [List.mem_cons, List.mem_reverse, List.mem_cons]

/-- The two neighbours of a place in a list are the head or nodes of it. -/
theorem getLastD_mem_cons_append (l₁ l₂ : List α) : l₁.getLastD a ∈ a :: (l₁ ++ l₂) := by
  rw [← List.cons_append]
  exact List.mem_append_left _ (getLastD_mem_cons a l₁)

theorem headD_mem_cons_append (l₁ l₂ : List α) : l₂.headD a ∈ a :: (l₁ ++ l₂) := by
  rw [← mem_cons_reverse, List.reverse_append, ← getLastD_reverse]
  exact getLastD_mem_cons_append _ _

theorem nodup_cons_reverse : (a :: l.reverse).Nodup ↔ (a :: l).Nodup :=
  ((List.reverse_perm l).cons a).nodup_iff

/-- The address behind a part is not in it. -/
theorem headD_notMem (hnodup : (a :: (l₁ ++ l₂)).Nodup) : l₂.headD a ∉ l₁ := by
  obtain ⟨ha, hrest⟩ := List.nodup_cons.mp hnodup
  intro hmem
  cases l₂ with
  | nil => exact ha (List.mem_append_left _ hmem)
  | cons c l₂ => exact (List.nodup_append.mp hrest).2.2 _ hmem _ List.mem_cons_self rfl

/-- Where the first part of a path ends none of the second begins. -/
private theorem ne_getLastD (hnodup : (a :: (l₁ ++ l₂)).Nodup) {x : α} (hx : x ∈ l₂) :
    x ≠ l₁.getLastD a := by
  rintro rfl
  have hlast := getLastD_mem_cons a l₁
  rw [← List.cons_append] at hnodup
  exact (List.nodup_append.mp hnodup).2.2 _ hlast _ hx rfl

/-- A path of more than one pointer ends behind its beginning. -/
private theorem ne_getLastD_cons {c : α} (hnodup : (a :: (c :: l₁ ++ l₂)).Nodup) :
    a ≠ l₁.getLastD c := by
  intro heq
  refine (List.nodup_cons.mp hnodup).1 (List.mem_append_left _ ?_)
  rw [heq]
  exact getLastD_mem_cons c l₁

/-- **Inserting an address**: the end of the first part is led to it, and it is led
where the end of the first part led before. -/
theorem Path.insert (h : Path f a (l₁ ++ l₂) b) (hnodup : (a :: (l₁ ++ l₂)).Nodup)
    (hlast : g (l₁.getLastD a) = some n) (hn : g n = f (l₁.getLastD a))
    (hg : ∀ x ∈ a :: (l₁ ++ l₂), x ≠ l₁.getLastD a → g x = f x) :
    Path g a (l₁ ++ n :: l₂) b := by
  induction l₁ generalizing a with
  | nil =>
      have hrest : ∀ x ∈ l₂, g x = f x := fun x hx =>
        hg x (List.mem_cons_of_mem a hx) (ne_getLastD hnodup hx)
      refine path_cons.mpr ⟨hlast, ?_⟩
      cases l₂ with
      | nil => exact path_nil.mpr (hn.trans (path_nil.mp h))
      | cons c l₂ =>
          obtain ⟨hfirst, htail⟩ := path_cons.mp h
          exact path_cons.mpr ⟨hn.trans hfirst, htail.congr hrest⟩
  | cons c l₁ ih =>
      rw [List.getLastD_cons] at hlast hn hg
      obtain ⟨hfirst, htail⟩ := path_cons.mp h
      have ha : g a = f a := hg a List.mem_cons_self (ne_getLastD_cons hnodup)
      exact path_cons.mpr ⟨ha.trans hfirst, ih htail (List.nodup_cons.mp hnodup).2 hlast hn
        fun x hx => hg x (List.mem_cons_of_mem a hx)⟩

/-- **Removing an address**: the end of the part before it is led where it led. -/
theorem Path.remove (h : Path f a (l₁ ++ n :: l₂) b) (hnodup : (a :: (l₁ ++ l₂)).Nodup)
    (hlast : g (l₁.getLastD a) = f n)
    (hg : ∀ x ∈ a :: (l₁ ++ l₂), x ≠ l₁.getLastD a → g x = f x) :
    Path g a (l₁ ++ l₂) b := by
  induction l₁ generalizing a with
  | nil =>
      have hrest : ∀ x ∈ l₂, g x = f x := fun x hx =>
        hg x (List.mem_cons_of_mem a hx) (ne_getLastD hnodup hx)
      have hskip : Path f n l₂ b := (path_cons.mp h).2
      cases l₂ with
      | nil => exact path_nil.mpr (hlast.trans (path_nil.mp hskip))
      | cons c l₂ =>
          obtain ⟨hfirst, htail⟩ := path_cons.mp hskip
          exact path_cons.mpr ⟨hlast.trans hfirst, htail.congr hrest⟩
  | cons c l₁ ih =>
      rw [List.getLastD_cons] at hlast hg
      obtain ⟨hfirst, htail⟩ := path_cons.mp h
      have ha : g a = f a := hg a List.mem_cons_self (ne_getLastD_cons hnodup)
      exact path_cons.mpr ⟨ha.trans hfirst, ih htail (List.nodup_cons.mp hnodup).2 hlast
        fun x hx => hg x (List.mem_cons_of_mem a hx)⟩

end Zeos.Machine
