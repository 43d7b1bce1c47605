import Zeos.Machine.Path

/-!
# Circular lists (`list.c`)

A `struct list_head` is a pair of pointers, used both as the head of a list and,
inside of other structures, as its nodes.  Memory is a map from their addresses to
such pairs; a store through the null pointer is a fault, so that the operations are
partial.

What the lists are for is a sequence of nodes for each head: `Lists`, with a
transition for each operation (`ListStep`).  `Represents` relates memory to it, and
`lists_run` is that every run of operations, used as the transitions say, runs without
a fault and in step with the sequences.

The transitions carry the promises of the callers: a node that is added is in no list, one
that is deleted is in some list, and a head is initialized before it is used.  They are
load-bearing, since `list_add` of a node that is linked somewhere else breaks both lists.
`Represents` says that the pointers of every list form a circle through its nodes in both
directions, and `ListsCorrect` what the functions that only look return.  The addresses
are of any type; nothing depends on their order or on their being numbers.
-/

namespace Zeos

open Machine

variable {α : Type*}

/-! ## The operations -/

/-- `struct list_head`. -/
structure ListHead (α : Type*) where
  next : Option α
  prev : Option α

/-- The `list_head`s in memory, by address. -/
abbrev Heap (α : Type*) := α → ListHead α

section Operations

variable [DecidableEq α]

/-- `p->next = v`. -/
def Heap.setNext (m : Heap α) (p : α) (v : Option α) : Heap α :=
  Function.update m p { m p with next := v }

/-- `p->prev = v`. -/
def Heap.setPrev (m : Heap α) (p : α) (v : Option α) : Heap α :=
  Function.update m p { m p with prev := v }

/-- `INIT_LIST_HEAD`. -/
def initListHead (m : Heap α) (list : α) : Heap α :=
  let m := m.setNext list (some list)
  m.setPrev list (some list)

/-- `__list_add`: insert a new entry between two consecutive entries. -/
def listAddBetween (m : Heap α) (new : α) (prev next : Option α) : Option (Heap α) := do
  let m := m.setPrev (← next) (some new)
  let m := m.setNext new next
  let m := m.setPrev new prev
  return m.setNext (← prev) (some new)

/-- Insert a new entry after the head. -/
def listAdd (m : Heap α) (new head : α) : Option (Heap α) :=
  listAddBetween m new (some head) (m head).next

/-- Insert a new entry before the head. -/
def listAddTail (m : Heap α) (new head : α) : Option (Heap α) :=
  listAddBetween m new (m head).prev (some head)

/-- `__list_del`: make two entries point to each other. -/
def listDelBetween (m : Heap α) (prev next : Option α) : Option (Heap α) := do
  let m := m.setPrev (← next) prev
  return m.setNext (← prev) next

/-- `list_del`. -/
def listDel (m : Heap α) (entry : α) : Option (Heap α) := do
  let m ← listDelBetween m (m entry).prev (m entry).next
  let m := m.setNext entry none
  return m.setPrev entry none

/-- Whether `list` is the last entry in list `head`. -/
def listIsLast (m : Heap α) (list head : α) : ℤ :=
  if (m list).next = some head then 1 else 0

/-- `list_empty`. -/
def listEmpty (m : Heap α) (head : α) : ℤ :=
  if (m head).next = some head then 1 else 0

end Operations

/-! ### The two fields -/

section Fields

variable [DecidableEq α] (m : Heap α) (p q : α) (v : Option α)

theorem Heap.setNext_next : (m.setNext p v q).next = if q = p then v else (m q).next := by
  unfold Heap.setNext
  by_cases h : q = p
  · rw [if_pos h, h, Function.update_self]
  · rw [if_neg h, Function.update_of_ne h]

theorem Heap.setNext_prev : (m.setNext p v q).prev = (m q).prev := by
  unfold Heap.setNext
  by_cases h : q = p
  · rw [h, Function.update_self]
  · rw [Function.update_of_ne h]

theorem Heap.setPrev_prev : (m.setPrev p v q).prev = if q = p then v else (m q).prev := by
  unfold Heap.setPrev
  by_cases h : q = p
  · rw [if_pos h, h, Function.update_self]
  · rw [if_neg h, Function.update_of_ne h]

theorem Heap.setPrev_next : (m.setPrev p v q).next = (m q).next := by
  unfold Heap.setPrev
  by_cases h : q = p
  · rw [h, Function.update_self]
  · rw [Function.update_of_ne h]

theorem Heap.setNext_of_ne (h : q ≠ p) : m.setNext p v q = m q :=
  Function.update_of_ne h _ _

theorem Heap.setPrev_of_ne (h : q ≠ p) : m.setPrev p v q = m q :=
  Function.update_of_ne h _ _

end Fields

/-! ## One list -/

/-- The list of a head: its nodes in the order of `next`, and in the reverse order of
`prev`. -/
structure Ring (m : Heap α) (h : α) (l : List α) : Prop where
  next : Path (fun x => (m x).next) h l h
  prev : Path (fun x => (m x).prev) h l.reverse h

section Ring

variable {m m' : Heap α} {h n : α} {l l₁ l₂ : List α}

theorem Ring.congr (hr : Ring m h l) (hm : ∀ x ∈ h :: l, m' x = m x) : Ring m' h l := by
  refine ⟨hr.next.congr fun x hx => ?_, hr.prev.congr fun x hx => ?_⟩
  · rw [hm x hx]
  · rw [hm x (by simpa using hx)]

/-- The two neighbours of a place in a list point to each other. -/
theorem Ring.next_at_split (hr : Ring m h (l₁ ++ l₂)) :
    (m (l₁.getLastD h)).next = some (l₂.headD h) :=
  hr.next.at_split

theorem Ring.prev_at_split (hr : Ring m h (l₁ ++ l₂)) :
    (m (l₂.headD h)).prev = some (l₁.getLastD h) := by
  have hprev := hr.prev
  rw [List.reverse_append] at hprev
  have hsplit := hprev.at_split
  rwa [getLastD_reverse, headD_reverse] at hsplit

variable [DecidableEq α]

theorem ring_initListHead (m : Heap α) (h : α) : Ring (initListHead m h) h [] := by
  constructor
  · rw [path_nil, initListHead, Heap.setPrev_next, Heap.setNext_next, if_pos rfl]
  · rw [List.reverse_nil, path_nil, initListHead, Heap.setPrev_prev, if_pos rfl]

/-- **A new entry between two neighbours**, in either part of the list empty too.  The
pointers of no other list change. -/
theorem Ring.listAdd_between (hr : Ring m h (l₁ ++ l₂)) (hnodup : (h :: (l₁ ++ l₂)).Nodup)
    (hn : n ∉ h :: (l₁ ++ l₂)) :
    ∃ m', listAddBetween m n (some (l₁.getLastD h)) (some (l₂.headD h)) = some m' ∧
      Ring m' h (l₁ ++ n :: l₂) ∧ ∀ x ∉ h :: (l₁ ++ n :: l₂), m' x = m x := by
  have hlast : l₁.getLastD h ∈ h :: (l₁ ++ l₂) := getLastD_mem_cons_append l₁ l₂
  have hhead : l₂.headD h ∈ h :: (l₁ ++ l₂) := headD_mem_cons_append l₁ l₂
  have hnlast : n ≠ l₁.getLastD h := fun heq => hn (heq ▸ hlast)
  have hnhead : n ≠ l₂.headD h := fun heq => hn (heq ▸ hhead)
  refine ⟨_, rfl, ⟨?_, ?_⟩, fun x hx => ?_⟩
  · -- forwards the end of the first part is redirected
    refine hr.next.insert hnodup ?_ ?_ fun x hx hne => ?_
    · rw [Heap.setNext_next, if_pos rfl]
    · rw [Heap.setNext_next, if_neg hnlast, Heap.setPrev_next, Heap.setNext_next, if_pos rfl,
        hr.next_at_split]
    · have hxn : x ≠ n := fun heq => hn (heq ▸ hx)
      rw [Heap.setNext_next, if_neg hne, Heap.setPrev_next, Heap.setNext_next, if_neg hxn,
        Heap.setPrev_next]
  · -- backwards, the beginning of the second
    have hprev := hr.prev
    rw [List.reverse_append] at hprev
    rw [List.reverse_append, List.reverse_cons, List.append_assoc, List.singleton_append]
    have hnodup' := nodup_cons_reverse.mpr hnodup
    rw [List.reverse_append] at hnodup'
    refine hprev.insert hnodup' ?_ ?_ fun x hx hne => ?_
    · rw [getLastD_reverse]
      rw [Heap.setNext_prev, Heap.setPrev_prev, if_neg hnhead.symm, Heap.setNext_prev,
        Heap.setPrev_prev, if_pos rfl]
    · rw [getLastD_reverse]
      rw [Heap.setNext_prev, Heap.setPrev_prev, if_pos rfl, hr.prev_at_split]
    · rw [getLastD_reverse] at hne
      rw [← List.reverse_append, mem_cons_reverse] at hx
      have hxn : x ≠ n := fun heq => hn (heq ▸ hx)
      rw [Heap.setNext_prev, Heap.setPrev_prev, if_neg hxn, Heap.setNext_prev,
        Heap.setPrev_prev, if_neg hne]
  · have hout : x ∉ h :: (l₁ ++ l₂) := fun hmem => hx (by simp at hmem ⊢; tauto)
    have hxn : x ≠ n := fun heq => hx (by simp [heq])
    have hxlast : x ≠ l₁.getLastD h := fun heq => hout (heq ▸ hlast)
    have hxhead : x ≠ l₂.headD h := fun heq => hout (heq ▸ hhead)
    rw [Heap.setNext_of_ne _ _ _ _ hxlast, Heap.setPrev_of_ne _ _ _ _ hxn,
      Heap.setNext_of_ne _ _ _ _ hxn, Heap.setPrev_of_ne _ _ _ _ hxhead]

/-- **An entry taken out** between its neighbours, wherever it stands.  Its own pointers
become null, and those of no other list change. -/
theorem Ring.listDel (hr : Ring m h (l₁ ++ n :: l₂)) (hnodup : (h :: (l₁ ++ n :: l₂)).Nodup) :
    ∃ m', listDel m n = some m' ∧ Ring m' h (l₁ ++ l₂) ∧ m' n = ⟨none, none⟩ ∧
      ∀ x ∉ h :: (l₁ ++ n :: l₂), m' x = m x := by
  have hnext : (m n).next = some (l₂.headD h) := (path_append.mp hr.next).2.first
  have hreverse := hr.prev
  rw [List.reverse_append, List.reverse_cons, List.append_assoc, List.singleton_append]
    at hreverse
  have hprev : (m n).prev = some (l₁.getLastD h) := by
    rw [← headD_reverse]
    exact (path_append.mp hreverse).2.first
  have hperm : (h :: (l₁ ++ n :: l₂)).Perm (n :: h :: (l₁ ++ l₂)) :=
    (List.perm_middle.cons h).trans (List.Perm.swap n h _)
  obtain ⟨hn, hrest⟩ := List.nodup_cons.mp (hperm.nodup_iff.mp hnodup)
  have hlast : l₁.getLastD h ∈ h :: (l₁ ++ l₂) := getLastD_mem_cons_append l₁ l₂
  have hhead : l₂.headD h ∈ h :: (l₁ ++ l₂) := headD_mem_cons_append l₁ l₂
  have hnlast : l₁.getLastD h ≠ n := fun heq => hn (heq ▸ hlast)
  have hnhead : l₂.headD h ≠ n := fun heq => hn (heq ▸ hhead)
  rw [Zeos.listDel, hprev, hnext]
  refine ⟨_, rfl, ⟨?_, ?_⟩, ?_, fun x hx => ?_⟩
  · refine hr.next.remove hrest ?_ fun x hx hne => ?_
    · rw [Heap.setPrev_next, Heap.setNext_next, if_neg hnlast, Heap.setNext_next, if_pos rfl,
        hnext]
    · have hxn : x ≠ n := fun heq => hn (heq ▸ hx)
      rw [Heap.setPrev_next, Heap.setNext_next, if_neg hxn, Heap.setNext_next, if_neg hne,
        Heap.setPrev_next]
  · rw [List.reverse_append]
    have hrest' := nodup_cons_reverse.mpr hrest
    rw [List.reverse_append] at hrest'
    refine hreverse.remove hrest' ?_ fun x hx hne => ?_
    · rw [getLastD_reverse, Heap.setPrev_prev, if_neg hnhead, Heap.setNext_prev,
        Heap.setNext_prev, Heap.setPrev_prev, if_pos rfl, hprev]
    · rw [getLastD_reverse] at hne
      rw [← List.reverse_append, mem_cons_reverse] at hx
      have hxn : x ≠ n := fun heq => hn (heq ▸ hx)
      rw [Heap.setPrev_prev, if_neg hxn, Heap.setNext_prev, Heap.setNext_prev,
        Heap.setPrev_prev, if_neg hne]
  · simp only [Heap.setPrev, Heap.setNext, Function.update_self]
  · rw [hperm.mem_iff, List.mem_cons, not_or] at hx
    obtain ⟨hxn, hout⟩ := hx
    have hxlast : x ≠ l₁.getLastD h := fun heq => hout (heq ▸ hlast)
    have hxhead : x ≠ l₂.headD h := fun heq => hout (heq ▸ hhead)
    rw [Heap.setPrev_of_ne _ _ _ _ hxn, Heap.setNext_of_ne _ _ _ _ hxn,
      Heap.setNext_of_ne _ _ _ _ hxlast, Heap.setPrev_of_ne _ _ _ _ hxhead]

/-- `list_add` puts the new entry first. -/
theorem Ring.listAdd (hr : Ring m h l) (hnodup : (h :: l).Nodup) (hn : n ∉ h :: l) :
    ∃ m', listAdd m n h = some m' ∧ Ring m' h (n :: l) ∧ ∀ x ∉ h :: n :: l, m' x = m x := by
  have hr' : Ring m h ([] ++ l) := hr
  rw [Zeos.listAdd, hr.next.first]
  exact hr'.listAdd_between hnodup hn

/-- `list_add_tail` puts it last. -/
theorem Ring.listAddTail (hr : Ring m h l) (hnodup : (h :: l).Nodup) (hn : n ∉ h :: l) :
    ∃ m', listAddTail m n h = some m' ∧ Ring m' h (l ++ [n]) ∧
      ∀ x ∉ h :: (l ++ [n]), m' x = m x := by
  rw [Zeos.listAddTail, hr.prev.first, headD_reverse]
  rw [← List.append_nil l] at hr hnodup hn
  simpa only [List.append_nil, List.headD_nil] using hr.listAdd_between hnodup hn

theorem Ring.listEmpty_iff (hr : Ring m h l) (hnodup : (h :: l).Nodup) :
    listEmpty m h ≠ 0 ↔ l = [] := by
  have hif : listEmpty m h ≠ 0 ↔ (m h).next = some h :=
    ite_ne_right_iff.trans (and_iff_left Int.one_ne_zero)
  rw [hif, hr.next.first, Option.some_inj]
  cases l with
  | nil => exact iff_of_true rfl rfl
  | cons c l =>
      refine iff_of_false (fun hc => ?_) (List.cons_ne_nil c l)
      have hmem : (c :: l).headD h ∈ c :: l := List.mem_cons_self
      exact (List.nodup_cons.mp hnodup).1 (hc ▸ hmem)

end Ring

/-! ## All lists -/

/-- The lists there are: the nodes of each head, and `none` for an address that is no
head. -/
abbrev Lists (α : Type*) := α → Option (List α)

/-- The address is neither a head nor in a list. -/
def Lists.Fresh (s : Lists α) (n : α) : Prop :=
  s n = none ∧ ∀ h l, s h = some l → n ∉ l

/-- The operations on lists. -/
inductive ListOp (α : Type*)
  | init (head : α)
  | add (new head : α)
  | addTail (new head : α)
  | del (entry : α)

/-- What the call does to the heap. -/
def listExec [DecidableEq α] (m : Heap α) : ListOp α → Option (Heap α)
  | .init head => some (initListHead m head)
  | .add new head => listAdd m new head
  | .addTail new head => listAddTail m new head
  | .del entry => listDel m entry

/-- What the operations are for.  A head is set up as an empty list; what is added is
neither a head nor in a list, and comes first or last; what is deleted is in a list.
Each operation changes one list. -/
inductive ListStep [DecidableEq α] : Lists α → ListOp α → Lists α → Prop
  | init {s : Lists α} {h : α} (hh : s.Fresh h) :
      ListStep s (.init h) (Function.update s h (some []))
  | add {s : Lists α} {n h : α} {l : List α} (hn : s.Fresh n) (hl : s h = some l) :
      ListStep s (.add n h) (Function.update s h (some (n :: l)))
  | addTail {s : Lists α} {n h : α} {l : List α} (hn : s.Fresh n) (hl : s h = some l) :
      ListStep s (.addTail n h) (Function.update s h (some (l ++ [n])))
  | del {s : Lists α} {n h : α} {l₁ l₂ : List α} (hl : s h = some (l₁ ++ n :: l₂)) :
      ListStep s (.del n) (Function.update s h (some (l₁ ++ l₂)))

/-- Runs of the operations. -/
inductive ListRun [DecidableEq α] : Lists α → List (ListOp α) → Lists α → Prop
  | nil (s : Lists α) : ListRun s [] s
  | cons {s s' s'' : Lists α} {op : ListOp α} {ops : List (ListOp α)}
      (hstep : ListStep s op s') (hrun : ListRun s' ops s'') : ListRun s (op :: ops) s''

/-- Memory holds the lists, no address being in two of them or twice in one. -/
structure Represents (m : Heap α) (s : Lists α) : Prop where
  ring : ∀ h l, s h = some l → Ring m h l
  nodup : ∀ h l, s h = some l → (h :: l).Nodup
  apart : ∀ h l h' l', s h = some l → s h' = some l' → h ≠ h' →
    ∀ x ∈ h :: l, x ∉ h' :: l'

/-- Any memory holds no lists. -/
theorem represents_none (m : Heap α) : Represents m (fun _ => none) :=
  ⟨fun _ _ hl => absurd hl (by simp), fun _ _ hl => absurd hl (by simp),
    fun _ _ _ _ hl => absurd hl (by simp)⟩

section Represents

variable {m m' : Heap α} {s s' : Lists α} {h n : α} {l : List α}

theorem Lists.Fresh.notMem (hn : s.Fresh n) (hl : s h = some l) : n ∉ h :: l := by
  rw [List.mem_cons, not_or]
  refine ⟨?_, hn.2 h l hl⟩
  rintro rfl
  rw [hn.1] at hl
  exact absurd hl (by simp)

variable [DecidableEq α]

/-- An address stays free when a list changes that it is not added to. -/
theorem Lists.Fresh.update (hn : s.Fresh n) (hh : n ≠ h) (hl : n ∉ l) :
    Lists.Fresh (Function.update s h (some l)) n := by
  refine ⟨(Function.update_of_ne hh _ _).trans hn.1, fun h' l' hl' => ?_⟩
  by_cases heq : h' = h
  · rw [heq, Function.update_self, Option.some_inj] at hl'
    rwa [← hl']
  · rw [Function.update_of_ne heq] at hl'
    exact hn.2 h' l' hl'

/-- **Changing one list** keeps the others, if it stays apart from them and so do the
stores. -/
theorem Represents.update (hs : Represents m s) (hring : Ring m' h l) (hnodup : (h :: l).Nodup)
    (hframe : ∀ h' l', s h' = some l' → h' ≠ h → ∀ x ∈ h' :: l', x ∉ h :: l ∧ m' x = m x) :
    Represents m' (Function.update s h (some l)) := by
  refine ⟨fun h' l' hl' => ?_, fun h' l' hl' => ?_, fun h₁ l₁ h₂ l₂ hl₁ hl₂ hne x hx => ?_⟩
  · by_cases heq : h' = h
    · rw [heq, Function.update_self, Option.some_inj] at hl'
      rw [heq, ← hl']
      exact hring
    · rw [Function.update_of_ne heq] at hl'
      exact (hs.ring h' l' hl').congr fun x hx => (hframe h' l' hl' heq x hx).2
  · by_cases heq : h' = h
    · rw [heq, Function.update_self, Option.some_inj] at hl'
      rw [heq, ← hl']
      exact hnodup
    · rw [Function.update_of_ne heq] at hl'
      exact hs.nodup h' l' hl'
  · by_cases heq₁ : h₁ = h
    · rw [heq₁, Function.update_self, Option.some_inj] at hl₁
      rw [heq₁, ← hl₁] at hx
      have heq₂ : h₂ ≠ h := fun heq => hne (heq₁.trans heq.symm)
      rw [Function.update_of_ne heq₂] at hl₂
      exact fun hx₂ => (hframe h₂ l₂ hl₂ heq₂ x hx₂).1 hx
    · rw [Function.update_of_ne heq₁] at hl₁
      by_cases heq₂ : h₂ = h
      · rw [heq₂, Function.update_self, Option.some_inj] at hl₂
        rw [heq₂, ← hl₂]
        exact (hframe h₁ l₁ hl₁ heq₁ x hx).1
      · rw [Function.update_of_ne heq₂] at hl₂
        exact hs.apart h₁ l₁ h₂ l₂ hl₁ hl₂ hne x hx

/-- A free node comes into a list, at either end of it. -/
theorem Represents.insert (hs : Represents m s) (hn : s.Fresh n) (hl : s h = some l)
    {l' : List α} (hperm : l'.Perm (n :: l)) (hring : Ring m' h l')
    (hframe : ∀ x ∉ h :: l', m' x = m x) :
    Represents m' (Function.update s h (some l')) := by
  have hall : (h :: l').Perm (n :: h :: l) := (hperm.cons h).trans (List.Perm.swap n h l)
  have hnodup : (n :: h :: l).Nodup := List.nodup_cons.mpr ⟨hn.notMem hl, hs.nodup h l hl⟩
  refine hs.update hring (hall.nodup_iff.mpr hnodup) fun h₂ l₂ hl₂ hne x hx => ?_
  have hxn : x ≠ n := fun heq => hn.notMem hl₂ (heq ▸ hx)
  have hxl := hs.apart h₂ l₂ h l hl₂ hl hne x hx
  have hout : x ∉ h :: l' := by
    rw [hall.mem_iff, List.mem_cons, not_or]
    exact ⟨hxn, hxl⟩
  exact ⟨hout, hframe x hout⟩

/-- **Each operation runs in step with the lists.** -/
theorem Represents.step (hs : Represents m s) {op : ListOp α} (hstep : ListStep s op s') :
    ∃ m', listExec m op = some m' ∧ Represents m' s' ∧
      ∀ n, op = .del n → m' n = ⟨none, none⟩ := by
  -- each operation changes one ring, and the others are apart from it
  cases hstep with
  | @init h hh =>
      refine ⟨_, rfl, hs.update (ring_initListHead m h) (List.nodup_singleton h) ?_, ?_⟩
      · intro h' l' hl' hne x hx
        have hxh : x ≠ h := fun heq => hh.notMem hl' (heq ▸ hx)
        refine ⟨by simpa using hxh, ?_⟩
        rw [initListHead, Heap.setPrev_of_ne _ _ _ _ hxh, Heap.setNext_of_ne _ _ _ _ hxh]
      · intro n hop
        exact absurd hop (by simp)
  | @add n h l hn hl =>
      obtain ⟨m', hexec, hring, hframe⟩ :=
        (hs.ring h l hl).listAdd (hs.nodup h l hl) (hn.notMem hl)
      exact ⟨m', hexec, hs.insert hn hl (List.Perm.refl _) hring hframe,
        fun n hop => absurd hop (by simp)⟩
  | @addTail n h l hn hl =>
      obtain ⟨m', hexec, hring, hframe⟩ :=
        (hs.ring h l hl).listAddTail (hs.nodup h l hl) (hn.notMem hl)
      exact ⟨m', hexec, hs.insert hn hl (List.perm_append_singleton n l) hring hframe,
        fun n hop => absurd hop (by simp)⟩
  | @del n h l₁ l₂ hl =>
      obtain ⟨m', hexec, hring, hnull, hframe⟩ := (hs.ring h _ hl).listDel (hs.nodup h _ hl)
      have hperm : (h :: (l₁ ++ n :: l₂)).Perm (n :: h :: (l₁ ++ l₂)) :=
        (List.perm_middle.cons h).trans (List.Perm.swap n h _)
      refine ⟨m', hexec, hs.update hring ?_ fun h' l' hl' hne x hx => ?_, fun n' hop => ?_⟩
      · exact (List.nodup_cons.mp (hperm.nodup_iff.mp (hs.nodup h _ hl))).2
      · have hxl := hs.apart h' l' h _ hl' hl hne x hx
        refine ⟨fun hmem => hxl ?_, hframe x hxl⟩
        rw [hperm.mem_iff]
        exact List.mem_cons_of_mem n hmem
      · obtain rfl : n = n' := ListOp.del.inj hop
        exact hnull

/-- A whole run does. -/
theorem Represents.run (hs : Represents m s) {ops : List (ListOp α)} (hrun : ListRun s ops s') :
    ∃ m', ops.foldlM listExec m = some m' ∧ Represents m' s' := by
  induction hrun generalizing m with
  | nil s => exact ⟨m, rfl, hs⟩
  | cons hstep _ ih =>
      obtain ⟨m₁, hexec, hs₁, -⟩ := hs.step hstep
      obtain ⟨m', hexec', hs'⟩ := ih hs₁
      refine ⟨m', ?_, hs'⟩
      rw [List.foldlM_cons, hexec]
      exact hexec'

/-- `list_is_last` for a node of any of the lists. -/
theorem Represents.listIsLast_iff (hs : Represents m s) (hl : s h = some l) {h' : α}
    {l' : List α} (hl' : s h' = some l') (hn : n ∈ l') :
    listIsLast m n h ≠ 0 ↔ l.getLast? = some n := by
  have hif : listIsLast m n h ≠ 0 ↔ (m n).next = some h :=
    ite_ne_right_iff.trans (and_iff_left Int.one_ne_zero)
  obtain ⟨l₁, l₂, rfl⟩ := List.append_of_mem hn
  have hnext : (m n).next = some (l₂.headD h') := (path_append.mp (hs.ring h' _ hl').next).2.first
  rw [hif, hnext, Option.some_inj]
  by_cases heq : h' = h
  · subst heq
    obtain rfl : l₁ ++ n :: l₂ = l := Option.some_inj.mp (hl'.symm.trans hl)
    obtain ⟨hhead, hnodup⟩ := List.nodup_cons.mp (hs.nodup h' _ hl)
    cases l₂ with
    | nil => exact iff_of_true rfl (List.getLast?_concat)
    | cons c l₂ =>
        refine iff_of_false (fun hc => hhead ?_) fun hlast => ?_
        · rw [← hc]
          simp
        · -- the last node is behind `n`
          have hmem : n ∈ c :: l₂ := by
            rw [List.getLast?_append, List.getLast?_cons_cons] at hlast
            exact List.mem_of_getLast? (by simpa using hlast)
          exact (List.nodup_cons.mp (List.nodup_append.mp hnodup).2.1).1 hmem
  · -- neither `h` nor the nodes of its list are in the other one
    have hapart := hs.apart h' _ h l hl' hl heq
    refine iff_of_false (fun hc => ?_) fun hlast => ?_
    · have hmem : l₂.headD h' ∈ h' :: (l₁ ++ n :: l₂) := by
        cases l₂ with
        | nil => exact List.mem_cons_self
        | cons c l₂ => simp
      exact hapart _ hmem (hc ▸ List.mem_cons_self)
    · exact hapart n (List.mem_cons_of_mem h' hn)
        (List.mem_cons_of_mem h (List.mem_of_getLast? hlast))

end Represents

/-! ## Runs -/

section Runs

variable [DecidableEq α]

/-- The lists `s` stand in memory after the operations `ops`. -/
structure ListsCorrect (ops : List (ListOp α)) (s : Lists α) (m : Heap α) : Prop where
  distinct : ∀ h l, s h = some l → (h :: l).Nodup
  next : ∀ h l, s h = some l → Path (fun x => (m x).next) h l h
  prev : ∀ h l, s h = some l → Path (fun x => (m x).prev) h l.reverse h
  apart : ∀ h l h' l', s h = some l → s h' = some l' → h ≠ h' → ∀ x ∈ h :: l, x ∉ h' :: l'
  /-- The node that has just been deleted points nowhere. -/
  deleted : ∀ pre n, ops = pre ++ [.del n] → m n = ⟨none, none⟩
  empty : ∀ h l, s h = some l → (listEmpty m h ≠ 0 ↔ l = [])
  last : ∀ h l h' l' n, s h = some l → s h' = some l' → n ∈ l' →
    (listIsLast m n h ≠ 0 ↔ l.getLast? = some n)

theorem listRun_append {s s'' : Lists α} {ops : List (ListOp α)} {op : ListOp α}
    (hrun : ListRun s (ops ++ [op]) s'') :
    ∃ s', ListRun s ops s' ∧ ListStep s' op s'' := by
  induction ops generalizing s with
  | nil =>
      cases hrun with
      | cons hstep hrest =>
          cases hrest
          exact ⟨s, ListRun.nil s, hstep⟩
  | cons op' ops ih =>
      cases hrun with
      | cons hstep hrest =>
          obtain ⟨s', hrun', hlast⟩ := ih hrest
          exact ⟨s', ListRun.cons hstep hrun', hlast⟩

/-- **The lists are correct in every run**, from any memory and before any head is set
up. -/
theorem lists_run (m : Heap α) {ops : List (ListOp α)} {s : Lists α}
    (hrun : ListRun (fun _ => none) ops s) :
    ∃ m', ops.foldlM listExec m = some m' ∧ ListsCorrect ops s m' := by
  have hinit := represents_none m
  obtain ⟨m', hexec, hs⟩ := hinit.run hrun
  refine ⟨m', hexec, hs.nodup, fun h l hl => (hs.ring h l hl).next,
    fun h l hl => (hs.ring h l hl).prev, hs.apart, ?_,
    fun h l hl => (hs.ring h l hl).listEmpty_iff (hs.nodup h l hl),
    fun h l h' l' n hl hl' hn => hs.listIsLast_iff hl hl' hn⟩
  rintro pre n rfl
  obtain ⟨s₁, hrun₁, hstep⟩ := listRun_append hrun
  obtain ⟨m₁, hexec₁, hs₁⟩ := hinit.run hrun₁
  obtain ⟨m₂, hexec₂, -, hnull⟩ := hs₁.step hstep
  rw [List.foldlM_append, hexec₁] at hexec
  obtain rfl : m₂ = m' := by
    simpa [List.foldlM_cons, hexec₂] using hexec
  exact hnull n rfl

end Runs

/-- Two nodes come and one of them goes. -/
theorem lists_run_four :
    ∃ m', [ListOp.init 0, .add 1 0, .addTail 2 0, .del 1].foldlM listExec
        (fun _ : ℕ => ⟨none, none⟩) = some m' ∧
      ListsCorrect [.init 0, .add 1 0, .addTail 2 0, .del 1]
        (Function.update (Function.update (Function.update (Function.update
          (fun _ => none) 0 (some [])) 0 (some [1])) 0 (some ([1] ++ [2]))) 0 (some ([] ++ [2])))
        m' := by
  have hfresh : ∀ n : ℕ, Lists.Fresh (fun _ => none) n := fun n =>
    ⟨rfl, fun _ _ hl => absurd hl (by simp)⟩
  have hone : Lists.Fresh (Function.update (fun _ => none) 0 (some [])) 1 :=
    (hfresh 1).update (by decide) (by decide)
  have htwo : Lists.Fresh (Function.update (Function.update (fun _ => none) 0 (some []))
      0 (some [1])) 2 :=
    ((hfresh 2).update (by decide) (by decide)).update (by decide) (by decide)
  exact lists_run _ (.cons (.init (hfresh 0)) (.cons (.add hone rfl)
    (.cons (.addTail htwo rfl) (.cons (.del rfl) (.nil _)))))

end Zeos
