import Zeos.Lists
import Zeos.Machine.Run

/-!
# Traversing a list that is being changed (`list.h`)

`list_for_each_safe` keeps a second cursor, the successor of the node that is visited, so
that the loop body may delete that node and put it into another list.  A body is any
function of what it has seen so far, of memory and of the node, that says what becomes of
the node.

What is left of the list in a round is what the body has kept of the nodes visited, and
then the nodes not yet visited; the other lists have grown by the nodes moved to them
(`Lists.after`).  A round takes the operations of `list.c` that lead from this state of
the lists to the next (`listRun_after`), and so runs in step with them.

The rounds are those of the macro: the successor is read before the body runs.  The one
hypothesis on the body is that a node is moved to a list that exists and is not the one
traversed.  It is load-bearing: a node that is put back at the end would be visited again,
and the loop need not end.  That it ends is part of the result (`safeTraversal`), as the
membership in `eval`, together with the nodes visited, in order, and the contents of all
lists at the end.
-/

namespace Zeos

open Machine StateTransition

/-! ## The loop -/

/-- What a loop body does with the node that is visited: nothing, `list_del`, or
`list_del` and `list_add_tail` to another list. -/
inductive Choice (α : Type*)
  | keep
  | del
  | move (other : α)

/-- A step of a traversal: the `next` pointer of an entry is followed, or a node has been
visited. -/
inductive TraversalEvent (α : Type*)
  | follow (entry : α)
  | visit (node : α) (choice : Choice α)

/-- The variables of `list_for_each_safe`, with memory, what the body keeps to itself, and
a record of the events. -/
structure Traversal (α τ : Type*) where
  pos : α
  n : Option α
  mem : Heap α
  body : τ
  events : List (TraversalEvent α)

section Loop

universe u

variable {α τ : Type u} [DecidableEq α]

/-- The part of a loop body that concerns the lists. -/
def runChoice (m : Heap α) (pos : α) : Choice α → Option (Heap α)
  | .keep => some m
  | .del => listDel m pos
  | .move other => do
      let m ← listDel m pos
      listAddTail m pos other

/-- `pos = (head)->next, n = pos->next`. -/
def startTraversal (head : α) (m : Heap α) (body : τ) : Option (Traversal α τ) := do
  let pos ← (m head).next
  return { pos := pos, n := (m pos).next, mem := m, body := body,
           events := [.follow head, .follow pos] }

/-- A round of the loop: the body, and `pos = n, n = pos->next`.  There is none if `pos`
is the head, where the loop ends, and none either if it runs into a null pointer. -/
def traversalStep (head : α) (choose : τ → Heap α → α → Choice α × τ) (s : Traversal α τ) :
    Option (Traversal α τ) :=
  if s.pos = head then none
  else do
    let (choice, body) := choose s.body s.mem s.pos
    let m ← runChoice s.mem s.pos choice
    let pos ← s.n
    return { pos := pos, n := (m pos).next, mem := m, body := body,
             events := s.events ++ [.visit s.pos choice, .follow pos] }

end Loop

/-! ## What has become of the nodes -/

section Log

variable {α : Type*}

/-- The node and the choice, if the event is the body's run on a node. -/
def TraversalEvent.visited : TraversalEvent α → Option (α × Choice α)
  | follow _ => none
  | visit node choice => some (node, choice)

/-- The nodes visited, with what the body did. -/
def visits (events : List (TraversalEvent α)) : List (α × Choice α) :=
  events.filterMap TraversalEvent.visited

/-- The pointer of a node is followed before the node is visited, and so before it can be
deleted. -/
def InOrder : TraversalEvent α → TraversalEvent α → Prop
  | .visit node _, .follow entry => node ≠ entry
  | _, _ => True

theorem mem_visits {events : List (TraversalEvent α)} {x : α} {c : Choice α}
    (h : .visit x c ∈ events) : x ∈ (visits events).map Prod.fst :=
  List.mem_map.mpr ⟨(x, c), List.mem_filterMap.mpr ⟨_, h, rfl⟩, rfl⟩

/-- A visit, and the next pointer: it is in order if the entry has not been visited. -/
theorem inOrder_append {events : List (TraversalEvent α)} {x y : α} {c : Choice α}
    (h : events.Pairwise InOrder) (hy : y ∉ (visits events).map Prod.fst) (hxy : x ≠ y) :
    List.Pairwise InOrder (events ++ [TraversalEvent.visit x c, TraversalEvent.follow y]) := by
  refine List.pairwise_append.mpr ⟨h, List.pairwise_pair.mpr hxy, fun e he e' he' => ?_⟩
  cases e with
  | follow z => trivial
  | visit z c' =>
      have hz := mem_visits he
      rcases List.mem_cons.mp he' with rfl | hlast
      · trivial
      · rw [List.mem_singleton.mp hlast]
        exact fun heq => hy (heq ▸ hz)

/-- Whether the body leaves the node where it is. -/
def Choice.keeps : Choice α → Bool
  | keep => true
  | _ => false

/-- The nodes that have been kept. -/
def keptNodes (log : List (α × Choice α)) : List α :=
  (log.filter fun v => v.2.keeps).map Prod.fst

/-- The nodes of a log for which the body did a certain thing, one visit later. -/
private theorem filter_concat (p : Choice α → Bool) (log : List (α × Choice α)) (x : α)
    (c : Choice α) :
    ((log ++ [(x, c)]).filter fun v => p v.2).map Prod.fst =
      (log.filter fun v => p v.2).map Prod.fst ++ if p c then [x] else [] := by
  rw [List.filter_append, List.map_append]
  cases hc : p c <;> simp [hc]

theorem keptNodes_concat (log : List (α × Choice α)) (x : α) (c : Choice α) :
    keptNodes (log ++ [(x, c)]) = keptNodes log ++ if c.keeps then [x] else [] :=
  filter_concat Choice.keeps log x c

variable [DecidableEq α]

/-- Whether the body moves the node to the list of `h`. -/
def Choice.movesTo (h : α) : Choice α → Bool
  | move other => decide (other = h)
  | _ => false

/-- The nodes that have been moved to the list of `h`. -/
def movedNodes (h : α) (log : List (α × Choice α)) : List α :=
  (log.filter fun v => v.2.movesTo h).map Prod.fst

/-- The lists during a traversal of that of `head`, with the nodes `rest` still to be
visited. -/
def Lists.after (s : Lists α) (head : α) (log : List (α × Choice α)) (rest : List α) :
    Lists α := fun h =>
  if h = head then some (keptNodes log ++ rest)
  else (s h).map fun l => l ++ movedNodes h log

theorem movedNodes_concat (h : α) (log : List (α × Choice α)) (x : α) (c : Choice α) :
    movedNodes h (log ++ [(x, c)]) = movedNodes h log ++ if c.movesTo h then [x] else [] :=
  filter_concat (Choice.movesTo h) log x c

section After

variable {s : Lists α} {head x h : α} {log : List (α × Choice α)} {rest l : List α}

theorem Lists.after_head : s.after head log rest head = some (keptNodes log ++ rest) :=
  if_pos rfl

theorem Lists.after_of_ne (hne : h ≠ head) :
    s.after head log rest h = (s h).map fun l => l ++ movedNodes h log :=
  if_neg hne

/-- Before the first round the lists are as they were. -/
theorem Lists.after_nil (hl : s head = some l) : s.after head [] l = s := by
  ext h : 1
  by_cases heq : h = head
  · rw [heq, after_head, hl]
    rfl
  · rw [after_of_ne heq]
    cases s h with
    | none => rfl
    | some l' => exact congrArg some (List.append_nil l')

/-- The list operations of a round. -/
def choiceOps (x : α) : Choice α → List (ListOp α)
  | .keep => []
  | .del => [.del x]
  | .move other => [.del x, .addTail x other]

theorem runChoice_eq (m : Heap α) (x : α) (c : Choice α) :
    runChoice m x c = (choiceOps x c).foldlM listExec m := by
  cases c with
  | keep => rfl
  | del => exact (bind_pure (listDel m x)).symm
  | move other =>
      show (listDel m x >>= fun m => listAddTail m x other) =
        listDel m x >>= fun m => listAddTail m x other >>= pure
      simp only [bind_pure]

/-- A node that has been taken out of its list is free. -/
theorem Represents.fresh_of_del {m : Heap α} {l₁ l₂ : List α} (hs : Represents m s)
    (hl : s h = some (l₁ ++ x :: l₂)) :
    Lists.Fresh (Function.update s h (some (l₁ ++ l₂))) x := by
  have hx : x ∈ h :: (l₁ ++ x :: l₂) := by simp
  have hnodup := (List.perm_middle.cons h).nodup_iff.mp (hs.nodup h _ hl)
  obtain ⟨hhead, hrest⟩ := List.nodup_cons.mp hnodup
  have hxh : x ≠ h := fun heq => hhead (heq ▸ List.mem_cons_self)
  constructor
  · rw [Function.update_of_ne hxh]
    cases hsx : s x with
    | none => rfl
    | some l => exact absurd hx (hs.apart x l h _ hsx hl hxh x List.mem_cons_self)
  · intro h' l' hl' hmem
    by_cases heq : h' = h
    · rw [heq, Function.update_self, Option.some_inj] at hl'
      rw [← hl'] at hmem
      exact (List.nodup_cons.mp hrest).1 hmem
    · rw [Function.update_of_ne heq] at hl'
      exact hs.apart h' l' h _ hl' hl heq x (List.mem_cons_of_mem h' hmem) hx

/-- Keeping a node changes no list. -/
theorem Lists.after_keep :
    s.after head (log ++ [(x, .keep)]) rest = s.after head log (x :: rest) := by
  ext h : 1
  by_cases hh : h = head
  · rw [hh, after_head, after_head, keptNodes_concat, List.append_assoc]
    rfl
  · rw [after_of_ne hh, after_of_ne hh, movedNodes_concat]
    simp only [Choice.movesTo, Bool.false_eq_true, if_false, List.append_nil]

/-- Deleting a node changes the list of `head`. -/
theorem Lists.after_del :
    s.after head (log ++ [(x, .del)]) rest =
      Function.update (s.after head log (x :: rest)) head (some (keptNodes log ++ rest)) := by
  ext h : 1
  by_cases hh : h = head
  · rw [hh, after_head, Function.update_self, keptNodes_concat]
    simp only [Choice.keeps, Bool.false_eq_true, if_false, List.append_nil]
  · rw [after_of_ne hh, Function.update_of_ne hh, after_of_ne hh, movedNodes_concat]
    simp only [Choice.movesTo, Bool.false_eq_true, if_false, List.append_nil]

/-- Moving a node changes that list and one other. -/
theorem Lists.after_move {other : α} (hother : other ≠ head) (hl : s other = some l) :
    s.after head (log ++ [(x, .move other)]) rest =
      Function.update (Function.update (s.after head log (x :: rest)) head
        (some (keptNodes log ++ rest))) other (some (l ++ movedNodes other log ++ [x])) := by
  ext h : 1
  by_cases hh : h = other
  · rw [hh, after_of_ne hother, Function.update_self, movedNodes_concat, hl]
    simp only [Choice.movesTo, decide_true, if_true, Option.map_some, List.append_assoc]
  · rw [Function.update_of_ne hh]
    by_cases hhead : h = head
    · rw [hhead, after_head, Function.update_self, keptNodes_concat]
      simp only [Choice.keeps, Bool.false_eq_true, if_false, List.append_nil]
    · have hmoves : Choice.movesTo h (.move other) = false := decide_eq_false (Ne.symm hh)
      rw [after_of_ne hhead, Function.update_of_ne hhead, after_of_ne hhead,
        movedNodes_concat, hmoves]
      simp only [Bool.false_eq_true, if_false, List.append_nil]

/-- **A round is a run of list operations**, from the lists before it to the lists behind
it. -/
theorem listRun_after {m : Heap α} {c : Choice α}
    (hs : Represents m (s.after head log (x :: rest)))
    (hc : ∀ other, c = .move other → other ≠ head ∧ ∃ l, s other = some l) :
    ListRun (s.after head log (x :: rest)) (choiceOps x c)
      (s.after head (log ++ [(x, c)]) rest) := by
  have hhead : s.after head log (x :: rest) head = some (keptNodes log ++ x :: rest) :=
    Lists.after_head
  have hdel := ListStep.del hhead
  cases c with
  | keep =>
      rw [Lists.after_keep]
      exact ListRun.nil _
  | del =>
      rw [Lists.after_del]
      exact ListRun.cons hdel (ListRun.nil _)
  | move other =>
      obtain ⟨hother, l, hl⟩ := hc other rfl
      have hafter : Function.update (s.after head log (x :: rest)) head
          (some (keptNodes log ++ rest)) other = some (l ++ movedNodes other log) := by
        rw [Function.update_of_ne hother, Lists.after_of_ne hother, hl]
        rfl
      have hadd := ListStep.addTail (hs.fresh_of_del hhead) hafter
      rw [Lists.after_move hother hl]
      exact ListRun.cons hdel (ListRun.cons hadd (ListRun.nil _))

end After

end Log

/-! ## The traversal -/

section Traversal

universe u

variable {α τ : Type u} [DecidableEq α] {head : α} {s : Lists α} {l : List α}
  {choose : τ → Heap α → α → Choice α × τ}

/-- The traversal has visited `done` and still has `rest` before it. -/
structure Traversed (head : α) (s : Lists α) (done rest : List α) (t : Traversal α τ) :
    Prop where
  visited : (visits t.events).map Prod.fst = done
  lists : Represents t.mem (s.after head (visits t.events) rest)
  pos : t.pos = rest.headD head
  n : ∀ x rest', rest = x :: rest' → t.n = some (rest'.headD head)
  inOrder : t.events.Pairwise InOrder

/-- The successor of the first node that is still to be visited. -/
theorem next_of_represents {m : Heap α} {log : List (α × Choice α)} {x : α} {rest : List α}
    (hs : Represents m (s.after head log (x :: rest))) :
    (m x).next = some (rest.headD head) :=
  (path_append.mp (hs.ring head _ Lists.after_head).next).2.first

/-- Before the first round. -/
theorem traversed_start {m : Heap α} (hs : Represents m s) (hl : s head = some l) (body : τ) :
    ∃ t : Traversal α τ, startTraversal head m body = some t ∧ Traversed head s [] l t := by
  have hring := hs.ring head l hl
  refine ⟨_, by rw [startTraversal, hring.next.first]; rfl, ⟨rfl, ?_, rfl, ?_, ?_⟩⟩
  · show Represents m (s.after head [] l)
    rwa [Lists.after_nil hl]
  · rintro x rest' rfl
    exact (path_cons.mp hring.next).2.first
  · exact List.pairwise_pair.mpr trivial

/-- **One round** visits the next node, and what it does to that node does not take the
cursors off the list. -/
theorem Traversed.step {done rest : List α} {x : α} {t : Traversal α τ}
    (h : Traversed head s done (x :: rest) t)
    (hnodup : (head :: (done ++ [x] ++ rest)).Nodup)
    (hchoose : ∀ body m x other, (choose body m x).1 = .move other →
      other ≠ head ∧ ∃ l, s other = some l) :
    ∃ t', traversalStep head choose t = some t' ∧ Traversed head s (done ++ [x]) rest t' := by
  have hpos : t.pos = x := h.pos
  have hne : x ≠ head := by
    rintro rfl
    exact (List.nodup_cons.mp hnodup).1 (by simp)
  have hn : t.n = some (rest.headD head) := h.n x rest rfl
  generalize hc : choose t.body t.mem x = cb
  obtain ⟨c, body⟩ := cb
  have hrun := listRun_after h.lists (c := c) fun other hmove =>
    hchoose t.body t.mem x other (by rw [hc]; exact hmove)
  obtain ⟨m, hexec, hlists⟩ := h.lists.run hrun
  rw [← runChoice_eq] at hexec
  have hvisits : visits (t.events ++ [.visit x c, .follow (rest.headD head)]) =
      visits t.events ++ [(x, c)] := by
    rw [visits, List.filterMap_append]
    rfl
  refine ⟨{ pos := rest.headD head, n := (m (rest.headD head)).next, mem := m, body := body,
            events := t.events ++ [.visit x c, .follow (rest.headD head)] }, ?_, ?_⟩
  · simp only [traversalStep, hpos, if_neg hne, hc, hexec, hn, Option.bind_eq_bind,
      Option.bind_some, Option.pure_def]
  · constructor
    · rw [hvisits, List.map_append, h.visited]
      rfl
    · rw [hvisits]
      exact hlists
    · rfl
    · rintro y rest' rfl
      exact next_of_represents hlists
    · have hfresh : rest.headD head ∉ done ++ [x] := headD_notMem hnodup
      rw [List.mem_append, List.mem_singleton, not_or] at hfresh
      refine inOrder_append h.inOrder ?_ (Ne.symm hfresh.2)
      rw [h.visited]
      exact hfresh.1

/-- **A whole run** visits all of them. -/
theorem Traversed.run {done rest : List α} {t : Traversal α τ}
    (h : Traversed head s done rest t) (hnodup : (head :: (done ++ rest)).Nodup)
    (hchoose : ∀ body m x other, (choose body m x).1 = .move other →
      other ≠ head ∧ ∃ l, s other = some l) :
    ∃ t', Reaches (traversalStep head choose) t t' ∧
      Traversed head s (done ++ rest) [] t' := by
  induction rest generalizing done t with
  | nil =>
      rw [List.append_nil]
      exact ⟨t, Relation.ReflTransGen.refl, h⟩
  | cons x rest ih =>
      have hassoc : done ++ x :: rest = done ++ [x] ++ rest := by
        rw [List.append_assoc, List.singleton_append]
      rw [hassoc] at hnodup ⊢
      obtain ⟨t₁, hstep, ht₁⟩ := h.step hnodup hchoose
      obtain ⟨t', hreach, ht'⟩ := ih ht₁ hnodup
      exact ⟨t', Relation.ReflTransGen.head hstep hreach, ht'⟩

/-- The traversal of the list `l` of `head` has gone well: it has ended at the head, has
visited every node of the list once and in its order, has followed no pointer of a node
that had been visited before, let alone deleted, and has left in the list the nodes that
the body has kept.  The other lists have been extended by the nodes moved to them. -/
structure SafeTraversal (head : α) (s : Lists α) (l : List α) (t : Traversal α τ) :
    Prop where
  ended : t.pos = head
  visited : (visits t.events).map Prod.fst = l
  once : l.Nodup
  inOrder : t.events.Pairwise InOrder
  kept : Ring t.mem head (keptNodes (visits t.events))
  moved : ∀ h l', h ≠ head → s h = some l' →
    Ring t.mem h (l' ++ movedNodes h (visits t.events))
  lists : Represents t.mem (s.after head (visits t.events) [])

/-- **Deleting while traversing is safe**, for every loop body that moves nodes to other
lists only. -/
theorem safeTraversal {m : Heap α} (hs : Represents m s) (hl : s head = some l)
    (hchoose : ∀ body m x other, (choose body m x).1 = .move other →
      other ≠ head ∧ ∃ l, s other = some l) (body : τ) :
    ∃ t₀ t, startTraversal head m body = some t₀ ∧
      t ∈ eval (traversalStep head choose) t₀ ∧ SafeTraversal head s l t := by
  obtain ⟨t₀, ht₀, hstart⟩ := traversed_start hs hl body
  obtain ⟨t, hreach, ht⟩ := hstart.run (hs.nodup head l hl) hchoose
  rw [List.nil_append] at ht
  have hend : traversalStep head choose t = none := if_pos ht.pos
  refine ⟨t₀, t, ht₀, mem_eval.mpr ⟨hreach, hend⟩, ?_⟩
  constructor
  · exact ht.pos
  · exact ht.visited
  · exact (List.nodup_cons.mp (hs.nodup head l hl)).2
  · exact ht.inOrder
  · have hring := ht.lists.ring head _ Lists.after_head
    rwa [List.append_nil] at hring
  · intro h l' hne hl'
    refine ht.lists.ring h _ ?_
    rw [Lists.after_of_ne hne, hl']
    rfl
  · exact ht.lists

end Traversal

/-- The list of 0 is 1, 2, 3, and that of 9 is empty. -/
def circle : Heap ℕ
  | 0 => ⟨some 1, some 3⟩
  | 1 => ⟨some 2, some 0⟩
  | 2 => ⟨some 3, some 1⟩
  | 3 => ⟨some 0, some 2⟩
  | _ => ⟨some 9, some 9⟩

/-- A list of three nodes and an empty one. -/
def circleLists : Lists ℕ :=
  Function.update (Function.update (fun _ => none) 9 (some [])) 0 (some [1, 2, 3])

theorem represents_circle : Represents circle circleLists := by
  have hnine : Ring circle 9 [] := ⟨path_nil.mpr rfl, path_nil.mpr rfl⟩
  have hzero : Ring circle 0 [1, 2, 3] := by
    constructor
    · exact path_cons.mpr ⟨rfl, path_cons.mpr ⟨rfl, path_cons.mpr ⟨rfl, path_nil.mpr rfl⟩⟩⟩
    · exact path_cons.mpr ⟨rfl, path_cons.mpr ⟨rfl, path_cons.mpr ⟨rfl, path_nil.mpr rfl⟩⟩⟩
  have hone := (represents_none circle).update hnine (List.nodup_singleton 9)
    fun _ _ hl => absurd hl (by simp)
  refine hone.update hzero (by decide) fun h l hl hne x hx => ⟨?_, rfl⟩
  by_cases h9 : h = 9
  · rw [h9, Function.update_self, Option.some_inj] at hl
    rw [h9, ← hl, List.mem_singleton] at hx
    rw [hx]
    decide
  · rw [Function.update_of_ne h9] at hl
    exact absurd hl (by simp)

/-- The first node is kept, the second deleted, and the others moved. -/
def circleBody (body : Unit) (_ : Heap ℕ) (x : ℕ) : Choice ℕ × Unit :=
  if x = 1 then (.keep, body) else if x = 2 then (.del, body) else (.move 9, body)

theorem circleBody_move (body : Unit) (m : Heap ℕ) (x other : ℕ)
    (h : (circleBody body m x).1 = .move other) :
    other ≠ 0 ∧ ∃ l, circleLists other = some l := by
  unfold circleBody at h
  split at h
  · exact absurd h (by simp)
  · split at h
    · exact absurd h (by simp)
    · obtain rfl : 9 = other := Choice.move.inj h
      exact ⟨by decide, [], rfl⟩

theorem safeTraversal_circle : ∃ t₀ t, startTraversal 0 circle () = some t₀ ∧
    t ∈ eval (traversalStep 0 circleBody) t₀ ∧ SafeTraversal 0 circleLists [1, 2, 3] t :=
  safeTraversal represents_circle rfl circleBody_move ()

end Zeos
