import Mathlib.Computability.StateTransition
import Mathlib.Data.List.Basic

/-!
# Runs of a system that takes one step after another

A system is a function `step` from a state and an action to the next state; a run
is a list of actions.  `AllStates` says that a property holds in every state the
run passes through, the first and the last included, and `AllSteps` that every
action is taken in a state that meets a condition.

`allStates_iff_allSteps` is the rule for properties that one kind of step can
break: where a step keeps the property exactly when its condition is met, a run
keeps it throughout exactly when all its steps meet the condition.

A loop is a function `step` that returns `none` where the loop ends, and
`StateTransition.eval step` is its run to the end.  `reaches_of_progress` is the
rule for loops that count: steps that move a counter up and not past a target
reach the target.

`obs_foldl_latest` is the rule for maps: where each action sets what is observed under
its own key and nothing else, a run leaves under every key what the latest action on it
has set.

`rel_foldl_filter` compares a run with the run that leaves some actions out, and
`obs_foldl_filterMap` what is seen of a run with a run of a smaller system.
`allSteps_iff_forall_mem` is for conditions on the actions alone, and
`allSteps_iff_forall_append` for those on what a run has done before.

A system may put something out at a step.  `outputs_eq` is the simulation rule for what
two systems put out along a run.
-/

namespace Zeos.Machine

section Run

variable {σ α : Type*} (step : σ → α → σ)

/-- `P` holds in every state of the run. -/
def AllStates (P : σ → Prop) : σ → List α → Prop
  | s, [] => P s
  | s, a :: as => P s ∧ AllStates P (step s a) as

/-- Every action of the run is taken in a state that meets `G`. -/
def AllSteps (G : σ → α → Prop) : σ → List α → Prop
  | _, [] => True
  | s, a :: as => G s a ∧ AllSteps G (step s a) as

/-- Every state of a run has the property at its start. -/
theorem AllStates.head {P : σ → Prop} {s : σ} {as : List α}
    (h : AllStates step P s as) : P s := by
  cases as with
  | nil => exact h
  | cons a as => exact h.1

/-- The states of a run are the ends of its beginnings. -/
theorem allStates_iff_forall_foldl {P : σ → Prop} {s : σ} {as : List α} :
    AllStates step P s as ↔ ∀ bs, bs <+: as → P (bs.foldl step s) := by
  induction as generalizing s with
  | nil =>
      constructor
      · intro h bs hbs
        rw [List.prefix_nil.mp hbs]
        exact h
      · intro h
        exact h [] (List.prefix_refl [])
  | cons a as ih =>
      rw [AllStates, ih]
      constructor
      · rintro ⟨h₀, h⟩ bs hbs
        cases bs with
        | nil => exact h₀
        | cons b bs =>
            obtain ⟨rfl, hbs'⟩ := List.cons_prefix_cons.mp hbs
            exact h bs hbs'
      · intro h
        exact ⟨h [] (List.nil_prefix), fun bs hbs =>
          h (a :: bs) (List.cons_prefix_cons.mpr ⟨rfl, hbs⟩)⟩

/-- A condition that does not look at the state is one on the actions. -/
theorem allSteps_iff_forall_mem {G : α → Prop} {s : σ} {as : List α} :
    AllSteps step (fun _ a => G a) s as ↔ ∀ a ∈ as, G a := by
  induction as generalizing s with
  | nil => exact iff_of_true trivial fun a ha => absurd ha List.not_mem_nil
  | cons a as ih => rw [AllSteps, ih, List.forall_mem_cons]

/-- Two runs one after the other. -/
theorem allSteps_append {G : σ → α → Prop} {s : σ} {as bs : List α} :
    AllSteps step G s (as ++ bs) ↔ AllSteps step G s as ∧ AllSteps step G (as.foldl step s) bs := by
  induction as generalizing s with
  | nil => exact (true_and _).symm.to_iff
  | cons a as ih => rw [List.cons_append, AllSteps, AllSteps, ih, List.foldl_cons, and_assoc]

/-- The actions of a run are each taken at the end of a beginning. -/
theorem allSteps_iff_forall_append {G : σ → α → Prop} {s : σ} {as : List α} :
    AllSteps step G s as ↔ ∀ bs a cs, as = bs ++ a :: cs → G (bs.foldl step s) a := by
  induction as generalizing s with
  | nil =>
      refine iff_of_true trivial fun bs a cs h => ?_
      exact absurd h.symm (List.append_ne_nil_of_right_ne_nil bs (List.cons_ne_nil a cs))
  | cons a as ih =>
      rw [AllSteps, ih]
      constructor
      · rintro ⟨hhead, htail⟩ bs b cs h
        cases bs with
        | nil =>
            obtain ⟨rfl, -⟩ := List.cons_eq_cons.mp h
            exact hhead
        | cons b' bs =>
            obtain ⟨rfl, hrest⟩ := List.cons_eq_cons.mp h
            exact htail bs b cs hrest
      · intro hall
        exact ⟨hall [] a as rfl, fun bs b cs h => hall (a :: bs) b cs (by rw [h]; rfl)⟩

/-- The latest action on a key. -/
def latest {κ : Type*} [DecidableEq κ] (key : α → κ) (as : List α) (k : κ) : Option α :=
  (as.filter fun a => key a = k).getLast?

theorem latest_concat {κ : Type*} [DecidableEq κ] (key : α → κ) (as : List α) (a : α) (k : κ) :
    latest key (as ++ [a]) k = if key a = k then some a else latest key as k := by
  unfold latest
  rw [List.filter_append]
  split
  · next h => rw [List.filter_cons_of_pos (by simpa using h), List.filter_nil,
      List.getLast?_concat]
  · next h => rw [List.filter_cons_of_neg (by simpa using h), List.filter_nil,
      List.append_nil]

theorem mem_of_latest {κ : Type*} [DecidableEq κ] {key : α → κ} {as : List α} {k : κ} {a : α}
    (h : latest key as k = some a) : a ∈ as :=
  List.mem_of_mem_filter (List.mem_of_getLast? h)

/-- Where there is an action on a key, there is a latest one. -/
theorem latest_of_mem {κ : Type*} [DecidableEq κ] (key : α → κ) {as : List α} {b : α}
    (hb : b ∈ as) : ∃ a, latest key as (key b) = some a ∧ key a = key b := by
  have hmem : b ∈ as.filter fun a => key a = key b :=
    List.mem_filter.mpr ⟨hb, by simp⟩
  refine ⟨_, List.getLast?_eq_some_getLast (List.ne_nil_of_mem hmem), ?_⟩
  have hlast := List.getLast_mem (List.ne_nil_of_mem hmem)
  simpa using (List.mem_filter.mp hlast).2

/-- **The latest action decides.**  `V` is what the actions of the run have in common,
and `k` a key for which every such action is known to do what it should. -/
theorem obs_foldl_latest {κ β : Type*} [DecidableEq κ] {key : α → κ} {val : α → β}
    {obs : σ → κ → β} {V : α → Prop} {k : κ}
    (h : ∀ s a, V a → obs (step s a) k = if key a = k then val a else obs s k)
    (s : σ) {as : List α} (has : ∀ a ∈ as, V a) :
    obs (as.foldl step s) k = (latest key as k).elim (obs s k) val := by
  induction as using List.reverseRecOn with
  | nil => rfl
  | append_singleton as a ih =>
      have hlast := has a (List.mem_append_right as (List.mem_singleton_self a))
      have hbefore := ih fun b hb => has b (List.mem_append_left _ hb)
      rw [List.foldl_append, List.foldl_cons, List.foldl_nil, h _ a hlast, latest_concat]
      split
      · rfl
      · exact hbefore

/-- **Actions that cannot be seen may be left out.**  If two related states stay
related under every action that is kept, and under an action that is left out on
one side, a run ends related to what is kept of it. -/
theorem rel_foldl_filter {r : σ → σ → Prop} {keep : α → Bool}
    (hkeep : ∀ s s' a, r s s' → keep a = true → r (step s a) (step s' a))
    (hskip : ∀ s s' a, r s s' → keep a = false → r (step s a) s') {s s' : σ}
    (h : r s s') (as : List α) : r (as.foldl step s) ((as.filter keep).foldl step s') := by
  induction as generalizing s s' with
  | nil => exact h
  | cons a as ih =>
      cases ha : keep a with
      | true =>
          rw [List.filter_cons_of_pos ha]
          exact ih (hkeep s s' a h ha)
      | false =>
          rw [List.filter_cons_of_neg (by rw [ha]; exact Bool.false_ne_true)]
          exact ih (hskip s s' a h ha)

/-- What every step that meets its condition keeps holds at the end of a run of such
steps. -/
theorem AllSteps.foldl {J : σ → Prop} {G : σ → α → Prop}
    (hJ : ∀ s a, J s → G s a → J (step s a)) {s : σ} {as : List α} (hs : J s)
    (has : AllSteps step G s as) : J (as.foldl step s) := by
  induction as generalizing s with
  | nil => exact hs
  | cons a as ih => exact ih (hJ s a hs has.1) has.2

/-- **What an observer sees of a run is a run of what concerns him.**  `own` is what an
action is to the observer, if it is anything, and `J` an invariant. -/
theorem obs_foldl_filterMap {β τ : Type*} {J : σ → Prop} {G : σ → α → Prop} {obs : σ → τ}
    {own : α → Option β} {ownStep : τ → β → τ}
    (hJ : ∀ s a, J s → G s a → J (step s a))
    (hown : ∀ s a b, J s → G s a → own a = some b → obs (step s a) = ownStep (obs s) b)
    (hother : ∀ s a, J s → G s a → own a = none → obs (step s a) = obs s) {s : σ}
    {as : List α} (hs : J s) (has : AllSteps step G s as) :
    obs (as.foldl step s) = (as.filterMap own).foldl ownStep (obs s) := by
  induction as generalizing s with
  | nil => rfl
  | cons a as ih =>
      obtain ⟨ha, has⟩ := has
      rw [List.foldl_cons, ih (hJ s a hs ha) has]
      cases hb : own a with
      | none => rw [List.filterMap_cons_none hb, hother s a hs ha hb]
      | some b => rw [List.filterMap_cons_some hb, List.foldl_cons, hown s a b hs ha hb]

/-- **What one step decides, a run decides.**  `J` is an invariant that holds
anyway and helps to see what a step does to `P`. -/
theorem allStates_iff_allSteps {J P : σ → Prop} {G : σ → α → Prop}
    (hJ : ∀ s a, J s → J (step s a))
    (hP : ∀ s a, J s → P s → (P (step s a) ↔ G s a)) {s : σ} {as : List α}
    (hJs : J s) (hPs : P s) :
    AllStates step P s as ↔ AllSteps step G s as := by
  induction as generalizing s with
  | nil => exact iff_of_true hPs trivial
  | cons a as ih =>
      rw [AllStates, AllSteps]
      constructor
      · rintro ⟨-, hrest⟩
        have hnext := hrest.head
        exact ⟨(hP s a hJs hPs).mp hnext, (ih (hJ s a hJs) hnext).mp hrest⟩
      · rintro ⟨hg, hrest⟩
        have hnext := (hP s a hJs hPs).mpr hg
        exact ⟨hPs, (ih (hJ s a hJs) hnext).mpr hrest⟩

end Run

section Outputs

variable {σ τ α β : Type*}

/-- What a system puts out along a run, in order. -/
def outputs (step : σ → α → σ × Option β) : σ → List α → List β
  | _, [] => []
  | s, a :: as => (step s a).2.toList ++ outputs step (step s a).1 as

/-- **Systems that put out the same at each step, from related states to related ones, do
so along every run.** -/
theorem outputs_eq {step : σ → α → σ × Option β} {step' : τ → α → τ × Option β} {r : σ → τ → Prop}
    (h : ∀ s t a, r s t →
      (step s a).2 = (step' t a).2 ∧ r (step s a).1 (step' t a).1) {s : σ} {t : τ} (hst : r s t)
    (as : List α) : outputs step s as = outputs step' t as := by
  induction as generalizing s t with
  | nil => rfl
  | cons a as ih =>
      obtain ⟨hout, hnext⟩ := h s t a hst
      rw [outputs, outputs, hout, ih hnext]

end Outputs

section Loop

open StateTransition

variable {σ : Type*} {step : σ → Option σ}

/-- A loop that counts up reaches every number it does not jump over. -/
theorem reaches_of_progress {I : ℕ → σ → Prop} {target : ℕ}
    (hstep : ∀ n s, I n s → n < target →
      ∃ n' s', step s = some s' ∧ n < n' ∧ n' ≤ target ∧ I n' s') {n : ℕ} {s : σ}
    (hn : n ≤ target) (hs : I n s) : ∃ s', Reaches step s s' ∧ I target s' := by
  -- the induction is on what is left to count
  induction hk : target - n using Nat.strongRecOn generalizing n s with
  | ind k ih =>
      rcases Nat.lt_or_ge n target with hlt | hge
      · obtain ⟨n', s', hs', hnn', hn', hI'⟩ := hstep n s hs hlt
        obtain ⟨t, hreach, ht⟩ := ih (target - n') (by omega) hn' hI' rfl
        exact ⟨t, Relation.ReflTransGen.head hs' hreach, ht⟩
      · obtain rfl : n = target := by omega
        exact ⟨s, Relation.ReflTransGen.refl, hs⟩

/-- What every step keeps holds at the end of the loop. -/
theorem of_mem_eval {P : σ → Prop} (hstep : ∀ s s', P s → step s = some s' → P s')
    {s t : σ} (hs : P s) (ht : t ∈ eval step s) : P t := by
  have hreach := (mem_eval.mp ht).1
  clear ht
  induction hreach with
  | refl => exact hs
  | tail _ hlast ih => exact hstep _ _ ih hlast

/-- A loop ends where a state it reaches ends. -/
theorem mem_eval_of_reaches {s t u : σ} (h : Reaches step s t) :
    u ∈ eval step s ↔ u ∈ eval step t := by
  rw [reaches_eval h]

end Loop

end Zeos.Machine
