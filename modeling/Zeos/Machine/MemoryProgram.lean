import Mathlib.Logic.Function.Basic
import Mathlib.Tactic.Common
import Zeos.Machine.AddressMap
import Zeos.Machine.Marks

/-!
# Programs that use memory

A program is what it does to memory: it loads and stores, what it does next depending
on what it has loaded, until it is done.  `flat` runs it in a memory that has every
address; `run` runs it in any state that can be asked for a cell and told to store one,
that may refuse either, and that may change by being asked.

`run_eq` is the simulation rule: where a state answers as the flat memory does and
refuses only what it does not have, the program runs to the same end or is refused,
according to whether it keeps to what there is (`Within`).  `runMapped_eq` is its case
of a memory that is addressed through a map which it holds itself, and in which the
processor marks entries as it goes; `runMapped_frame` adds what such a program leaves
alone.

What the rule asks of the program is what makes a marked memory pass for a flat one.  Its
stores are *careful*: they keep to addresses `C`, at which a store does not change the
map.  Its loads are careful too: they keep to addresses `D`, behind which nothing is
marked, for a load of an entry would see marks that a flat memory does not have.  Of the
map the rule uses that it is faithful, and that marks do not change it (`hmark` with
`hread` and `hwrite`).
-/

namespace Zeos.Machine

variable {V B R S : Type*}

/-- A program over addresses `V` and cells `B`, with results `R`. -/
inductive MemoryProgram (V B R : Type*)
  | done (r : R)
  | load (a : V) (next : B → MemoryProgram V B R)
  | store (a : V) (x : B) (next : MemoryProgram V B R)

namespace MemoryProgram

/-- The result and the memory at the end, in a memory that has every address. -/
def flat [DecidableEq V] : MemoryProgram V B R → (V → B) → R × (V → B)
  | done r, m => (r, m)
  | load a next, m => (next (m a)).flat m
  | store a x next, m => next.flat (Function.update m a x)

/-- The result and the state at the end, unless the state refuses an access. -/
def run (get : S → V → Option (B × S)) (put : S → V → B → Option S) :
    MemoryProgram V B R → S → Option (R × S)
  | done r, s => some (r, s)
  | load a next, s =>
      match get s a with
      | none => none
      | some p => (next p.1).run get put p.2
  | store a x next, s =>
      match put s a x with
      | none => none
      | some s' => next.run get put s'

/-- In a flat memory the program loads only from addresses with `P` and stores only to
addresses with `Q`. -/
def Within [DecidableEq V] (P Q : V → Prop) : MemoryProgram V B R → (V → B) → Prop
  | done _, _ => True
  | load a next, m => P a ∧ (next (m a)).Within P Q m
  | store a x next, m => Q a ∧ next.Within P Q (Function.update m a x)

/-- One program after another. -/
def bind {R' : Type*} : MemoryProgram V B R → (R → MemoryProgram V B R') → MemoryProgram V B R'
  | done r, f => f r
  | load a next, f => load a fun x => (next x).bind f
  | store a x next, f => store a x (next.bind f)

variable [DecidableEq V]

@[simp] theorem flat_done (r : R) (m : V → B) : (done r).flat m = (r, m) := rfl

@[simp] theorem flat_bind {R' : Type*} (prog : MemoryProgram V B R)
    (f : R → MemoryProgram V B R') (m : V → B) :
    (prog.bind f).flat m = (f (prog.flat m).1).flat (prog.flat m).2 := by
  induction prog generalizing m with
  | done r => rfl
  | load a next ih => exact ih (m a) m
  | store a x next ih => exact ih (Function.update m a x)

theorem within_bind {R' : Type*} {P Q : V → Prop} (prog : MemoryProgram V B R)
    (f : R → MemoryProgram V B R') (m : V → B) :
    (prog.bind f).Within P Q m ↔
      prog.Within P Q m ∧ (f (prog.flat m).1).Within P Q (prog.flat m).2 := by
  induction prog generalizing m with
  | done r => exact (and_iff_right trivial).symm
  | load a next ih => exact (and_congr_right fun _ => ih (m a) m).trans and_assoc.symm
  | store a x next ih =>
      exact (and_congr_right fun _ => ih (Function.update m a x)).trans and_assoc.symm

theorem Within.mono {P P' Q Q' : V → Prop} (hP : ∀ a, P a → P' a) (hQ : ∀ a, Q a → Q' a) :
    ∀ {prog : MemoryProgram V B R} {m : V → B}, prog.Within P Q m → prog.Within P' Q' m
  | done _, _, _ => trivial
  | load a _, _, h => ⟨hP a h.1, h.2.mono hP hQ⟩
  | store a _ _, _, h => ⟨hQ a h.1, h.2.mono hP hQ⟩

/-- What the program does not store to stays. -/
theorem Within.flat_apply {P Q : V → Prop} {a : V} (ha : ¬ Q a) :
    ∀ {prog : MemoryProgram V B R} {m : V → B}, prog.Within P Q m → (prog.flat m).2 a = m a
  | done _, _, _ => rfl
  | load _ _, _, h => h.2.flat_apply ha
  | store b x _, m, h => by
      have hne : a ≠ b := by
        rintro rfl
        exact ha h.1
      exact (h.2.flat_apply ha).trans (Function.update_of_ne hne x m)

/-- **A state that answers as memory does runs a program as memory does.**  `Sim` relates
a state to the memory it stands for, `P` and `Q` are the addresses that it can load from
and store to, and `D` and `C` those that loads and stores are careful to keep to. -/
theorem run_eq {get : S → V → Option (B × S)} {put : S → V → B → Option S}
    {Sim : S → (V → B) → Prop} {P Q D C : V → Prop}
    (hget : ∀ s m a, Sim s m → P a → D a → ∃ s', get s a = some (m a, s') ∧ Sim s' m)
    (hnoGet : ∀ s m a, Sim s m → ¬ P a → get s a = none)
    (hput : ∀ s m a x, Sim s m → Q a → C a →
      ∃ s', put s a x = some s' ∧ Sim s' (Function.update m a x))
    (hnoPut : ∀ s m a x, Sim s m → ¬ Q a → put s a x = none) (prog : MemoryProgram V B R)
    {s : S} {m : V → B} (hs : Sim s m) (hC : prog.Within D C m) :
    (prog.Within P Q m →
        ∃ s', prog.run get put s = some ((prog.flat m).1, s') ∧ Sim s' (prog.flat m).2) ∧
      (¬ prog.Within P Q m → prog.run get put s = none) := by
  -- on the tree: a request that is refused ends the run, in the relation it goes on
  induction prog generalizing s m with
  | done r => exact ⟨fun _ => ⟨s, rfl, hs⟩, fun hno => absurd trivial hno⟩
  | load a next ih =>
      rw [run]
      by_cases hP : P a
      · obtain ⟨s', hs', hsim⟩ := hget s m a hs hP hC.1
        obtain ⟨hin, hout⟩ := ih (m a) hsim hC.2
        rw [hs']
        exact ⟨fun h => hin h.2, fun h => hout fun hnext => h ⟨hP, hnext⟩⟩
      · rw [hnoGet s m a hs hP]
        exact ⟨fun h => absurd h.1 hP, fun _ => rfl⟩
  | store a x next ih =>
      rw [run]
      by_cases hQ : Q a
      · obtain ⟨s', hs', hsim⟩ := hput s m a x hs hQ hC.1
        obtain ⟨hin, hout⟩ := ih hsim hC.2
        rw [hs']
        exact ⟨fun h => hin h.2, fun h => hout fun hnext => h ⟨hQ, hnext⟩⟩
      · rw [hnoPut s m a x hs hQ]
        exact ⟨fun h => absurd h.1 hQ, fun _ => rfl⟩

/-! ## Memory addressed through a map -/

section Mapped

variable {P O : Type*} {hide : P → B → O}

/-- A flat memory that has what the map leads to, marks apart. -/
def Shows (hide : P → B → O) (f : AddressMap V P) (m : P → B) (n : V → B) : Prop :=
  ∀ a q, f a = some q → hide q (n a) = hide q (m q)

omit [DecidableEq V] in
/-- There is such a memory. -/
theorem shows_getD (hide : P → B → O) (f : AddressMap V P) (m : P → B) (x : B) :
    Shows hide f m fun a => (f.view m a).getD x := by
  intro a q ha
  dsimp only
  rw [AddressMap.view_of_some ha, Option.getD_some]

omit [DecidableEq V] in
/-- Behind an address where nothing is marked the two have the same. -/
theorem Shows.eq {f : AddressMap V P} {m : P → B} {n : V → B} (h : Shows hide f m n) {a : V} {q : P}
    (ha : f a = some q) (hq : Function.Injective (hide q)) : n a = m q := hq (h a q ha)

omit [DecidableEq V] in
theorem Shows.mark {f : AddressMap V P} {m m' : P → B} {n : V → B} (h : Shows hide f m n)
    (hm : SameUpTo hide m m') : Shows hide f m' n := fun a q ha => (h a q ha).trans (hm q).symm

variable [DecidableEq P]

/-- Run a program in a memory that says itself where to load from and store to, and that is
marked before each access. -/
def runMapped (μ : Marking hide) (read write : (P → B) → AddressMap V P)
    (prog : MemoryProgram V B R) (m : P → B) : Option (R × (P → B)) :=
  (prog.run
    (fun s a => ((read (μ.mark s.1 s.2)).view (μ.mark s.1 s.2) a).map fun x =>
      (x, s.1 + 1, μ.mark s.1 s.2))
    (fun s a x => (write (μ.mark s.1 s.2) a).map fun q =>
      (s.1 + 1, Function.update (μ.mark s.1 s.2) q x))
    (0, m)).map fun p => (p.1, p.2.2)

theorem Shows.update {f : AddressMap V P} {m : P → B} {n : V → B} (h : Shows hide f m n)
    (hf : f.Faithful) {a : V} {q : P} (ha : f a = some q) (x : B) :
    Shows hide f (Function.update m q x) (Function.update n a x) := by
  intro a' q' ha'
  by_cases heq : a' = a
  · subst heq
    obtain rfl : q = q' := Option.some.inj (ha.symm.trans ha')
    rw [Function.update_self, Function.update_self]
  · have hne : q' ≠ q := fun hq => heq (hf a' a q (hq ▸ ha') ha)
    rw [Function.update_of_ne heq, Function.update_of_ne hne]
    exact h a' q' ha'

/-- **Through a faithful map a program runs as in flat memory, or is refused**, as long as
marks and its stores keep what the map depends on (`J`), and it loads nothing that may be
marked. -/
theorem runMapped_eq (μ : Marking hide) {read write : (P → B) → AddressMap V P}
    {J : (P → B) → Prop} {f : AddressMap V P} {D C : V → Prop} (hf : f.Faithful)
    (hmark : ∀ m m', J m → SameUpTo hide m m' → J m') (hread : ∀ m, J m → read m = f)
    (hwrite : ∀ m, J m → write m = f)
    (hD : ∀ a q, D a → f a = some q → Function.Injective (hide q))
    (hJ : ∀ m a q x, J m → C a → f a = some q → J (Function.update m q x))
    (prog : MemoryProgram V B R) {m : P → B} {n : V → B} (hm : J m) (hn : Shows hide f m n)
    (hcareful : prog.Within D C n) :
    (prog.Within (fun a => (f a).isSome = true) (fun a => (f a).isSome = true) n →
        ∃ m', prog.runMapped μ read write m = some ((prog.flat n).1, m') ∧
          J m' ∧ Shows hide f m' (prog.flat n).2) ∧
      (¬ prog.Within (fun a => (f a).isSome = true) (fun a => (f a).isSome = true) n →
        prog.runMapped μ read write m = none) := by
  -- the state of `run` is memory with the number of accesses, and marks come before each
  have hmarked : ∀ (s : ℕ × (P → B)) (n : V → B), J s.2 ∧ Shows hide f s.2 n →
      J (μ.mark s.1 s.2) ∧ Shows hide f (μ.mark s.1 s.2) n := fun s n h =>
    ⟨hmark _ _ h.1 (μ.same _ _), h.2.mark (μ.same _ _)⟩
  have hget : ∀ (s : ℕ × (P → B)) (n : V → B) a, J s.2 ∧ Shows hide f s.2 n →
      (f a).isSome = true → D a →
      ∃ s' : ℕ × (P → B), ((read (μ.mark s.1 s.2)).view (μ.mark s.1 s.2) a).map (fun x =>
        (x, s.1 + 1, μ.mark s.1 s.2)) = some (n a, s') ∧ J s'.2 ∧ Shows hide f s'.2 n := by
    intro s n a hs ha hd
    obtain ⟨hm, hn⟩ := hmarked s n hs
    obtain ⟨q, hq⟩ := Option.isSome_iff_exists.mp ha
    refine ⟨(s.1 + 1, μ.mark s.1 s.2), ?_, hm, hn⟩
    rw [hread _ hm, AddressMap.view_of_some hq, hn.eq hq (hD a q hd hq), Option.map_some]
  have hnoGet : ∀ (s : ℕ × (P → B)) (n : V → B) a, J s.2 ∧ Shows hide f s.2 n →
      ¬ (f a).isSome = true → ((read (μ.mark s.1 s.2)).view (μ.mark s.1 s.2) a).map (fun x =>
        (x, s.1 + 1, μ.mark s.1 s.2)) = none := by
    intro s n a hs ha
    rw [hread _ (hmarked s n hs).1,
      AddressMap.view_of_none (Option.not_isSome_iff_eq_none.mp ha), Option.map_none]
  have hput : ∀ (s : ℕ × (P → B)) (n : V → B) a x, J s.2 ∧ Shows hide f s.2 n →
      (f a).isSome = true → C a →
      ∃ s' : ℕ × (P → B), (write (μ.mark s.1 s.2) a).map (fun q =>
        (s.1 + 1, Function.update (μ.mark s.1 s.2) q x)) = some s' ∧
        J s'.2 ∧ Shows hide f s'.2 (Function.update n a x) := by
    intro s n a x hs ha hc
    obtain ⟨hm, hn⟩ := hmarked s n hs
    obtain ⟨q, hq⟩ := Option.isSome_iff_exists.mp ha
    refine ⟨(s.1 + 1, Function.update (μ.mark s.1 s.2) q x), ?_, hJ _ a q x hm hc hq,
      hn.update hf hq x⟩
    rw [hwrite _ hm, hq, Option.map_some]
  have hnoPut : ∀ (s : ℕ × (P → B)) (n : V → B) a x, J s.2 ∧ Shows hide f s.2 n →
      ¬ (f a).isSome = true → (write (μ.mark s.1 s.2) a).map (fun q =>
        (s.1 + 1, Function.update (μ.mark s.1 s.2) q x)) = none := by
    intro s n a x hs ha
    rw [hwrite _ (hmarked s n hs).1, Option.not_isSome_iff_eq_none.mp ha, Option.map_none]
  obtain ⟨hruns, hrefused⟩ := run_eq hget hnoGet hput hnoPut prog (s := (0, m)) ⟨hm, hn⟩ hcareful
  refine ⟨fun h => ?_, fun h => ?_⟩
  · obtain ⟨s', hrun, hJ', hshows⟩ := hruns h
    refine ⟨s'.2, ?_, hJ', hshows⟩
    rw [runMapped, hrun, Option.map_some]
  · rw [runMapped, hrefused h, Option.map_none]

/-- What the program changes, marks apart, has the name of an address that it stores to. -/
theorem runMapped_frame (μ : Marking hide) {read write : (P → B) → AddressMap V P}
    {J : (P → B) → Prop} {f : AddressMap V P} {D C : V → Prop} (hf : f.Faithful)
    (hmark : ∀ m m', J m → SameUpTo hide m m' → J m') (hread : ∀ m, J m → read m = f)
    (hwrite : ∀ m, J m → write m = f)
    (hD : ∀ a q, D a → f a = some q → Function.Injective (hide q))
    (hJ : ∀ m a q x, J m → C a → f a = some q → J (Function.update m q x))
    (prog : MemoryProgram V B R) {m : P → B} {n : V → B} (hm : J m) (hn : Shows hide f m n)
    (hcareful : prog.Within D C n) :
    (prog.Within (fun a => (f a).isSome = true) (fun a => (f a).isSome = true) n →
        ∃ m', prog.runMapped μ read write m = some ((prog.flat n).1, m') ∧
          J m' ∧ (∀ q, hide q (m' q) ≠ hide q (m q) → ∃ a, C a ∧ f a = some q) ∧
          Shows hide f m' (prog.flat n).2) ∧
      (¬ prog.Within (fun a => (f a).isSome = true) (fun a => (f a).isSome = true) n →
        prog.runMapped μ read write m = none) := by
  -- the frame is one more thing to keep: marks do not break it, and a store is in `C`
  have hmark' : ∀ m₁ m₂, (J m₁ ∧ ∀ q, hide q (m₁ q) ≠ hide q (m q) → ∃ a, C a ∧ f a = some q) →
      SameUpTo hide m₁ m₂ →
      J m₂ ∧ ∀ q, hide q (m₂ q) ≠ hide q (m q) → ∃ a, C a ∧ f a = some q :=
    fun m₁ m₂ h₁ hsame => ⟨hmark _ _ h₁.1 hsame, fun q hq => h₁.2 q (by rwa [← hsame q])⟩
  have hkeep : ∀ m' a q x,
      (J m' ∧ ∀ q, hide q (m' q) ≠ hide q (m q) → ∃ a, C a ∧ f a = some q) → C a →
      f a = some q → J (Function.update m' q x) ∧
        ∀ q', hide q' (Function.update m' q x q') ≠ hide q' (m q') → ∃ a, C a ∧ f a = some q' := by
    rintro m' a q x ⟨hm', hframe⟩ ha haq
    refine ⟨hJ m' a q x hm' ha haq, fun q' hq' => ?_⟩
    by_cases heq : q' = q
    · exact ⟨a, ha, heq ▸ haq⟩
    · rw [Function.update_of_ne heq] at hq'
      exact hframe q' hq'
  obtain ⟨hruns, hrefused⟩ := runMapped_eq μ hf hmark' (fun m' hm' => hread m' hm'.1)
    (fun m' hm' => hwrite m' hm'.1) hD hkeep prog ⟨hm, fun q hq => absurd rfl hq⟩ hn hcareful
  refine ⟨fun h => ?_, hrefused⟩
  obtain ⟨m', hrun, ⟨hm', hframe⟩, hshows⟩ := hruns h
  exact ⟨m', hrun, hm', hframe, hshows⟩

end Mapped

end MemoryProgram

end Zeos.Machine
