import Zeos.Machine.Cpu

/-!
# The stack as a list of double words

Reasoning about the pushes and pops of a handler is done on `Bytes.HasWords`,
which says that the double words from an address on are a given list, and on
`Cpu.Stack`, the same from the stack pointer on.

* `pushAll_stack`: pushing a list of words puts them in front, the last one
  first.
* `popAll_eq`: popping into a list of registers assigns them the words in front.
* `Cdecl.stack`: a routine that follows the C calling convention keeps
  everything behind its own arguments.

No other fact about addresses is needed to follow a register through a stack
frame.
-/

namespace Zeos.Machine

namespace Bytes

/-- The double words from `a` on are the given list. -/
def HasWords (m : Bytes) : Addr → List DWord → Prop
  | _, [] => True
  | a, w :: ws => m.load a = w ∧ m.HasWords (a + 4) ws

@[simp] theorem hasWords_nil (m : Bytes) (a : Addr) : m.HasWords a [] := trivial

theorem hasWords_cons (m : Bytes) (a : Addr) (w : DWord) (ws : List DWord) :
    m.HasWords a (w :: ws) ↔ m.load a = w ∧ m.HasWords (a + 4) ws := Iff.rfl

private theorem add_ofNat_four_add (a : Addr) (i : ℕ) :
    a + 4 + BitVec.ofNat 32 i = a + BitVec.ofNat 32 (4 + i) := by
  rw [BitVec.ofNat_add, ← BitVec.add_assoc]
  rfl

/-- Only the bytes of the words matter. -/
theorem HasWords.congr {m m' : Bytes} {a : Addr} {ws : List DWord}
    (h : m.HasWords a ws)
    (hm : ∀ i < 4 * ws.length,
      m' (a + BitVec.ofNat 32 i) = m (a + BitVec.ofNat 32 i)) :
    m'.HasWords a ws := by
  induction ws generalizing a with
  | nil => trivial
  | cons w ws ih =>
      obtain ⟨hw, hws⟩ := h
      refine ⟨?_, ih hws fun i hi => ?_⟩
      · rw [← hw]
        exact load_congr fun k hk => hm k (by rw [List.length_cons]; omega)
      · rw [add_ofNat_four_add]
        exact hm (4 + i) (by rw [List.length_cons]; omega)

theorem hasWords_append (m : Bytes) (a : Addr) (us ws : List DWord) :
    m.HasWords a (us ++ ws) ↔
      m.HasWords a us ∧ m.HasWords (a + BitVec.ofNat 32 (4 * us.length)) ws := by
  induction us generalizing a with
  | nil => simp
  | cons u us ih =>
      rw [List.cons_append, hasWords_cons, hasWords_cons, ih, add_ofNat_four_add,
        List.length_cons, and_assoc, show 4 + 4 * us.length = 4 * (us.length + 1) by omega]

/-- The `n` double words from `a` on. -/
def words (m : Bytes) : Addr → ℕ → List DWord
  | _, 0 => []
  | a, n + 1 => m.load a :: m.words (a + 4) n

@[simp] theorem words_length (m : Bytes) (a : Addr) (n : ℕ) :
    (m.words a n).length = n := by
  induction n generalizing a with
  | zero => rfl
  | succ n ih => rw [words, List.length_cons, ih]

theorem hasWords_words (m : Bytes) (a : Addr) (n : ℕ) : m.HasWords a (m.words a n) := by
  induction n generalizing a with
  | zero => trivial
  | succ n ih => exact ⟨rfl, ih (a + 4)⟩

/-- The words from an address on are determined by their number. -/
theorem HasWords.eq_words {m : Bytes} {a : Addr} {ws : List DWord}
    (h : m.HasWords a ws) : ws = m.words a ws.length := by
  induction ws generalizing a with
  | nil => rfl
  | cons w ws ih =>
      obtain ⟨hw, hws⟩ := h
      rw [List.length_cons, words, hw, ← ih hws]

/-- A word stored just below a list of words is in front of it, provided that
the list does not reach around the address space. -/
theorem HasWords.store_front {m : Bytes} {a : Addr} {ws : List DWord} (v : DWord)
    (h : m.HasWords a ws) (hlen : 4 * (ws.length + 1) ≤ 2 ^ 32) :
    (m.store (a - 4) v).HasWords (a - 4) (v :: ws) := by
  refine ⟨load_store_self m (a - 4) v, ?_⟩
  rw [BitVec.sub_add_cancel]
  refine h.congr fun i hi => write_apply_of_le m (a - 4) _ ?_
  bv_omega

/-- A word stored over one of the list replaces it. -/
theorem HasWords.store_at {m : Bytes} {a : Addr} (us ws : List DWord) {w : DWord}
    (v : DWord) (h : m.HasWords a (us ++ w :: ws))
    (hlen : 4 * (us.length + 1 + ws.length) ≤ 2 ^ 32) :
    (m.store (a + BitVec.ofNat 32 (4 * us.length)) v).HasWords a (us ++ v :: ws) := by
  obtain ⟨hus, -, hws⟩ := (hasWords_append _ _ _ _).mp h
  refine (hasWords_append _ _ _ _).mpr ⟨?_, load_store_self _ _ _, ?_⟩
  · exact hus.congr fun i hi => write_apply_of_le m _ _ (by bv_omega)
  · exact hws.congr fun i hi => write_apply_of_le m _ _ (by bv_omega)

end Bytes

namespace Cpu

variable {W : Type*}

/-- The words from the stack pointer on. -/
def Stack (c : Cpu W) (ws : List DWord) : Prop := c.mem.HasWords (c.regs .esp) ws

theorem Stack.top {c : Cpu W} {w : DWord} {ws : List DWord} (h : c.Stack (w :: ws)) :
    c.top = w := h.1

theorem Stack.withEflags {c : Cpu W} {ws : List DWord} (h : c.Stack ws) (eflags : DWord) :
    Cpu.Stack { c with eflags := eflags } ws := h

/-- What lies further up the stack. -/
theorem Stack.load {c : Cpu W} (us : List DWord) {w : DWord} {ws : List DWord}
    (h : c.Stack (us ++ w :: ws)) :
    c.mem.load (c.regs .esp + BitVec.ofNat 32 (4 * us.length)) = w :=
  ((Bytes.hasWords_append _ _ _ _).mp h).2.1

/-! ## Pushing -/

@[simp] theorem push_regs_esp (c : Cpu W) (v : DWord) :
    (c.push v).regs .esp = c.regs .esp - 4 := by simp [push]

@[simp] theorem push_regs_of_ne (c : Cpu W) (v : DWord) {r : Reg} (hr : r ≠ .esp) :
    (c.push v).regs r = c.regs r := by simp [push, hr]

@[simp] theorem push_segs (c : Cpu W) (v : DWord) : (c.push v).segs = c.segs := rfl

@[simp] theorem push_eflags (c : Cpu W) (v : DWord) : (c.push v).eflags = c.eflags := rfl

@[simp] theorem push_calls (c : Cpu W) (v : DWord) : (c.push v).calls = c.calls := rfl

@[simp] theorem push_world (c : Cpu W) (v : DWord) : (c.push v).world = c.world := rfl

theorem push_stack {c : Cpu W} {ws : List DWord} (v : DWord) (h : c.Stack ws)
    (hlen : 4 * (ws.length + 1) ≤ 2 ^ 32) : (c.push v).Stack (v :: ws) := by
  rw [Stack, push_regs_esp]
  exact h.store_front v hlen

/-- Push the words of a list, the first one first. -/
def pushAll (c : Cpu W) (vs : List DWord) : Cpu W := vs.foldl push c

@[simp] theorem pushAll_nil (c : Cpu W) : c.pushAll [] = c := rfl

@[simp] theorem pushAll_cons (c : Cpu W) (v : DWord) (vs : List DWord) :
    c.pushAll (v :: vs) = (c.push v).pushAll vs := rfl

theorem pushAll_regs_esp (c : Cpu W) (vs : List DWord) :
    (c.pushAll vs).regs .esp = c.regs .esp - BitVec.ofNat 32 (4 * vs.length) := by
  induction vs generalizing c with
  | nil => simp
  | cons v vs ih =>
      rw [pushAll_cons, ih, push_regs_esp, List.length_cons]
      bv_omega

theorem pushAll_regs_of_ne (c : Cpu W) (vs : List DWord) {r : Reg} (hr : r ≠ .esp) :
    (c.pushAll vs).regs r = c.regs r := by
  induction vs generalizing c with
  | nil => rfl
  | cons v vs ih => rw [pushAll_cons, ih, push_regs_of_ne c v hr]

theorem pushAll_segs (c : Cpu W) (vs : List DWord) : (c.pushAll vs).segs = c.segs := by
  induction vs generalizing c with
  | nil => rfl
  | cons v vs ih => rw [pushAll_cons, ih, push_segs]

theorem pushAll_calls (c : Cpu W) (vs : List DWord) :
    (c.pushAll vs).calls = c.calls := by
  induction vs generalizing c with
  | nil => rfl
  | cons v vs ih => rw [pushAll_cons, ih, push_calls]

theorem pushAll_world (c : Cpu W) (vs : List DWord) :
    (c.pushAll vs).world = c.world := by
  induction vs generalizing c with
  | nil => rfl
  | cons v vs ih => rw [pushAll_cons, ih, push_world]

/-- The pushed words are in front, the last one first. -/
theorem pushAll_stack {c : Cpu W} {ws : List DWord} (vs : List DWord) (h : c.Stack ws)
    (hlen : 4 * (vs.length + ws.length) ≤ 2 ^ 32) :
    (c.pushAll vs).Stack (vs.reverse ++ ws) := by
  induction vs generalizing c ws with
  | nil => exact h
  | cons v vs ih =>
      rw [List.length_cons] at hlen
      have hpush : (c.push v).Stack (v :: ws) := push_stack v h (by omega)
      have hrest := ih hpush (by rw [List.length_cons]; omega)
      simpa using hrest

/-- Pushing changes no byte outside the words pushed. -/
theorem pushAll_mem (c : Cpu W) (vs : List DWord) {a : Addr}
    (hlen : 4 * vs.length ≤ 2 ^ 32)
    (h : 4 * vs.length ≤
      (a - (c.regs .esp - BitVec.ofNat 32 (4 * vs.length))).toNat) :
    (c.pushAll vs).mem a = c.mem a := by
  induction vs generalizing c with
  | nil => rfl
  | cons v vs ih =>
      rw [List.length_cons] at hlen h
      rw [pushAll_cons, ih _ (by omega) (by rw [push_regs_esp]; bv_omega)]
      exact Bytes.write_apply_of_le c.mem _ _ (by bv_omega)

/-- After the same pushes, memories agree where they agreed before and on the
words pushed. -/
theorem pushAll_mem_congr (c c' : Cpu W) (hesp : c.regs .esp = c'.regs .esp)
    (vs : List DWord) {a : Addr} (hlen : 4 * vs.length ≤ 2 ^ 32)
    (h : c.mem a = c'.mem a ∨
      (a - (c.regs .esp - BitVec.ofNat 32 (4 * vs.length))).toNat < 4 * vs.length) :
    (c.pushAll vs).mem a = (c'.pushAll vs).mem a := by
  induction vs generalizing c c' with
  | nil => exact h.resolve_right (by simp)
  | cons v vs ih =>
      rw [List.length_cons] at hlen h
      refine ih _ _ (by rw [push_regs_esp, push_regs_esp, hesp]) (by omega) ?_
      -- the first word pushed lies above the others
      have hword : (c.push v).mem a = c.mem.write (c.regs .esp - 4) 4 (Bytes.byteOf v) a := rfl
      have hword' : (c'.push v).mem a = c'.mem.write (c.regs .esp - 4) 4 (Bytes.byteOf v) a := by
        rw [hesp]
        rfl
      rw [hword, hword', Bytes.write_apply, Bytes.write_apply, push_regs_esp]
      by_cases hfirst : (a - (c.regs .esp - 4)).toNat < 4
      · left
        rw [if_pos hfirst, if_pos hfirst]
      · rw [if_neg hfirst, if_neg hfirst]
        rcases h with h | h
        · exact Or.inl h
        · right
          bv_omega

/-! ## Popping -/

/-- A destination that a handler pops into: any register but the stack pointer,
or a segment register. -/
def PopTarget : Operand → Prop
  | .reg r => r ≠ .esp
  | .seg _ => True
  | .imm _ => False
  | .mem _ _ => False

theorem write_regs_esp (c : Cpu W) {dst : Operand} (v : DWord) (hdst : PopTarget dst) :
    (c.write dst v).regs .esp = c.regs .esp := by
  cases dst with
  | reg r => simp [write, Function.update_of_ne (Ne.symm hdst)]
  | seg s => rfl
  | imm _ => exact absurd hdst id
  | mem _ _ => exact absurd hdst id

theorem write_mem (c : Cpu W) {dst : Operand} (v : DWord) (hdst : PopTarget dst) :
    (c.write dst v).mem = c.mem := by
  cases dst with
  | reg r => rfl
  | seg s => rfl
  | imm _ => rfl
  | mem _ _ => exact absurd hdst id

/-- Assign the second components to the first, moving the stack pointer past one
word each time. -/
def assignAll (c : Cpu W) (ps : List (Operand × DWord)) : Cpu W :=
  ps.foldl (fun c p => (c.setEsp (c.regs .esp + 4)).write p.1 p.2) c

/-- Pop into the destinations of a list, in order. -/
def popAll (c : Cpu W) (dsts : List Operand) : Cpu W := dsts.foldl pop c

theorem pop_stack {c : Cpu W} {w : DWord} {ws : List DWord} (h : c.Stack (w :: ws))
    {dst : Operand} (hdst : PopTarget dst) :
    c.pop dst = (c.setEsp (c.regs .esp + 4)).write dst w ∧ (c.pop dst).Stack ws := by
  have heq : c.pop dst = (c.setEsp (c.regs .esp + 4)).write dst w := by
    rw [pop, h.top]
  refine ⟨heq, ?_⟩
  rw [heq, Stack, write_regs_esp _ _ hdst, write_mem _ _ hdst]
  simpa [setEsp] using h.2

/-- Popping assigns the words in front of the stack. -/
theorem popAll_eq {c : Cpu W} (ps : List (Operand × DWord)) {ws : List DWord}
    (h : c.Stack (ps.map Prod.snd ++ ws)) (hps : ∀ p ∈ ps, PopTarget p.1) :
    c.popAll (ps.map Prod.fst) = c.assignAll ps ∧ (c.assignAll ps).Stack ws := by
  induction ps generalizing c with
  | nil => exact ⟨rfl, h⟩
  | cons p ps ih =>
      obtain ⟨heq, hrest⟩ := pop_stack h (hps p List.mem_cons_self)
      rw [heq] at hrest
      obtain ⟨ih₁, ih₂⟩ := ih hrest fun q hq => hps q (List.mem_cons_of_mem p hq)
      refine ⟨?_, ih₂⟩
      rw [assignAll, List.foldl_cons, ← assignAll, ← ih₁, List.map_cons, popAll,
        List.foldl_cons, heq, ← popAll]

theorem write_world (c : Cpu W) (dst : Operand) (v : DWord) :
    (c.write dst v).world = c.world := by
  cases dst <;> rfl

theorem popAll_world (c : Cpu W) (dsts : List Operand) :
    (c.popAll dsts).world = c.world := by
  induction dsts generalizing c with
  | nil => rfl
  | cons dst dsts ih => exact (ih (c.pop dst)).trans (write_world _ dst _)

theorem popAll_mem (c : Cpu W) {dsts : List Operand} (hdsts : ∀ dst ∈ dsts, PopTarget dst) :
    (c.popAll dsts).mem = c.mem := by
  induction dsts generalizing c with
  | nil => rfl
  | cons dst dsts ih =>
      have hrest : ∀ dst' ∈ dsts, PopTarget dst' := fun dst' h =>
        hdsts dst' (List.mem_cons_of_mem dst h)
      exact (ih (c.pop dst) hrest).trans (write_mem _ _ (hdsts dst List.mem_cons_self))

end Cpu

/-! ## The C calling convention -/

/-- The registers that a C routine gives back unchanged, the stack pointer apart. -/
def calleeSaved : List Reg := [.ebx, .esi, .edi, .ebp]

/-- A call that comes back with the stack pointer where it was. -/
structure Balanced {W : Type*} (f : Cpu W → Cpu W) : Prop where
  esp : ∀ c, (f c).regs .esp = c.regs .esp
  calls : ∀ c, (f c).calls = c.calls

/-- The effect `f` of calling a C routine with `args` arguments on the stack.  It
balances the stack, preserves the callee-saved and the segment registers, and
leaves the caller's part of the stack alone: of the `depth` words from the stack
pointer on it may overwrite its own arguments and no others. -/
structure Cdecl {W : Type*} (args depth : ℕ) (f : Cpu W → Cpu W) : Prop extends
    Balanced f where
  saved : ∀ c, ∀ r ∈ calleeSaved, (f c).regs r = c.regs r
  segs : ∀ c, (f c).segs = c.segs
  frame : ∀ c i, 4 * args ≤ i → i < 4 * depth →
    (f c).mem (c.regs .esp + BitVec.ofNat 32 i) = c.mem (c.regs .esp + BitVec.ofNat 32 i)

/-- Behind its arguments, a routine finds and leaves the same words. -/
theorem Cdecl.stack {W : Type*} {args depth : ℕ} {f : Cpu W → Cpu W}
    (hf : Cdecl args depth f) {c : Cpu W} (us : List DWord) {ws : List DWord}
    (h : c.Stack (us ++ ws)) (hus : us.length = args)
    (hlen : args + ws.length ≤ depth) :
    (f c).Stack ((f c).mem.words (c.regs .esp) args ++ ws) := by
  rw [Cpu.Stack, hf.esp, Bytes.hasWords_append]
  refine ⟨Bytes.hasWords_words _ _ _, ?_⟩
  have hws := ((Bytes.hasWords_append _ _ _ _).mp h).2
  rw [hus] at hws
  rw [Bytes.words_length]
  refine hws.congr fun i hi => ?_
  rw [BitVec.add_assoc, ← BitVec.ofNat_add]
  exact hf.frame c (4 * args + i) (by omega) (by omega)

end Zeos.Machine
