import Mathlib.Data.List.GetD
import Zeos.Machine.Memory
import Zeos.Machine.Run

/-!
# Strings in memory

A string is the bytes from an address up to the first zero.  Programs build one byte by
byte in a buffer, turn it round in place, and look for its end.

* `Bytes.IsString` says what the string at an address is.
* `scan` is the loop that goes over a string with some state; `IsString.mem_scan` says
  that it is a fold over the characters.  `Bytes.Scans` are the positions it looks at,
  whether or not it ever ends.
* `Ram.reverse` is the reversal in place, and `reverse_bytes` its effect as one block
  write.

A string may wrap at the end of the addresses, as a block may.  What a loop over a string
does where there is no zero is that it does not end, and `scan` has then no result: it is
a partial value, defined without a bound on the length.  `IsString` is stable under
changes of memory outside of the string and its zero (`IsString.congr`), which is what a
caller needs who prints one string while building another.
-/

namespace Zeos.Machine

open StateTransition

namespace Bytes

/-- A write of one byte. -/
theorem write_one (m : Bytes) (a : Addr) (v : Byte) :
    (m.write a 1 fun _ => v) = Function.update m a v := by
  funext b
  rw [write_apply, Function.update_apply]
  refine if_congr ?_ rfl rfl
  constructor
  · intro h
    bv_omega
  · rintro rfl
    bv_omega

/-- A block that is written twice holds what was written last. -/
theorem write_over (m : Bytes) (a : Addr) (n : ℕ) (f g : ℕ → Byte) :
    (m.write a n f).write a n g = m.write a n g := by
  funext b
  rw [write_apply, write_apply, write_apply]
  split <;> rfl

/-- The byte at a position of a block is the byte of the list. -/
theorem getD_block (m : Bytes) (a : Addr) {n i : ℕ} (hi : i < n) :
    (m.block a n).getD i 0 = m (a + BitVec.ofNat 32 i) := by
  rw [block, List.getD_eq_getElem _ _ (by simpa using hi), List.getElem_map,
    List.getElem_range]

/-- A list that has been written is the block there. -/
theorem block_write (m : Bytes) (a : Addr) {n k : ℕ} {bs : List Byte} (hn : n = bs.length)
    (hle : n ≤ k) (hlen : n ≤ 2 ^ 32) {f : ℕ → Byte} (hf : ∀ i < n, f i = bs.getD i 0) :
    (m.write a k f).block a n = bs := by
  refine List.ext_getElem (by rw [block_length, hn]) fun i hi hi' => ?_
  rw [block_length] at hi
  rw [← List.getD_eq_getElem _ 0 (by rwa [block_length]), getD_block _ _ hi,
    write_apply_add _ _ _ (by omega) (by omega), hf i hi, List.getD_eq_getElem _ _ hi']

/-! ## Strings -/

/-- The string at `a`: bytes that are not zero, with a zero behind them. -/
structure IsString (m : Bytes) (a : Addr) (cs : List Byte) : Prop where
  block : m.block a cs.length = cs
  nonzero : ∀ c ∈ cs, c ≠ 0
  stop : m (a + BitVec.ofNat 32 cs.length) = 0

/-- Position `k` is looked at by a loop that goes on up to the first zero. -/
def Scans (m : Bytes) (a : Addr) (k : ℕ) : Prop := ∀ j < k, m (a + BitVec.ofNat 32 j) ≠ 0

section IsString

variable {m : Bytes} {a : Addr} {cs cs' : List Byte}

theorem IsString.apply (h : IsString m a cs) {i : ℕ} (hi : i < cs.length) :
    m (a + BitVec.ofNat 32 i) = cs[i] := by
  rw [← getD_block m a hi, h.block, List.getD_eq_getElem _ _ hi]

/-- The loop looks at the characters and the zero, and no further. -/
theorem IsString.scans_iff (h : IsString m a cs) (k : ℕ) : Scans m a k ↔ k ≤ cs.length := by
  constructor
  · intro hk
    by_contra hlt
    exact hk cs.length (by omega) h.stop
  · intro hk j hj
    rw [h.apply (by omega)]
    exact h.nonzero _ (List.getElem_mem _)

/-- Only the characters and the zero matter. -/
theorem IsString.congr {m' : Bytes} (h : IsString m a cs)
    (heq : ∀ i, i ≤ cs.length → m' (a + BitVec.ofNat 32 i) = m (a + BitVec.ofNat 32 i)) :
    IsString m' a cs := by
  constructor
  · exact (block_congr fun i hi => heq i hi.le).trans h.block
  · exact h.nonzero
  · rw [heq _ le_rfl, h.stop]

/-- A string that has been written with its zero. -/
theorem isString_write (m : Bytes) (a : Addr) {k : ℕ} {f : ℕ → Byte}
    (hk : cs.length < k) (hlen : cs.length < 2 ^ 32) (hnonzero : ∀ c ∈ cs, c ≠ 0)
    (hf : ∀ i, i ≤ cs.length → f i = (cs ++ [0]).getD i 0) : IsString (m.write a k f) a cs := by
  constructor
  · refine block_write m a rfl hk.le hlen.le fun i hi => ?_
    rw [hf i hi.le, List.getD_append _ _ _ _ hi]
  · exact hnonzero
  · rw [write_apply_add m a f hk hlen, hf _ (le_refl _),
      List.getD_append_right _ _ _ _ (le_refl _), Nat.sub_self]
    rfl

end IsString

end Bytes

/-! ## Loops over a string -/

section Scan

variable {σ : Type*} (m : Bytes) (a : Addr) (f : σ → Byte → σ)

/-- One round of `for (i = 0; a[i]; i++)`, with a state that the body changes. -/
def scanStep (s : ℕ × σ) : Option (ℕ × σ) :=
  if m (a + BitVec.ofNat 32 s.1) = 0 then none
  else some (s.1 + 1, f s.2 (m (a + BitVec.ofNat 32 s.1)))

/-- The loop: where it stops, and the state there. -/
def scan (s : σ) : Part (ℕ × σ) := eval (scanStep m a f) (0, s)

variable {m a}

/-- **A loop over a string is a fold over its characters.** -/
theorem Bytes.IsString.mem_scan {cs : List Byte} (h : m.IsString a cs) (s : σ) :
    (cs.length, cs.foldl f s) ∈ scan m a f s := by
  have hstep : ∀ n t, t = (n, (cs.take n).foldl f s) → n < cs.length →
      ∃ n' t', scanStep m a f t = some t' ∧ n < n' ∧ n' ≤ cs.length ∧
        t' = (n', (cs.take n').foldl f s) := by
    rintro n t rfl hn
    refine ⟨n + 1, _, if_neg ?_, by omega, hn, ?_⟩
    · exact (h.scans_iff _).mpr (le_refl _) n hn
    · rw [h.apply hn, List.take_succ_eq_append_getElem hn, List.foldl_append]
      rfl
  obtain ⟨t, hreach, rfl⟩ := reaches_of_progress hstep (Nat.zero_le _) rfl
  rw [List.take_length] at hreach
  exact mem_eval.mpr ⟨hreach, if_pos h.stop⟩

/-- So it comes to nothing else. -/
theorem Bytes.IsString.scan_eq {cs : List Byte} (h : m.IsString a cs) (s : σ) :
    scan m a f s = Part.some (cs.length, cs.foldl f s) :=
  Part.eq_some_iff.mpr (h.mem_scan f s)

end Scan

namespace Ram

/-! ## What has been stored -/

/-- The byte at `a` has been stored to on the way from `r` to `r'`. -/
def Stored (r r' : Ram) (a : Addr) : Prop :=
  ∃ new, r'.stores = new ++ r.stores ∧ ∃ st ∈ new, (a - st.1).toNat < st.2

theorem StoresWithin.of_stored {r r' : Ram} {a b : Addr} {n : ℕ} (h : StoresWithin b n r r')
    (ha : Stored r r' a) : (a - b).toNat < n := by
  obtain ⟨new, hnew, hin⟩ := h
  obtain ⟨new', hnew', st, hst, hlt⟩ := ha
  obtain rfl : new = new' := List.append_cancel_right (hnew.symm.trans hnew')
  have hblock := hin st hst
  unfold InBlock at hblock
  bv_omega

/-! ## Reversal -/

/-- `c = *p; *p = *q; *q = c`. -/
def swap (r : Ram) (p q : Addr) : Ram :=
  let c := r.bytes p
  let r := r.storeByte p (r.bytes q)
  r.storeByte q c

/-- `for (i1 = 0; i1 < i/2; i1++)`, swapping `b[i1]` and `b[i - i1 - 1]`. -/
def reverse (r : Ram) (b : Addr) (i : ℕ) : Ram :=
  (List.range (i / 2)).foldl
    (fun r i1 => r.swap (b + BitVec.ofNat 32 i1) (b + BitVec.ofNat 32 (i - i1 - 1))) r

theorem swap_bytes (r : Ram) (p q : Addr) :
    (r.swap p q).bytes = Function.update (Function.update r.bytes p (r.bytes q)) q (r.bytes p) := by
  simp only [swap, storeByte_bytes, Bytes.write_one]

theorem swap_storesWithin (r : Ram) {p q b : Addr} {n : ℕ} (hp : (p - b).toNat < n)
    (hq : (q - b).toNat < n) : StoresWithin b n r (r.swap p q) :=
  (StoresWithin.write r _ hp).trans (StoresWithin.write _ _ hq)

theorem reverse_storesWithin (r : Ram) (b : Addr) {i : ℕ} (hi : i ≤ 2 ^ 32) :
    StoresWithin b i r (r.reverse b i) := by
  have hpos : ∀ {j : ℕ}, j < i → (b + BitVec.ofNat 32 j - b).toNat < i := by
    intro j hj
    rw [Bytes.toNat_add_sub b (by omega)]
    exact hj
  refine List.foldlRecOn (motive := StoresWithin b i r) _ _ (StoresWithin.refl b i r) ?_
  intro r' hr' i1 hi1
  rw [List.mem_range] at hi1
  exact hr'.trans (swap_storesWithin r' (hpos (by omega)) (hpos (by omega)))

/-- After `k` rounds the first and the last `k` bytes have changed places. -/
theorem reverse_rounds (r : Ram) (b : Addr) {i k : ℕ} (hi : i ≤ 2 ^ 32) (hk : k ≤ i / 2) :
    ((List.range k).foldl (fun r i1 =>
        r.swap (b + BitVec.ofNat 32 i1) (b + BitVec.ofNat 32 (i - i1 - 1))) r).bytes =
      r.bytes.write b i fun j =>
        if j < k ∨ i - k ≤ j then r.bytes (b + BitVec.ofNat 32 (i - 1 - j))
        else r.bytes (b + BitVec.ofNat 32 j) := by
  induction k with
  | zero =>
      ext x : 1
      rw [Bytes.write_apply]
      split
      · next hx =>
          rw [if_neg (by omega), show b + BitVec.ofNat 32 (x - b).toNat = x by bv_omega]
          rfl
      · rfl
  | succ k ih =>
      rw [List.range_succ, List.foldl_append, List.foldl_cons, List.foldl_nil, swap_bytes,
        ih (by omega)]
      have hlow : (b + BitVec.ofNat 32 k - b).toNat = k := Bytes.toNat_add_sub b (by omega)
      have hhigh : (b + BitVec.ofNat 32 (i - k - 1) - b).toNat = i - k - 1 :=
        Bytes.toNat_add_sub b (by omega)
      ext x : 1
      have hx : ∀ p < 2 ^ 32, (x = b + BitVec.ofNat 32 p ↔ (x - b).toNat = p) := by
        intro p hp
        constructor <;> intro h <;> bv_omega
      simp only [Function.update_apply, Bytes.write_apply, hlow, hhigh,
        hx k (by omega), hx (i - k - 1) (by omega)]
      generalize (x - b).toNat = j
      by_cases hlast : j = i - k - 1
      · rw [if_pos hlast, if_pos (by omega), if_neg (by omega), if_pos (by omega),
          if_pos (by omega), show i - 1 - j = k by omega]
      · rw [if_neg hlast]
        by_cases hfirst : j = k
        · rw [if_pos hfirst, if_pos (by omega), if_neg (by omega), if_pos (by omega),
            if_pos (by omega), show i - 1 - j = i - k - 1 by omega]
        · rw [if_neg hfirst]
          refine if_congr Iff.rfl (if_congr ?_ rfl rfl) rfl
          omega

/-- **The reversal in place** is one write of the block in the other order. -/
theorem reverse_bytes (r : Ram) (b : Addr) {i : ℕ} (hi : i ≤ 2 ^ 32) :
    (r.reverse b i).bytes =
      r.bytes.write b i fun j => r.bytes (b + BitVec.ofNat 32 (i - 1 - j)) := by
  rw [Ram.reverse, reverse_rounds r b hi (le_refl _)]
  apply Bytes.write_congr
  intro j hj
  split
  · rfl
  · -- the middle of an odd number of bytes stays where it is
    rw [show i - 1 - j = j by omega]

end Ram

end Zeos.Machine
