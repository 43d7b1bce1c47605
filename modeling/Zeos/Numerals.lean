import Zeos.Io
import Zeos.Machine.Numeral
import Zeos.MmAddress

/-!
# Printing numbers (`libc.c`, `io.c`, `utils.c`, `interrupt.c`)

`itoa` of the C library, `__itoa` of the kernel and `itox` write a numeral into a buffer
that their caller has sized: they store the digits from the least significant one on,
turn them round, and put a zero behind them.  The three bodies are the same but for the
base and the statement that stores a digit, which is what `Radix` collects.

The argument is a signed `int` and the loop runs while it is positive, so a negative
number has no digits: `convert_ofNat` and `convert_of_neg` say what is in the buffer in
the two cases, and the rest follows from them.

The buffers are parameters, the addresses at which the callers have their local arrays,
and what is proved of a store is that it stays in them (`StoresWithin`).  A text is read
back as a string, up to its zero, which is how its readers find its end.  `PrintsText` and
`PrintkText` are what can be printed at all: they quantify over memory and console, and
for `printint` they ask for the descriptor of the console, so that `showsInteger_iff`
settles for which integers the text shows the number.
-/

namespace Zeos

open Machine

/-! ## The conversions -/

/-- A base, with the statement that stores a digit. -/
structure Radix where
  base : ℕ
  one_lt : 1 < base
  le : base ≤ 16
  put : Ram → Addr → ℤ → Ram
  put_bytes : ∀ r p (d : ℕ), d < base → (put r p d).bytes = Function.update r.bytes p (digitChar d)
  put_storesWithin : ∀ r p d, Ram.StoresWithin p 1 r (put r p d)

/-- The loop over the digits: `b[i] = …; a = a/base; i++`. -/
def digitLoop (R : Radix) (b : Addr) (r : Ram) (a : ℤ) (i : ℕ) : Ram × ℕ :=
  if 0 < a then
    digitLoop R b (R.put r (b + BitVec.ofNat 32 i) (a.tmod R.base)) (a.tdiv R.base) (i + 1)
  else (r, i)
termination_by a.toNat
decreasing_by
  have hlt := R.one_lt
  obtain ⟨n, rfl⟩ : ∃ n : ℕ, a = n := ⟨a.toNat, by omega⟩
  have hdiv : n / R.base < n := Nat.div_lt_self (by omega) hlt
  show ((n / R.base : ℕ) : ℤ).toNat < (n : ℤ).toNat
  rwa [Int.toNat_natCast, Int.toNat_natCast]

/-- The body of the three conversions. -/
def convert (R : Radix) (r : Ram) (a : ℤ) (b : Addr) : Ram :=
  if a = 0 then (r.storeByte b 48).storeByte (b + 1#32) 0
  else
    let (r, i) := digitLoop R b r a 0
    let r := r.reverse b i
    r.storeByte (b + BitVec.ofNat 32 i) 0

/-- `b[i]=(a%10)+'0'`. -/
def putDecimal (r : Ram) (p : Addr) (d : ℤ) : Ram := r.storeByte p (BitVec.ofInt 8 (d + 48))

/-- `b[i]=(a%16)+'0'`, and `b[i] - ('9'+1) + 'A'` if that is above `'9'`. -/
def putHexadecimal (r : Ram) (p : Addr) (d : ℤ) : Ram :=
  let r := r.storeByte p (BitVec.ofInt 8 (d + 48))
  if 57 < (r.bytes p).toInt then
    r.storeByte p (BitVec.ofInt 8 ((r.bytes p).toInt - (57 + 1) + 65))
  else r

theorem putDecimal_bytes (r : Ram) (p : Addr) (d : ℕ) (hd : d < 10) :
    (putDecimal r p d).bytes = Function.update r.bytes p (digitChar d) := by
  have hchar : BitVec.ofInt 8 ((d : ℤ) + 48) = digitChar d := by
    rw [digitChar, if_pos hd, show (d : ℤ) + 48 = ((48 + d : ℕ) : ℤ) by omega,
      BitVec.ofInt_natCast]
  rw [putDecimal, Ram.storeByte_bytes, Bytes.write_one, hchar]

theorem putDecimal_storesWithin (r : Ram) (p : Addr) (d : ℤ) :
    Ram.StoresWithin p 1 r (putDecimal r p d) :=
  Ram.StoresWithin.write r _ (by simp)

theorem putHexadecimal_bytes (r : Ram) (p : Addr) (d : ℕ) (hd : d < 16) :
    (putHexadecimal r p d).bytes = Function.update r.bytes p (digitChar d) := by
  have hchar : BitVec.ofInt 8 ((d : ℤ) + 48) = BitVec.ofNat 8 (48 + d) := by
    rw [show (d : ℤ) + 48 = ((48 + d : ℕ) : ℤ) by omega, BitVec.ofInt_natCast]
  have hint : (BitVec.ofNat 8 (48 + d)).toInt = 48 + d := by
    rw [BitVec.toInt_eq_toNat_cond, BitVec.toNat_ofNat]
    split <;> omega
  have hstored : (r.storeByte p (BitVec.ofNat 8 (48 + d))).bytes p = BitVec.ofNat 8 (48 + d) := by
    rw [Ram.storeByte_bytes, Bytes.write_one, Function.update_self]
  simp only [putHexadecimal, hchar, hstored, hint]
  by_cases hten : d < 10
  · rw [if_neg (by omega), Ram.storeByte_bytes, Bytes.write_one, digitChar, if_pos hten]
  · rw [if_pos (by omega), Ram.storeByte_bytes, Ram.storeByte_bytes, Bytes.write_one,
      Bytes.write_one, Function.update_idem, digitChar, if_neg hten,
      show (48 : ℤ) + d - (57 + 1) + 65 = ((55 + d : ℕ) : ℤ) by omega, BitVec.ofInt_natCast]

theorem putHexadecimal_storesWithin (r : Ram) (p : Addr) (d : ℤ) :
    Ram.StoresWithin p 1 r (putHexadecimal r p d) := by
  have hstore : ∀ r v, Ram.StoresWithin p 1 r (r.storeByte p v) :=
    fun r _ => Ram.StoresWithin.write r _ (by simp)
  simp only [putHexadecimal]
  split
  · exact (hstore r _).trans (hstore _ _)
  · exact hstore r _

theorem one_lt_ten : 1 < 10 := by decide

theorem one_lt_sixteen : 1 < 16 := by decide

theorem ten_le_sixteen : 10 ≤ 16 := by decide

/-- Base ten. -/
def decimalRadix : Radix where
  base := 10
  one_lt := one_lt_ten
  le := ten_le_sixteen
  put := putDecimal
  put_bytes := putDecimal_bytes
  put_storesWithin := putDecimal_storesWithin

/-- Base sixteen. -/
def hexadecimalRadix : Radix where
  base := 16
  one_lt := one_lt_sixteen
  le := le_rfl
  put := putHexadecimal
  put_bytes := putHexadecimal_bytes
  put_storesWithin := putHexadecimal_storesWithin

/-- `itoa` of the C library. -/
def itoa (r : Ram) (a : ℤ) (b : Addr) : Ram := convert decimalRadix r a b

/-- `__itoa`, the kernel's copy. -/
def kernelItoa (r : Ram) (a : ℤ) (b : Addr) : Ram := convert decimalRadix r a b

/-- `itox`, in base sixteen. -/
def itox (r : Ram) (a : ℤ) (b : Addr) : Ram := convert hexadecimalRadix r a b

/-! ## What is in the buffer -/

section Convert

variable (R : Radix) (r : Ram) (b : Addr)

theorem digitLoop_of_nonpos {a : ℤ} (h : a ≤ 0) (i : ℕ) : digitLoop R b r a i = (r, i) := by
  rw [digitLoop, if_neg (by omega)]

/-- One round, on natural numbers. -/
theorem digitLoop_of_pos {n : ℕ} (h : 0 < n) (i : ℕ) :
    digitLoop R b r n i =
      digitLoop R b (R.put r (b + BitVec.ofNat 32 i) ((n % R.base : ℕ) : ℤ))
        ((n / R.base : ℕ) : ℤ) (i + 1) := by
  rw [digitLoop, if_pos (by omega)]
  rfl

/-- The digits in memory, the least significant one first. -/
theorem digitLoop_spec (n : ℕ) :
    ∀ (r : Ram) (i : ℕ), (R.base.digits n).length ≤ 2 ^ 32 →
      (digitLoop R b r n i).2 = i + (R.base.digits n).length ∧
      (digitLoop R b r n i).1.bytes =
        r.bytes.write (b + BitVec.ofNat 32 i) (R.base.digits n).length
          (fun k => digitChar ((R.base.digits n).getD k 0)) ∧
      Ram.StoresWithin (b + BitVec.ofNat 32 i) (R.base.digits n).length r
        (digitLoop R b r n i).1 := by
  induction n using Nat.strongRecOn with
  | ind n ih =>
      intro r i hlen
      rcases Nat.eq_zero_or_pos n with rfl | hpos
      · rw [digitLoop_of_nonpos R r b (by simp), Nat.digits_zero]
        exact ⟨rfl, (Bytes.write_zero _ _ _).symm, Ram.StoresWithin.refl _ _ r⟩
      · have hdigits := Nat.digits_def' R.one_lt hpos
        rw [hdigits, List.length_cons] at hlen ⊢
        obtain ⟨hi, hbytes, hstores⟩ := ih (n / R.base) (Nat.div_lt_self hpos R.one_lt)
          (R.put r (b + BitVec.ofNat 32 i) ((n % R.base : ℕ) : ℤ)) (i + 1) (by omega)
        -- the digits of the quotient lie behind the one just stored
        have haddr : b + BitVec.ofNat 32 (i + 1) =
            b + BitVec.ofNat 32 i + BitVec.ofNat 32 1 := by
          rw [BitVec.ofNat_add, BitVec.add_assoc]
        rw [digitLoop_of_pos R r b hpos]
        refine ⟨by omega, ?_, ?_⟩
        · rw [hbytes, R.put_bytes _ _ _ (Nat.mod_lt _ (by have := R.one_lt; omega)),
            ← Bytes.write_one, haddr, Bytes.write_write _ _ 1 _ _ _ (by omega), Nat.add_comm 1]
          refine Bytes.write_congr _ _ fun k _ => ?_
          cases k with
          | zero => rfl
          | succ k => rfl
        · have hone : (b + BitVec.ofNat 32 (i + 1) - (b + BitVec.ofNat 32 i)).toNat = 1 := by
            rw [haddr]
            exact Bytes.toNat_add_sub _ (by omega)
          exact ((R.put_storesWithin _ _ _).mono (by simp)).trans (hstores.mono (by omega))

/-- The digits turned round, with a zero behind them. -/
theorem convert_of_pos {n : ℕ} (hpos : 0 < n) (hlen : (numeral R.base n).length < 2 ^ 32) :
    (convert R r n b).bytes =
        r.bytes.write b ((numeral R.base n).length + 1)
          (fun k => (numeral R.base n ++ [0]).getD k 0) ∧
      Ram.StoresWithin b ((numeral R.base n).length + 1) r (convert R r n b) := by
  have hnumeral : numeral R.base n = _ := numeral_of_pos hpos
  have hlength : (numeral R.base n).length = _ := length_numeral hpos
  rw [hlength] at hlen ⊢
  obtain ⟨hi, hbytes, hstores⟩ := digitLoop_spec R b n r 0 hlen.le
  rw [Nat.zero_add] at hi
  rw [BitVec.add_zero] at hbytes hstores
  have hconvert : convert R r n b =
      ((digitLoop R b r n 0).1.reverse b (digitLoop R b r n 0).2).storeByte
        (b + BitVec.ofNat 32 (digitLoop R b r n 0).2) 0 := by
    rw [convert, if_neg (by omega)]
  rw [hconvert, hi]
  generalize (digitLoop R b r n 0).1 = r₁ at hbytes hstores
  -- the digits are in memory from the least one on, and turning them round is the numeral
  generalize hds : R.base.digits n = ds at *
  constructor
  · rw [Ram.storeByte_bytes, Ram.reverse_bytes r₁ b hlen.le, hbytes, Bytes.write_over,
      Bytes.write_write _ _ _ 1 _ _ (by omega)]
    refine Bytes.write_congr _ _ fun k hk => ?_
    split
    · next hin =>
        rw [Bytes.write_apply_add _ _ _ (by omega) (by omega), hnumeral,
          List.getD_append _ _ _ _ (by simpa using hin), List.map_reverse,
          List.getD_eq_getElem _ _ (by omega), List.getD_eq_getElem _ _ (by simpa using hin),
          List.getElem_reverse, List.getElem_map]
        simp only [List.length_map]
    · next hout =>
        obtain rfl : k = ds.length := by omega
        rw [List.getD_append_right _ _ _ _ (by omega), hlength, Nat.sub_self]
        rfl
  · have hend : (b + BitVec.ofNat 32 ds.length - b).toNat = ds.length :=
      Bytes.toNat_add_sub b hlen
    have hself : ∀ k, k ≤ ds.length → k + (b - b).toNat ≤ ds.length + 1 := by
      intro k hk
      rw [BitVec.sub_self]
      exact hk.trans (Nat.le_succ _)
    refine ((hstores.mono (hself _ le_rfl)).trans
      ((r₁.reverse_storesWithin b hlen.le).mono (hself _ le_rfl))).trans ?_
    exact Ram.StoresWithin.write _ _ (by omega)

/-- **The text of a number that is not negative**, with its zero. -/
theorem convert_ofNat (n : ℕ) (hlen : (numeral R.base n).length < 2 ^ 32) :
    (convert R r n b).bytes =
        r.bytes.write b ((numeral R.base n).length + 1)
          (fun k => (numeral R.base n ++ [0]).getD k 0) ∧
      Ram.StoresWithin b ((numeral R.base n).length + 1) r (convert R r n b) := by
  rcases Nat.eq_zero_or_pos n with rfl | hpos
  · have hzero : convert R r ((0 : ℕ) : ℤ) b = (r.storeByte b 48).storeByte (b + 1#32) 0 := by
      rw [convert, if_pos Nat.cast_zero]
    rw [hzero]
    constructor
    · rw [Ram.storeByte_bytes, Ram.storeByte_bytes]
      refine (Bytes.write_write r.bytes b 1 1 (fun _ => 48) (fun _ => 0) (by omega)).trans ?_
      refine Bytes.write_congr _ _ fun k hk => ?_
      have hk' : k = 0 ∨ k = 1 := by
        change k < 2 at hk
        omega
      rcases hk' with rfl | rfl <;> rfl
    · have hone : (b + 1#32 - b).toNat = 1 := Bytes.toNat_add_sub b (by omega)
      have hlast : Ram.StoresWithin b 2 (r.storeByte b 48)
          ((r.storeByte b 48).storeByte (b + 1#32) 0) :=
        Ram.StoresWithin.write _ _ (by omega)
      exact (Ram.StoresWithin.write r _ (by simp)).trans hlast
  · exact convert_of_pos R r b hpos hlen

/-- **The text of a negative number is empty.** -/
theorem convert_of_neg {a : ℤ} (h : a < 0) : convert R r a b = r.storeByte b 0 := by
  rw [convert, if_neg (by omega), digitLoop_of_nonpos R r b h.le]
  show (r.reverse b 0).storeByte (b + 0#32) 0 = _
  rw [BitVec.add_zero]
  rfl

/-- The numeral is a string. -/
theorem isString_convert (n : ℕ) (hlen : (numeral R.base n).length < 2 ^ 32) :
    (convert R r n b).bytes.IsString b (numeral R.base n) := by
  rw [(convert_ofNat R r b n hlen).1]
  refine Bytes.isString_write r.bytes b (Nat.lt_succ_self _) hlen (fun c hc => ?_)
    fun _ _ => rfl
  rintro rfl
  exact absurd (lt_of_mem_numeral R.one_lt R.le hc) (by decide)

/-- Of a negative number there is an empty string. -/
theorem isString_convert_neg {a : ℤ} (h : a < 0) : (convert R r a b).bytes.IsString b [] := by
  rw [convert_of_neg R r b h, Ram.storeByte_bytes]
  refine Bytes.isString_write r.bytes b Nat.one_pos (by simp) (by simp) fun i hi => ?_
  obtain rfl : i = 0 := Nat.le_zero.mp hi
  rfl

/-- The buffer at `b` holds `text` with its zero, which has not taken more than `limit`
bytes of it, and nothing else has been touched. -/
structure HoldsText (limit : ℕ) (r : Ram) (b : Addr) (text : List Byte) (r' : Ram) : Prop where
  block : r'.bytes.block b (text.length + 1) = text ++ [0]
  stores : Ram.StoresWithin b (text.length + 1) r r'
  others : ∀ x, text.length + 1 ≤ (x - b).toNat → r'.bytes x = r.bytes x
  length_le : text.length + 1 ≤ limit

/-- If `a` is positive, the loop has ended with as many rounds as there are digits, and
`r'` holds the one canonical numeral of `a`. -/
def LeavesNumeral (limit : ℕ) (a : ℤ) (r' : Ram) : Prop :=
  ∀ n : ℕ, 0 < n → a = n → ∃ text, (∀ t, Canonical R.base n t ↔ t = text) ∧
    (digitLoop R b r a 0).2 = text.length ∧ HoldsText limit r b text r'

/-- Numbers of at most `k` digits need `k + 1` bytes. -/
theorem leavesNumeral_convert {k : ℕ} {a : ℤ} (hk : 0 < k) (hlimit : k < 2 ^ 32 - 1)
    (ha : a < (R.base ^ k : ℕ)) : LeavesNumeral R r b (k + 1) a (convert R r a b) := by
  rintro n hpos rfl
  have hlen : (numeral R.base n).length ≤ k :=
    length_numeral_le R.one_lt hk (Int.ofNat_lt.mp ha)
  have hlength : (numeral R.base n).length = _ := length_numeral hpos
  obtain ⟨hbytes, hstores⟩ := convert_ofNat R r b n (by omega)
  refine ⟨numeral R.base n, canonical_iff R.one_lt R.le hpos, ?_, ⟨?_, hstores, ?_, by omega⟩⟩
  · obtain ⟨hrounds, -⟩ := digitLoop_spec R b n r 0 (by omega)
    rw [hrounds, hlength, Nat.zero_add]
  · rw [hbytes]
    refine Bytes.block_write r.bytes b ?_ (le_refl _) (by omega) fun _ _ => rfl
    rw [List.length_append, List.length_singleton]
  · intro x hx
    rw [hbytes]
    exact Bytes.write_apply_of_le r.bytes b _ hx

end Convert

/-- The three conversions are right: of a positive number they leave its numeral in the
buffer, and the two copies of the decimal one leave the same of every number. -/
structure ConvertsRight (r : Ram) (b : Addr) (a : DWord) : Prop where
  itoa : LeavesNumeral decimalRadix r b 11 a.toInt (itoa r a.toInt b)
  kernelItoa : LeavesNumeral decimalRadix r b 11 a.toInt (kernelItoa r a.toInt b)
  itox : LeavesNumeral hexadecimalRadix r b 9 a.toInt (itox r a.toInt b)
  same : Zeos.itoa r a.toInt b = Zeos.kernelItoa r a.toInt b

/-- **The conversions are right** for every buffer and every `int`. -/
theorem convertsRight (r : Ram) (b : Addr) (a : DWord) : ConvertsRight r b a := by
  have hlt := a.toInt_lt
  have hdecimal : LeavesNumeral decimalRadix r b 11 a.toInt
      (convert decimalRadix r a.toInt b) := by
    refine leavesNumeral_convert decimalRadix r b (k := 10) (by omega) (by omega) ?_
    show a.toInt < (10 ^ 10 : ℕ)
    omega
  constructor
  · exact hdecimal
  · exact hdecimal
  · refine leavesNumeral_convert hexadecimalRadix r b (k := 8) (by omega) (by omega) ?_
    show a.toInt < (16 ^ 8 : ℕ)
    omega
  · rfl

/-! ## Printing -/

/-- A call of `write` by a program. -/
structure WriteCall where
  fd : ℤ
  buffer : Addr
  size : ℤ

/-- The characters that the call is to write. -/
def WriteCall.text (call : WriteCall) (m : Bytes) : List Byte :=
  m.block call.buffer call.size.toNat

/-- `strlen`. -/
def strlen (m : Bytes) (a : Addr) : Part ℤ :=
  (scan m a (fun u _ => u) ()).map fun s => (s.1 : ℤ)

/-- `print`, up to the call of `write` that it ends with. -/
def print (m : Bytes) (buffer : Addr) : Part WriteCall :=
  (strlen m buffer).map fun size => ⟨1, buffer, size⟩

/-- `printint`, with its local buffer at `itoaBuff`. -/
def printint (r : Ram) (itoaBuff : Addr) (i : ℤ) : Part (Ram × WriteCall) :=
  let r := itoa r i itoaBuff
  (print r.bytes itoaBuff).map fun call => (r, call)

/-- `printkint`, with its local buffer at `itoaBuff`. -/
def printkint (r : Ram) (itoaBuff : Addr) (con : Console) (i : ℤ) : Part (Ram × Console) :=
  let r := kernelItoa r i itoaBuff
  (printkFrom r.bytes con itoaBuff).map fun con => (r, printk con [newline])

section Strings

variable {m : Bytes} {a : Addr} {cs : List Byte}

theorem print_eq (h : m.IsString a cs) : print m a = Part.some ⟨1, a, cs.length⟩ := by
  rw [print, strlen, h.scan_eq, Part.map_some, Part.map_some]

theorem text_print (h : m.IsString a cs) : WriteCall.text ⟨1, a, cs.length⟩ m = cs := h.block

end Strings

/-! ## Integers -/

/-- The text that is printed of an integer. -/
def textOf (i : ℤ) : List Byte := if i < 0 then [] else decimal i

theorem textOf_ofNat (n : ℕ) : textOf n = numeral 10 n := by
  rw [textOf, if_neg (by omega), decimal, if_neg (by omega), Int.natAbs_natCast]

/-- The eleven bytes of the buffer are enough for every integer, and hold its text. -/
theorem convert_toInt (r : Ram) (b : Addr) (i : DWord) :
    (convert decimalRadix r i.toInt b).bytes.IsString b (textOf i.toInt) ∧
      Ram.StoresWithin b 11 r (convert decimalRadix r i.toInt b) := by
  have hself : (b - b).toNat = 0 := by rw [BitVec.sub_self]; rfl
  rcases lt_or_ge i.toInt 0 with hneg | hpos
  · rw [textOf, if_pos hneg, convert_of_neg decimalRadix r b hneg]
    refine ⟨?_, Ram.StoresWithin.write r _ (by omega)⟩
    have hstring := isString_convert_neg decimalRadix r b hneg
    rwa [convert_of_neg decimalRadix r b hneg] at hstring
  · have hlt := i.toInt_lt
    obtain ⟨n, hn⟩ : ∃ n : ℕ, i.toInt = n := ⟨i.toInt.toNat, by omega⟩
    rw [hn, textOf_ofNat]
    have hlen : (numeral decimalRadix.base n).length ≤ 10 :=
      length_numeral_le one_lt_ten (by decide) (by omega)
    have hstores := (convert_ofNat decimalRadix r b n (by omega)).2
    exact ⟨isString_convert decimalRadix r b n (by omega), hstores.mono (by omega)⟩

theorem printint_eq (r : Ram) (b : Addr) (i : DWord) :
    printint r b i.toInt =
      Part.some (itoa r i.toInt b, ⟨1, b, (textOf i.toInt).length⟩) := by
  have hstring : (itoa r i.toInt b).bytes.IsString b (textOf i.toInt) := (convert_toInt r b i).1
  rw [printint, print_eq hstring, Part.map_some]

theorem printkint_eq (r : Ram) (b : Addr) (con : Console) (i : DWord) :
    printkint r b con i.toInt =
      Part.some (kernelItoa r i.toInt b,
        printc ((textOf i.toInt).foldl printc con) newline) := by
  have hstring : (kernelItoa r i.toInt b).bytes.IsString b (textOf i.toInt) :=
    (convert_toInt r b i).1
  rw [printkint, printkFrom_eq hstring, Part.map_some]
  rfl

/-- `printint` of `i` can print `text`, which it does on the descriptor of the console. -/
def PrintsText (i : DWord) (text : List Byte) : Prop :=
  ∃ r itoaBuff r' call, (r', call) ∈ printint r itoaBuff i.toInt ∧ call.fd = 1 ∧
    call.text r'.bytes = text

/-- `printkint` of `i` can print `text` before its newline. -/
def PrintkText (i : DWord) (text : List Byte) : Prop :=
  ∃ r itoaBuff con r' con', (r', con') ∈ printkint r itoaBuff con i.toInt ∧
    con'.port = con.port ++ text ++ [newline]

theorem printsText_iff (i : DWord) (text : List Byte) :
    PrintsText i text ↔ text = textOf i.toInt := by
  constructor
  · rintro ⟨r, b, r', call, hmem, -, rfl⟩
    rw [printint_eq, Part.mem_some_iff, Prod.mk.injEq] at hmem
    obtain ⟨rfl, rfl⟩ := hmem
    exact text_print (convert_toInt r b i).1
  · rintro rfl
    have hmem := Part.mem_some (itoa ⟨fun _ => 0, []⟩ i.toInt 0,
      (⟨1, 0, (textOf i.toInt).length⟩ : WriteCall))
    rw [← printint_eq] at hmem
    exact ⟨_, _, _, _, hmem, rfl, text_print (convert_toInt _ 0 i).1⟩

theorem port_printkint (con : Console) (text : List Byte) :
    (printc (text.foldl printc con) newline).port = con.port ++ text ++ [newline] := by
  rw [printc_port, foldl_printc_port]

theorem printkText_iff (i : DWord) (text : List Byte) :
    PrintkText i text ↔ text = textOf i.toInt := by
  constructor
  · rintro ⟨r, b, con, r', con', hmem, hport⟩
    rw [printkint_eq, Part.mem_some_iff, Prod.mk.injEq] at hmem
    obtain ⟨rfl, rfl⟩ := hmem
    rw [port_printkint] at hport
    exact (List.append_cancel_left (List.append_cancel_right hport)).symm
  · rintro rfl
    have hmem := Part.mem_some (kernelItoa ⟨fun _ => 0, []⟩ i.toInt 0,
      printc ((textOf i.toInt).foldl printc ⟨0, 0, fun _ => 0, [], []⟩) newline)
    rw [← printkint_eq] at hmem
    exact ⟨_, _, _, _, _, hmem, port_printkint _ _⟩

/-- Printing `i` shows `i`: `printint` and `printkint` come back, having stored in their
buffer only and printed the numeral of `i`, which `printint` does on the descriptor of the
console, and what they print is not empty and is printed of no other integer. -/
structure ShowsInteger (i : DWord) : Prop where
  printint : ∀ r itoaBuff, ∃ r' call, (r', call) ∈ printint r itoaBuff i.toInt ∧
    Ram.StoresWithin itoaBuff 11 r r' ∧ call.fd = 1 ∧
    call.text r'.bytes = decimal i.toInt
  printkint : ∀ r itoaBuff con, ∃ r' con', (r', con') ∈ printkint r itoaBuff con i.toInt ∧
    Ram.StoresWithin itoaBuff 11 r r' ∧
    con'.port = con.port ++ decimal i.toInt ++ [newline]
  nonempty : ¬ PrintsText i [] ∧ ¬ PrintkText i []
  distinct : ∀ j, j ≠ i → ∀ text, ¬ (PrintsText i text ∧ PrintsText j text) ∧
    ¬ (PrintkText i text ∧ PrintkText j text)

theorem textOf_ne {i j : ℤ} (hi : 0 ≤ i) (hne : j ≠ i) : textOf i ≠ textOf j := by
  rw [textOf, textOf, if_neg (by omega)]
  split
  · exact decimal_ne_nil i
  · exact fun h => hne (decimal_injective h).symm

theorem showsInteger_of_nonneg {i : DWord} (h : 0 ≤ i.toInt) : ShowsInteger i := by
  have htext : textOf i.toInt = decimal i.toInt := by rw [textOf, if_neg (by omega)]
  constructor
  · intro r b
    refine ⟨_, _, by rw [printint_eq]; exact Part.mem_some _, (convert_toInt r b i).2, rfl, ?_⟩
    rw [← htext]
    exact text_print (convert_toInt r b i).1
  · intro r b con
    refine ⟨_, _, by rw [printkint_eq]; exact Part.mem_some _, (convert_toInt r b i).2, ?_⟩
    rw [port_printkint, htext]
  · rw [printsText_iff, printkText_iff, htext]
    exact ⟨(decimal_ne_nil _).symm, (decimal_ne_nil _).symm⟩
  · intro j hj text
    have hne : textOf i.toInt ≠ textOf j.toInt :=
      textOf_ne h fun heq => hj (BitVec.toInt_inj.mp heq)
    simp only [printsText_iff, printkText_iff]
    constructor <;> exact fun ⟨hi, hj⟩ => hne (hi.symm.trans hj)

/-- Of a negative integer nothing is printed. -/
theorem not_showsInteger_of_neg {i : DWord} (h : i.toInt < 0) : ¬ ShowsInteger i := by
  intro hshows
  have htext : textOf i.toInt = [] := if_pos h
  exact hshows.nonempty.1 ((printsText_iff i []).mpr htext.symm)

/-- **Printing shows exactly the integers that are not negative.** -/
theorem showsInteger_iff (i : DWord) : ShowsInteger i ↔ 0 ≤ i.toInt := by
  constructor
  · intro h
    by_contra hneg
    exact not_showsInteger_of_neg (by omega) h
  · exact showsInteger_of_nonneg

/-- `printint(-5)` and `printkint(-5)`. -/
theorem not_showsInteger_minus_five : ¬ ShowsInteger (-5#32) :=
  not_showsInteger_of_neg (by decide)

/-! ## The page-fault report -/

/-- The bytes of a string literal. -/
def ascii (s : String) : List Byte := s.toList.map fun c => BitVec.ofNat 8 c.toNat

/-- What `print_page_fault` prints before the address. -/
def pageFaultMessage : List Byte :=
  ascii "Process generates a PAGE FAULT exception at EIP: 0x"

/-- What `print_page_fault` puts into its buffer. -/
def fillReport (r : Ram) (buff : Addr) (eip : ℤ) : Ram :=
  (itox r eip buff).storeByte (buff + 8#32) newline

/-- `print_page_fault`, with its local buffer at `buff`. -/
def printPageFault (r : Ram) (buff : Addr) (con : Console) (eip : ℤ) : Part (Ram × Console) :=
  let con := printk con pageFaultMessage
  let r := fillReport r buff eip
  (printkFrom r.bytes con buff).map fun con => (r, con)

/-- The report is right: it prints the message, the numeral of `eip` and a newline, and
every byte of the buffer that it reads has been written by it. -/
structure ReportsFault (r : Ram) (buff : Addr) (con : Console) (eip : DWord) : Prop where
  output : ∃ r' con', (r', con') ∈ printPageFault r buff con eip.toInt ∧
    con'.port = con.port ++ pageFaultMessage ++ numeral 16 eip.toNat ++ [newline]
  reads : ∀ k, (fillReport r buff eip.toInt).bytes.Scans buff k →
    k < 10 ∧ Ram.Stored r (fillReport r buff eip.toInt) (buff + BitVec.ofNat 32 k)

section Report

variable {r : Ram} {buff : Addr} {con : Console} {eip : DWord}

theorem printk_pageFaultMessage (con : Console) :
    (printk con pageFaultMessage).port = con.port ++ pageFaultMessage := by
  have hnonzero : 0 ∉ pageFaultMessage := by decide
  rw [printk_eq_foldl con hnonzero, foldl_printc_port]

/-- The store behind the numeral leaves a short string as it is. -/
theorem fillReport_isString {cs : List Byte} (hlen : cs.length < 8)
    (h : (itox r eip.toInt buff).bytes.IsString buff cs) :
    (fillReport r buff eip.toInt).bytes.IsString buff cs := by
  refine h.congr fun i hi => ?_
  rw [fillReport, Ram.storeByte_bytes, Bytes.write_one, Function.update_of_ne]
  bv_omega

/-- Of a short string the report prints just that. -/
theorem printPageFault_eq {cs : List Byte}
    (h : (fillReport r buff eip.toInt).bytes.IsString buff cs) :
    printPageFault r buff con eip.toInt =
      Part.some (fillReport r buff eip.toInt,
        cs.foldl printc (printk con pageFaultMessage)) := by
  rw [printPageFault, printkFrom_eq h, Part.map_some]

/-- So it is not right unless that ends with the newline. -/
theorem not_reportsFault_of_isString {cs : List Byte} (hne : cs ≠ numeral 16 eip.toNat ++ [newline])
    (h : (fillReport r buff eip.toInt).bytes.IsString buff cs) :
    ¬ ReportsFault r buff con eip := by
  intro hright
  obtain ⟨r', con', hmem, hport⟩ := hright.output
  rw [printPageFault_eq h, Part.mem_some_iff, Prod.mk.injEq] at hmem
  obtain ⟨-, rfl⟩ := hmem
  rw [foldl_printc_port, printk_pageFaultMessage, List.append_assoc _ _ [newline]] at hport
  exact hne (List.append_cancel_left hport)

/-- An address with the top bit set is negative for `itox`, and nothing is printed. -/
theorem not_reportsFault_of_neg (h : eip.toInt < 0) : ¬ ReportsFault r buff con eip := by
  have hne : [] ≠ numeral 16 eip.toNat ++ [newline] :=
    (List.append_ne_nil_of_right_ne_nil _ (List.cons_ne_nil _ _)).symm
  exact not_reportsFault_of_isString hne
    (fillReport_isString (by simp) (isString_convert_neg hexadecimalRadix r buff h))

/-- A numeral of less than eight digits ends before the newline. -/
theorem not_reportsFault_of_short {n : ℕ} (hn : eip.toInt = n)
    (hshort : (numeral 16 n).length < 8) : ¬ ReportsFault r buff con eip := by
  have heip : eip.toNat = n := by
    rw [BitVec.toInt_eq_toNat_cond] at hn
    split at hn <;> omega
  have hstring : (itox r eip.toInt buff).bytes.IsString buff (numeral 16 n) := by
    rw [hn]
    exact isString_convert hexadecimalRadix r buff n (by show (numeral 16 n).length < _; omega)
  refine not_reportsFault_of_isString ?_ (fillReport_isString hshort hstring)
  rw [heip]
  intro heq
  have hlen := congrArg List.length heq
  rw [List.length_append, List.length_singleton] at hlen
  omega

/-- Of eight digits the newline overwrites the zero, and the next byte is read that
nothing has been stored to. -/
theorem not_reportsFault_of_eight {n : ℕ} (hn : eip.toInt = n)
    (height : (numeral 16 n).length = 8) : ¬ ReportsFault r buff con eip := by
  intro hright
  have hlen : (numeral hexadecimalRadix.base n).length = 8 := height
  have hstores := (convert_ofNat hexadecimalRadix r buff n (by omega)).2
  have hstring : (itox r eip.toInt buff).bytes.IsString buff (numeral 16 n) := by
    rw [hn]
    exact isString_convert hexadecimalRadix r buff n (by omega)
  have hpos : (buff + 8#32 - buff).toNat = 8 := Bytes.toNat_add_sub buff (by omega)
  have hwithin : Ram.StoresWithin buff 9 r (fillReport r buff eip.toInt) := by
    rw [hlen] at hstores
    rw [fillReport, hn]
    exact hstores.trans (Ram.StoresWithin.write _ _ (by omega))
  -- the newline lies over the zero, so the reader goes on to the ninth byte
  have hscans : (fillReport r buff eip.toInt).bytes.Scans buff 9 := by
    intro j hj
    rw [fillReport, Ram.storeByte_bytes, Bytes.write_one]
    rcases Nat.lt_or_ge j 8 with hlt | hge
    · rw [Function.update_of_ne (by bv_omega)]
      exact (hstring.scans_iff 8).mpr height.ge j hlt
    · obtain rfl : j = 8 := by omega
      rw [Function.update_self]
      decide
  have hread := hwithin.of_stored (hright.reads 9 hscans).2
  have hnine : (buff + BitVec.ofNat 32 9 - buff).toNat = 9 :=
    Bytes.toNat_add_sub buff (by omega)
  omega

/-- **The report is never right**, whatever the address and the contents of the
buffer. -/
theorem not_reportsFault (r : Ram) (buff : Addr) (con : Console) (eip : DWord) :
    ¬ ReportsFault r buff con eip := by
  rcases lt_or_ge eip.toInt 0 with hneg | hpos
  · exact not_reportsFault_of_neg hneg
  · have hlt := eip.toInt_lt
    obtain ⟨n, hn⟩ : ∃ n : ℕ, eip.toInt = n := ⟨eip.toInt.toNat, by omega⟩
    have hlen : (numeral 16 n).length ≤ 8 :=
      length_numeral_le one_lt_sixteen (by decide) (by omega)
    rcases lt_or_eq_of_le hlen with hshort | height
    · exact not_reportsFault_of_short hn hshort
    · exact not_reportsFault_of_eight hn height

end Report

/-- A fault at the first address of the user's data: the report has no newline. -/
theorem not_reportsFault_lUserStart :
    ¬ ∀ r buff con, ReportsFault r buff con (BitVec.ofNat 32 lUserStart) := by
  intro hall
  have hn : (BitVec.ofNat 32 lUserStart).toInt = (lUserStart : ℕ) := by decide
  exact not_reportsFault_of_short hn (by decide)
    (hall ⟨fun _ => 0, []⟩ 0 ⟨0, 0, fun _ => 0, [], []⟩)

end Zeos
