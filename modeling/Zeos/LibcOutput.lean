import Zeos.LibcSys
import Zeos.Numerals
import Zeos.PagedWrite

/-!
# The output of a program (`libc.c`, `user.c`)

The functions of the C library that print, with the `write` of `Zeos.LibcSys` below them,
which is taken here for what it does: the service of the kernel, `-1` for its errors, and
`errno`.  What a function has in its own frame (a character, the digits of a number) lies
at an address that the call is given.

`output_run` is about a program that calls them in any order: the console shows what was
asked for, each call returns what it should, and `errno` is the last error.

The program is promised to be one that runs (`OutputCall.Valid`).  Its strings, its frames
and the buffers that it writes lie in its own pages: a string anywhere else faults before the
library has found its end, and a buffer that passes the checks of `write` and goes on behind
the last page faults in the kernel.  This is load-bearing for `write`; for the others it also
means that the kernel's checks let everything pass that they hand to `write`.  So they
never fail, and the tests with which `println`, `printintln` and `printlntest` would
end early never come out that way; `errno` is set by `write` alone, which fails exactly by
its checks.  Of the user's memory nothing changes outside of the stack, which is why the
strings have to be outside of it.
-/

namespace Zeos

open Machine

namespace Libc

/-! ## The functions -/

/-- Memory, the console and `errno`. -/
structure State where
  ram : Ram
  con : Console
  errno : DWord

/-- The strings that the library refers to: `errno_message`, and the two of
`printlntest`. -/
structure Literals where
  message : DWord → Addr
  opening : Addr
  closing : Addr

section Functions

variable (buff : KernelBuffer) (T : Literals)

/-- `write`: the service, and what the wrapper makes of its result. -/
def write (call : WriteCall) (w : State) : Part (ℤ × State) :=
  match sysWrite (BitVec.ofInt 32 call.fd) call.buffer (BitVec.ofInt 32 call.size) buff w.ram
    w.con with
  | none => Part.none
  | some p =>
      if p.1 < 0 then Part.some (-1, ⟨p.2.1, p.2.2, -BitVec.ofInt 32 p.1⟩)
      else Part.some (p.1, ⟨p.2.1, p.2.2, w.errno⟩)

/-- `print`: a string up to its end. -/
def print (buffer : Addr) (w : State) : Part (ℤ × State) :=
  (Zeos.print w.ram.bytes buffer).bind fun call => write buff call w

/-- `printchar`, with its argument at `slot`. -/
def printchar (c : Byte) (slot : Addr) (w : State) : Part (ℤ × State) :=
  write buff ⟨1, slot, 1⟩ { w with ram := w.ram.storeByte slot c }

/-- `printint`, with the digits at `itoaBuff`. -/
def printint (i : ℤ) (itoaBuff : Addr) (w : State) : Part (ℤ × State) :=
  (Zeos.printint w.ram itoaBuff i).bind fun p => write buff p.2 { w with ram := p.1 }

/-- The end of `println` and `printintln`, after the first call. -/
def endLine (slot : Addr) (p : ℤ × State) : Part (ℤ × State) :=
  if p.1 < 0 then Part.some p
  else (printchar buff newline slot p.2).bind fun q =>
    if q.1 < 0 then Part.some q else Part.some (p.1 + 1, q.2)

/-- `println`: a string, and the end of the line if it has been printed. -/
def println (buffer slot : Addr) (w : State) : Part (ℤ × State) :=
  (print buff buffer w).bind (endLine buff slot)

/-- `printintln`: a number, and the end of the line if it has been printed. -/
def printintln (i : ℤ) (itoaBuff slot : Addr) (w : State) : Part (ℤ × State) :=
  (printint buff i itoaBuff w).bind (endLine buff slot)

/-- `perror`: the message of the last error. -/
def perror (slot : Addr) (w : State) : Part State :=
  (println buff (T.message w.errno) slot w).map Prod.snd

/-- `printlntest` of the user program. -/
def printlntest (buffer itoaBuff slot : Addr) (w : State) : Part State :=
  (print buff buffer w).bind fun p =>
    if p.1 < 0 then Part.some p.2
    else (print buff T.opening p.2).bind fun q =>
      (printint buff p.1 itoaBuff q.2).bind fun q =>
        (println buff T.closing slot q.2).map Prod.snd

end Functions

/-! ## What they do -/

/-- The part of user memory that the frames of the functions are in. -/
structure Stack where
  bottom : ℕ
  top : ℕ
  above : lUserStart ≤ bottom
  fits : top ≤ lUserStart + (numPagCode + numPagData) * pageSize

/-- A block of it. -/
def Stack.Has (S : Stack) (a : Addr) (n : ℕ) : Prop := S.bottom ≤ a.toNat ∧ a.toNat + n ≤ S.top

/-- A block in the user's pages. -/
structure Readable (a : Addr) (n : ℕ) : Prop where
  above : lUserStart ≤ a.toNat
  fits : a.toNat + n ≤ lUserStart + (numPagCode + numPagData) * pageSize

/-- A block of user memory that is no part of the stack. -/
structure Off (S : Stack) (a : Addr) (n : ℕ) : Prop extends Readable a n where
  off : a.toNat + n ≤ S.bottom ∨ S.top ≤ a.toNat

/-- A string that stays. -/
structure Literal (S : Stack) (m : Bytes) (a : Addr) (cs : List Byte) : Prop extends
    Off S a (cs.length + 1) where
  string : m.IsString a cs

/-- From `w` to `w'` the text has been printed, and outside of the stack nothing of the
user's memory has changed. -/
structure Printed (S : Stack) (w w' : State) (text : List Byte) : Prop where
  con : w'.con = text.foldl printc w.con
  errno : w'.errno = w.errno
  kept : ∀ a n, Off S a n → ∀ i < n,
    w'.ram.bytes (a + BitVec.ofNat 32 i) = w.ram.bytes (a + BitVec.ofNat 32 i)

section Spec

variable {buff : KernelBuffer} {S : Stack} {w w₁ w₂ : State} {a : Addr} {n : ℕ} {cs cs' : List Byte}

theorem Stack.Has.readable (h : S.Has a n) : Readable a n :=
  ⟨S.above.trans h.1, h.2.trans S.fits⟩

theorem Printed.trans (h : Printed S w w₁ cs) (h' : Printed S w₁ w₂ cs') :
    Printed S w w₂ (cs ++ cs') := by
  refine ⟨?_, h'.errno.trans h.errno, fun a n ha i hi => ?_⟩
  · rw [h'.con, h.con, List.foldl_append]
  · exact (h'.kept a n ha i hi).trans (h.kept a n ha i hi)

theorem Literal.of_printed (h : Literal S w.ram.bytes a cs) (hw : Printed S w w₁ cs') :
    Literal S w₁.ram.bytes a cs :=
  ⟨h.toOff, h.string.congr fun i hi => hw.kept a _ h.toOff i (Nat.lt_succ_of_le hi)⟩

/-- `write` of a block in the user's pages passes the checks. -/
theorem writeError_of_readable (h : Readable a n) : writeError 1 a (BitVec.ofInt 32 n) = 0 := by
  obtain ⟨habove, hfits⟩ := h
  have hsize : (BitVec.ofInt 32 (n : ℤ)).toNat = n := by
    rw [BitVec.ofInt_natCast, BitVec.toNat_ofNat]
    simp only [lUserStart, numPagCode, numPagData, pageSize] at hfits
    omega
  have hlt : (BitVec.ofInt 32 (n : ℤ)).toNat < 2 ^ 31 := by
    simp only [lUserStart, numPagCode, numPagData, pageSize] at hfits
    omega
  have hint : ¬ (BitVec.ofInt 32 (n : ℤ)).toInt < 0 := by
    rw [BitVec.toInt_eq_toNat_of_lt (by omega)]
    omega
  have hnull : a ≠ 0 := by
    rintro rfl
    exact absurd habove (by decide)
  have hcheck : accessOk lectura a (BitVec.ofInt 32 n) ≠ 0 := by
    refine (accessOk_verifyRead_ne_zero_iff a hlt).mpr ⟨habove, ?_⟩
    rw [hsize]
    simp only [lUserStart, numPagCode, numPagData, pageSize] at hfits ⊢
    omega
  rw [writeError, if_neg (by simp), if_neg (not_or.mpr ⟨hnull, hint⟩), if_neg hcheck]

/-- The kernel leaves the user's memory alone. -/
theorem sysWrite_apply {fd : DWord} {buffer : Addr} {size : DWord} {ram ram' : Ram}
    {con con' : Console} {r : ℤ} (h : sysWrite fd buffer size buff ram con = some (r, ram', con'))
    {b : Addr} (hb : lUserStart ≤ b.toNat) : ram'.bytes b = ram.bytes b := by
  have hflat := sysWriteProgram_flat buffer buff h
  have hin := buff.in_kernel
  have hwithin : (sysWriteProgram fd buffer size buff con).Within (fun _ => True)
      (fun a => (a - buff.addr).toNat < buffSize) ram.bytes := by
    refine (sysWriteProgram_within buffer (fun i hi => ⟨trivial, ?_⟩) fd size con _).mpr
      fun _ _ _ => trivial
    rw [Bytes.toNat_add_sub _ (by rw [buffSize] at hi; omega)]
    exact hi
  have hstays := hwithin.flat_apply (a := b) (by
    simp only [lUserStart, buffSize] at *
    bv_omega)
  rwa [hflat] at hstays

variable (buff)

/-- A call of `write` that passes the checks. -/
theorem write_of_readable (S : Stack) (h : Readable a n) (w : State) :
    ∃ w', write buff ⟨1, a, n⟩ w = Part.some ((n : ℤ), w') ∧
      Printed S w w' (w.ram.bytes.block a n) := by
  have hok := writeError_of_readable h
  obtain ⟨hint, -, -⟩ := userBlock_of_writeError_eq_zero hok
  obtain ⟨ram', hsys, -⟩ := sysWrite_of_ok buff w.ram w.con hok
  have hsize : (BitVec.ofInt 32 (n : ℤ)).toNat = n := by
    have hfits := h.fits
    rw [BitVec.ofInt_natCast, BitVec.toNat_ofNat]
    simp only [lUserStart, numPagCode, numPagData, pageSize] at hfits
    omega
  rw [hint, hsize] at hsys
  refine ⟨⟨ram', (w.ram.bytes.block a n).foldl printc w.con, w.errno⟩, ?_, rfl, rfl, ?_⟩
  · have hcall : sysWrite (BitVec.ofInt 32 1) a (BitVec.ofInt 32 n) buff w.ram w.con = _ := hsys
    rw [write, hcall]
    exact if_neg (by simp)
  · intro b k hb i hi
    refine sysWrite_apply hsys ?_
    obtain ⟨⟨habove, hfits⟩, -⟩ := hb
    simp only [lUserStart, numPagCode, numPagData, pageSize] at habove hfits ⊢
    bv_omega

/-- What is stored into the stack changes nothing outside. -/
theorem Printed.of_frame (h : S.Has a n) (w : State) {ram : Ram}
    (hram : ∀ b, n ≤ (b - a).toNat → ram.bytes b = w.ram.bytes b) :
    Printed S w { w with ram := ram } [] := by
  refine ⟨rfl, rfl, fun b k hb i hi => hram _ ?_⟩
  obtain ⟨hbottom, htop⟩ := h
  obtain ⟨⟨-, hfits⟩, hoff⟩ := hb
  have hstack := S.fits
  simp only [lUserStart, numPagCode, numPagData, pageSize] at hfits hstack
  rcases hoff with hbelow | habove
  · bv_omega
  · bv_omega

/-- `print` of a string. -/
theorem print_spec (S : Stack) (w : State) (h : Readable a cs.length)
    (hstring : w.ram.bytes.IsString a cs) :
    ∃ w', print buff a w = Part.some ((cs.length : ℤ), w') ∧ Printed S w w' cs := by
  obtain ⟨w', hwrite, hprinted⟩ := write_of_readable buff S h w
  rw [hstring.block] at hprinted
  refine ⟨w', ?_, hprinted⟩
  rw [print, print_eq hstring, Part.bind_some, hwrite]

theorem printchar_spec (c : Byte) (h : S.Has a 1) (w : State) :
    ∃ w', printchar buff c a w = Part.some (1, w') ∧ Printed S w w' [c] := by
  obtain ⟨w', hwrite, hprinted⟩ :=
    write_of_readable buff S h.readable { w with ram := w.ram.storeByte a c }
  have hframe : Printed S w { w with ram := w.ram.storeByte a c } [] :=
    Printed.of_frame h w fun b hb => by
      rw [Ram.storeByte_bytes]
      exact Bytes.write_apply_of_le w.ram.bytes a _ hb
  have hblock : (w.ram.storeByte a c).bytes.block a 1 = [c] := by
    rw [Ram.storeByte_bytes]
    refine Bytes.block_write w.ram.bytes a (List.length_singleton).symm (le_refl 1) (by omega) ?_
    intro i hi
    obtain rfl : i = 0 := Nat.lt_one_iff.mp hi
    rfl
  dsimp only at hprinted
  rw [hblock] at hprinted
  exact ⟨w', hwrite, hframe.trans hprinted⟩

/-- `itoa` uses no more than the eleven bytes of the buffer. -/
theorem itoa_apply_of_le (r : Ram) (b : Addr) (i : DWord) {x : Addr} (hx : 11 ≤ (x - b).toNat) :
    (itoa r i.toInt b).bytes x = r.bytes x := by
  rw [itoa]
  rcases lt_or_ge i.toInt 0 with hneg | hpos
  · rw [convert_of_neg decimalRadix r b hneg, Ram.storeByte_bytes]
    exact Bytes.write_apply_of_le _ _ _ (by omega)
  · have hlt := i.toInt_lt
    obtain ⟨n, hn⟩ : ∃ n : ℕ, i.toInt = n := ⟨i.toInt.toNat, by omega⟩
    have hlen : (numeral decimalRadix.base n).length ≤ 10 :=
      length_numeral_le one_lt_ten (by decide) (by omega)
    rw [hn, (convert_ofNat decimalRadix r b n (by omega)).1]
    exact Bytes.write_apply_of_le _ _ _ (by omega)

theorem length_textOf_le (i : DWord) : (textOf i.toInt).length ≤ 10 := by
  rcases lt_or_ge i.toInt 0 with hneg | hpos
  · rw [textOf, if_pos hneg]
    exact Nat.zero_le _
  · have hlt := i.toInt_lt
    obtain ⟨n, hn⟩ : ∃ n : ℕ, i.toInt = n := ⟨i.toInt.toNat, by omega⟩
    rw [hn, textOf_ofNat]
    exact length_numeral_le one_lt_ten (by decide) (by omega)

theorem printint_spec (i : DWord) (h : S.Has a 11) (w : State) :
    ∃ w', printint buff i.toInt a w = Part.some (((textOf i.toInt).length : ℤ), w') ∧
      Printed S w w' (textOf i.toInt) := by
  have hlen := length_textOf_le i
  have hread := h.readable
  have htext : Readable a (textOf i.toInt).length := ⟨hread.above, by have := hread.fits; omega⟩
  obtain ⟨w', hwrite, hprinted⟩ :=
    write_of_readable buff S htext { w with ram := itoa w.ram i.toInt a }
  have hframe : Printed S w { w with ram := itoa w.ram i.toInt a } [] :=
    Printed.of_frame h w fun b hb => itoa_apply_of_le w.ram a i hb
  have hblock : (itoa w.ram i.toInt a).bytes.block a (textOf i.toInt).length = textOf i.toInt :=
    (convert_toInt w.ram a i).1.block
  dsimp only at hprinted
  rw [hblock] at hprinted
  refine ⟨w', ?_, hframe.trans hprinted⟩
  rw [printint, printint_eq, Part.bind_some, hwrite]

/-- The newline behind a text that has been printed. -/
theorem endLine_spec (h : S.Has a 1) (hw : Printed S w w₁ cs) :
    ∃ w', endLine buff a ((cs.length : ℤ), w₁) = Part.some ((cs.length : ℤ) + 1, w') ∧
      Printed S w w' (cs ++ [newline]) := by
  obtain ⟨w', hchar, hprinted⟩ := printchar_spec buff newline h w₁
  refine ⟨w', ?_, hw.trans hprinted⟩
  rw [endLine, if_neg (by simp), hchar, Part.bind_some]
  exact if_neg (by simp)

theorem println_spec {slot : Addr} (hslot : S.Has slot 1) (h : Readable a cs.length)
    (hstring : w.ram.bytes.IsString a cs) :
    ∃ w', println buff a slot w = Part.some ((cs.length : ℤ) + 1, w') ∧
      Printed S w w' (cs ++ [newline]) := by
  obtain ⟨w₁, hprint, hprinted⟩ := print_spec buff S w h hstring
  obtain ⟨w', hend, hline⟩ := endLine_spec buff hslot hprinted
  refine ⟨w', ?_, hline⟩
  rw [println, hprint, Part.bind_some, hend]

theorem printintln_spec {slot : Addr} (i : DWord) (h : S.Has a 11) (hslot : S.Has slot 1)
    (w : State) :
    ∃ w', printintln buff i.toInt a slot w = Part.some (((textOf i.toInt).length : ℤ) + 1, w') ∧
      Printed S w w' (textOf i.toInt ++ [newline]) := by
  obtain ⟨w₁, hprint, hprinted⟩ := printint_spec buff i h w
  obtain ⟨w', hend, hline⟩ := endLine_spec buff hslot hprinted
  refine ⟨w', ?_, hline⟩
  rw [printintln, hprint, Part.bind_some, hend]

/-- `write`, whatever its arguments, as long as what it may read is in the user's pages. -/
theorem write_spec (S : Stack) (fd : DWord) (buffer : Addr) (size : DWord)
    (h : writeError fd buffer size = 0 → Readable buffer size.toNat) (w : State) :
    ∃ w',
      (writeError fd buffer size = 0 →
        write buff ⟨fd.toInt, buffer, size.toInt⟩ w = Part.some (size.toInt, w') ∧
          Printed S w w' (w.ram.bytes.block buffer size.toNat)) ∧
      (writeError fd buffer size ≠ 0 →
        write buff ⟨fd.toInt, buffer, size.toInt⟩ w = Part.some (-1, w') ∧
          w' = { w with errno := -BitVec.ofInt 32 (writeError fd buffer size) }) := by
  by_cases hok : writeError fd buffer size = 0
  · obtain ⟨hint, -, -⟩ := userBlock_of_writeError_eq_zero hok
    obtain rfl : fd = 1 := by
      by_contra hfd
      rw [writeError, if_pos hfd] at hok
      exact absurd hok (by decide)
    obtain ⟨w', hwrite, hprinted⟩ := write_of_readable buff S (h hok) w
    rw [← hint] at hwrite
    exact ⟨w', fun _ => ⟨hwrite, hprinted⟩, fun hne => absurd hok hne⟩
  · refine ⟨_, fun heq => absurd heq hok, fun _ => ⟨?_, rfl⟩⟩
    have hneg : writeError fd buffer size < 0 := by
      unfold writeError at hok ⊢
      split_ifs at hok ⊢ <;> omega
    rw [write, BitVec.ofInt_toInt, BitVec.ofInt_toInt, sysWrite_of_error buff w.ram w.con hok]
    exact if_pos hneg

/-- The text that `perror` prints. -/
def errnoText (errno : DWord) : List Byte := ascii (errnoMessage.getD errno.toNat "")

theorem perror_spec {T : Literals} {slot : Addr} (hslot : S.Has slot 1)
    (h : Literal S w.ram.bytes (T.message w.errno) (errnoText w.errno)) :
    ∃ w', perror buff T slot w = Part.some w' ∧
      Printed S w w' (errnoText w.errno ++ [newline]) := by
  obtain ⟨w', hprint, hprinted⟩ :=
    println_spec buff hslot ⟨h.above, (Nat.le_succ _).trans h.fits⟩ h.string
  refine ⟨w', ?_, hprinted⟩
  rw [perror, hprint, Part.map_some]

/-- The four parts of `printlntest`. -/
theorem printlntest_spec {T : Literals} {itoaBuff slot : Addr} (hbuff : S.Has itoaBuff 11)
    (hslot : S.Has slot 1) (h : Literal S w.ram.bytes a cs)
    (hopening : Literal S w.ram.bytes T.opening (ascii " ("))
    (hclosing : Literal S w.ram.bytes T.closing (ascii " bytes)")) :
    ∃ w', printlntest buff T a itoaBuff slot w = Part.some w' ∧
      Printed S w w' (cs ++ ascii " (" ++ textOf cs.length ++ (ascii " bytes)" ++ [newline])) := by
  have hread : ∀ {m : Bytes} {a cs}, Literal S m a cs → Readable a cs.length := fun h =>
    ⟨h.above, (Nat.le_succ _).trans h.fits⟩
  have hlen : (BitVec.ofNat 32 cs.length).toInt = cs.length := by
    have hfits := h.fits
    simp only [lUserStart, numPagCode, numPagData, pageSize] at hfits
    rw [BitVec.toInt_eq_toNat_of_lt] <;> rw [BitVec.toNat_ofNat, Nat.mod_eq_of_lt (by omega)]
    omega
  obtain ⟨w₁, hprint₁, h₁⟩ := print_spec buff S w (hread h) h.string
  obtain ⟨w₂, hprint₂, h₂⟩ := print_spec buff S w₁ (hread hopening)
    (hopening.of_printed h₁).string
  obtain ⟨w₃, hprint₃, h₃⟩ := printint_spec buff (BitVec.ofNat 32 cs.length) hbuff w₂
  have hall := (h₁.trans h₂).trans h₃
  obtain ⟨w₄, hprint₄, h₄⟩ := println_spec buff hslot (hread hclosing)
    (hclosing.of_printed hall).string
  rw [hlen] at hprint₃ hall
  refine ⟨w₄, ?_, hall.trans h₄⟩
  rw [printlntest, hprint₁, Part.bind_some, if_neg (by simp), hprint₂, Part.bind_some, hprint₃,
    Part.bind_some, hprint₄, Part.map_some]

end Spec

/-! ## Any order of calls -/

/-- A call of one of the functions, with the places of what it has in its frame. -/
inductive OutputCall
  | write (fd : DWord) (buffer : Addr) (size : DWord)
  | print (buffer : Addr)
  | println (buffer slot : Addr)
  | printchar (c : Byte) (slot : Addr)
  | printint (i : DWord) (itoaBuff : Addr)
  | printintln (i : DWord) (itoaBuff slot : Addr)
  | perror (slot : Addr)
  | printlntest (buffer itoaBuff slot : Addr)

/-- What a call returns, if anything. -/
def returned (p : ℤ × State) : Option ℤ × State := (some p.1, p.2)

/-- What a call leaves that returns nothing. -/
def returnedNothing (w : State) : Option ℤ × State := (none, w)

/-- The call. -/
def OutputCall.run (buff : KernelBuffer) (T : Literals) (w : State) :
    OutputCall → Part (Option ℤ × State)
  | .write fd buffer size => (Libc.write buff ⟨fd.toInt, buffer, size.toInt⟩ w).map returned
  | .print buffer => (Libc.print buff buffer w).map returned
  | .println buffer slot => (Libc.println buff buffer slot w).map returned
  | .printchar c slot => (Libc.printchar buff c slot w).map returned
  | .printint i itoaBuff => (Libc.printint buff i.toInt itoaBuff w).map returned
  | .printintln i itoaBuff slot => (Libc.printintln buff i.toInt itoaBuff slot w).map returned
  | .perror slot => (Libc.perror buff T slot w).map returnedNothing
  | .printlntest buffer itoaBuff slot =>
      (Libc.printlntest buff T buffer itoaBuff slot w).map returnedNothing

/-- The calls of a program, and what they return. -/
def runCalls (buff : KernelBuffer) (T : Literals) :
    List OutputCall → State → Part (List (Option ℤ) × State)
  | [], w => Part.some ([], w)
  | call :: calls, w =>
      (call.run buff T w).bind fun p => (runCalls buff T calls p.2).map fun q => (p.1 :: q.1, q.2)

/-- What a call should do: its result, its text, and the `errno` behind it. -/
structure Account where
  result : Option ℤ
  text : List Byte
  errno : DWord

section Accounts

variable (str : Addr → List Byte) (m : Bytes)

/-- What each call should do.  `str` are the strings in memory, and `m` is the memory.  Only
`write` has errors to account for. -/
def OutputCall.account (errno : DWord) : OutputCall → Account
  | .write fd buffer size =>
      if writeError fd buffer size = 0 then
        ⟨some size.toInt, m.block buffer size.toNat, errno⟩
      else ⟨some (-1), [], -BitVec.ofInt 32 (writeError fd buffer size)⟩
  | .print buffer => ⟨some (str buffer).length, str buffer, errno⟩
  | .println buffer _ => ⟨some ((str buffer).length + 1), str buffer ++ [newline], errno⟩
  | .printchar c _ => ⟨some 1, [c], errno⟩
  | .printint i _ => ⟨some (textOf i.toInt).length, textOf i.toInt, errno⟩
  | .printintln i _ _ =>
      ⟨some ((textOf i.toInt).length + 1), textOf i.toInt ++ [newline], errno⟩
  | .perror _ => ⟨none, errnoText errno ++ [newline], errno⟩
  | .printlntest buffer _ _ =>
      ⟨none, str buffer ++ ascii " (" ++ textOf (str buffer).length ++
        (ascii " bytes)" ++ [newline]), errno⟩

/-- What the calls of a program should do. -/
def accounts : List OutputCall → DWord → List Account
  | [], _ => []
  | call :: calls, errno =>
      call.account str m errno :: accounts calls (call.account str m errno).errno

/-- The call is one of a program that does not fault: its strings are in the user's pages
outside of the stack, its frame is in the stack, and a block that `write` lets pass is in
the user's pages, too. -/
def OutputCall.Valid (S : Stack) : OutputCall → Prop
  | .write fd buffer size => writeError fd buffer size = 0 → Off S buffer size.toNat
  | .print buffer => Literal S m buffer (str buffer)
  | .println buffer slot => Literal S m buffer (str buffer) ∧ S.Has slot 1
  | .printchar _ slot => S.Has slot 1
  | .printint _ itoaBuff => S.Has itoaBuff 11
  | .printintln _ itoaBuff slot => S.Has itoaBuff 11 ∧ S.Has slot 1
  | .perror slot => S.Has slot 1
  | .printlntest buffer itoaBuff slot =>
      Literal S m buffer (str buffer) ∧ S.Has itoaBuff 11 ∧ S.Has slot 1

end Accounts

/-- The values of `errno`: what it was, and the errors of `sys_write`. -/
def Known (errno₀ errno : DWord) : Prop := errno = errno₀ ∨ errno = 9 ∨ errno = 22 ∨ errno = 14

/-- The library's strings are in memory. -/
structure Literals.Valid (T : Literals) (S : Stack) (m : Bytes) (errno₀ : DWord) : Prop where
  message : ∀ errno, Known errno₀ errno → Literal S m (T.message errno) (errnoText errno)
  opening : Literal S m T.opening (ascii " (")
  closing : Literal S m T.closing (ascii " bytes)")

/-- What is sure between calls. -/
structure Between (S : Stack) (m : Bytes) (errno₀ : DWord) (w : State) : Prop where
  kept : ∀ a n, Off S a n → ∀ i < n,
    w.ram.bytes (a + BitVec.ofNat 32 i) = m (a + BitVec.ofNat 32 i)
  known : Known errno₀ w.errno

section Run

variable {buff : KernelBuffer} {T : Literals} {S : Stack} {str : Addr → List Byte} {m : Bytes}
  {errno₀ : DWord} {w w' : State} {a : Addr} {cs : List Byte}

theorem Literal.of_between (h : Literal S m a cs) (hw : Between S m errno₀ w) :
    Literal S w.ram.bytes a cs :=
  ⟨h.toOff, h.string.congr fun i hi => hw.kept a _ h.toOff i (Nat.lt_succ_of_le hi)⟩

theorem Between.of_printed (hw : Between S m errno₀ w) (h : Printed S w w' cs) :
    Between S m errno₀ w' :=
  ⟨fun a n ha i hi => (h.kept a n ha i hi).trans (hw.kept a n ha i hi), h.errno ▸ hw.known⟩

/-- The call has done what the account says. -/
structure Did (S : Stack) (m : Bytes) (errno₀ : DWord) (w w' : State) (acc : Account) : Prop where
  con : w'.con = acc.text.foldl printc w.con
  errno : w'.errno = acc.errno
  between : Between S m errno₀ w'

theorem Did.of_printed (hw : Between S m errno₀ w) (h : Printed S w w' cs) (r : Option ℤ) :
    Did S m errno₀ w w' ⟨r, cs, w.errno⟩ :=
  ⟨h.con, h.errno, hw.of_printed h⟩

/-- The errors of `write` have texts. -/
theorem known_writeError {fd : DWord} {buffer : Addr} {size : DWord} (errno₀ : DWord)
    (h : writeError fd buffer size ≠ 0) :
    Known errno₀ (-BitVec.ofInt 32 (writeError fd buffer size)) := by
  have hcode : writeError fd buffer size = -9 ∨ writeError fd buffer size = -22 ∨
      writeError fd buffer size = -14 := by
    unfold writeError at h ⊢
    split_ifs at h ⊢ <;> simp_all
  rcases hcode with hcode | hcode | hcode <;> rw [hcode]
  · exact Or.inr (Or.inl (by decide))
  · exact Or.inr (Or.inr (Or.inl (by decide)))
  · exact Or.inr (Or.inr (Or.inr (by decide)))

variable (buff)

/-- **A call does what it should.** -/
theorem OutputCall.run_spec (hT : T.Valid S m errno₀) {call : OutputCall}
    (hcall : call.Valid str m S) (hw : Between S m errno₀ w) :
    ∃ w', call.run buff T w = Part.some ((call.account str m w.errno).result, w') ∧
      Did S m errno₀ w w' (call.account str m w.errno) := by
  -- what is literal is readable, so the specification of each function applies
  have hread : ∀ {a cs}, Literal S w.ram.bytes a cs → Readable a cs.length := fun h =>
    ⟨h.above, (Nat.le_succ _).trans h.fits⟩
  cases call with
  | write fd buffer size =>
      obtain ⟨w', hok, herror⟩ := write_spec buff S fd buffer size
        (fun hz => (hcall hz).toReadable) w
      refine ⟨w', ?_⟩
      rw [OutputCall.account]
      by_cases hz : writeError fd buffer size = 0
      · obtain ⟨hrun, hprinted⟩ := hok hz
        have hblock : w.ram.bytes.block buffer size.toNat = m.block buffer size.toNat :=
          Bytes.block_congr fun i hi => hw.kept buffer _ (hcall hz) i hi
        rw [hblock] at hprinted
        rw [if_pos hz]
        refine ⟨?_, Did.of_printed hw hprinted _⟩
        rw [OutputCall.run, hrun, Part.map_some]
        rfl
      · obtain ⟨hrun, rfl⟩ := herror hz
        rw [if_neg hz]
        refine ⟨?_, rfl, rfl, hw.kept, known_writeError errno₀ hz⟩
        rw [OutputCall.run, hrun, Part.map_some]
        rfl
  | print buffer =>
      have h := Literal.of_between hcall hw
      obtain ⟨w', hrun, hprinted⟩ := print_spec buff S w (hread h) h.string
      refine ⟨w', ?_, Did.of_printed hw hprinted _⟩
      rw [OutputCall.run, hrun, Part.map_some]
      rfl
  | println buffer slot =>
      have h := Literal.of_between hcall.1 hw
      obtain ⟨w', hrun, hprinted⟩ := println_spec buff hcall.2 (hread h) h.string
      refine ⟨w', ?_, Did.of_printed hw hprinted _⟩
      rw [OutputCall.run, hrun, Part.map_some]
      rfl
  | printchar c slot =>
      obtain ⟨w', hrun, hprinted⟩ := printchar_spec buff c hcall w
      refine ⟨w', ?_, Did.of_printed hw hprinted _⟩
      rw [OutputCall.run, hrun, Part.map_some]
      rfl
  | printint i itoaBuff =>
      obtain ⟨w', hrun, hprinted⟩ := printint_spec buff i hcall w
      refine ⟨w', ?_, Did.of_printed hw hprinted _⟩
      rw [OutputCall.run, hrun, Part.map_some]
      rfl
  | printintln i itoaBuff slot =>
      obtain ⟨w', hrun, hprinted⟩ := printintln_spec buff i hcall.1 hcall.2 w
      refine ⟨w', ?_, Did.of_printed hw hprinted _⟩
      rw [OutputCall.run, hrun, Part.map_some]
      rfl
  | perror slot =>
      obtain ⟨w', hrun, hprinted⟩ := perror_spec buff (T := T) hcall
        ((hT.message _ hw.known).of_between hw)
      refine ⟨w', ?_, Did.of_printed hw hprinted _⟩
      rw [OutputCall.run, hrun, Part.map_some]
      rfl
  | printlntest buffer itoaBuff slot =>
      obtain ⟨w', hrun, hprinted⟩ := printlntest_spec buff (T := T) hcall.2.1 hcall.2.2
        (Literal.of_between hcall.1 hw) (hT.opening.of_between hw) (hT.closing.of_between hw)
      refine ⟨w', ?_, Did.of_printed hw hprinted _⟩
      rw [OutputCall.run, hrun, Part.map_some]
      rfl

/-- A run of calls, from a point between two. -/
theorem runCalls_spec (hT : T.Valid S m errno₀) (calls : List OutputCall)
    (hcalls : ∀ call ∈ calls, call.Valid str m S) (hw : Between S m errno₀ w) :
    ∃ w',
      runCalls buff T calls w =
        Part.some ((accounts str m calls w.errno).map Account.result, w') ∧
      w'.con = ((accounts str m calls w.errno).flatMap Account.text).foldl printc w.con ∧
      w'.errno = (accounts str m calls w.errno).foldl (fun _ acc => acc.errno) w.errno ∧
      Between S m errno₀ w' := by
  induction calls generalizing w with
  | nil => exact ⟨w, rfl, rfl, rfl, hw⟩
  | cons call calls ih =>
      obtain ⟨hcall, hrest⟩ := List.forall_mem_cons.mp hcalls
      obtain ⟨w₁, hrun, hcon, herrno, hbetween⟩ := OutputCall.run_spec buff hT hcall hw
      obtain ⟨w', hruns, hcons, herrnos, hbetween'⟩ := ih hrest hbetween
      rw [herrno] at hruns hcons herrnos
      refine ⟨w', ?_, ?_, herrnos, hbetween'⟩
      · rw [runCalls, hrun, Part.bind_some, hruns, Part.map_some]
        rfl
      · rw [hcons, hcon, accounts, List.flatMap_cons, List.foldl_append]

/-- **A program that prints.**  In any order of calls, with their strings and buffers in the
user's pages outside of the stack, every call comes back with the result that it should
have; the console has been given the texts one after another, and `errno` is that of the
last error. -/
theorem output_run (buff : KernelBuffer) (w : State) (hT : T.Valid S w.ram.bytes w.errno)
    (calls : List OutputCall) (hcalls : ∀ call ∈ calls, call.Valid str w.ram.bytes S) :
    ∃ w',
      runCalls buff T calls w =
        Part.some ((accounts str w.ram.bytes calls w.errno).map Account.result, w') ∧
      w'.con =
        ((accounts str w.ram.bytes calls w.errno).flatMap Account.text).foldl printc w.con ∧
      w'.errno =
        (accounts str w.ram.bytes calls w.errno).foldl (fun _ acc => acc.errno) w.errno := by
  obtain ⟨w', hrun, hcon, herrno, -⟩ := runCalls_spec buff hT calls hcalls
    ⟨fun _ _ _ _ _ => rfl, Or.inl rfl⟩
  exact ⟨w', hrun, hcon, herrno⟩

end Run

/-- The strings of a small program, one after another. -/
def someText : List Byte :=
  ascii " (" ++ [0] ++ ascii " bytes)" ++ [0] ++ ascii "Bad file number" ++ [0] ++
    ascii "Bad address" ++ [0] ++ ascii "Invalid argument" ++ [0] ++ ascii "alive" ++ [0]

/-- A program's memory with its strings and an empty screen. -/
def someState : State :=
  ⟨⟨fun a => someText.getD (a - 0x10a000#32).toNat 0, []⟩, ⟨0, 0, fun _ => 0, [], []⟩, 0⟩

/-- Where the strings of the library lie in it. -/
def someLiterals : Literals where
  message e := if e = 9 then 0x10a00b else if e = 14 then 0x10a01b else if e = 22 then 0x10a027 else
    0x10a002
  opening := 0x10a000
  closing := 0x10a003

/-- A stack behind the strings. -/
def someStack : Stack := ⟨0x111000, 0x113000, by decide, by decide⟩

/-- A text with its length, a `write` to a file that is not open, and its error. -/
def someCalls : List OutputCall :=
  [.printlntest 0x10a038 0x112000 0x112010, .write 0 0x10a038 3, .perror 0x112010]

theorem literal_someState {a : Addr} {cs : List Byte} (habove : lUserStart ≤ a.toNat)
    (hfits : a.toNat + (cs.length + 1) ≤ 0x111000)
    (hblock : someState.ram.bytes.block a cs.length = cs) (hnonzero : ∀ c ∈ cs, c ≠ 0)
    (hstop : someState.ram.bytes (a + BitVec.ofNat 32 cs.length) = 0) :
    Literal someStack someState.ram.bytes a cs :=
  ⟨⟨⟨habove, hfits.trans (by decide)⟩, Or.inl hfits⟩, hblock, hnonzero, hstop⟩

theorem valid_someLiterals : someLiterals.Valid someStack someState.ram.bytes 0 := by
  constructor
  · rintro errno (rfl | rfl | rfl | rfl)
    all_goals exact literal_someState (by decide) (by decide) (by decide) (by decide) (by decide)
  · exact literal_someState (by decide) (by decide) (by decide) (by decide) (by decide)
  · exact literal_someState (by decide) (by decide) (by decide) (by decide) (by decide)

theorem output_run_three : ∃ w',
    runCalls stackBuffer someLiterals someCalls someState =
      Part.some ([none, some (-1), none], w') ∧ w'.errno = 9 := by
  have halive : Literal someStack someState.ram.bytes 0x10a038 (ascii "alive") :=
    literal_someState (by decide) (by decide) (by decide) (by decide) (by decide)
  have hcalls : ∀ call ∈ someCalls,
      call.Valid (fun _ => ascii "alive") someState.ram.bytes someStack := by
    simp only [someCalls, List.forall_mem_cons]
    exact ⟨⟨halive, ⟨by decide, by decide⟩, by decide, by decide⟩,
      fun hok => absurd hok (by decide), ⟨by decide, by decide⟩, by simp⟩
  obtain ⟨w', hrun, -, herrno⟩ :=
    output_run stackBuffer someState valid_someLiterals someCalls hcalls
  exact ⟨w', hrun, herrno⟩

end Libc

end Zeos
