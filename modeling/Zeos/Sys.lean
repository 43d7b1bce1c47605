import Zeos.Io
import Zeos.Utils

/-!
# The write system call (`sys.c`)

`sys_write` checks its arguments and then moves the user's bytes to the console
through a buffer of 128 bytes on the kernel stack: full chunks as long as more
than 128 bytes are left, and one last chunk of what remains.

The signed counters of the loop are integers; where one of them would leave the
range of an `int` the model has no result, as the overflow of a signed integer
has no meaning in C.

* `sysWrite_correct` settles the call completely: which check fails first, or
  which bytes are printed.
* `sysWrite_confidential` compares two memories that differ only below the
  first user page.

Nothing is assumed of the arguments: descriptor, address and size are any words, memory is
any memory, and the buffer on the kernel's stack may be anywhere in the kernel's pages,
which the structure `KernelBuffer` carries.  That the counters stay in range is so part of
the result, in the existence of `ram'` and `con'`.  The order of the tests is that of the
source, and each error is returned with memory and console unchanged.  Under paging the
same call is looked at again in `Zeos.PagedWrite`, where it can fault.
-/

namespace Zeos

open Machine

/-- A value that an `int` can hold. -/
def InInt (i : ℤ) : Prop := -2 ^ 31 ≤ i ∧ i < 2 ^ 31

instance (i : ℤ) : Decidable (InInt i) :=
  inferInstanceAs (Decidable (-2 ^ 31 ≤ i ∧ i < 2 ^ 31))

/-- `LECTURA`, the permission to read. -/
def lectura : ℤ := 0

/-- `ESCRIPTURA`, the permission to write. -/
def escriptura : ℤ := 1

/-- `check_fd`: the only descriptor is 1, and it can be written to. -/
def checkFd (fd : DWord) (permissions : ℤ) : ℤ :=
  if fd ≠ 1 then -9  -- EBADF
  else if permissions ≠ escriptura then -13  -- EACCES
  else 0

/-- The size of the buffer. -/
def buffSize : ℕ := 128

/-- The place of the buffer: a local array, on the kernel stack and so in kernel
memory. -/
structure KernelBuffer where
  addr : Addr
  in_kernel : addr.toNat + buffSize ≤ lUserStart

/-- The state of the loop. -/
structure WriteState where
  ram : Ram
  con : Console
  written : ℤ
  current : ℤ
  left : ℤ

/-- Copy `n` bytes from `&buffer[current]` to the kernel buffer and print them.
The third component is what `sys_write_console` returns. -/
def writeChunk (buffer : Addr) (buff : KernelBuffer) (ram : Ram) (con : Console)
    (current n : ℤ) : Ram × Console × ℤ :=
  let (ram, _) := copyFromUser ram (buffer + BitVec.ofInt 32 current) buff.addr n
  let (con, printed) := sysWriteConsole ram.bytes con buff.addr n
  (ram, con, printed)

/-- `while (left > 128)`. -/
def writeLoop (buffer : Addr) (buff : KernelBuffer) (s : WriteState) :
    Option WriteState :=
  if 128 < s.left then
    let (ram, con, printed) := writeChunk buffer buff s.ram s.con s.current 128
    if InInt (s.written + printed) ∧ InInt (s.current + 128) ∧
        InInt (s.left - 128) then
      writeLoop buffer buff
        { ram := ram
          con := con
          written := s.written + printed
          current := s.current + 128
          left := s.left - 128 }
    else none
  else some s
termination_by s.left.toNat

/-- The loop and the last chunk. -/
def writeBody (buffer : Addr) (buff : KernelBuffer) (s : WriteState) :
    Option (ℤ × Ram × Console) :=
  match writeLoop buffer buff s with
  | none => none
  | some s =>
      let (ram, con, printed) := writeChunk buffer buff s.ram s.con s.current s.left
      if InInt (s.written + printed) then some (s.written + printed, ram, con)
      else none

/-- The `write` service routine: the value returned, the memory and the
console. -/
def sysWrite (fd : DWord) (buffer : Addr) (size : DWord) (buff : KernelBuffer)
    (ram : Ram) (con : Console) : Option (ℤ × Ram × Console) :=
  let check := checkFd fd escriptura
  if check < 0 then some (check, ram, con)
  else if buffer = 0 then some (-22, ram, con)  -- EINVAL
  else if size.toInt < 0 then some (-22, ram, con)  -- EINVAL
  else if accessOk lectura buffer size = 0 then some (-14, ram, con)  -- EFAULT
  else
    writeBody buffer buff
      { ram := ram, con := con, written := 0, current := 0, left := size.toInt }

/-! ## One chunk -/

/-- `n` bytes of user memory from `a` on: they lie above the kernel and do not
wrap. -/
structure UserBlock (a : Addr) (n : ℕ) : Prop where
  above : lUserStart ≤ a.toNat
  fits : a.toNat + n ≤ 2 ^ 32

/-- From user memory to the kernel buffer, bytes are copied downwards. -/
theorem UserBlock.copyOk {a : Addr} {n : ℕ} (h : UserBlock a n) (hn : n ≤ buffSize)
    (buff : KernelBuffer) : Bytes.CopyOk a buff.addr n := by
  have hin := buff.in_kernel
  obtain ⟨habove, hfits⟩ := h
  constructor <;> simp only [lUserStart, buffSize] at * <;> omega

theorem UserBlock.drop {a : Addr} {k n : ℕ} (h : UserBlock a (k + n)) (hn : 0 < n) :
    UserBlock (a + BitVec.ofNat 32 k) n := by
  obtain ⟨habove, hfits⟩ := h
  constructor <;> bv_omega

/-- A copy to the kernel buffer leaves user memory as it was. -/
theorem UserBlock.block_copy {a : Addr} {n : ℕ} (h : UserBlock a n) (m : Bytes)
    (p : Addr) {k : ℕ} (hk : k ≤ buffSize) (buff : KernelBuffer) :
    (m.copy p buff.addr k).block a n = m.block a n := by
  have hin := buff.in_kernel
  obtain ⟨habove, hfits⟩ := h
  refine Bytes.block_congr fun i hi => Bytes.write_apply_of_le m _ _ ?_
  simp only [lUserStart, buffSize] at *
  bv_omega

/-- A chunk prints the user's bytes. -/
theorem writeChunk_eq (buffer : Addr) (buff : KernelBuffer) (ram : Ram)
    (con : Console) (cur n : ℕ) (hn : n ≤ buffSize)
    (huser : UserBlock (buffer + BitVec.ofNat 32 cur) n) :
    ∃ ram', writeChunk buffer buff ram con cur n =
        (ram', (ram.bytes.block (buffer + BitVec.ofNat 32 cur) n).foldl printc con, (n : ℤ)) ∧
      ram'.bytes = ram.bytes.copy (buffer + BitVec.ofNat 32 cur) buff.addr n ∧
      Ram.StoresWithin buff.addr buffSize ram ram' := by
  have hn32 : n ≤ 2 ^ 32 := by
    simp only [buffSize] at hn
    omega
  have hbytes := copyBlock_bytes n ram _ _ (huser.copyOk hn buff)
  have hstores := copyBlock_storesWithin n ram
    (buffer + BitVec.ofNat 32 cur) buff.addr hn32
  refine ⟨_, ?_, hbytes, hstores.mono (by simpa using hn)⟩
  simp only [writeChunk, copyFromUser, BitVec.ofInt_natCast, sysWriteConsole_eq, hbytes,
    Bytes.block_copy _ _ _ hn32]

/-! ## The loop -/

private theorem writeBody_of_lt (buffer : Addr) (buff : KernelBuffer) (s : WriteState)
    {ram : Ram} {con : Console} {printed : ℤ} (hleft : 128 < s.left)
    (hchunk : writeChunk buffer buff s.ram s.con s.current 128 = (ram, con, printed))
    (hint : InInt (s.written + printed) ∧ InInt (s.current + 128) ∧
      InInt (s.left - 128)) :
    writeBody buffer buff s = writeBody buffer buff
      { ram := ram, con := con, written := s.written + printed,
        current := s.current + 128, left := s.left - 128 } := by
  rw [writeBody, writeLoop, if_pos hleft, hchunk]
  dsimp only
  rw [if_pos hint, writeBody]

private theorem writeBody_of_le (buffer : Addr) (buff : KernelBuffer) (s : WriteState)
    {ram : Ram} {con : Console} {printed : ℤ} (hleft : s.left ≤ 128)
    (hchunk : writeChunk buffer buff s.ram s.con s.current s.left = (ram, con, printed))
    (hint : InInt (s.written + printed)) :
    writeBody buffer buff s = some (s.written + printed, ram, con) := by
  rw [writeBody, writeLoop, if_neg (by omega)]
  dsimp only
  rw [hchunk]
  dsimp only
  rw [if_pos hint]

/-- **The loop prints the user's bytes.**  From any point of the loop, with `cur`
bytes written and `n` left, the call ends, has printed the remaining bytes in
order and stored only to its buffer.  The induction is on what is left, a chunk
at a time; that the user's bytes survive the copies made so far is
`UserBlock.block_copy`. -/
theorem writeBody_eq (buffer : Addr) (buff : KernelBuffer) (n : ℕ) :
    ∀ (cur : ℕ) (ram : Ram) (con : Console), cur + n < 2 ^ 31 →
      UserBlock (buffer + BitVec.ofNat 32 cur) n →
      ∃ ram', writeBody buffer buff
          { ram := ram, con := con, written := cur, current := cur, left := n } =
          some (((cur + n : ℕ) : ℤ), ram',
            (ram.bytes.block (buffer + BitVec.ofNat 32 cur) n).foldl printc con) ∧
        Ram.StoresWithin buff.addr buffSize ram ram' := by
  induction n using Nat.strongRecOn with
  | ind n ih =>
      intro cur ram con hint huser
      by_cases hleft : 128 < n
      · obtain ⟨k, rfl⟩ : ∃ k, n = 128 + k := ⟨n - 128, by omega⟩
        have hfirst : UserBlock (buffer + BitVec.ofNat 32 cur) 128 :=
          ⟨huser.above, by have := huser.fits; omega⟩
        have hrest := huser.drop (by omega)
        obtain ⟨ram₁, hchunk, hbytes, hstores₁⟩ :=
          writeChunk_eq buffer buff ram con cur 128 le_rfl hfirst
        have hkeep : ram₁.bytes.block
            (buffer + BitVec.ofNat 32 cur + BitVec.ofNat 32 128) k =
            ram.bytes.block (buffer + BitVec.ofNat 32 cur + BitVec.ofNat 32 128) k := by
          rw [hbytes]
          exact hrest.block_copy _ _ le_rfl buff
        rw [BitVec.add_assoc, ← BitVec.ofNat_add] at hrest hkeep
        obtain ⟨ram₂, heq, hstores₂⟩ := ih k (by omega) (cur + 128) ram₁
          ((ram.bytes.block (buffer + BitVec.ofNat 32 cur) 128).foldl printc con)
          (by omega) hrest
        refine ⟨ram₂, ?_, hstores₁.trans hstores₂⟩
        rw [writeBody_of_lt buffer buff _ (by dsimp only; omega) hchunk
          (by simp only [InInt]; omega)]
        have hcur : (cur : ℤ) + 128 = ((cur + 128 : ℕ) : ℤ) := by omega
        have hk : ((128 + k : ℕ) : ℤ) - 128 = (k : ℤ) := by omega
        simp only [Nat.cast_ofNat, hcur, hk, heq, hkeep]
        rw [Bytes.block_add, List.foldl_append, BitVec.add_assoc, ← BitVec.ofNat_add,
          ← Nat.add_assoc]
      · obtain ⟨ram₁, hchunk, -, hstores⟩ :=
          writeChunk_eq buffer buff ram con cur n (by simpa [buffSize] using hleft) huser
        refine ⟨ram₁, ?_, hstores⟩
        rw [writeBody_of_le buffer buff _ (by simp only; omega) hchunk
          (by simp only [InInt]; omega)]
        simp only [Nat.cast_add]

/-! ## The whole call -/

/-- The value of the first check that fails, 0 if none does. -/
def writeError (fd : DWord) (buffer : Addr) (size : DWord) : ℤ :=
  if fd ≠ 1 then -9
  else if buffer = 0 ∨ size.toInt < 0 then -22
  else if accessOk lectura buffer size = 0 then -14
  else 0

/-- A call that fails a check has no effect. -/
theorem sysWrite_of_error {fd : DWord} {buffer : Addr} {size : DWord}
    (buff : KernelBuffer) (ram : Ram) (con : Console)
    (h : writeError fd buffer size ≠ 0) :
    sysWrite fd buffer size buff ram con =
      some (writeError fd buffer size, ram, con) := by
  unfold sysWrite checkFd writeError at *
  grind [escriptura]

/-- A block that passes all checks is a block of user memory. -/
theorem userBlock_of_writeError_eq_zero {fd : DWord} {buffer : Addr} {size : DWord}
    (h : writeError fd buffer size = 0) :
    size.toInt = size.toNat ∧ size.toNat < 2 ^ 31 ∧ UserBlock buffer size.toNat := by
  have hsize : 0 ≤ size.toInt := by
    unfold writeError at h
    grind
  have haccess : accessOk verifyRead buffer size ≠ 0 := by
    unfold writeError lectura at h
    grind [verifyRead]
  have hlt : size.toNat < 2 ^ 31 := by
    rw [BitVec.toInt_eq_toNat_cond] at hsize
    split at hsize <;> omega
  obtain ⟨habove, hend⟩ := (accessOk_verifyRead_ne_zero_iff buffer hlt).mp haccess
  refine ⟨?_, hlt, habove, ?_⟩
  · rw [BitVec.toInt_eq_toNat_cond, if_pos (by omega)]
  · simp only [lUserStart, numPagCode, numPagData] at hend
    omega

/-- A call that passes all checks prints the user's bytes. -/
theorem sysWrite_of_ok {fd : DWord} {buffer : Addr} {size : DWord}
    (buff : KernelBuffer) (ram : Ram) (con : Console)
    (h : writeError fd buffer size = 0) :
    ∃ ram', sysWrite fd buffer size buff ram con =
        some (size.toInt, ram',
          (ram.bytes.block buffer size.toNat).foldl printc con) ∧
      Ram.StoresWithin buff.addr buffSize ram ram' := by
  obtain ⟨hint, hlt, huser⟩ := userBlock_of_writeError_eq_zero h
  obtain ⟨ram', hbody, hstores⟩ := writeBody_eq buffer buff size.toNat 0 ram con
    (by omega) (by simpa using huser)
  refine ⟨ram', ?_, hstores⟩
  have hsys : sysWrite fd buffer size buff ram con = writeBody buffer buff
      { ram := ram, con := con, written := 0, current := 0, left := size.toInt } := by
    unfold sysWrite checkFd writeError at *
    grind [escriptura]
  rw [hsys, hint]
  simpa using hbody

/-- **`sys_write` does what it should.**  The checks fail in the order of the
source, with their error values and no effect; where none fails, the characters
handed to `printc` are the bytes of the buffer, each once and in order, the count
returned is the size, and the stores of `copy_from_user` fall into the 128 bytes
of the kernel buffer.  That there is a result at all says that no counter
overflows. -/
theorem sysWrite_correct (fd : DWord) (buffer : Addr) (size : DWord)
    (buff : KernelBuffer) (ram : Ram) (con : Console) :
    (fd ≠ 1 →
      sysWrite fd buffer size buff ram con = some (-9, ram, con)) ∧
    (fd = 1 → buffer = 0 ∨ size.toInt < 0 →
      sysWrite fd buffer size buff ram con = some (-22, ram, con)) ∧
    (fd = 1 → ¬(buffer = 0 ∨ size.toInt < 0) → accessOk lectura buffer size = 0 →
      sysWrite fd buffer size buff ram con = some (-14, ram, con)) ∧
    (fd = 1 → ¬(buffer = 0 ∨ size.toInt < 0) → accessOk lectura buffer size ≠ 0 →
      ∃ ram' con', sysWrite fd buffer size buff ram con =
          some (size.toInt, ram', con') ∧
        con' = (ram.bytes.block buffer size.toNat).foldl printc con ∧
        con'.port = con.port ++ ram.bytes.block buffer size.toNat ∧
        Ram.StoresWithin buff.addr buffSize ram ram') := by
  refine ⟨fun hfd => ?_, fun hfd harg => ?_, fun hfd harg hacc => ?_,
    fun hfd harg hacc => ?_⟩
  · have herr : writeError fd buffer size = -9 := by rw [writeError, if_pos hfd]
    rw [sysWrite_of_error buff ram con (by rw [herr]; decide), herr]
  · have herr : writeError fd buffer size = -22 := by
      rw [writeError, if_neg (not_not.mpr hfd), if_pos harg]
    rw [sysWrite_of_error buff ram con (by rw [herr]; decide), herr]
  · have herr : writeError fd buffer size = -14 := by
      rw [writeError, if_neg (not_not.mpr hfd), if_neg harg, if_pos hacc]
    rw [sysWrite_of_error buff ram con (by rw [herr]; decide), herr]
  · have herr : writeError fd buffer size = 0 := by
      rw [writeError, if_neg (not_not.mpr hfd), if_neg harg, if_neg hacc]
    obtain ⟨ram', heq, hstores⟩ := sysWrite_of_ok buff ram con herr
    exact ⟨ram', _, heq, rfl, foldl_printc_port con _, hstores⟩

/-- What the caller and the console see of a call. -/
def observe (result : Option (ℤ × Ram × Console)) : Option (ℤ × Console) :=
  result.map fun r => (r.1, r.2.2)

/-- **`sys_write` discloses nothing below the first user page.**  On two memories
that agree from there on it returns the same value and leaves the same console,
wherever its buffer lies. -/
theorem sysWrite_confidential (fd : DWord) (buffer : Addr) (size : DWord)
    (buff₁ buff₂ : KernelBuffer) (ram₁ ram₂ : Ram) (con : Console)
    (hagree : ∀ a : Addr, lUserStart ≤ a.toNat → ram₁.bytes a = ram₂.bytes a) :
    observe (sysWrite fd buffer size buff₁ ram₁ con) =
      observe (sysWrite fd buffer size buff₂ ram₂ con) := by
  by_cases herr : writeError fd buffer size = 0
  · obtain ⟨ram₁', heq₁, -⟩ := sysWrite_of_ok buff₁ ram₁ con herr
    obtain ⟨ram₂', heq₂, -⟩ := sysWrite_of_ok buff₂ ram₂ con herr
    obtain ⟨-, -, habove, hfits⟩ := userBlock_of_writeError_eq_zero herr
    have hblock : ram₁.bytes.block buffer size.toNat =
        ram₂.bytes.block buffer size.toNat :=
      Bytes.block_congr fun i hi => hagree _ (by bv_omega)
    rw [heq₁, heq₂, hblock]
    rfl
  · rw [sysWrite_of_error buff₁ ram₁ con herr, sysWrite_of_error buff₂ ram₂ con herr]
    rfl

/-- Five characters printed from two memories whose kernel halves differ. -/
theorem sysWrite_confidential_five :
    observe (sysWrite 1 0x100000 5 ⟨0x20000, by decide⟩ ⟨fun _ => 65, []⟩
        ⟨0, 19, fun _ => 0, [], []⟩) =
      observe (sysWrite 1 0x100000 5 ⟨0x20000, by decide⟩
        ⟨fun a => if a.toNat < 0x100000 then 0 else 65, []⟩
        ⟨0, 19, fun _ => 0, [], []⟩) :=
  sysWrite_confidential 1 0x100000 5 _ _ _ _ _ fun _ ha =>
    (if_neg (by simpa [lUserStart] using ha)).symm

end Zeos
