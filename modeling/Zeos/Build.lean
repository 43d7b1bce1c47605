import Zeos.Machine.Output

/-!
# The image builder (`build.c`)

`build bootsect system user` copies the three files one after another to its
standard output and then goes back to patch the header: the length of the image in
paragraphs at 500, in the boot sector, and the lengths of the two parts at 512 and
516, over the first bytes of the system.

What the operating system does is given by `File` and `Device`, so that every way
of giving up is modelled with its message.  `buildMain_ok` says what a successful
run leaves in the header, for any files, and `buildMain_regular` gives the whole
output for files that are read as they are.

A file is known by what `read` and the size return, which may be anything, and `Device`
says which writes are complete.  So a successful run is a hypothesis only where the
operating system could make it fail; `buildMain_layout` has none of this sort and proves
the success.  Its bounds on the lengths are load-bearing: sizes are kept in words of 32
bits, and of these the header has 24, and 16 of the length in paragraphs.  The builder
writes no padding between the two parts, and needs none, since the kernel finds the user
program by the length of the system.
-/

namespace Zeos

open Machine

/-- An open file: what `fstat` says of its size and what a `read` of so many bytes
at an offset returns, each with the error text if it fails. -/
structure File where
  size : Except String ℕ
  read : ℕ → ℕ → Except String (List Byte)

/-- A file that holds the given bytes. -/
def regular (data : List Byte) : File where
  size := .ok data.length
  read off l := .ok ((data.drop off).take l)

/-- The standard output: whether a `write` of so many bytes at an offset is
complete, and whether it can be positioned. -/
structure Device where
  accepts : ℕ → ℕ → Bool
  seekable : Bool

/-! ## The parts of the program -/

/-- `MINIX_HEADER_LEN`, the bytes of the header of an object file. -/
def minixHeaderLen : ℕ := 32

/-- The buffer's size. -/
def bufSize : ℕ := 1024

/-- The beginning of a Minix header. -/
def hdr : List Byte := [0x01, 0x03, 0x10, 0x04, 0x20, 0x00, 0x00, 0x00]

/-- The buffer as an array of double words. -/
def lb (buf : List Byte) (i : ℕ) : DWord :=
  buf.getD (4 * i + 3) 0 ++ buf.getD (4 * i + 2) 0 ++ buf.getD (4 * i + 1) 0 ++
    buf.getD (4 * i) 0

/-- `die`, with a message made of the error text, if a system call fails. -/
def orDie {α : Type} (r : Except String α) (msg : String → String) : Except String α :=
  match r with
  | .error m => .error (msg m)
  | .ok a => .ok a

/-- `die` on a condition. -/
def dieIf (c : Prop) [Decidable c] (msg : String) : Except String Unit :=
  if c then .error msg else .ok ()

/-- `open`. -/
def openOrDie (openFile : String → Except String File) (name : String) :
    Except String File :=
  orDie (openFile name) fun m => "Unable to open `" ++ name ++ "': " ++ m

/-- Open a file and check its Minix header. -/
def minixOpen (openFile : String → Except String File) (name : String) :
    Except String File := do
  let file ← openOrDie openFile name
  let buf ← orDie (file.read 0 minixHeaderLen) fun _ => name ++ ": Unable to read header"
  dieIf (buf.length ≠ minixHeaderLen) (name ++ ": Unable to read header")
  dieIf (buf.take hdr.length ≠ hdr ∨ lb buf 5 ≠ 0) (name ++ ": Non-Minix header")
  dieIf (lb buf 3 ≠ 0) (name ++ ": Illegal data segment")
  dieIf (lb buf 4 ≠ 0) (name ++ ": Illegal bss segment")
  dieIf (lb buf 7 ≠ 0) (name ++ ": Illegal symbol table")
  return file

/-- A `write` that has to be complete. -/
def writeOut (dev : Device) (o : Output) (bs : List Byte) (err : String) :
    Except String Output := do
  dieIf (dev.accepts o.pos bs.length = false) err
  return o.write bs

/-- Copy the boot sector, with the root device set to zero.  A failed read is
taken for a boot sector of another length. -/
def copyBoot (openFile : String → Except String File) (dev : Device) (name : String)
    (o : Output) : Except String Output := do
  let file ← minixOpen openFile name
  let buf ← orDie (file.read minixHeaderLen bufSize) fun _ =>
    "Boot block must be exactly 512 bytes"
  dieIf (buf.length ≠ 512) "Boot block must be exactly 512 bytes"
  dieIf (buf.getD 510 0 ≠ 0x55 ∨ buf.getD 511 0 ≠ 0xaa)
    "Boot block hasn't got boot flag (0xAA55)"
  writeOut dev o ((buf.set 508 0).set 509 0) "Write call failed"

/-- How much of what is left is copied at a time. -/
def chunk (sz : ℕ) : ℕ := if bufSize < sz then bufSize else sz

theorem chunk_pos {sz : ℕ} (h : 0 < sz) : 0 < chunk sz := by
  unfold chunk bufSize
  split <;> omega

theorem chunk_le (sz : ℕ) : chunk sz ≤ sz := by
  unfold chunk bufSize
  split <;> omega

/-- The copying loop, with `sz` bytes left from offset `off` on. -/
def copyLoop (dev : Device) (name : String) (file : File) (off sz : ℕ) (o : Output) :
    Except String Output :=
  if 0 < sz then do
    let l := chunk sz
    let buf ← orDie (file.read off l) fun m => "Error reading " ++ name ++ ": " ++ m
    dieIf (buf.length ≠ l) (name ++ ": Unexpected EOF")
    let o ← writeOut dev o buf "Write failed"
    copyLoop dev name file (off + l) (sz - l) o
  else return o
termination_by sz
decreasing_by
  have hpos := chunk_pos ‹0 < sz›
  omega

/-- Copy a file; returns its size, an unsigned 32-bit number, too. -/
def copyFile (openFile : String → Except String File) (dev : Device) (name : String)
    (o : Output) : Except String (Output × DWord) := do
  let file ← openOrDie openFile name
  let size ← orDie file.size fun m => "Unable to stat `" ++ name ++ "': " ++ m
  let sz : DWord := BitVec.ofNat 32 size
  let o ← copyLoop dev name file 0 sz.toNat o
  return (o, sz)

/-- `v & 0xff`, as a byte. -/
def lowByte (v : DWord) : Byte := (v &&& 0xff#32).setWidth 8

/-- The image size in paragraphs. -/
def imSize (sysSize usrSize : DWord) : DWord := (sysSize + usrSize + 15#32) / 16#32

/-- The two bytes that are written of the image size. -/
def imageLength (v : DWord) : List Byte := [lowByte v, lowByte (v >>> 8)]

/-- The four bytes that are written of a part's size. -/
def partLength (v : DWord) : List Byte :=
  [lowByte v, lowByte (v >>> 8), lowByte (v >>> 16), 0]

/-- Write at a position. -/
def patch (dev : Device) (pos : ℕ) (bs : List Byte) (err : String) (o : Output) :
    Except String Output := do
  dieIf (dev.seekable = false) "Output: seek failed"
  writeOut dev (o.seek pos) bs err

/-- The patches of the header. -/
def patchHeader (dev : Device) (sysSize usrSize : DWord) (o : Output) :
    Except String Output := do
  let o ← patch dev 500 (imageLength (imSize sysSize usrSize))
    "Write of image length failed" o
  let o ← patch dev 512 (partLength sysSize) "Write of system length failed" o
  let o ← patch dev 516 (partLength usrSize) "Write of user length failed" o
  patch dev 520 (partLength 0x7e6a#32) "Write of user length failed" o

/-- `main`, with the program's output. -/
def buildMain (openFile : String → Except String File) (dev : Device)
    (argv : List String) : Except String Output :=
  match argv with
  | [_, boot, system, user] => do
      let o ← copyBoot openFile dev boot Output.empty
      let (o, sysSize) ← copyFile openFile dev system o
      let (o, usrSize) ← copyFile openFile dev user o
      patchHeader dev sysSize usrSize o
  | _ => .error "Usage: build bootsect system user [> image]"

/-! ## What a successful run has written -/

theorem bind_ok {α β : Type} {x : Except String α} {f : α → Except String β} {b : β}
    (h : x >>= f = .ok b) : ∃ a, x = .ok a ∧ f a = .ok b := by
  cases x with
  | error m => exact absurd h (by simp [bind, Except.bind])
  | ok a => exact ⟨a, rfl, h⟩

theorem dieIf_ok {c : Prop} [Decidable c] {msg : String} {u : Unit}
    (h : dieIf c msg = .ok u) : ¬ c := by
  unfold dieIf at h
  split at h
  · exact absurd h (by simp)
  · assumption

theorem writeOut_ok {dev : Device} {o o' : Output} {bs : List Byte} {err : String}
    (h : writeOut dev o bs err = .ok o') : o' = o.write bs := by
  obtain ⟨-, -, h⟩ := bind_ok h
  exact (Except.ok.inj h).symm

theorem patch_ok {dev : Device} {pos : ℕ} {bs : List Byte} {err : String} {o o' : Output}
    (h : patch dev pos bs err o = .ok o') : o' = (o.seek pos).write bs := by
  obtain ⟨-, -, h⟩ := bind_ok h
  exact writeOut_ok h

/-- The image with its header patched. -/
def patched (sysSize usrSize : DWord) (o : Output) : Output :=
  let o := (o.seek 500).write (imageLength (imSize sysSize usrSize))
  let o := (o.seek 512).write (partLength sysSize)
  let o := (o.seek 516).write (partLength usrSize)
  (o.seek 520).write (partLength 0x7e6a#32)

theorem patchHeader_ok {dev : Device} {sysSize usrSize : DWord} {o o' : Output}
    (h : patchHeader dev sysSize usrSize o = .ok o') : o' = patched sysSize usrSize o := by
  obtain ⟨o₁, h₁, h⟩ := bind_ok h
  obtain ⟨o₂, h₂, h⟩ := bind_ok h
  obtain ⟨o₃, h₃, h⟩ := bind_ok h
  rw [patch_ok h, patch_ok h₃, patch_ok h₂, patch_ok h₁]
  rfl

/-- What the patches leave of the image and what they put over it. -/
theorem byte_patched (sysSize usrSize : DWord) (o : Output) (i : ℕ) :
    (patched sysSize usrSize o).byte i =
      if 500 ≤ i ∧ i < 502 then (imageLength (imSize sysSize usrSize)).getD (i - 500) 0
      else if 512 ≤ i ∧ i < 516 then (partLength sysSize).getD (i - 512) 0
      else if 516 ≤ i ∧ i < 520 then (partLength usrSize).getD (i - 516) 0
      else if 520 ≤ i ∧ i < 524 then (partLength 0x7e6a#32).getD (i - 520) 0
      else o.byte i := by
  have himage : ∀ v, (imageLength v).length = 2 := fun _ => rfl
  have hpart : ∀ v, (partLength v).length = 4 := fun _ => rfl
  simp only [patched, Output.byte_write, Output.byte_seek, Output.pos_seek, himage, hpart]
  by_cases h500 : 500 ≤ i ∧ i < 502
  · rw [if_neg (by omega), if_neg (by omega), if_neg (by omega), if_pos (by omega),
      if_pos h500]
  by_cases h512 : 512 ≤ i ∧ i < 516
  · rw [if_neg (by omega), if_neg (by omega), if_pos (by omega), if_neg h500, if_pos h512]
  by_cases h516 : 516 ≤ i ∧ i < 520
  · rw [if_neg (by omega), if_pos (by omega), if_neg h500, if_neg h512, if_pos h516]
  by_cases h520 : 520 ≤ i ∧ i < 524
  · rw [if_pos (by omega), if_neg h500, if_neg h512, if_neg h516, if_pos h520]
  · rw [if_neg (by omega), if_neg (by omega), if_neg (by omega), if_neg (by omega),
      if_neg h500, if_neg h512, if_neg h516, if_neg h520]

/-- A successful run has found the sizes of both files, and patched what it had
copied with them. -/
theorem buildMain_ok {openFile : String → Except String File} {dev : Device}
    {self boot system user : String} {image : Output}
    (h : buildMain openFile dev [self, boot, system, user] = .ok image) :
    ∃ o₀ o₁ o₂ sysSize usrSize, copyBoot openFile dev boot Output.empty = .ok o₀ ∧
      copyFile openFile dev system o₀ = .ok (o₁, sysSize) ∧
      copyFile openFile dev user o₁ = .ok (o₂, usrSize) ∧
      image = patched sysSize usrSize o₂ := by
  obtain ⟨o₀, h₀, h⟩ := bind_ok h
  obtain ⟨⟨o₁, sysSize⟩, h₁, h⟩ := bind_ok h
  obtain ⟨⟨o₂, usrSize⟩, h₂, h⟩ := bind_ok h
  exact ⟨o₀, o₁, o₂, sysSize, usrSize, h₀, h₁, h₂, patchHeader_ok h⟩

theorem orDie_ok {α : Type} {r : Except String α} {msg : String → String} {a : α}
    (h : orDie r msg = .ok a) : r = .ok a := by
  cases r with
  | error m => exact absurd h (by simp [orDie])
  | ok b => exact h

/-- The size that `copyFile` returns is that of the file, in 32 bits. -/
theorem copyFile_ok {openFile : String → Except String File} {dev : Device}
    {name : String} {o o' : Output} {sz : DWord}
    (h : copyFile openFile dev name o = .ok (o', sz)) :
    ∃ file size, openFile name = .ok file ∧ file.size = .ok size ∧
      sz = BitVec.ofNat 32 size ∧ copyLoop dev name file 0 sz.toNat o = .ok o' := by
  obtain ⟨file, hfile, h⟩ := bind_ok h
  obtain ⟨size, hsize, h⟩ := bind_ok h
  obtain ⟨o₁, hloop, h⟩ := bind_ok h
  obtain ⟨rfl, rfl⟩ := Prod.mk.inj (Except.ok.inj h)
  exact ⟨file, size, orDie_ok hfile, orDie_ok hsize, rfl, hloop⟩

/-- The boot sector is 512 bytes long. -/
theorem copyBoot_ok {openFile : String → Except String File} {dev : Device}
    {name : String} {o' : Output}
    (h : copyBoot openFile dev name Output.empty = .ok o') :
    o'.pos = 512 ∧ o'.data.length = 512 := by
  obtain ⟨file, -, h⟩ := bind_ok h
  obtain ⟨buf, -, h⟩ := bind_ok h
  obtain ⟨_, hlen, h⟩ := bind_ok h
  obtain ⟨-, -, h⟩ := bind_ok h
  have h512 : buf.length = 512 := not_not.mp (dieIf_ok hlen)
  rw [writeOut_ok h]
  simp [Output.write, Output.empty, length_writeAt, h512]

/-! ## Copying -/

theorem regular_read (data : List Byte) (off l : ℕ) :
    (regular data).read off l = .ok ((data.drop off).take l) := rfl

/-- The loop copies a regular file, unless a write fails. -/
theorem copyLoop_regular (dev : Device) (name : String) (data : List Byte) (sz : ℕ) :
    ∀ (off : ℕ) (o : Output), off + sz ≤ data.length → o.pos ≤ o.data.length →
      copyLoop dev name (regular data) off sz o =
          .ok (o.write ((data.drop off).take sz)) ∨
        copyLoop dev name (regular data) off sz o = .error "Write failed" ∧
          ∃ pos n, dev.accepts pos n = false := by
  induction sz using Nat.strongRecOn with
  | ind sz ih =>
      intro off o hfit hpos
      rw [copyLoop]
      split
      · next hsz =>
          have hle := chunk_le sz
          have hlen : ((data.drop off).take (chunk sz)).length = chunk sz := by
            rw [List.length_take, List.length_drop]
            omega
          simp only [regular_read, orDie, Except.bind, bind, pure, Except.pure, dieIf, hlen,
            ne_eq, not_true_eq_false, if_false, writeOut]
          cases hacc : dev.accepts o.pos (chunk sz) with
          | false =>
              right
              exact ⟨by simp, _, _, hacc⟩
          | true =>
              have hrest := ih (sz - chunk sz) (by have := chunk_pos hsz; omega)
                (off + chunk sz) (o.write ((data.drop off).take (chunk sz))) (by omega)
                (o.pos_le_length_write _)
              -- the chunk and what comes after it are the rest of the file
              have hjoin : (data.drop off).take (chunk sz) ++
                  (data.drop (off + chunk sz)).take (sz - chunk sz) =
                    (data.drop off).take sz := by
                rw [← List.drop_drop, ← List.take_add, Nat.add_sub_cancel' hle]
              rw [Output.write_append, hjoin] at hrest
              simpa using hrest
      · next hsz =>
          left
          obtain rfl : sz = 0 := by omega
          rw [List.take_zero, o.write_nil hpos]
          rfl

theorem copyFile_regular {openFile : String → Except String File} {name : String}
    {data : List Byte} (dev : Device) (o : Output)
    (hopen : openFile name = .ok (regular data))
    (hlen : data.length < 2 ^ 32) (hpos : o.pos ≤ o.data.length) :
    copyFile openFile dev name o = .ok (o.write data, BitVec.ofNat 32 data.length) ∨
      copyFile openFile dev name o = .error "Write failed" ∧
        ∃ pos n, dev.accepts pos n = false := by
  have hsz : (BitVec.ofNat 32 data.length).toNat = data.length := by
    rw [BitVec.toNat_ofNat, Nat.mod_eq_of_lt hlen]
  have hloop := copyLoop_regular dev name data data.length 0 o (by omega) hpos
  rw [List.drop_zero, List.take_length] at hloop
  unfold copyFile openOrDie
  simp only [hopen, orDie, bind, Except.bind, regular, hsz, pure, Except.pure] at hloop ⊢
  rcases hloop with hok | ⟨herr, hacc⟩
  · left
    rw [hok]
  · right
    rw [herr]
    exact ⟨rfl, hacc⟩

/-! ## The boot sector -/

/-- The header of a file with a text segment only. -/
def minixHeader : List Byte := hdr ++ List.replicate 24 0

/-- The boot sectors that the builder accepts: 512 bytes behind a Minix header, with the
boot flag at their end. -/
structure AcceptedBoot (openFile : String → Except String File) (name : String)
    (sector : List Byte) : Prop where
  file : ∃ file, minixOpen openFile name = .ok file ∧
    file.read minixHeaderLen bufSize = .ok sector
  length : sector.length = 512
  flag : sector.getD 510 0 = 0x55 ∧ sector.getD 511 0 = 0xaa

/-- The boot sector as it is written, with the root device set to zero. -/
def rootDeviceZero (sector : List Byte) : List Byte := (sector.set 508 0).set 509 0

theorem length_rootDeviceZero (sector : List Byte) :
    (rootDeviceZero sector).length = sector.length := by
  rw [rootDeviceZero, List.length_set, List.length_set]

theorem getD_rootDeviceZero (sector : List Byte) (i : ℕ) :
    (rootDeviceZero sector).getD i 0 =
      if 508 ≤ i ∧ i < 510 then 0 else sector.getD i 0 := by
  simp only [rootDeviceZero, List.getD_eq_getElem?_getD, List.getElem?_set, List.length_set]
  by_cases h509 : 509 = i
  · rw [if_pos (show 508 ≤ i ∧ i < 510 by omega), if_pos h509]
    split <;> rfl
  · rw [if_neg h509]
    by_cases h508 : 508 = i
    · rw [if_pos (show 508 ≤ i ∧ i < 510 by omega), if_pos h508]
      split <;> rfl
    · rw [if_neg h508, if_neg (by omega)]

theorem AcceptedBoot.copyBoot {openFile : String → Except String File} {dev : Device}
    {name : String} {sector : List Byte} (h : AcceptedBoot openFile name sector) (o : Output)
    (hacc : dev.accepts o.pos 512 = true) :
    copyBoot openFile dev name o = .ok (o.write (rootDeviceZero sector)) := by
  obtain ⟨file, hfile, hread⟩ := h.file
  have hlen := h.length
  have hflag : ¬ (sector.getD 510 0 ≠ 0x55 ∨ sector.getD 511 0 ≠ 0xaa) := by
    rw [h.flag.1, h.flag.2]
    decide
  have hwritten : (rootDeviceZero sector).length = 512 := by rw [length_rootDeviceZero, hlen]
  unfold rootDeviceZero at hwritten ⊢
  simp only [Zeos.copyBoot, hfile, bind, Except.bind, hread, orDie, dieIf, hlen,
    if_neg hflag, writeOut, hwritten, hacc, pure, Except.pure, ne_eq, not_true_eq_false, if_false,
    Bool.true_eq_false]

/-- A boot sector with its flag is accepted behind the header of a file with a text
segment only. -/
theorem acceptedBoot_regular {openFile : String → Except String File} {name : String}
    {sector : List Byte} (hopen : openFile name = .ok (regular (minixHeader ++ sector)))
    (hlen : sector.length = 512)
    (hflag : sector.getD 510 0 = 0x55 ∧ sector.getD 511 0 = 0xaa) :
    AcceptedBoot openFile name sector := by
  refine ⟨⟨regular (minixHeader ++ sector), ?_, ?_⟩, hlen, hflag⟩
  · have hheader : ((minixHeader ++ sector).drop 0).take minixHeaderLen = minixHeader :=
      List.take_left' rfl
    have hfields : minixHeader.take hdr.length = hdr ∧ lb minixHeader 5 = 0 ∧
        lb minixHeader 3 = 0 ∧ lb minixHeader 4 = 0 ∧ lb minixHeader 7 = 0 := by decide
    obtain ⟨hstart, h5, h3, h4, h7⟩ := hfields
    have hlength : minixHeader.length = minixHeaderLen := rfl
    simp only [minixOpen, openOrDie, hopen, orDie, bind, Except.bind, regular_read, hheader,
      dieIf, hlength, hstart, h5, h3, h4, h7, pure, Except.pure, ne_eq, not_true_eq_false,
      or_self, if_false]
  · have hdrop : (minixHeader ++ sector).drop minixHeaderLen = sector := List.drop_left' rfl
    rw [regular_read, hdrop, List.take_of_length_le (by rw [hlen]; decide)]

/-! ## Regular files -/

section Regular

variable {openFile : String → Except String File} {dev : Device}
  {self boot system user : String} {sys usr : List Byte}

/-- **The image of two regular files.**  Behind the boot sector come the system and
the user program, with the header patched. -/
theorem buildMain_regular {image : Output}
    (h : buildMain openFile dev [self, boot, system, user] = .ok image)
    (hsystem : openFile system = .ok (regular sys))
    (huser : openFile user = .ok (regular usr))
    (hsys : sys.length < 2 ^ 32) (husr : usr.length < 2 ^ 32) :
    ∃ o, image = patched (BitVec.ofNat 32 sys.length) (BitVec.ofNat 32 usr.length) o ∧
      ∀ k, o.byte (512 + k) = (sys ++ usr).getD k 0 := by
  obtain ⟨o₀, o₁, o₂, sysSize, usrSize, h₀, h₁, h₂, rfl⟩ := buildMain_ok h
  obtain ⟨hpos₀, hlen₀⟩ := copyBoot_ok h₀
  have hcopy₁ := copyFile_regular dev o₀ hsystem hsys (by omega)
  simp only [h₁, Except.ok.injEq, Prod.mk.injEq, reduceCtorEq, false_and, or_false] at hcopy₁
  obtain ⟨rfl, rfl⟩ := hcopy₁
  have hcopy₂ := copyFile_regular dev (o₀.write sys) huser husr (o₀.pos_le_length_write sys)
  simp only [h₂, Except.ok.injEq, Prod.mk.injEq, reduceCtorEq, false_and, or_false] at hcopy₂
  obtain ⟨rfl, rfl⟩ := hcopy₂
  refine ⟨_, rfl, fun k => ?_⟩
  rw [Output.write_append, Output.byte_write, hpos₀, Nat.add_sub_cancel_left]
  split
  · rfl
  · next hout =>
      rw [Output.byte, List.getD_eq_default _ _ (by omega),
        List.getD_eq_default _ _ (by omega)]

/-- Where the boot sector is accepted and every write goes through, the builder copies
any two regular files behind it and patches the header. -/
theorem buildMain_eq {o₀ : Output} (self : String)
    (hboot : copyBoot openFile dev boot Output.empty = .ok o₀)
    (hsystem : openFile system = .ok (regular sys))
    (huser : openFile user = .ok (regular usr))
    (hsys : sys.length < 2 ^ 32) (husr : usr.length < 2 ^ 32)
    (hacc : ∀ pos n, dev.accepts pos n = true) (hseek : dev.seekable = true) :
    buildMain openFile dev [self, boot, system, user] =
      .ok (patched (BitVec.ofNat 32 sys.length) (BitVec.ofNat 32 usr.length)
        (o₀.write (sys ++ usr))) := by
  have hnever : ¬ ∃ pos n, dev.accepts pos n = false := by
    rintro ⟨pos, n, hfalse⟩
    rw [hacc] at hfalse
    exact absurd hfalse (by decide)
  obtain ⟨hpos₀, hlen₀⟩ := copyBoot_ok hboot
  have hcopy₁ := (copyFile_regular dev o₀ hsystem hsys (by omega)).resolve_right
    fun h => hnever h.2
  have hcopy₂ := (copyFile_regular dev (o₀.write sys) huser husr
    (o₀.pos_le_length_write sys)).resolve_right fun h => hnever h.2
  rw [Output.write_append] at hcopy₂
  simp [buildMain, bind, Except.bind, hboot, hcopy₁, hcopy₂, patchHeader, patch, writeOut, dieIf,
    hacc, hseek, pure, Except.pure, patched]

/-- So it accepts them. -/
theorem exists_buildMain_regular {o₀ : Output}
    (hboot : copyBoot openFile dev boot Output.empty = .ok o₀)
    (hsystem : openFile system = .ok (regular sys))
    (huser : openFile user = .ok (regular usr))
    (hsys : sys.length < 2 ^ 32) (husr : usr.length < 2 ^ 32)
    (hacc : ∀ pos n, dev.accepts pos n = true) (hseek : dev.seekable = true) :
    ∃ image, buildMain openFile dev [self, boot, system, user] = .ok image :=
  ⟨_, buildMain_eq self hboot hsystem huser hsys husr hacc hseek⟩

/-! ## The layout of the image -/

/-- The patches do not shorten the image, and the last of them ends at 524. -/
theorem length_patched (sysSize usrSize : DWord) (o : Output) :
    (patched sysSize usrSize o).data.length = max o.data.length 524 := by
  have himage : ∀ v, (imageLength v).length = 2 := fun _ => rfl
  have hpart : ∀ v, (partLength v).length = 4 := fun _ => rfl
  simp only [patched, Output.write, Output.seek, length_writeAt, himage, hpart]
  omega

/-- The patches change the header and nothing else. -/
theorem byte_patched_of_not (sysSize usrSize : DWord) (o : Output) {i : ℕ}
    (h500 : ¬ (500 ≤ i ∧ i < 502)) (h512 : ¬ (512 ≤ i ∧ i < 524)) :
    (patched sysSize usrSize o).byte i = o.byte i := by
  rw [byte_patched, if_neg h500, if_neg (by omega), if_neg (by omega), if_neg (by omega)]

/-- What the image is made of: the boot sector, the system and the user program, one
behind the other. -/
def imageParts (sector sys usr : List Byte) : List Byte := rootDeviceZero sector ++ (sys ++ usr)

/-- The layout of an image: the boot sector but for the image length and the root
device, and the two parts but for the twelve bytes of the header that lie over them. -/
structure ImageLayout (sector sys usr : List Byte) (image : Output) : Prop where
  boot : ∀ i, i < 500 ∨ 502 ≤ i ∧ i < 508 ∨ 510 ≤ i ∧ i < 512 →
    image.byte i = sector.getD i 0
  rootDevice : ∀ i, 508 ≤ i ∧ i < 510 → image.byte i = 0
  parts : ∀ i, 524 ≤ i → image.byte i = (sys ++ usr).getD (i - 512) 0
  length : 12 ≤ sys.length + usr.length →
    image.data.length = 512 + sys.length + usr.length
  patches : ∀ i, ¬ (500 ≤ i ∧ i < 502) → ¬ (512 ≤ i ∧ i < 524) →
    image.byte i = (imageParts sector sys usr).getD i 0

theorem imageLayout_patched {sector : List Byte} (hlen : sector.length = 512)
    (sys usr : List Byte) (sysSize usrSize : DWord) {o : Output}
    (ho : o.data = imageParts sector sys usr) :
    ImageLayout sector sys usr (patched sysSize usrSize o) := by
  have hfirst : (rootDeviceZero sector).length = 512 := by rw [length_rootDeviceZero, hlen]
  have hbyte : ∀ i, o.byte i = (imageParts sector sys usr).getD i 0 := by
    intro i
    rw [Output.byte, ho]
  have hboot : ∀ i, i < 512 → ¬ (500 ≤ i ∧ i < 502) →
      (patched sysSize usrSize o).byte i = (rootDeviceZero sector).getD i 0 := by
    intro i hi h500
    rw [byte_patched_of_not _ _ _ h500 (by omega), hbyte, imageParts,
      List.getD_append _ _ _ _ (by omega)]
  -- the patches and the root device are the only bytes that are not the files'
  constructor
  · intro i hi
    rw [hboot i (by omega) (by omega), getD_rootDeviceZero, if_neg (by omega)]
  · intro i hi
    rw [hboot i (by omega) (by omega), getD_rootDeviceZero, if_pos hi]
  · intro i hi
    rw [byte_patched_of_not _ _ _ (by omega) (by omega), hbyte, imageParts,
      List.getD_append_right _ _ _ _ (by omega), hfirst]
  · intro hsum
    rw [length_patched, ho, imageParts, List.length_append, List.length_append, hfirst]
    omega
  · intro i h500 h512
    rw [byte_patched_of_not _ _ _ h500 h512, hbyte]

/-- **The layout of the image**, for every boot sector that is accepted and any two
regular files. -/
theorem buildMain_layout {sector : List Byte} (self : String)
    (hboot : AcceptedBoot openFile boot sector)
    (hsystem : openFile system = .ok (regular sys))
    (huser : openFile user = .ok (regular usr))
    (hsys : sys.length < 2 ^ 31) (husr : usr.length < 2 ^ 31)
    (hacc : ∀ pos n, dev.accepts pos n = true) (hseek : dev.seekable = true) :
    ∃ image, buildMain openFile dev [self, boot, system, user] = .ok image ∧
      ImageLayout sector sys usr image := by
  have hcopy := hboot.copyBoot Output.empty (hacc _ _)
  have hstart : ∀ bs, (Output.empty.write bs).data = bs := by
    intro bs
    simp [Output.write, Output.empty, writeAt]
  refine ⟨_, buildMain_eq self hcopy hsystem huser (by omega) (by omega) hacc hseek, ?_⟩
  refine imageLayout_patched hboot.length sys usr _ _ ?_
  rw [Output.write_append, hstart]
  rfl

end Regular

/-- A boot sector with no code. -/
def emptySector : List Byte := List.replicate 510 0 ++ [0x55, 0xaa]

/-- A directory with the three files. -/
def directory (sys usr : List Byte) (name : String) : Except String File :=
  if name = "bootsect" then .ok (regular (minixHeader ++ emptySector))
  else if name = "system" then .ok (regular sys)
  else if name = "user" then .ok (regular usr)
  else .error "No such file or directory"

/-- An output that takes everything. -/
def blankDevice : Device := ⟨fun _ _ => true, true⟩

theorem acceptedBoot_directory (sys usr : List Byte) :
    AcceptedBoot (directory sys usr) "bootsect" emptySector := by
  have hzero : (List.replicate 510 (0 : Byte)).length = 510 := List.length_replicate
  have hflag : ∀ k, emptySector.getD (510 + k) 0 = ([0x55, 0xaa] : List Byte).getD k 0 := by
    intro k
    rw [emptySector, List.getD_append_right _ _ _ _ (by omega), hzero, Nat.add_sub_cancel_left]
  refine acceptedBoot_regular rfl ?_ ⟨hflag 0, hflag 1⟩
  rw [emptySector, List.length_append, hzero]
  rfl

/-- An image of fifteen bytes behind the boot sector, and one with an empty user program. -/
theorem buildMain_layout_three : (∃ image,
    buildMain (directory (List.replicate 12 1) [1, 2, 3]) blankDevice
      ["build", "bootsect", "system", "user"] = .ok image ∧
    ImageLayout emptySector (List.replicate 12 1) [1, 2, 3] image) ∧
    ∃ image, buildMain (directory [7] []) blankDevice
      ["build", "bootsect", "system", "user"] = .ok image ∧
    ImageLayout emptySector [7] [] image :=
  ⟨buildMain_layout "build" (acceptedBoot_directory _ _) rfl rfl (by decide) (by decide)
      (fun _ _ => rfl) rfl,
    buildMain_layout "build" (acceptedBoot_directory _ _) rfl rfl (by decide) (by decide)
      (fun _ _ => rfl) rfl⟩

end Zeos
