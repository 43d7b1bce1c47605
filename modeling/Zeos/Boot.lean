import Zeos.Bootsect
import Zeos.Build
import Zeos.Utils

/-!
# From the files to the user's address space

The builder and the loader meet in the image.  `imageSyssize_patched` and
`load_sizes` say what the loader and the kernel read of what the builder has
written there, whatever the files are.

On this rest the two results of the module: `image_boots_iff`, the images that can be
booted, and `user_arrives`, the way of the user program from its file through the
image, the loader and the copy in `main` (`system.c`) to the user's pages.

`image_boots_iff` is about files of any length: it takes the sizes as the operating system
gives them to the builder and so includes the files whose sizes wrap.  `user_arrives` is
for regular files that fit together into 0x7F000 bytes, the room that the kernel has for
its image.  What happens between the loader's end and the copy is the kernel's own
business, and the one thing asked of it is that it keep the image: `KeepsImage` names the
bytes.  The hypothesis that a system has at least twelve bytes is load-bearing, because
the builder patches that many over its beginning.
-/

namespace Zeos

open Machine StateTransition

/-! ## The header -/

/-- The word at `syssize` in the boot sector of an image. -/
def imageSyssize (image : Output) : Word := image.byte 501 ++ image.byte 500

theorem lowByte_eq (v : DWord) : lowByte v = v.setWidth 8 := by
  rw [lowByte, BitVec.setWidth_and]
  exact BitVec.and_allOnes

theorem imageSyssize_patched (sysSize usrSize : DWord) (o : Output) :
    imageSyssize (patched sysSize usrSize o) = (imSize sysSize usrSize).setWidth 16 := by
  have hlow : (patched sysSize usrSize o).byte 500 = lowByte (imSize sysSize usrSize) := by
    rw [byte_patched]
    rfl
  have hhigh : (patched sysSize usrSize o).byte 501 =
      lowByte (imSize sysSize usrSize >>> 8) := by
    rw [byte_patched]
    rfl
  rw [imageSyssize, hlow, hhigh]
  rw [lowByte_eq, lowByte_eq]
  generalize imSize sysSize usrSize = v
  apply BitVec.eq_of_getLsbD_eq
  intro i hi
  simp only [BitVec.getLsbD_append, BitVec.getLsbD_setWidth, BitVec.getLsbD_ushiftRight]
  by_cases h8 : i < 8
  · simp [h8, show i < 16 by omega]
  · simp [h8, show i - 8 < 8 by omega, show 8 + (i - 8) = i by omega, show i < 16 by omega]

/-- The length in paragraphs, with what is lost of it. -/
theorem toNat_imageSyssize (sysSize usrSize : DWord) (o : Output) :
    (imageSyssize (patched sysSize usrSize o)).toNat =
      (sysSize.toNat + usrSize.toNat + 15) % 2 ^ 32 / 16 % 2 ^ 16 := by
  rw [imageSyssize_patched, imSize]
  simp [BitVec.toNat_udiv, BitVec.toNat_add]

/-- The bytes of a size below 16 MB are those of the double word. -/
theorem partLength_getD {v : DWord} (hv : v.toNat < 2 ^ 24) {k : ℕ} (hk : k < 4) :
    (partLength v).getD k 0 = Bytes.byteOf v k := by
  have hlow : ∀ j, lowByte (v >>> (8 * j)) = Bytes.byteOf v j := fun j => by
    rw [lowByte_eq]
    apply BitVec.eq_of_getLsbD_eq
    intro i hi
    simp [Bytes.byteOf]
  have cases : k = 0 ∨ k = 1 ∨ k = 2 ∨ k = 3 := by omega
  rcases cases with rfl | rfl | rfl | rfl
  · exact hlow 0
  · exact hlow 1
  · exact hlow 2
  · show 0#8 = _
    rw [← BitVec.toNat_inj, Bytes.byteOf, BitVec.extractLsb'_toNat,
      Nat.shiftRight_eq_div_pow, Nat.div_eq_of_lt hv]
    rfl

/-! ## Booting -/

section Boot

variable {openFile : String → Except String File} {dev : Device}
  {self boot system user : String} {image : Output}

/-- What the loader reads at `syssize`, by the sizes of the files. -/
theorem toNat_imageSyssize_of_ok {sysFile usrFile : File} {sysSize usrSize : ℕ}
    (h : buildMain openFile dev [self, boot, system, user] = .ok image)
    (hsystem : openFile system = .ok sysFile) (hsysSize : sysFile.size = .ok sysSize)
    (huser : openFile user = .ok usrFile) (husrSize : usrFile.size = .ok usrSize) :
    (imageSyssize image).toNat =
      (sysSize % 2 ^ 32 + usrSize % 2 ^ 32 + 15) % 2 ^ 32 / 16 % 2 ^ 16 := by
  obtain ⟨o₀, o₁, o₂, sz, uz, -, h₁, h₂, rfl⟩ := buildMain_ok h
  obtain ⟨file₁, size₁, hfile₁, hsize₁, rfl, -⟩ := copyFile_ok h₁
  obtain ⟨file₂, size₂, hfile₂, hsize₂, rfl, -⟩ := copyFile_ok h₂
  obtain rfl : sysFile = file₁ := Except.ok.inj (hsystem.symm.trans hfile₁)
  obtain rfl : usrFile = file₂ := Except.ok.inj (huser.symm.trans hfile₂)
  obtain rfl : sysSize = size₁ := Except.ok.inj (hsysSize.symm.trans hsize₁)
  obtain rfl : usrSize = size₂ := Except.ok.inj (husrSize.symm.trans hsize₂)
  rw [toNat_imageSyssize, BitVec.toNat_ofNat, BitVec.toNat_ofNat]

/-- The condition of the loader, by the size that `syssize` was computed from. -/
theorem bootable_iff {size : ℕ} (hsize : size < 2 ^ 33) :
    (size + 15) % 2 ^ 32 / 16 % 2 ^ 16 < 0x8000 ∧
        size ≤ 0x10000 * ((size + 15) % 2 ^ 32 / 16 % 2 ^ 16 / 0x1000 + 1) ↔
      size ≤ 0x7fff0 := by
  constructor
  · rintro ⟨hlt, hle⟩
    -- at most eight segments are loaded, so nothing of the size has been lost
    have hsegments : size ≤ 0x80000 := by omega
    omega
  · intro hle
    omega

/-- **The images that can be booted.**  The builder does not check the size, of which
`syssize` keeps 20 bits; the loader has room for eight segments, and asks for a ninth
one when `syssize` is at the end of the eighth. -/
theorem image_boots_iff {sysFile usrFile : File} {sysSize usrSize : ℕ}
    (h : buildMain openFile dev [self, boot, system, user] = .ok image)
    (hsystem : openFile system = .ok sysFile) (hsysSize : sysFile.size = .ok sysSize)
    (huser : openFile user = .ok usrFile) (husrSize : usrFile.size = .ok usrSize)
    (m : Bytes) :
    Boots (imageSyssize image) image.byte m (sysSize % 2 ^ 32 + usrSize % 2 ^ 32) ↔
      sysSize % 2 ^ 32 + usrSize % 2 ^ 32 ≤ 0x7fff0 := by
  rw [boots_iff, toNat_imageSyssize_of_ok h hsystem hsysSize huser husrSize]
  exact bootable_iff (by omega)

end Boot

/-- Any two files of a directory give an image. -/
theorem exists_image (sys usr : List Byte) (hsys : sys.length < 2 ^ 32)
    (husr : usr.length < 2 ^ 32) :
    ∃ image, buildMain (directory sys usr) blankDevice ["build", "bootsect", "system", "user"] =
      .ok image := by
  have hboot : copyBoot (directory sys usr) blankDevice "bootsect" Output.empty = .ok _ :=
    (acceptedBoot_directory sys usr).copyBoot Output.empty rfl
  exact exists_buildMain_regular hboot rfl rfl hsys husr (fun _ _ => rfl) rfl

theorem image_boots_three : ∃ image,
    buildMain (directory (List.replicate 12 0) [1, 2, 3]) blankDevice
      ["build", "bootsect", "system", "user"] = .ok image ∧
    Boots (imageSyssize image) image.byte (fun _ => 0) 15 := by
  obtain ⟨image, h⟩ := exists_image (List.replicate 12 0) [1, 2, 3] (by decide) (by decide)
  exact ⟨image, h, (image_boots_iff h rfl rfl rfl rfl _).mpr (by decide)⟩

/-- Of a system of a megabyte nothing is left in `syssize`. -/
theorem not_image_boots_megabyte : ¬ ∀ image,
    buildMain (directory (List.replicate 0x100000 0) []) blankDevice
      ["build", "bootsect", "system", "user"] = .ok image →
    Boots (imageSyssize image) image.byte (fun _ => 0) 0x100000 := by
  intro hall
  have hlen : (List.replicate 0x100000 (0 : Byte)).length = 0x100000 := List.length_replicate
  have hsize : (regular (List.replicate 0x100000 (0 : Byte))).size = .ok 0x100000 :=
    congrArg Except.ok hlen
  obtain ⟨image, h⟩ := exists_image _ [] (by rw [hlen]; decide) (by decide)
  have hboots := hall image h
  rw [boots_iff, toNat_imageSyssize_of_ok h rfl hsize rfl rfl] at hboots
  exact absurd hboots.2 (by decide)

/-! ## The way of the user program -/

/-- `p_sys_size`. -/
def pSysSize : Addr := BitVec.ofNat 32 kernelStart

/-- `p_usr_size`. -/
def pUsrSize : Addr := BitVec.ofNat 32 kernelStart + 4#32

/-- The copy in `main`. -/
def moveUser (r : Ram) : Ram :=
  copyData r (BitVec.ofNat 32 kernelStart + r.bytes.load pSysSize)
    (BitVec.ofNat 32 lUserStart) (r.bytes.load pUsrSize).toInt

/-- What `main` needs of the image it runs in: the sizes, in the bytes that the
linker script reserves for them, and all that lies behind the system are still as
loaded. -/
structure KeepsImage (sysSize usrSize : ℕ) (loaded mem : Bytes) : Prop where
  sizes : ∀ i < 8, mem (BitVec.ofNat 32 kernelStart + BitVec.ofNat 32 i) =
    loaded (BitVec.ofNat 32 kernelStart + BitVec.ofNat 32 i)
  user : ∀ i, sysSize ≤ i → i < sysSize + usrSize →
    mem (BitVec.ofNat 32 kernelStart + BitVec.ofNat 32 i) =
      loaded (BitVec.ofNat 32 kernelStart + BitVec.ofNat 32 i)

/-- What the loader has put behind `KERNEL_START`. -/
theorem Loaded.mem_apply {sectors : Word} {disk : ℕ → Byte} {m : Bytes} {n i : ℕ}
    {s : Loader} (h : Loaded sectors disk m n s) (hi : i < 512 * n) (hn : n < 2048) :
    s.mem (BitVec.ofNat 32 kernelStart + BitVec.ofNat 32 i) = disk (512 + i) := by
  rw [h.mem]
  exact Bytes.write_apply_add _ _ _ hi (by omega)

/-- The sizes are where `main` looks for them. -/
theorem load_sizes {sysSize usrSize : DWord} {o : Output} {m : Bytes}
    (hsys : sysSize.toNat < 2 ^ 24) (husr : usrSize.toNat < 2 ^ 24)
    (h : ∀ i < 8, m (BitVec.ofNat 32 kernelStart + BitVec.ofNat 32 i) =
      (patched sysSize usrSize o).byte (512 + i)) :
    m.load pSysSize = sysSize ∧ m.load pUsrSize = usrSize := by
  constructor
  · refine Bytes.load_eq_of_byteOf fun k hk => ?_
    rw [pSysSize, h k (by omega), byte_patched, if_neg (by omega), if_pos (by omega),
      Nat.add_sub_cancel_left, partLength_getD hsys hk]
  · refine Bytes.load_eq_of_byteOf fun k hk => ?_
    have haddr : pUsrSize + BitVec.ofNat 32 k =
        BitVec.ofNat 32 kernelStart + BitVec.ofNat 32 (4 + k) := by
      rw [pUsrSize, BitVec.add_assoc, ← BitVec.ofNat_add]
    rw [haddr, h (4 + k) (by omega), byte_patched, if_neg (by omega), if_neg (by omega),
      if_pos (by omega), show 512 + (4 + k) - 516 = k by omega, partLength_getD husr hk]

/-- The copy, once the sizes are known. -/
theorem moveUser_bytes {r : Ram} {sysSize usrSize : ℕ}
    (hfit : sysSize + usrSize ≤ 0x7f000)
    (hsys : r.bytes.load pSysSize = BitVec.ofNat 32 sysSize)
    (husr : r.bytes.load pUsrSize = BitVec.ofNat 32 usrSize) :
    (moveUser r).bytes = r.bytes.copy
      (BitVec.ofNat 32 kernelStart + BitVec.ofNat 32 sysSize) (BitVec.ofNat 32 lUserStart)
      usrSize := by
  have hint : (BitVec.ofNat 32 usrSize).toInt = usrSize := by
    rw [BitVec.toInt_eq_toNat_of_lt (by bv_omega), BitVec.toNat_ofNat,
      Nat.mod_eq_of_lt (by omega)]
  rw [moveUser, copyData, hsys, husr, hint]
  refine copyBlock_bytes usrSize r _ _ ?_
  -- the image ends below the user's pages
  constructor <;> simp only [kernelStart, lUserStart] <;> bv_omega

/-- **The user program arrives.**  With the image on the disk, the loader comes to its
end, and as long as the kernel keeps what is behind it, `main` reads the two sizes
and its copy puts the user program, and nothing else, to the user's address. -/
theorem user_arrives {openFile : String → Except String File} {dev : Device}
    {self boot system user : String} {sys usr : List Byte} {image : Output}
    (h : buildMain openFile dev [self, boot, system, user] = .ok image)
    (hsystem : openFile system = .ok (regular sys))
    (huser : openFile user = .ok (regular usr))
    (hsys : 12 ≤ sys.length) (hfit : sys.length + usr.length ≤ 0x7f000) {disk : ℕ → Byte}
    (hdisk : ∀ i < 512 + (sys.length + usr.length), disk i = image.byte i) (m : Bytes) :
    ∃ s₀ s, readIt setupSecs sysSeg m = some s₀ ∧
      s ∈ eval (rpRead secPista (imageSyssize image) disk) s₀ ∧
      ∀ ram : Ram, KeepsImage sys.length usr.length s.mem ram.bytes →
        (ram.bytes.load pSysSize).toNat = sys.length ∧
        (ram.bytes.load pUsrSize).toNat = usr.length ∧
        (∀ k < usr.length, (moveUser ram).bytes
          (BitVec.ofNat 32 lUserStart + BitVec.ofNat 32 k) = usr.getD k 0) ∧
        ∀ a, usr.length ≤ (a - BitVec.ofNat 32 lUserStart).toNat →
          (moveUser ram).bytes a = ram.bytes a := by
  obtain ⟨o, himage, ho⟩ := buildMain_regular h hsystem huser (by omega) (by omega)
  have hsyssize := toNat_imageSyssize_of_ok h hsystem rfl huser rfl
  -- the loader reads every segment that the image reaches into
  obtain ⟨s₀, hs₀, hloaded₀⟩ :=
    loaded_readIt (by decide : 2 ≤ secPista.toNat) disk m
  have hends : (imageSyssize image).toNat < 0xf000 := by omega
  obtain ⟨s, hs, hloaded⟩ := eval_rpRead (by decide) (by decide) hends hloaded₀
  have hmem : ∀ i < sys.length + usr.length,
      s.mem (BitVec.ofNat 32 kernelStart + BitVec.ofNat 32 i) = image.byte (512 + i) :=
    fun i hi => (hloaded.mem_apply (by omega) (by omega)).trans (hdisk _ (by omega))
  refine ⟨s₀, s, hs₀, hs, fun ram hkeeps => ?_⟩
  have hsizes : ∀ i < 8, ram.bytes (BitVec.ofNat 32 kernelStart + BitVec.ofNat 32 i) =
      (patched (BitVec.ofNat 32 sys.length) (BitVec.ofNat 32 usr.length) o).byte (512 + i) :=
    fun i hi => by rw [hkeeps.sizes i hi, hmem i (by omega), himage]
  obtain ⟨hsysLoad, husrLoad⟩ := load_sizes (by bv_omega) (by bv_omega) hsizes
  have hcopy := moveUser_bytes hfit hsysLoad husrLoad
  refine ⟨?_, ?_, fun k hk => ?_, fun a ha => ?_⟩
  · rw [hsysLoad]
    bv_omega
  · rw [husrLoad]
    bv_omega
  · rw [hcopy, Bytes.copy, Bytes.write_apply_add _ _ _ hk (by omega), BitVec.add_assoc,
      ← BitVec.ofNat_add, hkeeps.user _ (by omega) (by omega), hmem _ (by omega), himage,
      byte_patched, if_neg (by omega), if_neg (by omega), if_neg (by omega), if_neg (by omega),
      ho, List.getD_append_right _ _ _ _ (by omega), Nat.add_sub_cancel_left]
  · rw [hcopy]
    exact Bytes.write_apply_of_le _ _ _ ha

theorem user_arrives_three : ∃ image s₀ s,
    buildMain (directory (List.replicate 12 0) [1, 2, 3]) blankDevice
      ["build", "bootsect", "system", "user"] = .ok image ∧
    readIt setupSecs sysSeg (fun _ => 0) = some s₀ ∧
    s ∈ eval (rpRead secPista (imageSyssize image) image.byte) s₀ ∧
    (s.mem.load pSysSize).toNat = 12 ∧ (s.mem.load pUsrSize).toNat = 3 ∧
    (moveUser ⟨s.mem, []⟩).bytes 0x100002 = 3 := by
  obtain ⟨image, h⟩ := exists_image (List.replicate 12 0) [1, 2, 3] (by decide) (by decide)
  obtain ⟨s₀, s, hs₀, hs, harrives⟩ :=
    user_arrives h rfl rfl (by decide) (by decide) (fun _ _ => rfl) (fun _ => 0)
  obtain ⟨hsys, husr, hbytes, -⟩ :=
    harrives ⟨s.mem, []⟩ ⟨fun _ _ => rfl, fun _ _ _ => rfl⟩
  exact ⟨image, s₀, s, h, hs₀, hs, hsys, husr, hbytes 2 (by decide)⟩

end Zeos
