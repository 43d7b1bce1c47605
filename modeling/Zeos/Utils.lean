import Zeos.MmAddress

/-!
# Block copies and the user-pointer check (`utils.c`)

`copy_data`, `copy_from_user` and `copy_to_user` have one body, modelled by
`copyBlock`: a loop over double words that stops with at most four bytes left,
and a loop over those.  `copyBlock_bytes` sums the two loops up as a single
`Bytes.copy`, and `copyBlock_storesWithin` bounds where they write.

`access_ok` is translated as it stands, with the missing `break` of its
`VERIFY_WRITE` case; `accessOk_verifyRead_ne_zero_iff` reads its answer for
reading off the address and the size.

`Copied` says what a copy is for: the bytes of the source are at the destination and
nothing else has changed.  It is load-bearing that the destination does not begin inside
of the source behind its first byte; a copy downwards may overlap.  Sizes are integers and
may be negative, as those of the source.  The two functions for user addresses do nothing
else and return 0: no address is looked at, so an error is never reported.
-/

namespace Zeos

open Machine

/-! ## Copies -/

/-- `while (size > 4) { *q++ = *p++; size -= 4; }` over double words. -/
def copyDWords (r : Ram) (p q : Addr) (size : ℤ) : Ram × Addr × Addr × ℤ :=
  if 4 < size then
    copyDWords (r.storeDWord q (r.bytes.load p)) (p + 4#32) (q + 4#32) (size - 4)
  else (r, p, q, size)
termination_by size.toNat

/-- `while (size > 0) { *q1++ = *p1++; size--; }` over bytes. -/
def copyBytes (r : Ram) (p1 q1 : Addr) (size : ℤ) : Ram :=
  if 0 < size then
    copyBytes (r.storeByte q1 (r.bytes p1)) (p1 + 1#32) (q1 + 1#32) (size - 1)
  else r
termination_by size.toNat

/-- The common body of the three copies. -/
def copyBlock (r : Ram) (start dest : Addr) (size : ℤ) : Ram :=
  let (r, p, q, size) := copyDWords r start dest size
  copyBytes r p q size

/-- `copy_data`. -/
def copyData (r : Ram) (start dest : Addr) (size : ℤ) : Ram :=
  copyBlock r start dest size

/-- Copy from user to kernel space; always returns 0. -/
def copyFromUser (r : Ram) (start dest : Addr) (size : ℤ) : Ram × ℤ :=
  (copyBlock r start dest size, 0)

/-- Copy from kernel to user space; always returns 0. -/
def copyToUser (r : Ram) (start dest : Addr) (size : ℤ) : Ram × ℤ :=
  (copyBlock r start dest size, 0)

/-- With more than four bytes left, a copy moves a double word and goes on. -/
theorem copyBlock_of_four_lt (r : Ram) (p q : Addr) {size : ℤ} (h : 4 < size) :
    copyBlock r p q size =
      copyBlock (r.storeDWord q (r.bytes.load p)) (p + 4#32) (q + 4#32) (size - 4) := by
  rw [copyBlock, copyDWords, if_pos h, copyBlock]

/-- With at most four bytes left, it copies bytes. -/
theorem copyBlock_of_le_four (r : Ram) (p q : Addr) {size : ℤ} (h : size ≤ 4) :
    copyBlock r p q size = copyBytes r p q size := by
  rw [copyBlock, copyDWords, if_neg (by omega)]

private theorem copyBytes_bytes (n : ℕ) :
    ∀ (r : Ram) (p q : Addr), Bytes.CopyOk p q n →
      (copyBytes r p q n).bytes = r.bytes.copy p q n := by
  induction n with
  | zero =>
      intro r p q _
      rw [copyBytes, if_neg (by simp)]
      exact (Bytes.write_zero _ _ _).symm
  | succ n ih =>
      intro r p q hok
      rw [Nat.add_comm] at hok
      rw [copyBytes, if_pos (by omega), show ((n + 1 : ℕ) : ℤ) - 1 = n by omega]
      rcases Nat.eq_zero_or_pos n with rfl | hn
      · rw [copyBytes, if_neg (by simp), Ram.storeByte_bytes, Bytes.write_one_apply]
      · rw [ih _ _ _ (hok.drop hn), Ram.storeByte_bytes, Bytes.write_one_apply,
          Bytes.copy_copy r.bytes hok, Nat.add_comm]

/-- **A copy moves the block.**  Where the destination does not begin inside the
source and neither wraps, the memory afterwards is the memory before with the
destination block replaced by the source block.

The induction is on the size, four bytes at a time as long as the double-word
loop runs. -/
theorem copyBlock_bytes (n : ℕ) :
    ∀ (r : Ram) (p q : Addr), Bytes.CopyOk p q n →
      (copyBlock r p q n).bytes = r.bytes.copy p q n := by
  induction n using Nat.strongRecOn with
  | ind n ih =>
      intro r p q hok
      by_cases h4 : 4 < n
      · obtain ⟨k, rfl⟩ : ∃ k, n = 4 + k := ⟨n - 4, by omega⟩
        rw [copyBlock_of_four_lt r p q (by omega),
          show ((4 + k : ℕ) : ℤ) - 4 = k by omega,
          ih k (by omega) _ _ _ (hok.drop (by omega)), Ram.storeDWord_bytes,
          Bytes.store_load, Bytes.copy_copy r.bytes hok]
      · rw [copyBlock_of_le_four r p q (by omega)]
        exact copyBytes_bytes n r p q hok

private theorem copyBytes_storesWithin (n : ℕ) :
    ∀ (r : Ram) (p q : Addr), n ≤ 2 ^ 32 →
      Ram.StoresWithin q n r (copyBytes r p q n) := by
  induction n with
  | zero =>
      intro r p q _
      rw [copyBytes, if_neg (by simp)]
      exact Ram.StoresWithin.refl q 0 r
  | succ n ih =>
      intro r p q hn
      rw [copyBytes, if_pos (by omega), show ((n + 1 : ℕ) : ℤ) - 1 = n by omega]
      have hfirst : Ram.StoresWithin q (n + 1) r (r.storeByte q (r.bytes p)) :=
        Ram.StoresWithin.write r _ (by simp)
      have hpos : (q + 1#32 - q).toNat = 1 := Bytes.toNat_add_sub q (by omega)
      exact hfirst.trans ((ih _ _ _ (by omega)).mono (by omega))

/-- A copy stores only into its destination block. -/
theorem copyBlock_storesWithin (n : ℕ) :
    ∀ (r : Ram) (p q : Addr), n ≤ 2 ^ 32 →
      Ram.StoresWithin q n r (copyBlock r p q n) := by
  induction n using Nat.strongRecOn with
  | ind n ih =>
      intro r p q hn
      by_cases h4 : 4 < n
      · obtain ⟨k, rfl⟩ : ∃ k, n = 4 + k := ⟨n - 4, by omega⟩
        rw [copyBlock_of_four_lt r p q (by omega),
          show ((4 + k : ℕ) : ℤ) - 4 = k by omega]
        have hfirst : Ram.StoresWithin q (4 + k) r
            (r.storeDWord q (r.bytes.load p)) :=
          Ram.StoresWithin.write r _ (by simp)
        have hpos : (q + 4#32 - q).toNat = 4 := Bytes.toNat_add_sub q (by omega)
        exact hfirst.trans ((ih k (by omega) _ _ _ (by omega)).mono (by omega))
      · rw [copyBlock_of_le_four r p q (by omega)]
        exact copyBytes_storesWithin n r p q hn

/-- A copy of nothing does nothing. -/
theorem copyBlock_of_nonpos (r : Ram) (p q : Addr) {size : ℤ} (h : size ≤ 0) :
    copyBlock r p q size = r := by
  rw [copyBlock_of_le_four r p q (by omega), copyBytes, if_neg (by omega)]

/-- What a copy of `size` bytes from `start` to `dest` has to do to memory. -/
structure Copied (start dest : Addr) (size : ℤ) (m m' : Bytes) : Prop where
  inside : ∀ i : ℕ, (i : ℤ) < size →
    m' (dest + BitVec.ofNat 32 i) = m (start + BitVec.ofNat 32 i)
  outside : ∀ a : Addr, a.toNat < dest.toNat ∨ (dest.toNat : ℤ) + size ≤ a.toNat → m' a = m a

theorem copied_copyBlock (r : Ram) {start dest : Addr} {size : ℤ}
    (hstart : start.toNat + size ≤ 2 ^ 32) (hdest : dest.toNat + size ≤ 2 ^ 32)
    (hapart : ¬ (start.toNat < dest.toNat ∧ (dest.toNat : ℤ) < start.toNat + size)) :
    Copied start dest size r.bytes (copyBlock r start dest size).bytes := by
  rcases le_or_gt size 0 with hle | hpos
  · rw [copyBlock_of_nonpos r start dest hle]
    exact ⟨fun i hi => by omega, fun _ _ => rfl⟩
  · obtain ⟨n, rfl⟩ : ∃ n : ℕ, size = n := ⟨size.toNat, by omega⟩
    have hok : Bytes.CopyOk start dest n := ⟨by omega, by omega, by omega⟩
    rw [copyBlock_bytes n r start dest hok]
    constructor
    · intro i hi
      exact Bytes.write_apply_add r.bytes dest _ (by omega) (by omega)
    · intro a ha
      exact Bytes.write_apply_of_le r.bytes dest _ (by bv_omega)

/-- **The three copies are correct and do the same**, when neither block wraps and the
destination does not begin strictly inside the source.  It may begin below it and
reach into it. -/
theorem copies_correct (r : Ram) {start dest : Addr} {size : ℤ}
    (hstart : start.toNat + size ≤ 2 ^ 32) (hdest : dest.toNat + size ≤ 2 ^ 32)
    (hapart : ¬ (start.toNat < dest.toNat ∧ (dest.toNat : ℤ) < start.toNat + size)) :
    Copied start dest size r.bytes (copyData r start dest size).bytes ∧
      Copied start dest size r.bytes (copyFromUser r start dest size).1.bytes ∧
      Copied start dest size r.bytes (copyToUser r start dest size).1.bytes ∧
      (copyFromUser r start dest size).1 = copyData r start dest size ∧
      (copyToUser r start dest size).1 = copyData r start dest size ∧
      (size ≤ 0 → copyData r start dest size = r) := by
  have hcopied := copied_copyBlock r hstart hdest hapart
  exact ⟨hcopied, hcopied, hcopied, rfl, rfl, copyBlock_of_nonpos r start dest⟩

/-- Eleven bytes moved down by three, so that each double word goes over the one that
follows it. -/
theorem copies_correct_down : Copied 0x1003 0x1000 11 (fun a => a.setWidth 8)
    (copyToUser ⟨fun a => a.setWidth 8, []⟩ 0x1003 0x1000 11).1.bytes :=
  (copies_correct ⟨fun a => a.setWidth 8, []⟩ (by decide) (by decide) (by decide)).2.2.1

/-! ## The user-pointer check -/

/-- `VERIFY_READ`. -/
def verifyRead : ℤ := 0

/-- `VERIFY_WRITE`. -/
def verifyWrite : ℤ := 1

/-- Checks if a user space pointer is valid.  The `VERIFY_WRITE` case ends
without a `break`, so a block that fails its test goes on to the default one. -/
def accessOk (type : ℤ) (addr : Addr) (size : DWord) : ℤ :=
  let addrIni := (addr >>> 12).toNat
  let addrFin := ((addr + size) >>> 12).toNat
  if addrFin < addrIni then 0  -- this looks like an overflow
  else if type = verifyWrite ∧ userFirstPage ≤ addrIni ∧
      addrFin ≤ userFirstPage + numPagData then 1
  else if userFirstPage ≤ addrIni ∧
      addrFin ≤ userFirstPage + numPagCode + numPagData then 1
  else 0

/-- **The check does not tell writing from reading**: what the `VERIFY_WRITE` case
refuses it falls through to the limit of the default case, and what it accepts lies
within that limit. -/
theorem accessOk_ne_zero_iff (type : ℤ) (addr : Addr) (size : DWord) :
    accessOk type addr size ≠ 0 ↔
      userFirstPage ≤ addr.toNat / 4096 ∧
        addr.toNat / 4096 ≤ (addr.toNat + size.toNat) % 2 ^ 32 / 4096 ∧
        (addr.toNat + size.toNat) % 2 ^ 32 / 4096 ≤
          userFirstPage + numPagCode + numPagData := by
  have hini : (addr >>> 12).toNat = addr.toNat / 4096 := by
    rw [BitVec.toNat_ushiftRight, Nat.shiftRight_eq_div_pow]
  have hfin : ((addr + size) >>> 12).toNat =
      (addr.toNat + size.toNat) % 2 ^ 32 / 4096 := by
    rw [BitVec.toNat_ushiftRight, Nat.shiftRight_eq_div_pow, BitVec.toNat_add]
  simp only [accessOk, hini, hfin]
  generalize addr.toNat / 4096 = ini
  generalize (addr.toNat + size.toNat) % 2 ^ 32 / 4096 = fin
  split
  · omega
  · split
    · next hwrite =>
        have hle : userFirstPage + numPagData ≤ userFirstPage + numPagCode + numPagData := by
          decide
        omega
    · split <;> omega

/-- The check for reading, for the sizes that a signed caller passes: the block
begins in user space and its end is at most one page beyond the user's last
byte. -/
theorem accessOk_verifyRead_ne_zero_iff (addr : Addr) {size : DWord}
    (hsize : size.toNat < 2 ^ 31) :
    accessOk verifyRead addr size ≠ 0 ↔
      lUserStart ≤ addr.toNat ∧ addr.toNat + size.toNat <
        lUserStart + (numPagCode + numPagData + 1) * 4096 := by
  have haddr := addr.isLt
  rw [accessOk_ne_zero_iff, userFirstPage, lUserStart, numPagCode, numPagData]
  omega

/-- **A block that wraps is denied unless its end comes round to the page it begins
in**, that page being one of those the check accepts. -/
theorem accessOk_wrapped_iff (type : ℤ) (addr : Addr) (size : DWord)
    (hwrap : 2 ^ 32 < addr.toNat + size.toNat) :
    accessOk type addr size = 0 ↔
      ¬ ((addr.toNat + size.toNat - 2 ^ 32) / 4096 = addr.toNat / 4096 ∧
        userFirstPage ≤ addr.toNat / 4096 ∧
        addr.toNat / 4096 ≤ userFirstPage + numPagCode + numPagData) := by
  have haddr := addr.isLt
  have hsize := size.isLt
  -- the end that the check sees lies before the beginning
  have hend : (addr.toNat + size.toNat) % 2 ^ 32 = addr.toNat + size.toNat - 2 ^ 32 := by
    omega
  have hbefore : (addr.toNat + size.toNat - 2 ^ 32) / 4096 ≤ addr.toNat / 4096 :=
    Nat.div_le_div_right (by omega)
  rw [← not_iff_not, not_not, ← ne_eq, accessOk_ne_zero_iff, hend]
  constructor
  · rintro ⟨hge, hle, hlast⟩
    have hpage := le_antisymm hbefore hle
    exact ⟨hpage, hge, hpage ▸ hlast⟩
  · rintro ⟨hpage, hge, hlast⟩
    exact ⟨hge, hpage.ge, hpage.le.trans hlast⟩

/-- A block of almost 4 GiB that ends in the page below its own is denied. -/
theorem accessOk_wrapped_denied :
    accessOk verifyWrite 0x101000 0xfffff800 = 0 :=
  (accessOk_wrapped_iff verifyWrite 0x101000 0xfffff800 (by decide)).mpr (by decide)

/-- A block that begins at `0x100010` and wraps to `0x100008` is accepted. -/
theorem accessOk_wrapped_accepted :
    ¬ ∀ type, type = verifyRead ∨ type = verifyWrite →
      ∀ (addr : Addr) (size : DWord), 2 ^ 32 < addr.toNat + size.toNat →
        accessOk type addr size = 0 := by
  intro hall
  exact absurd (hall verifyRead (Or.inl rfl) 0x100010 0xfffffff8 (by decide)) (by decide)

end Zeos
