import Zeos.Isolation
import Zeos.Utils

/-!
# The user-pointer check against the page tables

`access_ok` decides by page numbers alone, `set_user_pages` maps pages.  This
module compares the two.  After `set_user_pages` the user has the bytes from
`L_USER_START` on for as many pages as it has data and code
(`userByte_setUserPages_iff`).  `access_ok` takes the page of the first byte
*after* the block and lets it be one page beyond the user's last one, which is
needed for a block that ends where the user's pages end and too much for a block
that goes on: `accessOk_agrees_iff` says for which blocks the two agree.

For writing the tables give the user the data pages alone, and the check gives it
what it gives for reading: `accessOk_write_iff` says for which blocks that is
right.  The difference is the user's code, the pages that are mapped and not writable
(`inUserCode_iff`).

The blocks are nonempty and shorter than 2³¹ bytes, which is what callers have:
`sys_write` has refused a negative size before.  The blocks that wrap are looked at in
`Zeos.Utils`.  What a user has is read off the tables in memory, through the directory of
its task, in the state that `set_user_pages` leaves after initialization; frames are
enough there, so that every page of the task is mapped.
-/

namespace Zeos

open Machine PageTableEntry

/-- The user may access a byte: its page is mapped for the user. -/
def Mm.UserByte (L : Layout) (s : Mm) (t : ℕ) (a : Addr) : Prop :=
  a.toNat / pageSize < totalPages ∧
    present (s.entry L t (a.toNat / pageSize)) ∧ user (s.entry L t (a.toNat / pageSize))

/-- The user may write to a byte: its page is also mapped writable. -/
def Mm.UserWritableByte (L : Layout) (s : Mm) (t : ℕ) (a : Addr) : Prop :=
  s.UserByte L t a ∧ rw (s.entry L t (a.toNat / pageSize))

/-- The byte lies in a page of user code. -/
def InUserCode (a : Addr) : Prop :=
  pagLogInitCode ≤ a.toNat / pageSize ∧ a.toNat / pageSize < pagLogInitCode + numPagCode

/-- The user may access every byte of a block. -/
def Mm.UserMapped (L : Layout) (s : Mm) (t : ℕ) (addr : Addr) (size : DWord) : Prop :=
  ∀ i < size.toNat, s.UserByte L t (addr + BitVec.ofNat 32 i)

/-! ## What is mapped -/

namespace Paging

/-- After a loop that maps pages, the slots of the loop are user entries and the
others are as before. -/
theorem isSome_userFrame_mapAll {l : List ((ℕ × ℕ) × (DWord → PageTableEntry))}
    (hl : ∀ slot ∈ l, UserEntry slot.2) (p : Paging) (slot : ℕ × ℕ) :
    (userFrame ((p.mapAll l).table slot)).isSome ↔
      slot ∈ l.map Prod.fst ∨ (userFrame (p.table slot)).isSome := by
  induction l generalizing p with
  | nil =>
      rw [List.map_nil, List.mem_nil_iff, false_or]
      rfl
  | cons s l ih =>
      have hmap : (p.mapPage s.2 s.1).table slot =
          Function.update p.table s.1 (s.2 (BitVec.ofInt 32 (allocFrame p.physMem).1)) slot :=
        rfl
      rw [mapAll_cons, ih (fun r hr => hl r (List.mem_cons_of_mem s hr)), hmap,
        List.map_cons, List.mem_cons, or_assoc]
      by_cases heq : slot = s.1
      · rw [heq, Function.update_self, (hl s List.mem_cons_self).userFrame]
        simp
      · rw [Function.update_of_ne heq]
        simp [heq]

/-- `set_user_pages` fills the slots from the first data page to the last code
page. -/
theorem mem_userSlots_iff {t t' k : ℕ} :
    (t', k) ∈ (userSlots t).map Prod.fst ↔
      t' = t ∧ pagLogInitData ≤ k ∧ k < pagLogInitData + (numPagCode + numPagData) := by
  have hshift : ∀ base n, (t', k) ∈ (List.range n).map (fun pag => (t, base + pag)) ↔
      t' = t ∧ base ≤ k ∧ k < base + n := by
    intro base n
    rw [List.mem_map]
    constructor
    · rintro ⟨pag, hpag, heq⟩
      obtain ⟨rfl, rfl⟩ := Prod.mk.inj heq
      have := List.mem_range.mp hpag
      omega
    · rintro ⟨rfl, hge, hlt⟩
      exact ⟨k - base, List.mem_range.mpr (by omega), by rw [Nat.add_sub_cancel' hge]⟩
  rw [userSlots, List.map_append, List.map_map, List.map_map, List.mem_append,
    Function.comp_def, Function.comp_def, hshift, hshift, pagLogInitCode]
  constructor
  · rintro (⟨rfl, hge, hlt⟩ | ⟨rfl, hge, hlt⟩)
    · exact ⟨rfl, by omega, by omega⟩
    · exact ⟨rfl, hge, by omega⟩
  · rintro ⟨rfl, hge, hlt⟩
    rcases Nat.lt_or_ge k (pagLogInitData + numPagData) with h | h
    · exact Or.inr ⟨rfl, hge, h⟩
    · exact Or.inl ⟨rfl, h, by omega⟩

/-- What holds of all entries that a loop puts into a slot holds of the slot
afterwards. -/
theorem mapAll_of_mem {P : PageTableEntry → Prop} {slot : ℕ × ℕ}
    {l : List ((ℕ × ℕ) × (DWord → PageTableEntry))}
    (hl : ∀ r ∈ l, r.1 = slot → ∀ f, P (r.2 f)) (hmem : slot ∈ l.map Prod.fst) (p : Paging) :
    P ((p.mapAll l).table slot) := by
  -- from the end, since the last entry of the slot stays
  induction l using List.reverseRecOn generalizing p with
  | nil => exact absurd hmem List.not_mem_nil
  | append_singleton l r ih =>
      have hmap : ((p.mapAll l).mapPage r.2 r.1).table slot =
          Function.update (p.mapAll l).table r.1
            (r.2 (BitVec.ofInt 32 (allocFrame (p.mapAll l).physMem).1)) slot := rfl
      rw [mapAll_concat, hmap]
      by_cases heq : slot = r.1
      · rw [heq, Function.update_self]
        exact hl r (by simp) heq.symm _
      · rw [Function.update_of_ne heq]
        refine ih (fun r' hr' => hl r' (List.mem_append_left _ hr')) ?_ p
        simpa [heq] using hmem

/-- Of the pages that `set_user_pages` maps the data pages are the writable ones. -/
theorem rw_setUserPages {t k : ℕ} (hge : pagLogInitData ≤ k)
    (hlt : k < pagLogInitData + (numPagCode + numPagData)) (p : Paging) :
    rw ((p.setUserPages t).table (t, k)) = decide (k < pagLogInitCode) := by
  refine mapAll_of_mem (P := fun e => rw e = decide (k < pagLogInitCode)) ?_
    (mem_userSlots_iff.mpr ⟨rfl, hge, hlt⟩) p
  intro r hr hslot f
  rcases List.mem_append.mp hr with hcode | hdata
  · obtain ⟨pag, -, rfl⟩ := List.mem_map.mp hcode
    obtain ⟨-, rfl⟩ := Prod.mk.inj hslot
    have hro : rw (codeEntry f) = false := by
      rw [codeEntry, rw_setPresent, rw_setUser, rw_setPbaseAddr]
      decide
    simp [hro]
  · obtain ⟨pag, hpag, rfl⟩ := List.mem_map.mp hdata
    obtain ⟨-, rfl⟩ := Prod.mk.inj hslot
    have hpag := List.mem_range.mp hpag
    have hrw : rw (dataEntry f) = true := by
      rw [dataEntry, rw_setPresent, rw_setRw]
    simp [hrw, pagLogInitCode, hpag]

end Paging

section Mapped

variable (L : Layout) (s : Mm) (t : Fin nrTasks)

/-- The pages with a frame for the user, in the tables. -/
theorem isSome_userFrame_setUserPages (k : ℕ) :
    (userFrame (((Paging.initial s.physMem).setUserPages t).table (t, k))).isSome ↔
      pagLogInitData ≤ k ∧ k < pagLogInitData + (numPagCode + numPagData) := by
  have hinitial : userFrame ((Paging.initial s.physMem).table (t, k)) = none :=
    Paging.owned_initial s.physMem _
  have hmapped := Paging.isSome_userFrame_mapAll (Paging.userSlots_userEntry t)
    (Paging.initial s.physMem) (t, k)
  rwa [Paging.mem_userSlots_iff, hinitial, Option.isSome_none, Bool.false_eq_true,
    or_false, and_iff_right rfl] at hmapped

/-- The bytes a user has after initialization and `set_user_pages`. -/
theorem userByte_setUserPages_iff (a : Addr) :
    (setUserPages (boot L s) (L.taskAddr t)).UserByte L t a ↔
      lUserStart ≤ a.toNat ∧
        a.toNat < lUserStart + (numPagCode + numPagData) * pageSize := by
  have hrefines := refines_setUserPages (refines_boot L s) t.isLt
  have hpage : pagLogInitData * pageSize = lUserStart := by decide
  have hlast : pagLogInitData + (numPagCode + numPagData) ≤ totalPages := by decide
  have hin : (a.toNat / pageSize < totalPages ∧
      (userFrame (((Paging.initial s.physMem).setUserPages t).table
        (t, a.toNat / pageSize))).isSome) ↔
      pagLogInitData ≤ a.toNat / pageSize ∧
        a.toNat / pageSize < pagLogInitData + (numPagCode + numPagData) := by
    rw [isSome_userFrame_setUserPages]
    exact and_iff_right_of_imp fun h => lt_of_lt_of_le h.2 hlast
  have hpages : (pagLogInitData ≤ a.toNat / pageSize ∧
      a.toNat / pageSize < pagLogInitData + (numPagCode + numPagData)) ↔
      lUserStart ≤ a.toNat ∧
        a.toNat < lUserStart + (numPagCode + numPagData) * pageSize := by
    rw [Nat.le_div_iff_mul_le (by decide), Nat.div_lt_iff_lt_mul (by decide), Nat.add_mul,
      hpage]
  rw [← hpages, ← hin, Mm.UserByte]
  refine and_congr_right fun hk => ?_
  rw [hrefines.entry t.isLt hk, Option.isSome_iff_exists]
  constructor
  · rintro ⟨hp, hu⟩
    exact ⟨_, userFrame_eq_some.mpr ⟨hp, hu, rfl⟩⟩
  · rintro ⟨f, hf⟩
    obtain ⟨hp, hu, -⟩ := userFrame_eq_some.mp hf
    exact ⟨hp, hu⟩

/-- A block that is not empty is mapped exactly if it lies between the ends of the
user's pages. -/
theorem userMapped_setUserPages_iff (addr : Addr) {size : DWord} (hpos : 0 < size.toNat)
    (hsize : size.toNat < 2 ^ 31) :
    (setUserPages (boot L s) (L.taskAddr t)).UserMapped L t addr size ↔
      lUserStart ≤ addr.toNat ∧ addr.toNat + size.toNat ≤
        lUserStart + (numPagCode + numPagData) * pageSize := by
  have haddr := addr.isLt
  have hadd : ∀ i < 2 ^ 31, (addr + BitVec.ofNat 32 i).toNat = (addr.toNat + i) % 2 ^ 32 :=
    fun i hi => by
      rw [BitVec.toNat_add, BitVec.toNat_ofNat, Nat.mod_eq_of_lt (by omega : i < 2 ^ 32)]
  simp only [Mm.UserMapped, userByte_setUserPages_iff, lUserStart, numPagCode, numPagData,
    pageSize]
  constructor
  · intro hall
    have hfirst := hall 0 hpos
    have hlast := hall (size.toNat - 1) (by omega)
    rw [hadd _ (by omega)] at hfirst hlast
    omega
  · rintro ⟨hge, hle⟩ i hi
    rw [hadd i (by omega)]
    omega

/-- The bytes a user may write to after initialization and `set_user_pages`. -/
theorem userWritableByte_setUserPages_iff (a : Addr) :
    (setUserPages (boot L s) (L.taskAddr t)).UserWritableByte L t a ↔
      lUserStart ≤ a.toNat ∧ a.toNat < lUserStart + numPagData * pageSize := by
  have hrefines := refines_setUserPages (refines_boot L s) t.isLt
  rw [Mm.UserWritableByte, userByte_setUserPages_iff]
  have hpage : (lUserStart ≤ a.toNat ∧
      a.toNat < lUserStart + (numPagCode + numPagData) * pageSize) →
      rw ((setUserPages (boot L s) (L.taskAddr t)).entry L t (a.toNat / pageSize)) =
        decide (a.toNat / pageSize < pagLogInitCode) := by
    simp only [lUserStart, numPagCode, numPagData, pageSize]
    rintro ⟨hge, hlt⟩
    have hk : a.toNat / 4096 < totalPages := by
      rw [totalPages]
      omega
    rw [hrefines.entry t.isLt hk]
    refine Paging.rw_setUserPages ?_ ?_ _
    · rw [pagLogInitData, lUserStart]
      omega
    · rw [pagLogInitData, lUserStart, numPagCode, numPagData]
      omega
  have hcode : a.toNat / pageSize < pagLogInitCode ↔
      a.toNat < lUserStart + numPagData * pageSize := by
    rw [Nat.div_lt_iff_lt_mul (by decide)]
    exact Iff.rfl
  constructor
  · rintro ⟨hin, hrw⟩
    rw [hpage hin, decide_eq_true_eq, hcode] at hrw
    exact ⟨hin.1, hrw⟩
  · rintro ⟨hge, hlt⟩
    have hin : lUserStart ≤ a.toNat ∧
        a.toNat < lUserStart + (numPagCode + numPagData) * pageSize :=
      ⟨hge, hlt.trans (by decide)⟩
    exact ⟨hin, by rw [hpage hin, decide_eq_true_eq, hcode]; exact hlt⟩

/-- The pages of user code are those mapped for the user without being writable. -/
theorem inUserCode_iff (a : Addr) :
    InUserCode a ↔ (setUserPages (boot L s) (L.taskAddr t)).UserByte L t a ∧
      ¬ (setUserPages (boot L s) (L.taskAddr t)).UserWritableByte L t a := by
  rw [userByte_setUserPages_iff, userWritableByte_setUserPages_iff, InUserCode]
  simp only [pagLogInitCode, pagLogInitData, lUserStart, numPagCode, numPagData, pageSize]
  omega

/-! ## The comparison -/

/-- **The check agrees with the tables except for blocks that end inside of the
page after the user's last one.**  Those are accepted and not mapped. -/
theorem accessOk_agrees_iff (addr : Addr) (size : DWord) (hpos : 0 < size.toNat)
    (hsize : size.toNat < 2 ^ 31) :
    (accessOk verifyRead addr size ≠ 0 ↔
        (setUserPages (boot L s) (L.taskAddr t)).UserMapped L t addr size) ↔
      ¬ (lUserStart ≤ addr.toNat ∧
        lUserStart + (numPagCode + numPagData) * pageSize < addr.toNat + size.toNat ∧
        addr.toNat + size.toNat <
          lUserStart + (numPagCode + numPagData + 1) * pageSize) := by
  rw [accessOk_verifyRead_ne_zero_iff addr hsize,
    userMapped_setUserPages_iff L s t addr hpos hsize]
  simp only [lUserStart, numPagCode, numPagData, pageSize]
  constructor
  · rintro hiff ⟨hge, hgt, hlt⟩
    have hle := (hiff.mp ⟨hge, hlt⟩).2
    omega
  · intro hnot
    constructor
    · rintro ⟨hge, hlt⟩
      by_contra hout
      exact hnot ⟨hge, by omega, hlt⟩
    · rintro ⟨hge, hle⟩
      exact ⟨hge, by omega⟩

/-- The bytes of a block that does not wrap. -/
private theorem toNat_add_ofNat {addr : Addr} {size : DWord}
    (hend : addr.toNat + size.toNat < 2 ^ 32) {i : ℕ} (hi : i < size.toNat) :
    (addr + BitVec.ofNat 32 i).toNat = addr.toNat + i := by
  rw [BitVec.toNat_add, BitVec.toNat_ofNat, Nat.mod_eq_of_lt (by omega : i < 2 ^ 32),
    Nat.mod_eq_of_lt (by omega)]

/-- The bytes of a block are those that `set_user_pages` maps writable exactly if the
block lies in the data pages. -/
theorem userWritable_setUserPages_iff (addr : Addr) {size : DWord} (hpos : 0 < size.toNat)
    (hend : addr.toNat + size.toNat < 2 ^ 32) :
    (∀ i < size.toNat, (setUserPages (boot L s) (L.taskAddr t)).UserWritableByte L t
        (addr + BitVec.ofNat 32 i)) ↔
      lUserStart ≤ addr.toNat ∧
        addr.toNat + size.toNat ≤ lUserStart + numPagData * pageSize := by
  simp only [userWritableByte_setUserPages_iff]
  constructor
  · intro hall
    have hfirst := hall 0 hpos
    have hlast := hall (size.toNat - 1) (by omega)
    rw [toNat_add_ofNat hend (by omega)] at hfirst hlast
    omega
  · rintro ⟨hge, hle⟩ i hi
    rw [toNat_add_ofNat hend hi]
    omega

/-- A block reaches into user code if it begins before the end of the code and ends
behind the beginning. -/
theorem touches_userCode_iff (addr : Addr) {size : DWord}
    (hend : addr.toNat + size.toNat < 2 ^ 32) :
    (∃ i < size.toNat, InUserCode (addr + BitVec.ofNat 32 i)) ↔
      0 < size.toNat ∧ pagLogInitCode * pageSize < addr.toNat + size.toNat ∧
        addr.toNat < (pagLogInitCode + numPagCode) * pageSize := by
  simp only [InUserCode, Nat.le_div_iff_mul_le (by decide : 0 < pageSize),
    Nat.div_lt_iff_lt_mul (by decide : 0 < pageSize)]
  constructor
  · rintro ⟨i, hi, hge, hlt⟩
    rw [toNat_add_ofNat hend hi] at hge hlt
    exact ⟨by omega, by omega, by omega⟩
  · rintro ⟨hpos, hend', hbegin⟩
    -- the first byte of the block or the first byte of the code
    refine ⟨pagLogInitCode * pageSize - addr.toNat, by omega, ?_⟩
    rw [toNat_add_ofNat hend (by omega)]
    have hcode : pagLogInitCode * pageSize < (pagLogInitCode + numPagCode) * pageSize := by
      decide
    omega

/-- **The check for writing is right except for blocks that end behind the data
pages and before the end of the page after the user's last one.**  These are
accepted like blocks to read. -/
theorem accessOk_write_iff (addr : Addr) (size : DWord) (hpos : 0 < size.toNat)
    (hend : addr.toNat + size.toNat < 2 ^ 32) :
    ((accessOk verifyWrite addr size ≠ 0 →
        ∀ i < size.toNat, (setUserPages (boot L s) (L.taskAddr t)).UserWritableByte L t
          (addr + BitVec.ofNat 32 i)) ∧
      ((∃ i < size.toNat, InUserCode (addr + BitVec.ofNat 32 i)) →
        accessOk verifyWrite addr size = 0)) ↔
      ¬ (lUserStart ≤ addr.toNat ∧
        lUserStart + numPagData * pageSize < addr.toNat + size.toNat ∧
        addr.toNat + size.toNat < lUserStart + (numPagCode + numPagData + 1) * pageSize) := by
  have haccept : accessOk verifyWrite addr size ≠ 0 ↔ lUserStart ≤ addr.toNat ∧
      addr.toNat + size.toNat < lUserStart + (numPagCode + numPagData + 1) * pageSize := by
    rw [accessOk_ne_zero_iff, userFirstPage, lUserStart, numPagCode, numPagData, pageSize]
    omega
  have hcode : pagLogInitCode * pageSize = lUserStart + numPagData * pageSize := by decide
  rw [userWritable_setUserPages_iff L s t addr hpos hend, touches_userCode_iff addr hend,
    haccept, hcode]
  constructor
  · rintro ⟨hwritable, -⟩ ⟨hge, hgt, hlt⟩
    have hle := (hwritable ⟨hge, hlt⟩).2
    omega
  · intro hnot
    constructor
    · rintro ⟨hge, hlt⟩
      exact ⟨hge, by omega⟩
    · rintro ⟨-, hgt, -⟩
      by_contra hne
      obtain ⟨hge, hlt⟩ := haccept.mp hne
      exact hnot ⟨hge, hgt, hlt⟩

end Mapped

/-- A block of the last eight bytes of the code, where the two agree. -/
theorem accessOk_agrees_last :
    accessOk verifyRead 0x11bff8 8 ≠ 0 ↔
      (setUserPages (boot exampleLayout ⟨fun _ => 0, fun _ => 0⟩)
        (exampleLayout.taskAddr 0)).UserMapped exampleLayout 0 0x11bff8 8 :=
  (accessOk_agrees_iff exampleLayout ⟨fun _ => 0, fun _ => 0⟩ ⟨0, by decide⟩ 0x11bff8 8
    (by decide) (by decide)).mpr (by decide)

/-- The byte after the user's last page is accepted and not mapped. -/
theorem accessOk_disagrees :
    ¬ (accessOk verifyRead 0x11c000 1 ≠ 0 ↔
      (setUserPages (boot exampleLayout ⟨fun _ => 0, fun _ => 0⟩)
        (exampleLayout.taskAddr 0)).UserMapped exampleLayout 0 0x11c000 1) := by
  intro hiff
  have hmapped := hiff.mp (by decide)
  rw [userMapped_setUserPages_iff exampleLayout _ ⟨0, by decide⟩ _ (by decide) (by decide)]
    at hmapped
  exact absurd hmapped.2 (by decide)

/-- A block of the last eight bytes of the data, which the user may write to. -/
theorem accessOk_write_last :
    (accessOk verifyWrite 0x113ff8 8 ≠ 0 → ∀ i < (8 : DWord).toNat,
        (setUserPages (boot exampleLayout ⟨fun _ => 0, fun _ => 0⟩)
          (exampleLayout.taskAddr 0)).UserWritableByte exampleLayout 0
          (0x113ff8 + BitVec.ofNat 32 i)) ∧
      ((∃ i < (8 : DWord).toNat, InUserCode (0x113ff8 + BitVec.ofNat 32 i)) →
        accessOk verifyWrite 0x113ff8 8 = 0) :=
  (accessOk_write_iff exampleLayout ⟨fun _ => 0, fun _ => 0⟩ ⟨0, by decide⟩ 0x113ff8 8
    (by decide) (by decide)).mpr (by decide)

/-- The first byte of the user's code is accepted for writing. -/
theorem accessOk_write_code :
    ¬ (accessOk verifyWrite 0x114000 1 ≠ 0 → ∀ i < (1 : DWord).toNat,
        (setUserPages (boot exampleLayout ⟨fun _ => 0, fun _ => 0⟩)
          (exampleLayout.taskAddr 0)).UserWritableByte exampleLayout 0
          (0x114000 + BitVec.ofNat 32 i)) ∧
      ¬ ((∃ i < (1 : DWord).toNat, InUserCode (0x114000 + BitVec.ofNat 32 i)) →
        accessOk verifyWrite 0x114000 1 = 0) := by
  constructor
  · intro hwritable
    have hfirst := hwritable (by decide) 0 (by decide)
    rw [userWritableByte_setUserPages_iff exampleLayout _ ⟨0, by decide⟩] at hfirst
    exact absurd hfirst.2 (by decide)
  · intro hrejected
    have hcode : InUserCode (0x114000 + BitVec.ofNat 32 0) := by
      unfold InUserCode
      decide
    exact absurd (hrejected ⟨0, by decide, hcode⟩) (by decide)

end Zeos
