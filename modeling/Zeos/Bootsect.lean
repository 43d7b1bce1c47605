import Zeos.Machine.Memory
import Zeos.Machine.Run

/-!
# The boot loader (`bootsect.S`)

`read_it` loads the image track by track.  It keeps the place on the disk in
`sread`, `head` and `track` and the place in memory in `es:bx`, all of them 16-bit
words, and stops when the segment has passed `syssize` paragraphs.  `rpRead` is one
round of its loop, from the label `rp_read` to the next jump there.

All of these are functions of one number, the sectors loaded so far: `Loaded` is
this relation, `loaded_rpRead` says that a round keeps it and does not jump over a
64 KB boundary, and `eval_rpRead` sums a run up.

The arithmetic is that of words of 16 bits, in the state as in the geometry, so that the
invariant has to say why nothing wraps: a track has at most 63 sectors and a segment 64
KB, and `syssize` is below 0xf000, so that the segment in which it stops is still a word;
from 0xf000 on the loop does not end (`notMem_eval_rpRead`).  `readIt` may have no result,
which stands for the loop in which the loader stops when its segment is not at a 64 KB
boundary.  Reading a disk never fails here; the loader does not look whether it has.  That
a run ends is part of `exactLoad_readIt` and not a hypothesis: the sectors loaded grow
with each round (`reaches_of_progress`).
-/

namespace Zeos

open Machine StateTransition

/-! ## The code -/

/-- `SEC_PISTA`, the sectors of a track. -/
def secPista : Word := 18

/-- `SETUPSECS`. -/
def setupSecs : Byte := 0

/-- `INITSEG`, the segment the boot sector runs in. -/
def initSeg : Word := 0x9000

/-- `SYSSEG`, the segment the image is loaded to. -/
def sysSeg : Word := 0x1000

/-- A call of the BIOS to read sectors of one track. -/
structure DiskRead where
  track : Byte
  head : Byte
  sector : Byte
  count : Byte
  es : Word
  bx : Word

namespace DiskRead

/-- The number of the first sector on a disk with two heads. -/
def lba (sectors : Word) (r : DiskRead) : ℕ :=
  (r.track.toNat * 2 + r.head.toNat) * sectors.toNat + (r.sector.toNat - 1)

/-- The physical address of the buffer. -/
def addr (r : DiskRead) : Addr := r.es.setWidth 32 * 16#32 + r.bx.setWidth 32

/-- The physical address behind the bytes that are stored. -/
def stop (r : DiskRead) : ℕ := r.addr.toNat + 512 * r.count.toNat

/-- What the BIOS does. -/
def transfer (sectors : Word) (disk : ℕ → Byte) (r : DiskRead) (m : Bytes) : Bytes :=
  m.write r.addr (512 * r.count.toNat) fun i => disk (512 * r.lba sectors + i)

end DiskRead

/-- The loader's registers and variables, the memory, and the reads so far. -/
structure Loader where
  es : Word
  bx : Word
  sread : Word
  head : Word
  track : Word
  mem : Bytes
  reads : List DiskRead

/-- `read_it` up to its loop.  A segment that is not at a 64 KB boundary makes it
hang. -/
def readIt (setupSects : Byte) (es : Word) (mem : Bytes) : Option Loader :=
  if es &&& 0x0fff#16 = 0 then
    some { es := es, bx := 0, sread := (setupSects + 1).setWidth 16, head := 0, track := 0,
           mem := mem, reads := [] }
  else none

/-- The carry flag of an addition. -/
def carry (a b : Word) : Bool := decide (2 ^ 16 ≤ a.toNat + b.toNat)

/-- `ok1_read`: the sectors to read, up to the end of the track or of the segment. -/
def readCount (sectors sread bx : Word) : Word :=
  let ax := sectors - sread
  let cx := ax <<< 9
  if carry cx bx = false ∨ cx + bx = 0 then ax else (0 - bx) >>> 9

/-- `read_track`. -/
def readTrack (s : Loader) (ax : Word) : DiskRead where
  track := s.track.setWidth 8
  head := (s.head &&& 1#16).setWidth 8
  sector := (s.sread + 1).setWidth 8
  count := ax.setWidth 8
  es := s.es
  bx := s.bx

/-- The place on the disk after reading `ax` sectors, as `sread`, `head`
and `track`. -/
def nextPlace (sectors : Word) (s : Loader) (ax : Word) : Word × Word × Word :=
  if ax + s.sread = sectors then
    let head := 1 - s.head
    (0, head, if head = 0 then s.track + 1 else s.track)
  else (ax + s.sread, s.head, s.track)

/-- `ok3_read`: the place in memory after reading `cx` sectors. -/
def nextBuffer (s : Loader) (cx : Word) : Word × Word :=
  let cx := cx <<< 9
  if carry s.bx cx then (s.es + 0x1000, 0) else (s.es, s.bx + cx)

/-- `ok2_read`: read `ax` sectors and go on behind them. -/
def okRead (sectors : Word) (disk : ℕ → Byte) (s : Loader) (ax : Word) : Loader :=
  let r := readTrack s ax
  let place := nextPlace sectors s ax
  let buffer := nextBuffer s ax
  { es := buffer.1
    bx := buffer.2
    sread := place.1
    head := place.2.1
    track := place.2.2
    mem := r.transfer sectors disk s.mem
    reads := s.reads ++ [r] }

/-- One round of the loop; `none` is its `ret`. -/
def rpRead (sectors syssize : Word) (disk : ℕ → Byte) (s : Loader) : Option Loader :=
  if s.es - sysSeg ≤ syssize then
    some (okRead sectors disk s (readCount sectors s.sread s.bx))
  else none

/-! ## The relation -/

/-- The sectors that a read transfers. -/
def sectorsOf (sectors : Word) (r : DiskRead) : List ℕ :=
  List.range' (r.lba sectors) r.count.toNat

/-- What holds of each read: it is not empty, it stays in its track and in its
64 KB segment, and sectors and memory run in parallel. -/
structure GoodRead (sectors : Word) (r : DiskRead) : Prop where
  pos : 0 < r.count.toNat
  first : 1 ≤ r.lba sectors
  addr : r.addr.toNat = 0x10000 + 512 * (r.lba sectors - 1)
  inTrack : r.lba sectors % sectors.toNat + r.count.toNat ≤ sectors.toNat
  inSegment : r.addr.toNat % 0x10000 + 512 * r.count.toNat ≤ 0x10000

/-- The state after `n` sectors have been loaded.  The first sector of the disk is
the boot sector. -/
structure Loaded (sectors : Word) (disk : ℕ → Byte) (m : Bytes) (n : ℕ) (s : Loader) :
    Prop where
  es : s.es = BitVec.ofNat 16 (0x1000 * (1 + n / 128))
  bx : s.bx.toNat = 512 * (n % 128)
  sread : s.sread.toNat = (1 + n) % sectors.toNat
  head : s.head.toNat = (1 + n) / sectors.toNat % 2
  track : s.track.toNat = (1 + n) / sectors.toNat / 2
  mem : s.mem = m.write 0x10000#32 (512 * n) fun i => disk (512 + i)
  reads : ∀ r ∈ s.reads, GoodRead sectors r
  order : s.reads.flatMap (sectorsOf sectors) = List.range' 1 n

theorem loaded_readIt {sectors : Word} (h : 2 ≤ sectors.toNat) (disk : ℕ → Byte)
    (m : Bytes) :
    ∃ s, readIt setupSecs sysSeg m = some s ∧ Loaded sectors disk m 0 s := by
  refine ⟨_, rfl, ?_⟩
  constructor
  · rfl
  · rfl
  · rw [Nat.add_zero, Nat.mod_eq_of_lt h]
    rfl
  · rw [Nat.add_zero, Nat.div_eq_of_lt h]
    rfl
  · rw [Nat.add_zero, Nat.div_eq_of_lt h]
    rfl
  · rw [Nat.mul_zero, Bytes.write_zero]
  · simp
  · rfl

/-! ## One round -/

theorem carry_iff (a b : Word) : carry a b = true ↔ 2 ^ 16 ≤ a.toNat + b.toNat := by
  unfold carry
  exact decide_eq_true_iff

/-- A sector is 512 bytes. -/
theorem toNat_shiftLeft_nine {a : Word} (h : a.toNat < 128) :
    (a <<< 9).toNat = 512 * a.toNat := by
  rw [BitVec.toNat_shiftLeft, Nat.shiftLeft_eq, Nat.mod_eq_of_lt (by omega), Nat.mul_comm]

/-- A round reads what is left of the track or of the segment, whichever is less. -/
theorem readCount_toNat {sectors sread bx : Word} {b : ℕ} (hsectors : sectors.toNat < 128)
    (hsread : sread.toNat < sectors.toNat) (hbx : bx.toNat = 512 * b) :
    (readCount sectors sread bx).toNat = min (sectors.toNat - sread.toNat) (128 - b) := by
  have hax : (sectors - sread).toNat = sectors.toNat - sread.toNat :=
    BitVec.toNat_sub_of_le (by bv_omega)
  have hcx : ((sectors - sread) <<< 9).toNat = 512 * (sectors.toNat - sread.toNat) := by
    rw [toNat_shiftLeft_nine (by omega), hax]
  have hsum := carry_iff ((sectors - sread) <<< 9) bx
  rw [hcx, hbx] at hsum
  unfold readCount
  simp only
  split
  · next hfits =>
      -- the bytes reach at most the end of the segment
      have hle : 512 * (sectors.toNat - sread.toNat) + 512 * b ≤ 2 ^ 16 := by
        rcases hfits with hcarry | hzero
        · have := hsum.not.mp (by simp [hcarry])
          omega
        · bv_omega
      rw [hax, Nat.min_eq_left (by omega)]
  · next hfits =>
      have hlt : 2 ^ 16 < 512 * (sectors.toNat - sread.toNat) + 512 * b := by
        obtain ⟨hcarry, hzero⟩ := not_or.mp hfits
        have := hsum.mp (by simpa using hcarry)
        bv_omega
      have hneg : (0 - bx).toNat = 512 * (128 - b) := by bv_omega
      rw [BitVec.toNat_ushiftRight, hneg, Nat.shiftRight_eq_div_pow,
        Nat.min_eq_right (by omega)]
      omega

/-- Two sectors that fill the segment: the sum is zero, with a carry. -/
example : readCount 18 16 0xfc00 = 2 := by decide

/-- The place on the disk of a sector, after some more of its track. -/
theorem nextPlace_toNat {sectors : Word} {x : ℕ} {s : Loader} {ax : Word}
    (hpos : 0 < sectors.toNat) (hsectors : sectors.toNat < 128)
    (hsread : s.sread.toNat = x % sectors.toNat)
    (hhead : s.head.toNat = x / sectors.toNat % 2)
    (htrack : s.track.toNat = x / sectors.toNat / 2) (hx : x / sectors.toNat < 2 ^ 16)
    (hax : x % sectors.toNat + ax.toNat ≤ sectors.toNat) :
    (nextPlace sectors s ax).1.toNat = (x + ax.toNat) % sectors.toNat ∧
      (nextPlace sectors s ax).2.1.toNat = (x + ax.toNat) / sectors.toNat % 2 ∧
      (nextPlace sectors s ax).2.2.toNat = (x + ax.toNat) / sectors.toNat / 2 := by
  have hsum : (ax + s.sread).toNat = x % sectors.toNat + ax.toNat := by bv_omega
  have hdivmod := Nat.div_add_mod x sectors.toNat
  unfold nextPlace
  split
  · next heq =>
      -- the track is at its end, and the other head or the next track is next
      have hend : x % sectors.toNat + ax.toNat = sectors.toNat := by rw [← hsum, heq]
      obtain ⟨hdiv, hmod⟩ : (x + ax.toNat) / sectors.toNat = x / sectors.toNat + 1 ∧
          (x + ax.toNat) % sectors.toNat = 0 := by
        refine (Nat.div_mod_unique hpos).mpr ⟨?_, hpos⟩
        rw [Nat.mul_add, Nat.mul_one]
        omega
      simp only [hdiv, hmod]
      rcases Nat.mod_two_eq_zero_or_one (x / sectors.toNat) with heven | hodd
      · have hother : (1 - s.head).toNat = 1 := by bv_omega
        rw [if_neg (by bv_omega), hother]
        refine ⟨rfl, by omega, by omega⟩
      · have hother : 1 - s.head = 0 := by bv_omega
        rw [if_pos hother, hother]
        refine ⟨rfl, ?_, ?_⟩
        · show 0 = _
          omega
        · bv_omega
  · next hne =>
      have hlt : x % sectors.toNat + ax.toNat < sectors.toNat := by
        refine lt_of_le_of_ne hax fun heq => hne ?_
        rw [← BitVec.toNat_inj, hsum, heq]
      obtain ⟨hdiv, hmod⟩ : (x + ax.toNat) / sectors.toNat = x / sectors.toNat ∧
          (x + ax.toNat) % sectors.toNat = x % sectors.toNat + ax.toNat := by
        refine (Nat.div_mod_unique hpos).mpr ⟨by omega, hlt⟩
      simp only [hdiv, hmod, hhead, htrack, hsum, and_self]

/-- The place in memory of a sector, after some more of its segment. -/
theorem nextBuffer_eq {n : ℕ} {s : Loader} {cx : Word}
    (hes : s.es = BitVec.ofNat 16 (0x1000 * (1 + n / 128)))
    (hbx : s.bx.toNat = 512 * (n % 128))
    (hcx : n % 128 + cx.toNat ≤ 128) (hlt : cx.toNat < 128) :
    (nextBuffer s cx).1 = BitVec.ofNat 16 (0x1000 * (1 + (n + cx.toNat) / 128)) ∧
      (nextBuffer s cx).2.toNat = 512 * ((n + cx.toNat) % 128) := by
  have hshift := toNat_shiftLeft_nine hlt
  have hcarry := carry_iff s.bx (cx <<< 9)
  unfold nextBuffer
  simp only
  -- `shl` by nine carries exactly when the segment is full
  split
  · next h =>
      have hend : n % 128 + cx.toNat = 128 := by
        have := hcarry.mp h
        omega
      have hdiv : (n + cx.toNat) / 128 = n / 128 + 1 := by omega
      refine ⟨?_, ?_⟩
      · rw [hes, hdiv]
        bv_omega
      · show 0 = _
        omega
  · next h =>
      have hbefore : n % 128 + cx.toNat < 128 := by
        have := hcarry.not.mp h
        omega
      have hdiv : (n + cx.toNat) / 128 = n / 128 := by omega
      refine ⟨?_, ?_⟩
      · rw [hes, hdiv]
      · bv_omega

/-- The read of a round, in terms of the sectors that have been loaded. -/
theorem readTrack_spec {sectors : Word} {disk : ℕ → Byte} {m : Bytes} {n : ℕ} {s : Loader}
    {ax : Word} (hlow : 4 ≤ sectors.toNat) (hhigh : sectors.toNat < 64) (hn : n < 1920)
    (h : Loaded sectors disk m n s) (hax : ax.toNat < 64) :
    (readTrack s ax).lba sectors = 1 + n ∧ (readTrack s ax).count.toNat = ax.toNat ∧
      (readTrack s ax).addr = 0x10000#32 + BitVec.ofNat 32 (512 * n) := by
  have hpos : 0 < sectors.toNat := by omega
  have hsector : (1 + n) % sectors.toNat < sectors.toNat := Nat.mod_lt _ hpos
  have htrack : (1 + n) / sectors.toNat / 2 < 256 := by
    have : (1 + n) / sectors.toNat ≤ (1 + n) / 4 := Nat.div_le_div_left hlow (by decide)
    omega
  -- there are two heads, so the mask of the BIOS call takes nothing off
  have hhead : s.head &&& 1#16 = s.head := by
    have : s.head = 0 ∨ s.head = 1 := by
      have := h.head
      bv_omega
    rcases this with h | h <;> rw [h] <;> rfl
  refine ⟨?_, ?_, ?_⟩
  · have hsread := h.sread
    simp only [DiskRead.lba, readTrack, hhead, BitVec.toNat_setWidth, h.track, h.head]
    rw [Nat.mod_eq_of_lt htrack, Nat.mod_eq_of_lt (by omega)]
    have hsec : (s.sread + 1).toNat % 2 ^ 8 - 1 = (1 + n) % sectors.toNat := by bv_omega
    rw [hsec, Nat.mul_comm _ 2, Nat.div_add_mod, Nat.mul_comm, Nat.div_add_mod]
  · simp only [readTrack, BitVec.toNat_setWidth]
    omega
  · have hes := h.es
    have hbx := h.bx
    simp only [DiskRead.addr, readTrack]
    bv_omega

theorem goodRead_readTrack {sectors : Word} {n : ℕ} {r : DiskRead} {ax : Word}
    (hlba : r.lba sectors = 1 + n) (hcount : r.count.toNat = ax.toNat)
    (haddr : r.addr = 0x10000#32 + BitVec.ofNat 32 (512 * n)) (hn : n < 1920)
    (hpos : 0 < ax.toNat) (htrack : (1 + n) % sectors.toNat + ax.toNat ≤ sectors.toNat)
    (hsegment : n % 128 + ax.toNat ≤ 128) : GoodRead sectors r := by
  have haddrNat : r.addr.toNat = 0x10000 + 512 * n := by
    rw [haddr]
    bv_omega
  constructor
  · rwa [hcount]
  · omega
  · omega
  · rwa [hlba, hcount]
  · omega

/-- The segments that have been filled. -/
theorem Loaded.segments {sectors : Word} {disk : ℕ → Byte} {m : Bytes} {n : ℕ}
    {s : Loader} (h : Loaded sectors disk m n s) (hn : n < 2048) :
    (s.es - sysSeg).toNat = 0x1000 * (n / 128) := by
  have hes := h.es
  unfold sysSeg
  bv_omega

theorem Loaded.transfer {sectors : Word} {disk : ℕ → Byte} {m : Bytes} {n c : ℕ}
    {s : Loader} {r : DiskRead} (h : Loaded sectors disk m n s) (hlba : r.lba sectors = 1 + n)
    (hcount : r.count.toNat = c) (haddr : r.addr = 0x10000#32 + BitVec.ofNat 32 (512 * n))
    (hlen : 512 * (n + c) ≤ 2 ^ 32) :
    r.transfer sectors disk s.mem =
      m.write 0x10000#32 (512 * (n + c)) fun i => disk (512 + i) := by
  rw [DiskRead.transfer, h.mem, haddr, hcount, hlba, Bytes.write_write _ _ _ _ _ _ (by omega),
    ← Nat.mul_add]
  refine Bytes.write_congr _ _ fun i _ => ?_
  split
  · rfl
  · congr 1
    omega

/-- **Reading on** from a place keeps the relation, within a track and a segment. -/
theorem Loaded.okRead {sectors : Word} {disk : ℕ → Byte} {m : Bytes} {n : ℕ} {s : Loader}
    {ax : Word} (hlow : 4 ≤ sectors.toNat) (hhigh : sectors.toNat < 64) (hn : n < 1920)
    (h : Loaded sectors disk m n s) (hpos : 0 < ax.toNat)
    (htrack : (1 + n) % sectors.toNat + ax.toNat ≤ sectors.toNat)
    (hsegment : n % 128 + ax.toNat ≤ 128) :
    Loaded sectors disk m (n + ax.toNat) (okRead sectors disk s ax) := by
  obtain ⟨hlba, hcount, haddr⟩ := readTrack_spec hlow hhigh hn h (by omega : ax.toNat < 64)
  obtain ⟨hsread, hhead, htrack'⟩ := nextPlace_toNat (by omega) (by omega) h.sread h.head
    h.track (lt_of_le_of_lt (Nat.div_le_self _ _) (by omega)) htrack
  obtain ⟨hes, hbx⟩ := nextBuffer_eq h.es h.bx hsegment (by omega)
  rw [Nat.add_assoc] at hsread hhead htrack'
  -- the place on the disk is that of `nextPlace`, the one in memory that of `nextBuffer`
  constructor
  · exact hes
  · exact hbx
  · exact hsread
  · exact hhead
  · exact htrack'
  · exact h.transfer hlba hcount haddr (by omega)
  · intro r hr
    rcases List.mem_append.mp hr with hold | hnew
    · exact h.reads r hold
    · rw [List.mem_singleton.mp hnew]
      exact goodRead_readTrack hlba hcount haddr (by omega) hpos htrack hsegment
  · unfold Zeos.okRead
    simp only [List.flatMap_append, h.order, List.flatMap_cons, List.flatMap_nil,
      List.append_nil, sectorsOf, hlba, hcount]
    exact List.range'_append_1

/-- **One round** reads up to the end of the track or of the 64 KB segment. -/
theorem loaded_rpRead {sectors : Word} (syssize : Word) {disk : ℕ → Byte} {m : Bytes}
    {n : ℕ} {s : Loader} (hlow : 4 ≤ sectors.toNat) (hhigh : sectors.toNat < 64) (hn : n < 1920)
    (h : Loaded sectors disk m n s) (hsys : 0x1000 * (n / 128) ≤ syssize.toNat) :
    ∃ c s', rpRead sectors syssize disk s = some s' ∧ 0 < c ∧ n % 128 + c ≤ 128 ∧
      Loaded sectors disk m (n + c) s' := by
  have hsector : (1 + n) % sectors.toNat < sectors.toNat := Nat.mod_lt _ (by omega)
  have hcount := readCount_toNat (by omega) (h.sread ▸ hsector) h.bx
  rw [h.sread] at hcount
  have hgo : s.es - sysSeg ≤ syssize := by
    rw [BitVec.le_def, h.segments (by omega)]
    exact hsys
  exact ⟨_, _, if_pos hgo, by omega, by omega,
    h.okRead hlow hhigh hn (by omega) (by omega) (by omega)⟩

/-- The loop ends behind the segment that `syssize` lies in. -/
theorem rpRead_eq_none {sectors syssize : Word} {disk : ℕ → Byte} {m : Bytes} {n : ℕ}
    {s : Loader} (hn : n < 2048) (h : Loaded sectors disk m n s)
    (hsys : syssize.toNat < 0x1000 * (n / 128)) : rpRead sectors syssize disk s = none := by
  refine if_neg ?_
  rw [BitVec.le_def, h.segments hn]
  omega

/-! ## A run -/

/-- What a read covers of the disk. -/
def DiskRead.Covers (sectors : Word) (r : DiskRead) (i : ℕ) : Prop :=
  512 * r.lba sectors ≤ i ∧ i < 512 * (r.lba sectors + r.count.toNat)

theorem GoodRead.stop_eq {sectors : Word} {r : DiskRead} (h : GoodRead sectors r) :
    r.stop = 0x10000 + 512 * (r.lba sectors - 1 + r.count.toNat) := by
  rw [DiskRead.stop, h.addr, Nat.mul_add, Nat.add_assoc]

section Loading

variable {sectors syssize : Word} {disk : ℕ → Byte} {m : Bytes} {n : ℕ} {s : Loader}

/-- The sectors loaded so far have all been read, by one read or another. -/
theorem Loaded.exists_read (h : Loaded sectors disk m n s) {k : ℕ} (hpos : 1 ≤ k)
    (hk : k ≤ n) : ∃ r ∈ s.reads, r.lba sectors ≤ k ∧ k < r.lba sectors + r.count.toNat := by
  have hmem : k ∈ s.reads.flatMap (sectorsOf sectors) := by
    rw [h.order, List.mem_range'_1]
    omega
  obtain ⟨r, hr, hin⟩ := List.mem_flatMap.mp hmem
  exact ⟨r, hr, List.mem_range'_1.mp hin⟩

/-- Nothing else has been read. -/
theorem Loaded.stop_le (h : Loaded sectors disk m n s) {r : DiskRead} (hr : r ∈ s.reads) :
    r.stop ≤ 0x10000 + 512 * n := by
  have hgood := h.reads r hr
  have hpos := hgood.pos
  have hfirst := hgood.first
  have hlast : r.lba sectors + (r.count.toNat - 1) ∈ s.reads.flatMap (sectorsOf sectors) :=
    List.mem_flatMap.mpr ⟨r, hr, List.mem_range'_1.mpr ⟨by omega, by omega⟩⟩
  rw [h.order, List.mem_range'_1] at hlast
  rw [hgood.stop_eq]
  omega

theorem Loaded.covers (h : Loaded sectors disk m n s) {k : ℕ} (hk : k < 512 * n) :
    ∃ r ∈ s.reads, r.Covers sectors (512 + k) := by
  obtain ⟨r, hr, hfirst, hlast⟩ := h.exists_read (k := 1 + k / 512) (by omega) (by omega)
  exact ⟨r, hr, by omega, by omega⟩

theorem Loaded.lt_of_covers (h : Loaded sectors disk m n s) {r : DiskRead}
    (hr : r ∈ s.reads) {k : ℕ} (hk : r.Covers sectors (512 + k)) : k < 512 * n := by
  have hstop := h.stop_le hr
  have hfirst := (h.reads r hr).first
  rw [(h.reads r hr).stop_eq] at hstop
  have := hk.2
  omega

/-- The reads are never forgotten. -/
theorem reads_rpRead {s' : Loader} (h : rpRead sectors syssize disk s = some s') :
    s.reads ⊆ s'.reads := by
  unfold rpRead at h
  split at h
  · rw [← Option.some.inj h]
    exact List.subset_append_left _ _
  · exact absurd h (by simp)

variable (hlow : 4 ≤ sectors.toNat) (hhigh : sectors.toNat < 64)

include hlow hhigh

/-- The loop fills segment after segment, as long as `syssize` asks for more. -/
theorem reaches_loaded (j : ℕ) (hj : j < 15) (hsys : 0x1000 * j ≤ syssize.toNat)
    (h : Loaded sectors disk m 0 s) :
    ∃ s', Reaches (rpRead sectors syssize disk) s s' ∧
      Loaded sectors disk m (128 * (j + 1)) s' := by
  refine reaches_of_progress (fun n s hn hlt => ?_) (Nat.zero_le _) h
  obtain ⟨c, s', hs', hc, hsegment, hloaded⟩ :=
    loaded_rpRead syssize hlow hhigh (by omega) hn (by omega)
  exact ⟨n + c, s', hs', by omega, by omega, hloaded⟩

/-- **A run of the loop** ends when it has filled the segment that `syssize` lies
in. -/
theorem eval_rpRead (hsys : syssize.toNat < 0xf000) (h : Loaded sectors disk m 0 s) :
    ∃ s', s' ∈ eval (rpRead sectors syssize disk) s ∧
      Loaded sectors disk m (128 * (syssize.toNat / 0x1000 + 1)) s' := by
  have hasks : 0x1000 * (syssize.toNat / 0x1000) ≤ syssize.toNat := Nat.mul_div_le _ _
  obtain ⟨s', hreach, hloaded⟩ := reaches_loaded hlow hhigh _ (by omega) hasks h
  exact ⟨s', mem_eval.mpr ⟨hreach, rpRead_eq_none (by omega) hloaded (by omega)⟩, hloaded⟩

/-- A run for more than eight segments stores over the loader. -/
theorem exists_stop_gt (hsys : 0x8000 ≤ syssize.toNat) (h : Loaded sectors disk m 0 s)
    {s' : Loader} (hs' : s' ∈ eval (rpRead sectors syssize disk) s) :
    ∃ r ∈ s'.reads, 0x90000 < r.stop := by
  have hasks : 0x1000 * 7 ≤ syssize.toNat := by omega
  obtain ⟨t, hreach, ht⟩ := reaches_loaded hlow hhigh 7 (by omega) hasks h
  obtain ⟨c, t', hstep, hc, -, ht'⟩ :=
    loaded_rpRead syssize hlow hhigh (by omega) ht (by omega)
  -- sector 1025 is the first of the ninth segment
  obtain ⟨r, hr, -, hlast⟩ := ht'.exists_read (k := 1025) (by omega) (by omega)
  have hend : s' ∈ eval (rpRead sectors syssize disk) t' :=
    (mem_eval_of_reaches (hreach.tail hstep)).mp hs'
  refine ⟨r, of_mem_eval (P := fun s => r ∈ s.reads) (fun _ _ hin hnext =>
    reads_rpRead hnext hin) hr hend, ?_⟩
  rw [(ht'.reads r hr).stop_eq]
  have hfirst := (ht'.reads r hr).first
  omega

end Loading

/-- A run for sixteen segments never ends, because the segment register is back at
its start before it has passed the last one. -/
theorem notMem_eval_rpRead {sectors syssize : Word} {disk : ℕ → Byte} {s : Loader}
    (hsys : 0xf000 ≤ syssize.toNat) (hes : s.es.toNat % 0x1000 = 0) (s' : Loader) :
    s' ∉ eval (rpRead sectors syssize disk) s := by
  intro hs'
  have haligned : s'.es.toNat % 0x1000 = 0 := by
    refine of_mem_eval (P := fun s => s.es.toNat % 0x1000 = 0) (fun s t hs hstep => ?_) hes hs'
    unfold rpRead at hstep
    split at hstep
    · rw [← Option.some.inj hstep]
      simp only [okRead, nextBuffer]
      split
      · bv_omega
      · exact hs
    · exact absurd hstep (by simp)
  have hend : rpRead sectors syssize disk s' = none := (mem_eval.mp hs').2
  unfold rpRead at hend
  rw [if_pos (by unfold sysSeg; bv_omega)] at hend
  exact absurd hend (by simp)

/-! ## The disk's geometry -/

/-- A read is for sectors of one track, under one of the two heads. -/
structure OneTrack (sectors : Word) (r : DiskRead) : Prop where
  head : r.head.toNat < 2
  first : 1 ≤ r.sector.toNat
  last : r.sector.toNat + r.count.toNat ≤ sectors.toNat + 1

/-- The loader is at a sector of its track and at a whole number of sectors in its
segment, and all of its reads have been for sectors of one track. -/
structure OnTrack (sectors : Word) (s : Loader) : Prop where
  sread : s.sread.toNat < sectors.toNat
  bx : 512 ∣ s.bx.toNat
  reads : ∀ r ∈ s.reads, OneTrack sectors r

theorem Loaded.onTrack {sectors : Word} {disk : ℕ → Byte} {m : Bytes} {s : Loader}
    (h : Loaded sectors disk m 0 s) (hpos : 0 < sectors.toNat) (hreads : s.reads = []) :
    OnTrack sectors s := by
  constructor
  · rw [h.sread]
    exact Nat.mod_lt _ hpos
  · exact ⟨_, h.bx⟩
  · intro r hr
    rw [hreads] at hr
    exact absurd hr List.not_mem_nil

private theorem nextPlace_sread_lt {sectors : Word} {s : Loader} {ax : Word}
    (hpos : 0 < sectors.toNat) (hax : s.sread.toNat + ax.toNat ≤ sectors.toNat) :
    (nextPlace sectors s ax).1.toNat < sectors.toNat := by
  unfold nextPlace
  split
  · exact hpos
  · next hne =>
      show (ax + s.sread).toNat < sectors.toNat
      bv_omega

private theorem nextBuffer_bx_dvd {s : Loader} (cx : Word) (hbx : 512 ∣ s.bx.toNat) :
    512 ∣ (nextBuffer s cx).2.toNat := by
  unfold nextBuffer
  simp only
  split
  · exact Nat.dvd_zero 512
  · rw [BitVec.toNat_add, BitVec.toNat_shiftLeft, Nat.shiftLeft_eq]
    omega

/-- A read that ends within the track is for sectors of one track. -/
private theorem oneTrack_readTrack {sectors ax : Word} {s : Loader}
    (hhigh : sectors.toNat < 64) (hle : s.sread.toNat + ax.toNat ≤ sectors.toNat) :
    OneTrack sectors (readTrack s ax) := by
  have hsector : (readTrack s ax).sector.toNat = s.sread.toNat + 1 := by
    show ((s.sread + 1).setWidth 8).toNat = _
    bv_omega
  constructor
  · show ((s.head &&& 1#16).setWidth 8).toNat < 2
    rw [BitVec.toNat_setWidth, BitVec.toNat_and]
    have hbit : s.head.toNat &&& (1#16).toNat ≤ 1 := Nat.and_le_right
    omega
  · omega
  · have hcount : (readTrack s ax).count.toNat ≤ ax.toNat := by
      show (ax.setWidth 8).toNat ≤ _
      rw [BitVec.toNat_setWidth]
      exact Nat.mod_le _ _
    omega

/-- **A round reads sectors of one track**, whatever part of it is left. -/
theorem OnTrack.rpRead {sectors syssize : Word} {disk : ℕ → Byte} {s s' : Loader}
    (h : OnTrack sectors s) (hhigh : sectors.toNat < 64)
    (hstep : rpRead sectors syssize disk s = some s') : OnTrack sectors s' := by
  obtain ⟨b, hb⟩ := h.bx
  have hsread := h.sread
  have hcount := readCount_toNat (by omega) hsread hb
  generalize hax : readCount sectors s.sread s.bx = ax at hcount
  have hle : s.sread.toNat + ax.toNat ≤ sectors.toNat := by omega
  unfold Zeos.rpRead at hstep
  rw [hax] at hstep
  split at hstep
  · rw [← Option.some.inj hstep]
    constructor
    · exact nextPlace_sread_lt (by omega) hle
    · exact nextBuffer_bx_dvd ax h.bx
    · intro r hr
      rcases List.mem_append.mp hr with hold | hnew
      · exact h.reads r hold
      · rw [List.mem_singleton.mp hnew]
        exact oneTrack_readTrack hhigh hle
  · exact absurd hstep (by simp)

/-- What loading is for: `n` sectors from the one behind the boot sector on, one after
another and each of them once, are in memory from `0x10000` on, by reads that the BIOS
can do. -/
structure ExactLoad (sectors : Word) (disk : ℕ → Byte) (m : Bytes) (n : ℕ) (s : Loader) :
    Prop where
  nonempty : ∀ r ∈ s.reads, 0 < r.count.toNat
  oneTrack : ∀ r ∈ s.reads, OneTrack sectors r
  oneSegment : ∀ r ∈ s.reads, r.addr.toNat % 0x10000 + 512 * r.count.toNat ≤ 0x10000
  order : s.reads.flatMap (sectorsOf sectors) = List.range' 1 n
  addr : ∀ r ∈ s.reads, r.addr.toNat = 0x10000 + 512 * (r.lba sectors - 1)
  mem : s.mem = m.write 0x10000#32 (512 * n) fun i => disk (512 + i)

/-- **`read_it` is exact** for every number of sectors per track from 4 to 63: it ends,
and then it has loaded whole sectors in order, as many as `syssize` asks for. -/
theorem exactLoad_readIt {sectors syssize : Word} (disk : ℕ → Byte) (m : Bytes)
    (hlow : 4 ≤ sectors.toNat) (hhigh : sectors.toNat ≤ 63) (hsys : syssize.toNat < 0xf000) :
    ∃ s₀ s n, readIt setupSecs sysSeg m = some s₀ ∧
      s ∈ eval (rpRead sectors syssize disk) s₀ ∧ ExactLoad sectors disk m n s ∧
      16 * syssize.toNat ≤ 512 * n := by
  have hlt : sectors.toNat < 64 := by omega
  obtain ⟨s₀, hs₀, hloaded₀⟩ := loaded_readIt (by omega : 2 ≤ sectors.toNat) disk m
  obtain ⟨s, hs, hloaded⟩ := eval_rpRead hlow hlt hsys hloaded₀
  have hnone : s₀.reads = [] := by
    rw [← Option.some.inj hs₀]
  have htracks : OnTrack sectors s := of_mem_eval (P := OnTrack sectors)
    (fun _ _ h hstep => h.rpRead hlt hstep) (hloaded₀.onTrack (by omega) hnone) hs
  refine ⟨s₀, s, 128 * (syssize.toNat / 0x1000 + 1), hs₀, hs, ?_, by omega⟩
  constructor
  · intro r hr
    exact (hloaded.reads r hr).pos
  · exact htracks.reads
  · intro r hr
    exact (hloaded.reads r hr).inSegment
  · exact hloaded.order
  · intro r hr
    exact (hloaded.reads r hr).addr
  · exact hloaded.mem

/-- A disk of nine sectors a track, and an image of 32 KB and a little more. -/
theorem exactLoad_readIt_nine : ∃ s₀ s n, readIt setupSecs sysSeg (fun _ => 0) = some s₀ ∧
    s ∈ eval (rpRead 9 0x801 fun i => BitVec.ofNat 8 i) s₀ ∧
    ExactLoad 9 (fun i => BitVec.ofNat 8 i) (fun _ => 0) n s ∧ 16 * 0x801 ≤ 512 * n :=
  exactLoad_readIt (fun i => BitVec.ofNat 8 i) (fun _ => 0) (by decide) (by decide) (by decide)

/-! ## Booting -/

/-- `read_it` ends, it has read so many bytes behind the boot sector, and no read
has stored over the loader. -/
def Boots (syssize : Word) (disk : ℕ → Byte) (m : Bytes) (size : ℕ) : Prop :=
  ∃ s₀ s, readIt setupSecs sysSeg m = some s₀ ∧ s ∈ eval (rpRead secPista syssize disk) s₀ ∧
    (∀ k < size, ∃ r ∈ s.reads, r.Covers secPista (512 + k)) ∧
    ∀ r ∈ s.reads, r.stop ≤ 16 * initSeg.toNat

/-- What can be booted, by `syssize`: the segments up to the one it lies in must be
below the loader and hold the image. -/
theorem boots_iff (syssize : Word) (disk : ℕ → Byte) (m : Bytes) (size : ℕ) :
    Boots syssize disk m size ↔
      syssize.toNat < 0x8000 ∧ size ≤ 0x10000 * (syssize.toNat / 0x1000 + 1) := by
  have hlow : 4 ≤ secPista.toNat := by decide
  have hhigh : secPista.toNat < 64 := by decide
  have hinit : 16 * initSeg.toNat = 0x90000 := rfl
  obtain ⟨s₀, hs₀, hloaded₀⟩ :=
    loaded_readIt (by decide : 2 ≤ secPista.toNat) disk m
  constructor
  · rintro ⟨s₁, s, hs₁, hs, hcovers, hstop⟩
    obtain rfl : s₁ = s₀ := Option.some.inj (hs₁.symm.trans hs₀)
    have hlt : syssize.toNat < 0x8000 := by
      by_contra hge
      obtain ⟨r, hr, hgt⟩ := exists_stop_gt hlow hhigh (Nat.le_of_not_lt hge) hloaded₀ hs
      have := hstop r hr
      omega
    refine ⟨hlt, ?_⟩
    have hends : syssize.toNat < 0xf000 := by omega
    obtain ⟨s', hs', hloaded⟩ := eval_rpRead hlow hhigh hends hloaded₀
    obtain rfl : s = s' := Part.mem_unique hs hs'
    -- the last byte is covered, so it is in one of the sectors loaded
    rcases Nat.eq_zero_or_pos size with rfl | hpos
    · omega
    · obtain ⟨r, hr, hcov⟩ := hcovers (size - 1) (by omega)
      have := hloaded.lt_of_covers hr hcov
      omega
  · rintro ⟨hlt, hsize⟩
    have hends : syssize.toNat < 0xf000 := by omega
    obtain ⟨s, hs, hloaded⟩ := eval_rpRead hlow hhigh hends hloaded₀
    refine ⟨s₀, s, hs₀, hs, fun k hk => hloaded.covers (by omega), fun r hr => ?_⟩
    have hsegments : 128 * (syssize.toNat / 0x1000 + 1) ≤ 1024 := by omega
    calc r.stop ≤ 0x10000 + 512 * (128 * (syssize.toNat / 0x1000 + 1)) := hloaded.stop_le hr
      _ ≤ 0x10000 + 512 * 1024 := Nat.add_le_add_left (Nat.mul_le_mul_left _ hsegments) _
      _ = 16 * initSeg.toNat := rfl

end Zeos
