import Zeos.Machine.CString

/-!
# The text console (`io.c`, `devices.c`)

The console is a cursor of two bytes and the cells of the text screen.  Its state
also records what leaves `printc`: the bytes sent to port `0xe9`, one for each
call and in order, and the indices of the cells stored to.

A call looks at the cursor and at no cell (`SameBut.printc`), and a cursor on the
screen stays there (`InScreen.printc`).

`screen` is a map of all cells, so that a store outside of the screen would be seen, and
the coordinates are bytes that wrap as those of the source.  The result of the module,
`placesText`, is about a text of any length from any cursor on the screen: where each
character ends up is said by its position in the text with the line breaks in it, modulo
the cells of the screen, and the last one to come to a cell is the one that stays.  That
the cursor is on the screen is a hypothesis there and an invariant of every run
(`Zeos.Keyboard`).
-/

namespace Zeos

open Machine

/-- `NUM_COLUMNS`. -/
def numColumns : ℕ := 80

/-- `NUM_ROWS`. -/
def numRows : ℕ := 25

/-- The console. -/
structure Console where
  x : Byte
  y : Byte
  screen : ℕ → Word
  port : List Byte
  stores : List ℕ

/-- `'\n'`. -/
def newline : Byte := 10

/-- `(y + 1) % NUM_ROWS`. -/
def nextRow (y : Byte) : Byte := BitVec.ofNat 8 ((y.toNat + 1) % numRows)

/-- Print one character and move the cursor. -/
def printc (con : Console) (c : Byte) : Console :=
  let con := { con with port := con.port ++ [c] }
  if c = newline then
    { con with x := 0, y := nextRow con.y }
  else
    let ch : Word := c.setWidth 16 ||| 0x0200
    let cell := con.y.toNat * numColumns + con.x.toNat
    let con :=
      { con with
        screen := Function.update con.screen cell ch
        stores := cell :: con.stores
        x := con.x + 1 }
    if numColumns ≤ con.x.toNat then
      { con with x := 0, y := nextRow con.y }
    else con

/-- Every call sends its character to the port. -/
theorem printc_port (con : Console) (c : Byte) :
    (printc con c).port = con.port ++ [c] := by
  unfold printc
  dsimp only
  split
  · rfl
  · split <;> rfl

/-- A sequence of calls sends its characters in order. -/
theorem foldl_printc_port (con : Console) (cs : List Byte) :
    (cs.foldl printc con).port = con.port ++ cs := by
  induction cs generalizing con with
  | nil => simp
  | cons c cs ih => rw [List.foldl_cons, ih, printc_port, List.append_assoc]; rfl

/-- Print a character at a place of the screen: the cursor is moved there and back. -/
def printcXy (con : Console) (mx my : Byte) (c : Byte) : Console :=
  let cx := con.x
  let cy := con.y
  let con := printc { con with x := mx, y := my } c
  { con with x := cx, y := cy }

/-- Print a string, the bytes up to its terminating zero. -/
def printk (con : Console) : List Byte → Console
  | [] => con
  | c :: string => if c = 0 then con else printk (printc con c) string

/-- Of a string without a zero byte every character is printed. -/
theorem printk_eq_foldl (con : Console) {string : List Byte} (h : 0 ∉ string) :
    printk con string = string.foldl printc con := by
  induction string generalizing con with
  | nil => rfl
  | cons c string ih =>
      rw [List.mem_cons, not_or] at h
      rw [printk, if_neg (Ne.symm h.1), ih _ h.2, List.foldl_cons]

/-- What is kept by each character is kept by a string. -/
theorem of_printk {P : Console → Prop} (h : ∀ con c, P con → P (printc con c))
    {con : Console} (hcon : P con) (string : List Byte) : P (printk con string) := by
  induction string generalizing con with
  | nil => exact hcon
  | cons c string ih =>
      rw [printk]
      split
      · exact hcon
      · exact ih (h con c hcon)

/-! ## What a call looks at -/

/-- Two consoles with the same cursor and the same screen but for one cell. -/
structure SameBut (cell : ℕ) (con con' : Console) : Prop where
  x : con.x = con'.x
  y : con.y = con'.y
  screen : ∀ k, k ≠ cell → con.screen k = con'.screen k

theorem SameBut.refl (cell : ℕ) (con : Console) : SameBut cell con con :=
  ⟨rfl, rfl, fun _ _ => rfl⟩

theorem SameBut.trans {cell : ℕ} {con con' con'' : Console} (h : SameBut cell con con')
    (h' : SameBut cell con' con'') : SameBut cell con con'' :=
  ⟨h.x.trans h'.x, h.y.trans h'.y, fun k hk => (h.screen k hk).trans (h'.screen k hk)⟩

/-- Printing on both keeps them so, wherever the cursor is. -/
theorem SameBut.printc {cell : ℕ} {con con' : Console} (h : SameBut cell con con') (c : Byte) :
    SameBut cell (printc con c) (printc con' c) := by
  obtain ⟨hx, hy, hscreen⟩ := h
  unfold Zeos.printc
  dsimp only
  rw [hx, hy]
  have hstore : ∀ (place : ℕ) (ch : Word) (k : ℕ), k ≠ cell →
      Function.update con.screen place ch k = Function.update con'.screen place ch k := by
    intro place ch k hk
    by_cases hplace : k = place
    · rw [hplace, Function.update_self, Function.update_self]
    · rw [Function.update_of_ne hplace, Function.update_of_ne hplace, hscreen k hk]
  split
  · exact ⟨rfl, rfl, hscreen⟩
  · split
    · exact ⟨rfl, rfl, hstore _ _⟩
    · exact ⟨rfl, rfl, hstore _ _⟩

theorem SameBut.printk {cell : ℕ} {con con' : Console} (h : SameBut cell con con')
    (string : List Byte) : SameBut cell (printk con string) (printk con' string) := by
  induction string generalizing con con' with
  | nil => exact h
  | cons c string ih =>
      rw [Zeos.printk, Zeos.printk]
      split
      · exact h
      · exact ih (h.printc c)

/-- A call stores to the cell at the cursor or to none. -/
theorem printc_screen_of_ne (con : Console) (c : Byte) {k : ℕ}
    (hk : k ≠ con.y.toNat * numColumns + con.x.toNat) :
    (printc con c).screen k = con.screen k := by
  unfold printc
  dsimp only
  split
  · rfl
  · split <;> exact Function.update_of_ne hk _ _

/-- `printc_xy` leaves no trace but in its cell. -/
theorem sameBut_printcXy (con : Console) (mx my c : Byte) :
    SameBut (my.toNat * numColumns + mx.toNat) (printcXy con mx my c) con :=
  ⟨rfl, rfl, fun _ hk => printc_screen_of_ne { con with x := mx, y := my } c hk⟩

/-! ## The bounds of the screen -/

/-- The cursor is on the screen, and so was everything stored. -/
structure InScreen (con : Console) : Prop where
  x : con.x.toNat < numColumns
  y : con.y.toNat < numRows
  stores : ∀ cell ∈ con.stores, cell < numColumns * numRows

private theorem nextRow_lt (y : Byte) : (nextRow y).toNat < numRows := by
  have hmod : (y.toNat + 1) % numRows < numRows := Nat.mod_lt _ (by decide)
  rw [nextRow, BitVec.toNat_ofNat]
  exact (Nat.mod_le _ _).trans_lt hmod

theorem InScreen.printc {con : Console} (h : InScreen con) (c : Byte) :
    InScreen (printc con c) := by
  obtain ⟨hx, hy, hstores⟩ := h
  have hcell : con.y.toNat * numColumns + con.x.toNat < numColumns * numRows := by
    simp only [numColumns, numRows] at hx hy ⊢
    omega
  have hafter : ∀ cell ∈ (con.y.toNat * numColumns + con.x.toNat) :: con.stores,
      cell < numColumns * numRows := List.forall_mem_cons.mpr ⟨hcell, hstores⟩
  have hzero : (0 : Byte).toNat < numColumns := by decide
  unfold Zeos.printc
  dsimp only
  split
  · exact ⟨hzero, nextRow_lt _, hstores⟩
  · split
    · exact ⟨hzero, nextRow_lt _, hafter⟩
    · next hcolumn => exact ⟨not_le.mp hcolumn, hy, hafter⟩

/-- The cursor is put back where it was. -/
theorem InScreen.printcXy {con : Console} (h : InScreen con) {mx my : Byte}
    (hmx : mx.toNat < numColumns) (hmy : my.toNat < numRows) (c : Byte) :
    InScreen (printcXy con mx my c) := by
  have hmoved : InScreen { con with x := mx, y := my } := ⟨hmx, hmy, h.stores⟩
  exact ⟨h.x, h.y, (hmoved.printc c).stores⟩

/-! ## Buffers -/

/-- Print the `size` characters of a buffer; returns `size`. -/
def sysWriteConsole (m : Bytes) (con : Console) (buffer : Addr) (size : ℤ) :
    Console × ℤ :=
  ((List.range size.toNat).foldl
    (fun con i => printc con (m (buffer + BitVec.ofNat 32 i))) con, size)

theorem sysWriteConsole_eq (m : Bytes) (con : Console) (buffer : Addr) (n : ℕ) :
    sysWriteConsole m con buffer n = ((m.block buffer n).foldl printc con, (n : ℤ)) := by
  rw [sysWriteConsole, Bytes.block, List.foldl_map, Int.toNat_natCast]

/-- `printk` of a string in memory. -/
def printkFrom (m : Bytes) (con : Console) (string : Addr) : Part Console :=
  (scan m string printc con).map Prod.snd

theorem printkFrom_eq {m : Bytes} {a : Addr} {cs : List Byte} (h : m.IsString a cs)
    (con : Console) : printkFrom m con a = Part.some (cs.foldl printc con) := by
  rw [printkFrom, h.scan_eq, Part.map_some]

/-! ## Where characters are placed -/

/-- The number of the cell at the cursor, row by row. -/
def position (con : Console) : ℕ := con.y.toNat * numColumns + con.x.toNat

/-- The cells of the screen. -/
def numCells : ℕ := numColumns * numRows

/-- Text without newlines has been printed: the cursor has moved by its length, modulo
the screen, and each cell on the way holds the last character that was sent there, in
the attribute 2. -/
structure Placed (con : Console) (text : List Byte) (con' : Console) : Prop where
  x : con'.x.toNat < numColumns
  y : con'.y.toNat < numRows
  cursor : position con' = (position con + text.length) % numCells
  cells : ∀ i (hi : i < text.length),
    (∀ j, i < j → j < text.length →
      (position con + j) % numCells ≠ (position con + i) % numCells) →
    (con'.screen ((position con + i) % numCells)).toNat = 0x200 + text[i].toNat
  others : ∀ k, (∀ i < text.length, k ≠ (position con + i) % numCells) →
    con'.screen k = con.screen k

theorem position_lt {con : Console} (hx : con.x.toNat < numColumns)
    (hy : con.y.toNat < numRows) : position con < numCells := by
  simp only [position, numCells, numColumns, numRows] at *
  omega

theorem nextRow_toNat (y : Byte) : (nextRow y).toNat = (y.toNat + 1) % numRows := by
  rw [nextRow, BitVec.toNat_ofNat, numRows]
  omega

/-- The word that is stored for a character. -/
theorem toNat_attribute (c : Byte) : (c.setWidth 16 ||| 0x0200#16).toNat = 0x200 + c.toNat := by
  have hor : 2 ^ 8 * 2 + c.toNat = 2 ^ 8 * 2 ||| c.toNat := Nat.two_pow_add_eq_or_of_lt c.isLt 2
  have hword : (c.setWidth 16).toNat = c.toNat := by
    rw [BitVec.toNat_setWidth]
    omega
  rw [BitVec.toNat_or, hword, Nat.or_comm]
  exact hor.symm

/-- What a character that is no newline does: it goes to the cell at the cursor, and the
cursor moves on by one cell, which is the first one behind the last. -/
theorem printc_of_ne {con : Console} {c : Byte} (hx : con.x.toNat < numColumns)
    (hy : con.y.toNat < numRows) (hc : c ≠ newline) :
    (printc con c).x.toNat < numColumns ∧ (printc con c).y.toNat < numRows ∧
      position (printc con c) = (position con + 1) % numCells ∧
      (printc con c).screen =
        Function.update con.screen (position con) (c.setWidth 16 ||| 0x0200) := by
  have hrow := nextRow_toNat con.y
  have hnext : (con.x + 1).toNat = con.x.toNat + 1 := by
    simp only [numColumns] at hx
    bv_omega
  simp only [numColumns, numRows] at hx hy hrow
  unfold printc
  dsimp only
  rw [if_neg hc]
  -- at the end of a row the cursor goes to the next one
  split
  · next hend =>
    rw [hnext, numColumns] at hend
    refine ⟨Nat.zero_lt_succ 79, ?_, ?_, rfl⟩
    · show (nextRow con.y).toNat < numRows
      rw [hrow, numRows]
      omega
    · show (nextRow con.y).toNat * numColumns + 0 = _
      rw [hrow]
      simp only [position, numCells, numColumns, numRows]
      omega
  · next hend =>
    rw [hnext, numColumns] at hend
    refine ⟨?_, hy, ?_, rfl⟩
    · show (con.x + 1).toNat < numColumns
      rw [hnext, numColumns]
      omega
    · show con.y.toNat * numColumns + (con.x + 1).toNat = _
      rw [hnext]
      simp only [position, numCells, numColumns, numRows]
      omega

theorem placed_nil {con : Console} (hx : con.x.toNat < numColumns)
    (hy : con.y.toNat < numRows) : Placed con [] con where
  x := hx
  y := hy
  cursor := by
    rw [List.length_nil, Nat.add_zero, Nat.mod_eq_of_lt (position_lt hx hy)]
  cells i hi := absurd hi (Nat.not_lt_zero i)
  others _ _ := rfl

theorem placed_singleton {con : Console} {c : Byte} (hx : con.x.toNat < numColumns)
    (hy : con.y.toNat < numRows) (hc : c ≠ newline) : Placed con [c] (printc con c) := by
  obtain ⟨hx', hy', hposition, hscreen⟩ := printc_of_ne hx hy hc
  have hfirst : (position con + 0) % numCells = position con := by
    rw [Nat.add_zero, Nat.mod_eq_of_lt (position_lt hx hy)]
  refine ⟨hx', hy', ?_, fun i hi _ => ?_, fun k hk => ?_⟩
  · rw [List.length_singleton, hposition]
  · rw [List.length_singleton] at hi
    obtain rfl : i = 0 := Nat.lt_one_iff.mp hi
    rw [hfirst, hscreen, Function.update_self, List.getElem_singleton]
    exact toNat_attribute c
  · have hne := hk 0 (by rw [List.length_singleton]; exact Nat.one_pos)
    rw [hfirst] at hne
    rw [hscreen, Function.update_of_ne hne]

/-- **Text behind text.**  A cell that both reach holds what the second one has sent
there. -/
theorem Placed.append {con con' con'' : Console} {text text' : List Byte}
    (h : Placed con text con') (h' : Placed con' text' con'') :
    Placed con (text ++ text') con'' := by
  have hshift : ∀ j, (position con' + j) % numCells =
      (position con + (text.length + j)) % numCells := by
    intro j
    rw [h.cursor, Nat.mod_add_mod, Nat.add_assoc]
  refine ⟨h'.x, h'.y, ?_, fun i hi hlast => ?_, fun k hk => ?_⟩
  · rw [h'.cursor, hshift, List.length_append]
  · rw [List.length_append] at hi hlast
    -- a cell of the first text stays unless the second comes to it
    rcases Nat.lt_or_ge i text.length with hfirst | hsecond
    · rw [List.getElem_append_left hfirst, h'.others _ fun j hj => ?_]
      · exact h.cells i hfirst fun j hij hj => hlast j hij (by omega)
      · rw [hshift]
        exact (hlast (text.length + j) (by omega) (by omega)).symm
    · obtain ⟨k, rfl⟩ := Nat.exists_eq_add_of_le hsecond
      have hcell := h'.cells k (by omega) fun j hkj hj => by
        rw [hshift, hshift]
        exact hlast (text.length + j) (by omega) (by omega)
      rw [hshift] at hcell
      rw [hcell, List.getElem_append_right hsecond]
      simp only [Nat.add_sub_cancel_left]
  · rw [List.length_append] at hk
    rw [h'.others k fun j hj => ?_, h.others k fun i hi => hk i (by omega)]
    rw [hshift]
    exact hk (text.length + j) (by omega)

/-- **Text without newlines is placed** from the cursor on. -/
theorem placed_foldl {con : Console} {text : List Byte} (hx : con.x.toNat < numColumns)
    (hy : con.y.toNat < numRows) (hnewline : newline ∉ text) :
    Placed con text (text.foldl printc con) := by
  induction text generalizing con with
  | nil => exact placed_nil hx hy
  | cons c text ih =>
      rw [List.mem_cons, not_or] at hnewline
      obtain ⟨hc, htext⟩ := hnewline
      have hfirst := placed_singleton hx hy (Ne.symm hc)
      exact hfirst.append (ih hfirst.x hfirst.y htext)

/-! ## Lines -/

/-- Print pieces of text with a newline between each two. -/
def printPieces (con : Console) : List (List Byte) → Console
  | [] => con
  | piece :: pieces =>
      pieces.foldl (fun con piece => piece.foldl printc (printc con newline))
        (piece.foldl printc con)

/-- Text is printed piece by piece. -/
theorem foldl_printc_eq_printPieces (con : Console) (text : List Byte) :
    text.foldl printc con = printPieces con (text.splitOn newline) := by
  induction text generalizing con with
  | nil => rfl
  | cons c text ih =>
      rw [List.foldl_cons, ih, List.splitOn_cons_eq_if_modifyHead]
      obtain ⟨piece, pieces, hpieces⟩ :=
        List.exists_cons_of_ne_nil (List.splitOn_ne_nil newline text)
      rw [hpieces]
      split
      · next hc =>
          rw [eq_of_beq hc]
          rfl
      · rfl

/-- The pieces have no newlines. -/
theorem newline_notMem_of_mem_splitOn {text piece : List Byte}
    (h : piece ∈ text.splitOn newline) : newline ∉ piece := by
  induction text generalizing piece with
  | nil =>
      rw [List.splitOn_nil, List.mem_singleton] at h
      rw [h]
      exact List.not_mem_nil
  | cons c text ih =>
      rw [List.splitOn_cons_eq_if_modifyHead] at h
      split at h
      · rcases List.mem_cons.mp h with rfl | hrest
        · exact List.not_mem_nil
        · exact ih hrest
      · next hc =>
          obtain ⟨first, rest, hpieces⟩ :=
            List.exists_cons_of_ne_nil (List.splitOn_ne_nil newline text)
          rw [hpieces] at h ih
          rcases List.mem_cons.mp h with rfl | hrest
          · rw [List.mem_cons, not_or]
            exact ⟨fun heq => hc (by rw [heq]; exact BEq.refl _), ih List.mem_cons_self⟩
          · exact ih (List.mem_cons_of_mem first hrest)

/-- What `sys_write_console` and `printk` do from a cursor: they place text without
newlines, a newline moves to the next row and stores nothing, and any other text is
printed as its pieces with newlines between them. -/
structure PlacesText (con : Console) : Prop where
  sysWriteConsole : ∀ (m : Bytes) (buffer : Addr) (n : ℕ), newline ∉ m.block buffer n →
    Placed con (m.block buffer n) (sysWriteConsole m con buffer n).1
  printk : ∀ (m : Bytes) (string : Addr) (text : List Byte), m.IsString string text →
    newline ∉ text → ∃ con', con' ∈ printkFrom m con string ∧ Placed con text con'
  newline : (printc con newline).x = 0 ∧
    (printc con newline).y.toNat = (con.y.toNat + 1) % numRows ∧
    (printc con newline).screen = con.screen ∧ (printc con newline).stores = con.stores
  sysWriteConsole_pieces : ∀ (m : Bytes) (buffer : Addr) (n : ℕ),
    (Zeos.sysWriteConsole m con buffer n).1 =
      printPieces con ((m.block buffer n).splitOn Zeos.newline)
  printk_pieces : ∀ (m : Bytes) (string : Addr) (text : List Byte), m.IsString string text →
    printPieces con (text.splitOn Zeos.newline) ∈ printkFrom m con string
  pieces : ∀ (text : List Byte), ∀ piece ∈ text.splitOn Zeos.newline, Zeos.newline ∉ piece

/-- **Console placement**, for every cursor on the screen. -/
theorem placesText {con : Console} (hx : con.x.toNat < numColumns)
    (hy : con.y.toNat < numRows) : PlacesText con where
  sysWriteConsole m buffer n hnewline := by
    rw [sysWriteConsole_eq]
    exact placed_foldl hx hy hnewline
  printk m string text htext hnewline := by
    rw [printkFrom_eq htext]
    exact ⟨_, Part.mem_some _, placed_foldl hx hy hnewline⟩
  newline := ⟨rfl, nextRow_toNat con.y, rfl, rfl⟩
  sysWriteConsole_pieces m buffer n := by
    rw [sysWriteConsole_eq, foldl_printc_eq_printPieces]
  printk_pieces m string text htext := by
    rw [printkFrom_eq htext, foldl_printc_eq_printPieces]
    exact Part.mem_some _
  pieces _ _ hpiece := newline_notMem_of_mem_splitOn hpiece

/-- The last cell of the screen. -/
theorem placesText_last : PlacesText ⟨79, 24, fun _ => 0, [], []⟩ :=
  placesText (by decide) (by decide)

end Zeos
