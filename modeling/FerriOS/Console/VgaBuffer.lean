import Mathlib

/-! # The VGA text buffer

A writer that fills the last row of 80 characters and moves all rows up for a new one. The
screen is the end of the text, wrapped at the width.
-/

namespace FerriOS.Vga

inductive Color where
  | black
  | blue
  | green
  | cyan
  | red
  | magenta
  | brown
  | lightGray
  | darkGray
  | lightBlue
  | lightGreen
  | lightCyan
  | lightRed
  | pink
  | yellow
  | white

/-- `as u8`. -/
def Color.toByte (c : Color) : UInt8 := UInt8.ofNat c.ctorIdx

abbrev ColorCode := UInt8

def ColorCode.new (foreground background : Color) : ColorCode :=
  background.toByte <<< 4 ||| foreground.toByte

structure ScreenChar where
  asciiCharacter : UInt8
  colorCode : ColorCode

def BUFFER_HEIGHT : Nat := 25
def BUFFER_WIDTH : Nat := 80

structure Writer where
  columnPosition : Nat
  colorCode : ColorCode
  chars : Nat → Nat → ScreenChar

namespace Writer

/-- `chars[row][col].read()`; `none` is a panic, here and below. -/
def read (w : Writer) (row col : Nat) : Option ScreenChar :=
  if row < BUFFER_HEIGHT ∧ col < BUFFER_WIDTH then some (w.chars row col) else none

def write (w : Writer) (row col : Nat) (x : ScreenChar) : Option Writer :=
  if row < BUFFER_HEIGHT ∧ col < BUFFER_WIDTH then
    some { w with chars := fun r c => if r = row ∧ c = col then x else w.chars r c }
  else none

/-- The inner loop of `new_line`. -/
def moveRow (row : Nat) : List Nat → Writer → Option Writer
  | [], w => some w
  | col :: cols, w => do
      let character ← w.read row col
      let w ← w.write (row - 1) col character
      moveRow row cols w

def moveRows : List Nat → Writer → Option Writer
  | [], w => some w
  | row :: rows, w => do
      let w ← moveRow row (List.range BUFFER_WIDTH) w
      moveRows rows w

/-- The loop of `clear_row`. -/
def fillRow (row : Nat) (blank : ScreenChar) : List Nat → Writer → Option Writer
  | [], w => some w
  | col :: cols, w => do
      let w ← w.write row col blank
      fillRow row blank cols w

def clearRow (w : Writer) (row : Nat) : Option Writer :=
  fillRow row ⟨0x20, w.colorCode⟩ (List.range BUFFER_WIDTH) w

def newLine (w : Writer) : Option Writer := do
  let w ← moveRows (List.range' 1 (BUFFER_HEIGHT - 1)) w
  let w ← w.clearRow (BUFFER_HEIGHT - 1)
  some { w with columnPosition := 0 }

/-- `write_byte` of a byte that is no newline and no tab. -/
def writeChar (w : Writer) (byte : UInt8) : Option Writer := do
  let w ← if BUFFER_WIDTH ≤ w.columnPosition then w.newLine else some w
  let w ← w.write (BUFFER_HEIGHT - 1) w.columnPosition ⟨byte, w.colorCode⟩
  some { w with columnPosition := w.columnPosition + 1 }

def writeChars : List UInt8 → Writer → Option Writer
  | [], w => some w
  | byte :: bytes, w => do
      let w ← w.writeChar byte
      writeChars bytes w

def writeByte (w : Writer) (byte : UInt8) : Option Writer :=
  if byte = 0x0A then w.newLine
  else if byte = 0x09 then writeChars (List.replicate 4 0x20) w
  else w.writeChar byte

/-- What `write_string` makes of a byte. -/
def printable (byte : UInt8) : UInt8 :=
  if (0x20 ≤ byte ∧ byte ≤ 0x7E) ∨ byte = 0x0A ∨ byte = 0x09 then byte else 0xFE

def writeString : List UInt8 → Writer → Option Writer
  | [], w => some w
  | byte :: bytes, w => do
      let w ← w.writeByte (printable byte)
      writeString bytes w

/-- `WRITER`, over what the boot left on the screen. -/
def initial (chars : Nat → Nat → ScreenChar) : Writer := ⟨0, .new .yellow .black, chars⟩

end Writer

/-! ## The text -/

/-- The lines that are complete, and the last one. -/
abbrev Text := List (List UInt8) × List UInt8

namespace Text

def newLine (text : Text) : Text := (text.1 ++ [text.2], [])

def put (text : Text) (byte : UInt8) : Text :=
  if BUFFER_WIDTH ≤ text.2.length then (text.1 ++ [text.2], [byte]) else (text.1, text.2 ++ [byte])

/-- A tab is four spaces, and what cannot be printed is a block. -/
def next (text : Text) (byte : UInt8) : Text :=
  if byte = 0x0A then text.newLine
  else if byte = 0x09 then (List.replicate 4 0x20).foldl put text
  else if 0x20 ≤ byte ∧ byte ≤ 0x7E then text.put byte
  else text.put 0xFE

end Text

/-- A row with this text, over what was there. -/
def rowCell (color : ColorCode) (text : List UInt8) (under : Nat → ScreenChar) (col : Nat) :
    ScreenChar :=
  text[col]?.elim (under col) fun byte => ⟨byte, color⟩

/-- The rows of the boot have moved up by one for each line. The first line was written over
    the last of them, and the others over blanks. -/
def cell (old : Nat → Nat → ScreenChar) (color : ColorCode) (text : Text) (row col : Nat) :
    ScreenChar :=
  if row + text.1.length < 24 then old (row + text.1.length) col
  else rowCell color ((text.1 ++ [text.2]).getD (row + text.1.length - 24) [])
    (if row + text.1.length = 24 then old 24 else fun _ => ⟨0x20, color⟩) col

structure Shows (old : Nat → Nat → ScreenChar) (color : ColorCode) (w : Writer) (text : Text) :
    Prop where
  column : w.columnPosition = text.2.length
  margin : text.2.length ≤ BUFFER_WIDTH
  colorCode : w.colorCode = color
  chars : ∀ row < BUFFER_HEIGHT, ∀ col < BUFFER_WIDTH, w.chars row col = cell old color text row col

variable {w w' : Writer} {old : Nat → Nat → ScreenChar} {color : ColorCode} {text : Text}
  {row col n k : Nat}
  {byte : UInt8}

/-! ## Rows -/

theorem moveRow_run {cols : List Nat} (inside : row + 1 < BUFFER_HEIGHT)
    (columns : ∀ c ∈ cols, c < BUFFER_WIDTH) :
    Writer.moveRow (row + 1) cols w = some
      { w with chars := fun r c =>
        if r = row ∧ c ∈ cols then w.chars (row + 1) c else w.chars r c } := by
  induction cols generalizing w with
  | nil => simp [Writer.moveRow]
  | cons col cols ih =>
      have fits : col < BUFFER_WIDTH := columns col List.mem_cons_self
      unfold Writer.moveRow
      rw [Writer.read, if_pos ⟨inside, fits⟩, Option.bind_eq_bind, Option.bind_some, Writer.write,
        Nat.add_sub_cancel, if_pos ⟨by omega, fits⟩, Option.bind_eq_bind, Option.bind_some,
        ih fun c member => columns c (List.mem_cons_of_mem _ member)]
      congr 2
      funext r c
      by_cases here : r = row
      · subst here
        by_cases there : c = col <;> simp [there]
      · simp [here]

/-- The rows from `k` to `k + n` move up by one. -/
theorem moveRows_run (inside : k + n < BUFFER_HEIGHT) : Writer.moveRows (List.range' (k + 1) n) w =
    some
      { w with chars := fun r c =>
        if k ≤ r ∧ r < k + n ∧ c < BUFFER_WIDTH then w.chars (r + 1) c else w.chars r c } := by
  induction n generalizing w k with
  | zero =>
      have same : (fun r c => if k ≤ r ∧ r < k + 0 ∧ c < BUFFER_WIDTH then w.chars (r + 1) c else w.chars r c) = w.chars := by
        funext r c
        exact if_neg (by omega)
      rw [same]
      rfl
  | succ n ih =>
      rw [List.range'_succ, Writer.moveRows, moveRow_run (by omega) fun c member =>
        List.mem_range.mp member,
        Option.bind_eq_bind, Option.bind_some, ih (by omega)]
      congr 2
      funext r c
      simp only [List.mem_range]
      by_cases width : c < BUFFER_WIDTH
      · rcases Nat.lt_trichotomy r k with below | here | above
        · rw [if_neg (by omega), if_neg (by omega), if_neg (by omega)]
        · subst here
          rw [if_neg (by omega), if_pos ⟨rfl, width⟩, if_pos (by omega)]
        · by_cases last : r < k + (n + 1)
          · rw [if_pos (by omega), if_neg (by omega), if_pos (by omega)]
          · rw [if_neg (by omega), if_neg (by omega), if_neg (by omega)]
      · rw [if_neg (by omega), if_neg (by omega), if_neg (by omega)]

theorem fillRow_run {blank : ScreenChar} {cols : List Nat} (inside : row < BUFFER_HEIGHT)
    (columns : ∀ c ∈ cols, c < BUFFER_WIDTH) :
    Writer.fillRow row blank cols w = some
      { w with chars := fun r c => if r = row ∧ c ∈ cols then blank else w.chars r c } := by
  induction cols generalizing w with
  | nil => simp [Writer.fillRow]
  | cons col cols ih =>
      unfold Writer.fillRow
      rw [Writer.write, if_pos ⟨inside, columns col List.mem_cons_self⟩, Option.bind_eq_bind,
        Option.bind_some,
        ih fun c member => columns c (List.mem_cons_of_mem _ member)]
      congr 2
      funext r c
      by_cases here : r = row
      · subst here
        by_cases there : c = col <;> simp [there]
      · simp [here]

theorem newLine_run (w : Writer) : w.newLine = some ⟨0, w.colorCode, fun r c =>
    if c < BUFFER_WIDTH then
      if r < 24 then w.chars (r + 1) c else if r = 24 then ⟨0x20, w.colorCode⟩ else w.chars r c
    else w.chars r c⟩ := by
  have rows : Writer.moveRows (List.range' 1 (BUFFER_HEIGHT - 1)) w = _ :=
    moveRows_run (k := 0) (by decide)
  rw [Writer.newLine, rows, Option.bind_eq_bind, Option.bind_some, Writer.clearRow,
    fillRow_run (by decide) fun c member => List.mem_range.mp member, Option.bind_some]
  refine congrArg (fun chars => some (Writer.mk 0 w.colorCode chars)) ?_
  funext r c
  have height : BUFFER_HEIGHT = 25 := rfl
  simp only [List.mem_range]
  split_ifs <;> first | rfl | (exfalso; omega)

/-! ## The screen follows the text -/

theorem Shows.newLine (shows : Shows old color w text) :
    ∃ w', w.newLine = some w' ∧ Shows old color w' text.newLine := by
  refine ⟨_, newLine_run w, rfl, Nat.zero_le _, shows.colorCode, ?_⟩
  intro row inside col width
  simp only [if_pos width]
  rw [BUFFER_HEIGHT] at inside
  unfold cell Text.newLine
  simp only [List.length_append, List.length_singleton]
  rcases Nat.lt_or_ge row 24 with below | last
  · rw [if_pos below, shows.chars (row + 1) (by rw [BUFFER_HEIGHT]; omega) col width, cell]
    have same : row + 1 + text.1.length = row + (text.1.length + 1) := by omega
    rw [same]
    by_cases boot : row + (text.1.length + 1) < 24
    · rw [if_pos boot, if_pos boot]
    · rw [if_neg boot, if_neg boot,
        List.getD_append (text.1 ++ [text.2]) [[]] [] _
          (by rw [List.length_append, List.length_singleton]; omega)]
  · obtain rfl : row = 24 := by omega
    rw [if_neg (by omega), if_pos rfl, if_neg (by omega), if_neg (by omega),
      List.getD_eq_getElem?_getD,
      List.getElem?_append_right (by rw [List.length_append, List.length_singleton]; omega)]
    simp [rowCell, shows.colorCode]

/-- A character goes behind the text of a row that has room for it. -/
theorem Shows.append (shows : Shows old color w text) (room : text.2.length < BUFFER_WIDTH)
    (byte : UInt8) :
    ∃ w', w.write (BUFFER_HEIGHT - 1) w.columnPosition ⟨byte, w.colorCode⟩ = some w' ∧
      Shows old color { w' with columnPosition := w'.columnPosition + 1 }
        (text.1, text.2 ++ [byte]) := by
  rw [Writer.write, if_pos ⟨by decide, shows.column ▸ room⟩]
  refine ⟨_, rfl, by simp [shows.column], by simpa using room, shows.colorCode, ?_⟩
  intro row inside col width
  have before := shows.chars row inside col width
  rw [BUFFER_HEIGHT] at inside
  simp only [BUFFER_HEIGHT, shows.column, shows.colorCode]
  rcases Nat.lt_or_ge row 24 with above | last
  · rw [if_neg (by omega), before]
    unfold cell
    dsimp only
    by_cases boot : row + text.1.length < 24
    · rw [if_pos boot, if_pos boot]
    · rw [if_neg boot, if_neg boot, List.getD_append _ _ _ _ (by omega),
        List.getD_append _ _ _ _ (by omega)]
  · obtain rfl : row = 24 := by omega
    have bottom : ∀ line : List UInt8, cell old color (text.1, line) 24 col =
        rowCell color line (if 24 + text.1.length = 24 then old 24 else
          fun _ => ⟨0x20, color⟩) col := by
      intro line
      rw [cell, if_neg (by simp only; omega), Nat.add_sub_cancel_left, List.getD_eq_getElem?_getD,
        List.getElem?_concat_length, Option.getD_some]
    rw [before, bottom, bottom, rowCell, rowCell]
    rcases Nat.lt_trichotomy col text.2.length with within | here | beyond
    · rw [if_neg (by omega), List.getElem?_append_left within]
    · rw [if_pos ⟨rfl, here⟩, here, List.getElem?_concat_length]
      rfl
    · rw [if_neg (by omega), List.getElem?_eq_none beyond.le,
        List.getElem?_eq_none (by rw [List.length_append, List.length_singleton]; omega)]

theorem Shows.put (shows : Shows old color w text) (byte : UInt8) :
    ∃ w', w.writeChar byte = some w' ∧ Shows old color w' (text.put byte) := by
  unfold Writer.writeChar Text.put
  rw [shows.column]
  split
  case isTrue full =>
    obtain ⟨w₁, moved, shows₁⟩ := shows.newLine
    obtain ⟨w₂, written, shows₂⟩ :=
      shows₁.append (by decide : ([] : List UInt8).length < BUFFER_WIDTH) byte
    simp only [moved, Option.bind_eq_bind, Option.bind_some, written]
    exact ⟨_, rfl, shows₂⟩
  case isFalse room =>
    obtain ⟨w₂, written, shows₂⟩ := shows.append (not_le.mp room) byte
    simp only [Option.bind_eq_bind, Option.bind_some, written]
    exact ⟨_, rfl, shows₂⟩

theorem Shows.puts (shows : Shows old color w text) (bytes : List UInt8) :
    ∃ w', Writer.writeChars bytes w = some w' ∧ Shows old color w' (bytes.foldl Text.put text) := by
  induction bytes generalizing w text with
  | nil => exact ⟨w, rfl, shows⟩
  | cons byte bytes ih =>
      obtain ⟨w₁, written, shows₁⟩ := shows.put byte
      obtain ⟨w₂, rest, shows₂⟩ := ih shows₁
      exact ⟨w₂, by rw [Writer.writeChars, written, Option.bind_eq_bind, Option.bind_some, rest],
        shows₂⟩

theorem Shows.next (shows : Shows old color w text) (byte : UInt8) :
    ∃ w', w.writeByte (Writer.printable byte) = some w' ∧ Shows old color w' (text.next byte) := by
  unfold Writer.writeByte Text.next
  by_cases newline : byte = 0x0A
  · subst newline
    exact shows.newLine
  by_cases tab : byte = 0x09
  · subst tab
    exact shows.puts _
  by_cases ascii : 0x20 ≤ byte ∧ byte ≤ 0x7E
  · have same : Writer.printable byte = byte := if_pos (.inl ascii)
    rw [same, if_neg newline, if_neg tab, if_neg newline, if_neg tab, if_pos ascii]
    exact shows.put byte
  · have block : Writer.printable byte = 0xFE :=
      if_neg (by simp only [ascii, newline, tab, or_self, not_false_eq_true])
    rw [block, if_neg (by decide), if_neg (by decide), if_neg newline, if_neg tab, if_neg ascii]
    exact shows.put 0xFE

/-- Whatever is written, nothing panics, and the screen shows the last 25 lines of the text
    over what the boot has left. -/
theorem writeString_shows (chars : Nat → Nat → ScreenChar) (bytes : List UInt8) :
    ∃ w, Writer.writeString bytes (.initial chars) = some w ∧
    Shows chars 0x0E w (bytes.foldl Text.next ([], [])) := by
  have start : Shows chars 0x0E (.initial chars) ([], []) := by
    refine ⟨rfl, Nat.zero_le _, rfl, ?_⟩
    intro row inside col width
    rw [BUFFER_HEIGHT] at inside
    unfold cell
    rcases Nat.lt_or_ge row 24 with above | last
    · exact (if_pos above).symm
    · obtain rfl : row = 24 := by omega
      rfl
  revert start
  generalize Writer.initial chars = w
  generalize (([], []) : Text) = text
  intro shows
  induction bytes generalizing w text with
  | nil => exact ⟨w, rfl, shows⟩
  | cons byte bytes ih =>
      obtain ⟨w₁, written, shows₁⟩ := shows.next byte
      obtain ⟨w₂, rest, shows₂⟩ := ih w₁ _ shows₁
      exact ⟨w₂, by rw [Writer.writeString, written, Option.bind_eq_bind, Option.bind_some, rest],
        shows₂⟩

end FerriOS.Vga
