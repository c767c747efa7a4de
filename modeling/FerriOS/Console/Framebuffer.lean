import Mathlib

/-! # The console on the framebuffer

A writer draws glyphs of 16 rows at its cursor, and a wrapper scrolls before the writer
goes to a line that is not on the screen. The text is wrapped at the width, and the
screen shows its last lines.
-/

namespace FerriOS.Console

inductive PixelFormat where
  | rgb
  | bgr
  | u8
  | unknown

structure FrameBufferInfo where
  width : Nat
  height : Nat
  /-- Pixels from one row to the next. -/
  stride : Nat
  bytesPerPixel : Nat
  pixelFormat : PixelFormat

inductive FontWeight where
  | light
  | regular
  | bold

/-- `get_raster` of the font crate at a height of 16: rows of intensities. -/
abbrev Font := Char → FontWeight → Option (List (List UInt8))

def FONT_WEIGHT : FontWeight := .bold
def CHAR_WIDTH : Nat := 8
def LINE_HEIGHT : Nat := 16

/-! ## Slices -/

structure Buffer where
  len : Nat
  byte : Nat → UInt8

namespace Buffer

/-- `copy_within(start..stop, dest)`; `none` is a panic, here and below. -/
def copyWithin (b : Buffer) (start stop dest : Nat) : Option Buffer :=
  if start ≤ stop ∧ stop ≤ b.len ∧ dest + (stop - start) ≤ b.len then
    some { b with byte := fun i =>
      if dest ≤ i ∧ i < dest + (stop - start) then b.byte (start + (i - dest)) else b.byte i }
  else none

/-- `[start..stop].fill(value)`. -/
def fill (b : Buffer) (start stop : Nat) (value : UInt8) : Option Buffer :=
  if start ≤ stop ∧ stop ≤ b.len then
    some { b with byte := fun i => if start ≤ i ∧ i < stop then value else b.byte i }
  else none

/-- `[start..stop].copy_from_slice(data)`. -/
def copyFromSlice (b : Buffer) (start stop : Nat) (data : List UInt8) : Option Buffer :=
  if start ≤ stop ∧ stop ≤ b.len ∧ data.length = stop - start then
    some { b with byte := fun i =>
      if start ≤ i ∧ i < stop then data.getD (i - start) 0 else b.byte i }
  else none

end Buffer

/-- `[..n]` of a slice. -/
def sliceTo (data : List UInt8) (n : Nat) : Option (List UInt8) :=
  if n ≤ data.length then some (data.take n) else none

/-- A subtraction that panics below zero. -/
def usizeSub (a b : Nat) : Option Nat := if b ≤ a then some (a - b) else none

/-! ## The writer -/

structure FrameBufferWriter where
  buffer : Buffer
  info : FrameBufferInfo
  xPos : Nat
  yPos : Nat
  color : UInt8 × UInt8 × UInt8
  weight : FontWeight

namespace FrameBufferWriter

def new (buffer : Buffer) (info : FrameBufferInfo) : FrameBufferWriter where
  buffer := buffer
  info := info
  xPos := 0
  yPos := 0
  color := (255, 255, 0)
  weight := FONT_WEIGHT

def newline (w : FrameBufferWriter) : FrameBufferWriter :=
  { w with xPos := 0, yPos := w.yPos + LINE_HEIGHT }

def clear (w : FrameBufferWriter) : Option FrameBufferWriter := do
  let buffer ← w.buffer.fill 0 w.buffer.len 0
  some { w with xPos := 0, yPos := 0, buffer }

/-- A component of the color, at an intensity. -/
def shade (component intensity : UInt8) : UInt8 :=
  UInt8.ofNat (component.toNat * intensity.toNat / 255)

def colorBytes (w : FrameBufferWriter) (intensity : UInt8) : List UInt8 :=
  let r := shade w.color.1 intensity
  let g := shade w.color.2.1 intensity
  let b := shade w.color.2.2 intensity
  match w.info.pixelFormat with
  | .rgb => [r, g, b, 0]
  | .bgr => [b, g, r, 0]
  | .u8 => [intensity, 0, 0, 0]
  | .unknown => [r, g, b, 0]

def writePixel (w : FrameBufferWriter) (x y : Nat) (intensity : UInt8) : Option FrameBufferWriter :=
  let pixelOffset := y * w.info.stride + x
  let byteOffset := pixelOffset * w.info.bytesPerPixel
  if byteOffset + w.info.bytesPerPixel ≤ w.buffer.len then do
    let bytes ← sliceTo (w.colorBytes intensity) w.info.bytesPerPixel
    let buffer ← w.buffer.copyFromSlice byteOffset (byteOffset + w.info.bytesPerPixel) bytes
    some { w with buffer }
  else some w

/-- A row of a glyph, from the pixel `x` on. -/
def drawRow (y : Nat) : List UInt8 → Nat → FrameBufferWriter → Option FrameBufferWriter
  | [], _, w => some w
  | intensity :: row, x, w => do
      let w ← w.writePixel (w.xPos + x) (w.yPos + y) intensity
      drawRow y row (x + 1) w

/-- The rows of a glyph, from the row `y` on. -/
def drawRows : List (List UInt8) → Nat → FrameBufferWriter → Option FrameBufferWriter
  | [], _, w => some w
  | row :: rows, y, w => do
      let w ← drawRow y row 0 w
      drawRows rows (y + 1) w

/-- A character that the font does not have is drawn as a space. -/
def raster (font : Font) (weight : FontWeight) (c : Char) : Option (List (List UInt8)) :=
  (font c weight).or (font ' ' weight)

def drawChar (font : Font) (w : FrameBufferWriter) (c : Char) : Option FrameBufferWriter := do
  let charRaster ← raster font w.weight c
  drawRows charRaster 0 w

def writeChar (font : Font) (w : FrameBufferWriter) (c : Char) : Option FrameBufferWriter :=
  if c = '\n' then some w.newline
  else do
    let w := if w.info.width < w.xPos + CHAR_WIDTH then w.newline else w
    let w ← w.drawChar font c
    some { w with xPos := w.xPos + CHAR_WIDTH }

end FrameBufferWriter

structure ScrollingWriter where
  writer : FrameBufferWriter
  info : FrameBufferInfo

namespace ScrollingWriter

def new (buffer : Buffer) (info : FrameBufferInfo) : Option ScrollingWriter := do
  let writer ← (FrameBufferWriter.new buffer info).clear
  some ⟨writer, info⟩

def scroll (s : ScrollingWriter) : Option ScrollingWriter := do
  let stride := s.info.stride * s.info.bytesPerPixel
  let lineH := 16
  let lineSize := lineH * stride
  let totalSize := s.info.height * stride
  let buffer ← s.writer.buffer.copyWithin lineSize totalSize 0
  let lastStart := (← usizeSub s.info.height lineH) * stride
  let buffer ← buffer.fill lastStart totalSize 0
  let yPos ← usizeSub s.writer.yPos lineH
  some { s with writer := { s.writer with buffer, yPos } }

def scrollIf (p : Prop) [Decidable p] (s : ScrollingWriter) : Option ScrollingWriter :=
  if p then s.scroll else some s

/-- What the loop of `write_str` does with a character. -/
def writeNext (font : Font) (s : ScrollingWriter) (c : Char) : Option ScrollingWriter := do
  let s ← scrollIf (s.info.height < s.writer.yPos + 16) s
  let s ← scrollIf ((c = '\n' ∨ s.info.width < s.writer.xPos + 8) ∧
    s.info.height < s.writer.yPos + 32) s
  let writer ← s.writer.writeChar font c
  some { s with writer }

def writeStr (font : Font) (s : ScrollingWriter) (str : String) : Option ScrollingWriter :=
  str.toList.foldlM (writeNext font) s

end ScrollingWriter

/-! ## What a writer draws -/

namespace FrameBufferInfo

/-- The pixel of a byte, by its row and column, and the byte of the pixel. -/
def rowOf (info : FrameBufferInfo) (i : Nat) : Nat := i / info.bytesPerPixel / info.stride
def columnOf (info : FrameBufferInfo) (i : Nat) : Nat := i / info.bytesPerPixel % info.stride
def laneOf (info : FrameBufferInfo) (i : Nat) : Nat := i % info.bytesPerPixel

/-- The bytes of the screen. -/
def size (info : FrameBufferInfo) : Nat := info.height * (info.stride * info.bytesPerPixel)

/-- The geometries that the console is made for. -/
structure Fits (info : FrameBufferInfo) : Prop where
  height : 32 ≤ info.height
  width : 8 ≤ info.width
  stride : info.width ≤ info.stride
  positive : 1 ≤ info.bytesPerPixel
  pixel : info.bytesPerPixel ≤ 4

variable {info : FrameBufferInfo} {i x y : Nat}

/-- The bytes of a pixel on the screen. -/
theorem pixel_iff (fits : info.Fits) (inside : x < info.stride) :
    ((y * info.stride + x) * info.bytesPerPixel ≤ i ∧
    i < (y * info.stride + x) * info.bytesPerPixel + info.bytesPerPixel) ↔
      info.rowOf i = y ∧ info.columnOf i = x := by
  have pixel : ((y * info.stride + x) * info.bytesPerPixel ≤ i ∧
      i < (y * info.stride + x) * info.bytesPerPixel + info.bytesPerPixel) ↔
        i / info.bytesPerPixel = y * info.stride + x := by
    rw [Nat.div_eq_iff fits.positive, Nat.lt_iff_le_pred (by have := fits.positive; omega)]
  rw [pixel, rowOf, columnOf]
  constructor
  · intro same
    rw [same, Nat.mul_comm, Nat.mul_add_div (by omega), Nat.mul_add_mod, Nat.div_eq_of_lt inside,
      Nat.mod_eq_of_lt inside]
    exact ⟨rfl, rfl⟩
  · rintro ⟨rfl, rfl⟩
    exact (Nat.div_add_mod' _ _).symm

theorem pixel_inside (column : x < info.stride) (row : y < info.height) :
    (y * info.stride + x) * info.bytesPerPixel + info.bytesPerPixel ≤ info.size := by
  have bound : y * info.stride + x + 1 ≤ info.height * info.stride := by
    calc y * info.stride + x + 1 ≤ (y + 1) * info.stride := by rw [Nat.add_one_mul]; omega
      _ ≤ info.height * info.stride := Nat.mul_le_mul_right _ row
  calc (y * info.stride + x) * info.bytesPerPixel + info.bytesPerPixel
      = (y * info.stride + x + 1) * info.bytesPerPixel := by rw [Nat.add_one_mul]
    _ ≤ info.height * info.stride * info.bytesPerPixel := Nat.mul_le_mul_right _ bound
    _ = info.size := by rw [size, Nat.mul_assoc]

end FrameBufferInfo

open FrameBufferWriter

/-- The writer differs in its buffer only, whose bytes on the screen are these. -/
structure Painted (w w' : FrameBufferWriter) (byte : Nat → UInt8) : Prop where
  rest : w' = { w with buffer := w'.buffer }
  len : w'.buffer.len = w.buffer.len
  bytes : ∀ i < w.info.size, w'.buffer.byte i = byte i

/-- The buffer holds the screen. -/
structure Ready (w : FrameBufferWriter) : Prop where
  fits : w.info.Fits
  room : w.info.size ≤ w.buffer.len

variable {w w' w'' : FrameBufferWriter} {font : Font} {byte byte' : Nat → UInt8} {x y : Nat}

namespace Painted

theorem info (painted : Painted w w' byte) : w'.info = w.info := by rw [painted.rest]

theorem ready (painted : Painted w w' byte) (ready : Ready w) : Ready w' :=
  ⟨painted.info ▸ ready.fits, by rw [painted.info, painted.len]; exact ready.room⟩

theorem xPos (painted : Painted w w' byte) : w'.xPos = w.xPos := by rw [painted.rest]

theorem yPos (painted : Painted w w' byte) : w'.yPos = w.yPos := by rw [painted.rest]

theorem colorBytes (painted : Painted w w' byte) : w'.colorBytes = w.colorBytes := by
  funext intensity
  rw [painted.rest]
  rfl

theorem trans (first : Painted w w' byte) (second : Painted w' w'' byte') :
    Painted w w'' byte' where
  rest := by rw [second.rest, first.rest]
  len := second.len.trans first.len
  bytes i inside := second.bytes i (by rwa [first.info])

theorem congr (painted : Painted w w' byte) (same : ∀ i < w.info.size, byte i = byte' i) :
    Painted w w' byte' :=
  ⟨painted.rest, painted.len, fun i inside => (painted.bytes i inside).trans (same i inside)⟩

end Painted

/-- The bytes of a pixel are those of its color. -/
theorem writePixel_painted (ready : Ready w) (column : x < w.info.stride) (row : y < w.info.height)
    (intensity : UInt8) :
    ∃ w', w.writePixel x y intensity = some w' ∧ Painted w w' fun i =>
      if w.info.rowOf i = y ∧ w.info.columnOf i = x then (w.colorBytes intensity).getD
        (w.info.laneOf i) 0 else w.buffer.byte i := by
  have four : (w.colorBytes intensity).length = 4 := by
    rw [FrameBufferWriter.colorBytes]
    cases w.info.pixelFormat <;> rfl
  have inside := (FrameBufferInfo.pixel_inside column row).trans ready.room
  have slice : sliceTo (w.colorBytes intensity) w.info.bytesPerPixel = some ((w.colorBytes intensity).take w.info.bytesPerPixel) :=
    if_pos (four ▸ ready.fits.pixel)
  have length : ((w.colorBytes intensity).take w.info.bytesPerPixel).length = w.info.bytesPerPixel := by
    rw [List.length_take, four]
    have := ready.fits.pixel
    omega
  rw [FrameBufferWriter.writePixel, if_pos inside, slice, Option.bind_eq_bind, Option.bind_some,
    Buffer.copyFromSlice,
    if_pos ⟨Nat.le_add_right _ _, inside, by rw [length, Nat.add_sub_cancel_left]⟩]
  refine ⟨_, rfl, rfl, rfl, fun i _ => ?_⟩
  simp only [FrameBufferInfo.pixel_iff ready.fits column]
  split
  case isTrue here =>
    obtain ⟨low, high⟩ := (FrameBufferInfo.pixel_iff ready.fits column).mpr here
    have small : w.info.laneOf i < w.info.bytesPerPixel := Nat.mod_lt _ ready.fits.positive
    have lane : i - (y * w.info.stride + x) * w.info.bytesPerPixel = w.info.laneOf i := by
      rw [Nat.mul_comm _ w.info.bytesPerPixel] at low high ⊢
      rw [FrameBufferInfo.laneOf, ← Nat.sub_mul_mod low, Nat.mod_eq_of_lt (by omega)]
    rw [lane, List.getD_eq_getElem?_getD, List.getElem?_take_of_lt small,
      ← List.getD_eq_getElem?_getD]
  case isFalse => rfl

/-- What a byte of the screen is after ink of this intensity, if any, has been put on it. -/
def inked (w : FrameBufferWriter) (i : Nat) (ink : Option UInt8) : UInt8 :=
  ink.elim (w.buffer.byte i) fun intensity => (w.colorBytes intensity).getD (w.info.laneOf i) 0

theorem drawRow_painted {row : List UInt8} {y x : Nat} (ready : Ready w)
    (inside : w.yPos + y < w.info.height)
    (fits : w.xPos + x + row.length ≤ w.info.stride) :
    ∃ w', drawRow y row x w = some w' ∧ Painted w w' fun i =>
      if w.info.rowOf i = w.yPos + y ∧ w.xPos + x ≤ w.info.columnOf i then
        inked w i row[w.info.columnOf i - (w.xPos + x)]?
      else w.buffer.byte i := by
  induction row generalizing w x with
  | nil => exact ⟨w, rfl, rfl, rfl,
      fun i _ => by rw [List.getElem?_nil, inked, Option.elim_none, ite_self]⟩
  | cons intensity row ih =>
      rw [List.length_cons] at fits
      obtain ⟨w₁, pixel, first⟩ :=
        writePixel_painted (x := w.xPos + x) ready (by omega) inside intensity
      obtain ⟨w₂, drawn, rest⟩ :=
        ih (w := w₁) (x := x + 1) (first.ready ready) (by rwa [first.yPos, first.info])
        (by rw [first.xPos, first.info]; omega)
      refine ⟨w₂, by rw [drawRow, pixel, Option.bind_eq_bind, Option.bind_some, drawn],
        (first.trans rest).congr fun i there => ?_⟩
      simp only [inked, first.info, first.xPos, first.yPos, first.colorBytes, first.bytes i there]
      by_cases row : w.info.rowOf i = w.yPos + y
      · rcases lt_trichotomy (w.info.columnOf i) (w.xPos + x) with before | here | after
        · rw [if_neg (by omega), if_neg (by omega), if_neg (by omega)]
        · rw [if_neg (by omega), if_pos ⟨row, here⟩, if_pos ⟨row, here.ge⟩, here, Nat.sub_self,
            List.getElem?_cons_zero,
            Option.elim_some]
        · have next : w.info.columnOf i - (w.xPos + x) = w.info.columnOf i -
            (w.xPos + (x + 1)) + 1 := by omega
          rw [if_pos ⟨row, by omega⟩, if_neg (by omega), if_pos ⟨row, after.le⟩, next,
            List.getElem?_cons_succ]
      · rw [if_neg (by simp [row]), if_neg (by simp [row]), if_neg (by simp [row])]

theorem drawRows_painted {rows : List (List UInt8)} {y : Nat} (ready : Ready w)
    (inside : w.yPos + y + rows.length ≤ w.info.height)
    (narrow : ∀ row ∈ rows, w.xPos + row.length ≤ w.info.stride) :
    ∃ w', drawRows rows y w = some w' ∧ Painted w w' fun i =>
      if w.yPos + y ≤ w.info.rowOf i ∧ w.xPos ≤ w.info.columnOf i then
        inked w i (rows[w.info.rowOf i - (w.yPos + y)]?.bind fun row =>
          row[w.info.columnOf i - w.xPos]?)
      else w.buffer.byte i := by
  induction rows generalizing w y with
  | nil => exact ⟨w, rfl, rfl, rfl,
      fun i _ => by rw [List.getElem?_nil, Option.bind_none, inked, Option.elim_none, ite_self]⟩
  | cons row rows ih =>
      rw [List.length_cons] at inside
      obtain ⟨w₁, pixels, first⟩ :=
        drawRow_painted (y := y) (x := 0) ready (by omega) (narrow row List.mem_cons_self)
      obtain ⟨w₂, drawn, rest⟩ := ih (w := w₁) (y := y + 1) (first.ready ready) (by rw [first.yPos, first.info]; omega)
        fun row member => by rw [first.xPos, first.info]; exact narrow row (List.mem_cons_of_mem _ member)
      refine ⟨w₂, by rw [drawRows, pixels, Option.bind_eq_bind, Option.bind_some, drawn],
        (first.trans rest).congr fun i there => ?_⟩
      simp only [inked, first.info, first.xPos, first.yPos, first.colorBytes, first.bytes i there,
        Nat.add_zero]
      by_cases column : w.xPos ≤ w.info.columnOf i
      · rcases lt_trichotomy (w.info.rowOf i) (w.yPos + y) with before | here | after
        · rw [if_neg (by omega), if_neg (by omega), if_neg (by omega)]
        · rw [if_neg (by omega), if_pos ⟨here, column⟩, if_pos ⟨here.ge, column⟩, here,
            Nat.sub_self, List.getElem?_cons_zero,
            Option.bind_some]
        · have next : w.info.rowOf i - (w.yPos + y) = w.info.rowOf i -
            (w.yPos + (y + 1)) + 1 := by omega
          rw [if_pos ⟨by omega, column⟩, if_neg (by omega), if_pos ⟨after.le, column⟩, next,
            List.getElem?_cons_succ]
      · rw [if_neg (by simp [column]), if_neg (by simp [column]), if_neg (by simp [column])]

/-- The font has a space, and glyphs of at most 16 rows of 8 pixels. -/
structure FontFits (font : Font) : Prop where
  space : ∀ weight, (font ' ' weight).isSome = true
  rows : ∀ c weight glyph, font c weight = some glyph → glyph.length ≤ LINE_HEIGHT
  pixels : ∀ c weight glyph, font c weight = some glyph → ∀ row ∈ glyph, row.length ≤ CHAR_WIDTH

theorem FontFits.raster (fits : FontFits font) (weight : FontWeight) (c : Char) :
    ∃ glyph, raster font weight c = some glyph ∧
    glyph.length ≤ LINE_HEIGHT ∧ ∀ row ∈ glyph, row.length ≤ CHAR_WIDTH := by
  rw [FrameBufferWriter.raster]
  cases found : font c weight with
  | some glyph => exact ⟨glyph, rfl, fits.rows c weight glyph found,
      fits.pixels c weight glyph found⟩
  | none =>
      obtain ⟨glyph, space⟩ := Option.isSome_iff_exists.mp (fits.space weight)
      exact ⟨glyph, by rw [space, Option.none_or], fits.rows ' ' weight glyph space,
        fits.pixels ' ' weight glyph space⟩

/-! ## The screen -/

/-- The ink of a line at a pixel. -/
def lineInk (font : Font) (weight : FontWeight) (text : List Char) (y x : Nat) : Option UInt8 := do
  let c ← text[x / CHAR_WIDTH]?
  let glyph ← raster font weight c
  let row ← glyph[y]?
  row[x % CHAR_WIDTH]?

/-- A byte of a screen with these lines. -/
def lineByte (font : Font) (w : FrameBufferWriter) (lines : List (List Char)) (i : Nat) : UInt8 :=
  (lineInk font w.weight (lines.getD (w.info.rowOf i / LINE_HEIGHT) [])
    (w.info.rowOf i % LINE_HEIGHT) (w.info.columnOf i)).elim 0
    fun intensity => (w.colorBytes intensity).getD (w.info.laneOf i) 0

/-- The lines that a screen shows. -/
def visible (above : List (List Char)) (line : List Char) (r : Nat) : List (List Char) :=
  above.drop (above.length - r) ++ [line]

/-- The screen shows the last `r` lines above the cursor, the line of the cursor, and
    nothing else. -/
structure Screen (font : Font) (w : FrameBufferWriter) (above : List (List Char))
    (line : List Char) (r : Nat) : Prop where
  ready : Ready w
  xPos : w.xPos = CHAR_WIDTH * line.length
  margin : w.xPos ≤ w.info.width
  yPos : w.yPos = LINE_HEIGHT * r
  bottom : w.yPos + LINE_HEIGHT ≤ w.info.height
  lines : r ≤ above.length
  bytes : ∀ i < w.info.size, w.buffer.byte i = lineByte font w (visible above line r) i

variable {above : List (List Char)} {line : List Char} {r : Nat} {s s' : ScrollingWriter} {c : Char}

theorem lineInk_nil (font : Font) (weight : FontWeight) (y x : Nat) :
    lineInk font weight [] y x = none := rfl

theorem lineInk_append {glyph : List (List UInt8)} (drawn : raster font w.weight c = some glyph)
    (y x : Nat) :
    lineInk font w.weight (line ++ [c]) y x =
      if x / CHAR_WIDTH = line.length then glyph[y]?.bind fun row => row[x % CHAR_WIDTH]? else lineInk font w.weight line y x := by
  rw [lineInk, lineInk]
  split
  case isTrue here => rw [here, List.getElem?_concat_length, Option.bind_eq_bind, Option.bind_some, drawn]; rfl
  case isFalse other =>
    rcases lt_or_gt_of_ne other with before | after
    · rw [List.getElem?_append_left before]
    · rw [List.getElem?_eq_none (by rw [List.length_append, List.length_singleton]; omega),
        List.getElem?_eq_none after.le]

theorem lineByte_congr {lines : List (List Char)} {i : Nat} (info : w'.info = w.info)
    (color : w'.color = w.color)
    (weight : w'.weight = w.weight) : lineByte font w' lines i = lineByte font w lines i := by
  have colors : w'.colorBytes = w.colorBytes := by
    funext intensity
    rw [colorBytes, colorBytes, info, color]
  rw [lineByte, lineByte, info, weight, colors]

theorem above_length (lines : r ≤ above.length) : (above.drop (above.length - r)).length = r := by
  rw [List.length_drop]
  omega

theorem visible_length (lines : r ≤ above.length) : (visible above line r).length = r + 1 := by
  rw [visible, List.length_append, above_length lines, List.length_singleton]

theorem visible_newline (above : List (List Char)) (line : List Char) (r : Nat) :
    visible (above ++ [line]) [] (r + 1) = visible above line r ++ [[]] := by
  rw [visible, visible, List.length_append, List.length_singleton, Nat.add_sub_add_right,
    List.drop_append_of_le_length (by omega)]

theorem visible_scroll (lines : r + 1 ≤ above.length) :
    visible above line r = (visible above line (r + 1)).tail := by
  have one : above.length - r = above.length - (r + 1) + 1 := by omega
  have more : above.drop (above.length - (r + 1)) ≠ [] := by
    rw [ne_eq, List.drop_eq_nil_iff]
    omega
  rw [visible, visible, List.tail_append_of_ne_nil more, List.tail_drop, one]

theorem visible_cursor (lines : r ≤ above.length) : (visible above line r).getD r [] = line := by
  have length := above_length lines
  rw [visible, List.getD_eq_getElem?_getD]
  nth_rewrite 2 [← length]
  rw [List.getElem?_concat_length, Option.getD_some]

theorem visible_other {line' : List Char} {j : Nat} (lines : r ≤ above.length) (other : j ≠ r) :
    (visible above line r).getD j [] = (visible above line' r).getD j [] := by
  have length := above_length lines
  rw [visible, visible]
  rcases lt_or_gt_of_ne other with before | after
  · rw [List.getD_append _ _ _ _ (by omega), List.getD_append _ _ _ _ (by omega)]
  · rw [List.getD_eq_default _ _ (by rw [List.length_append, List.length_singleton]; omega),
      List.getD_eq_default _ _ (by rw [List.length_append, List.length_singleton]; omega)]

theorem ink_outside {glyph : List (List UInt8)} (rows : glyph.length ≤ LINE_HEIGHT)
    (pixels : ∀ row ∈ glyph, row.length ≤ CHAR_WIDTH)
    {y x : Nat} (outside : LINE_HEIGHT ≤ y ∨ CHAR_WIDTH ≤ x) :
    (glyph[y]?.bind fun row => row[x]?) = none := by
  cases found : glyph[y]? with
  | none => rfl
  | some row =>
      rcases outside with below | right
      · rw [List.getElem?_eq_none (rows.trans below)] at found
        cases found
      · exact List.getElem?_eq_none ((pixels row (List.mem_of_getElem? found)).trans right)

/-- A glyph is drawn behind the line of the cursor. -/
theorem drawChar_screen (fits : FontFits font) (screen : Screen font w above line r)
    (room : w.xPos + CHAR_WIDTH ≤ w.info.width)
    (c : Char) : ∃ w', w.drawChar font c = some w' ∧ w'.yPos = w.yPos ∧ w'.info = w.info ∧
      Screen font { w' with xPos := w'.xPos + CHAR_WIDTH } above (line ++ [c]) r := by
  obtain ⟨glyph, found, rows, pixels⟩ := fits.raster w.weight c
  have bottom := screen.bottom
  have stride := screen.ready.fits.stride
  have below : w.yPos + 0 + glyph.length ≤ w.info.height := by omega
  obtain ⟨w', drawn, painted⟩ := drawRows_painted screen.ready below
    fun row member => by have := pixels row member; omega
  refine ⟨w', by rw [drawChar, found, Option.bind_eq_bind, Option.bind_some, drawn], painted.yPos,
    painted.info, ?_⟩
  have ready := painted.ready screen.ready
  refine ⟨⟨ready.fits, ready.room⟩, ?_, ?_, painted.yPos.trans screen.yPos, ?_, screen.lines,
    fun i inside => ?_⟩
  · rw [painted.xPos, screen.xPos, List.length_append, List.length_singleton, Nat.mul_add_one]
  · rw [painted.xPos, painted.info]
    exact room
  · rw [painted.yPos, painted.info]
    exact bottom
  · have here : i < w.info.size := by rwa [painted.info] at inside
    have color : w'.color = w.color := by rw [painted.rest]
    have weight : w'.weight = w.weight := by rw [painted.rest]
    have kept : ∀ lines, lineByte font
      { w' with xPos := w'.xPos + CHAR_WIDTH } lines i = lineByte font w lines i := fun lines =>
      lineByte_congr painted.info color weight
    rw [kept]
    change w'.buffer.byte i = _
    rw [painted.bytes i here, inked, screen.bytes i here, Nat.add_zero]
    have x := screen.xPos
    have y := screen.yPos
    by_cases cursor : w.info.rowOf i / LINE_HEIGHT = r
    · have low : w.yPos ≤ w.info.rowOf i := by
        rw [y, ← cursor]
        exact Nat.mul_div_le _ _
      have dy : w.info.rowOf i - w.yPos = w.info.rowOf i % LINE_HEIGHT := by rw
        [y, ← cursor, Nat.mod_def]
      rw [lineByte, lineByte, cursor, visible_cursor screen.lines, visible_cursor screen.lines,
        lineInk_append found]
      by_cases cell : w.info.columnOf i / CHAR_WIDTH = line.length
      · have left : w.xPos ≤ w.info.columnOf i := by
          rw [x, ← cell]
          exact Nat.mul_div_le _ _
        have dx : w.info.columnOf i - w.xPos = w.info.columnOf i % CHAR_WIDTH := by rw
          [x, ← cell, Nat.mod_def]
        have blank : lineInk font w.weight line (w.info.rowOf i % LINE_HEIGHT)
          (w.info.columnOf i) = none := by
          rw [lineInk, List.getElem?_eq_none cell.ge]
          rfl
        rw [if_pos ⟨low, left⟩, if_pos cell, dy, dx, blank, Option.elim_none]
      · rw [if_neg cell]
        split
        case isTrue right =>
          have far : CHAR_WIDTH ≤ w.info.columnOf i - w.xPos := by
            rw [CHAR_WIDTH] at x cell ⊢
            omega
          rw [ink_outside rows pixels (.inr far), Option.elim_none]
        case isFalse => rfl
    · have same : lineByte font w (visible above line r) i = lineByte font w
        (visible above (line ++ [c]) r) i := by
        rw [lineByte, lineByte, visible_other screen.lines cursor]
      rw [← same]
      split
      case isTrue below =>
        have far : LINE_HEIGHT ≤ w.info.rowOf i - w.yPos := by
          rw [LINE_HEIGHT] at y cursor ⊢
          omega
        rw [ink_outside rows pixels (.inl far), Option.elim_none]
      case isFalse => rfl

theorem newline_screen (screen : Screen font w above line r)
    (room : LINE_HEIGHT * (r + 2) ≤ w.info.height) :
    Screen font w.newline (above ++ [line]) [] (r + 1) where
  ready := ⟨screen.ready.fits, screen.ready.room⟩
  xPos := rfl
  margin := Nat.zero_le _
  yPos := by rw [newline, screen.yPos, Nat.mul_add_one]
  bottom := by
    rw [newline, screen.yPos, ← Nat.mul_add_one, ← Nat.mul_add_one]
    exact room
  lines := by
    rw [List.length_append, List.length_singleton]
    exact Nat.succ_le_succ screen.lines
  bytes i inside := by
    have empty : ∀ lines : List (List Char), ∀ j, (lines ++ [[]]).getD j [] = lines.getD j [] :=
      fun lines j => by
      rcases lt_trichotomy j lines.length with before | rfl | after
      · rw [List.getD_append _ _ _ _ before]
      · simp
      · rw [List.getD_eq_default _ _ (by rw [List.length_append, List.length_singleton]; omega),
          List.getD_eq_default _ _ after.le]
    have kept : ∀ lines, lineByte font w.newline lines i = lineByte font w lines i :=
      fun lines => lineByte_congr rfl rfl rfl
    have same : lineByte font w.newline (visible (above ++ [line]) [] (r + 1)) i = lineByte font w
      (visible above line r) i := by
      rw [kept, visible_newline, lineByte, lineByte, empty]
    rw [same]
    exact screen.bytes i inside

/-! ## Scrolling -/

/-- Everything has moved up by one line, and the bottom line is blank. -/
structure Scrolled (s s' : ScrollingWriter) : Prop where
  rest : s' = { s with writer := { s.writer with buffer := s'.writer.buffer, yPos := s.writer.yPos - LINE_HEIGHT } }
  len : s'.writer.buffer.len = s.writer.buffer.len
  bytes : ∀ i < s.info.size, s'.writer.buffer.byte i =
    if s.info.rowOf i + LINE_HEIGHT < s.info.height then
      s.writer.buffer.byte (i + LINE_HEIGHT * (s.info.stride * s.info.bytesPerPixel))
    else 0

namespace FrameBufferInfo

variable {info : FrameBufferInfo} {i : Nat}

theorem down (fits : info.Fits) (i : Nat) :
    info.rowOf (i + LINE_HEIGHT * (info.stride * info.bytesPerPixel)) = info.rowOf i + LINE_HEIGHT ∧
    info.columnOf (i + LINE_HEIGHT * (info.stride * info.bytesPerPixel)) = info.columnOf i ∧
    info.laneOf (i + LINE_HEIGHT * (info.stride * info.bytesPerPixel)) = info.laneOf i := by
  have stride : 0 < info.stride := by
    have := fits.width
    have := fits.stride
    omega
  rw [rowOf, columnOf, laneOf, ← Nat.mul_assoc, Nat.add_mul_div_right _ _ fits.positive,
    Nat.add_mul_div_right _ _ stride,
    Nat.add_mul_mod_self_right, Nat.add_mul_mod_self_right]
  exact ⟨rfl, rfl, rfl⟩

theorem rowOf_lt_iff (fits : info.Fits) (n : Nat) :
    info.rowOf i < n ↔ i < n * (info.stride * info.bytesPerPixel) := by
  have positive := fits.positive
  have width := fits.width
  have stride := fits.stride
  rw [rowOf, Nat.div_lt_iff_lt_mul (by omega), Nat.div_lt_iff_lt_mul (by omega), Nat.mul_assoc]

end FrameBufferInfo

theorem scroll_run (same : s.info = s.writer.info) (ready : Ready s.writer)
    (room : LINE_HEIGHT ≤ s.writer.yPos) :
    ∃ s', s.scroll = some s' ∧ Scrolled s s' := by
  have fits := same ▸ ready.fits
  have size : s.info.height * (s.info.stride * s.info.bytesPerPixel) ≤ s.writer.buffer.len :=
    same ▸ ready.room
  have tall : 16 ≤ s.info.height := le_trans (by decide) fits.height
  have split : s.info.height * (s.info.stride * s.info.bytesPerPixel) =
      (s.info.height - 16) * (s.info.stride * s.info.bytesPerPixel) + 16 *
        (s.info.stride * s.info.bytesPerPixel) := by
    rw [← Nat.add_mul, Nat.sub_add_cancel tall]
  have copied : s.writer.buffer.copyWithin (16 * (s.info.stride * s.info.bytesPerPixel))
      (s.info.height * (s.info.stride * s.info.bytesPerPixel)) 0 = some _ :=
        if_pos ⟨by omega, size, by omega⟩
  rw [ScrollingWriter.scroll]
  simp only [Option.bind_eq_bind, copied, Option.bind_some, usizeSub, if_pos tall]
  rw [Buffer.fill, if_pos ⟨by omega, size⟩, Option.bind_some, if_pos (show 16 ≤ s.writer.yPos from room), Option.bind_some]
  refine ⟨_, rfl, rfl, rfl, fun i inside => ?_⟩
  have row : s.info.rowOf i + LINE_HEIGHT < s.info.height ↔ i < (s.info.height - 16) * (s.info.stride * s.info.bytesPerPixel) := by
    rw [← FrameBufferInfo.rowOf_lt_iff fits, LINE_HEIGHT]
    omega
  have whole : i < s.info.height * (s.info.stride * s.info.bytesPerPixel) := inside
  simp only [row]
  by_cases up : i < (s.info.height - 16) * (s.info.stride * s.info.bytesPerPixel)
  · rw [if_neg (by omega), if_pos (by omega), if_pos up, Nat.sub_zero, Nat.add_comm, LINE_HEIGHT]
  · rw [if_pos (by omega), if_neg up]

/-- The line of the cursor is on the screen one line higher. -/
theorem scroll_screen (same : s.info = s.writer.info)
    (screen : Screen font s.writer above line (r + 1)) :
    ∃ s', s.scroll = some s' ∧ Scrolled s s' ∧ s'.info = s'.writer.info ∧
    Screen font s'.writer above line r := by
  have y := screen.yPos
  have bottom := screen.bottom
  obtain ⟨s', run, scrolled⟩ := scroll_run same screen.ready (by rw [y, Nat.mul_add_one]; exact Nat.le_add_left _ _)
  have info : s'.writer.info = s.writer.info := by rw [scrolled.rest]
  have xPos : s'.writer.xPos = s.writer.xPos := by rw [scrolled.rest]
  have yPos : s'.writer.yPos = LINE_HEIGHT * r := by
    rw [scrolled.rest]
    change s.writer.yPos - LINE_HEIGHT = _
    rw [y, Nat.mul_add_one, Nat.add_sub_cancel]
  have info' : s'.info = s'.writer.info := by
    rw [info, ← same, scrolled.rest]
  rw [y, Nat.mul_add_one] at bottom
  refine ⟨s', run, scrolled, info', ⟨info ▸ screen.ready.fits, by rw [info, scrolled.len]; exact screen.ready.room⟩, ?_, ?_, yPos,
    ?_, (Nat.le_succ r).trans screen.lines, fun i inside => ?_⟩
  · rw [xPos, screen.xPos]
  · rw [xPos, info]
    exact screen.margin
  · rw [yPos, info]
    omega
  · have color : s'.writer.color = s.writer.color := by rw [scrolled.rest]
    have weight : s'.writer.weight = s.writer.weight := by rw [scrolled.rest]
    rw [info] at inside
    rw [lineByte_congr info color weight, scrolled.bytes i (by rwa [same]), same, visible_scroll screen.lines]
    have tail : ∀ lines : List (List Char), ∀ j, lines.tail.getD j [] = lines.getD (j + 1) [] :=
      fun lines j => by
      cases lines with
      | nil => rfl
      | cons _ _ => rfl
    split
    case isTrue up =>
      obtain ⟨row, column, lane⟩ := FrameBufferInfo.down screen.ready.fits i
      have there : i + LINE_HEIGHT *
        (s.writer.info.stride * s.writer.info.bytesPerPixel) < s.writer.info.size := by
        rw [FrameBufferInfo.size, ← FrameBufferInfo.rowOf_lt_iff screen.ready.fits, row]
        exact up
      rw [screen.bytes _ there, lineByte, lineByte, row, column, lane, tail,
        Nat.add_div_right _ (by decide), Nat.add_mod_right]
    case isFalse low =>
      have beyond : (visible above line
        (r + 1)).tail.length ≤ s.writer.info.rowOf i / LINE_HEIGHT := by
        rw [← visible_scroll screen.lines, visible_length ((Nat.le_succ r).trans screen.lines),
          Nat.le_div_iff_mul_le (by decide)]
        rw [LINE_HEIGHT] at bottom low ⊢
        omega
      rw [lineByte, List.getD_eq_default _ _ beyond, lineInk_nil, Option.elim_none]

/-! ## The text -/

/-- Text that is wrapped at a width: the lines that are complete, and the last one. -/
abbrev Wrapped := List (List Char) × List Char

def wrapNext (width : Nat) (text : Wrapped) (c : Char) : Wrapped :=
  if c = '\n' then (text.1 ++ [text.2], [])
  else if width < CHAR_WIDTH * text.2.length + CHAR_WIDTH then (text.1 ++ [text.2], [c])
  else (text.1, text.2 ++ [c])

def wrap (width : Nat) (strs : List String) : Wrapped :=
  (strs.flatMap String.toList).foldl (wrapNext width) ([], [])

/-- The screen shows the end of a text, and all of it until it has scrolled. -/
structure Shows (font : Font) (info : FrameBufferInfo) (s : ScrollingWriter) (text : Wrapped)
    (r : Nat) : Prop where
  geometry : s.info = info
  same : s.info = s.writer.info
  screen : Screen font s.writer text.1 text.2 r
  full : r = text.1.length ∨ info.height < LINE_HEIGHT * (r + 2)

/-- The glyph of a character is drawn at this place. -/
structure GlyphAt (font : Font) (info : FrameBufferInfo) (c : Char) (w : FrameBufferWriter) :
    Prop where
  drawn : ∃ w' : FrameBufferWriter,
    w'.drawChar font c = some { w with xPos := w.xPos - CHAR_WIDTH } ∧ w'.yPos = w.yPos
  row : w.yPos % LINE_HEIGHT = 0
  bottom : w.yPos + LINE_HEIGHT ≤ info.height

variable {info : FrameBufferInfo} {text : Wrapped}

/-- Before a line is left there is room for the next one. -/
theorem makeRoom {p : Prop} [Decidable p] (leaves : p) (shows : Shows font info s text r) : ∃ s' q,
    s.scrollIf (p ∧ s.info.height < s.writer.yPos + 32) = some s' ∧ s'.info = info ∧
      s'.info = s'.writer.info ∧
    Screen font s'.writer text.1 text.2 q ∧ LINE_HEIGHT * (q + 2) ≤ info.height ∧
    (q + 1 = text.1.length + 1 ∨ info.height < LINE_HEIGHT * (q + 1 + 2)) := by
  have y := shows.screen.yPos
  have bottom := shows.screen.bottom
  have height := shows.screen.ready.fits.height
  rw [← shows.same, shows.geometry] at bottom height
  rw [y, shows.geometry, ScrollingWriter.scrollIf]
  by_cases low : info.height < LINE_HEIGHT * r + 32
  · rw [if_pos ⟨leaves, low⟩]
    rw [LINE_HEIGHT] at y bottom low ⊢
    obtain ⟨q, rfl⟩ : ∃ q, r = q + 1 := ⟨r - 1, by omega⟩
    obtain ⟨s', run, scrolled, same, screen⟩ := scroll_screen shows.same shows.screen
    have info' : s'.info = info := by
      rw [scrolled.rest]
      exact shows.geometry
    exact ⟨s', q, run, info', same, screen, by omega, .inr (by omega)⟩
  · rw [if_neg fun both => low both.2]
    rw [LINE_HEIGHT] at y bottom low ⊢
    refine ⟨s, r, rfl, shows.geometry, shows.same, shows.screen, by omega, .inl ?_⟩
    have full := shows.full
    rw [LINE_HEIGHT] at full
    omega

/-- Each character goes where the wrapped text has it. -/
theorem writeNext_shows (fits : FontFits font) (shows : Shows font info s text r) (c : Char) :
    ∃ s' q,
    s.writeNext font c = some s' ∧ Shows font info s' (wrapNext info.width text c) q ∧
    (c ≠ '\n' → GlyphAt font info c s'.writer) := by
  have bottom := shows.screen.bottom
  rw [← shows.same, LINE_HEIGHT] at bottom
  have wide : CHAR_WIDTH ≤ info.width := by
    rw [← shows.geometry, shows.same]
    exact shows.screen.ready.fits.width
  have x := shows.screen.xPos
  have glyph : ∀ {s₁ : ScrollingWriter} {above : List (List Char)} {line : List Char} {q : Nat},
      s₁.info = info → s₁.info = s₁.writer.info →
      Screen font s₁.writer above line q → s₁.writer.xPos + CHAR_WIDTH ≤ info.width →
      (q = above.length ∨ info.height < LINE_HEIGHT * (q + 2)) →
      ∃ w, (s₁.writer.drawChar font c).bind
        (fun w => some { w with xPos := w.xPos + CHAR_WIDTH }) = some w ∧
        Shows font info { s₁ with writer := w } (above, line ++ [c]) q ∧ GlyphAt font info c w := by
    intro s₁ above line q info₁ same screen room full
    rw [← info₁, same] at room
    obtain ⟨w, drawn, yPos, kept, shown⟩ := drawChar_screen fits screen room c
    refine ⟨{ w with xPos := w.xPos + CHAR_WIDTH }, by rw [drawn, Option.bind_some],
      ⟨info₁, same.trans kept.symm, shown, full⟩, ⟨s₁.writer, ?_, yPos.symm⟩, ?_, ?_⟩
    · rw [drawn]
      simp only [Nat.add_sub_cancel]
    · rw [shown.yPos, Nat.mul_mod_right]
    · rw [← info₁, same, ← kept]
      exact shown.bottom
  have first : s.scrollIf (s.info.height < s.writer.yPos + 16) = some s := if_neg (by omega)
  rw [ScrollingWriter.writeNext, first, Option.bind_eq_bind, Option.bind_some, wrapNext]
  by_cases new : c = '\n' ∨ info.width < s.writer.xPos + 8
  · have leaves := new
    rw [← shows.geometry] at leaves
    obtain ⟨s₁, q, room, info₁, same, screen, space, full⟩ := makeRoom leaves shows
    rw [← info₁, same] at space
    have next := newline_screen screen space
    rw [room, Option.bind_eq_bind, Option.bind_some, writeChar]
    by_cases newline : c = '\n'
    · rw [if_pos newline, if_pos newline]
      refine ⟨_, q + 1, rfl, ⟨info₁, same, next, ?_⟩, fun other => absurd newline other⟩
      rwa [List.length_append, List.length_singleton]
    · have past := new.resolve_left newline
      have xPos : s₁.writer.xPos = s.writer.xPos := by rw [screen.xPos, x]
      have wraps : s₁.writer.info.width < s₁.writer.xPos + CHAR_WIDTH := by
        rw [← same, info₁, xPos]
        exact past
      have wraps' : info.width < CHAR_WIDTH * text.2.length + CHAR_WIDTH := by rwa [x] at past
      obtain ⟨w, drawn, shown, place⟩ :=
        @glyph { s₁ with writer := s₁.writer.newline } _ _ _ info₁ same next
        (by rw [FrameBufferWriter.newline, Nat.zero_add]; exact wide)
          (by rwa [List.length_append, List.length_singleton])
      rw [if_neg newline, if_neg newline, if_pos wraps, if_pos wraps']
      simp only [Option.bind_eq_bind] at drawn ⊢
      rw [drawn, Option.bind_some]
      exact ⟨_, q + 1, rfl, shown, fun _ => place⟩
  · obtain ⟨newline, inside⟩ := not_or.mp new
    have fits' : ¬ info.width < CHAR_WIDTH * text.2.length + CHAR_WIDTH := by rwa [x] at inside
    have stays : ¬ s.writer.info.width < s.writer.xPos + CHAR_WIDTH := by
      rw [← shows.same, shows.geometry]
      exact inside
    obtain ⟨w, drawn, shown, place⟩ :=
      glyph shows.geometry shows.same shows.screen (not_lt.mp inside) shows.full
    have second : s.scrollIf ((c = '\n' ∨ s.info.width < s.writer.xPos + 8) ∧
      s.info.height < s.writer.yPos + 32) = some s := by
      rw [shows.geometry]
      exact if_neg fun both => new both.1
    rw [second, if_neg newline, if_neg fits', Option.bind_eq_bind, Option.bind_some, writeChar,
      if_neg newline, if_neg stays]
    simp only [Option.bind_eq_bind] at drawn ⊢
    rw [drawn, Option.bind_some]
    exact ⟨_, r, rfl, shown, fun _ => place⟩

theorem writeAll_shows (fits : FontFits font) (shows : Shows font info s text r)
    (chars : List Char) : ∃ s' q,
    chars.foldlM (ScrollingWriter.writeNext font) s = some s' ∧
      Shows font info s' (chars.foldl (wrapNext info.width) text) q := by
  induction chars generalizing s text r with
  | nil => exact ⟨s, r, rfl, shows⟩
  | cons c chars ih =>
      obtain ⟨s₁, q, next, shows₁, -⟩ := writeNext_shows fits shows c
      obtain ⟨s', q', rest, shows'⟩ := ih shows₁
      exact ⟨s', q', by rw [List.foldlM_cons, next, Option.bind_eq_bind, Option.bind_some, rest],
        shows'⟩

theorem new_shows (font : Font) {buffer : Buffer} (fits : info.Fits)
    (room : info.size ≤ buffer.len) :
    ∃ s, ScrollingWriter.new buffer info = some s ∧ Shows font info s ([], []) 0 := by
  have cleared : buffer.fill 0 buffer.len 0 = some _ := if_pos ⟨Nat.zero_le _, le_rfl⟩
  refine ⟨_, by rw [ScrollingWriter.new, clear, FrameBufferWriter.new, cleared]; rfl, rfl, rfl,
    ⟨⟨fits, room⟩, rfl, Nat.zero_le _, rfl,
    le_trans (show 0 + LINE_HEIGHT ≤ 32 by decide) fits.height, le_rfl, fun i inside => ?_⟩,
      .inl rfl⟩
  have blank : ∀ j, (visible [] [] 0).getD j [] = ([] : List Char) := fun j => by cases j <;> rfl
  rw [lineByte, blank, lineInk_nil, Option.elim_none]
  exact if_pos ⟨Nat.zero_le i, lt_of_lt_of_le inside room⟩

/-- Whatever is written, nothing panics, the cursor stays on the screen, and the screen
    shows the last lines of the wrapped text. A glyph is drawn where the cursor is, and
    a scroll moves everything up by one line. -/
theorem console_shows {buffer : Buffer} (font : Font) (info : FrameBufferInfo)
    (fontFits : FontFits font) (fits : info.Fits)
    (room : info.size ≤ buffer.len) (strs : List String) : ∃ s₀ s r,
      ScrollingWriter.new buffer info = some s₀ ∧
        strs.foldlM (ScrollingWriter.writeStr font) s₀ = some s ∧
      Shows font info s (wrap info.width strs) r ∧
      (∀ c, ∃ s' q, s.writeNext font c = some s' ∧
        Shows font info s' (wrapNext info.width (wrap info.width strs) c) q ∧
        (c ≠ '\n' → GlyphAt font info c s'.writer)) ∧
      (LINE_HEIGHT ≤ s.writer.yPos → ∃ s', s.scroll = some s' ∧ Scrolled s s') := by
  obtain ⟨s₀, made, start⟩ := new_shows font fits room
  have flat : ∀ s : ScrollingWriter, strs.foldlM (ScrollingWriter.writeStr font) s =
      (strs.flatMap String.toList).foldlM (ScrollingWriter.writeNext font) s := by
    induction strs with
    | nil => exact fun _ => rfl
    | cons str strs ih =>
        intro s
        rw [List.foldlM_cons, List.flatMap_cons, List.foldlM_append, ScrollingWriter.writeStr]
        exact bind_congr ih
  obtain ⟨s, r, run, shows⟩ := writeAll_shows fontFits start (strs.flatMap String.toList)
  exact ⟨s₀, s, r, made, (flat s₀).trans run, shows, writeNext_shows fontFits shows,
    fun high => scroll_run shows.same shows.screen.ready high⟩

/-- A screen of two lines and a half, and a font with full glyphs. -/
def smallScreen : FrameBufferInfo := ⟨20, 40, 24, 3, .bgr⟩

def blockFont : Font := fun _ _ => some (List.replicate 16 (List.replicate 8 255))

theorem blockFont_fits : FontFits blockFont where
  space _ := rfl
  rows c weight glyph found := by
    obtain rfl := Option.some.inj found
    decide
  pixels c weight glyph found row member := by
    obtain rfl := Option.some.inj found
    rw [List.eq_of_mem_replicate member]
    decide

/-- Four lines are written, and there is room for two. -/
theorem console_shows_small : ∃ s₀ s r,
    ScrollingWriter.new ⟨smallScreen.size, fun _ => 7⟩ smallScreen = some s₀ ∧
    ["ab\n", "cde\nf"].foldlM (ScrollingWriter.writeStr blockFont) s₀ = some s ∧
    Shows blockFont smallScreen s (wrap smallScreen.width ["ab\n", "cde\nf"]) r := by
  obtain ⟨s₀, s, r, made, run, shows, -⟩ :=
    @console_shows ⟨smallScreen.size, fun _ => 7⟩ blockFont smallScreen
    blockFont_fits ⟨by decide, by decide, by decide, by decide, by decide⟩ le_rfl ["ab\n", "cde\nf"]
  exact ⟨s₀, s, r, made, run, shows⟩

end FerriOS.Console
