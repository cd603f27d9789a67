import Mathlib.Tactic

/-!
# The text console

What the console keeps of the screen it draws on is a `Geometry`: the firmware's mode, the smaller
screen that `scale` asked for, and the font and grid laid out over it. Pixels are put through `emit`
on a `Canvas`, which remembers whether one has been put outside the framebuffer; cells through `put`,
which remembers whether one was given that is not there. The firmware's answers and the allocator's
come with each call.
-/

namespace BaxOS.Vga

/-! ### The screen -/

/-- `struct font`. -/
structure Font where
  name : String
  height : ℕ
  scale : ℕ
  deriving DecidableEq

/-- `fonts`. -/
def fonts : List Font := [⟨"8", 8, 1⟩, ⟨"16", 16, 1⟩, ⟨"32", 16, 2⟩, ⟨"48", 16, 3⟩, ⟨"64", 16, 4⟩]

/-- `fonts[FONT_DEFAULT]`. -/
def fontDefault : Font := ⟨"16", 16, 1⟩

def glyphW : ℕ := 8

/-- The shapes of the 256 glyphs, a byte a scan line, the blank's all paper. -/
structure Shapes where
  line : ℕ → UInt8
  space : ∀ k < 16, line (0x20 * 16 + k) = 0

/-- Where each pixel of a smaller screen begins on the real one; `xmap` and `ymap`. -/
structure Maps where
  x : ℕ → ℕ
  y : ℕ → ℕ

/-- The screen, the font and the grid. -/
structure Geometry where
  realW : ℕ
  realH : ℕ
  fbWidth : ℕ
  fbHeight : ℕ
  maps : Option Maps
  redFirst : Bool
  glyphs : Font
  shapes : Shapes
  width : ℕ
  cells : ℕ

namespace Geometry

/-- `cell_w`. -/
def cellW (g : Geometry) : ℕ := glyphW * g.glyphs.scale

/-- `cell_h`. -/
def cellH (g : Geometry) : ℕ := g.glyphs.height * g.glyphs.scale

/-- `vga_height`. -/
def height (g : Geometry) : ℕ := if g.width = 0 then 0 else g.cells / g.width

/-- `palette`, turned round for a screen that wants red in the low byte. -/
def palette (g : Geometry) (i : ℕ) : UInt32 :=
  let c : UInt32 :=
    [0x000000, 0x0000AA, 0x00AA00, 0x00AAAA, 0xAA0000, 0xAA00AA, 0xAA5500, 0xAAAAAA,
      0x555555, 0x5555FF, 0x55FF55, 0x55FFFF, 0xFF5555, 0xFF55FF, 0xFFFF55, 0xFFFFFF].getD i 0
  if g.redFirst then
    (c &&& 0x00FF00) ||| (c >>> (16 : UInt32) &&& 0xFF) ||| (c &&& (0xFF : UInt32)) <<< (16 : UInt32)
  else c

end Geometry

/-- The framebuffer, whether a program has it, and whether a pixel was ever put outside it. -/
structure Canvas where
  fb : ℕ × ℕ → UInt32
  lent : Bool
  strayed : Bool

/-- A pixel put on the framebuffer. -/
def Canvas.set (g : Geometry) (c : Canvas) (d : (ℕ × ℕ) × UInt32) : Canvas :=
  { c with
    fb := Function.update c.fb d.1 d.2
    strayed := c.strayed || ! (d.1.1 < g.realW ∧ d.1.2 < g.realH) }

/-- The pixels `emit` writes, in its order. -/
def dots (g : Geometry) (x y : ℕ) (px : List UInt32) : List ((ℕ × ℕ) × UInt32) :=
  match g.maps with
  | none => (px.zipIdx x).map fun (rgb, i) => ((i, y), rgb)
  | some m =>
    (List.range' (m.y y) (m.y (y + 1) - m.y y)).flatMap fun ry =>
      (px.zipIdx x).flatMap fun (rgb, i) =>
        (List.range' (m.x i) (m.x (i + 1) - m.x i)).map fun rx => ((rx, ry), rgb)

/-- Whether `emit` reads past the end of a map, and so writes anywhere. -/
def pastMaps (g : Geometry) (x y : ℕ) (px : List UInt32) : Bool :=
  g.maps.isSome && px ≠ [] && ! (x + px.length ≤ g.fbWidth ∧ y < g.fbHeight)

/-- `emit`. -/
def emit (g : Geometry) (x y : ℕ) (px : List UInt32) (c : Canvas) : Canvas :=
  if c.lent then c
  else
    (dots g x y px).foldl (Canvas.set g) { c with strayed := c.strayed || pastMaps g x y px }

/-- One scan line of a glyph, each of its pixels drawn `scale` times across. -/
def glyphLine (g : Geometry) (bits : UInt8) (fg bg : UInt32) : List UInt32 :=
  (List.range glyphW).flatMap fun x =>
    List.replicate g.glyphs.scale (if bits &&& (0x80 >>> UInt8.ofNat x) ≠ 0 then fg else bg)

/-- The bits of scan line `y` of the glyph a cell shows: two of the shape's, where the font draws
each pair as one. -/
def glyphBits (g : Geometry) (value : UInt16) (y : ℕ) : UInt8 :=
  let glyph := (value &&& 0xFF).toNat * 16
  let step := 16 / g.glyphs.height
  g.shapes.line (glyph + y * step) ||| g.shapes.line (glyph + y * step + step - 1)

/-- The ink of a cell. -/
def ink (g : Geometry) (value : UInt16) : UInt32 := g.palette (value >>> 8 &&& 0x0F).toNat

/-- Its paper. -/
def paper (g : Geometry) (value : UInt16) : UInt32 := g.palette (value >>> 12 &&& 0x0F).toNat

/-- `draw_cell`. -/
def drawCell (g : Geometry) (i : ℕ) (value : UInt16) (c : Canvas) : Canvas :=
  let left := i % g.width * g.cellW
  let topY := i / g.width * g.cellH
  (List.range g.glyphs.height).foldl (fun c y =>
    let line := glyphLine g (glyphBits g value y) (ink g value) (paper g value)
    (List.range g.glyphs.scale).foldl (fun c again =>
      emit g left (topY + y * g.glyphs.scale + again) line c) c) c

/-- `fill_rows`: 64 pixels at a time. -/
def fillRows (g : Geometry) (y0 y1 : ℕ) (rgb : UInt32) (c : Canvas) : Canvas :=
  (List.range' y0 (y1 - y0)).foldl (fun c y =>
    (List.range ((g.fbWidth + 63) / 64)).foldl (fun c k =>
      emit g (64 * k) y (List.replicate (min 64 (g.fbWidth - 64 * k)) rgb) c) c) c

/-! ### The console -/

/-- Where in an escape sequence the bytes are. -/
inductive Escape
  | plain
  | afterEsc
  | inCsi
  | charset
  | inOsc
  deriving DecidableEq

/-- What is printed while it is captured, and how much there may be. -/
structure Capture where
  text : List UInt8
  max : ℕ

/-- The console. `strayedPut` says whether `put` was ever given a cell that is not on the screen. -/
structure Console where
  geo : Geometry
  canvas : Canvas
  wantW : ℕ := 0
  wantH : ℕ := 0
  screen : ℕ → UInt16
  strayedPut : Bool := false
  cursor : ℕ := 0
  color : UInt8 := 7
  pen : UInt8 := 7
  reversed : Bool := false
  regionTop : ℕ := 0
  regionBottom : ℕ
  wrapPending : Bool := false
  cursorShown : Bool := true
  inserting : Bool := false
  crOnLf : Bool := true
  escape : Escape := .plain
  charsetG1 : Bool := false
  graphics : Bool → Bool := fun _ => false
  shifted : Bool := false
  utf8 : UInt32 := 0
  utf8Left : ℕ := 0
  oscLeft : ℕ := 0
  savedCursor : ℕ := 0
  savedPen : UInt8 := 0
  params : ℕ → ℕ := fun _ => 0
  paramCount : ℕ := 0
  ofTerminal : Bool := false
  capture : Option Capture := none

namespace Console

/-- `cell`. -/
def cell (s : Console) (c : UInt8) : UInt16 := c.toUInt16 ||| s.color.toUInt16 <<< 8

/-- The bar that is the cursor: the bottom two scan lines of its cell, in the cell's ink. -/
def drawBar (g : Geometry) (i : ℕ) (value : UInt16) (c : Canvas) : Canvas :=
  (List.range' (g.cellH - 2 * g.glyphs.scale) (2 * g.glyphs.scale)).foldl (fun c y =>
    emit g (i % g.width * g.cellW) (i / g.width * g.cellH + y)
      (List.replicate g.cellW (ink g value)) c) c

/-- `cursor_draw`. -/
def cursorDraw (s : Console) (on : Bool) : Console :=
  if s.geo.cells ≤ s.cursor ∨ (on ∧ ! s.cursorShown) then s
  else if ! on then
    { s with canvas := drawCell s.geo s.cursor (s.screen s.cursor) s.canvas }
  else { s with canvas := drawBar s.geo s.cursor (s.screen s.cursor) s.canvas }

/-- `put`. -/
def put (s : Console) (i : ℕ) (value : UInt16) : Console :=
  let s := { s with strayedPut := s.strayedPut || ! (i < s.geo.cells) }
  if s.screen i ≠ value then
    { s with
      screen := Function.update s.screen i value
      canvas := drawCell s.geo i value s.canvas }
  else s

/-- Cells put one after the other, each as it is when its turn comes. -/
def putAll (s : Console) (is : List ℕ) (value : Console → ℕ → UInt16) : Console :=
  is.foldl (fun s i => s.put i (value s i)) s

/-- `vga_clear`. -/
def clear (s : Console) : Console :=
  let canvas := fillRows s.geo 0 s.geo.fbHeight (s.geo.palette (s.color >>> 4 &&& 0x0F).toNat) s.canvas
  let blank := s.cell 0x20
  let s :=
    { s with
      canvas, screen := fun i => if i < s.geo.cells then blank else s.screen i, cursor := 0 }
  s.cursorDraw true

/-! ### What a byte draws -/

/-- `cp437`: code page 437's upper half. -/
def cp437 : List ℕ :=
  [0x00C7, 0x00FC, 0x00E9, 0x00E2, 0x00E4, 0x00E0, 0x00E5, 0x00E7,
    0x00EA, 0x00EB, 0x00E8, 0x00EF, 0x00EE, 0x00EC, 0x00C4, 0x00C5,
    0x00C9, 0x00E6, 0x00C6, 0x00F4, 0x00F6, 0x00F2, 0x00FB, 0x00F9,
    0x00FF, 0x00D6, 0x00DC, 0x00A2, 0x00A3, 0x00A5, 0x20A7, 0x0192,
    0x00E1, 0x00ED, 0x00F3, 0x00FA, 0x00F1, 0x00D1, 0x00AA, 0x00BA,
    0x00BF, 0x2310, 0x00AC, 0x00BD, 0x00BC, 0x00A1, 0x00AB, 0x00BB,
    0x2591, 0x2592, 0x2593, 0x2502, 0x2524, 0x2561, 0x2562, 0x2556,
    0x2555, 0x2563, 0x2551, 0x2557, 0x255D, 0x255C, 0x255B, 0x2510,
    0x2514, 0x2534, 0x252C, 0x251C, 0x2500, 0x253C, 0x255E, 0x255F,
    0x255A, 0x2554, 0x2569, 0x2566, 0x2560, 0x2550, 0x256C, 0x2567,
    0x2568, 0x2564, 0x2565, 0x2559, 0x2558, 0x2552, 0x2553, 0x256B,
    0x256A, 0x2518, 0x250C, 0x2588, 0x2584, 0x258C, 0x2590, 0x2580,
    0x03B1, 0x00DF, 0x0393, 0x03C0, 0x03A3, 0x03C3, 0x00B5, 0x03C4,
    0x03A6, 0x0398, 0x03A9, 0x03B4, 0x221E, 0x03C6, 0x03B5, 0x2229,
    0x2261, 0x00B1, 0x2265, 0x2264, 0x2320, 0x2321, 0x00F7, 0x2248,
    0x00B0, 0x2219, 0x00B7, 0x221A, 0x207F, 0x00B2, 0x25A0, 0x00A0]

/-- `alike`: characters drawn with a glyph meant for another. -/
def alike : List (ℕ × UInt8) :=
  [(0x256D, 0xDA), (0x256E, 0xBF), (0x256F, 0xD9), (0x2570, 0xC0),
    (0x2501, 0xC4), (0x2503, 0xB3), (0x2022, 0x07), (0x25CF, 0x07),
    (0x2190, 0x1B), (0x2191, 0x18), (0x2192, 0x1A), (0x2193, 0x19),
    (0x25B6, 0x10), (0x25C0, 0x11), (0x2666, 0x04), (0x25C6, 0x04),
    (0x2026, 0xFA), (0x2713, 0xFB)]

/-- `vt100_lines`: the VT100's line drawing set, from `_` on. -/
def vt100Lines : List UInt8 :=
  [0x20, 0x04, 0xB1, 0x3F, 0x3F, 0x3F, 0x3F, 0xF8, 0xF1, 0xB0, 0xCE, 0xD9, 0xBF, 0xDA,
    0xC0, 0xC5, 0x2D, 0x2D, 0xC4, 0x2D, 0x5F, 0xC3, 0xB4, 0xC1, 0xC2, 0xB3, 0xF3, 0xF2,
    0xE3, 0xD8, 0x9C, 0xFE]

/-- `glyph_for`. -/
def glyphFor (u : UInt32) : UInt8 :=
  if u < 0x80 then u.toUInt8
  else
    match cp437.findIdx? (· = u.toNat) with
    | some i => UInt8.ofNat (0x80 + i)
    | none => ((alike.find? (·.1 = u.toNat)).map (·.2)).getD 0x3F

/-- `vga_text_reset`. -/
def textReset (s : Console) : Console :=
  { s with graphics := fun _ => false, shifted := false, utf8Left := 0 }

/-- `glyph`: the glyph a byte draws, 0 while a character is still being gathered. -/
def glyph (s : Console) (c : UInt8) : Console × UInt8 :=
  if c < 0x80 then
    ({ s with utf8Left := 0 },
      if s.graphics s.shifted ∧ 0x5F ≤ c ∧ c ≤ 0x7E then vt100Lines.getD (c - 0x5F).toNat 0 else c)
  else if 0xC0 ≤ c then
    let left := if 0xF0 ≤ c then 3 else if 0xE0 ≤ c then 2 else 1
    ({ s with utf8Left := left, utf8 := c.toUInt32 &&& (0x3F >>> UInt32.ofNat left) }, 0)
  else if s.utf8Left = 0 then (s, 0x3F)
  else
    let utf8 := s.utf8 <<< 6 ||| (c &&& 0x3F).toUInt32
    ({ s with utf8, utf8Left := s.utf8Left - 1 },
      if 0 < s.utf8Left - 1 then 0 else glyphFor utf8)

/-! ### Escape sequences -/

/-- `PARAMS`. -/
def paramsMax : ℕ := 4

/-- `ansi_colors`. -/
def ansiColors (n : ℕ) : UInt8 := [0, 4, 2, 6, 1, 5, 3, 7].getD n 0

/-- One parameter of a colour sequence: the colour and whether it is reversed. -/
def graphic (color : UInt8) (reversed : Bool) (n : ℕ) : UInt8 × Bool :=
  if n = 0 then (7, false)
  else if n = 39 then ((color &&& 0xF0) ||| 7, reversed)
  else if n = 49 then (color &&& 0x0F, reversed)
  else if n = 1 then (color ||| 0x08, reversed)
  else if n = 22 then (color &&& ~~~ 0x08, reversed)
  else if 30 ≤ n ∧ n ≤ 37 then ((color &&& 0xF8) ||| ansiColors (n - 30), reversed)
  else if 90 ≤ n ∧ n ≤ 97 then ((color &&& 0xF0) ||| ansiColors (n - 90) ||| 0x08, reversed)
  else if 40 ≤ n ∧ n ≤ 47 then ((color &&& 0x0F) ||| ansiColors (n - 40) <<< (4 : UInt8), reversed)
  else if 100 ≤ n ∧ n ≤ 107 then
    ((color &&& 0x0F) ||| (ansiColors (n - 100) ||| (0x08 : UInt8)) <<< (4 : UInt8), reversed)
  else if n = 7 ∨ n = 27 then (color, n = 7)
  else (color, reversed)

/-- `set_graphics`. -/
def setGraphics (s : Console) : Console :=
  let ns := if s.paramCount = 0 then [0] else (List.range s.paramCount).map s.params
  let (pen, reversed) := ns.foldl (fun (c, r) n => graphic c r n) (s.pen, s.reversed)
  { s with
    pen, reversed
    color := if reversed then (pen >>> 4 &&& 0x0F) ||| (pen &&& (0x0F : UInt8)) <<< (4 : UInt8) else pen
    params := if s.paramCount = 0 then Function.update s.params 0 0 else s.params
    paramCount := if s.paramCount = 0 then 1 else s.paramCount }

/-- Whether the sequence has a parameter there that is not 0. -/
def given (s : Console) (k : ℕ) : Bool := k < s.paramCount ∧ 0 < s.params k

/-- The cells `erase` blanks, from the first up to the last. -/
def erased (s : Console) (what : UInt8) : ℕ × ℕ :=
  let row := s.cursor - s.cursor % s.geo.width
  let past := s.cursor + (s.geo.width - s.cursor % s.geo.width)
  if what = 0x4A then
    if 0 < s.paramCount ∧ s.params 0 = 1 then (0, s.cursor + 1) else (s.cursor, s.geo.cells)
  else if 0 < s.paramCount ∧ s.params 0 = 1 then (row, s.cursor + 1)
  else if 0 < s.paramCount ∧ s.params 0 = 2 then (row, past)
  else (s.cursor, past)

/-- `erase`. -/
def erase (s : Console) (what : UInt8) : Console :=
  if what = 0x4A ∧ 0 < s.paramCount ∧ 2 ≤ s.params 0 then s.clear
  else
    let (first, last) := s.erased what
    s.putAll (List.range' first (last - first)) fun s _ => s.cell 0x20

/-- `count_param`. -/
def countParam (s : Console) : ℕ := if s.given 0 then s.params 0 else 1

/-- `scroll`. -/
def scroll (s : Console) (top bottom : ℕ) (up : Bool) : Console :=
  let width := s.geo.width
  let first := top * width
  let last := bottom * width
  if up then
    s.putAll (List.range' first (last - first)) fun s i =>
      if i + width < last then s.screen (i + width) else s.cell 0x20
  else
    s.putAll (List.range' first (last - first)).reverse fun s i =>
      if first + width ≤ i then s.screen (i - width) else s.cell 0x20

/-- `line_feed`. -/
def lineFeed (s : Console) : Console :=
  let row := s.cursor / s.geo.width
  if row + 1 = s.regionBottom then s.scroll s.regionTop s.regionBottom true
  else if row + 1 < s.geo.height then { s with cursor := s.cursor + s.geo.width }
  else s

/-- `reverse_feed`. -/
def reverseFeed (s : Console) : Console :=
  let row := s.cursor / s.geo.width
  if row = s.regionTop then s.scroll s.regionTop s.regionBottom false
  else if 0 < row then { s with cursor := s.cursor - s.geo.width }
  else s

/-- Where `move_by` takes the cursor. -/
def movedBy (s : Console) (what : UInt8) : ℕ :=
  let width := s.geo.width
  let row := s.cursor / width
  let column := s.cursor % width
  let n := s.countParam
  if what = 0x41 then (if n < row then row - n else 0) * width + column
  else if what = 0x42 then
    (if row + n < s.geo.height then row + n else s.geo.height - 1) * width + column
  else if what = 0x43 then row * width + if column + n < width then column + n else width - 1
  else if what = 0x44 then row * width + if n < column then column - n else 0
  else if what = 0x47 then row * width + if n - 1 < width then n - 1 else width - 1
  else s.cursor

/-- `move_by`. -/
def moveBy (s : Console) (what : UInt8) : Console := { s with cursor := s.movedBy what }

/-- `shift_line`. -/
def shiftLine (s : Console) (opening : Bool) (n : ℕ) : Console :=
  let start := s.cursor
  let past := s.cursor - s.cursor % s.geo.width + s.geo.width
  let n := min n (past - start)
  if opening then
    let s := s.putAll (List.range' (start + n) (past - (start + n))).reverse fun s i =>
      s.screen (i - n)
    s.putAll (List.range' start n) fun s _ => s.cell 0x20
  else
    s.putAll (List.range' start (past - start)) fun s i =>
      if i + n < past then s.screen (i + n) else s.cell 0x20

/-- Where `move_cursor` takes it, if that is on the screen. -/
def movedTo (s : Console) : ℕ :=
  let row := if s.given 0 then s.params 0 - 1 else 0
  let column := if s.given 1 then s.params 1 - 1 else 0
  row * s.geo.width + column

/-- `move_cursor`. -/
def moveCursor (s : Console) : Console :=
  if s.movedTo < s.geo.cells then { s with cursor := s.movedTo } else s

/-- `shift_rows`. -/
def shiftRows (s : Console) (opening : Bool) : Console :=
  let row := s.cursor / s.geo.width
  if row < s.regionTop ∨ s.regionBottom ≤ row then s
  else
    let n := min s.countParam (s.regionBottom - row)
    let s := (List.range n).foldl (fun s _ => s.scroll row s.regionBottom (! opening)) s
    { s with cursor := s.cursor - s.cursor % s.geo.width }

/-- `erase_chars`. -/
def eraseChars (s : Console) : Console :=
  let past := s.cursor - s.cursor % s.geo.width + s.geo.width
  s.putAll (List.range' s.cursor (min s.countParam (past - s.cursor))) fun s _ => s.cell 0x20

/-- `set_region`. -/
def setRegion (s : Console) : Console :=
  let rows := s.geo.height
  let top := if s.given 0 then s.params 0 - 1 else 0
  let bottom := if s.given 1 ∧ s.params 1 ≤ rows then s.params 1 else rows
  if top + 1 < bottom then { s with regionTop := top, regionBottom := bottom, cursor := 0 } else s

/-- `to_row`. -/
def toRow (s : Console) : Console :=
  let row := s.countParam - 1
  if row < s.geo.height then { s with cursor := row * s.geo.width + s.cursor % s.geo.width } else s

/-- The letter after an escape. -/
def afterEscape (s : Console) (c : UInt8) : Console :=
  let s :=
    { s with
      escape :=
        if c = 0x5B then .inCsi else if c = 0x28 ∨ c = 0x29 then .charset
        else if c = 0x5D then .inOsc else .plain
      charsetG1 := c = 0x29
      params := Function.update s.params 0 0
      paramCount := 0
      ofTerminal := false
      oscLeft := 0 }
  if c = 0x37 then { s with savedCursor := s.cursor, savedPen := s.pen }
  else if c = 0x38 then
    { s with
      cursor := if s.savedCursor < s.geo.cells then s.savedCursor else 0
      pen := s.savedPen
      reversed := false
      color := s.savedPen
      wrapPending := false }
  else if c = 0x4D then { s.reverseFeed with wrapPending := false }
  else if c = 0x44 then { s.lineFeed with wrapPending := false }
  else if c = 0x45 then
    { ({ s with cursor := s.cursor - s.cursor % s.geo.width } : Console).lineFeed with
      wrapPending := false }
  else if c = 0x63 then
    clear
      { s.textReset with
        pen := 7
        color := 7
        reversed := false
        inserting := false
        cursorShown := true
        regionTop := 0
        regionBottom := s.geo.height }
  else s

/-- A byte of the palette's sequence. -/
def inPalette (s : Console) (c : UInt8) : Console :=
  if 0 < s.oscLeft then
    { s with
      oscLeft := s.oscLeft - 1
      escape := if s.oscLeft - 1 = 0 then .plain else s.escape }
  else if c = 0x50 then { s with oscLeft := 7 }
  else if c = 0x52 ∨ c = 0x07 ∨ c = 0x1B then
    { s with escape := if c = 0x1B then .afterEsc else .plain }
  else s

/-- The letter that ends a sequence. -/
def finalLetter (s : Console) (c : UInt8) : Console :=
  if c = 0x6D then s.setGraphics
  else if c = 0x4A ∨ c = 0x4B then s.erase c
  else if c = 0x48 ∨ c = 0x66 then s.moveCursor
  else if c = 0x41 ∨ c = 0x42 ∨ c = 0x43 ∨ c = 0x44 ∨ c = 0x47 then s.moveBy c
  else if c = 0x40 then s.shiftLine true s.countParam
  else if c = 0x50 then s.shiftLine false s.countParam
  else if c = 0x4C ∨ c = 0x4D then s.shiftRows (c = 0x4C)
  else if c = 0x58 then s.eraseChars
  else if c = 0x64 then s.toRow
  else if c = 0x72 then s.setRegion
  else if c = 0x68 ∨ c = 0x6C then
    if 0 < s.paramCount ∧ s.params 0 = 4 then { s with inserting := c = 0x68 } else s
  else s

/-- A byte of a sequence after `escape [`. -/
def inSequence (s : Console) (c : UInt8) : Console :=
  if c = 0x3F ∨ c = 0x3C ∨ c = 0x3D ∨ c = 0x3E then { s with ofTerminal := true }
  else if 0x30 ≤ c ∧ c ≤ 0x39 then
    let s := if s.paramCount = 0 then
      { s with paramCount := 1, params := Function.update s.params 0 0 } else s
    if s.paramCount ≤ paramsMax then
      { s with
        params := Function.update s.params (s.paramCount - 1)
          ((s.params (s.paramCount - 1) * 10 + (c - 0x30).toNat) % 2 ^ 32) }
    else s
  else if c = 0x3B then
    if s.paramCount < paramsMax then
      { s with params := Function.update s.params s.paramCount 0, paramCount := s.paramCount + 1 }
    else s
  else
    let s := { s with escape := .plain, wrapPending := false }
    if s.ofTerminal then
      let s := { s with ofTerminal := false }
      if (c = 0x68 ∨ c = 0x6C) ∧ 0 < s.paramCount ∧ s.params 0 = 25 then
        ({ s.cursorDraw false with cursorShown := c = 0x68 } : Console).cursorDraw true
      else s
    else s.finalLetter c

/-- `escaped`: `none` where the byte is not of a sequence. -/
def escaped (s : Console) (c : UInt8) : Option Console :=
  match s.escape with
  | .plain => if c = 0x1B then some { s with escape := .afterEsc } else none
  | .afterEsc => some (s.afterEscape c)
  | .charset =>
    some { s with escape := .plain, graphics := Function.update s.graphics s.charsetG1 (c = 0x30) }
  | .inOsc => some (s.inPalette c)
  | .inCsi => some (s.inSequence c)

/-! ### Output -/

/-- A character of text. -/
def printed (s : Console) (c : UInt8) : Console :=
  let s := if s.wrapPending then
    { ({ s with cursor := s.cursor - s.cursor % s.geo.width } : Console).lineFeed with
      wrapPending := false } else s
  let (s, g) := s.glyph c
  if g = 0 then s
  else
    let s := if s.inserting then s.shiftLine true 1 else s
    let s := s.put s.cursor (s.cell g)
    if s.cursor % s.geo.width = s.geo.width - 1 then { s with wrapPending := true }
    else { s with cursor := s.cursor + 1 }

/-- A byte that is not of a sequence, between the cursor's going and its coming back. -/
def typeset (s : Console) (c : UInt8) : Console :=
  let row := s.cursor - s.cursor % s.geo.width
  if c = 0x0A then
    ({ s with cursor := if s.crOnLf then row else s.cursor, wrapPending := false } : Console).lineFeed
  else if c = 0x0D then { s with cursor := row, wrapPending := false }
  else if c = 0x08 then
    { s with
      cursor := if 0 < s.cursor % s.geo.width ∧ ! s.wrapPending then s.cursor - 1 else s.cursor
      wrapPending := false }
  else if c = 0x09 then
    let last := row + s.geo.width - 1
    { s with
      cursor := if (s.cursor / 8 + 1) * 8 < last then (s.cursor / 8 + 1) * 8 else last
      wrapPending := false }
  else if c = 0x0E ∨ c = 0x0F then { s with shifted := c = 0x0E }
  else if c < 0x20 ∨ c = 0x7F then s
  else s.printed c

/-- `vga_putc`. -/
def putc (s : Console) (c : UInt8) : Console :=
  match s.capture with
  | some cap =>
    match s.escaped c with
    | some s' => s'
    | none =>
      if cap.text.length + 1 < cap.max then
        { s with capture := some { cap with text := cap.text ++ [c] } }
      else s
  | none =>
    match s.escaped c with
    | some s' =>
      if s'.cursor ≠ s.cursor then
        let moved := ({ s' with cursor := s.cursor } : Console).cursorDraw false
        ({ moved with cursor := s'.cursor } : Console).cursorDraw true
      else s'
    | none => ((s.cursorDraw false).typeset c).cursorDraw true

/-- `vga_put`. -/
def putAt (s : Console) (column row : ℕ) (value : UInt16) : Console :=
  let i := row * s.geo.width + column
  if column < s.geo.width ∧ i < s.geo.cells then s.put i value else s

/-- `repaint`. -/
def repaint (s : Console) : Console :=
  let s := (List.range s.geo.cells).foldl (fun s i =>
    let value := s.screen i
    ({ s with screen := Function.update s.screen i (~~~ value) } : Console).put i value) s
  s.cursorDraw true

/-! ### Modes and fonts -/

/-- `use_font`. -/
def useFont (s : Console) (f : Font) : Console := { s with geo := { s.geo with glyphs := f } }

/-- `layout`; `mem` is whether the memory can be had. -/
def layout (s : Console) (mem : Bool) : Console × Bool :=
  let columns := s.geo.fbWidth / s.geo.cellW
  let rows := s.geo.fbHeight / s.geo.cellH
  if columns < 40 ∨ rows < 8 then (s, false)
  else if ! mem then (s, false)
  else
    let geo := { s.geo with width := columns, cells := columns * rows }
    let s :=
      { s with
        geo, regionTop := 0, regionBottom := rows, wrapPending := false, screen := fun _ => 0
        canvas := fillRows geo 0 geo.fbHeight (geo.palette 0) s.canvas }
    (s.clear, true)

/-- Where each pixel of `n` begins when they are drawn over `out` of `real`, in the middle. The
numbers are of 32 bits and the places of 16. -/
def mapped (real out n i : ℕ) : ℕ :=
  ((real + 2 ^ 32 - out) % 2 ^ 32 / 2 + i * out % 2 ^ 32 / n) % 2 ^ 16

/-- How much of the real screen a smaller one is drawn over, its shape kept. -/
def outSize (realW realH w h : ℕ) : ℕ × ℕ :=
  if realH * w % 2 ^ 32 < realW * h % 2 ^ 32 then (w * realH % 2 ^ 32 / h, realH)
  else (realW, h * realW % 2 ^ 32 / w)

/-- Whether `fit` scales. -/
def Scales (s : Console) (mem : Bool) : Prop :=
  s.wantW ≠ 0 ∧ s.wantW ≤ s.geo.realW ∧ s.wantH ≤ s.geo.realH ∧
    (s.wantW ≠ s.geo.realW ∨ s.wantH ≠ s.geo.realH) ∧ mem = true

instance (s : Console) (mem : Bool) : Decidable (s.Scales mem) := inferInstanceAs (Decidable (_ ∧ _))

/-- `fit`. -/
def fit (s : Console) (mem : Bool) : Console :=
  let g := s.geo
  if s.Scales mem then
    let out := outSize g.realW g.realH s.wantW s.wantH
    { s with
      geo :=
        { g with
          maps := some
            { x := mapped g.realW out.1 s.wantW
              y := mapped g.realH out.2 s.wantH }
          fbWidth := s.wantW
          fbHeight := s.wantH }
      canvas :=
        { s.canvas with
          fb := fun p => if p.1 < g.realW ∧ p.2 < g.realH then g.palette 0 else s.canvas.fb p } }
  else { s with geo := { g with maps := none, fbWidth := g.realW, fbHeight := g.realH } }

/-- A screen of the firmware's, with whatever is in its framebuffer. -/
structure Mode where
  width : ℕ
  height : ℕ
  redFirst : Bool
  fb : ℕ × ℕ → UInt32

/-- `take_screen`. -/
def takeScreen (s : Console) (m : Mode) : Console :=
  { s with
    geo :=
      { s.geo with realW := m.width, realH := m.height, redFirst := s.geo.redFirst || m.redFirst }
    canvas := { s.canvas with fb := m.fb } }

/-- `parse_size`, from what has been read of the first number, or of the second. -/
def parseSize : Option ℕ → ℕ → List UInt8 → Option (ℕ × ℕ)
  | first, value, c :: rest =>
    if 0x30 ≤ c ∧ c ≤ 0x39 then
      let value := value * 10 + (c - 0x30).toNat
      if 8192 < value then none else parseSize first value rest
    else if c = 0x78 ∧ first = none ∧ value ≠ 0 then parseSize (some value) 0 rest
    else none
  | some w, value, [] => if value ≠ 0 then some (w, value) else none
  | none, _, [] => none

/-- What the firmware has: the modes it offers that can be drawn in, whether it takes one, and the
screen there is then. -/
structure Firmware where
  modes : List (Option (ℕ × ℕ))
  takes : Bool
  now : Mode

/-- `vga_set_mode`: `none` where there is no firmware any more. -/
def setMode (s : Console) (name : List UInt8) (gop : Option Firmware) (maps mem : Bool) : Console :=
  match gop, parseSize none 0 name with
  | some fw, some size =>
    if some size ∈ fw.modes ∧ fw.takes then (((s.takeScreen fw.now).fit maps).layout mem).1 else s
  | _, _ => s

/-- `vga_follow`, where the firmware's mode is not the one taken. -/
def follow (s : Console) (now : Mode) (maps mem : Bool) : Console :=
  let width := s.geo.width
  let height := s.geo.cells / if s.geo.width ≠ 0 then s.geo.width else 1
  let s := (s.takeScreen now).fit maps
  if s.geo.fbWidth / s.geo.cellW = width ∧ s.geo.fbHeight / s.geo.cellH = height then s.repaint
  else (s.layout mem).1

/-- The size `vga_set_scale` is given the name of, 0 for `off`, if the real screen has room for it. -/
def sizeNamed (s : Console) (name : List UInt8) : Option (ℕ × ℕ) :=
  if name = [0x6F, 0x66, 0x66] then some (0, 0)
  else (parseSize none 0 name).filter fun (w, h) => w ≤ s.geo.realW ∧ h ≤ s.geo.realH

/-- `vga_set_scale`. -/
def setScale (s : Console) (name : List UInt8) (maps mem maps' mem' : Bool) : Console :=
  match s.sizeNamed name with
  | none => s
  | some (w, h) =>
    let (s', ok) := (({ s with wantW := w, wantH := h } : Console).fit maps).layout mem
    if ok then s'
    else ((({ s' with wantW := s.wantW, wantH := s.wantH } : Console).fit maps').layout mem').1

/-- `vga_set_font`. -/
def setFont (s : Console) (name : String) (mem : Bool) : Console :=
  match fonts.find? (·.name = name) with
  | none => s
  | some f =>
    let (s', ok) := (s.useFont f).layout mem
    if ok then s' else s'.useFont s.geo.glyphs

/-- `vga_start`, on a screen of the firmware's: `none` where no console fits in it. -/
def start (shapes : Shapes) (m : Mode) (mem : Bool) : Option Console :=
  let s : Console :=
    { geo :=
        { realW := m.width, realH := m.height, fbWidth := m.width, fbHeight := m.height
          maps := none, redFirst := m.redFirst, glyphs := fontDefault, shapes, width := 0
          cells := 0 }
      canvas := { fb := m.fb, lent := false, strayed := false }
      screen := fun _ => 0
      regionBottom := 0 }
  let (s, ok) := s.layout mem
  if ok then some s else none

/-! ### Runs -/

/-- A call of the console's. -/
inductive Call
  | putc (c : UInt8)
  | put (column row : ℕ) (value : UInt16)
  | clear
  | setFont (name : String) (mem : Bool)
  | setScale (name : List UInt8) (maps mem maps' mem' : Bool)
  | setMode (name : List UInt8) (gop : Option Firmware) (maps mem : Bool)
  | follow (now : Mode) (maps mem : Bool)

/-- What a call makes of the console. -/
def step (s : Console) : Call → Console
  | .putc c => s.putc c
  | .put column row value => s.putAt column row value
  | .clear => s.clear
  | .setFont name mem => s.setFont name mem
  | .setScale name maps mem maps' mem' => s.setScale name maps mem maps' mem'
  | .setMode name gop maps mem => s.setMode name gop maps mem
  | .follow now maps mem => s.follow now maps mem

end Console

end BaxOS.Vga
