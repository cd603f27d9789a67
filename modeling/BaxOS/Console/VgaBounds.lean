import BaxOS.Console.VgaDrawn
import BaxOS.Lib.Runs

/-!
# The console never draws outside the screen

Every control sequence leaves the cursor and the scrolling region on the grid, and what it draws inside
the framebuffer. What can go wrong is that the screen is cleared while a character holds the cursor in
the last column, and that a grid is kept, its memory not had, over a screen it does not fit
(`run_within`).
-/

namespace BaxOS.Vga
namespace Console

variable {s s' s'' : Console} {i n : ℕ}
variable {c : UInt8} {maps mem : Bool}

/-- Where the cursor, the region and a wrap that is pending are, and that nothing was put outside. -/
structure Within (s : Console) : Prop where
  cursor : s.cursor < s.geo.cells
  region : s.regionTop < s.regionBottom
  bottom : s.regionBottom ≤ s.geo.height
  wrap : s.wrapPending = true → s.cursor % s.geo.width = s.geo.width - 1
  puts : s.strayedPut = false
  pixels : s.canvas.strayed = false

/-! ### Drawing, and nothing else -/

/-- Cells and pixels may be others; nothing else is, and nothing was put outside. -/
structure Draws (s s' : Console) : Prop where
  eq : s' = { s with screen := s'.screen, canvas := s'.canvas, strayedPut := s'.strayedPut }
  canvas : s.canvas.Keeps s'.canvas
  puts : s'.strayedPut = s.strayedPut

theorem Draws.geo (h : Draws s s') : s'.geo = s.geo := by
  rw [h.eq]

theorem Draws.cursor (h : Draws s s') : s'.cursor = s.cursor := by
  rw [h.eq]

theorem Draws.refl (s : Console) : Draws s s := ⟨rfl, .refl _, rfl⟩

theorem Draws.trans (h : Draws s s') (h' : Draws s' s'') : Draws s s'' where
  eq := by
    rw [h'.eq, h.eq]
  canvas := h.canvas.trans h'.canvas
  puts := h'.puts.trans h.puts

/-- Drawing with the cursor taken to be elsewhere. -/
theorem Draws.at_cursor (h : Draws { s with cursor := i } s') : Draws s { s' with cursor := s.cursor } where
  eq := by
    rw [h.eq]
  canvas := h.canvas
  puts := h.puts

theorem put_draws (hg : s.geo.Sound) (hi : i < s.geo.cells) (value : UInt16) :
    Draws s (s.put i value) := by
  unfold put
  simp only [hi, decide_true, Bool.not_true, Bool.or_false]
  split_ifs
  · exact ⟨rfl, hg.drawCell_keeps hi value s.canvas, rfl⟩
  · exact .refl s

theorem putAll_draws (hg : s.geo.Sound) {is : List ℕ} (h : ∀ i ∈ is, i < s.geo.cells)
    (value : Console → ℕ → UInt16) : Draws s (s.putAll is value) := by
  induction is generalizing s with
  | nil => exact .refl s
  | cons i is ih =>
    have h1 := put_draws hg (h i List.mem_cons_self) (value s i)
    refine h1.trans (ih (s := s.put i (value s i)) (by rwa [h1.geo]) ?_)
    intro j hj
    rw [h1.geo]
    exact h j (List.mem_cons_of_mem i hj)

theorem cursorDraw_draws (hg : s.geo.Sound) (on : Bool) : Draws s (s.cursorDraw on) := by
  unfold cursorDraw
  split_ifs with h hon
  · exact .refl s
  · exact ⟨rfl, hg.drawCell_keeps (by omega) _ _, rfl⟩
  · exact ⟨rfl, hg.drawBar_keeps (by omega) _ _, rfl⟩

/-! ### Rows and columns -/

theorem cell_lt (hg : s.geo.Sound) {row column : ℕ} (hr : row < s.geo.height)
    (hc : column < s.geo.width) : row * s.geo.width + column < s.geo.cells := by
  have h := Nat.mul_le_mul_right s.geo.width (Nat.succ_le_of_lt hr)
  rw [Nat.succ_mul] at h
  rw [hg.cells_eq]
  omega

theorem cell_split (s : Console) (i : ℕ) : i / s.geo.width * s.geo.width + i % s.geo.width = i :=
  Nat.div_add_mod' i s.geo.width

/-- The end of a cell's row is on the screen. -/
theorem row_end_le (hg : s.geo.Sound) (hi : i < s.geo.cells) :
    i - i % s.geo.width + s.geo.width ≤ s.geo.cells := by
  have hsplit := s.cell_split i
  have hr := Nat.mul_le_mul_right s.geo.width (Nat.succ_le_of_lt (hg.row_lt hi))
  rw [Nat.succ_mul] at hr
  rw [hg.cells_eq]
  omega

theorem scroll_draws (hg : s.geo.Sound) {bottom : ℕ} (hb : bottom ≤ s.geo.height) (top : ℕ)
    (up : Bool) : Draws s (s.scroll top bottom up) := by
  have hlast : bottom * s.geo.width ≤ s.geo.cells := by
    rw [hg.cells_eq]
    exact Nat.mul_le_mul_right _ hb
  unfold scroll
  simp only
  split_ifs
  · refine putAll_draws hg ?_ _
    intro i hi
    rw [List.mem_range'_1] at hi
    omega
  · refine putAll_draws hg ?_ _
    intro i hi
    rw [List.mem_reverse, List.mem_range'_1] at hi
    omega

theorem shiftLine_draws (hg : s.geo.Sound) (hc : s.cursor < s.geo.cells) (opening : Bool) (n : ℕ) :
    Draws s (s.shiftLine opening n) := by
  have hpast := row_end_le hg hc
  unfold shiftLine
  simp only
  set past := s.cursor - s.cursor % s.geo.width + s.geo.width with hp
  set k := min n (past - s.cursor) with hk
  have hstart : s.cursor + k ≤ past := by
    have := Nat.mod_lt s.cursor hg.width_pos
    omega
  split_ifs
  · have h1 : Draws s (s.putAll (List.range' (s.cursor + k) (past - (s.cursor + k))).reverse
        fun s i => s.screen (i - k)) := by
      refine putAll_draws hg ?_ _
      intro i hi
      rw [List.mem_reverse, List.mem_range'_1] at hi
      omega
    refine h1.trans (putAll_draws (by rwa [h1.geo]) ?_ _)
    intro i hi
    rw [h1.geo]
    rw [List.mem_range'_1] at hi
    omega
  · refine putAll_draws hg ?_ _
    intro i hi
    rw [List.mem_range'_1] at hi
    omega

theorem eraseChars_draws (hg : s.geo.Sound) (hc : s.cursor < s.geo.cells) : Draws s s.eraseChars := by
  have hpast := row_end_le hg hc
  refine putAll_draws hg ?_ _
  intro i hi
  rw [List.mem_range'_1] at hi
  omega

/-- The cells erased end on the screen, and the cursor's is one of them. -/
theorem erased_spec (hg : s.geo.Sound) (hc : s.cursor < s.geo.cells) (what : UInt8) :
    (s.erased what).1 ≤ s.cursor ∧ s.cursor < (s.erased what).2 ∧
      (s.erased what).2 ≤ s.geo.cells := by
  have hpast := row_end_le hg hc
  have hcol := hg.column_lt s.cursor
  have hmod := Nat.mod_le s.cursor s.geo.width
  unfold erased
  simp only
  split_ifs
  all_goals
    simp only
    omega

/-! ### What every sequence keeps -/

/-- `Within`, but for the wrap. -/
structure Placed (s : Console) : Prop where
  sound : s.geo.Sound
  cursor : s.cursor < s.geo.cells
  region : s.regionTop < s.regionBottom
  bottom : s.regionBottom ≤ s.geo.height
  puts : s.strayedPut = false
  pixels : s.canvas.strayed = false

/-- A character holds the cursor in the last column only. -/
def Wrapped (s : Console) : Prop :=
  s.wrapPending = true → s.cursor % s.geo.width = s.geo.width - 1

theorem Placed.within (h : s.Placed) (hw : s.Wrapped) : s.Within :=
  ⟨h.cursor, h.region, h.bottom, hw, h.puts, h.pixels⟩

theorem Placed.draws (h : s.Placed) (hd : Draws s s') : s'.Placed where
  sound := by
    rw [hd.geo]
    exact h.sound
  cursor := by
    rw [hd.cursor, hd.geo]
    exact h.cursor
  region := by
    rw [hd.eq]
    exact h.region
  bottom := by
    rw [hd.eq]
    exact h.bottom
  puts := hd.puts.trans h.puts
  pixels := hd.canvas.strayed.trans h.pixels

theorem Wrapped.draws (h : s.Wrapped) (hd : Draws s s') : s'.Wrapped := by
  unfold Wrapped
  rw [hd.geo, hd.cursor, hd.eq]
  exact h

/-- Moving the cursor about the screen. -/
theorem Placed.move (h : s.Placed) {i : ℕ} (hi : i < s.geo.cells) :
    ({ s with cursor := i } : Console).Placed :=
  ⟨h.sound, hi, h.region, h.bottom, h.puts, h.pixels⟩

theorem Placed.cursorDraw (h : s.Placed) (on : Bool) : (s.cursorDraw on).Placed :=
  h.draws (cursorDraw_draws h.sound on)

theorem Placed.rowStart (h : s.Placed) :
    ({ s with cursor := s.cursor - s.cursor % s.geo.width } : Console).Placed :=
  h.move ((Nat.sub_le _ _).trans_lt h.cursor)

theorem Placed.lineFeed (h : s.Placed) : s.lineFeed.Placed := by
  have hsplit := s.cell_split s.cursor
  unfold Console.lineFeed
  simp only
  split_ifs with h1 h2
  · exact h.draws (scroll_draws h.sound h.bottom _ _)
  · apply h.move
    have := cell_lt h.sound h2 (h.sound.column_lt s.cursor)
    rw [Nat.add_mul, one_mul] at this
    omega
  · exact h

theorem Placed.reverseFeed (h : s.Placed) : s.reverseFeed.Placed := by
  unfold Console.reverseFeed
  simp only
  split_ifs with h1 h2
  · exact h.draws (scroll_draws h.sound h.bottom _ _)
  · exact h.move ((Nat.sub_le _ _).trans_lt h.cursor)
  · exact h

theorem movedBy_lt (h : s.Placed) (what : UInt8) : s.movedBy what < s.geo.cells := by
  have hr := h.sound.row_lt h.cursor
  have hc := h.sound.column_lt s.cursor
  have hw := h.sound.width_pos
  have hh := h.sound.height_pos
  unfold movedBy
  simp only
  split_ifs
  all_goals first
    | exact h.cursor
    | exact cell_lt h.sound (by omega) (by omega)

theorem Placed.moveCursor (h : s.Placed) : s.moveCursor.Placed := by
  unfold Console.moveCursor
  split_ifs with hlt
  · exact h.move hlt
  · exact h

theorem Placed.toRow (h : s.Placed) : s.toRow.Placed := by
  unfold Console.toRow
  simp only
  split_ifs with hlt
  · exact h.move (cell_lt h.sound hlt (h.sound.column_lt s.cursor))
  · exact h

theorem Placed.setRegion (h : s.Placed) : s.setRegion.Placed := by
  unfold Console.setRegion
  simp only
  have hb : (if s.given 1 ∧ s.params 1 ≤ s.geo.height then s.params 1 else s.geo.height) ≤
      s.geo.height := by
    split_ifs with hg
    · exact hg.2
    · exact le_rfl
  by_cases hlt : (if s.given 0 then s.params 0 - 1 else 0) + 1 <
      if s.given 1 ∧ s.params 1 ≤ s.geo.height then s.params 1 else s.geo.height
  · rw [if_pos hlt]
    exact ⟨h.sound, (Nat.zero_le _).trans_lt h.cursor, Nat.lt_of_succ_lt hlt, hb, h.puts, h.pixels⟩
  · rw [if_neg hlt]
    exact h

theorem clear_draws (hg : s.geo.Sound) :
    Draws { s with cursor := 0 } s.clear := by
  have hfill := fillRows_keeps hg.mapped 0 le_rfl (s.geo.palette (s.color >>> 4 &&& 0x0F).toNat) s.canvas
  have hd : Draws { s with cursor := 0 }
      { s with
        canvas := fillRows s.geo 0 s.geo.fbHeight (s.geo.palette (s.color >>> 4 &&& 0x0F).toNat) s.canvas
        screen := fun i => if i < s.geo.cells then s.cell 0x20 else s.screen i
        cursor := 0 } := ⟨rfl, hfill, rfl⟩
  exact hd.trans (cursorDraw_draws (s := { s with canvas := _, screen := _, cursor := 0 }) hg true)

theorem cells_pos (hg : s.geo.Sound) : 0 < s.geo.cells := by
  rw [hg.cells_eq]
  exact Nat.mul_pos hg.height_pos hg.width_pos

theorem Placed.clear (h : s.Placed) : s.clear.Placed :=
  (h.move (cells_pos h.sound)).draws (clear_draws h.sound)

/-- Erasing, unless it is the whole screen that goes. -/
theorem erase_eq {what : UInt8} (h : ¬ (what = 0x4A ∧ 0 < s.paramCount ∧ 2 ≤ s.params 0)) :
    s.erase what =
      s.putAll (List.range' (s.erased what).1 ((s.erased what).2 - (s.erased what).1))
        fun s _ => s.cell 0x20 := if_neg h

theorem erase_draws (h : s.Placed) {what : UInt8}
    (hall : ¬ (what = 0x4A ∧ 0 < s.paramCount ∧ 2 ≤ s.params 0)) : Draws s (s.erase what) := by
  obtain ⟨-, -, hlast⟩ := erased_spec h.sound h.cursor what
  rw [erase_eq hall]
  refine putAll_draws h.sound ?_ _
  intro i hi
  rw [List.mem_range'_1] at hi
  omega

theorem Placed.erase (h : s.Placed) (what : UInt8) : (s.erase what).Placed := by
  by_cases hall : what = 0x4A ∧ 0 < s.paramCount ∧ 2 ≤ s.params 0
  · rw [show s.erase what = s.clear from if_pos hall]
    exact h.clear
  · exact h.draws (erase_draws h hall)

/-- Rows scrolled, one after another. -/
theorem scrolls_draws (h : s.Placed) (row : ℕ) (up : Bool) (l : List ℕ) :
    Draws s (l.foldl (fun s _ => s.scroll row s.regionBottom up) s) := by
  induction l generalizing s with
  | nil => exact .refl s
  | cons a l ih =>
    have hd := scroll_draws h.sound h.bottom row up
    exact hd.trans (ih (h.draws hd))

theorem Placed.shiftRows (h : s.Placed) (opening : Bool) : (s.shiftRows opening).Placed := by
  unfold Console.shiftRows
  simp only
  split_ifs with hrow
  · exact h
  · exact (h.draws (scrolls_draws h _ _ _)).rowStart

/-- The letters that end a sequence, one after another. -/
theorem finalLetter_cases {P : Console → Prop} (s : Console) (c : UInt8)
    (graphics : c = 0x6D → P s.setGraphics) (erases : c = 0x4A ∨ c = 0x4B → P (s.erase c))
    (places : c = 0x48 ∨ c = 0x66 → P s.moveCursor)
    (moves : c = 0x41 ∨ c = 0x42 ∨ c = 0x43 ∨ c = 0x44 ∨ c = 0x47 → P (s.moveBy c))
    (shifts : c = 0x40 ∨ c = 0x50 → P (s.shiftLine (c = 0x40) s.countParam))
    (rows : c = 0x4C ∨ c = 0x4D → P (s.shiftRows (c = 0x4C)))
    (blanks : c = 0x58 → P s.eraseChars) (row : c = 0x64 → P s.toRow)
    (region : c = 0x72 → P s.setRegion)
    (inserts : c = 0x68 ∨ c = 0x6C → P { s with inserting := c = 0x68 })
    (others : c ∉ [0x48, 0x66, 0x41, 0x42, 0x43, 0x44, 0x47, 0x4C, 0x4D, 0x64, 0x72] → P s) :
    P (s.finalLetter c) := by
  unfold finalLetter
  by_cases h1 : c = 0x6D
  · rw [if_pos h1]
    exact graphics h1
  rw [if_neg h1]
  by_cases h2 : c = 0x4A ∨ c = 0x4B
  · rw [if_pos h2]
    exact erases h2
  rw [if_neg h2]
  by_cases h3 : c = 0x48 ∨ c = 0x66
  · rw [if_pos h3]
    exact places h3
  rw [if_neg h3]
  by_cases h4 : c = 0x41 ∨ c = 0x42 ∨ c = 0x43 ∨ c = 0x44 ∨ c = 0x47
  · rw [if_pos h4]
    exact moves h4
  rw [if_neg h4]
  by_cases h5 : c = 0x40
  · rw [if_pos h5]
    simpa [h5] using shifts (Or.inl h5)
  rw [if_neg h5]
  by_cases h6 : c = 0x50
  · rw [if_pos h6]
    simpa [h6] using shifts (Or.inr h6)
  rw [if_neg h6]
  by_cases h7 : c = 0x4C ∨ c = 0x4D
  · rw [if_pos h7]
    exact rows h7
  rw [if_neg h7]
  by_cases h8 : c = 0x58
  · rw [if_pos h8]
    exact blanks h8
  rw [if_neg h8]
  by_cases h9 : c = 0x64
  · rw [if_pos h9]
    exact row h9
  rw [if_neg h9]
  by_cases h10 : c = 0x72
  · rw [if_pos h10]
    exact region h10
  rw [if_neg h10]
  have hnone : c ∉ [0x48, 0x66, 0x41, 0x42, 0x43, 0x44, 0x47, 0x4C, 0x4D, 0x64, 0x72] := by
    rw [not_or] at h3 h7
    simp only [not_or] at h4
    simp [h3, h4, h7, h9, h10]
  split_ifs with h11
  · exact inserts h11
  · exact others hnone
  · exact others hnone

/-! ### What holds the cursor in the last column -/

section wrapPending

variable (s : Console)

@[simp] theorem put_wrapPending (i : ℕ) (value : UInt16) :
    (s.put i value).wrapPending = s.wrapPending := by
  unfold put
  simp only
  split_ifs <;> rfl

@[simp] theorem putAll_wrapPending (is : List ℕ) (value : Console → ℕ → UInt16) :
    (s.putAll is value).wrapPending = s.wrapPending := by
  induction is generalizing s with
  | nil => rfl
  | cons i is ih => exact (ih _).trans (put_wrapPending s i _)

@[simp] theorem cursorDraw_wrapPending (on : Bool) :
    (s.cursorDraw on).wrapPending = s.wrapPending := by
  unfold cursorDraw
  split_ifs <;> rfl

@[simp] theorem clear_wrapPending : s.clear.wrapPending = s.wrapPending := by
  simp [clear]

@[simp] theorem scroll_wrapPending (top bottom : ℕ) (up : Bool) :
    (s.scroll top bottom up).wrapPending = s.wrapPending := by
  unfold scroll
  split_ifs <;> simp

@[simp] theorem lineFeed_wrapPending : s.lineFeed.wrapPending = s.wrapPending := by
  unfold lineFeed
  simp only
  split_ifs <;> simp

@[simp] theorem reverseFeed_wrapPending : s.reverseFeed.wrapPending = s.wrapPending := by
  unfold reverseFeed
  simp only
  split_ifs <;> simp

@[simp] theorem erase_wrapPending (what : UInt8) : (s.erase what).wrapPending = s.wrapPending := by
  unfold erase
  split_ifs <;> simp

@[simp] theorem shiftLine_wrapPending (opening : Bool) (n : ℕ) :
    (s.shiftLine opening n).wrapPending = s.wrapPending := by
  unfold shiftLine
  simp only
  split_ifs <;> simp

@[simp] theorem shiftRows_wrapPending (opening : Bool) :
    (s.shiftRows opening).wrapPending = s.wrapPending := by
  unfold shiftRows
  simp only
  split_ifs
  · rfl
  · exact List.foldlRecOn (motive := fun s' => s'.wrapPending = s.wrapPending) _ _ rfl
      fun s' h _ _ => (scroll_wrapPending s' _ _ _).trans h

@[simp] theorem glyph_wrapPending (c : UInt8) : (s.glyph c).1.wrapPending = s.wrapPending := by
  unfold glyph
  split_ifs <;> rfl

theorem finalLetter_wrapPending (c : UInt8) : (s.finalLetter c).wrapPending = s.wrapPending := by
  apply finalLetter_cases (P := fun t => t.wrapPending = s.wrapPending)
  case graphics | moves | inserts | others => exact fun _ => rfl
  case erases => exact fun _ => erase_wrapPending s c
  case places =>
    intro _
    unfold moveCursor
    split_ifs <;> rfl
  case shifts => exact fun _ => shiftLine_wrapPending s _ _
  case rows => exact fun _ => shiftRows_wrapPending s _
  case blanks => exact fun _ => putAll_wrapPending s _ _
  case row =>
    intro _
    unfold toRow
    simp only
    split_ifs <;> rfl
  case region =>
    intro _
    unfold setRegion
    simp only
    split_ifs <;> rfl

end wrapPending

/-! ### What a byte does -/

/-- The console as a sequence begins with the letter after an escape. -/
def opened (s : Console) (c : UInt8) : Console :=
  { s with
    escape :=
      if c = 0x5B then .inCsi else if c = 0x28 ∨ c = 0x29 then .charset
      else if c = 0x5D then .inOsc else .plain
    charsetG1 := c = 0x29
    params := Function.update s.params 0 0
    paramCount := 0
    ofTerminal := false
    oscLeft := 0 }

/-- The console as it is reset, before it is cleared. -/
def renewed (s : Console) (c : UInt8) : Console :=
  { (s.opened c).textReset with
    pen := 7
    color := 7
    reversed := false
    inserting := false
    cursorShown := true
    regionTop := 0
    regionBottom := s.geo.height }

/-- The cursor at the start of its row. -/
def atRowStart (s : Console) : Console := { s with cursor := s.cursor - s.cursor % s.geo.width }

/-- A sequence at its last byte. -/
def ended (s : Console) : Console := { s with escape := .plain, wrapPending := false }

/-- The letters after an escape, one after another. -/
theorem afterEscape_cases {P : Console → Prop} (s : Console) (c : UInt8)
    (saves : c = 0x37 → P { s.opened c with savedCursor := s.cursor, savedPen := s.pen })
    (restores : c = 0x38 → P
      { s.opened c with
        cursor := if s.savedCursor < s.geo.cells then s.savedCursor else 0
        pen := s.savedPen
        reversed := false
        color := s.savedPen
        wrapPending := false })
    (up : c = 0x4D → P { (s.opened c).reverseFeed with wrapPending := false })
    (down : c = 0x44 → P { (s.opened c).lineFeed with wrapPending := false })
    (next : c = 0x45 → P { (s.opened c).atRowStart.lineFeed with wrapPending := false })
    (resets : c = 0x63 → P (s.renewed c).clear)
    (others : c ∉ [0x38, 0x4D, 0x44, 0x45] → P (s.opened c)) : P (s.afterEscape c) := by
  unfold Console.afterEscape
  simp only
  by_cases h1 : c = 0x37
  · rw [if_pos h1]
    exact saves h1
  rw [if_neg h1]
  by_cases h2 : c = 0x38
  · rw [if_pos h2]
    exact restores h2
  rw [if_neg h2]
  by_cases h3 : c = 0x4D
  · rw [if_pos h3]
    exact up h3
  rw [if_neg h3]
  by_cases h4 : c = 0x44
  · rw [if_pos h4]
    exact down h4
  rw [if_neg h4]
  by_cases h5 : c = 0x45
  · rw [if_pos h5]
    exact next h5
  rw [if_neg h5]
  by_cases h6 : c = 0x63
  · rw [if_pos h6]
    exact resets h6
  · rw [if_neg h6]
    exact others (by simp [h2, h3, h4, h5])

/-- The bytes of a sequence: its numbers, the terminal's own settings, and the letter at its end. -/
theorem inSequence_cases {P : Console → Prop} (s : Console) (c : UInt8)
    (gathers : c < 0x40 → ∀ params paramCount ofTerminal, P { s with params, paramCount, ofTerminal })
    (shows : P (({ ({ s.ended with ofTerminal := false } : Console).cursorDraw false with
      cursorShown := c = 0x68 } : Console).cursorDraw true))
    (settles : s.ofTerminal = true → P { s.ended with ofTerminal := false })
    (ends : s.ofTerminal = false → P (s.ended.finalLetter c)) : P (s.inSequence c) := by
  unfold inSequence
  by_cases h1 : c = 0x3F ∨ c = 0x3C ∨ c = 0x3D ∨ c = 0x3E
  · rw [if_pos h1]
    refine gathers ?_ s.params s.paramCount true
    rcases h1 with rfl | rfl | rfl | rfl <;> decide
  rw [if_neg h1]
  by_cases h2 : 0x30 ≤ c ∧ c ≤ 0x39
  · rw [if_pos h2]
    simp only
    have hc : c < 0x40 := UInt8.lt_of_le_of_lt h2.2 (by decide)
    split_ifs <;> exact gathers hc _ _ s.ofTerminal
  rw [if_neg h2]
  by_cases h3 : c = 0x3B
  · rw [if_pos h3]
    have hc : c < 0x40 := h3 ▸ by decide
    split_ifs <;> exact gathers hc _ _ s.ofTerminal
  rw [if_neg h3]
  simp only
  by_cases h4 : s.ofTerminal = true
  · rw [if_pos h4]
    split_ifs
    · exact shows
    · exact settles h4
  · rw [if_neg h4]
    exact ends (Bool.eq_false_iff.2 h4)

/-- A byte of a sequence, wherever in it. -/
theorem escaped_cases {P : Console → Prop} (hs : s.escaped c = some s')
    (begins : s.escape = .plain → P { s with escape := .afterEsc })
    (letter : s.escape = .afterEsc → P (s.afterEscape c))
    (charset : s.escape = .charset → ∀ graphics, P { s with escape := .plain, graphics })
    (palette : s.escape = .inOsc → ∀ escape oscLeft, P { s with escape, oscLeft })
    (sequence : s.escape = .inCsi → P (s.inSequence c)) : P s' := by
  unfold Console.escaped at hs
  cases hesc : s.escape with
  | plain =>
    simp only [hesc] at hs
    by_cases h1 : c = 0x1B
    · rw [if_pos h1] at hs
      obtain rfl := Option.some.inj hs
      exact begins hesc
    · rw [if_neg h1] at hs
      exact absurd hs (by simp)
  | afterEsc =>
    simp only [hesc, Option.some.injEq] at hs
    exact hs ▸ letter hesc
  | charset =>
    simp only [hesc, Option.some.injEq] at hs
    exact hs ▸ charset hesc _
  | inOsc =>
    simp only [hesc, Option.some.injEq] at hs
    rw [← hs]
    unfold inPalette
    split_ifs <;> exact palette hesc _ _
  | inCsi =>
    simp only [hesc, Option.some.injEq] at hs
    exact hs ▸ sequence hesc

/-- What a byte of text does. -/
theorem typeset_cases {P : Console → Prop} (hg : s.geo.Sound) (hc : s.cursor < s.geo.cells) (c : UInt8)
    (feeds : ∀ i < s.geo.cells, P ({ s with cursor := i, wrapPending := false } : Console).lineFeed)
    (moves : ∀ i < s.geo.cells, P { s with cursor := i, wrapPending := false })
    (shifts : ∀ shifted, P { s with shifted }) (nothing : P s) (prints : P (s.printed c)) :
    P (s.typeset c) := by
  have hstart : s.cursor - s.cursor % s.geo.width < s.geo.cells := (Nat.sub_le _ _).trans_lt hc
  have hpast := row_end_le hg hc
  have hwidth := hg.width_pos
  unfold Console.typeset
  simp only
  by_cases h1 : c = 0x0A
  · rw [if_pos h1]
    apply feeds
    split_ifs
    · exact hstart
    · exact hc
  rw [if_neg h1]
  by_cases h2 : c = 0x0D
  · rw [if_pos h2]
    exact moves _ hstart
  rw [if_neg h2]
  by_cases h3 : c = 0x08
  · rw [if_pos h3]
    apply moves
    split_ifs
    · exact (Nat.sub_le _ _).trans_lt hc
    · exact hc
  rw [if_neg h3]
  by_cases h4 : c = 0x09
  · rw [if_pos h4]
    apply moves
    split_ifs <;> omega
  rw [if_neg h4]
  by_cases h5 : c = 0x0E ∨ c = 0x0F
  · rw [if_pos h5]
    exact shifts _
  rw [if_neg h5]
  split_ifs
  · exact nothing
  · exact prints

/-- What `vga_putc` does with a byte: it is of a sequence, the cursor drawn again where that has moved
it, or it is text. -/
theorem putc_cases {P : Console → Prop} (s : Console) (c : UInt8)
    (taken : ∀ s', s.escaped c = some s' → s.capture.isSome → P s') (caught : ∀ capture, P { s with capture })
    (moved : ∀ s', s.escaped c = some s' → s'.cursor ≠ s.cursor →
      P (({ ({ s' with cursor := s.cursor } : Console).cursorDraw false with
        cursor := s'.cursor } : Console).cursorDraw true))
    (stayed : ∀ s', s.escaped c = some s' → s'.cursor = s.cursor → P s')
    (text : P (((s.cursorDraw false).typeset c).cursorDraw true)) : P (s.putc c) := by
  unfold Console.putc
  cases hcap : s.capture with
  | some cap =>
    cases hs : s.escaped c with
    | some s' => exact taken s' hs (by rw [hcap]; rfl)
    | none =>
      simp only
      split_ifs
      · exact caught _
      · exact caught s.capture
  | none =>
    cases hs : s.escaped c with
    | some s' =>
      simp only
      split_ifs with hmoved
      · exact moved s' hs hmoved
      · exact stayed s' hs (not_not.1 hmoved)
    | none => exact text

/-- The cursor taken off where it was, and drawn where it is. -/
theorem redrawn_draws (hg : s.geo.Sound) (i : ℕ) :
    Draws s (({ ({ s with cursor := i } : Console).cursorDraw false with
      cursor := s.cursor } : Console).cursorDraw true) := by
  have hd := (cursorDraw_draws (s := { s with cursor := i }) hg false).at_cursor
  refine hd.trans (cursorDraw_draws ?_ true)
  rw [hd.geo]
  exact hg

/-! ### Every byte keeps the cursor on the screen -/

/-- The same screen, cursor and region. -/
theorem Placed.congr (h : s.Placed) (hgeo : s'.geo = s.geo) (hcur : s'.cursor = s.cursor)
    (htop : s'.regionTop = s.regionTop) (hbot : s'.regionBottom = s.regionBottom)
    (hput : s'.strayedPut = s.strayedPut) (hcan : s'.canvas = s.canvas) : s'.Placed := by
  refine ⟨?_, ?_, ?_, ?_, ?_, ?_⟩
  · rw [hgeo]
    exact h.sound
  · rw [hgeo, hcur]
    exact h.cursor
  · rw [htop, hbot]
    exact h.region
  · rw [hgeo, hbot]
    exact h.bottom
  · rw [hput]
    exact h.puts
  · rw [hcan]
    exact h.pixels

theorem Placed.finalLetter (h : s.Placed) (c : UInt8) : (s.finalLetter c).Placed := by
  apply finalLetter_cases
  case graphics => exact fun _ => h.congr rfl rfl rfl rfl rfl rfl
  case erases => exact fun _ => h.erase c
  case places => exact fun _ => h.moveCursor
  case moves => exact fun _ => h.move (movedBy_lt h c)
  case shifts => exact fun _ => h.draws (shiftLine_draws h.sound h.cursor _ _)
  case rows => exact fun _ => h.shiftRows _
  case blanks => exact fun _ => h.draws (eraseChars_draws h.sound h.cursor)
  case row => exact fun _ => h.toRow
  case region => exact fun _ => h.setRegion
  case inserts => exact fun _ => h.congr rfl rfl rfl rfl rfl rfl
  case others => exact fun _ => h

theorem Placed.ended (h : s.Placed) : s.ended.Placed := h.congr rfl rfl rfl rfl rfl rfl

theorem Placed.opened (h : s.Placed) (c : UInt8) : (s.opened c).Placed :=
  h.congr rfl rfl rfl rfl rfl rfl

theorem Placed.renewed (h : s.Placed) (c : UInt8) : (s.renewed c).Placed :=
  ⟨h.sound, h.cursor, h.sound.height_pos, le_rfl, h.puts, h.pixels⟩

theorem Placed.inSequence (h : s.Placed) (c : UInt8) : (s.inSequence c).Placed := by
  apply inSequence_cases
  case gathers => exact fun _ _ _ _ => h.congr rfl rfl rfl rfl rfl rfl
  case shows =>
    apply Placed.cursorDraw
    have hown : ({ s.ended with ofTerminal := false } : Console).Placed :=
      h.congr rfl rfl rfl rfl rfl rfl
    exact (hown.cursorDraw false).congr rfl rfl rfl rfl rfl rfl
  case settles => exact fun _ => h.congr rfl rfl rfl rfl rfl rfl
  case ends => exact fun _ => h.ended.finalLetter c

theorem Placed.afterEscape (h : s.Placed) (c : UInt8) : (s.afterEscape c).Placed := by
  have ho := h.opened c
  apply afterEscape_cases
  case saves => exact fun _ => h.congr rfl rfl rfl rfl rfl rfl
  case restores =>
    intro _
    refine ⟨h.sound, ?_, h.region, h.bottom, h.puts, h.pixels⟩
    simp only
    split_ifs with hsaved
    · exact hsaved
    · exact cells_pos h.sound
  case up => exact fun _ => ho.reverseFeed.congr rfl rfl rfl rfl rfl rfl
  case down => exact fun _ => ho.lineFeed.congr rfl rfl rfl rfl rfl rfl
  case next => exact fun _ => ho.rowStart.lineFeed.congr rfl rfl rfl rfl rfl rfl
  case resets => exact fun _ => (h.renewed c).clear
  case others => exact fun _ => ho

theorem Placed.escaped (h : s.Placed) (hs : s.escaped c = some s') : s'.Placed := by
  apply escaped_cases hs
  case begins => exact fun _ => h.congr rfl rfl rfl rfl rfl rfl
  case letter => exact fun _ => h.afterEscape c
  case charset => exact fun _ _ => h.congr rfl rfl rfl rfl rfl rfl
  case palette => exact fun _ _ _ => h.congr rfl rfl rfl rfl rfl rfl
  case sequence => exact fun _ => h.inSequence c

/-- What holds of a console between calls. -/
structure Inv (s : Console) : Prop where
  placed : s.Placed
  wrapped : s.Wrapped

theorem Wrapped.of_false (hw : s.wrapPending = false) : s.Wrapped :=
  fun hc => absurd (hw.symm.trans hc) (by decide)

theorem Inv.of_unwrapped (h : s.Placed) (hw : s.wrapPending = false) : s.Inv := ⟨h, .of_false hw⟩

/-- The wrap made: the cursor at the start of the line below. -/
theorem Placed.wrapNow (h : s.Placed) :
    ({ ({ s with cursor := s.cursor - s.cursor % s.geo.width } : Console).lineFeed with
      wrapPending := false } : Console).Placed :=
  h.rowStart.lineFeed.congr rfl rfl rfl rfl rfl rfl

theorem Placed.glyph (h : s.Placed) (c : UInt8) : (s.glyph c).1.Placed := by
  unfold Console.glyph
  split_ifs <;> exact h.congr rfl rfl rfl rfl rfl rfl

/-- A glyph set, and the cursor after it. -/
theorem Placed.setGlyph (h : s.Placed) (hw : s.wrapPending = false) (value : UInt16) :
    Inv (if s.cursor % s.geo.width = s.geo.width - 1 then
        { s.put s.cursor value with wrapPending := true }
      else { s.put s.cursor value with cursor := s.cursor + 1 }) := by
  have hd := put_draws h.sound h.cursor value
  have hp := h.draws hd
  split_ifs with hlast
  · refine ⟨hp.congr rfl rfl rfl rfl rfl rfl, fun _ => ?_⟩
    simp only
    rw [hd.cursor, hd.geo]
    exact hlast
  · refine .of_unwrapped (hp.move ?_) ?_
    · have hsplit := s.cell_split s.cursor
      have hcol := h.sound.column_lt s.cursor
      have hlt := cell_lt h.sound (h.sound.row_lt h.cursor)
        (show s.cursor % s.geo.width + 1 < s.geo.width by omega)
      rw [hd.geo]
      omega
    · simp only
      rw [put_wrapPending]
      exact hw

/-- A character printed leaves the console right, whether or not it was. -/
theorem Placed.printed (h : s.Placed) (c : UInt8) : (s.printed c).Inv := by
  unfold Console.printed
  simp only
  set t : Console := if s.wrapPending = true then
    { ({ s with cursor := s.cursor - s.cursor % s.geo.width } : Console).lineFeed with
      wrapPending := false } else s with ht
  have hpt : t.Placed ∧ t.wrapPending = false := by
    rw [ht]
    split_ifs with hw
    · exact ⟨h.wrapNow, rfl⟩
    · exact ⟨h, Bool.eq_false_iff.2 hw⟩
  clear_value t
  have hg := hpt.1.glyph c
  have hgw : (t.glyph c).1.wrapPending = false := by rw [glyph_wrapPending, hpt.2]
  generalize t.glyph c = q at hg hgw
  obtain ⟨u, v⟩ := q
  simp only at hg hgw ⊢
  by_cases hv : v = 0
  · rw [if_pos hv]
    exact .of_unwrapped hg hgw
  rw [if_neg hv]
  have hins : ∀ w : Console, Draws u w → w.wrapPending = false →
      Inv (if (w.put w.cursor (w.cell v)).cursor % (w.put w.cursor (w.cell v)).geo.width =
          (w.put w.cursor (w.cell v)).geo.width - 1 then
        { w.put w.cursor (w.cell v) with wrapPending := true }
        else { w.put w.cursor (w.cell v) with
          cursor := (w.put w.cursor (w.cell v)).cursor + 1 }) := by
    intro w hd hw
    have hp := hg.draws hd
    have hd' := put_draws hp.sound hp.cursor (w.cell v)
    rw [hd'.cursor, hd'.geo]
    exact hp.setGlyph hw (w.cell v)
  by_cases hi : u.inserting = true
  · rw [if_pos hi]
    exact hins _ (shiftLine_draws hg.sound hg.cursor true 1) (by rw [shiftLine_wrapPending, hgw])
  · rw [if_neg hi]
    exact hins u (.refl u) hgw

/-- The cursor moved, and no wrap to come. -/
theorem Placed.moveUnwrapped (h : s.Placed) {i : ℕ} (hi : i < s.geo.cells) :
    ({ s with cursor := i, wrapPending := false } : Console).Placed :=
  (h.move hi).congr rfl rfl rfl rfl rfl rfl

theorem Placed.typeset (h : s.Placed) (c : UInt8) : (s.typeset c).Placed := by
  apply typeset_cases h.sound h.cursor
  case feeds => exact fun i hi => (h.moveUnwrapped hi).lineFeed
  case moves => exact fun i hi => h.moveUnwrapped hi
  case shifts => exact fun _ => h.congr rfl rfl rfl rfl rfl rfl
  case nothing => exact h
  case prints => exact (h.printed c).placed

/-- **Every byte** keeps the cursor on the screen. -/
theorem Placed.putc (h : s.Placed) (c : UInt8) : (s.putc c).Placed := by
  apply putc_cases
  case taken => exact fun s' hs _ => h.escaped hs
  case caught => exact fun _ => h.congr rfl rfl rfl rfl rfl rfl
  case moved => exact fun s' hs _ => (h.escaped hs).draws (redrawn_draws (h.escaped hs).sound _)
  case stayed => exact fun s' hs _ => h.escaped hs
  case text => exact ((h.cursorDraw false).typeset c).cursorDraw true

/-! ### And the wrap in the last column -/

theorem Wrapped.inSequence (h : s.Wrapped) (c : UInt8) : (s.inSequence c).Wrapped := by
  apply inSequence_cases
  case gathers => exact fun _ _ _ _ => h
  case shows => exact .of_false (by simp [Console.ended])
  case settles => exact fun _ => .of_false rfl
  case ends => exact fun _ => .of_false (finalLetter_wrapPending _ c)

/-- The letter after an escape; clearing the screen lets go of the last column too late. -/
theorem Wrapped.afterEscape (h : s.Wrapped) (hc : ¬ (c = 0x63 ∧ s.wrapPending = true)) :
    (s.afterEscape c).Wrapped := by
  apply afterEscape_cases
  case saves | others => exact fun _ => h
  case restores | up | down | next => exact fun _ => .of_false rfl
  case resets =>
    intro h6
    apply Wrapped.of_false
    rw [clear_wrapPending]
    cases hwp : s.wrapPending with
    | false => exact hwp
    | true => exact absurd ⟨h6, hwp⟩ hc

theorem Wrapped.escaped (h : s.Wrapped)
    (hc : ¬ (s.escape = .afterEsc ∧ c = 0x63 ∧ s.wrapPending = true)) (hs : s.escaped c = some s') :
    s'.Wrapped := by
  apply escaped_cases hs
  case begins => exact fun _ => h
  case letter => exact fun hesc => h.afterEscape fun hc' => hc ⟨hesc, hc'⟩
  case charset => exact fun _ _ => h
  case palette => exact fun _ _ _ => h
  case sequence => exact fun _ => h.inSequence c

theorem Wrapped.typeset (h : s.Wrapped) (hp : s.Placed) (c : UInt8) : (s.typeset c).Wrapped := by
  apply typeset_cases hp.sound hp.cursor
  case feeds => exact fun _ _ => .of_false (lineFeed_wrapPending _)
  case moves => exact fun _ _ => .of_false rfl
  case shifts => exact fun _ => h
  case nothing => exact h
  case prints => exact (hp.printed c).wrapped

/-- **Every byte** keeps the console right, but one that clears the screen with the wrap to come. -/
theorem Inv.putc (h : s.Inv)
    (hc : ¬ (s.escape = .afterEsc ∧ c = 0x63 ∧ s.wrapPending = true)) : (s.putc c).Inv := by
  refine ⟨h.placed.putc c, ?_⟩
  apply putc_cases
  case taken => exact fun s' hs _ => h.wrapped.escaped hc hs
  case caught => exact fun _ => h.wrapped
  case moved =>
    exact fun s' hs _ =>
      (h.wrapped.escaped hc hs).draws (redrawn_draws (h.placed.escaped hs).sound _)
  case stayed => exact fun s' hs _ => h.wrapped.escaped hc hs
  case text =>
    have hd := cursorDraw_draws h.placed.sound false
    have hp := (h.placed.draws hd).typeset c
    exact ((h.wrapped.draws hd).typeset (h.placed.draws hd) c).draws (cursorDraw_draws hp.sound true)

/-! ### The screen, the font and the grid -/

theorem repaint_draws (hg : s.geo.Sound) : Draws s s.repaint := by
  unfold repaint
  have hcells : Draws s ((List.range s.geo.cells).foldl (fun s i =>
      ({ s with screen := Function.update s.screen i (~~~ s.screen i) } : Console).put i
        (s.screen i)) s) := by
    have hlt : ∀ i ∈ List.range s.geo.cells, i < s.geo.cells := fun i hi => List.mem_range.1 hi
    revert hlt
    generalize List.range s.geo.cells = l
    intro hlt
    induction l generalizing s with
    | nil => exact .refl s
    | cons i l ih =>
      have h1 : Draws s (({ s with screen := Function.update s.screen i (~~~ s.screen i) } :
          Console).put i (s.screen i)) := by
        have hflip : Draws s { s with screen := Function.update s.screen i (~~~ s.screen i) } :=
          ⟨rfl, .refl _, rfl⟩
        refine hflip.trans (put_draws ?_ ?_ _)
        · exact hg
        · exact hlt i List.mem_cons_self
      refine h1.trans (ih (by rwa [h1.geo]) ?_)
      intro j hj
      rw [h1.geo]
      exact hlt j (List.mem_cons_of_mem i hj)
  exact hcells.trans (cursorDraw_draws (by rwa [hcells.geo]) true)

/-- Whether there is room for a console, and memory. -/
def LaysOut (s : Console) (w h : ℕ) (mem : Bool) : Prop :=
  40 ≤ w / s.geo.cellW ∧ 8 ≤ h / s.geo.cellH ∧ mem = true

instance (s : Console) (w h : ℕ) (mem : Bool) : Decidable (s.LaysOut w h mem) :=
  inferInstanceAs (Decidable (_ ∧ _ ∧ _))

theorem layout_eq_of_not (h : ¬ s.LaysOut s.geo.fbWidth s.geo.fbHeight mem) :
    s.layout mem = (s, false) := by
  unfold LaysOut at h
  unfold layout
  simp only
  split_ifs with h1 h2
  · rfl
  · rfl
  · exact absurd ⟨by omega, by omega, by simpa using h2⟩ h

/-- The grid laid out, before the screen is cleared. -/
def laidOut (s : Console) : Console :=
  let geo :=
    { s.geo with
      width := s.geo.fbWidth / s.geo.cellW
      cells := s.geo.fbWidth / s.geo.cellW * (s.geo.fbHeight / s.geo.cellH) }
  { s with
    geo
    regionTop := 0
    regionBottom := s.geo.fbHeight / s.geo.cellH
    wrapPending := false
    screen := fun _ => 0
    canvas := fillRows geo 0 geo.fbHeight (geo.palette 0) s.canvas }

theorem layout_eq (h : s.LaysOut s.geo.fbWidth s.geo.fbHeight mem) :
    s.layout mem = (s.laidOut.clear, true) := by
  obtain ⟨hw, hh, hmem⟩ := h
  unfold layout
  simp only
  rw [if_neg (by omega), if_neg (by simp [hmem])]
  rfl

/-- **A grid laid out** is inside the screen. -/
theorem laidOut_placed (h : s.LaysOut s.geo.fbWidth s.geo.fbHeight mem)
    (hm : s.geo.Mapped) (hf : s.geo.glyphs ∈ fonts) (hput : s.strayedPut = false)
    (hpix : s.canvas.strayed = false) : ({ s.laidOut with cursor := 0 } : Console).Placed := by
  obtain ⟨hw, hh, hmem⟩ := h
  have hheight : s.laidOut.geo.height = s.geo.fbHeight / s.geo.cellH := by
    unfold Geometry.height laidOut
    simp only
    rw [if_neg (by omega)]
    exact Nat.mul_div_cancel_left _ (by omega)
  have hg : s.laidOut.geo.Sound := by
    refine ⟨hm, hf, ?_, ?_, ?_, Nat.div_mul_le_self _ _, ?_⟩
    · unfold laidOut
      simp only
      omega
    · rw [hheight]
      omega
    · rw [hheight]
      exact Nat.mul_comm _ _
    · rw [hheight]
      exact Nat.div_mul_le_self _ _
  have hfill := fillRows_keeps hg.mapped 0 le_rfl (s.laidOut.geo.palette 0) s.canvas
  refine ⟨hg, cells_pos hg, ?_, hheight.ge, hput, hfill.strayed.trans hpix⟩
  unfold laidOut
  simp only
  omega

/-- So is the console then. -/
theorem layout_inv (h : s.LaysOut s.geo.fbWidth s.geo.fbHeight mem)
    (hm : s.geo.Mapped) (hf : s.geo.glyphs ∈ fonts) (hput : s.strayedPut = false)
    (hpix : s.canvas.strayed = false) : (s.layout mem).1.Inv ∧ (s.layout mem).2 = true := by
  have hp := laidOut_placed h hm hf hput hpix
  rw [layout_eq h]
  exact ⟨.of_unwrapped (hp.draws (clear_draws (s := s.laidOut) hp.sound))
    (clear_wrapPending s.laidOut), rfl⟩

/-- The size `fit` leaves to draw in. -/
def fitted (s : Console) (maps : Bool) : ℕ × ℕ :=
  if s.Scales maps then (s.wantW, s.wantH) else (s.geo.realW, s.geo.realH)

/-- Whether the two products that say how a smaller screen fits in the real one are in 32 bits. -/
def InRange (s : Console) (maps : Bool) : Prop :=
  s.Scales maps → s.geo.realH * s.wantW < 2 ^ 32 ∧ s.geo.realW * s.wantH < 2 ^ 32

instance (s : Console) (maps : Bool) : Decidable (s.InRange maps) :=
  inferInstanceAs (Decidable (_ → _))

theorem mapped_le {real out n i : ℕ} (hout : out ≤ real) (hi : i ≤ n) : mapped real out n i ≤ real := by
  unfold mapped
  have h1 : (real + 2 ^ 32 - out) % 2 ^ 32 ≤ real - out := by
    rw [show real + 2 ^ 32 - out = real - out + 2 ^ 32 by omega, Nat.add_mod_right]
    exact Nat.mod_le _ _
  have h2 : i * out % 2 ^ 32 / n ≤ out := by
    rcases Nat.eq_zero_or_pos n with rfl | hn
    · simp
    · refine (Nat.div_le_div_right (Nat.mod_le _ _)).trans ?_
      rw [Nat.div_le_iff_le_mul hn]
      have := Nat.mul_le_mul_right out hi
      rw [Nat.mul_comm n out] at this
      omega
  refine (Nat.mod_le _ _).trans ?_
  omega

theorem outSize_le {realW realH w h : ℕ} (h1 : realH * w < 2 ^ 32) (h2 : realW * h < 2 ^ 32) :
    (outSize realW realH w h).1 ≤ realW ∧ (outSize realW realH w h).2 ≤ realH := by
  unfold outSize
  rw [Nat.mod_eq_of_lt h1, Nat.mod_eq_of_lt h2]
  split_ifs with hlt
  · refine ⟨?_, le_rfl⟩
    simp only
    refine (Nat.div_le_div_right (Nat.mod_le _ _)).trans ?_
    rw [Nat.mul_comm w]
    exact Nat.div_le_of_le_mul (by rw [Nat.mul_comm h]; exact hlt.le)
  · refine ⟨le_rfl, ?_⟩
    simp only
    refine (Nat.div_le_div_right (Nat.mod_le _ _)).trans ?_
    rw [Nat.mul_comm h]
    exact Nat.div_le_of_le_mul (by rw [Nat.mul_comm w]; omega)

theorem fit_size (s : Console) (maps : Bool) :
    ((s.fit maps).geo.fbWidth, (s.fit maps).geo.fbHeight) = s.fitted maps := by
  unfold fit fitted
  simp only
  split_ifs <;> rfl

/-- `fit` stays on the real screen. -/
theorem fit_mapped (hr : s.InRange maps) : (s.fit maps).geo.Mapped := by
  unfold fit
  simp only
  by_cases hs : s.Scales maps
  · rw [if_pos hs]
    obtain ⟨hw, hh⟩ := outSize_le (hr hs).1 (hr hs).2
    exact ⟨fun i hi => mapped_le hw hi, fun i hi => mapped_le hh hi⟩
  · rw [if_neg hs]
    exact ⟨le_rfl, le_rfl⟩

/-- A console whose grid is right in itself, whatever it is laid over. -/
structure Gridded (s : Console) : Prop where
  font : s.geo.glyphs ∈ fonts
  width_pos : 0 < s.geo.width
  height_pos : 0 < s.geo.height
  cells_eq : s.geo.cells = s.geo.height * s.geo.width
  cursor : s.cursor < s.geo.cells
  region : s.regionTop < s.regionBottom
  bottom : s.regionBottom ≤ s.geo.height
  puts : s.strayedPut = false
  pixels : s.canvas.strayed = false
  wrapped : s.Wrapped

/-- Whether the grid fits as it is. -/
def KeepsGrid (s : Console) (w h : ℕ) : Prop :=
  s.geo.width * s.geo.cellW ≤ w ∧ s.geo.height * s.geo.cellH ≤ h

instance (s : Console) (w h : ℕ) : Decidable (s.KeepsGrid w h) :=
  inferInstanceAs (Decidable (_ ∧ _))

theorem Inv.gridded (h : s.Inv) : s.Gridded :=
  ⟨h.placed.sound.font, h.placed.sound.width_pos, h.placed.sound.height_pos,
    h.placed.sound.cells_eq, h.placed.cursor, h.placed.region, h.placed.bottom, h.placed.puts,
    h.placed.pixels, h.wrapped⟩

theorem Gridded.inv (h : s.Gridded) (hm : s.geo.Mapped)
    (hk : s.KeepsGrid s.geo.fbWidth s.geo.fbHeight) : s.Inv :=
  ⟨⟨⟨hm, h.font, h.width_pos, h.height_pos, h.cells_eq, hk.1, hk.2⟩, h.cursor, h.region, h.bottom,
    h.puts, h.pixels⟩, h.wrapped⟩

theorem Gridded.fit (h : s.Gridded) (maps : Bool) : (s.fit maps).Gridded := by
  unfold Console.fit
  simp only
  split_ifs
  · exact ⟨h.font, h.width_pos, h.height_pos, h.cells_eq, h.cursor, h.region, h.bottom, h.puts,
      h.pixels, h.wrapped⟩
  · exact ⟨h.font, h.width_pos, h.height_pos, h.cells_eq, h.cursor, h.region, h.bottom, h.puts,
      h.pixels, h.wrapped⟩

theorem Gridded.takeScreen (h : s.Gridded) (m : Mode) : (s.takeScreen m).Gridded :=
  ⟨h.font, h.width_pos, h.height_pos, h.cells_eq, h.cursor, h.region, h.bottom, h.puts, h.pixels,
    h.wrapped⟩

/-- Whether the console has a grid that fits once the screen is fitted again: laid out anew, or the
one it has. -/
def Refits (s : Console) (maps mem : Bool) : Prop :=
  s.InRange maps ∧ (s.LaysOut (s.fitted maps).1 (s.fitted maps).2 mem ∨
    s.KeepsGrid (s.fitted maps).1 (s.fitted maps).2)

instance (s : Console) (maps mem : Bool) : Decidable (s.Refits maps mem) :=
  inferInstanceAs (Decidable (_ ∧ (_ ∨ _)))

theorem fit_grid (s : Console) (maps : Bool) :
    (s.fit maps).geo.glyphs = s.geo.glyphs ∧ (s.fit maps).geo.width = s.geo.width ∧
      (s.fit maps).geo.cells = s.geo.cells := by
  unfold Console.fit
  simp only
  split_ifs <;> exact ⟨rfl, rfl, rfl⟩

theorem fit_cell (s : Console) (maps : Bool) :
    (s.fit maps).geo.cellW = s.geo.cellW ∧ (s.fit maps).geo.cellH = s.geo.cellH ∧
      (s.fit maps).geo.height = s.geo.height := by
  obtain ⟨hf, hw, hc⟩ := s.fit_grid maps
  unfold Geometry.cellW Geometry.cellH Geometry.height
  rw [hf, hw, hc]
  exact ⟨rfl, rfl, rfl⟩

theorem fit_laysOut_iff :
    (s.fit maps).LaysOut (s.fit maps).geo.fbWidth (s.fit maps).geo.fbHeight mem ↔
      s.LaysOut (s.fitted maps).1 (s.fitted maps).2 mem := by
  obtain ⟨hcw, hch, -⟩ := s.fit_cell maps
  rw [← s.fit_size maps]
  unfold LaysOut
  rw [hcw, hch]

/-- **A screen fitted again.** -/
theorem Gridded.refit (h : s.Gridded) (hr : s.Refits maps mem) :
    ((s.fit maps).layout mem).1.Inv := by
  obtain ⟨hrange, hfits⟩ := hr
  have hm := fit_mapped hrange
  have hg := h.fit maps
  by_cases hl : (s.fit maps).LaysOut (s.fit maps).geo.fbWidth (s.fit maps).geo.fbHeight mem
  · exact (layout_inv hl hm hg.font hg.puts hg.pixels).1
  · rw [layout_eq_of_not hl]
    rw [fit_laysOut_iff] at hl
    obtain ⟨hw, hh⟩ := hfits.resolve_left hl
    obtain ⟨hcw, hch, hrows⟩ := s.fit_cell maps
    rw [← s.fit_size maps] at hw hh
    refine hg.inv hm ⟨?_, ?_⟩
    · rw [hcw, (s.fit_grid maps).2.1]
      exact hw
    · rw [hch, hrows]
      exact hh

theorem Inv.setMode (h : s.Inv) (name : List UInt8) (gop : Option Firmware)
    (hr : ∀ fw ∈ gop, ∀ size ∈ parseSize none 0 name, some size ∈ fw.modes ∧ fw.takes →
      (s.takeScreen fw.now).Refits maps mem) : (s.setMode name gop maps mem).Inv := by
  unfold Console.setMode
  cases gop with
  | none => exact h
  | some fw =>
    cases hp : parseSize none 0 name with
    | none => exact h
    | some size =>
      simp only
      split_ifs with hin
      · exact (h.gridded.takeScreen fw.now).refit (hr fw rfl size hp hin)
      · exact h

theorem Inv.follow (h : s.Inv) (now : Mode)
    (hr : (s.takeScreen now).Refits maps mem) : (s.follow now maps mem).Inv := by
  have hg := (h.gridded.takeScreen now).fit maps
  have hm := fit_mapped hr.1
  have hpos := h.placed.sound.width_pos
  unfold Console.follow
  simp only [if_pos (Nat.pos_iff_ne_zero.1 hpos)]
  split_ifs with hsame
  · obtain ⟨hw, hh⟩ := hsame
    obtain ⟨-, hwidth, hcells⟩ := (s.takeScreen now).fit_grid maps
    obtain ⟨-, -, hrows⟩ := (s.takeScreen now).fit_cell maps
    have hi : ((s.takeScreen now).fit maps).Inv := by
      refine hg.inv hm ⟨?_, ?_⟩
      · rw [hwidth, show (s.takeScreen now).geo.width = s.geo.width from rfl, ← hw]
        exact Nat.div_mul_le_self _ _
      · have hrows' : (s.takeScreen now).geo.height = s.geo.cells / s.geo.width :=
          if_neg (Nat.pos_iff_ne_zero.1 hpos)
        rw [hrows, hrows', ← hh]
        exact Nat.div_mul_le_self _ _
    have hd := repaint_draws hi.placed.sound
    exact ⟨hi.placed.draws hd, hi.wrapped.draws hd⟩
  · exact (h.gridded.takeScreen now).refit hr

theorem Inv.setFont (h : s.Inv) (name : String) (mem : Bool) : (s.setFont name mem).Inv := by
  unfold Console.setFont
  cases hf : fonts.find? (·.name = name) with
  | none => exact h
  | some f =>
    simp only
    by_cases hl : (s.useFont f).LaysOut (s.useFont f).geo.fbWidth (s.useFont f).geo.fbHeight mem
    · obtain ⟨hi, hok⟩ := layout_inv hl h.placed.sound.mapped (List.mem_of_find?_eq_some hf)
        h.placed.puts h.placed.pixels
      rw [if_pos hok]
      exact hi
    · rw [layout_eq_of_not hl]
      exact h

/-- What the grid is to be laid over, and what the grid is, is all there is to it. -/
theorem Refits.congr (h : s.Refits maps mem) (hw : s'.wantW = s.wantW)
    (hh : s'.wantH = s.wantH) (hrw : s'.geo.realW = s.geo.realW) (hrh : s'.geo.realH = s.geo.realH)
    (hf : s'.geo.glyphs = s.geo.glyphs) (hwidth : s'.geo.width = s.geo.width)
    (hcells : s'.geo.cells = s.geo.cells) : s'.Refits maps mem := by
  have hscales : s'.Scales maps ↔ s.Scales maps := by
    unfold Scales
    rw [hw, hh, hrw, hrh]
  have hfitted : s'.fitted maps = s.fitted maps := by
    unfold fitted
    rw [hw, hh, hrw, hrh]
    by_cases hs : s.Scales maps
    · rw [if_pos hs, if_pos (hscales.2 hs)]
    · rw [if_neg hs, if_neg fun hc => hs (hscales.1 hc)]
  unfold Refits InRange LaysOut KeepsGrid Geometry.cellW Geometry.cellH Geometry.height at h ⊢
  rw [hscales, hfitted, hw, hh, hrw, hrh, hf, hwidth, hcells]
  exact h

theorem fit_real (s : Console) (maps : Bool) :
    (s.fit maps).geo.realW = s.geo.realW ∧ (s.fit maps).geo.realH = s.geo.realH := by
  unfold Console.fit
  simp only
  split_ifs <;> exact ⟨rfl, rfl⟩

/-- The console with another size wanted. -/
def wanting (s : Console) (size : ℕ × ℕ) : Console := { s with wantW := size.1, wantH := size.2 }

/-- Whether a size wanted leaves a grid that fits: the screen is laid out for it, or fitted again as it
was. -/
def Rescales (s : Console) (size : ℕ × ℕ) (maps mem maps' mem' : Bool) : Prop :=
  let t := s.wanting size
  if t.LaysOut (t.fitted maps).1 (t.fitted maps).2 mem then t.InRange maps else s.Refits maps' mem'

instance (s : Console) (size : ℕ × ℕ) (maps mem maps' mem' : Bool) :
    Decidable (s.Rescales size maps mem maps' mem') :=
  inferInstanceAs (Decidable (if LaysOut _ _ _ _ then InRange _ _ else Refits _ _ _))

theorem Inv.setScale (h : s.Inv) (name : List UInt8) {maps' mem' : Bool}
    (hr : ∀ size ∈ s.sizeNamed name, s.Rescales size maps mem maps' mem') :
    (s.setScale name maps mem maps' mem').Inv := by
  unfold Console.setScale
  cases hs : s.sizeNamed name with
  | none => exact h
  | some size =>
    have hr := hr size hs
    unfold Rescales at hr
    simp only at hr
    set t := s.wanting size with ht
    have htg : t.Gridded := by
      have hg := h.gridded
      exact ⟨hg.font, hg.width_pos, hg.height_pos, hg.cells_eq, hg.cursor, hg.region, hg.bottom,
        hg.puts, hg.pixels, hg.wrapped⟩
    have hstep : ((t.fit maps).layout mem).1.Inv ∧ ((t.fit maps).layout mem).2 = true ∨
        (t.fit maps).layout mem = (t.fit maps, false) ∧ s.Refits maps' mem' := by
      by_cases hl : t.LaysOut (t.fitted maps).1 (t.fitted maps).2 mem
      · rw [if_pos hl] at hr
        have hg := htg.fit maps
        exact Or.inl (layout_inv (fit_laysOut_iff.2 hl) (fit_mapped hr) hg.font hg.puts hg.pixels)
      · rw [if_neg hl] at hr
        exact Or.inr ⟨layout_eq_of_not fun hc => hl (fit_laysOut_iff.1 hc), hr⟩
    change Inv (if ((t.fit maps).layout mem).2 = true then ((t.fit maps).layout mem).1
      else ((({ ((t.fit maps).layout mem).1 with wantW := s.wantW, wantH := s.wantH } :
        Console).fit maps').layout mem').1)
    rcases hstep with ⟨hi, hok⟩ | ⟨heq, hback⟩
    · rw [if_pos hok]
      exact hi
    · rw [heq, if_neg Bool.false_ne_true]
      obtain ⟨hrw, hrh⟩ := t.fit_real maps
      obtain ⟨hf, hwidth, hcells⟩ := t.fit_grid maps
      have hg := htg.fit maps
      have hback' : ({ t.fit maps with wantW := s.wantW, wantH := s.wantH } : Console).Gridded :=
        ⟨hg.font, hg.width_pos, hg.height_pos, hg.cells_eq, hg.cursor, hg.region, hg.bottom, hg.puts,
          hg.pixels, hg.wrapped⟩
      exact hback'.refit (hback.congr rfl rfl hrw hrh hf hwidth hcells)

/-! ### Runs -/

/-- Whether a call keeps clear of what goes wrong: it does not clear the screen while a character
holds the cursor in the last column, and leaves no grid that the screen it fits again has no room
for. -/
def Sized (s : Console) : Call → Prop
  | .putc c => ¬ (s.escape = .afterEsc ∧ c = 0x63 ∧ s.wrapPending = true)
  | .put _ _ _ => True
  | .clear => ¬ s.wrapPending = true
  | .setFont _ _ => True
  | .setScale name maps mem maps' mem' =>
    ∀ size ∈ s.sizeNamed name, s.Rescales size maps mem maps' mem'
  | .setMode name gop maps mem =>
    ∀ fw ∈ gop, ∀ size ∈ parseSize none 0 name, some size ∈ fw.modes ∧ fw.takes →
      (s.takeScreen fw.now).Refits maps mem
  | .follow now maps mem => (s.takeScreen now).Refits maps mem

instance (s : Console) : ∀ call, Decidable (s.Sized call)
  | .putc _ => inferInstanceAs (Decidable (¬ _))
  | .put _ _ _ => isTrue trivial
  | .clear => inferInstanceAs (Decidable (¬ _))
  | .setFont _ _ => isTrue trivial
  | .setScale _ _ _ _ _ => inferInstanceAs (Decidable (∀ size ∈ s.sizeNamed _, Rescales _ size _ _ _ _))
  | .setMode _ _ _ _ =>
    inferInstanceAs (Decidable (∀ fw ∈ _, ∀ size ∈ parseSize none 0 _, _ → _))
  | .follow _ _ _ => inferInstanceAs (Decidable (Refits _ _ _))

theorem Inv.step (h : s.Inv) (call : Call) (hc : s.Sized call) : (s.step call).Inv := by
  cases call with
  | putc c => exact h.putc hc
  | put column row value =>
    unfold Console.step putAt
    simp only
    split_ifs with hin
    · have hd := put_draws h.placed.sound hin.2 value
      exact ⟨h.placed.draws hd, h.wrapped.draws hd⟩
    · exact h
  | clear =>
    exact .of_unwrapped h.placed.clear ((clear_wrapPending s).trans (Bool.eq_false_iff.2 hc))
  | setFont name mem => exact h.setFont name mem
  | setScale name maps mem maps' mem' => exact h.setScale name hc
  | setMode name gop maps mem => exact h.setMode name gop hc
  | follow now maps mem => exact h.follow now hc

theorem start_inv {shapes : Shapes} {m : Mode} (hs : start shapes m mem = some s) :
    s.Inv := by
  unfold start at hs
  simp only at hs
  split_ifs at hs with hok
  obtain rfl := Option.some.inj hs
  have hfont : fontDefault ∈ fonts := by decide
  refine (layout_inv ?_ (.of_whole rfl le_rfl le_rfl) hfont rfl rfl).1
  by_contra hl
  rw [layout_eq_of_not hl] at hok
  exact Bool.false_ne_true hok

/-- **The console stays within its screen** in every run whose calls all keep clear of that. -/
theorem run_within (shapes : Shapes) (m : Mode) (mem : Bool) {s : Console}
    (hs : start shapes m mem = some s) (calls : List Call)
    (h : Runs.Along Sized Console.step s calls) : (calls.foldl Console.step s).Within := by
  have hi := h.invariant (P := Inv) (fun _ call hi hc => hi.step call hc) (start_inv hs)
  exact hi.placed.within hi.wrapped

/-- A font whose glyphs are all paper. -/
def blankShapes : Shapes := ⟨fun _ => 0, fun _ _ => rfl⟩

/-- A black screen, 40 cells of font 16 wide and 8 high. -/
def smallMode : Mode := { width := 320, height := 128, redFirst := false, fb := fun _ => 0 }

theorem start_isSome : (start blankShapes smallMode true).isSome = true := by
  decide

/-- The smallest console there is. -/
def smallest : Console := (start blankShapes smallMode true).get start_isSome

theorem start_eq_smallest : start blankShapes smallMode true = some smallest :=
  (Option.some_get start_isSome).symm

theorem run_within_smallest : Runs.Along Sized Console.step smallest
      [.putc 0x78, .setFont "8" true, .setScale [0x6F, 0x66, 0x66] false true false true, .clear] ∧
    ([Call.putc 0x78, .setFont "8" true, .setScale [0x6F, 0x66, 0x66] false true false true,
      .clear].foldl Console.step smallest).Within := by
  have h : Runs.Along Sized Console.step smallest
      [.putc 0x78, .setFont "8" true, .setScale [0x6F, 0x66, 0x66] false true false true,
        .clear] := by
    decide
  exact ⟨h, run_within blankShapes smallMode true start_eq_smallest _ h⟩

/-- The screen reset while a character holds the cursor in the last column: `escape [ 40 G x`, then
`escape c`. -/
theorem exists_not_within : ¬ ∀ (shapes : Shapes) (m : Mode) (mem : Bool) (s : Console)
    (calls : List Call), start shapes m mem = some s → (calls.foldl Console.step s).Within := by
  intro h
  have hw := h blankShapes smallMode true smallest
    ([0x1B, 0x5B, 0x34, 0x30, 0x47, 0x78, 0x1B, 0x63].map Call.putc) start_eq_smallest
  have hwrap := hw.wrap (by decide)
  exact absurd hwrap (by decide)

end Console
end BaxOS.Vga
