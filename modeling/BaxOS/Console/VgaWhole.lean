import BaxOS.Console.VgaShown

/-!
# The whole screen

The framebuffer is what drawing every cell anew would make it (`Shown`) when each cell shows what it
holds, the bar over the cursor's (`shown_iff_tiled`). Clearing the screen makes it so. Text keeps it
so, the cursor taken away before it and put back after; a sequence does where the cursor moves. Where
the cursor stays, the cell under it has to stay as it is too, and while output is captured the cursor
has to stay (`Spares`, `run_shown`).
-/

namespace BaxOS.Vga
namespace Console

variable {s t u : Console} {k k' : Option ℕ} {i j : ℕ} {c : UInt8} {p : ℕ × ℕ}

/-- Drawing every cell anew would change nothing. -/
def Shown (s : Console) : Prop := s.repaint.canvas.fb = s.canvas.fb

/-! ### Every cell drawn anew -/

/-- Cells drawn one after another. -/
def drawCells (g : Geometry) (screen : ℕ → UInt16) (l : List ℕ) (c : Canvas) : Canvas :=
  l.foldl (fun c i => drawCell g i (screen i) c) c

/-- Where no cell is drawn. -/
def Outside (g : Geometry) (p : ℕ × ℕ) : Prop :=
  ∀ i < g.cells, ∀ v ∈ cellArea g i, ¬ Covers g v.1 v.2 p

section drawCells

variable {g : Geometry} {screen : ℕ → UInt16} {l : List ℕ} {canvas : Canvas} (hg : g.Sound)
  (ho : g.Ordered) (hl : ∀ i ∈ l, i < g.cells) (hc : canvas.lent = false)

include hg ho hl hc

/-- A cell that shows what it holds still does. -/
theorem drawCells_tile_of_tile (hj : j < g.cells) (ht : Tile g canvas.fb j (screen j) false) :
    Tile g (drawCells g screen l canvas).fb j (screen j) false := by
  induction l generalizing canvas with
  | nil => exact ht
  | cons i l ih =>
    have hi := hl i List.mem_cons_self
    refine ih (fun i' hi' => hl i' (List.mem_cons_of_mem i hi')) ?_ ?_
    · exact (hg.drawCell_keeps hi (screen i) canvas).lent.trans hc
    · by_cases hji : j = i
      · subst hji
        exact hg.tile_drawCell ho hj (screen j) hc
      · exact hg.tile_drawCell_of_ne ho hi hj hji hc ht

/-- So does each cell drawn. -/
theorem drawCells_tile (hj : j ∈ l) : Tile g (drawCells g screen l canvas).fb j (screen j) false := by
  induction l generalizing canvas with
  | nil => exact absurd hj List.not_mem_nil
  | cons i l ih =>
    have hi := hl i List.mem_cons_self
    have hl' : ∀ i' ∈ l, i' < g.cells := fun i' hi' => hl i' (List.mem_cons_of_mem i hi')
    have hc' : (drawCell g i (screen i) canvas).lent = false :=
      (hg.drawCell_keeps hi (screen i) canvas).lent.trans hc
    change Tile g (drawCells g screen l (drawCell g i (screen i) canvas)).fb j (screen j) false
    rcases List.mem_cons.1 hj with rfl | hj
    · exact drawCells_tile_of_tile hg ho hl' hc' hi (hg.tile_drawCell ho hi (screen j) hc)
    · exact ih hl' hc' hj

/-- Around the cells nothing is drawn. -/
theorem drawCells_off (hp : Outside g p) : (drawCells g screen l canvas).fb p = canvas.fb p := by
  induction l generalizing canvas with
  | nil => rfl
  | cons i l ih =>
    have hi := hl i List.mem_cons_self
    refine (ih (fun i' hi' => hl i' (List.mem_cons_of_mem i hi')) ?_).trans ?_
    · exact (hg.drawCell_keeps hi (screen i) canvas).lent.trans hc
    · exact (hg.drawCell_paints ho hi (screen i) hc).off p (hp i hi)

end drawCells

theorem complement_ne (value : UInt16) : ~~~value ≠ value := by
  intro h
  have hbit := congrArg (fun v : UInt16 => v.toBitVec.getLsbD 0) h
  simp at hbit

/-- One cell drawn anew. -/
theorem repaint_cell (hi : i < s.geo.cells) :
    ({ s with screen := Function.update s.screen i (~~~ s.screen i) } : Console).put i (s.screen i) =
      { s with canvas := drawCell s.geo i (s.screen i) s.canvas } := by
  unfold put
  simp only [Function.update_self, Function.update_idem, Function.update_eq_self]
  rw [if_pos (complement_ne _)]
  simp [hi]

theorem repaint_eq (s : Console) :
    s.repaint = ({ s with
      canvas := drawCells s.geo s.screen (List.range s.geo.cells) s.canvas } : Console).cursorDraw
        true := by
  unfold repaint drawCells
  have hlt : ∀ i ∈ List.range s.geo.cells, i < s.geo.cells := fun i => List.mem_range.1
  revert hlt
  generalize List.range s.geo.cells = l
  intro hlt
  induction l generalizing s with
  | nil => rfl
  | cons i l ih =>
    rw [List.foldl_cons, List.foldl_cons, repaint_cell (hlt i List.mem_cons_self)]
    exact ih _ fun j hj => hlt j (List.mem_cons_of_mem i hj)

theorem cursorDraw_off (hu : s.Usable) (hp : Outside s.geo p) (on : Bool) :
    (s.cursorDraw on).canvas.fb p = s.canvas.fb p := by
  unfold cursorDraw
  split_ifs with h1 h2
  · rfl
  · have hc : s.cursor < s.geo.cells := by omega
    exact (hu.sound.drawCell_paints hu.ordered hc _ hu.ours).off p (hp _ hc)
  · have hc : s.cursor < s.geo.cells := by omega
    exact (hu.sound.drawBar_paints hu.ordered hc _ hu.ours).off p fun v hv => hp _ hc v hv.1

/-- What drawing every cell anew makes of the framebuffer. -/
theorem repaint_spec (hu : s.Usable) (hc : s.cursor < s.geo.cells) :
    (∀ i < s.geo.cells, Tile s.geo s.repaint.canvas.fb i (s.screen i) (decide (s.bar = some i))) ∧
      ∀ p, Outside s.geo p → s.repaint.canvas.fb p = s.canvas.fb p := by
  have hlt : ∀ i ∈ List.range s.geo.cells, i < s.geo.cells := fun i => List.mem_range.1
  set t : Console :=
    { s with canvas := drawCells s.geo s.screen (List.range s.geo.cells) s.canvas } with ht
  have hkeeps : s.canvas.Keeps t.canvas :=
    Canvas.Keeps.foldl _ _ fun i hi c => hu.sound.drawCell_keeps (hlt i hi) _ c
  have hut : t.Usable := ⟨hu.sound, hu.ordered, hkeeps.lent.trans hu.ours⟩
  have hbare : t.Barred none := by
    intro i hi
    exact drawCells_tile hu.sound hu.ordered hlt hu.ours (List.mem_range.2 hi)
  have htiled := cursorDraw_true_tiled hut hc hbare (Or.inl rfl)
  have hd := cursorDraw_draws (s := t) hu.sound true
  rw [repaint_eq]
  refine ⟨?_, ?_⟩
  · intro i hi
    have htile := htiled i
    unfold bar at htile
    rw [hd.geo, hd.cursor] at htile
    rw [hd.eq] at htile
    have hscreen : (t.cursorDraw true).screen = s.screen := by
      unfold cursorDraw
      split_ifs <;> rfl
    rw [hscreen] at htile
    exact htile hi
  · intro p hp
    rw [cursorDraw_off hut hp]
    exact drawCells_off hu.sound hu.ordered hlt hu.ours hp

/-- **The screen shows the cells** when each of them shows what it holds. -/
theorem shown_iff_tiled (hu : s.Usable) (hc : s.cursor < s.geo.cells) : s.Shown ↔ s.Tiled := by
  obtain ⟨htile, hoff⟩ := repaint_spec hu hc
  constructor
  · intro h i hi
    rw [← h]
    exact htile i hi
  · intro h
    funext p
    by_cases hp : Outside s.geo p
    · exact hoff p hp
    · unfold Outside at hp
      push Not at hp
      obtain ⟨i, hi, v, hv, hvp⟩ := hp
      exact (htile i hi v hv p hvp).trans (h i hi v hv p hvp).symm

/-! ### The screen cleared -/

/-- The blank's paper is what the screen is cleared to. -/
theorem paper_blank (s : Console) :
    paper s.geo (s.cell 0x20) = s.geo.palette (s.color >>> 4 &&& 0x0F).toNat := by
  have h : ∀ color : BitVec 8,
      (((0x20 : UInt8).toUInt16 ||| (UInt8.ofBitVec color).toUInt16 <<< 8) >>> 12 &&& 0x0F).toNat =
        (UInt8.ofBitVec color >>> 4 &&& 0x0F).toNat := by decide
  exact congrArg s.geo.palette (h s.color.toBitVec)

/-- And its glyph is the blank. -/
theorem glyph_blank (s : Console) : (s.cell 0x20 &&& 0xFF).toNat = 0x20 := by
  have h : ∀ color : BitVec 8,
      (((0x20 : UInt8).toUInt16 ||| (UInt8.ofBitVec color).toUInt16 <<< 8) &&& 0xFF).toNat =
        0x20 := by decide
  exact h s.color.toBitVec

theorem clear_usable (hu : s.Usable) : s.clear.Usable :=
  Usable.draws (s := { s with cursor := 0 }) ⟨hu.sound, hu.ordered, hu.ours⟩ (clear_draws hu.sound)

/-- **A screen cleared** shows its cells, the bar over the first. -/
theorem clear_tiled (hu : s.Usable) : s.clear.Tiled := by
  have hfill := fillRows_paints hu.sound.mapped hu.ordered 0 le_rfl
    (s.geo.palette (s.color >>> 4 &&& 0x0F).toNat) hu.ours
  refine cursorDraw_true_tiled ⟨hu.sound, hu.ordered, hfill.lent.trans hu.ours⟩ (cells_pos hu.sound)
    (k := none) ?_ (Or.inl rfl)
  intro i hi v hv p hvp
  have hin := hu.sound.cellArea_inside hi hv
  simp only
  rw [if_pos hi, hfill.on v ⟨⟨Nat.zero_le _, hin.2⟩, hin.1⟩ p hvp, decide_eq_false (by simp),
    tile_blank hu.sound.font (glyph_blank s) hv, paper_blank]

/-! ### What a sequence leaves under the cursor -/

/-- Whether the letter after an escape leaves the cursor where it is. -/
def escapeStays (s : Console) (c : UInt8) : Prop :=
  let row := s.cursor / s.geo.width
  if c = 0x38 then (if s.savedCursor < s.geo.cells then s.savedCursor else 0) = s.cursor
  else if c = 0x4D then row = s.regionTop ∨ row = 0
  else if c = 0x44 then row + 1 = s.regionBottom ∨ s.geo.height ≤ row + 1
  else if c = 0x45 then
    s.cursor % s.geo.width = 0 ∧ (row + 1 = s.regionBottom ∨ s.geo.height ≤ row + 1)
  else True

/-- The region a sequence asks for: its first row and the one after its last. -/
def asked (s : Console) : ℕ × ℕ :=
  (if s.given 0 then s.params 0 - 1 else 0,
    if s.given 1 ∧ s.params 1 ≤ s.geo.height then s.params 1 else s.geo.height)

/-- Whether the letter that ends a sequence does. -/
def letterStays (s : Console) (c : UInt8) : Prop :=
  let row := s.cursor / s.geo.width
  if c = 0x48 ∨ c = 0x66 then s.geo.cells ≤ s.movedTo ∨ s.movedTo = s.cursor
  else if c = 0x41 ∨ c = 0x42 ∨ c = 0x43 ∨ c = 0x44 ∨ c = 0x47 then s.movedBy c = s.cursor
  else if c = 0x4C ∨ c = 0x4D then
    s.cursor % s.geo.width = 0 ∨ row < s.regionTop ∨ s.regionBottom ≤ row
  else if c = 0x64 then s.geo.height ≤ s.countParam - 1 ∨ s.countParam - 1 = row
  else if c = 0x72 then s.asked.1 + 1 < s.asked.2 → s.cursor = 0
  else True

/-- What the letter after an escape puts under a cursor that stays. -/
def escapePuts (s : Console) (c : UInt8) : List UInt16 :=
  let row := s.cursor / s.geo.width
  if c = 0x4D ∧ row = s.regionTop ∨ (c = 0x44 ∨ c = 0x45) ∧ row + 1 = s.regionBottom then
    [s.cell 0x20]
  else []

/-- What the letter that ends a sequence does. -/
def letterPuts (s : Console) (c : UInt8) : List UInt16 :=
  if c = 0x4A ∧ 0 < s.paramCount ∧ 2 ≤ s.params 0 then []
  else if c = 0x4A ∨ c = 0x4B ∨ c = 0x58 then [s.cell 0x20]
  else if c = 0x40 ∨ c = 0x50 then [s.shiftedIn (c = 0x40) s.countParam]
  else if c = 0x4C ∨ c = 0x4D then s.rowsIn (c = 0x4C)
  else []

/-- Whether a byte of a sequence leaves the cursor where it is. -/
def Stays (s : Console) (c : UInt8) : Prop :=
  if s.escape = .afterEsc then s.escapeStays c
  else if s.escape = .inCsi ∧ s.ofTerminal = false then s.letterStays c
  else True

/-- What it puts there. -/
def putUnder (s : Console) (c : UInt8) : List UInt16 :=
  if s.escape = .afterEsc then s.escapePuts c
  else if s.escape = .inCsi ∧ s.ofTerminal = false then s.letterPuts c
  else []

/-- Whether the bar stays where the cursor is: a sequence that leaves the cursor there changes nothing
under it, and none moves it while output is captured. -/
def Spares (s : Console) (c : UInt8) : Prop :=
  s.cursorShown = true →
    (s.Stays c → ∀ value ∈ s.putUnder c, value = s.screen s.cursor) ∧
      (s.capture.isSome → s.Stays c)

instance (s : Console) (c : UInt8) : Decidable (s.escapeStays c) :=
  inferInstanceAs (Decidable (@ite _ _ _ _ _))

instance (s : Console) (c : UInt8) : Decidable (s.letterStays c) :=
  inferInstanceAs (Decidable (@ite _ _ _ _ _))

instance (s : Console) (c : UInt8) : Decidable (s.Stays c) :=
  inferInstanceAs (Decidable (@ite _ _ _ _ _))

instance (s : Console) (c : UInt8) : Decidable (s.Spares c) :=
  have := List.decidableBAll (fun value => value = s.screen s.cursor) (s.putUnder c)
  inferInstanceAs (Decidable (_ → _))

/-- What a byte of a sequence makes of the console: a screen that shows its cells, or cells put, the
one under a cursor that stays as it is if that is all it is given. -/
def Follows (s : Console) (stays : Prop) (under : List UInt16) (t : Console) : Prop :=
  (t.geo = s.geo ∧ t.Usable ∧ t.Tiled) ∨ (t.cursor = s.cursor ↔ stays) ∧
    ∀ k, (∀ i, k = some i → i = s.cursor ∧ stays ∧ ∀ value ∈ under, value = s.screen i) → Puts k s t

variable {stays : Prop} {under : List UInt16}

/-- Nothing put. -/
theorem Follows.of_same (geo : t.geo = s.geo) (canvas : t.canvas = s.canvas)
    (screen : t.screen = s.screen) (shown : t.cursorShown = s.cursorShown)
    (cursor : t.cursor = s.cursor ↔ stays) : s.Follows stays under t :=
  Or.inr ⟨cursor, fun _ _ => .same geo canvas screen shown⟩

/-- Cells put, the cursor left alone. -/
theorem Follows.of_draws (hd : Draws s t) (hs : stays)
    (hp : ∀ k, (∀ i, k = some i → i = s.cursor ∧ ∀ value ∈ under, value = s.screen i) → Puts k s t) :
    s.Follows stays under t :=
  Or.inr ⟨iff_of_true hd.cursor hs, fun k hk => hp k fun i hi => ⟨(hk i hi).1, (hk i hi).2.2⟩⟩

/-- The screen cleared. -/
theorem Follows.of_clear (hu : t.Usable) (geo : t.geo = s.geo) : s.Follows stays under t.clear :=
  Or.inl ⟨(clear_draws hu.sound).geo.trans geo, clear_usable hu, clear_tiled hu⟩

/-- Something else of the console changed before. -/
theorem Follows.after (h : t.Follows stays under u) (geo : t.geo = s.geo) (canvas : t.canvas = s.canvas)
    (screen : t.screen = s.screen) (shown : t.cursorShown = s.cursorShown)
    (cursor : t.cursor = s.cursor) : s.Follows stays under u := by
  rcases h with ⟨hgeo, hdone⟩ | ⟨hc, hp⟩
  · exact Or.inl ⟨hgeo.trans geo, hdone⟩
  · refine Or.inr ⟨?_, fun k hk => (hp k ?_).of_same geo canvas screen shown⟩
    · rw [← cursor]
      exact hc
    · rw [cursor, screen]
      exact hk

/-- Something else changed afterwards. -/
theorem Follows.before (h : s.Follows stays under t) (geo : u.geo = t.geo) (canvas : u.canvas = t.canvas)
    (screen : u.screen = t.screen) (shown : u.cursorShown = t.cursorShown)
    (cursor : u.cursor = t.cursor) : s.Follows stays under u := by
  rcases h with ⟨hgeo, hu, ht⟩ | ⟨hc, hp⟩
  · refine Or.inl ⟨geo.trans hgeo, hu.congr geo canvas, ?_⟩
    unfold Tiled Barred bar at ht ⊢
    rwa [geo, canvas, screen, shown, cursor]
  · exact Or.inr ⟨by rwa [cursor], fun k hk => (hp k hk).then_same geo canvas screen shown⟩

/-! ### Each letter -/

theorem Usable.ended (h : s.Usable) : s.ended.Usable := h.congr rfl rfl

theorem shiftRows_cursor (h : s.Placed) (opening : Bool) :
    (s.shiftRows opening).cursor =
      if s.cursor / s.geo.width < s.regionTop ∨ s.regionBottom ≤ s.cursor / s.geo.width then s.cursor
      else s.cursor - s.cursor % s.geo.width := by
  unfold shiftRows
  simp only
  split_ifs
  · rfl
  · have hd := scrolls_draws h (s.cursor / s.geo.width) (! opening)
      (List.range (min s.countParam (s.regionBottom - s.cursor / s.geo.width)))
    simp only
    rw [hd.cursor, hd.geo]

/-- No other letter moves the cursor. -/
theorem letterStays_of_notMem
    (hc : c ∉ [0x48, 0x66, 0x41, 0x42, 0x43, 0x44, 0x47, 0x4C, 0x4D, 0x64, 0x72]) :
    s.letterStays c := by
  simp only [List.mem_cons, List.not_mem_nil, or_false, not_or] at hc
  simp [letterStays, hc]

/-- The letter that ends a sequence. -/
theorem finalLetter_follows (h : s.Placed) (hu : s.Usable) (c : UInt8) :
    s.Follows (s.letterStays c) (s.letterPuts c) (s.finalLetter c) := by
  have hw := h.sound.width_pos
  have hsplit := s.cell_split s.cursor
  have hcol := h.sound.column_lt s.cursor
  apply finalLetter_cases
  case graphics =>
    rintro rfl
    exact .of_same rfl rfl rfl rfl (iff_of_true rfl trivial)
  case erases =>
    intro hc
    by_cases hall : c = 0x4A ∧ 0 < s.paramCount ∧ 2 ≤ s.params 0
    · rw [show s.erase c = s.clear from if_pos hall]
      exact .of_clear hu rfl
    · have hputs : s.letterPuts c = [s.cell 0x20] := by
        unfold letterPuts
        rw [if_neg hall, if_pos (by tauto)]
      refine .of_draws (erase_draws h hall) ?_ ?_
      · rcases hc with rfl | rfl <;> trivial
      · intro k hk
        refine erase_puts h hall fun i hi => ?_
        rw [hputs] at hk
        exact (hk i hi).2 _ (List.mem_singleton_self _)
  case places =>
    intro hc
    unfold letterStays moveCursor
    simp only [hc, if_true]
    split_ifs with hin
    · exact .of_same rfl rfl rfl rfl (by simp [not_le.2 hin])
    · exact .of_same rfl rfl rfl rfl (iff_of_true rfl (Or.inl (not_lt.1 hin)))
  case moves =>
    intro hc
    refine .of_same rfl rfl rfl rfl ?_
    unfold letterStays
    rcases hc with rfl | rfl | rfl | rfl | rfl <;> rfl
  case shifts =>
    intro hc
    have hputs : s.letterPuts c = [s.shiftedIn (c = 0x40) s.countParam] := by
      unfold letterPuts
      rcases hc with rfl | rfl <;> rfl
    refine .of_draws (shiftLine_draws h.sound h.cursor _ _) ?_ ?_
    · rcases hc with rfl | rfl <;> trivial
    · intro k hk
      refine shiftLine_puts h _ _ fun i hi => ⟨(hk i hi).1, ?_⟩
      rw [hputs] at hk
      exact (hk i hi).2 _ (List.mem_singleton_self _)
  case rows =>
    intro hc
    have hputs : s.letterPuts c = s.rowsIn (c = 0x4C) := by
      unfold letterPuts
      rcases hc with rfl | rfl <;> rfl
    have hstays : s.letterStays c ↔ s.cursor % s.geo.width = 0 ∨
        s.cursor / s.geo.width < s.regionTop ∨ s.regionBottom ≤ s.cursor / s.geo.width := by
      unfold letterStays
      rcases hc with rfl | rfl <;> rfl
    refine Or.inr ⟨?_, ?_⟩
    · rw [shiftRows_cursor h, hstays]
      split_ifs with hout
      · exact iff_of_true rfl (Or.inr hout)
      · have hle := Nat.mod_le s.cursor s.geo.width
        rw [or_iff_left hout]
        omega
    · intro k hk
      by_cases hout : s.cursor / s.geo.width < s.regionTop ∨ s.regionBottom ≤ s.cursor / s.geo.width
      · have hsame : s.shiftRows (c = 0x4C) = s := if_pos hout
        rw [hsame]
        exact .refl s
      · refine shiftRows_puts h _ fun i hi => ?_
        obtain ⟨hi, hst, hv⟩ := hk i hi
        rw [hputs] at hv
        exact ⟨hi, (hstays.1 hst).resolve_right hout, hv⟩
  case blanks =>
    rintro rfl
    refine .of_draws (eraseChars_draws h.sound h.cursor) trivial fun k hk => ?_
    exact eraseChars_puts h fun i hi => (hk i hi).2 _ (List.mem_singleton_self _)
  case row =>
    rintro rfl
    have hstays : s.letterStays 0x64 ↔
        s.geo.height ≤ s.countParam - 1 ∨ s.countParam - 1 = s.cursor / s.geo.width := Iff.rfl
    unfold toRow
    simp only
    split_ifs with hin
    · refine .of_same rfl rfl rfl rfl ?_
      rw [hstays, or_iff_right (not_le.2 hin)]
      simp only
      constructor
      · intro heq
        rw [← heq, Nat.mul_comm, Nat.mul_add_div hw, Nat.div_eq_of_lt hcol, Nat.add_zero]
      · intro heq
        rw [heq, hsplit]
    · exact .of_same rfl rfl rfl rfl (iff_of_true rfl (Or.inl (not_lt.1 hin)))
  case region =>
    rintro rfl
    have hstays : s.letterStays 0x72 ↔ (s.asked.1 + 1 < s.asked.2 → s.cursor = 0) := Iff.rfl
    change s.Follows _ _ (if s.asked.1 + 1 < s.asked.2 then _ else s)
    by_cases hin : s.asked.1 + 1 < s.asked.2
    · rw [if_pos hin]
      refine .of_same rfl rfl rfl rfl ?_
      rw [hstays]
      exact ⟨fun heq _ => heq.symm, fun hz => (hz hin).symm⟩
    · rw [if_neg hin]
      exact .of_same rfl rfl rfl rfl (iff_of_true rfl fun hin' => absurd hin' hin)
  case inserts =>
    intro hc
    refine .of_same rfl rfl rfl rfl (iff_of_true rfl ?_)
    rcases hc with rfl | rfl <;> trivial
  case others =>
    exact fun hc => .of_same rfl rfl rfl rfl (iff_of_true rfl (letterStays_of_notMem hc))

theorem lineFeed_cursor (h : s.Placed) :
    s.lineFeed.cursor =
      if s.cursor / s.geo.width + 1 = s.regionBottom ∨ s.geo.height ≤ s.cursor / s.geo.width + 1 then
        s.cursor
      else s.cursor + s.geo.width := by
  unfold lineFeed
  simp only
  by_cases hlast : s.cursor / s.geo.width + 1 = s.regionBottom
  · rw [if_pos hlast, if_pos (Or.inl hlast)]
    exact (scroll_draws h.sound h.bottom _ _).cursor
  · simp only [hlast, if_false, false_or]
    split_ifs
    · omega
    · rfl
    · rfl
    · omega

theorem reverseFeed_stays (h : s.Placed) : s.reverseFeed.cursor = s.cursor ↔
    s.cursor / s.geo.width = s.regionTop ∨ s.cursor / s.geo.width = 0 := by
  unfold reverseFeed
  simp only
  by_cases hfirst : s.cursor / s.geo.width = s.regionTop
  · rw [if_pos hfirst]
    exact iff_of_true (scroll_draws h.sound h.bottom _ _).cursor (Or.inl hfirst)
  rw [if_neg hfirst, or_iff_right hfirst]
  rcases Nat.eq_zero_or_pos (s.cursor / s.geo.width) with hzero | hpos
  · rw [if_neg (Nat.not_lt.2 hzero.le)]
    exact iff_of_true rfl hzero
  · rw [if_pos hpos]
    have hw := h.sound.width_pos
    have hle := (Nat.div_pos_iff.1 hpos).2
    simp only
    omega

theorem lineFeed_stays (h : s.Placed) : s.lineFeed.cursor = s.cursor ↔
    s.cursor / s.geo.width + 1 = s.regionBottom ∨ s.geo.height ≤ s.cursor / s.geo.width + 1 := by
  have hw := h.sound.width_pos
  rw [lineFeed_cursor h]
  split_ifs with hstays
  · exact iff_of_true rfl hstays
  · exact iff_of_false (by omega) hstays

/-- Down a row from its start. -/
theorem nextLine_stays (h : s.Placed) : s.atRowStart.lineFeed.cursor = s.cursor ↔
    s.cursor % s.geo.width = 0 ∧
      (s.cursor / s.geo.width + 1 = s.regionBottom ∨ s.geo.height ≤ s.cursor / s.geo.width + 1) := by
  have hcol := h.sound.column_lt s.cursor
  have hle := Nat.mod_le s.cursor s.geo.width
  by_cases hzero : s.cursor % s.geo.width = 0
  · have hsame : s.atRowStart = s := by
      unfold atRowStart
      rw [hzero, Nat.sub_zero]
    rw [hsame, lineFeed_stays h, and_iff_right hzero]
  · refine iff_of_false ?_ fun hc => hzero hc.1
    have hp : s.atRowStart.Placed := h.rowStart
    rw [lineFeed_cursor hp]
    unfold atRowStart
    simp only
    split_ifs <;> omega

/-- The letter after an escape. -/
theorem afterEscape_follows (h : s.Placed) (hu : s.Usable) (c : UInt8) :
    s.Follows (s.escapeStays c) (s.escapePuts c) (s.afterEscape c) := by
  have ho := h.opened c
  apply afterEscape_cases
  case saves =>
    rintro rfl
    exact .of_same rfl rfl rfl rfl (iff_of_true rfl trivial)
  case restores =>
    rintro rfl
    exact .of_same rfl rfl rfl rfl Iff.rfl
  case up =>
    rintro rfl
    refine Follows.before (t := (s.opened 0x4D).reverseFeed) (Follows.after (t := s.opened 0x4D) ?_
      rfl rfl rfl rfl rfl) rfl rfl rfl rfl rfl
    refine Or.inr ⟨reverseFeed_stays ho, fun k hk => ?_⟩
    refine reverseFeed_puts ho fun i hi => ⟨(hk i hi).1, fun hfirst => ?_⟩
    refine (hk i hi).2.2 _ ?_
    have hputs : s.escapePuts 0x4D = [s.cell 0x20] := if_pos (Or.inl ⟨rfl, hfirst⟩)
    rw [hputs]
    exact List.mem_singleton_self _
  case down =>
    rintro rfl
    refine Follows.before (t := (s.opened 0x44).lineFeed) (Follows.after (t := s.opened 0x44) ?_
      rfl rfl rfl rfl rfl) rfl rfl rfl rfl rfl
    refine Or.inr ⟨lineFeed_stays ho, fun k hk => ?_⟩
    refine lineFeed_puts ho fun i hi => ⟨(hk i hi).1, fun hlast => ?_⟩
    refine (hk i hi).2.2 _ ?_
    have hputs : s.escapePuts 0x44 = [s.cell 0x20] := if_pos (Or.inr ⟨Or.inl rfl, hlast⟩)
    rw [hputs]
    exact List.mem_singleton_self _
  case next =>
    rintro rfl
    refine Follows.before (t := (s.opened 0x45).atRowStart.lineFeed) (Follows.after
      (t := s.opened 0x45) ?_ rfl rfl rfl rfl rfl) rfl rfl rfl rfl rfl
    refine Or.inr ⟨nextLine_stays ho, fun k hk => ?_⟩
    refine Puts.of_same (t := (s.opened 0x45).atRowStart) ?_ rfl rfl rfl rfl
    refine lineFeed_puts ho.rowStart fun i hi => ?_
    obtain ⟨hi, ⟨hzero, -⟩, hv⟩ := hk i hi
    have hsame : (s.opened 0x45).atRowStart = s.opened 0x45 := by
      unfold atRowStart
      rw [show (s.opened 0x45).cursor % (s.opened 0x45).geo.width = 0 from hzero, Nat.sub_zero]
    change i = (s.opened 0x45).atRowStart.cursor ∧ ((s.opened 0x45).atRowStart.cursor / s.geo.width +
      1 = s.regionBottom → s.cell 0x20 = s.screen i)
    rw [hsame]
    refine ⟨hi, fun hlast => hv _ ?_⟩
    have hputs : s.escapePuts 0x45 = [s.cell 0x20] := if_pos (Or.inr ⟨Or.inr rfl, hlast⟩)
    rw [hputs]
    exact List.mem_singleton_self _
  case resets => exact fun _ => .of_clear (hu.congr rfl rfl) rfl
  case others =>
    intro hc
    refine .of_same rfl rfl rfl rfl (iff_of_true rfl ?_)
    simp only [List.mem_cons, List.not_mem_nil, or_false, not_or] at hc
    simp [escapeStays, hc]

/-- The bar shown or hidden. -/
theorem showCursor_follows (hu : s.Usable) (hc : s.cursor < s.geo.cells) (ht : s.Tiled)
    (shown : Bool) :
    s.Follows stays under
      (({ s.cursorDraw false with cursorShown := shown } : Console).cursorDraw true) := by
  have hk : ∀ i, s.bar = some i → i = s.cursor := by
    unfold bar
    intro i hi
    split_ifs at hi
    exact (Option.some.inj hi).symm
  have hd := cursorDraw_draws hu.sound false
  have hu' : ({ s.cursorDraw false with cursorShown := shown } : Console).Usable :=
    (hu.draws hd).congr rfl rfl
  have hd' := cursorDraw_draws hu'.sound true
  refine Or.inl ⟨hd'.geo.trans hd.geo, hu'.draws hd', cursorDraw_true_tiled hu' ?_
    (cursorDraw_false_barred hu hc ht.bareBut hk) (Or.inl rfl)⟩
  simp only
  rwa [hd.cursor, hd.geo]

/-- A byte of a sequence after the bracket. -/
theorem inSequence_follows (h : s.Placed) (hu : s.Usable) (ht : s.Tiled) (hs : s.escape = .inCsi)
    (c : UInt8) : s.Follows (s.Stays c) (s.putUnder c) (s.inSequence c) := by
  have hesc : s.escape ≠ .afterEsc := by
    rw [hs]
    decide
  apply inSequence_cases
  case gathers =>
    intro hc _ _ _
    refine .of_same rfl rfl rfl rfl (iff_of_true rfl ?_)
    unfold Stays
    rw [if_neg hesc]
    split_ifs
    · apply letterStays_of_notMem
      simp only [List.mem_cons, List.not_mem_nil, or_false]
      rintro (rfl | rfl | rfl | rfl | rfl | rfl | rfl | rfl | rfl | rfl | rfl) <;>
        exact absurd hc (by decide)
  case shows =>
    exact (showCursor_follows (s := { s.ended with ofTerminal := false }) (hu.congr rfl rfl)
      h.cursor ht _).after rfl rfl rfl rfl rfl
  case settles =>
    intro hterm
    refine .of_same rfl rfl rfl rfl (iff_of_true rfl ?_)
    unfold Stays
    rw [if_neg hesc, if_neg fun hc => by simp [hterm] at hc]
    trivial
  case ends =>
    intro hterm
    unfold Stays putUnder
    rw [if_neg hesc, if_pos ⟨hs, hterm⟩, if_neg hesc, if_pos ⟨hs, hterm⟩]
    exact (finalLetter_follows h.ended hu.ended c).after rfl rfl rfl rfl rfl

/-- **A byte of a sequence** leaves the screen showing its cells, or puts what it puts. -/
theorem escaped_follows (h : s.Placed) (hu : s.Usable) (ht : s.Tiled) (hs : s.escaped c = some t) :
    s.Follows (s.Stays c) (s.putUnder c) t := by
  have hstays : ∀ e, s.escape = e → e ≠ .afterEsc → e ≠ .inCsi → s.Stays c := by
    rintro e rfl h1 h2
    unfold Stays
    rw [if_neg h1, if_neg fun hc => h2 hc.1]
    trivial
  apply escaped_cases hs
  case begins =>
    exact fun hesc =>
      .of_same rfl rfl rfl rfl (iff_of_true rfl (hstays _ hesc (by decide) (by decide)))
  case letter =>
    intro hesc
    unfold Stays putUnder
    rw [if_pos hesc, if_pos hesc]
    exact afterEscape_follows h hu c
  case charset =>
    exact fun hesc _ =>
      .of_same rfl rfl rfl rfl (iff_of_true rfl (hstays _ hesc (by decide) (by decide)))
  case palette =>
    exact fun hesc _ _ =>
      .of_same rfl rfl rfl rfl (iff_of_true rfl (hstays _ hesc (by decide) (by decide)))
  case sequence => exact fun hesc => inSequence_follows h hu ht hesc c

/-! ### Text -/

theorem wrapNow_puts (h : s.Placed) : Puts none s
    { ({ s with cursor := s.cursor - s.cursor % s.geo.width } : Console).lineFeed with
      wrapPending := false } := by
  have hfeed : Puts none s.atRowStart s.atRowStart.lineFeed := lineFeed_puts h.rowStart (by simp)
  have hputs : Puts none s s.atRowStart.lineFeed := hfeed.of_same rfl rfl rfl rfl
  exact hputs.then_same rfl rfl rfl rfl

theorem printed_puts (h : s.Placed) (c : UInt8) : Puts none s (s.printed c) := by
  unfold printed
  simp only
  set t : Console := if s.wrapPending = true then
    { ({ s with cursor := s.cursor - s.cursor % s.geo.width } : Console).lineFeed with
      wrapPending := false } else s with ht
  have hpt : t.Placed ∧ Puts none s t := by
    rw [ht]
    split_ifs
    · exact ⟨h.wrapNow, wrapNow_puts h⟩
    · exact ⟨h, .refl s⟩
  clear_value t
  have hg := hpt.1.glyph c
  have hgp : Puts none s (t.glyph c).1 := by
    refine hpt.2.then_same ?_ ?_ ?_ ?_ <;>
    · unfold glyph
      split_ifs <;> rfl
  generalize t.glyph c = q at hg hgp
  obtain ⟨u, v⟩ := q
  simp only at hg hgp ⊢
  by_cases hv : v = 0
  · rw [if_pos hv]
    exact hgp
  rw [if_neg hv]
  have hset : ∀ w : Console, w.Placed → Puts none s w →
      Puts none s (if (w.put w.cursor (w.cell v)).cursor % (w.put w.cursor (w.cell v)).geo.width =
          (w.put w.cursor (w.cell v)).geo.width - 1 then
        { w.put w.cursor (w.cell v) with wrapPending := true }
        else { w.put w.cursor (w.cell v) with
          cursor := (w.put w.cursor (w.cell v)).cursor + 1 }) := by
    intro w hw hp
    have hput := hp.trans (.put hw.cursor (by simp) (.refl (w.put w.cursor (w.cell v))))
    split_ifs <;> exact hput.then_same rfl rfl rfl rfl
  by_cases hi : u.inserting = true
  · rw [if_pos hi]
    exact hset _ (hg.draws (shiftLine_draws hg.sound hg.cursor true 1))
      (hgp.trans (shiftLine_puts hg true 1 (by simp)))
  · rw [if_neg hi]
    exact hset u hg hgp

theorem typeset_puts (h : s.Placed) (c : UInt8) : Puts none s (s.typeset c) := by
  apply typeset_cases h.sound h.cursor
  case feeds =>
    intro i hi
    exact (lineFeed_puts (h.moveUnwrapped hi) (by simp)).of_same rfl rfl rfl rfl
  case moves => exact fun _ _ => .same rfl rfl rfl rfl
  case shifts => exact fun _ => .same rfl rfl rfl rfl
  case nothing => exact .refl s
  case prints => exact printed_puts h c

/-- Cells put between the cursor's going and its coming back. -/
theorem lifted_tiled (h : s.Placed) (hu : s.Usable) (ht : s.Tiled)
    (hp : Puts none (s.cursorDraw false) t) (hc : t.cursor < t.geo.cells) :
    (t.cursorDraw true).Usable ∧ (t.cursorDraw true).Tiled := by
  have hk : ∀ i, s.bar = some i → i = s.cursor := by
    unfold bar
    intro i hi
    split_ifs at hi
    exact (Option.some.inj hi).symm
  have hd := cursorDraw_draws hu.sound false
  have hbare := cursorDraw_false_barred hu h.cursor ht.bareBut hk
  have hu' := hp.usable (hu.draws hd)
  exact ⟨hu'.draws (cursorDraw_draws hu'.sound true),
    cursorDraw_true_tiled hu' hc (hp.barred (hu.draws hd) hbare) (Or.inl rfl)⟩

/-! ### Every byte -/

/-- Cells put and the bar left where it is. -/
theorem Puts.tiled (h : Puts s.bar s t) (hu : s.Usable) (ht : s.Tiled)
    (hc : s.cursorShown = true → t.cursor = s.cursor) : t.Tiled := by
  have hbar : t.bar = s.bar := by
    unfold bar
    rw [h.shown_eq]
    split_ifs with hshown
    · rw [hc hshown]
    · rfl
  unfold Tiled
  rw [hbar]
  exact h.barred hu ht

/-- The cursor drawn again, from where it was not drawn. -/
theorem redrawn_tiled (hu : s.Usable) (hc : s.cursor < s.geo.cells) (hi : i < s.geo.cells)
    (ht : s.Tiled) (hne : s.cursor ≠ i) :
    (({ ({ s with cursor := i } : Console).cursorDraw false with
      cursor := s.cursor } : Console).cursorDraw true).Tiled := by
  set t : Console := { s with cursor := i } with hst
  have hut : t.Usable := hu.congr rfl rfl
  have hd := cursorDraw_draws hut.sound false
  have hk : s.bar ≠ some i := by
    unfold bar
    split_ifs <;> simp [hne]
  have hbarred : (t.cursorDraw false).Barred s.bar := Barred.cursorDraw_false ht hut hi hk
  refine cursorDraw_true_tiled ((hut.draws hd).congr rfl rfl) ?_ hbarred (Or.inr ?_)
  · simp only
    rw [hd.geo]
    exact hc
  · unfold bar
    simp only
    rw [hd.eq]

/-- The cursor drawn again, from where it was. -/
theorem redrawn_tiled_of_bareBut (hu : s.Usable) (hc : s.cursor < s.geo.cells)
    (hi : i < s.geo.cells) (hb : s.BareBut k) (hk : ∀ j, k = some j → j = i) :
    (({ ({ s with cursor := i } : Console).cursorDraw false with
      cursor := s.cursor } : Console).cursorDraw true).Tiled := by
  set t : Console := { s with cursor := i } with hst
  have hut : t.Usable := hu.congr rfl rfl
  have hd := cursorDraw_draws hut.sound false
  have hbarred : (t.cursorDraw false).Barred none := cursorDraw_false_barred hut hi hb hk
  refine cursorDraw_true_tiled ((hut.draws hd).congr rfl rfl) ?_ hbarred (Or.inl rfl)
  simp only
  rw [hd.geo]
  exact hc

/-- **Every byte** that spares the bar keeps the screen showing its cells. -/
theorem putc_tiled (h : s.Placed) (hu : s.Usable) (ht : s.Tiled) (hs : s.Spares c) :
    (s.putc c).Usable ∧ (s.putc c).Tiled := by
  have hcur : ∀ i, s.bar = some i → s.cursorShown = true ∧ i = s.cursor := by
    unfold bar
    intro i hi
    split_ifs at hi with hshown
    exact ⟨hshown, (Option.some.inj hi).symm⟩
  -- a sequence that leaves the cursor where it is
  have hstill : ∀ s', s.escaped c = some s' →
      (s.cursorShown = true → s'.cursor = s.cursor ∨ s.Stays c) → s'.Usable ∧ s'.Tiled := by
    intro s' hs' hcase
    rcases escaped_follows h hu ht hs' with ⟨-, hdone⟩ | ⟨hc, hp⟩
    · exact hdone
    · have hstays : s.cursorShown = true → s.Stays c := fun hshown => (hcase hshown).elim hc.1 id
      have hputs : Puts s.bar s s' := by
        refine hp _ fun i hi => ?_
        obtain ⟨hshown, rfl⟩ := hcur i hi
        exact ⟨rfl, hstays hshown, (hs hshown).1 (hstays hshown)⟩
      exact ⟨hputs.usable hu, hputs.tiled hu ht fun hshown => hc.2 (hstays hshown)⟩
  apply putc_cases (P := fun t => t.Usable ∧ t.Tiled)
  case taken => exact fun s' hs' hcap => hstill s' hs' fun hshown => Or.inr ((hs hshown).2 hcap)
  case caught => exact fun _ => ⟨hu.congr rfl rfl, ht⟩
  case moved =>
    intro s' hs' hmoved
    have hc' := (h.escaped hs').cursor
    rcases escaped_follows h hu ht hs' with ⟨hgeo, hu', ht'⟩ | ⟨-, hp⟩
    · exact ⟨hu'.draws (redrawn_draws hu'.sound _),
        redrawn_tiled hu' hc' (hgeo ▸ h.cursor) ht' hmoved⟩
    · have hp := hp none (by simp)
      have hu' := hp.usable hu
      exact ⟨hu'.draws (redrawn_draws hu'.sound _),
        redrawn_tiled_of_bareBut hu' hc' (hp.geo_eq ▸ h.cursor) (hp.bareBut hu ht.bareBut)
          fun i hi => (hcur i hi).2⟩
  case stayed => exact fun s' hs' hc => hstill s' hs' fun _ => Or.inl hc
  case text =>
    have hp := h.cursorDraw false
    exact lifted_tiled h hu ht (typeset_puts hp c) (hp.typeset c).cursor

/-! ### Runs -/

/-- A console that shows its cells. -/
structure Showing (s : Console) : Prop where
  placed : s.Placed
  usable : s.Usable
  shown : s.Shown

theorem Showing.of_tiled (h : s.Placed) (hu : s.Usable) (ht : s.Tiled) : s.Showing :=
  ⟨h, hu, (shown_iff_tiled hu h.cursor).2 ht⟩

theorem Showing.putc (h : s.Showing) (hs : s.Spares c) : (s.putc c).Showing := by
  have ht := (shown_iff_tiled h.usable h.placed.cursor).1 h.shown
  obtain ⟨hu', ht'⟩ := putc_tiled h.placed h.usable ht hs
  exact .of_tiled (h.placed.putc c) hu' ht'

/-- A grid laid out and cleared does. -/
theorem layout_showing {mem : Bool} (h : s.LaysOut s.geo.fbWidth s.geo.fbHeight mem)
    (hm : s.geo.Mapped) (ho : s.geo.Ordered) (hf : s.geo.glyphs ∈ fonts) (hput : s.strayedPut = false)
    (hpix : s.canvas.strayed = false) (hours : s.canvas.lent = false) :
    (s.layout mem).1.Showing := by
  have hp := laidOut_placed h hm hf hput hpix
  have hfill := fillRows_keeps hp.sound.mapped 0 le_rfl (s.laidOut.geo.palette 0) s.canvas
  have hu : s.laidOut.Usable := ⟨hp.sound, ho, hfill.lent.trans hours⟩
  rw [layout_eq h]
  exact .of_tiled (hp.draws (clear_draws (s := s.laidOut) hp.sound)) (clear_usable hu) (clear_tiled hu)

/-- So does the console as it starts. -/
theorem start_showing {shapes : Shapes} {m : Mode} {mem : Bool} (hs : start shapes m mem = some s) :
    s.Showing := by
  unfold start at hs
  simp only at hs
  split_ifs at hs with hok
  obtain rfl := Option.some.inj hs
  have hfont : fontDefault ∈ fonts := by decide
  refine layout_showing ?_ (.of_whole rfl le_rfl le_rfl) (fun m hm => ?_) hfont rfl rfl rfl
  · by_contra hl
    rw [layout_eq_of_not hl] at hok
    exact Bool.false_ne_true hok
  · exact absurd hm (by simp)

/-- **The screen shows the cells** after every run of bytes that each spare the bar. -/
theorem run_shown (h : s.Showing) (bytes : List UInt8) (hb : Runs.Along Spares putc s bytes) :
    (bytes.foldl putc s).Shown :=
  (hb.invariant (P := Showing) (fun _ _ h hs => h.putc hs) h).shown

theorem smallest_showing : smallest.Showing := start_showing start_eq_smallest

/-- An `x`, and the rest of its row erased. -/
theorem run_shown_smallest : Runs.Along Spares putc smallest [0x78, 0x1B, 0x5B, 0x4B] ∧
    ([0x78, 0x1B, 0x5B, 0x4B].foldl putc smallest).Shown := by
  have h : Runs.Along Spares putc smallest [0x78, 0x1B, 0x5B, 0x4B] := by
    decide
  exact ⟨h, run_shown smallest_showing _ h⟩

/-! ### What goes wrong -/

/-- A blank with the bar is not a blank without it. -/
theorem tile_bar_ne {g : Geometry} {fb : ℕ × ℕ → UInt32} {value : UInt16} (hg : g.Sound)
    (hmaps : g.maps = none) (hvalue : (value &&& 0xFF).toNat = 0x20)
    (hne : ink g value ≠ paper g value) (ht : Tile g fb i value true) : ¬ Tile g fb i value false := by
  intro hf
  obtain ⟨hscale, -, hheight, -⟩ := font_bounds hg.font
  have hcell : 0 < g.cellW ∧ 2 * g.glyphs.scale ≤ g.cellH := by
    exact ⟨Nat.mul_pos (by decide) hscale, hg.bar_le⟩
  set v : ℕ × ℕ := (i % g.width * g.cellW, i / g.width * g.cellH + (g.cellH - 1)) with hv
  have hin : v ∈ cellArea g i := ⟨⟨le_rfl, by simp only [hv]; omega⟩, by simp only [hv]; omega,
    by simp only [hv]; omega⟩
  have hbar : v ∈ barArea g i := ⟨hin, by simp only [hv]; omega⟩
  have hcov : Covers g v.1 v.2 v := by
    unfold Covers
    rw [hmaps]
  have h1 := ht v hin v hcov
  have h2 := hf v hin v hcov
  rw [tile_blank hg.font hvalue hin] at h2
  unfold tile at h1
  simp only at h1
  rw [if_pos ⟨rfl, hbar⟩] at h1
  exact hne (h1.symm.trans h2)

/-- A blank put under the bar takes the bar away. -/
theorem put_not_shown (h : s.Placed) (hu : s.Usable) (hmaps : s.geo.maps = none)
    (hshown : s.cursorShown = true) (hne : s.screen s.cursor ≠ s.cell 0x20)
    (hink : ink s.geo (s.cell 0x20) ≠ paper s.geo (s.cell 0x20)) :
    ¬ (s.put s.cursor (s.cell 0x20)).Shown := by
  intro hs
  have hd := put_draws h.sound h.cursor (s.cell 0x20)
  have ht := (shown_iff_tiled (hu.draws hd) (h.draws hd).cursor).1 hs s.cursor
  rw [put_geo, put_screen, Function.update_self] at ht
  have hbar : (s.put s.cursor (s.cell 0x20)).bar = some s.cursor := by
    unfold bar
    rw [put_cursorShown, hshown, hd.cursor]
    rfl
  rw [hbar, decide_eq_true rfl, put_canvas, if_neg hne] at ht
  exact tile_bar_ne h.sound hmaps (glyph_blank s) hink (ht h.cursor)
    (hu.sound.tile_drawCell hu.ordered h.cursor _ hu.ours)

/-- `escape [ X` over one cell. -/
theorem putc_eraseChars (h : s.Placed) (hcap : s.capture = none) (hesc : s.escape = .inCsi)
    (hterm : s.ofTerminal = false) (hcount : s.countParam = 1) :
    s.putc 0x58 = s.ended.put s.ended.cursor (s.ended.cell 0x20) := by
  have hseq : s.inSequence 0x58 = s.ended.finalLetter 0x58 := by
    unfold inSequence
    rw [if_neg (by decide), if_neg (by decide), if_neg (by decide)]
    exact if_neg (by simp [hterm])
  have hone : s.ended.eraseChars = s.ended.put s.ended.cursor (s.ended.cell 0x20) := by
    have hcol := h.sound.column_lt s.cursor
    have hle := Nat.mod_le s.cursor s.geo.width
    have hmin : min s.ended.countParam (s.ended.cursor - s.ended.cursor % s.ended.geo.width +
        s.ended.geo.width - s.ended.cursor) = 1 := by
      change min s.countParam (s.cursor - s.cursor % s.geo.width + s.geo.width - s.cursor) = 1
      rw [hcount]
      omega
    unfold eraseChars
    simp only
    rw [hmin]
    rfl
  have hs : s.escaped 0x58 = some (s.ended.put s.ended.cursor (s.ended.cell 0x20)) := by
    unfold escaped
    rw [hesc, ← hone]
    exact congrArg some hseq
  unfold putc
  rw [hcap, hs]
  exact if_neg (not_not.2 (put_draws (s := s.ended) h.sound h.cursor _).cursor)

/-- The console after `x`, backspace and `escape [`. -/
def overLetter : Console := [0x78, 0x08, 0x1B, 0x5B].foldl putc smallest

theorem overLetter_showing : overLetter.Showing := by
  have h : Runs.Along Spares putc smallest [0x78, 0x08, 0x1B, 0x5B] := by
    decide
  exact h.invariant (P := Showing) (fun _ _ h hs => h.putc hs) smallest_showing

/-- A letter erased under the cursor: `x`, backspace, `escape [ X`. -/
theorem exists_not_shown : ¬ ∀ (s : Console) (bytes : List UInt8), s.Showing →
    (bytes.foldl putc s).Shown := by
  intro h
  have hover := overLetter_showing
  have hcap : overLetter.capture = none := Option.isNone_iff_eq_none.1 (by decide)
  have hesc : overLetter.escape = .inCsi := by decide
  have hterm : overLetter.ofTerminal = false := by decide
  have hcount : overLetter.countParam = 1 := by decide
  have hmaps : overLetter.ended.geo.maps = none := Option.isNone_iff_eq_none.1 (by decide)
  have hs := h smallest ([0x78, 0x08, 0x1B, 0x5B] ++ [0x58]) smallest_showing
  rw [List.foldl_append, List.foldl_cons, List.foldl_nil, ← overLetter] at hs
  rw [putc_eraseChars hover.placed hcap hesc hterm hcount] at hs
  exact put_not_shown hover.placed.ended hover.usable.ended hmaps (by decide)
    (by decide) (by decide) hs

end Console
end BaxOS.Vga
