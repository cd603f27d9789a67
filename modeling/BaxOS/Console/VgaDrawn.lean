import BaxOS.Console.Vga
import BaxOS.Lib.Painted

/-!
# What is drawn, and where

A pixel of the screen drawn in covers some of the real one (`Covers`), and `emit` writes those its
pixels cover (`mem_dots`). Where the maps stay on the real screen, what is drawn inside the smaller
one is drawn inside the real one (`emit_inside`); a cell, its bar and a run of scan lines are
(`drawCell_keeps`, `drawBar_keeps`, `fillRows_keeps`).
-/

namespace BaxOS.Vga
open Painted

variable {g : Geometry} {c c' c'' : Canvas} {x y : ℕ} {px : List UInt32} {p : ℕ × ℕ}

/-- Whether a pixel of the screen drawn in is drawn over this one of the real screen. -/
def Covers (g : Geometry) (x y : ℕ) (p : ℕ × ℕ) : Prop :=
  match g.maps with
  | none => p = (x, y)
  | some m => (m.x x ≤ p.1 ∧ p.1 < m.x (x + 1)) ∧ m.y y ≤ p.2 ∧ p.2 < m.y (y + 1)

/-- The screen drawn in is within the real one. -/
def Geometry.Mapped (g : Geometry) : Prop :=
  match g.maps with
  | none => g.fbWidth ≤ g.realW ∧ g.fbHeight ≤ g.realH
  | some m => (∀ i ≤ g.fbWidth, m.x i ≤ g.realW) ∧ ∀ i ≤ g.fbHeight, m.y i ≤ g.realH

theorem Geometry.Mapped.of_whole (h : g.maps = none) (hw : g.fbWidth ≤ g.realW)
    (hh : g.fbHeight ≤ g.realH) : g.Mapped := by
  unfold Geometry.Mapped
  rw [h]
  exact ⟨hw, hh⟩

theorem Covers.inside (h : Covers g x y p) (hm : g.Mapped) (hx : x < g.fbWidth) (hy : y < g.fbHeight) :
    p.1 < g.realW ∧ p.2 < g.realH := by
  unfold Covers at h
  unfold Geometry.Mapped at hm
  cases hmaps : g.maps with
  | none =>
    rw [hmaps] at h hm
    subst h
    exact ⟨hx.trans_le hm.1, hy.trans_le hm.2⟩
  | some m =>
    rw [hmaps] at h hm
    exact ⟨h.1.2.trans_le (hm.1 (x + 1) hx), h.2.2.trans_le (hm.2 (y + 1) hy)⟩

/-- **What `emit` writes.** -/
theorem mem_dots {d : (ℕ × ℕ) × UInt32} :
    d ∈ dots g x y px ↔ ∃ i, Covers g (x + i) y d.1 ∧ px[i]? = some d.2 := by
  obtain ⟨⟨dx, dy⟩, rgb⟩ := d
  unfold dots Covers
  cases g.maps with
  | none =>
    simp only [List.mem_map, Prod.mk.injEq, Prod.exists]
    constructor
    · rintro ⟨rgb', i, hi, ⟨rfl, rfl⟩, rfl⟩
      obtain ⟨hle, hget⟩ := List.mem_zipIdx_iff_le_and_getElem?_sub.1 hi
      simp only at hle hget
      exact ⟨i - x, ⟨by omega, rfl⟩, hget⟩
    · rintro ⟨i, ⟨rfl, rfl⟩, hget⟩
      refine ⟨rgb, x + i, List.mem_zipIdx_iff_le_and_getElem?_sub.2 ⟨Nat.le_add_right x i, ?_⟩,
        ⟨rfl, rfl⟩, rfl⟩
      simpa using hget
  | some m =>
    simp only [List.mem_flatMap, List.mem_range'_1, List.mem_map, Prod.mk.injEq, Prod.exists]
    constructor
    · rintro ⟨ry, hry, rgb', i, hi, rx, hrx, ⟨rfl, rfl⟩, rfl⟩
      obtain ⟨hle, hget⟩ := List.mem_zipIdx_iff_le_and_getElem?_sub.1 hi
      simp only at hle hget
      refine ⟨i - x, ⟨?_, by omega⟩, hget⟩
      rw [Nat.add_sub_cancel' hle]
      omega
    · rintro ⟨i, ⟨hx, hy⟩, hget⟩
      refine ⟨dy, by omega, rgb, x + i,
        List.mem_zipIdx_iff_le_and_getElem?_sub.2 ⟨Nat.le_add_right x i, ?_⟩, dx, by omega,
        ⟨rfl, rfl⟩, rfl⟩
      simpa using hget

theorem foldl_set (g : Geometry) (ds : List ((ℕ × ℕ) × UInt32)) (c : Canvas) :
    ds.foldl (Canvas.set g) c =
      { c with
        fb := paint c.fb ds
        strayed := c.strayed || ds.any fun d => ! (d.1.1 < g.realW ∧ d.1.2 < g.realH) } := by
  induction ds generalizing c with
  | nil => simp
  | cons d ds ih => simp [ih, Canvas.set, Bool.or_assoc]

/-- **Drawing inside the screen** is drawing inside the framebuffer. -/
theorem emit_inside (hm : g.Mapped) (hx : x + px.length ≤ g.fbWidth) (hy : y < g.fbHeight)
    (c : Canvas) :
    emit g x y px c = if c.lent then c else { c with fb := paint c.fb (dots g x y px) } := by
  unfold emit
  split_ifs with hl
  · rfl
  · have hpast : pastMaps g x y px = false := by
      unfold pastMaps
      simp [hx, hy]
    have hany : (dots g x y px).any (fun d => ! (d.1.1 < g.realW ∧ d.1.2 < g.realH)) = false := by
      rw [List.any_eq_false]
      intro d hd
      obtain ⟨i, hc, hget⟩ := mem_dots.1 hd
      obtain ⟨hi, -⟩ := List.getElem?_eq_some_iff.1 hget
      have := hc.inside hm (by omega) hy
      simp [this]
    rw [foldl_set, hpast, hany]
    simp

/-! ### Drawing keeps inside -/

/-- The same framebuffer, drawn on and not strayed from. -/
structure Canvas.Keeps (c c' : Canvas) : Prop where
  lent : c'.lent = c.lent
  strayed : c'.strayed = c.strayed

theorem Canvas.Keeps.refl (c : Canvas) : c.Keeps c := ⟨rfl, rfl⟩

theorem Canvas.Keeps.trans (h : c.Keeps c') (h' : c'.Keeps c'') : c.Keeps c'' :=
  ⟨h'.lent.trans h.lent, h'.strayed.trans h.strayed⟩

/-- Steps that each keep inside, one after another. -/
theorem Canvas.Keeps.foldl {α : Type*} {f : Canvas → α → Canvas} (l : List α) (c : Canvas)
    (h : ∀ a ∈ l, ∀ c : Canvas, c.Keeps (f c a)) : c.Keeps (l.foldl f c) := by
  induction l generalizing c with
  | nil => exact .refl c
  | cons a l ih =>
    exact (h a List.mem_cons_self c).trans (ih (f c a) fun b hb => h b (List.mem_cons_of_mem a hb))

theorem emit_keeps (hm : g.Mapped) (hx : x + px.length ≤ g.fbWidth) (hy : y < g.fbHeight)
    (c : Canvas) : c.Keeps (emit g x y px c) := by
  rw [emit_inside hm hx hy]
  split_ifs
  · exact .refl c
  · exact ⟨rfl, rfl⟩

theorem fillRows_keeps (hm : g.Mapped) (y0 : ℕ) {y1 : ℕ} (hy : y1 ≤ g.fbHeight) (rgb : UInt32)
    (c : Canvas) : c.Keeps (fillRows g y0 y1 rgb c) := by
  apply Canvas.Keeps.foldl
  intro y hy' c
  apply Canvas.Keeps.foldl
  intro k hk c
  rw [List.mem_range'_1] at hy'
  rw [List.mem_range] at hk
  apply emit_keeps hm
  · rw [List.length_replicate]
    omega
  · omega

/-! ### The grid -/

/-- The grid is laid out inside the screen drawn in. -/
structure Geometry.Sound (g : Geometry) : Prop where
  mapped : g.Mapped
  font : g.glyphs ∈ fonts
  width_pos : 0 < g.width
  height_pos : 0 < g.height
  cells_eq : g.cells = g.height * g.width
  right : g.width * g.cellW ≤ g.fbWidth
  bottom : g.height * g.cellH ≤ g.fbHeight

theorem font_bounds {f : Font} (h : f ∈ fonts) :
    0 < f.scale ∧ f.scale ≤ 4 ∧ 2 ≤ f.height ∧ f.height ≤ 16 ∧ 16 % f.height = 0 := by
  unfold fonts at h
  simp only [List.mem_cons, List.not_mem_nil, or_false] at h
  rcases h with rfl | rfl | rfl | rfl | rfl <;> decide

theorem length_glyphLine (g : Geometry) (bits : UInt8) (fg bg : UInt32) :
    (glyphLine g bits fg bg).length = g.cellW := by
  simp [glyphLine, Geometry.cellW, List.length_flatMap]

/-- The scan lines of a glyph fill its cell. -/
theorem glyph_line_lt {y again : ℕ} (hy : y < g.glyphs.height) (ha : again < g.glyphs.scale) :
    y * g.glyphs.scale + again < g.cellH := by
  have h := Nat.mul_le_mul_right g.glyphs.scale (Nat.succ_le_of_lt hy)
  rw [Nat.succ_mul] at h
  unfold Geometry.cellH
  omega

namespace Geometry.Sound

variable (hg : g.Sound) {i : ℕ}

include hg

theorem column_lt (i : ℕ) : i % g.width < g.width := Nat.mod_lt i hg.width_pos

theorem row_lt (hi : i < g.cells) : i / g.width < g.height := by
  rw [hg.cells_eq] at hi
  exact Nat.div_lt_of_lt_mul (by rwa [Nat.mul_comm])

/-- A cell is inside the screen. -/
theorem cell_right (i : ℕ) : i % g.width * g.cellW + g.cellW ≤ g.fbWidth := by
  have h := Nat.mul_le_mul_right g.cellW (Nat.succ_le_of_lt (hg.column_lt i))
  rw [Nat.succ_mul] at h
  exact h.trans hg.right

theorem cell_bottom (hi : i < g.cells) {dy : ℕ} (hdy : dy < g.cellH) :
    i / g.width * g.cellH + dy < g.fbHeight := by
  have h := Nat.mul_le_mul_right g.cellH (Nat.succ_le_of_lt (hg.row_lt hi))
  rw [Nat.succ_mul] at h
  have := hg.bottom
  omega

theorem bar_le : 2 * g.glyphs.scale ≤ g.cellH := by
  exact Nat.mul_le_mul_right _ (font_bounds hg.font).2.2.1

theorem drawCell_keeps (hi : i < g.cells) (value : UInt16) (c : Canvas) :
    c.Keeps (drawCell g i value c) := by
  apply Canvas.Keeps.foldl
  intro y hy c
  apply Canvas.Keeps.foldl
  intro again ha c
  rw [List.mem_range] at hy ha
  apply emit_keeps hg.mapped
  · rw [length_glyphLine]
    exact hg.cell_right i
  · rw [Nat.add_assoc]
    exact hg.cell_bottom hi (glyph_line_lt hy ha)

theorem drawBar_keeps (hi : i < g.cells) (value : UInt16) (c : Canvas) :
    c.Keeps (Console.drawBar g i value c) := by
  apply Canvas.Keeps.foldl
  intro y hy c
  have hbar := hg.bar_le
  rw [List.mem_range'_1] at hy
  apply emit_keeps hg.mapped
  · rw [List.length_replicate]
    exact hg.cell_right i
  · exact hg.cell_bottom hi (by omega)

end Geometry.Sound

end BaxOS.Vga
