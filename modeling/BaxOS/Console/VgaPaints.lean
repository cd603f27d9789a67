import BaxOS.Console.VgaDrawn

/-!
# What a cell shows

Drawing paints some pixels of the screen drawn in as a picture has them, and no others (`Paints`): a
cell's by `draw_cell`, its bottom scan lines by the bar, whole rows by `fill_rows`. A cell shows a
value, with the bar or without (`Tile`), whatever is drawn on the cells around it.
-/

namespace BaxOS.Vga
open Painted

variable {g : Geometry} {c c' c'' : Canvas} {T : ℕ × ℕ → UInt32} {A B : Set (ℕ × ℕ)}
  {v w p : ℕ × ℕ} {i j : ℕ} {value : UInt16}

/-- The pixels of a smaller screen lie in order over the real one. -/
def Geometry.Ordered (g : Geometry) : Prop :=
  ∀ m ∈ g.maps, (∀ i j, i ≤ j → j ≤ g.fbWidth → m.x i ≤ m.x j) ∧
    ∀ i j, i ≤ j → j ≤ g.fbHeight → m.y i ≤ m.y j

/-- A pixel of the screen drawn in. -/
def Geometry.Inside (g : Geometry) (v : ℕ × ℕ) : Prop := v.1 < g.fbWidth ∧ v.2 < g.fbHeight

/-- Steps of a map that share a place are the same. -/
theorem eq_of_between {f : ℕ → ℕ} {n i j k : ℕ} (hf : ∀ i j, i ≤ j → j ≤ n → f i ≤ f j)
    (hi : i < n) (hj : j < n) (hik : f i ≤ k ∧ k < f (i + 1)) (hjk : f j ≤ k ∧ k < f (j + 1)) :
    i = j := by
  rcases Nat.lt_trichotomy i j with h | h | h
  · have := hf (i + 1) j h hj.le
    omega
  · exact h
  · have := hf (j + 1) i h hi.le
    omega

/-- A pixel of the real screen is drawn for at most one. -/
theorem Covers.unique (ho : g.Ordered) (hv : g.Inside v) (hw : g.Inside w)
    (h : Covers g v.1 v.2 p) (h' : Covers g w.1 w.2 p) : v = w := by
  unfold Covers at h h'
  cases hm : g.maps with
  | none =>
    rw [hm] at h h'
    exact h.symm.trans h'
  | some m =>
    rw [hm] at h h'
    obtain ⟨hx, hy⟩ := ho m hm
    exact Prod.ext (eq_of_between hx hv.1 hw.1 h.1 h'.1) (eq_of_between hy hv.2 hw.2 h.2 h'.2)

/-! ### Painting -/

/-- The pixels of an area are painted as a picture has them, and no others. -/
structure Paints (g : Geometry) (T : ℕ × ℕ → UInt32) (A : Set (ℕ × ℕ)) (c c' : Canvas) : Prop where
  lent : c'.lent = c.lent
  inside : ∀ v ∈ A, g.Inside v
  on : ∀ v ∈ A, ∀ p, Covers g v.1 v.2 p → c'.fb p = T v
  off : ∀ p, (∀ v ∈ A, ¬ Covers g v.1 v.2 p) → c'.fb p = c.fb p

namespace Paints

theorem refl (c : Canvas) : Paints g T ∅ c c :=
  ⟨rfl, fun _ h => h.elim, fun _ h => h.elim, fun _ _ => rfl⟩

theorem congr (h : Paints g T A c c') (hA : ∀ v, v ∈ A ↔ v ∈ B) : Paints g T B c c' := by
  rwa [← Set.ext hA]

/-- One area painted after another. -/
theorem trans (ho : g.Ordered) (h : Paints g T A c c') (h' : Paints g T B c' c'') :
    Paints g T (A ∪ B) c c'' where
  lent := h'.lent.trans h.lent
  inside v hv := hv.elim (h.inside v) (h'.inside v)
  on v hv p hp := by
    by_cases hB : ∃ w ∈ B, Covers g w.1 w.2 p
    · obtain ⟨w, hw, hwp⟩ := hB
      have hvw : v = w := Covers.unique ho (hv.elim (h.inside v) (h'.inside v)) (h'.inside w hw) hp hwp
      rw [hvw]
      exact h'.on w hw p hwp
    · have hnone : ∀ w ∈ B, ¬ Covers g w.1 w.2 p := fun w hw hwp => hB ⟨w, hw, hwp⟩
      rw [h'.off p hnone]
      exact h.on v (hv.resolve_right fun hvB => hnone v hvB hp) p hp
  off p hp := by
    rw [h'.off p fun v hv => hp v (Or.inr hv)]
    exact h.off p fun v hv => hp v (Or.inl hv)

/-- Areas painted one after another. -/
theorem foldl {α : Type*} (ho : g.Ordered) {A : α → Set (ℕ × ℕ)} {f : Canvas → α → Canvas}
    {l : List α} (h : ∀ a ∈ l, ∀ c : Canvas, c.lent = false → Paints g T (A a) c (f c a))
    (hc : c.lent = false) : Paints g T {v | ∃ a ∈ l, v ∈ A a} c (l.foldl f c) := by
  induction l generalizing c with
  | nil =>
    refine (refl c).congr fun v => ?_
    simp
  | cons a l ih =>
    have h1 := h a List.mem_cons_self c hc
    have h2 := ih (c := f c a) (fun b hb => h b (List.mem_cons_of_mem a hb)) (h1.lent.trans hc)
    refine (h1.trans ho h2).congr fun v => ?_
    simp

/-- What is outside the area still shows what it did. -/
theorem keeps (ho : g.Ordered) (h : Paints g T A c c') (hv : g.Inside v) (hvA : v ∉ A)
    (hp : Covers g v.1 v.2 p) : c'.fb p = c.fb p := by
  apply h.off
  intro w hw hwp
  exact hvA (Covers.unique ho hv (h.inside w hw) hp hwp ▸ hw)

end Paints

/-- A line painted: `emit`. -/
theorem emit_paints (hm : g.Mapped) (ho : g.Ordered) {x y : ℕ} {px : List UInt32}
    (hx : x + px.length ≤ g.fbWidth) (hy : y < g.fbHeight)
    (hT : ∀ k rgb, px[k]? = some rgb → T (x + k, y) = rgb) (hc : c.lent = false) :
    Paints g T {v | v.2 = y ∧ x ≤ v.1 ∧ v.1 < x + px.length} c (emit g x y px c) := by
  have hemit : emit g x y px c = { c with fb := paint c.fb (dots g x y px) } := by
    rw [emit_inside hm hx hy, if_neg (by simp [hc])]
  rw [hemit]
  refine ⟨rfl, ?_, ?_, ?_⟩
  · rintro v ⟨hv, -, hlt⟩
    exact ⟨hlt.trans_le hx, hv ▸ hy⟩
  · rintro ⟨vx, vy⟩ ⟨hv, hle, hlt⟩ p hp
    simp only at hv hle hlt hp
    subst hv
    obtain ⟨k, rfl⟩ := Nat.exists_eq_add_of_le hle
    have hk : k < px.length := by omega
    have hget : px[k]? = some px[k] := List.getElem?_eq_getElem hk
    rw [hT k px[k] hget]
    apply paint_of_mem
    · intro d hd hdp
      obtain ⟨k', hcov, hget'⟩ := mem_dots.1 hd
      obtain ⟨hk', -⟩ := List.getElem?_eq_some_iff.1 hget'
      rw [hdp] at hcov
      have hsame := Covers.unique (v := (x + k, vy)) (w := (x + k', vy)) ho
        ⟨by simp only; omega, hy⟩ ⟨by simp only; omega, hy⟩ hp hcov
      obtain rfl : k = k' := by
        simpa using hsame
      exact Option.some.inj (hget'.symm.trans hget)
    · exact ⟨(p, px[k]), mem_dots.2 ⟨k, hp, hget⟩, rfl⟩
  · intro p hp
    apply paint_of_notMem
    intro d hd hdp
    obtain ⟨k, hcov, hget⟩ := mem_dots.1 hd
    obtain ⟨hk, -⟩ := List.getElem?_eq_some_iff.1 hget
    rw [hdp] at hcov
    exact hp (x + k, y) ⟨rfl, Nat.le_add_right x k, by simp only; omega⟩ hcov

/-- Whole rows painted: `fill_rows`. -/
theorem fillRows_paints (hm : g.Mapped) (ho : g.Ordered) (y0 : ℕ) {y1 : ℕ} (hy : y1 ≤ g.fbHeight)
    (rgb : UInt32) (hc : c.lent = false) :
    Paints g (fun _ => rgb) {v | (y0 ≤ v.2 ∧ v.2 < y1) ∧ v.1 < g.fbWidth} c
      (fillRows g y0 y1 rgb c) := by
  have hrow : ∀ y ∈ List.range' y0 (y1 - y0), ∀ c : Canvas, c.lent = false →
      Paints g (fun _ => rgb) {v | v.2 = y ∧ v.1 < g.fbWidth} c
        ((List.range ((g.fbWidth + 63) / 64)).foldl (fun c k =>
          emit g (64 * k) y (List.replicate (min 64 (g.fbWidth - 64 * k)) rgb) c) c) := by
    intro y hy' c hc
    rw [List.mem_range'_1] at hy'
    have hpiece : ∀ k ∈ List.range ((g.fbWidth + 63) / 64), ∀ c : Canvas, c.lent = false →
        Paints g (fun _ => rgb)
          {v | v.2 = y ∧ 64 * k ≤ v.1 ∧ v.1 < 64 * k + min 64 (g.fbWidth - 64 * k)} c
          (emit g (64 * k) y (List.replicate (min 64 (g.fbWidth - 64 * k)) rgb) c) := by
      intro k hk c hc
      rw [List.mem_range] at hk
      have h := emit_paints hm ho (T := fun _ => rgb)
        (show 64 * k + (List.replicate (min 64 (g.fbWidth - 64 * k)) rgb).length ≤ g.fbWidth by
          rw [List.length_replicate]; omega) (show y < g.fbHeight by omega)
        (fun k' rgb' hget => (List.eq_of_mem_replicate (List.mem_of_getElem? hget)).symm) hc
      rwa [List.length_replicate] at h
    refine (Paints.foldl ho hpiece hc).congr fun v => ?_
    simp only [Set.mem_ofPred_eq, List.mem_range]
    constructor
    · rintro ⟨k, hk, hvy, hle, hlt⟩
      exact ⟨hvy, by omega⟩
    · rintro ⟨hvy, hlt⟩
      exact ⟨v.1 / 64, by omega, hvy, by omega, by omega⟩
  refine (Paints.foldl ho hrow hc).congr fun v => ?_
  simp only [Set.mem_ofPred_eq, List.mem_range'_1]
  constructor
  · rintro ⟨y, hy', hvy, hlt⟩
    exact ⟨by omega, hlt⟩
  · rintro ⟨hvy, hlt⟩
    exact ⟨v.2, by omega, rfl, hlt⟩

/-! ### Cells -/

/-- The pixels of a cell. -/
def cellArea (g : Geometry) (i : ℕ) : Set (ℕ × ℕ) :=
  {v | (i % g.width * g.cellW ≤ v.1 ∧ v.1 < i % g.width * g.cellW + g.cellW) ∧
    i / g.width * g.cellH ≤ v.2 ∧ v.2 < i / g.width * g.cellH + g.cellH}

/-- Those of its bar. -/
def barArea (g : Geometry) (i : ℕ) : Set (ℕ × ℕ) :=
  {v | v ∈ cellArea g i ∧ i / g.width * g.cellH + g.cellH ≤ v.2 + 2 * g.glyphs.scale}

open Classical in
/-- What a cell looks like. -/
noncomputable def tile (g : Geometry) (i : ℕ) (value : UInt16) (bar : Bool) (v : ℕ × ℕ) : UInt32 :=
  let dx := v.1 - i % g.width * g.cellW
  let dy := v.2 - i / g.width * g.cellH
  if bar ∧ v ∈ barArea g i then ink g value
  else
    (glyphLine g (glyphBits g value (dy / g.glyphs.scale)) (ink g value) (paper g value)).getD dx 0

/-- Whether a cell looks as it should. -/
def Tile (g : Geometry) (fb : ℕ × ℕ → UInt32) (i : ℕ) (value : UInt16) (bar : Bool) : Prop :=
  ∀ v ∈ cellArea g i, ∀ p, Covers g v.1 v.2 p → fb p = tile g i value bar v

/-! ### The blank -/

theorem glyphBits_blank (hf : g.glyphs ∈ fonts) {y : ℕ} (hy : y < g.glyphs.height)
    (hvalue : (value &&& 0xFF).toNat = 0x20) : glyphBits g value y = 0 := by
  obtain ⟨-, -, -, hle, hmod⟩ := font_bounds hf
  have hstep : (y + 1) * (16 / g.glyphs.height) ≤ 16 := by
    refine (Nat.mul_le_mul_right _ hy).trans ?_
    exact Nat.mul_div_le 16 g.glyphs.height
  have hpos : 0 < 16 / g.glyphs.height := Nat.div_pos hle (by omega)
  rw [Nat.succ_mul] at hstep
  unfold glyphBits
  simp only [hvalue]
  rw [g.shapes.space _ (by omega), Nat.add_assoc, Nat.add_sub_assoc (by omega),
    g.shapes.space _ (by omega)]
  rfl

/-- A cell of blank looks like its paper. -/
theorem tile_blank (hf : g.glyphs ∈ fonts) (hvalue : (value &&& 0xFF).toNat = 0x20)
    (hv : v ∈ cellArea g i) : tile g i value false v = paper g value := by
  have hscale := (font_bounds hf).1
  obtain ⟨⟨hx1, hx2⟩, hy1, hy2⟩ := hv
  have hdy : (v.2 - i / g.width * g.cellH) / g.glyphs.scale < g.glyphs.height := by
    rw [Nat.div_lt_iff_lt_mul hscale]
    change _ < g.cellH
    omega
  have hline : ∀ rgb ∈ glyphLine g 0 (ink g value) (paper g value), rgb = paper g value := by
    intro rgb hrgb
    unfold glyphLine at hrgb
    have h : (∃ x, x < glyphW) ∧ ¬ g.glyphs.scale = 0 ∧ rgb = paper g value := by simpa using hrgb
    exact h.2.2
  have hlen := length_glyphLine g 0 (ink g value) (paper g value)
  unfold tile
  simp only [Bool.false_eq_true, false_and, if_false]
  rw [glyphBits_blank hf hdy hvalue, List.getD_eq_getElem?_getD,
    List.getElem?_eq_getElem (by rw [hlen]; omega)]
  exact hline _ (List.getElem_mem _)

namespace Geometry.Sound

variable (hg : g.Sound) (ho : g.Ordered)

include hg

theorem cellArea_inside (hi : i < g.cells) (hv : v ∈ cellArea g i) : g.Inside v := by
  obtain ⟨⟨-, hx⟩, hy1, hy2⟩ := hv
  have hb := hg.cell_bottom hi (show v.2 - i / g.width * g.cellH < g.cellH by omega)
  exact ⟨hx.trans_le (hg.cell_right i), by omega⟩

omit hg in
/-- A pixel is of one cell only. -/
theorem cell_unique (hi : v ∈ cellArea g i) (hj : v ∈ cellArea g j) : i = j := by
  have hmod : i % g.width = j % g.width := by
    rw [← Nat.div_eq_of_lt_le hi.1.1 (by rw [Nat.succ_mul]; exact hi.1.2),
      ← Nat.div_eq_of_lt_le hj.1.1 (by rw [Nat.succ_mul]; exact hj.1.2)]
  have hdiv : i / g.width = j / g.width := by
    rw [← Nat.div_eq_of_lt_le hi.2.1 (by rw [Nat.succ_mul]; exact hi.2.2),
      ← Nat.div_eq_of_lt_le hj.2.1 (by rw [Nat.succ_mul]; exact hj.2.2)]
  rw [← Nat.div_add_mod i g.width, ← Nat.div_add_mod j g.width, hmod, hdiv]

include ho

/-- **A cell painted**: `draw_cell`. -/
theorem drawCell_paints (hi : i < g.cells) (value : UInt16) (hc : c.lent = false) :
    Paints g (tile g i value false) (cellArea g i) c (drawCell g i value c) := by
  have hscale := (font_bounds hg.font).1
  have hline : ∀ y ∈ List.range g.glyphs.height, ∀ c : Canvas, c.lent = false →
      Paints g (tile g i value false)
        {v | ∃ again ∈ List.range g.glyphs.scale,
          v.2 = i / g.width * g.cellH + y * g.glyphs.scale + again ∧
            i % g.width * g.cellW ≤ v.1 ∧ v.1 < i % g.width * g.cellW + g.cellW} c
        ((List.range g.glyphs.scale).foldl (fun c again =>
          emit g (i % g.width * g.cellW) (i / g.width * g.cellH + y * g.glyphs.scale + again)
            (glyphLine g (glyphBits g value y) (ink g value) (paper g value)) c) c) := by
    intro y hy c hc
    refine Paints.foldl ho ?_ hc
    intro again ha c hc
    rw [List.mem_range] at hy ha
    have hlen := length_glyphLine g (glyphBits g value y) (ink g value) (paper g value)
    have hx : i % g.width * g.cellW +
        (glyphLine g (glyphBits g value y) (ink g value) (paper g value)).length ≤ g.fbWidth := by
      rw [hlen]
      exact hg.cell_right i
    have hbottom : i / g.width * g.cellH + y * g.glyphs.scale + again < g.fbHeight := by
      rw [Nat.add_assoc]
      exact hg.cell_bottom hi (glyph_line_lt hy ha)
    have h := emit_paints hg.mapped ho (T := tile g i value false) hx hbottom ?_ hc
    · rwa [hlen] at h
    · -- every scan line of the cell is one of the glyph's, `scale` times
      intro k rgb hget
      have hdy : (y * g.glyphs.scale + again) / g.glyphs.scale = y := by
        rw [Nat.mul_comm, Nat.mul_add_div hscale, Nat.div_eq_of_lt ha, Nat.add_zero]
      unfold tile
      simp only [Bool.false_eq_true, false_and, if_false, Nat.add_sub_cancel_left]
      rw [Nat.add_assoc, Nat.add_sub_cancel_left, hdy, List.getD_eq_getElem?_getD, hget]
      rfl
  refine (Paints.foldl ho hline hc).congr fun v => ?_
  simp only [Set.mem_ofPred_eq, List.mem_range, cellArea]
  constructor
  · rintro ⟨y, hy, again, ha, hvy, hx⟩
    have := glyph_line_lt hy ha
    exact ⟨hx, by omega, by omega⟩
  · rintro ⟨hx, hle, hlt⟩
    have hdy : (v.2 - i / g.width * g.cellH) / g.glyphs.scale < g.glyphs.height := by
      rw [Nat.div_lt_iff_lt_mul hscale]
      change _ < g.cellH
      omega
    refine ⟨_, hdy, (v.2 - i / g.width * g.cellH) % g.glyphs.scale, Nat.mod_lt _ hscale, ?_, hx⟩
    have := Nat.div_add_mod' (v.2 - i / g.width * g.cellH) g.glyphs.scale
    omega

/-- **A bar painted.** -/
theorem drawBar_paints (hi : i < g.cells) (value : UInt16) (hc : c.lent = false) :
    Paints g (fun _ => ink g value) (barArea g i) c (Console.drawBar g i value c) := by
  have hbar := hg.bar_le
  have hline : ∀ y ∈ List.range' (g.cellH - 2 * g.glyphs.scale) (2 * g.glyphs.scale),
      ∀ c : Canvas, c.lent = false →
      Paints g (fun _ => ink g value)
        {v | v.2 = i / g.width * g.cellH + y ∧
          i % g.width * g.cellW ≤ v.1 ∧ v.1 < i % g.width * g.cellW + g.cellW} c
        (emit g (i % g.width * g.cellW) (i / g.width * g.cellH + y)
          (List.replicate g.cellW (ink g value)) c) := by
    intro y hy c hc
    rw [List.mem_range'_1] at hy
    have hx : i % g.width * g.cellW + (List.replicate g.cellW (ink g value)).length ≤ g.fbWidth := by
      rw [List.length_replicate]
      exact hg.cell_right i
    have hbottom : i / g.width * g.cellH + y < g.fbHeight := hg.cell_bottom hi (by omega)
    have h := emit_paints hg.mapped ho (T := fun _ => ink g value) hx hbottom
      (fun k rgb hget => (List.eq_of_mem_replicate (List.mem_of_getElem? hget)).symm) hc
    rwa [List.length_replicate] at h
  refine (Paints.foldl ho hline hc).congr fun v => ?_
  simp only [Set.mem_ofPred_eq, List.mem_range'_1, barArea, cellArea]
  constructor
  · rintro ⟨y, hy, hvy, hx⟩
    exact ⟨⟨hx, by omega, by omega⟩, by omega⟩
  · rintro ⟨⟨hx, hle, hlt⟩, hbottom⟩
    exact ⟨v.2 - i / g.width * g.cellH, by omega, by omega, hx⟩

/-- Drawing elsewhere leaves a cell as it looks. -/
theorem tile_of_paints (hj : j < g.cells) {bar : Bool} (h : Paints g T A c c')
    (hA : ∀ v ∈ cellArea g j, v ∉ A) (ht : Tile g c.fb j value bar) : Tile g c'.fb j value bar := by
  intro v hv p hp
  rw [h.keeps ho (hg.cellArea_inside hj hv) (hA v hv) hp]
  exact ht v hv p hp

/-- A cell drawn looks as it should. -/
theorem tile_drawCell (hi : i < g.cells) (value : UInt16) (hc : c.lent = false) :
    Tile g (drawCell g i value c).fb i value false :=
  (hg.drawCell_paints ho hi value hc).on

/-- The others look as they did. -/
theorem tile_drawCell_of_ne (hi : i < g.cells) (hj : j < g.cells) (hne : j ≠ i) {value' : UInt16}
    {bar : Bool} (hc : c.lent = false) (ht : Tile g c.fb j value bar) :
    Tile g (drawCell g i value' c).fb j value bar :=
  hg.tile_of_paints ho hj (hg.drawCell_paints ho hi value' hc)
    (fun _ hv hv' => hne (cell_unique hv hv')) ht

/-- The bar drawn over a cell. -/
theorem tile_drawBar (hi : i < g.cells) {bar : Bool} (hc : c.lent = false)
    (ht : Tile g c.fb i value bar) : Tile g (Console.drawBar g i value c).fb i value true := by
  have hp := hg.drawBar_paints ho hi value hc
  intro v hv p hvp
  by_cases hb : v ∈ barArea g i
  · rw [hp.on v hb p hvp]
    unfold tile
    simp [hb]
  · rw [hp.keeps ho (hg.cellArea_inside hi hv) hb hvp, ht v hv p hvp]
    unfold tile
    simp [hb]

theorem tile_drawBar_of_ne (hi : i < g.cells) (hj : j < g.cells) (hne : j ≠ i) {value' : UInt16}
    {bar : Bool} (hc : c.lent = false) (ht : Tile g c.fb j value bar) :
    Tile g (Console.drawBar g i value' c).fb j value bar :=
  hg.tile_of_paints ho hj (hg.drawBar_paints ho hi value' hc)
    (fun _ hv hv' => hne (cell_unique hv hv'.1)) ht

end Geometry.Sound

end BaxOS.Vga
