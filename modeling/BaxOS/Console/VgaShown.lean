import BaxOS.Console.VgaBounds
import BaxOS.Console.VgaPaints

/-!
# What the cells show

Each cell shows what it holds, the bar over one of them (`Barred`, `Tiled`), and `cursor_draw` moves
the bar. `put` draws the cell it changes, so what every sequence puts (`Puts`) leaves the cells
showing what they hold (`Puts.bareBut`), and the bar where it is if the cell under it stays as it is
(`Puts.barred`). For each sequence that leaves the cursor where it is, this is what it puts there.
-/

namespace BaxOS.Vga
namespace Console

variable {s t u : Console} {k k' : Option ℕ} {i : ℕ} {value : UInt16}

/-- The cell the bar is over. -/
def bar (s : Console) : Option ℕ := if s.cursorShown then some s.cursor else none

/-- Every cell shows what it holds, and the bar is over this one. -/
def Barred (s : Console) (k : Option ℕ) : Prop :=
  ∀ i < s.geo.cells, Tile s.geo s.canvas.fb i (s.screen i) (decide (k = some i))

/-- Every cell does and is without the bar, but for this one. -/
def BareBut (s : Console) (k : Option ℕ) : Prop :=
  ∀ i < s.geo.cells, k ≠ some i → Tile s.geo s.canvas.fb i (s.screen i) false

/-- Every cell shows what it holds, the bar over the cursor's. -/
def Tiled (s : Console) : Prop := s.Barred s.bar

/-- The console can draw: no program has the screen. -/
structure Usable (s : Console) : Prop where
  sound : s.geo.Sound
  ordered : s.geo.Ordered
  ours : s.canvas.lent = false

theorem Barred.bareBut (h : s.Barred k) : s.BareBut k := by
  intro i hi hk
  have ht := h i hi
  rwa [decide_eq_false hk] at ht

theorem Usable.draws (h : s.Usable) (hd : Draws s t) : t.Usable := by
  refine ⟨?_, ?_, hd.canvas.lent.trans h.ours⟩
  · rw [hd.geo]
    exact h.sound
  · rw [hd.geo]
    exact h.ordered

theorem Usable.congr (h : s.Usable) (geo : t.geo = s.geo) (canvas : t.canvas = s.canvas) :
    t.Usable := by
  refine ⟨?_, ?_, ?_⟩
  · rw [geo]
    exact h.sound
  · rw [geo]
    exact h.ordered
  · rw [canvas]
    exact h.ours

/-! ### The cursor -/

theorem cursorDraw_false_eq (hc : s.cursor < s.geo.cells) :
    s.cursorDraw false =
      { s with canvas := drawCell s.geo s.cursor (s.screen s.cursor) s.canvas } := by
  unfold cursorDraw
  rw [if_neg (by simp [hc]), if_pos (by simp)]

theorem cursorDraw_true_eq (hc : s.cursor < s.geo.cells) (hs : s.cursorShown = true) :
    s.cursorDraw true =
      { s with canvas := drawBar s.geo s.cursor (s.screen s.cursor) s.canvas } := by
  unfold cursorDraw
  rw [if_neg (by simp [hc, hs]), if_neg (by simp)]

theorem cursorDraw_hidden (hs : s.cursorShown = false) : s.cursorDraw true = s := by
  unfold cursorDraw
  rw [if_pos (Or.inr (by simp [hs]))]

/-- The cursor taken away from where it was drawn. -/
theorem cursorDraw_false_barred (hu : s.Usable) (hc : s.cursor < s.geo.cells) (h : s.BareBut k)
    (hk : ∀ i, k = some i → i = s.cursor) : (s.cursorDraw false).Barred none := by
  rw [cursorDraw_false_eq hc]
  intro i hi
  by_cases hic : i = s.cursor
  · subst hic
    exact hu.sound.tile_drawCell hu.ordered hc _ hu.ours
  · exact hu.sound.tile_drawCell_of_ne hu.ordered hc hi hic hu.ours
      (h i hi fun hki => hic (hk i hki))

/-- The cursor taken away from where it was not drawn. -/
theorem Barred.cursorDraw_false (h : s.Barred k) (hu : s.Usable) (hc : s.cursor < s.geo.cells)
    (hk : k ≠ some s.cursor) : (s.cursorDraw false).Barred k := by
  rw [cursorDraw_false_eq hc]
  intro i hi
  by_cases hic : i = s.cursor
  · subst hic
    simp only
    rw [decide_eq_false hk]
    exact hu.sound.tile_drawCell hu.ordered hc _ hu.ours
  · exact hu.sound.tile_drawCell_of_ne hu.ordered hc hi hic hu.ours (h i hi)

/-- **The cursor put where it is.** -/
theorem cursorDraw_true_tiled (hu : s.Usable) (hc : s.cursor < s.geo.cells) (h : s.Barred k)
    (hk : k = none ∨ k = s.bar) : (s.cursorDraw true).Tiled := by
  cases hs : s.cursorShown with
  | false =>
    have hbar : s.bar = none := by
      unfold bar
      rw [hs]
      rfl
    rw [cursorDraw_hidden hs]
    unfold Tiled
    rw [hbar]
    rw [hbar, or_self] at hk
    rwa [hk] at h
  | true =>
    rw [cursorDraw_true_eq hc hs]
    intro i hi
    have hbar : ({ s with canvas := drawBar s.geo s.cursor (s.screen s.cursor) s.canvas } :
        Console).bar = some s.cursor := by
      unfold bar
      simp only
      rw [hs]
      rfl
    rw [hbar]
    by_cases hic : i = s.cursor
    · subst hic
      simpa using hu.sound.tile_drawBar hu.ordered hc hu.ours (h s.cursor hc)
    · rw [decide_eq_false fun hsome => hic (Option.some.inj hsome).symm]
      refine hu.sound.tile_drawBar_of_ne hu.ordered hc hi hic hu.ours ?_
      apply h.bareBut i hi
      rcases hk with rfl | rfl
      · simp
      · unfold bar
        rw [hs]
        exact fun hsome => hic (Option.some.inj hsome).symm

/-! ### Cells put -/

@[simp] theorem put_geo (s : Console) (i : ℕ) (value : UInt16) : (s.put i value).geo = s.geo := by
  unfold put
  simp only
  split_ifs <;> rfl

@[simp] theorem put_color (s : Console) (i : ℕ) (value : UInt16) :
    (s.put i value).color = s.color := by
  unfold put
  simp only
  split_ifs <;> rfl

@[simp] theorem put_cursorShown (s : Console) (i : ℕ) (value : UInt16) :
    (s.put i value).cursorShown = s.cursorShown := by
  unfold put
  simp only
  split_ifs <;> rfl

@[simp] theorem put_cell (s : Console) (i : ℕ) (value : UInt16) (c : UInt8) :
    (s.put i value).cell c = s.cell c := by
  unfold cell
  rw [put_color]

theorem put_screen (s : Console) (i : ℕ) (value : UInt16) :
    (s.put i value).screen = Function.update s.screen i value := by
  unfold put
  simp only
  split_ifs with h
  · rfl
  · rw [← not_not.1 h, Function.update_eq_self]

theorem put_screen_of_ne (s : Console) {i j : ℕ} (value : UInt16) (h : i ≠ j) :
    (s.put i value).screen j = s.screen j := by
  rw [put_screen, Function.update_of_ne h.symm]

theorem put_canvas (s : Console) (i : ℕ) (value : UInt16) :
    (s.put i value).canvas =
      if s.screen i = value then s.canvas else drawCell s.geo i value s.canvas := by
  unfold put
  simp only
  by_cases h : s.screen i = value
  · rw [if_neg (not_not.2 h), if_pos h]
  · rw [if_pos h, if_neg h]

/-- Cells put one after another, but none that changes this one; and anything else changed that is
not drawn. -/
inductive Puts (k : Option ℕ) : Console → Console → Prop
  | same {s t : Console} (geo : t.geo = s.geo) (canvas : t.canvas = s.canvas)
    (screen : t.screen = s.screen) (shown : t.cursorShown = s.cursorShown) : Puts k s t
  | put {s t : Console} {i : ℕ} {value : UInt16} (inside : i < s.geo.cells)
    (spared : k = some i → value = s.screen i) (rest : Puts k (s.put i value) t) : Puts k s t

namespace Puts

theorem refl (s : Console) : Puts k s s := same rfl rfl rfl rfl

theorem of_same (h : Puts k t u) (geo : t.geo = s.geo) (canvas : t.canvas = s.canvas)
    (screen : t.screen = s.screen) (shown : t.cursorShown = s.cursorShown) : Puts k s u := by
  induction h generalizing s with
  | same geo' canvas' screen' shown' =>
    exact same (geo'.trans geo) (canvas'.trans canvas) (screen'.trans screen) (shown'.trans shown)
  | put inside spared rest ih =>
    rw [geo] at inside
    rw [screen] at spared
    refine put inside spared (ih ?_ ?_ ?_ ?_)
    · rw [put_geo, put_geo, geo]
    · rw [put_canvas, put_canvas, geo, canvas, screen]
    · rw [put_screen, put_screen, screen]
    · rw [put_cursorShown, put_cursorShown, shown]

theorem trans (h : Puts k s t) (h' : Puts k t u) : Puts k s u := by
  induction h with
  | same geo canvas screen shown => exact h'.of_same geo canvas screen shown
  | put inside spared rest ih => exact put inside spared (ih h')

/-- One thing of the console changed that is not drawn. -/
theorem then_same (h : Puts k s t) (geo : u.geo = t.geo) (canvas : u.canvas = t.canvas)
    (screen : u.screen = t.screen) (shown : u.cursorShown = t.cursorShown) : Puts k s u :=
  h.trans (same geo canvas screen shown)

theorem move (h : Puts k s t) (i : ℕ) : Puts k s { t with cursor := i } :=
  h.then_same rfl rfl rfl rfl

theorem geo_eq (h : Puts k s t) : t.geo = s.geo := by
  induction h with
  | same geo => exact geo
  | put inside spared rest ih => rw [ih, put_geo]

theorem shown_eq (h : Puts k s t) : t.cursorShown = s.cursorShown := by
  induction h with
  | same _ _ _ shown => exact shown
  | put inside spared rest ih => rw [ih, put_cursorShown]

theorem usable (h : Puts k s t) (hu : s.Usable) : t.Usable := by
  induction h with
  | same geo canvas => exact hu.congr geo canvas
  | put inside spared rest ih => exact ih (hu.draws (put_draws hu.sound inside _))

/-- **The cells show what they hold**, each drawn as it is put. -/
theorem bareBut (h : Puts k s t) (hu : s.Usable) (hs : s.BareBut k') : t.BareBut k' := by
  induction h with
  | same geo canvas screen =>
    unfold BareBut
    rw [geo, canvas, screen]
    exact hs
  | @put s t i value inside spared rest ih =>
    refine ih (hu.draws (put_draws hu.sound inside _)) ?_
    intro j hj hk'
    rw [put_geo] at hj ⊢
    rw [put_screen, put_canvas]
    by_cases hji : j = i
    · subst hji
      rw [Function.update_self]
      split_ifs with hv
      · rw [← hv]
        exact hs j hj hk'
      · exact hu.sound.tile_drawCell hu.ordered hj value hu.ours
    · rw [Function.update_of_ne hji]
      split_ifs with hv
      · exact hs j hj hk'
      · exact hu.sound.tile_drawCell_of_ne hu.ordered inside hj hji hu.ours (hs j hj hk')

/-- So does the cell spared, the bar over it. -/
theorem barred (h : Puts k s t) (hu : s.Usable) (hs : s.Barred k) : t.Barred k := by
  have hbare := h.bareBut hu hs.bareBut
  intro i hi
  by_cases hk : k = some i
  · rw [decide_eq_true hk]
    rw [h.geo_eq] at hi
    have ht : Tile s.geo s.canvas.fb i (s.screen i) true := by
      have := hs i hi
      rwa [decide_eq_true hk] at this
    clear hbare hs
    induction h with
    | same geo canvas screen =>
      rw [geo, canvas, screen]
      exact ht
    | @put s t j value inside spared rest ih =>
      refine ih (hu.draws (put_draws hu.sound inside _)) (by rwa [put_geo]) ?_
      rw [put_geo, put_screen, put_canvas]
      by_cases hij : i = j
      · subst hij
        rw [spared hk, if_pos rfl, Function.update_self]
        exact ht
      · rw [Function.update_of_ne hij]
        split_ifs
        · exact ht
        · exact hu.sound.tile_drawCell_of_ne hu.ordered inside hi hij hu.ours ht
  · rw [decide_eq_false hk]
    exact hbare i hi hk

end Puts

/-! ### Runs of cells -/

/-- What is put in each cell does not depend on those put before it. -/
def Orderly (value : Console → ℕ → UInt16) (l : List ℕ) : Prop :=
  l.Pairwise fun a b => a ≠ b ∧ ∀ (s : Console) (v : UInt16), value (s.put a v) b = value s b

theorem putAll_puts {value : Console → ℕ → UInt16} {l : List ℕ} (ho : Orderly value l)
    (hl : ∀ i ∈ l, i < s.geo.cells) (hk : ∀ i, k = some i → i ∈ l → value s i = s.screen i) :
    Puts k s (s.putAll l value) := by
  induction l generalizing s with
  | nil => exact .refl s
  | cons a l ih =>
    obtain ⟨ha, ho⟩ := List.pairwise_cons.1 ho
    refine .put (hl a List.mem_cons_self) (fun hka => hk a hka List.mem_cons_self) (ih ho ?_ ?_)
    · intro i hi
      rw [put_geo]
      exact hl i (List.mem_cons_of_mem a hi)
    · intro i hki hi
      obtain ⟨hne, hvalue⟩ := ha i hi
      rw [hvalue, put_screen_of_ne _ _ hne]
      exact hk i hki (List.mem_cons_of_mem a hi)

/-- What the cells hold then. -/
theorem putAll_screen {value : Console → ℕ → UInt16} {l : List ℕ} (ho : Orderly value l) (i : ℕ) :
    (s.putAll l value).screen i = if i ∈ l then value s i else s.screen i := by
  induction l generalizing s with
  | nil => simp [putAll]
  | cons a l ih =>
    obtain ⟨ha, ho⟩ := List.pairwise_cons.1 ho
    change ((s.put a (value s a)).putAll l value).screen i = _
    rw [ih ho]
    by_cases hi : i ∈ l
    · rw [if_pos hi, if_pos (List.mem_cons_of_mem a hi), (ha i hi).2]
    · rw [if_neg hi]
      by_cases hia : i = a
      · subst hia
        rw [if_pos List.mem_cons_self, put_screen, Function.update_self]
      · rw [if_neg (by simp [hia, hi]), put_screen_of_ne _ _ (Ne.symm hia)]

/-- From the first cell on, each of what is in a later one. -/
theorem orderly_up {value : Console → ℕ → UInt16} (first n : ℕ)
    (h : ∀ a b, a < b → ∀ (s : Console) (v : UInt16), value (s.put a v) b = value s b) :
    Orderly value (List.range' first n) := by
  refine List.Pairwise.imp ?_ List.pairwise_lt_range'
  exact fun {a b} hab => ⟨hab.ne, h a b hab⟩

/-- From the last cell back, each of what is in an earlier one. -/
theorem orderly_down {value : Console → ℕ → UInt16} (first n : ℕ)
    (h : ∀ a b, b < a → ∀ (s : Console) (v : UInt16), value (s.put a v) b = value s b) :
    Orderly value (List.range' first n).reverse := by
  refine List.pairwise_reverse.2 (List.Pairwise.imp ?_ List.pairwise_lt_range')
  exact fun {b a} hba => ⟨hba.ne', h a b hba⟩

/-- What scrolling puts in a cell. -/
def incoming (s : Console) (top bottom : ℕ) (up : Bool) (i : ℕ) : UInt16 :=
  if up then if i + s.geo.width < bottom * s.geo.width then s.screen (i + s.geo.width) else s.cell 0x20
  else if top * s.geo.width + s.geo.width ≤ i then s.screen (i - s.geo.width) else s.cell 0x20

theorem orderly_scroll_up (s : Console) (top bottom : ℕ) :
    Orderly (fun t i => if i + s.geo.width < bottom * s.geo.width then t.screen (i + s.geo.width)
      else t.cell 0x20)
      (List.range' (top * s.geo.width) (bottom * s.geo.width - top * s.geo.width)) := by
  refine orderly_up _ _ fun a b hab t v => ?_
  split_ifs
  · exact put_screen_of_ne _ _ (by omega)
  · exact put_cell _ _ _ _

theorem orderly_scroll_down (hw : 0 < s.geo.width) (top bottom : ℕ) :
    Orderly (fun t i => if top * s.geo.width + s.geo.width ≤ i then t.screen (i - s.geo.width)
      else t.cell 0x20)
      (List.range' (top * s.geo.width) (bottom * s.geo.width - top * s.geo.width)).reverse := by
  refine orderly_down _ _ fun a b hab t v => ?_
  split_ifs
  · exact put_screen_of_ne _ _ (by omega)
  · exact put_cell _ _ _ _

theorem scroll_puts (hg : s.geo.Sound) {top bottom : ℕ} (hb : bottom ≤ s.geo.height) (up : Bool)
    (hk : ∀ i, k = some i → top * s.geo.width ≤ i → i < bottom * s.geo.width →
      s.incoming top bottom up i = s.screen i) : Puts k s (s.scroll top bottom up) := by
  have hlast : bottom * s.geo.width ≤ s.geo.cells := by
    rw [hg.cells_eq]
    exact Nat.mul_le_mul_right _ hb
  unfold incoming at hk
  unfold scroll
  cases up with
  | true =>
    refine putAll_puts (s.orderly_scroll_up top bottom) ?_ ?_
    · intro i hi
      rw [List.mem_range'_1] at hi
      omega
    · intro i hki hi
      rw [List.mem_range'_1] at hi
      exact hk i hki hi.1 (by omega)
  | false =>
    refine putAll_puts (orderly_scroll_down hg.width_pos top bottom) ?_ ?_
    · intro i hi
      rw [List.mem_reverse, List.mem_range'_1] at hi
      omega
    · intro i hki hi
      rw [List.mem_reverse, List.mem_range'_1] at hi
      exact hk i hki hi.1 (by omega)

/-! ### What each sequence puts -/

/-- The end of the cursor's row. -/
theorem cursor_lt_row_end (hw : 0 < s.geo.width) (i : ℕ) :
    i < (i / s.geo.width + 1) * s.geo.width := by
  have hsplit := s.cell_split i
  have hlt := Nat.mod_lt i hw
  rw [Nat.succ_mul]
  omega

theorem lineFeed_puts (h : s.Placed)
    (hk : ∀ i, k = some i → i = s.cursor ∧
      (s.cursor / s.geo.width + 1 = s.regionBottom → s.cell 0x20 = s.screen i)) :
    Puts k s s.lineFeed := by
  have hsplit := s.cell_split s.cursor
  unfold lineFeed
  simp only
  split_ifs with h1 h2
  · refine scroll_puts h.sound h.bottom true ?_
    intro i hki _ _
    obtain ⟨rfl, hblank⟩ := hk i hki
    unfold incoming
    rw [if_pos rfl, if_neg, hblank h1]
    rw [← h1, Nat.succ_mul]
    omega
  · exact .same rfl rfl rfl rfl
  · exact .refl s

theorem reverseFeed_puts (h : s.Placed)
    (hk : ∀ i, k = some i → i = s.cursor ∧
      (s.cursor / s.geo.width = s.regionTop → s.cell 0x20 = s.screen i)) :
    Puts k s s.reverseFeed := by
  have hend := cursor_lt_row_end h.sound.width_pos s.cursor
  unfold reverseFeed
  simp only
  split_ifs with h1 h2
  · refine scroll_puts h.sound h.bottom false ?_
    intro i hki _ _
    obtain ⟨rfl, hblank⟩ := hk i hki
    unfold incoming
    rw [if_neg Bool.false_ne_true, if_neg, hblank h1]
    rw [h1, Nat.succ_mul] at hend
    omega
  · exact .same rfl rfl rfl rfl
  · exact .refl s

/-- Blanks put from one cell on. -/
theorem blanks_puts {first n : ℕ} (hn : first + n ≤ s.geo.cells)
    (hk : ∀ i, k = some i → s.cell 0x20 = s.screen i) :
    Puts k s (s.putAll (List.range' first n) fun s _ => s.cell 0x20) := by
  refine putAll_puts (orderly_up _ _ fun a b _ t v => put_cell t a v 0x20) ?_ ?_
  · intro i hi
    rw [List.mem_range'_1] at hi
    omega
  · exact fun i hki _ => hk i hki

theorem erase_puts (h : s.Placed) {what : UInt8}
    (hall : ¬ (what = 0x4A ∧ 0 < s.paramCount ∧ 2 ≤ s.params 0))
    (hk : ∀ i, k = some i → s.cell 0x20 = s.screen i) : Puts k s (s.erase what) := by
  obtain ⟨h1, h2, h3⟩ := erased_spec h.sound h.cursor what
  rw [erase_eq hall]
  exact blanks_puts (by omega) hk

theorem eraseChars_puts (h : s.Placed) (hk : ∀ i, k = some i → s.cell 0x20 = s.screen i) :
    Puts k s s.eraseChars := by
  have hpast := row_end_le h.sound h.cursor
  have hmod := Nat.mod_lt s.cursor h.sound.width_pos
  exact blanks_puts (by omega) hk

/-- What shifting the rest of the line puts in the cursor's cell. -/
def shiftedIn (s : Console) (opening : Bool) (n : ℕ) : UInt16 :=
  let past := s.cursor - s.cursor % s.geo.width + s.geo.width
  let n := min n (past - s.cursor)
  if opening then s.cell 0x20 else if s.cursor + n < past then s.screen (s.cursor + n) else s.cell 0x20

theorem shiftLine_puts (h : s.Placed) (opening : Bool) (n : ℕ)
    (hk : ∀ i, k = some i → i = s.cursor ∧ s.shiftedIn opening n = s.screen i) :
    Puts k s (s.shiftLine opening n) := by
  have hpast := row_end_le h.sound h.cursor
  have hmod := Nat.mod_lt s.cursor h.sound.width_pos
  have hle := Nat.mod_le s.cursor s.geo.width
  unfold shiftedIn at hk
  unfold shiftLine
  simp only at hk ⊢
  set past := s.cursor - s.cursor % s.geo.width + s.geo.width with hp
  set m := min n (past - s.cursor) with hm
  cases opening with
  | true =>
    rw [if_pos rfl]
    have hord : Orderly (fun (t : Console) i => t.screen (i - m))
        (List.range' (s.cursor + m) (past - (s.cursor + m))).reverse :=
      orderly_down _ _ fun a b hab t v => put_screen_of_ne _ _ (by omega)
    have h1 : Puts k s (s.putAll (List.range' (s.cursor + m) (past - (s.cursor + m))).reverse
        fun t i => t.screen (i - m)) := by
      refine putAll_puts hord ?_ ?_
      · intro i hi
        rw [List.mem_reverse, List.mem_range'_1] at hi
        omega
      · intro i hki hi
        rw [List.mem_reverse, List.mem_range'_1] at hi
        obtain ⟨rfl, -⟩ := hk i hki
        rw [show m = 0 by omega, Nat.sub_zero]
    refine h1.trans ?_
    rcases Nat.eq_zero_or_pos m with h0 | hpos
    · rw [h0]
      exact .refl _
    · refine blanks_puts ?_ ?_
      · rw [h1.geo_eq]
        omega
      · intro i hki
        obtain ⟨rfl, hblank⟩ := hk i hki
        have hd : Draws s (s.putAll (List.range' (s.cursor + m) (past - (s.cursor + m))).reverse
            fun t i => t.screen (i - m)) := by
          refine putAll_draws h.sound ?_ _
          intro i hi
          rw [List.mem_reverse, List.mem_range'_1] at hi
          omega
        have hcell : ∀ c, (s.putAll (List.range' (s.cursor + m) (past - (s.cursor + m))).reverse
            fun t i => t.screen (i - m)).cell c = s.cell c := by
          intro c
          unfold cell
          rw [hd.eq]
        rw [hcell, putAll_screen hord, if_neg]
        · exact hblank
        · rw [List.mem_reverse, List.mem_range'_1]
          omega
  | false =>
    rw [if_neg Bool.false_ne_true]
    refine putAll_puts (orderly_up _ _ fun a b hab t v => ?_) ?_ ?_
    · split_ifs
      · exact put_screen_of_ne _ _ (by omega)
      · exact put_cell _ _ _ _
    · intro i hi
      rw [List.mem_range'_1] at hi
      omega
    · intro i hki _
      obtain ⟨rfl, hvalue⟩ := hk i hki
      exact hvalue

/-- What deleting rows puts in a cell, one row after another. -/
def pulledIn (s : Console) (bottom i m : ℕ) : UInt16 :=
  if i + (m + 1) * s.geo.width < bottom * s.geo.width then s.screen (i + (m + 1) * s.geo.width)
  else s.cell 0x20

theorem scroll_cell (hg : s.geo.Sound) {bottom : ℕ} (hb : bottom ≤ s.geo.height) (top : ℕ) (up : Bool)
    (c : UInt8) : (s.scroll top bottom up).cell c = s.cell c := by
  unfold cell
  rw [(scroll_draws hg hb top up).eq]

theorem scroll_regionBottom (hg : s.geo.Sound) {bottom : ℕ} (hb : bottom ≤ s.geo.height) (top : ℕ)
    (up : Bool) : (s.scroll top bottom up).regionBottom = s.regionBottom := by
  rw [(scroll_draws hg hb top up).eq]

/-- Rows deleted, one after another. -/
theorem scrolls_up_puts {row bottom : ℕ} (hg : s.geo.Sound) (hb : s.regionBottom ≤ s.geo.height)
    (hbottom : s.regionBottom = bottom) (l : List ℕ)
    (hk : ∀ i, k = some i → i = row * s.geo.width ∧ i < bottom * s.geo.width ∧
      ∀ m < l.length, s.pulledIn bottom i m = s.screen i) :
    Puts k s (l.foldl (fun s _ => s.scroll row s.regionBottom true) s) := by
  induction l generalizing s with
  | nil => exact .refl s
  | cons a l ih =>
    have h1 : Puts k s (s.scroll row bottom true) := by
      refine scroll_puts hg (hbottom ▸ hb) true ?_
      intro i hki _ _
      obtain ⟨-, -, hv⟩ := hk i hki
      have h0 := hv 0 (Nat.succ_pos _)
      unfold pulledIn at h0
      rw [Nat.zero_add, one_mul] at h0
      exact h0
    have hgeo := h1.geo_eq
    have hrb := scroll_regionBottom hg (hbottom ▸ hb) row true (s := s)
    change Puts k s (l.foldl _ (s.scroll row s.regionBottom true))
    rw [hbottom]
    refine h1.trans (ih (by rwa [hgeo]) (by rwa [hrb, hgeo]) (hrb.trans hbottom) ?_)
    intro i hki
    obtain ⟨hrow, hlt, hv⟩ := hk i hki
    rw [hgeo]
    refine ⟨hrow, hlt, ?_⟩
    intro m hm
    have hnow : ∀ j, row * s.geo.width ≤ j → j < bottom * s.geo.width →
        (s.scroll row bottom true).screen j = s.incoming row bottom true j := by
      intro j hj1 hj2
      unfold scroll incoming
      rw [if_pos rfl, if_pos rfl, putAll_screen (s.orderly_scroll_up row bottom), if_pos]
      rw [List.mem_range'_1]
      omega
    have h0 := hv 0 (Nat.succ_pos _)
    have hm' := hv (m + 1) (Nat.succ_lt_succ hm)
    unfold pulledIn at h0 hm' ⊢
    rw [Nat.zero_add, one_mul] at h0
    rw [hgeo, hnow i hrow.ge hlt, scroll_cell hg (hbottom ▸ hb)]
    rw [show s.incoming row bottom true i = s.screen i from h0, ← hm']
    rw [Nat.succ_mul (m + 1)]
    by_cases hin : i + (m + 1) * s.geo.width < bottom * s.geo.width
    · rw [if_pos hin, hnow _ (by omega) hin]
      unfold incoming
      rw [if_pos rfl, Nat.add_assoc]
    · rw [if_neg hin, if_neg (by omega)]

/-- Rows opened, one after another. -/
theorem scrolls_down_puts {row bottom : ℕ} (hg : s.geo.Sound) (hb : s.regionBottom ≤ s.geo.height)
    (hbottom : s.regionBottom = bottom) (l : List ℕ)
    (hk : ∀ i, k = some i → i = row * s.geo.width ∧ i < bottom * s.geo.width ∧
      s.cell 0x20 = s.screen i) :
    Puts k s (l.foldl (fun s _ => s.scroll row s.regionBottom false) s) := by
  have hw := hg.width_pos
  induction l generalizing s with
  | nil => exact .refl s
  | cons a l ih =>
    have h1 : Puts k s (s.scroll row bottom false) := by
      refine scroll_puts hg (hbottom ▸ hb) false ?_
      intro i hki _ _
      obtain ⟨hrow, -, hv⟩ := hk i hki
      unfold incoming
      rw [if_neg Bool.false_ne_true, if_neg (by omega), hv]
    have hgeo := h1.geo_eq
    have hrb := scroll_regionBottom hg (hbottom ▸ hb) row false (s := s)
    change Puts k s (l.foldl _ (s.scroll row s.regionBottom false))
    rw [hbottom]
    refine h1.trans (ih (by rwa [hgeo]) (by rwa [hrb, hgeo]) (hrb.trans hbottom) ?_ (by rwa [hgeo]))
    intro i hki
    obtain ⟨hrow, hlt, hv⟩ := hk i hki
    rw [hgeo]
    refine ⟨hrow, hlt, ?_⟩
    rw [scroll_cell hg (hbottom ▸ hb)]
    unfold scroll
    rw [if_neg Bool.false_ne_true, putAll_screen (orderly_scroll_down hw row bottom), if_pos,
      if_neg (by omega), hv]
    rw [List.mem_reverse, List.mem_range'_1]
    omega

/-- What opening or deleting rows puts in the cell of a cursor in the first column. -/
def rowsIn (s : Console) (opening : Bool) : List UInt16 :=
  let row := s.cursor / s.geo.width
  if row < s.regionTop ∨ s.regionBottom ≤ row then []
  else if opening then [s.cell 0x20]
  else
    (List.range (min s.countParam (s.regionBottom - row))).map (s.pulledIn s.regionBottom s.cursor)

theorem shiftRows_puts (h : s.Placed) (opening : Bool)
    (hk : ∀ i, k = some i → i = s.cursor ∧ s.cursor % s.geo.width = 0 ∧
      ∀ v ∈ s.rowsIn opening, v = s.screen i) : Puts k s (s.shiftRows opening) := by
  have hsplit := s.cell_split s.cursor
  have hend := cursor_lt_row_end h.sound.width_pos s.cursor
  unfold rowsIn at hk
  unfold shiftRows
  simp only at hk ⊢
  by_cases hout : s.cursor / s.geo.width < s.regionTop ∨ s.regionBottom ≤ s.cursor / s.geo.width
  · rw [if_pos hout]
    exact .refl s
  rw [if_neg hout] at hk ⊢
  have hlt : s.cursor < s.regionBottom * s.geo.width := by
    refine hend.trans_le (Nat.mul_le_mul_right _ ?_)
    omega
  refine Puts.move ?_ _
  cases opening with
  | true =>
    refine scrolls_down_puts h.sound h.bottom rfl _ ?_
    intro i hki
    obtain ⟨rfl, hcol, hv⟩ := hk i hki
    exact ⟨by omega, hlt, hv _ (by simp)⟩
  | false =>
    refine scrolls_up_puts h.sound h.bottom rfl _ ?_
    intro i hki
    obtain ⟨rfl, hcol, hv⟩ := hk i hki
    refine ⟨by omega, hlt, ?_⟩
    intro m hm
    apply hv
    rw [if_neg Bool.false_ne_true]
    rw [List.length_range] at hm
    exact List.mem_map_of_mem (List.mem_range.2 hm)

end Console
end BaxOS.Vga
