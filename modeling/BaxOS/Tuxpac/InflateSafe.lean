import BaxOS.Tuxpac.Deflated
import BaxOS.Tuxpac.Supply

/-!
# `gunzip` is safe

No index is out of range and no loop goes on for ever, whatever the input (`gunzip_gives`): a code is made
of lengths of no more than 15 before anything is decoded by it, the window is open when it is written to,
and every turn of a loop takes a bit of an input that has not run out, or is the last.
-/

namespace BaxOS.Unpack
open Function Programs Deflate

variable {σ τ : Type}
variable {g'' : Gzip σ τ} {all index : ℕ}

namespace Gzip

variable {g g' : Gzip σ τ} {i j k n turns : ℕ}

/-! ### What each step leaves -/

/-- There are no more than so many bits to take. -/
def Left (g : Gzip σ τ) (n : ℕ) : Prop := g.bits.Left n

/-- The input ran out. -/
def Dry (g : Gzip σ τ) : Prop := g.bits.Dry

/-- What a step leaves that reads `k` bits or more. -/
structure Runs (k : ℕ) (g g' : Gzip σ τ) : Prop where
  spent : Drains Left Dry k g g'
  opened : g.window.Open → g'.window.Open

/-- And changes no code and no length. -/
structure Goes (k : ℕ) (g g' : Gzip σ τ) : Prop extends Runs k g g' where
  lencode : g'.lencode = g.lencode
  distcode : g'.distcode = g.distcode
  lengths : g'.lengths = g.lengths

theorem Left.mono (h : g.Left k) (hkn : k ≤ n) : g.Left n := Bits.Left.mono h hkn

namespace Runs

theorem trans (h : Runs j g g') (h' : Runs k g' g'') : Runs (j + k) g g'' :=
  ⟨h.spent.trans h'.spent, fun ho => h'.opened (h.opened ho)⟩

theorem zero (h : Runs k g g') : Runs 0 g g' := ⟨h.spent.zero Left.mono, h.opened⟩

/-- Codes and lengths are neither read from the input nor in the window. -/
theorem of_eq (hbits : g'.bits = g.bits) (hwindow : g'.window = g.window) : Runs 0 g g' := by
  refine ⟨⟨?_, ?_⟩, ?_⟩
  · rw [Dry, Dry, hbits]
    exact id
  · intro n _ hn
    rw [Left, hbits]
    exact ⟨n.zero_le, hn⟩
  · rw [hwindow]
    exact id

theorem of_lengths (g : Gzip σ τ) (lengths : ℕ → ℕ) : Runs 0 g { g with lengths } := of_eq rfl rfl

end Runs

namespace Goes

theorem refl (g : Gzip σ τ) : Goes 0 g g := ⟨.of_eq rfl rfl, rfl, rfl, rfl⟩

theorem trans (h : Goes j g g') (h' : Goes k g' g'') : Goes (j + k) g g'' :=
  ⟨h.toRuns.trans h'.toRuns, h'.lencode.trans h.lencode, h'.distcode.trans h.distcode,
    h'.lengths.trans h.lengths⟩

theorem zero (h : Goes k g g') : Goes 0 g g' := ⟨h.toRuns.zero, h.lencode, h.distcode, h.lengths⟩

theorem of_bits {b : Bits σ} (h : Bits.Spent k g.bits b) : Goes k g { g with bits := b } :=
  ⟨⟨⟨h.dry, h.left⟩, id⟩, rfl, rfl, rfl⟩

theorem of_window {w : Window τ} (h : w.Open) : Goes 0 g { g with window := w } :=
  ⟨⟨⟨id, fun n _ hn => ⟨n.zero_le, hn⟩⟩, fun _ => h⟩, rfl, rfl, rfl⟩

end Goes

theorem byte_gives (g : Gzip σ τ) : Gives byte g fun _ g' => Goes 8 g g' := by
  simp only [byte, gives_bind, gives_get, gives_set, gives_pure]
  refine .of_bits ⟨fun h => Source.srcByte_bad h, ?_⟩
  rintro n hdry ⟨m, hm, hn⟩
  obtain ⟨hpos, hleft⟩ := (Source.spent_srcByte g.bits.src).left m hdry hm
  exact ⟨by omega, m - 1, hleft, by simp only; omega⟩

theorem read_gives (n : ℕ) (g : Gzip σ τ) : Gives (read n) g fun _ g' => Goes 0 g g' := by
  simp only [read, gives_bind, gives_get, gives_set, gives_pure]
  exact .of_bits (Bits.spent_of_src (Source.spent_srcRead n g.bits.src) le_rfl)

theorem bitsOf_gives (need : ℕ) (g : Gzip σ τ) :
    Gives (bitsOf need) g fun v g' => v < 2 ^ need ∧ Goes need g g' := by
  simp only [bitsOf, gives_bind, gives_get, gives_set, gives_pure]
  exact ⟨bits_lt need g.bits, .of_bits (Bits.spent_bits need g.bits)⟩

/-- A code that was made of some lengths. -/
def Made (h : Huff) : Prop := ∃ lengths, h.Tables lengths

theorem decodeBy_gives {code : Gzip σ τ → Huff} (h : Made (code g)) :
    Gives (decodeBy code) g fun _ g' => Goes 1 g g' := by
  obtain ⟨lengths, t⟩ := h
  obtain ⟨sym, n, hn, hrun⟩ := t.exists_decode g.bits
  have hspent := Bits.spent_drop n g.bits
  rw [decodeBy, gives_bind, gives_get]
  simp only [hrun, gives_bind, gives_set, gives_pure]
  refine .of_bits ⟨hspent.dry, ?_⟩
  intro m hdry hm
  obtain ⟨hle, hleft⟩ := hspent.left m hdry hm
  exact ⟨by omega, Bits.Left.mono hleft (by omega)⟩

theorem put_gives (h : g.window.Open) (b : UInt8) :
    Gives (windowed (Window.put b)) g fun _ g' => Goes 0 g g' := by
  rw [windowed, gives_onPart]
  exact (Window.put_gives h b).mono fun _ _ hw => .of_window hw.opened

theorem copy_gives (h : g.window.Open) (d : UInt32) (len : ℕ) :
    Gives (windowed (Window.copy d len)) g fun _ g' => Goes 0 g g' := by
  rw [windowed, gives_onPart]
  exact (Window.copy_gives h d len).mono fun _ _ hw => .of_window hw.1.opened

theorem entry_gives {table : List ℕ} (h : i < table.length) (g : Gzip σ τ) :
    Gives (entry table i) g fun _ g' => g' = g := by
  rw [entry, List.getElem?_eq_getElem h]
  exact gives_pure.2 rfl

/-! ### `codes` -/

theorem backReference_gives (h : g.window.Open) (hdist : Made g.distcode) (sym : ℕ) :
    Gives (backReference sym) g fun r g' =>
      Goes 0 g g' ∧ r.Ends (fun _ => True) fun ok => ok = false := by
  rw [backReference]
  split_ifs with hsym
  · exact gives_pure.2 ⟨.refl g, rfl⟩
  rw [not_le] at hsym
  simp only [gives_bind]
  refine (entry_gives hsym g).mono ?_
  rintro base _ rfl
  refine (entry_gives hsym _).mono ?_
  rintro ext g rfl
  refine (bitsOf_gives ext g).mono ?_
  rintro extra g1 ⟨-, hgo1⟩
  refine (decodeBy_gives (hgo1.distcode ▸ hdist)).mono ?_
  intro d g2 hgo2
  have hgo := hgo1.trans hgo2
  split_ifs with hd
  · exact gives_pure.2 ⟨hgo.zero, rfl⟩
  rw [not_or, not_lt, not_le] at hd
  have hlt : d.toNat < 30 := by omega
  simp only [gives_bind]
  refine (entry_gives hlt g2).mono ?_
  rintro dist _ rfl
  refine (entry_gives hlt _).mono ?_
  rintro ext g2 rfl
  refine (bitsOf_gives ext g2).mono ?_
  rintro more g3 ⟨-, hgo3⟩
  have hgo := hgo.trans hgo3
  refine (copy_gives (hgo.opened h) _ _).mono ?_
  intro ok g4 hgo4
  have hgo := hgo.trans hgo4
  split_ifs
  · exact gives_pure.2 ⟨hgo.zero, trivial⟩
  · exact gives_pure.2 ⟨hgo.zero, rfl⟩

theorem codesTurn_gives (h : g.window.Open) (hlen : Made g.lencode) (hdist : Made g.distcode) (u : Unit) :
    Gives (codesTurn u) g fun r g' =>
      Goes 0 g g' ∧ r.Ends (fun _ => Uses Left Dry g g') fun ok => ok = true → ¬ g'.Dry := by
  rw [codesTurn]
  simp only [gives_bind]
  refine (decodeBy_gives hlen).mono ?_
  intro sym g1 hgo
  rw [gives_get]
  split_ifs with hbad hlit hend
  · exact gives_pure.2 ⟨hgo.zero, by simp⟩
  all_goals simp only [not_or] at hbad
  · rw [gives_bind]
    refine (put_gives (hgo.opened h) _).mono ?_
    intro _ g2 hput
    exact gives_pure.2 ⟨(hgo.trans hput).zero, hgo.spent.uses hbad.2.1 hput.spent⟩
  · exact gives_pure.2 ⟨hgo.zero, fun _ => hbad.2.1⟩
  · refine (backReference_gives (hgo.opened h) (hgo.distcode ▸ hdist) _).mono ?_
    rintro (_ | ok) g2 ⟨hrest, hok⟩
    · exact ⟨(hgo.trans hrest).zero, hgo.spent.uses hbad.2.1 hrest.spent⟩
    · refine ⟨(hgo.trans hrest).zero, ?_⟩
      rintro rfl
      exact absurd hok (by simp)

/-- **`codes` ends**, with every index in range, and where it returns true the input did not run out. -/
theorem codes_gives (h : g.window.Open) (hlen : Made g.lencode) (hdist : Made g.distcode)
    (hleft : Lasts Left Dry g n) (hn : n < turns) :
    Gives (codes turns) g fun ok g' => Goes 0 g g' ∧ (ok = true → ¬ g'.Dry) := by
  refine Gives.loop_uses (I := fun _ => Goes 0 g) ?_ (.refl g) hleft hn
  intro u g' hg
  refine (codesTurn_gives (hg.opened h) (hg.lencode ▸ hlen) (hg.distcode ▸ hdist) u).mono ?_
  rintro (_ | ok) g'' ⟨hgo, hr⟩
  · exact ⟨hg.trans hgo, hr⟩
  · exact ⟨hg.trans hgo, hr⟩

/-! ### Stored blocks -/

theorem noBits_gives (g : Gzip σ τ) : Gives noBits g fun _ g' => Goes 0 g g' :=
  gives_modify.2 (.of_bits (Bits.spent_of_src (.refl _) (Nat.zero_le _)))

theorem storedOn_gives (h : g.window.Open) (len : ℕ) : Gives (storedOn len) g fun _ g' => Goes 0 g g' := by
  induction len generalizing g with
  | zero => exact gives_pure.2 (.refl g)
  | succ len ih =>
    rw [storedOn, gives_bind, gives_get]
    split_ifs with hbad
    · exact gives_pure.2 (.refl g)
    simp only [gives_bind]
    refine (byte_gives g).mono ?_
    intro b g1 hgo1
    refine (put_gives (hgo1.opened h) _).mono ?_
    intro _ g2 hgo2
    have hgo := (hgo1.trans hgo2).zero
    exact (ih (hgo.opened h)).mono fun _ _ hgo3 => hgo.trans hgo3

/-- What a block leaves that ends as it should. -/
def Ran (g : Gzip σ τ) (ok : Bool) (g' : Gzip σ τ) : Prop := ok = true → Runs 0 g g' ∧ ¬ g'.Dry

theorem ran_false : Ran g false g' := fun h => absurd h (by simp)

theorem stored_gives (h : g.window.Open) : Gives stored g (Ran g) := by
  rw [stored]
  simp only [gives_bind]
  refine (noBits_gives g).mono ?_
  intro _ g1 hgo1
  refine (byte_gives g1).mono ?_
  intro b1 g2 hgo2
  refine (byte_gives g2).mono ?_
  intro b2 g3 hgo3
  refine (byte_gives g3).mono ?_
  intro b3 g4 hgo4
  refine (byte_gives g4).mono ?_
  intro b4 g5 hgo5
  have hgo := ((((hgo1.trans hgo2).trans hgo3).trans hgo4).trans hgo5).zero
  split_ifs
  · exact gives_pure.2 ran_false
  · simp only [gives_bind, gives_get, gives_pure]
    refine (storedOn_gives (hgo.opened h) _).mono ?_
    intro _ g6 hgo6 hok
    refine ⟨(hgo.trans hgo6).toRuns, ?_⟩
    intro hdry
    rw [show g6.bits.src.bad = true from hdry] at hok
    exact absurd hok (by simp)

/-! ### Lengths and codes -/

/-- The first lengths are no longer than codes may be. -/
def Short (g : Gzip σ τ) (n : ℕ) : Prop := ∀ i < n, g.lengths i ≤ longest

theorem setLengths_gives {v : ℕ} (h : i + n ≤ lengthsRoom) :
    Gives (setLengths v i n) g fun _ g' =>
      g' = { g with lengths := fun j => if i ≤ j ∧ j < i + n then v else g.lengths j } := by
  induction n generalizing i g with
  | zero =>
    have hnone : (fun j => if i ≤ j ∧ j < i + 0 then v else g.lengths j) = g.lengths := by
      funext j
      rw [if_neg (by omega)]
    rw [hnone]
    exact gives_pure.2 rfl
  | succ n ih =>
    rw [setLengths, gives_bind, setLength, if_pos (by omega), gives_modify]
    refine (ih (by omega)).mono ?_
    rintro _ g' rfl
    congr 1
    funext j
    rcases lt_trichotomy j i with hlt | rfl | hlt
    · rw [if_neg (by omega), if_neg (by omega)]
      exact update_of_ne hlt.ne _ _
    · rw [if_neg (by omega), if_pos (by omega)]
      exact update_self ..
    · by_cases hj : j < i + 1 + n
      · rw [if_pos (by omega), if_pos (by omega)]
      · rw [if_neg (by omega), if_neg (by omega)]
        exact update_of_ne hlt.ne' _ _

theorem constructLen_gives (hshort : g.Short n) (hn : n ≤ symbolRoom) :
    Gives (constructLen n) g fun left g' =>
      ∃ h, construct g.lencode ((List.range n).map g.lengths) = some (left, h) ∧
        g' = { g with lencode := h } := by
  have hle : ∀ l ∈ (List.range n).map g.lengths, l ≤ longest := by
    intro l hl
    obtain ⟨i, hi, rfl⟩ := List.mem_map.1 hl
    exact hshort i (List.mem_range.1 hi)
  obtain ⟨left, h, hc⟩ := exists_construct g.lencode hle (by rwa [List.length_map, List.length_range])
  rw [constructLen, gives_bind, gives_get]
  simp only [hc, gives_bind, gives_set, gives_pure]
  exact ⟨h, rfl, rfl⟩

theorem constructDist_gives (hshort : g.Short (i + n)) (hn : n ≤ symbolRoom) :
    Gives (constructDist i n) g fun left g' =>
      ∃ h, construct g.distcode ((List.range' i n).map g.lengths) = some (left, h) ∧
        g' = { g with distcode := h } := by
  have hle : ∀ l ∈ (List.range' i n).map g.lengths, l ≤ longest := by
    intro l hl
    obtain ⟨j, hj, rfl⟩ := List.mem_map.1 hl
    exact hshort j (List.mem_range'_1.1 hj).2
  obtain ⟨left, h, hc⟩ := exists_construct g.distcode hle (by rwa [List.length_map, List.length_range'])
  rw [constructDist, gives_bind, gives_get]
  simp only [hc, gives_bind, gives_set, gives_pure]
  exact ⟨h, rfl, rfl⟩

theorem made_of_construct {old h : Huff} {lengths : List ℕ} {left : ℤ}
    (hc : construct old lengths = some (left, h)) (hleft : 0 ≤ left) (hn : lengths.length ≤ symbolRoom) :
    Made h :=
  ⟨lengths, construct_tables hc hleft (hn.trans (by decide))⟩

/-! ### Blocks of the fixed codes -/

theorem map_range'_const {f : ℕ → ℕ} {v : ℕ} (h : ∀ j, i ≤ j → j < i + n → f j = v) :
    (List.range' i n).map f = List.replicate n v := by
  rw [List.eq_replicate_iff]
  refine ⟨by rw [List.length_map, List.length_range'], ?_⟩
  intro l hl
  obtain ⟨j, hj, rfl⟩ := List.mem_map.1 hl
  rw [List.mem_range'_1] at hj
  exact h j hj.1 hj.2

theorem length_fixedLits : fixedLits.length = symbolRoom := by
  simp only [fixedLits, List.length_append, List.length_replicate]
  rfl

theorem fixedLits_left :
    0 ≤ leftOver (fun n => UInt16.ofNat (fixedLits.count n)) (List.range' 1 longest) 1 := by
  decide +kernel

/-- The lengths that `fixed` sets. -/
def FixedSet (g : Gzip σ τ) : Prop :=
  (∀ j < 144, g.lengths j = 8) ∧ (∀ j, 144 ≤ j → j < 256 → g.lengths j = 9) ∧
    (∀ j, 256 ≤ j → j < 280 → g.lengths j = 7) ∧ ∀ j, 280 ≤ j → j < 288 → g.lengths j = 8

theorem FixedSet.lengths_eq (h : g.FixedSet) : (List.range 288).map g.lengths = fixedLits := by
  obtain ⟨h1, h2, h3, h4⟩ := h
  have hsplit : List.range 288 =
      List.range' 0 144 ++ List.range' 144 112 ++ List.range' 256 24 ++ List.range' 280 8 := by
    rw [List.range_eq_range', List.range'_append_1, List.range'_append_1, List.range'_append_1]
  rw [hsplit, List.map_append, List.map_append, List.map_append, map_range'_const fun j _ => h1 j,
    map_range'_const h2, map_range'_const h3, map_range'_const h4]
  rfl

theorem FixedSet.short (h : g.FixedSet) : g.Short 288 := by
  obtain ⟨h1, h2, h3, h4⟩ := h
  have hlong : longest = 15 := rfl
  intro j hj
  rcases lt_or_ge j 144 with h144 | h144
  · rw [h1 j h144]
    omega
  rcases lt_or_ge j 256 with h256 | h256
  · rw [h2 j h144 h256]
    omega
  rcases lt_or_ge j 280 with h280 | h280
  · rw [h3 j h256 h280]
    omega
  · rw [h4 j h280 hj]
    omega

/-- `fixed` comes to `codes`, once the fixed codes have been made. -/
theorem fixed_set {Q : Bool → Gzip σ τ → Prop}
    (hcodes : ∀ g', g'.bits = g.bits → g'.window = g.window → g'.lencode.Tables fixedLits →
      g'.distcode.Tables fixedDists → Gives (codes turns) g' Q) :
    Gives (fixed turns) g Q := by
  rw [fixed]
  simp only [gives_bind]
  refine (setLengths_gives (by decide)).mono ?_
  rintro _ _ rfl
  refine (setLengths_gives (by decide)).mono ?_
  rintro _ _ rfl
  refine (setLengths_gives (by decide)).mono ?_
  rintro _ _ rfl
  refine (setLengths_gives (by decide)).mono ?_
  rintro _ g1 hg1
  have hset : g1.FixedSet := by
    rw [hg1]
    refine ⟨?_, ?_, ?_, ?_⟩ <;> intros <;> simp only <;> split_ifs <;> omega
  have hbits1 : g1.bits = g.bits := by rw [hg1]
  have hwindow1 : g1.window = g.window := by rw [hg1]
  refine (constructLen_gives hset.short (by decide)).mono ?_
  rintro left _ ⟨code, hc, rfl⟩
  rw [hset.lengths_eq] at hc
  have hlen := construct_tables hc (construct_nonneg hc fixedLits_left)
    (length_fixedLits.le.trans (by decide))
  refine (setLengths_gives (by decide)).mono ?_
  rintro _ g2 rfl
  refine (constructDist_gives (i := 0) (n := 30) ?_ (by decide)).mono ?_
  · intro j hj
    simp only
    rw [if_pos (by omega)]
    decide
  rintro left g2 ⟨code', hc, rfl⟩
  have hfive : (List.range' 0 30).map (fun j => if 0 ≤ j ∧ j < 0 + 30 then 5 else g1.lengths j) = fixedDists :=
    map_range'_const fun j hj hj30 => if_pos ⟨hj, hj30⟩
  rw [hfive] at hc
  exact hcodes _ hbits1 hwindow1 hlen (construct_tables hc (construct_nonneg hc (by decide)) (by decide))

theorem fixed_gives (h : g.window.Open) (hleft : Lasts Left Dry g n) (hn : n < turns) :
    Gives (fixed turns) g (Ran g) := by
  refine fixed_set ?_
  intro g' hbits hwindow hlen hdist
  have hgo : Runs 0 g g' := .of_eq hbits hwindow
  exact (codes_gives (hgo.opened h) ⟨_, hlen⟩ ⟨_, hdist⟩ (hgo.spent.lasts hleft) hn).mono
    fun ok g3 hg3 hok => ⟨hgo.trans hg3.1.toRuns, hg3.2 hok⟩

/-! ### Blocks of their own codes -/

theorem orderOn_gives {os : List ℕ} (hos : ∀ o ∈ os, o < lengthsRoom) (ncode : ℕ) (g : Gzip σ τ) :
    Gives (orderOn os ncode) g fun _ g' =>
      Runs 0 g g' ∧ ∀ i, i ∈ os ∨ g.lengths i ≤ longest → g'.lengths i ≤ longest := by
  have hset : ∀ {o v : ℕ} {os : List ℕ} {g g' : Gzip σ τ}, v ≤ longest →
      (Runs 0 { g with lengths := update g.lengths o v } g' ∧
        ∀ i, i ∈ os ∨ update g.lengths o v i ≤ longest → g'.lengths i ≤ longest) →
      Runs 0 g g' ∧ ∀ i, i ∈ o :: os ∨ g.lengths i ≤ longest → g'.lengths i ≤ longest := by
    rintro o v os g g' hv ⟨hgo, hshort⟩
    refine ⟨(Runs.of_lengths g _).trans hgo, ?_⟩
    intro i hi
    apply hshort
    rcases eq_or_ne i o with rfl | hne
    · right
      rwa [update_self]
    · rw [update_of_ne hne]
      simpa [hne] using hi
  induction os, ncode using orderOn.induct generalizing g with
  | case1 => exact gives_pure.2 ⟨.of_eq rfl rfl, by simp⟩
  | case2 o os ih =>
    rw [List.forall_mem_cons] at hos
    rw [orderOn, gives_bind, setLength, if_pos hos.1, gives_modify]
    exact (ih hos.2 _).mono fun _ _ hgo => hset (Nat.zero_le _) hgo
  | case3 o os ncode ih =>
    rw [List.forall_mem_cons] at hos
    simp only [orderOn, gives_bind]
    refine (bitsOf_gives 3 g).mono ?_
    rintro v g1 ⟨hv, hgo1⟩
    rw [setLength, if_pos hos.1, gives_modify]
    refine (ih hos.2 _).mono ?_
    intro _ g2 hgo2
    obtain ⟨hgo2, hshort⟩ := hset (hv.le.trans (by decide)) hgo2
    rw [hgo1.lengths] at hshort
    exact ⟨(hgo1.toRuns.trans hgo2).zero, hshort⟩

/-- The first `index` lengths have been read. -/
structure Reading (all index : ℕ) (g g' : Gzip σ τ) : Prop extends Runs 0 g g' where
  lencode : g'.lencode = g.lencode
  le : index ≤ all
  short : g'.Short index

theorem repeated_gives {len : ℕ} (hall : all ≤ lengthsRoom) (hshort : g.Short index)
    (hlen : len ≤ longest) (n : ℕ) :
    Gives (repeated all index len n) g fun r g' =>
      r.Ends (fun j => Reading all j g g') fun ok => ok = false := by
  rw [repeated]
  split_ifs with hroom
  · exact gives_pure.2 rfl
  rw [not_lt] at hroom
  rw [gives_bind]
  refine (setLengths_gives (hroom.trans hall)).mono ?_
  rintro _ _ rfl
  refine gives_pure.2 ⟨.of_lengths g _, rfl, hroom, ?_⟩
  intro i hi
  simp only
  split_ifs with hin
  · exact hlen
  · exact hshort i (by omega)

/-- What comes before the lengths that are repeated. -/
theorem Goes.reading (h : Goes k g g') (hr : Reading all j g' g'') :
    Reading all j g g'' :=
  ⟨(h.toRuns.trans hr.toRuns).zero, hr.lencode.trans h.lencode, hr.le, hr.short⟩

theorem repeatLast_gives (hall : all ≤ lengthsRoom) (hshort : g.Short index) :
    Gives (repeatLast all index) g fun r g' =>
      r.Ends (fun j => Reading all j g g') fun ok => ok = false := by
  rw [repeatLast]
  split_ifs with hzero
  · exact gives_pure.2 rfl
  simp only [gives_bind, gives_get]
  refine (bitsOf_gives 2 g).mono ?_
  rintro n g1 ⟨-, hgo⟩
  have hshort1 : g1.Short index := by rwa [Short, hgo.lengths]
  refine (repeated_gives hall hshort1 (hshort (index - 1) (by omega)) _).mono ?_
  rintro (j | ok) g2 hr
  · exact hgo.reading hr
  · exact hr

theorem repeatZero_gives (hall : all ≤ lengthsRoom) (hshort : g.Short index)
    (least need : ℕ) :
    Gives (repeatZero all index least need) g fun r g' =>
      r.Ends (fun j => Reading all j g g') fun ok => ok = false := by
  rw [repeatZero, gives_bind]
  refine (bitsOf_gives need g).mono ?_
  rintro n g1 ⟨-, hgo⟩
  have hshort1 : g1.Short index := by rwa [Short, hgo.lengths]
  refine (repeated_gives hall hshort1 (Nat.zero_le _) _).mono ?_
  rintro (j | ok) g2 hr
  · exact hgo.reading hr
  · exact hr

theorem lengthsTurn_gives (hlen : Made g.lencode) (hall : all ≤ lengthsRoom)
    (hindex : index ≤ all) (hshort : g.Short index) :
    Gives (lengthsTurn all index) g fun r g' =>
      r.Ends (fun j => Reading all j g g' ∧ Uses Left Dry g g')
        fun ok => ok = true → Reading all all g g' := by
  rw [lengthsTurn]
  split_ifs with hlt
  · rw [gives_bind]
    refine (decodeBy_gives hlen).mono ?_
    intro sym g1 hgo
    have hshort1 : g1.Short index := by rwa [Short, hgo.lengths]
    have hfalse : ∀ {g2 : Gzip σ τ}, false = true → Reading all all g g2 := fun h => absurd h (by simp)
    -- A length repeated comes after a symbol that was there.
    have hrest : ∀ {m : Prog (Gzip σ τ) (Turn ℕ Bool)}, ¬ g1.Dry →
        Gives m g1 (fun r g' => r.Ends (fun j => Reading all j g1 g') fun ok => ok = false) →
        Gives m g1 fun r g' => r.Ends (fun j => Reading all j g g' ∧ Uses Left Dry g g')
          fun ok => ok = true → Reading all all g g' := by
      intro m hdry hm
      refine hm.mono ?_
      rintro (j | ok) g2 hr
      · exact ⟨hgo.reading hr, hgo.spent.uses hdry hr.spent⟩
      · rw [show ok = false from hr]
        exact hfalse
    rw [gives_bind, gives_get]
    split_ifs with hbad hsym
    · exact gives_pure.2 hfalse
    all_goals simp only [not_or] at hbad
    · rw [gives_bind, setLength, if_pos (by omega), gives_modify]
      have hset := Runs.of_lengths g1 (update g1.lengths index sym.toNat)
      refine gives_pure.2 ⟨⟨(hgo.toRuns.trans hset).zero, hgo.lencode, hlt, ?_⟩,
        hgo.spent.uses hbad.2 hset.spent⟩
      intro i hi
      rcases eq_or_ne i index with rfl | hne
      · simp only [update_self]
        have hlong : longest = 15 := rfl
        omega
      · simp only [update_of_ne hne]
        exact hshort1 i (by omega)
    · exact hrest hbad.2 (repeatLast_gives hall hshort1)
    · exact hrest hbad.2 (repeatZero_gives hall hshort1 3 3)
    · exact hrest hbad.2 (repeatZero_gives hall hshort1 11 7)
  · obtain rfl : index = all := by omega
    exact gives_pure.2 fun _ => ⟨.of_eq rfl rfl, rfl, le_rfl, hshort⟩

theorem readLengths_gives (hlen : Made g.lencode) (hall : all ≤ lengthsRoom)
    (hleft : Lasts Left Dry g n) (hn : n < turns) :
    Gives (loop (lengthsTurn all) turns 0) g fun ok g' => ok = true → Reading all all g g' := by
  refine Gives.loop_uses (I := fun index => Reading all index g) ?_ ?_ hleft hn
  · intro index g1 hg1
    refine (lengthsTurn_gives (hg1.lencode ▸ hlen) hall hg1.le hg1.short).mono ?_
    have htrans : ∀ {j g2}, Reading all j g1 g2 → Reading all j g g2 := fun h =>
      ⟨hg1.toRuns.trans h.toRuns, h.lencode.trans hg1.lencode, h.le, h.short⟩
    rintro (j | ok) g2 hr
    · exact ⟨htrans hr.1, hr.2⟩
    · exact fun h => htrans (hr h)
  · exact ⟨.of_eq rfl rfl, rfl, Nat.zero_le _, fun i hi => absurd hi (Nat.not_lt_zero i)⟩

theorem codesOf_gives {nlen ndist : ℕ} (h : g.window.Open) (hshort : g.Short (nlen + ndist))
    (hnlen : nlen ≤ symbolRoom) (hndist : ndist ≤ symbolRoom) (hleft : Lasts Left Dry g n)
    (hn : n < turns) : Gives (codesOf turns nlen ndist) g (Ran g) := by
  have hcomplete : ∀ {left : ℤ} {h : Huff} {n : ℕ}, ¬ incomplete left h n = true → 0 ≤ left := by
    intro left h n hin
    by_contra hneg
    exact hin (decide_eq_true (.inl (not_le.1 hneg)))
  rw [codesOf, gives_bind, gives_get]
  split_ifs
  · exact gives_pure.2 ran_false
  rw [gives_bind]
  refine (constructLen_gives (fun i hi => hshort i (by omega)) hnlen).mono ?_
  rintro left g1 ⟨code, hc, hg1⟩
  rw [gives_bind, gives_get]
  split_ifs with hin
  · exact gives_pure.2 ran_false
  have hlen := made_of_construct hc (hcomplete hin) (by rwa [List.length_map, List.length_range])
  have hshort1 : g1.Short (nlen + ndist) := hg1 ▸ hshort
  rw [gives_bind]
  refine (constructDist_gives hshort1 hndist).mono ?_
  rintro left' g2 ⟨code', hc', hg2⟩
  rw [gives_bind, gives_get]
  split_ifs with hin'
  · exact gives_pure.2 ran_false
  have hdist := made_of_construct hc' (hcomplete hin') (by rwa [List.length_map, List.length_range'])
  have hlen1 : g1.lencode = code := by rw [hg1]
  have hlen2 : g2.lencode = g1.lencode := by rw [hg2]
  have hdist2 : g2.distcode = code' := by rw [hg2]
  have hbits : g2.bits = g.bits := by rw [hg2, hg1]
  have hwindow : g2.window = g.window := by rw [hg2, hg1]
  have hgo := Runs.of_eq hbits hwindow
  refine (codes_gives (hgo.opened h) ?_ (hdist2 ▸ hdist) (hgo.spent.lasts hleft) hn).mono ?_
  · rwa [hlen2, hlen1]
  · exact fun ok g3 hg3 hok => ⟨hgo.trans hg3.1.toRuns, hg3.2 hok⟩

theorem dynamic_gives (h : g.window.Open) (hleft : Lasts Left Dry g n) (hn : n < turns) :
    Gives (dynamic turns) g (Ran g) := by
  rw [dynamic, gives_bind]
  refine (bitsOf_gives 5 g).mono ?_
  rintro v1 g1 ⟨hv1, hgo1⟩
  rw [gives_bind]
  refine (bitsOf_gives 5 g1).mono ?_
  rintro v2 g2 ⟨hv2, hgo2⟩
  rw [gives_bind]
  refine (bitsOf_gives 4 g2).mono ?_
  rintro v3 g3 ⟨-, hgo3⟩
  split_ifs with hmany
  · exact gives_pure.2 ran_false
  rw [not_or, not_lt, not_lt] at hmany
  have hroom : lengthsRoom = 320 := rfl
  have hsymbols : symbolRoom = 288 := rfl
  rw [gives_bind]
  refine (orderOn_gives (by decide) _ g3).mono ?_
  rintro _ g4 ⟨hgo4, hshort⟩
  have hgo := (((hgo1.trans hgo2).trans hgo3).toRuns.trans hgo4).zero
  rw [gives_bind]
  refine (constructLen_gives (n := 19) ?_ (by decide)).mono ?_
  · intro i hi
    refine hshort i (.inl ?_)
    interval_cases i <;> decide
  rintro left g5 ⟨code, hc, hg5⟩
  split_ifs with hleft0
  · exact gives_pure.2 ran_false
  rw [not_not] at hleft0
  have hcode := made_of_construct hc hleft0.ge (by simp [symbolRoom])
  have hlen5 : g5.lencode = code := by rw [hg5]
  have hbits : g5.bits = g4.bits := by rw [hg5]
  have hwindow : g5.window = g4.window := by rw [hg5]
  have hgo5 := hgo.trans (.of_eq hbits hwindow)
  rw [gives_bind]
  refine (readLengths_gives (hlen5 ▸ hcode) (by omega) (hgo5.spent.lasts hleft) hn).mono ?_
  intro ok g6 hread
  split_ifs with hok
  · have hread := hread hok
    have hgo6 := hgo5.trans hread.toRuns
    refine (codesOf_gives (hgo6.opened h) hread.short (by omega) (by omega) (hgo6.spent.lasts hleft)
      hn).mono ?_
    exact fun ok g7 hg7 hok => ⟨hgo6.trans (hg7 hok).1, (hg7 hok).2⟩
  · exact gives_pure.2 ran_false

/-! ### `gunzip` -/

theorem blockTurn_gives (h : g.window.Open) (hleft : Lasts Left Dry g n) (hn : n < turns) (u : Unit) :
    Gives (blockTurn turns u) g fun r g' =>
      r.Ends (fun _ => Runs 0 g g' ∧ Uses Left Dry g g') fun _ => True := by
  rw [blockTurn, gives_bind]
  refine (bitsOf_gives 1 g).mono ?_
  rintro last g1 ⟨-, hgo1⟩
  rw [gives_bind]
  refine (bitsOf_gives 2 g1).mono ?_
  rintro kind g2 ⟨-, hgo2⟩
  have hgo := (hgo1.trans hgo2).zero
  have hleft2 := hgo.spent.lasts hleft
  have hblock : Gives (block turns kind) g2 (Ran g2) := by
    rw [block]
    split_ifs
    · exact stored_gives (hgo.opened h)
    · exact fixed_gives (hgo.opened h) hleft2 hn
    · exact dynamic_gives (hgo.opened h) hleft2 hn
    · exact gives_pure.2 ran_false
  rw [gives_bind]
  refine hblock.mono ?_
  intro ok g3 hran
  split_ifs with hmore
  · obtain ⟨hgo3, hdry⟩ := hran hmore.1
    have hrest := hgo2.toRuns.zero.trans hgo3
    exact gives_pure.2 ⟨hgo.toRuns.trans hgo3, hgo1.spent.uses (mt hrest.spent.dry hdry) hrest.spent⟩
  · exact gives_pure.2 trivial

theorem text_gives (hleft : Lasts Left Dry g n) (hn : n < turns) :
    Gives (loop textTurn turns ()) g fun _ g' => Goes 0 g g' := by
  refine Gives.loop_uses (I := fun _ => Goes 0 g) ?_ (.refl g) hleft hn
  intro u g1 hg1
  rw [textTurn, gives_bind]
  refine (byte_gives g1).mono ?_
  intro b g2 hgo
  have hgo2 := (hg1.trans hgo).zero
  split_ifs
  · exact gives_pure.2 hgo2
  rw [gives_bind, gives_get]
  split_ifs with hbad
  · exact gives_pure.2 hgo2
  · refine gives_pure.2 ⟨hgo2, ?_⟩
    have hone : Drains Left Dry 1 g1 g2 := by
      refine ⟨hgo.spent.dry, ?_⟩
      intro m hdry hm
      obtain ⟨hle, hrest⟩ := hgo.spent.left m hdry hm
      exact ⟨by omega, hrest.mono (by omega)⟩
    exact hone.uses hbad (.refl g2)

theorem given_gives {c : Prop} [Decidable c] {m : Prog (Gzip σ τ) Unit}
    (hm : Gives m g fun _ g' => Goes 0 g g') : Gives (given c m) g fun _ g' => Goes 0 g g' :=
  gives_given.2 ⟨fun _ => hm, fun _ => .refl g⟩

theorem optional_gives (hleft : Lasts Left Dry g n) (hn : n < turns) (flags : UInt8) :
    Gives (optional turns flags) g fun _ g' => Goes 0 g g' := by
  have hextra : Gives extra g fun _ g' => Goes 0 g g' := by
    simp only [extra, gives_bind, gives_pure]
    refine (byte_gives g).mono ?_
    intro b1 g1 hgo1
    refine (byte_gives g1).mono ?_
    intro b2 g2 hgo2
    exact (read_gives _ g2).mono fun _ _ hgo3 => ((hgo1.trans hgo2).trans hgo3).zero
  simp only [optional, gives_bind]
  refine (given_gives hextra).mono ?_
  intro _ g1 hgo1
  refine (given_gives (text_gives (hgo1.spent.lasts hleft) hn)).mono ?_
  intro _ g2 hgo2
  have hgo2 := hgo1.trans hgo2
  refine (given_gives (text_gives (hgo2.spent.lasts hleft) hn)).mono ?_
  intro _ g3 hgo3
  have hgo3 := hgo2.trans hgo3
  refine (given_gives (gives_map.2 (read_gives 2 g3))).mono ?_
  exact fun _ _ hgo4 => hgo3.trans hgo4

/-- **`gunzip` ends**, with every index in range, and returns true only if the input did not run out. -/
theorem gunzip_gives (g : Gzip σ τ) {k : ℕ} (hk : g.bits.src.Left k) (hturns : 8 * k + g.bits.bitcnt < turns)
    (got : Option (ℕ → UInt8)) (out : List UInt8 → τ → Bool × τ) :
    Gives (gunzip turns got out) g fun ok g' => ok = true → g'.bits.src.bad = false := by
  have hleft : Lasts Left Dry g (8 * k + g.bits.bitcnt) := .inr ⟨k, hk, le_rfl⟩
  have hfalse : ∀ {g' : Gzip σ τ}, false = true → g'.bits.src.bad = false := fun h => absurd h (by simp)
  rw [gunzip, gives_bind]
  refine (read_gives 10 g).mono ?_
  intro r g1 hgo1
  split_ifs
  · exact gives_pure.2 hfalse
  rw [gives_bind]
  refine (optional_gives (hgo1.spent.lasts hleft) hturns _).mono ?_
  intro _ g2 hgo2
  have hgo := hgo1.trans hgo2
  rw [gives_bind, windowed, gives_onPart]
  refine (Window.windowOpen_gives g2.window got out (by decide) (by decide)).mono ?_
  rintro ok w ⟨-, -, hopen⟩
  split_ifs with hok
  · rw [gives_bind]
    have hgo3 : Drains Left Dry 0 g { g2 with window := w } := ⟨hgo.spent.dry, hgo.spent.left⟩
    refine (noBits_gives _).mono ?_
    intro _ g4 hgo4
    have hopen4 := hgo4.opened (hopen hok)
    have hleft4 := (hgo3.trans hgo4.spent).lasts hleft
    rw [gives_bind]
    refine (Gives.loop_uses (I := fun _ => Runs 0 g4) (Q := fun _ _ => True) ?_ (.of_eq rfl rfl) hleft4
      hturns).mono ?_
    · intro u g5 hgo5
      refine (blockTurn_gives (hgo5.opened hopen4) (hgo5.spent.lasts hleft4) hturns u).mono ?_
      rintro (_ | _) g6 hr
      · exact ⟨hgo5.trans hr.1, hr.2⟩
      · trivial
    intro ok g5 _
    rw [gives_bind, windowed, gives_onPart]
    refine (Window.windowClose_gives g5.window ok).mono ?_
    intro ok w _
    simp only [gives_bind, gives_get, gives_pure, Bool.and_eq_true, Bool.not_eq_true']
    exact fun h => h.2
  · exact gives_pure.2 hfalse

end Gzip

end BaxOS.Unpack
