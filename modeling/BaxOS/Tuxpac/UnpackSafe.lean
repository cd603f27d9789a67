import BaxOS.Tuxpac.InflateSafe
import BaxOS.Tuxpac.Lzma

/-!
# The decoders are safe

`unxz` has no index out of range either and comes to an end, whatever the input (`Xz.unxz_gives`). What
carries it is `Xz.Ok`: `lc`, `lp`, `pb` and `state` are within the sizes of the arrays, and `rep[0]` is a
distance inside the window whenever a literal would look back by it. With `gunzip` that is all there is to
say of both (`decoders_safe`).
-/

namespace BaxOS.Unpack
open Function Programs

variable {σ τ : Type}
variable {x'' : Xz σ τ} {props : Bool} {h : ℕ → UInt8} {dict stop : ℕ}

/-! ### The range decoder -/

namespace Coder

variable {c c' : Coder σ} {p : ℕ → Cell} {i m n s : ℕ}

/-- What a step of the range decoder leaves of its source. -/
def Goes (k : ℕ) (c c' : Coder σ) : Prop := Source.Spent k c.src c'.src

theorem Goes.trans {c'' : Coder σ} (h : Goes 0 c c') (h' : Goes 0 c' c'') : Goes 0 c c'' :=
  Drains.trans h h'

theorem Goes.refl (c : Coder σ) : Goes 0 c c := Drains.refl c.src

theorem byte_gives (c : Coder σ) : Gives byte c fun _ c' => Goes 1 c c' := by
  simp only [byte, gives_bind, gives_get, gives_set, gives_pure]
  exact Source.spent_srcByte c.src

theorem shiftIn_gives (c : Coder σ) : Gives shiftIn c fun _ c' => Goes 0 c c' := by
  simp only [shiftIn, gives_bind, gives_modify]
  exact (byte_gives c).mono fun _ _ h => Drains.zero Source.Left.mono h

theorem rcInit_gives (c : Coder σ) : Gives rcInit c fun _ c' => Goes 0 c c' := by
  simp only [rcInit, gives_bind, gives_modify]
  refine (byte_gives c).mono ?_
  intro _ c1 h1
  refine (shiftIn_gives _).mono ?_
  intro _ c2 h2
  refine (shiftIn_gives _).mono ?_
  intro _ c3 h3
  refine (shiftIn_gives _).mono ?_
  intro _ c4 h4
  refine (shiftIn_gives _).mono ?_
  intro _ c5 h5
  have h1 : Goes 0 c c1 := Drains.zero Source.Left.mono h1
  exact (((h1.trans h2).trans h3).trans h4).trans h5

theorem normalize_gives (c : Coder σ) : Gives normalize c fun _ c' => Goes 0 c c' := by
  rw [normalize, gives_bind, gives_get]
  split_ifs
  · rw [gives_bind, gives_set]
    exact shiftIn_gives _
  · exact gives_pure.2 (.refl c)

/-- `bit`, of a probability that is within its array. -/
theorem bit_gives {p : Cell} (hp : p.inRange = true) (c : Coder σ) :
    Gives (bit p) c fun b c' => b < 2 ∧ Goes 0 c c' := by
  rw [bit, if_pos hp, gives_bind, gives_get]
  dsimp only
  split_ifs
  · simp only [gives_bind, gives_set, gives_pure]
    exact (normalize_gives _).mono fun _ _ h => ⟨two_pos, h⟩
  · simp only [gives_bind, gives_set, gives_pure]
    exact (normalize_gives _).mono fun _ _ h => ⟨one_lt_two, h⟩

theorem treeOn_gives (hp : ∀ m < 2 ^ (i + n), (p m).inRange = true) (hm : m < 2 ^ (i + 1)) (c : Coder σ) :
    Gives (treeOn p n m) c fun r c' => r < 2 ^ (i + n + 1) ∧ Goes 0 c c' := by
  induction n generalizing i m c with
  | zero => exact gives_pure.2 ⟨hm, .refl c⟩
  | succ n ih =>
    have hlt : m < 2 ^ (i + (n + 1)) := hm.trans_le (Nat.pow_le_pow_right two_pos (by omega))
    rw [treeOn, gives_bind]
    refine (bit_gives (hp m hlt) c).mono ?_
    rintro b c1 ⟨hb, h1⟩
    have hnext : m <<< 1 + b < 2 ^ (i + 1 + 1) := by
      rw [Nat.shiftLeft_eq, Nat.pow_succ 2 (i + 1)]
      omega
    have harith : i + (n + 1) = i + 1 + n := by omega
    rw [harith] at hp ⊢
    exact (ih hp hnext c1).mono fun _ _ h => ⟨h.1, h1.trans h.2⟩

/-- `tree`, of probabilities that are within their array. -/
theorem tree_gives (hp : ∀ m < 2 ^ n, (p m).inRange = true) (c : Coder σ) :
    Gives (tree p n) c fun r c' => r < 2 ^ n ∧ Goes 0 c c' := by
  rw [tree, gives_bind]
  refine (treeOn_gives (i := 0) (by simpa using hp) (by decide) c).mono ?_
  rintro r c1 ⟨hr, h1⟩
  refine gives_pure.2 ⟨?_, h1⟩
  rw [Nat.zero_add, Nat.pow_succ] at hr
  have hpos := Nat.two_pow_pos n
  rw [Nat.one_shiftLeft]
  omega

theorem rtreeOn_gives (hp : ∀ m < 2 ^ (i + n), (p m).inRange = true) (hm : m < 2 ^ (i + 1)) (k s : ℕ)
    (c : Coder σ) : Gives (rtreeOn p n k m s) c fun _ c' => Goes 0 c c' := by
  induction n generalizing i k m s c with
  | zero => exact gives_pure.2 (.refl c)
  | succ n ih =>
    have hlt : m < 2 ^ (i + (n + 1)) := hm.trans_le (Nat.pow_le_pow_right two_pos (by omega))
    rw [rtreeOn, gives_bind]
    refine (bit_gives (hp m hlt) c).mono ?_
    rintro b c1 ⟨hb, h1⟩
    have hnext : m <<< 1 + b < 2 ^ (i + 1 + 1) := by
      rw [Nat.shiftLeft_eq, Nat.pow_succ 2 (i + 1)]
      omega
    have harith : i + (n + 1) = i + 1 + n := by omega
    rw [harith] at hp
    exact (ih hp hnext _ _ c1).mono fun _ _ h => h1.trans h

theorem rtree_gives (hp : ∀ m < 2 ^ n, (p m).inRange = true) (c : Coder σ) :
    Gives (rtree p n) c fun _ c' => Goes 0 c c' :=
  rtreeOn_gives (i := 0) (by simpa using hp) (by decide) 0 0 c

theorem directOn_gives (n : ℕ) (r : UInt32) (c : Coder σ) :
    Gives (directOn n r) c fun _ c' => Goes 0 c c' := by
  induction n generalizing r c with
  | zero => exact gives_pure.2 (.refl c)
  | succ n ih =>
    rw [directOn, gives_bind, gives_modify, gives_bind, gives_get]
    split_ifs
    · simp only [gives_bind, gives_set]
      refine (normalize_gives _).mono ?_
      exact fun _ c1 h1 => (ih _ c1).mono fun _ _ h => Goes.trans h1 h
    · simp only [gives_bind]
      refine (normalize_gives _).mono ?_
      exact fun _ c1 h1 => (ih _ c1).mono fun _ _ h => Goes.trans h1 h

theorem lenDecode_gives {l : LenCell → Cell} (hl : ∀ k : LenCell, k.inRange = true → (l k).inRange = true)
    {ps : ℕ} (hps : ps < 16) (c : Coder σ) : Gives (lenDecode l ps) c fun _ c' => Goes 0 c c' := by
  have hlow : ∀ m < 2 ^ 3, (l (.low ps m)).inRange = true := fun m hm =>
    hl _ (by simpa [LenCell.inRange, hps] using hm)
  have hmid : ∀ m < 2 ^ 3, (l (.mid ps m)).inRange = true := fun m hm =>
    hl _ (by simpa [LenCell.inRange, hps] using hm)
  have hhigh : ∀ m < 2 ^ 8, (l (.high m)).inRange = true := fun m hm =>
    hl _ (by simpa [LenCell.inRange] using hm)
  rw [lenDecode, gives_bind]
  refine (bit_gives (hl _ rfl) c).mono ?_
  rintro b c1 ⟨-, h1⟩
  split_ifs
  · exact (tree_gives hlow c1).mono fun _ _ h => h1.trans h.2
  rw [gives_bind]
  refine (bit_gives (hl _ rfl) c1).mono ?_
  rintro b c2 ⟨-, h2⟩
  split_ifs
  · simp only [gives_bind, gives_pure]
    exact (tree_gives hmid c2).mono fun _ _ h => (h1.trans h2).trans h.2
  · simp only [gives_bind, gives_pure]
    exact (tree_gives hhigh c2).mono fun _ _ h => (h1.trans h2).trans h.2

end Coder

namespace Xz
open Coder

variable {x x' : Xz σ τ} {base k left n ps turns : ℕ}

/-! ### What each step leaves -/

/-- There are no more than so many bytes to read. -/
def Left (x : Xz σ τ) (n : ℕ) : Prop := x.coder.src.Left n

/-- The input ran out. -/
def Dry (x : Xz σ τ) : Prop := x.coder.src.Dry

abbrev Spent (k : ℕ) (x x' : Xz σ τ) : Prop := Drains Left Dry k x x'

theorem spent_of_src (h : Source.Spent k x.coder.src x'.coder.src) : Spent k x x' := ⟨h.dry, h.left⟩

theorem spent_of_coder (h : x'.coder = x.coder) : Spent 0 x x' :=
  spent_of_src (by rw [h]; exact .refl _)

/-- The window is open, and every index made of `lc`, `lp`, `pb` and `state` is within its array. -/
structure Ready (x : Xz σ τ) : Prop where
  opened : x.window.Open
  lit : x.lc + x.lp ≤ 4
  pos : x.pb ≤ 4
  state : x.state < 12

/-- The last distance too is inside the window, where a literal looks back by it. -/
structure Ok (x : Xz σ τ) : Prop extends Ready x where
  rep : 7 ≤ x.state → 1 ≤ (x.rep0 + 1).toNat ∧ (x.rep0 + 1).toNat ≤ x.window.wsize

/-- What a step of `lzma_chunk` leaves. -/
structure Steps (x x' : Xz σ τ) : Prop where
  spent : Spent 0 x x'
  ready : x.Ready → x'.Ready

/-- And changes the range decoder only. -/
structure Coded (x x' : Xz σ τ) : Prop where
  spent : Spent 0 x x'
  same : x' = { x with coder := x'.coder }

theorem Steps.trans (h : Steps x x') (h' : Steps x' x'') : Steps x x'' :=
  ⟨h.spent.trans h'.spent, fun hx => h'.ready (h.ready hx)⟩

namespace Coded

theorem refl (x : Xz σ τ) : Coded x x := ⟨.refl x, rfl⟩

theorem trans (h : Coded x x') (h' : Coded x' x'') : Coded x x'' := by
  refine ⟨h.spent.trans h'.spent, ?_⟩
  rw [h'.same, h.same]

theorem ok (h : Coded x x') (hx : x.Ok) : x'.Ok := by
  rw [h.same]
  exact ⟨⟨hx.opened, hx.lit, hx.pos, hx.state⟩, hx.rep⟩

theorem ready (h : Coded x x') (hx : x.Ready) : x'.Ready := by
  rw [h.same]
  exact ⟨hx.opened, hx.lit, hx.pos, hx.state⟩

theorem steps (h : Coded x x') : Steps x x' := ⟨h.spent, h.ready⟩

end Coded

theorem coding_gives {α : Type} {m : Prog (Coder σ) α} {Q : α → Prop}
    (h : Gives m x.coder fun a c => Q a ∧ Goes 0 x.coder c) :
    Gives (coding m) x fun a x' => Q a ∧ Coded x x' := by
  rw [coding, gives_onPart]
  exact h.mono fun a c ⟨ha, hc⟩ => ⟨ha, spent_of_src hc, rfl⟩

theorem coded_gives {α : Type} {m : Prog (Coder σ) α} (h : Gives m x.coder fun _ c => Goes 0 x.coder c) :
    Gives (coding m) x fun _ x' => Coded x x' :=
  (coding_gives (Q := fun _ => True) (h.mono fun _ _ hc => ⟨trivial, hc⟩)).mono fun _ _ hx => hx.2

theorem bitOf_gives {p : Cell} (hp : p.inRange = true) (x : Xz σ τ) :
    Gives (coding (bit p)) x fun b x' => b < 2 ∧ Coded x x' :=
  coding_gives (bit_gives hp x.coder)

/-! ### Literals -/

theorem litBase_le (hx : x.Ready) (prev : UInt8) : litBase x prev ≤ 0x300 * 15 := by
  have hpos := Nat.and_lt_two_pow x.window.total.toNat (n := x.lp) (y := 2 ^ x.lp - 1)
    (by have := Nat.two_pow_pos x.lp; omega)
  have hprev : prev.toNat >>> (8 - x.lc) < 2 ^ x.lc := by
    have hsplit : 2 ^ 8 = 2 ^ x.lc * 2 ^ (8 - x.lc) := by
      rw [← Nat.pow_add, Nat.add_sub_cancel' (by have := hx.lit; omega)]
    rw [Nat.shiftRight_eq_div_pow, Nat.div_lt_iff_lt_mul (Nat.two_pow_pos _), ← hsplit]
    exact prev.toNat_lt
  have hall : 2 ^ x.lp * 2 ^ x.lc ≤ 16 := by
    rw [← Nat.pow_add]
    exact Nat.pow_le_pow_right (j := 4) two_pos (by have := hx.lit; omega)
  have hfit : (x.window.total.toNat &&& (2 ^ x.lp - 1)) * 2 ^ x.lc + 2 ^ x.lc ≤ 2 ^ x.lp * 2 ^ x.lc := by
    rw [← Nat.succ_mul]
    exact Nat.mul_le_mul_right _ hpos
  rw [litBase, Nat.one_shiftLeft, Nat.shiftLeft_eq]
  omega

theorem matchedOn_gives (hbase : base ≤ 0x300 * 15) {s : ℕ} (hs : s < 0x100) (n old : ℕ) (x : Xz σ τ) :
    Gives (matchedOn base n old s) x fun _ x' => Coded x x' := by
  induction n generalizing s old x with
  | zero => exact gives_pure.2 (.refl x)
  | succ n ih =>
    have hm := Nat.and_lt_two_pow (old >>> 7) (n := 1) (y := 1) one_lt_two
    have hin : (Cell.lit (base + ((1 + (old >>> 7 &&& 1)) <<< 8 + s))).inRange = true := by
      rw [Cell.inRange, decide_eq_true_eq, Nat.shiftLeft_eq, Nat.shiftLeft_eq]
      omega
    rw [matchedOn, gives_bind]
    refine (bitOf_gives hin x).mono ?_
    rintro b x1 ⟨-, h1⟩
    simp only [gives_ite, gives_pure]
    exact ⟨fun _ => h1, fun _ => ⟨fun hmore => (ih hmore _ x1).mono fun _ _ h => h1.trans h, fun _ => h1⟩⟩

theorem plainOn_gives (hbase : base ≤ 0x300 * 15) (n s : ℕ) (x : Xz σ τ) :
    Gives (plainOn base n s) x fun _ x' => Coded x x' := by
  induction n generalizing s x with
  | zero => exact gives_pure.2 (.refl x)
  | succ n ih =>
    rw [plainOn]
    split_ifs with hs
    · have hin : (Cell.lit (base + s)).inRange = true := by
        rw [Cell.inRange, decide_eq_true_eq, Nat.shiftLeft_eq]
        omega
      rw [gives_bind]
      refine (bitOf_gives hin x).mono ?_
      rintro b x1 ⟨-, h1⟩
      exact (ih _ x1).mono fun _ _ h => h1.trans h
    · exact gives_pure.2 (.refl x)

theorem back_gives (hx : x.window.Open) {d : UInt32} (hpos : 1 ≤ d.toNat) (hd : d.toNat ≤ x.window.wsize) :
    Gives (windowed (Window.back d)) x fun _ x' => x' = x := by
  rw [windowed, gives_onPart]
  exact (Window.back_gives hx hpos hd).mono fun _ w hw => by rw [hw]

theorem previous_gives (hx : x.window.Open) : Gives previous x fun _ x' => x' = x := by
  rw [previous, gives_bind, gives_get]
  split_ifs
  · exact back_gives hx le_rfl (Nat.one_le_of_lt hx.inside)
  · exact gives_pure.2 rfl

theorem matched_gives (hx : x.Ok) (hbase : base ≤ 0x300 * 15) :
    Gives (matched base) x fun _ x' => Coded x x' := by
  rw [matched, gives_bind, gives_get]
  split_ifs with hstate
  · obtain ⟨hpos, hd⟩ := hx.rep hstate
    rw [gives_bind]
    refine (back_gives hx.opened hpos hd).mono ?_
    rintro old _ rfl
    exact matchedOn_gives hbase (by decide) 8 _ _
  · exact gives_pure.2 (.refl x)

theorem literal_gives (hx : x.Ok) : Gives literal x fun _ x' => Spent 0 x x' ∧ x'.Ok := by
  rw [literal, gives_bind, gives_get, gives_bind]
  refine (previous_gives hx.opened).mono ?_
  rintro prev _ rfl
  have hbase := litBase_le hx.toReady prev
  rw [gives_bind]
  refine (matched_gives hx hbase).mono ?_
  intro s x1 h1
  rw [gives_bind]
  refine (plainOn_gives hbase 8 s x1).mono ?_
  intro s x2 h2
  have hcoded := h1.trans h2
  have hok := hcoded.ok hx
  rw [gives_bind, windowed, gives_onPart]
  refine (Window.put_gives hok.opened _).mono ?_
  intro _ w hw
  refine gives_modify.2 ⟨⟨hcoded.spent.dry, hcoded.spent.left⟩, ⟨hw.opened, hok.lit, hok.pos, ?_⟩, ?_⟩
  · have := hok.state
    simp only
    split_ifs <;> omega
  · simp only [hw.wsize]
    intro hstate
    apply hok.rep
    split_ifs at hstate <;> omega

/-! ### Matches -/

theorem distance_gives (slot : ℕ) (c : Coder σ) : Gives (distance slot) c fun _ c' => Goes 0 c c' := by
  have hpos : ∀ slot < 14, 4 ≤ slot →
      (2 ||| slot &&& 1) <<< (slot >>> 1 - 1) - slot + 2 ^ (slot >>> 1 - 1) ≤ 115 := by decide
  have hrange : ∀ m < 2 ^ 4, (Cell.align m).inRange = true := fun m hm => by simpa [Cell.inRange] using hm
  rw [distance]
  split_ifs with hfour hlow
  · rw [gives_bind]
    refine (rtree_gives ?_ c).mono fun _ _ h => gives_pure.2 h
    intro m hm
    have := hpos slot hlow hfour
    rw [Cell.inRange, decide_eq_true_eq]
    omega
  · simp only [gives_bind, gives_pure]
    refine (directOn_gives _ 0 c).mono ?_
    intro _ c1 h1
    exact (rtree_gives hrange c1).mono fun _ _ h => Goes.trans h1 h
  · exact gives_pure.2 (.refl c)

theorem len_inRange (k : LenCell) (hk : k.inRange = true) : (Cell.len k).inRange = true := hk

theorem repLen_inRange (k : LenCell) (hk : k.inRange = true) : (Cell.repLen k).inRange = true := hk

/-- A step that leaves `coder`, the window and `lc`, `lp` and `pb` as they were. -/
theorem steps_of_state (hcoder : x'.coder = x.coder) (hwindow : x'.window = x.window) (hlc : x'.lc = x.lc)
    (hlp : x'.lp = x.lp) (hpb : x'.pb = x.pb) (hstate : x.state < 12 → x'.state < 12) : Steps x x' := by
  refine ⟨spent_of_coder hcoder, ?_⟩
  rintro ⟨hopened, hlit, hpos, hlt⟩
  exact ⟨by rwa [hwindow], by rwa [hlc, hlp], by rwa [hpb], hstate hlt⟩

theorem newMatch_gives (hps : ps < 16) (x : Xz σ τ) : Gives (newMatch ps) x fun _ x' => Steps x x' := by
  rw [newMatch, gives_bind, gives_modify]
  have hmoved : Steps x { x with rep3 := x.rep2, rep2 := x.rep1, rep1 := x.rep0 } :=
    steps_of_state rfl rfl rfl rfl rfl id
  rw [gives_bind]
  refine (coded_gives (lenDecode_gives len_inRange hps _)).mono ?_
  intro len x1 h1
  have hstate : Steps x1 { x1 with state := if x1.state < 7 then 7 else 10 } :=
    steps_of_state rfl rfl rfl rfl rfl fun _ => by dsimp only; split_ifs <;> decide
  have hsteps := (hmoved.trans h1.steps).trans hstate
  rw [gives_bind, gives_modify, gives_bind]
  have hslot : ∀ m < 2 ^ 6, (Cell.slot (if len < 3 then len else 3) m).inRange = true := by
    intro m hm
    rw [Cell.inRange, Bool.and_eq_true, decide_eq_true_eq, decide_eq_true_eq]
    refine ⟨?_, hm⟩
    split_ifs <;> omega
  refine (coding_gives (tree_gives hslot _)).mono ?_
  rintro slot x2 ⟨-, h2⟩
  rw [gives_bind]
  refine (coded_gives (distance_gives slot _)).mono ?_
  intro d x3 h3
  simp only [gives_bind, gives_modify, gives_pure]
  exact ((hsteps.trans h2.steps).trans h3.steps).trans (steps_of_state rfl rfl rfl rfl rfl id)

theorem olderRep_gives (hx : x.state < 12) : Gives olderRep x fun _ x' => Steps x x' := by
  have hg1 : (Cell.g1 x.state).inRange = true := by simpa [Cell.inRange] using hx
  have hg2 : (Cell.g2 x.state).inRange = true := by simpa [Cell.inRange] using hx
  rw [olderRep, gives_bind, gives_get, gives_bind]
  refine (bitOf_gives hg1 x).mono ?_
  rintro b x1 ⟨-, h1⟩
  split_ifs
  · exact gives_modify.2 (h1.steps.trans (steps_of_state rfl rfl rfl rfl rfl id))
  rw [gives_bind]
  refine (bitOf_gives hg2 x1).mono ?_
  rintro b x2 ⟨-, h2⟩
  have h2 := (h1.trans h2).steps
  split_ifs
  · exact gives_modify.2 (h2.trans (steps_of_state rfl rfl rfl rfl rfl id))
  · exact gives_modify.2 (h2.trans (steps_of_state rfl rfl rfl rfl rfl id))

theorem repMatch_gives (hps : ps < 16) (x : Xz σ τ) : Gives (repMatch ps) x fun _ x' => Steps x x' := by
  rw [repMatch, gives_bind]
  refine (coded_gives (lenDecode_gives repLen_inRange hps _)).mono ?_
  intro len x1 h1
  simp only [gives_bind, gives_modify, gives_pure]
  exact h1.steps.trans (steps_of_state rfl rfl rfl rfl rfl fun _ => by dsimp only; split_ifs <;> decide)

/-- What a turn of `lzma_chunk` leaves, with `left` bytes to come before it. -/
def Turned (x : Xz σ τ) (left : ℕ) (r : Turn ℕ Bool) (x' : Xz σ τ) : Prop :=
  Spent 0 x x' ∧ r.Ends (fun l => l < left ∧ x'.Ok) fun ok => ok = true → x'.Ok

theorem turned_false (h : Spent 0 x x') : Turned x left (.leave false) x' := ⟨h, fun hf => absurd hf (by simp)⟩

theorem Turned.of_steps {x₀ : Xz σ τ} {r : Turn ℕ Bool} (h : Steps x₀ x) (hr : Turned x left r x') :
    Turned x₀ left r x' := ⟨h.spent.trans hr.1, hr.2⟩

/-- A distance that has been copied from is inside the window. -/
theorem copy_gives (hx : x.Ready) (len : ℕ) :
    Gives (windowed (Window.copy (x.rep0 + 1) len)) x fun ok x' => Spent 0 x x' ∧ (ok = true → x'.Ok) := by
  rw [windowed, gives_onPart]
  refine (Window.copy_gives hx.opened _ len).mono ?_
  rintro ok w ⟨hw, hok⟩
  refine ⟨spent_of_coder rfl, ?_⟩
  intro htrue
  refine ⟨⟨hw.opened, hx.lit, hx.pos, hx.state⟩, fun _ => ?_⟩
  simp only [hw.wsize]
  exact hok htrue

theorem copied_gives (hx : x.Ready) (left len : ℕ) : Gives (copied left len) x (Turned x left) := by
  rw [copied]
  split_ifs with hleft
  · exact gives_pure.2 (turned_false (.refl x))
  rw [gives_bind, gives_get, gives_bind]
  refine (copy_gives hx _).mono ?_
  rintro ok x1 ⟨h1, hok⟩
  split_ifs with htrue
  · exact gives_pure.2 ⟨h1, by omega, hok htrue⟩
  · exact gives_pure.2 (turned_false h1)

theorem shortRep_gives (hx : x.Ready) (hleft : 0 < left) : Gives (shortRep left) x (Turned x left) := by
  have hstate : Steps x { x with state := if x.state < 7 then 9 else 11 } :=
    steps_of_state rfl rfl rfl rfl rfl fun _ => by dsimp only; split_ifs <;> decide
  rw [shortRep, gives_bind, gives_modify, gives_bind, gives_get, gives_bind]
  refine (copy_gives (hstate.ready hx) 1).mono ?_
  rintro ok x1 ⟨h1, hok⟩
  have h1 := hstate.spent.trans h1
  split_ifs with htrue
  · exact gives_pure.2 ⟨h1, by omega, hok htrue⟩
  · exact gives_pure.2 (turned_false h1)

/-! ### `lzma_chunk` -/

theorem packet_gives (hx : x.Ok) (left : ℕ) : Gives (packet left) x (Turned x left) := by
  rw [packet]
  split_ifs with hleft
  swap
  · exact gives_pure.2 ⟨.refl x, fun _ => hx⟩
  rw [gives_bind, gives_get]
  dsimp only
  split_ifs
  · exact gives_pure.2 (turned_false (.refl x))
  have hps : x.window.total.toNat &&& (1 <<< x.pb - 1) < 16 := by
    have hpb : 2 ^ x.pb ≤ 16 := Nat.pow_le_pow_right (j := 4) two_pos hx.pos
    have hpos := Nat.two_pow_pos x.pb
    rw [Nat.one_shiftLeft]
    exact (Nat.and_lt_two_pow _ (Nat.sub_lt hpos one_pos)).trans_le hpb
  have hindex : x.state <<< 4 ||| (x.window.total.toNat &&& (1 <<< x.pb - 1)) < 192 := by
    have := hx.state
    rw [← Nat.shiftLeft_add_eq_or_of_lt hps, Nat.shiftLeft_eq]
    omega
  generalize x.window.total.toNat &&& (1 <<< x.pb - 1) = ps at hps hindex
  have hcell : ∀ {p : ℕ → Cell}, (∀ i < 12, (p i).inRange = true) → (p x.state).inRange = true :=
    fun hp => hp _ hx.state
  rw [gives_bind]
  refine (bitOf_gives (by simpa [Cell.inRange] using hindex) x).mono ?_
  rintro b x1 ⟨-, h1⟩
  split_ifs
  · rw [gives_bind]
    refine (literal_gives (h1.ok hx)).mono ?_
    rintro _ x2 ⟨h2, hok⟩
    exact gives_pure.2 ⟨h1.spent.trans h2, by omega, hok⟩
  rw [gives_bind]
  refine (bitOf_gives (by simpa [Cell.inRange] using hx.state) x1).mono ?_
  rintro b x2 ⟨-, h2⟩
  have h2 := h1.trans h2
  split_ifs
  · rw [gives_bind]
    refine (newMatch_gives hps x2).mono ?_
    intro len x3 h3
    have h3 := h2.steps.trans h3
    exact (copied_gives (h3.ready hx.toReady) left len).mono fun _ _ h => h.of_steps h3
  rw [gives_bind]
  refine (bitOf_gives (by simpa [Cell.inRange] using hx.state) x2).mono ?_
  rintro b x3 ⟨-, h3⟩
  have h3 := h2.trans h3
  split_ifs
  · rw [gives_bind]
    refine (bitOf_gives (by simpa [Cell.inRange] using hindex) x3).mono ?_
    rintro b x4 ⟨-, h4⟩
    have h4 := (h3.trans h4).steps
    split_ifs
    · exact (shortRep_gives (h4.ready hx.toReady) hleft).mono fun _ _ h => h.of_steps h4
    · rw [gives_bind]
      refine (repMatch_gives hps x4).mono ?_
      intro len x5 h5
      have h5 := h4.trans h5
      exact (copied_gives (h5.ready hx.toReady) left len).mono fun _ _ h => h.of_steps h5
  · rw [gives_bind]
    refine (olderRep_gives (h3.ready hx.toReady).state).mono ?_
    intro _ x4 h4
    have h4 := h3.steps.trans h4
    rw [gives_bind]
    refine (repMatch_gives hps x4).mono ?_
    intro len x5 h5
    have h5 := h4.trans h5
    exact (copied_gives (h5.ready hx.toReady) left len).mono fun _ _ h => h.of_steps h5

/-- **`lzma_chunk` ends**, after no more turns than bytes are asked of it, with every index in range. -/
theorem lzmaChunk_gives (hx : x.Ok) (hleft : left < turns) :
    Gives (lzmaChunk turns left) x fun ok x' => Spent 0 x x' ∧ (ok = true → x'.Ok) := by
  refine Gives.loop (I := fun k l x' => l ≤ k ∧ Spent 0 x x' ∧ x'.Ok) ?_ hleft ⟨le_rfl, .refl x, hx⟩
  rintro k l x1 ⟨hl, h1, hok⟩
  refine (packet_gives hok l).mono ?_
  rintro (l' | ok) x2 ⟨h2, hr⟩
  · exact ⟨l', hr.1.trans_le hl, le_rfl, h1.trans h2, hr.2⟩
  · exact ⟨h1.trans h2, hr⟩

/-! ### `lzma2` -/

theorem byte_gives (x : Xz σ τ) : Gives byte x fun b x' => b < 256 ∧ Spent 1 x x' ∧ Coded x x' := by
  simp only [byte, coding, gives_bind, gives_onPart, gives_pure]
  refine (Coder.byte_gives x.coder).mono ?_
  intro b c hc
  have hspent : Spent 1 x { x with coder := c } := spent_of_src hc
  exact ⟨b.toNat_lt, hspent, hspent.zero fun h => Source.Left.mono h, rfl⟩

theorem read_gives (n : ℕ) (x : Xz σ τ) :
    Gives (read n) x fun r x' => r.2.length ≤ n ∧ Coded x x' := by
  simp only [read, gives_bind, gives_get, gives_set, gives_pure]
  exact ⟨Source.length_srcRead n _, spent_of_src (Source.spent_srcRead n _), rfl⟩

theorem size16_gives {high : ℕ} (hhigh : high < 32) (x : Xz σ τ) :
    Gives (size16 high) x fun v x' => v ≤ 2 ^ 21 ∧ Coded x x' := by
  rw [size16, gives_bind]
  refine (byte_gives x).mono ?_
  rintro b1 x1 ⟨hb1, -, h1⟩
  rw [gives_bind]
  refine (byte_gives x1).mono ?_
  rintro b0 x2 ⟨hb0, -, h2⟩
  refine gives_pure.2 ⟨?_, h1.trans h2⟩
  have hor : (high <<< 16 ||| b1 <<< 8) ||| b0 < 2 ^ 21 := by
    refine Nat.or_lt_two_pow (Nat.or_lt_two_pow ?_ ?_) ?_
    · rw [Nat.shiftLeft_eq]
      omega
    · rw [Nat.shiftLeft_eq]
      omega
    · omega
  exact hor

/-- What a step of `lzma2` leaves. -/
structure Keeps (x x' : Xz σ τ) : Prop where
  spent : Spent 0 x x'
  opened : x.window.Open → x'.window.Open
  ok : x.Ok → x'.Ok

namespace Keeps

theorem refl (x : Xz σ τ) : Keeps x x := ⟨.refl x, id, id⟩

theorem trans (h : Keeps x x') (h' : Keeps x' x'') : Keeps x x'' :=
  ⟨h.spent.trans h'.spent, fun hx => h'.opened (h.opened hx), fun hx => h'.ok (h.ok hx)⟩

end Keeps

theorem Coded.keeps (h : Coded x x') : Keeps x x' := by
  refine ⟨h.spent, ?_, h.ok⟩
  rw [h.same]
  exact id

theorem forget_gives (x : Xz σ τ) : Gives forget x fun _ x' => Keeps x x' :=
  gives_modify.2 ⟨spent_of_coder rfl, fun h => ⟨h.win, h.inside, h.small⟩, fun h =>
    ⟨⟨⟨h.opened.win, h.opened.inside, h.opened.small⟩, h.lit, h.pos, h.state⟩, h.rep⟩⟩

theorem put_gives (hx : x.window.Open) (b : UInt8) :
    Gives (windowed (Window.put b)) x fun _ x' => Keeps x x' := by
  rw [windowed, gives_onPart]
  refine (Window.put_gives hx b).mono ?_
  intro _ w hw
  refine ⟨spent_of_coder rfl, fun _ => hw.opened, fun h => ⟨⟨hw.opened, h.lit, h.pos, h.state⟩, ?_⟩⟩
  simp only [hw.wsize]
  exact h.rep

theorem storedOn_gives (hx : x.window.Open) (n : ℕ) : Gives (storedOn n) x fun _ x' => Keeps x x' := by
  induction n generalizing x with
  | zero => exact gives_pure.2 (.refl x)
  | succ n ih =>
    rw [storedOn, gives_bind, gives_get]
    split_ifs
    · exact gives_pure.2 (.refl x)
    rw [gives_bind]
    refine (byte_gives x).mono ?_
    rintro b x1 ⟨-, -, h1⟩
    rw [gives_bind]
    refine (put_gives (h1.keeps.opened hx) _).mono ?_
    intro _ x2 h2
    have h2 := h1.keeps.trans h2
    exact (ih (h2.opened hx)).mono fun _ _ h => h2.trans h

/-- Bytes taken as long as more are asked for: the turn that finds none is one more. -/
theorem take_gives (more : ℕ → Bool) (hleft : Lasts Left Dry x n) (hn : n + 1 < turns) :
    Gives (loop (takeTurn more) turns ()) x fun _ x' => Coded x x' := by
  refine Gives.loop (I := fun k _ x' => Coded x x' ∧ (x'.Dry ∨ ∃ m, x'.Left m ∧ m < k)) ?_ hn ?_
  · rintro k u x1 ⟨h1, hk⟩
    rw [takeTurn, gives_bind, gives_get]
    split_ifs with hmore
    · have hfresh : ¬ x1.Dry := by
        intro hdry
        rw [show x1.coder.src.bad = true from hdry] at hmore
        exact absurd hmore.2 (by simp)
      obtain ⟨m, hm, hmk⟩ := hk.resolve_left hfresh
      rw [gives_bind]
      refine (byte_gives x1).mono ?_
      rintro b x2 ⟨-, hspent, h2⟩
      refine gives_pure.2 ⟨k - 1, by omega, h1.trans h2, ?_⟩
      by_cases hdry : x2.Dry
      · exact .inl hdry
      · obtain ⟨hpos, hrest⟩ := hspent.left m hdry hm
        exact .inr ⟨m - 1, hrest, by omega⟩
    · exact gives_pure.2 h1
  · exact ⟨.refl x, hleft.imp id fun h => ⟨n, h, n.lt_succ_self⟩⟩

/-- What `setProps` leaves, where it returns true. -/
theorem setProps_gives (hx : x.window.Open) (hok : props = true → x.Ok) (reset : ℕ) :
    Gives (setProps reset props) x fun p x' => Spent 0 x x' ∧ (p = true →
      x'.window.Open ∧ x'.lc + x'.lp ≤ 4 ∧ x'.pb ≤ 4 ∧ (reset = 0 → x'.Ok)) := by
  rw [setProps]
  split_ifs with hreset
  · rw [gives_bind]
    refine (byte_gives x).mono ?_
    rintro b x1 ⟨-, -, h1⟩
    split_ifs with hb
    · exact gives_pure.2 ⟨h1.spent, fun h => absurd h (by simp)⟩
    · simp only [gives_bind, gives_modify, gives_pure, decide_eq_true_eq]
      exact ⟨⟨h1.spent.dry, h1.spent.left⟩, fun h => ⟨h1.keeps.opened hx, h, by omega, by omega⟩⟩
  · refine gives_pure.2 ⟨.refl x, ?_⟩
    intro h
    exact ⟨hx, (hok h).lit, (hok h).pos, fun _ => hok h⟩

theorem reset_gives {reset : ℕ} (hx : x.window.Open) (hlit : x.lc + x.lp ≤ 4) (hpos : x.pb ≤ 4)
    (hok : reset = 0 → x.Ok) : Gives (given (1 ≤ reset) lzmaReset) x fun _ x' => Spent 0 x x' ∧ x'.Ok := by
  rw [gives_given]
  constructor
  · intro _
    simp only [lzmaReset, coding, Coder.reset, gives_bind, gives_onPart, gives_modify]
    exact ⟨spent_of_src (.refl _), ⟨hx, hlit, hpos, Nat.succ_pos 11⟩, fun h => absurd h (Nat.not_succ_le_zero 6)⟩
  · intro hzero
    exact ⟨.refl x, hok (by omega)⟩

theorem packed_gives {un : ℕ} (hx : x.Ok) (hun : un < turns) (hleft : Lasts Left Dry x n)
    (hn : n + 1 < turns) (pk : ℕ) :
    Gives (packed turns un pk) x fun r x' =>
      r.Ends (fun props => props = true ∧ Spent 0 x x' ∧ x'.Ok) fun ok => ok = false := by
  rw [packed, gives_bind, gives_get, gives_bind]
  refine (coded_gives (rcInit_gives x.coder)).mono ?_
  intro _ x1 h1
  rw [gives_bind]
  refine (lzmaChunk_gives (h1.ok hx) hun).mono ?_
  rintro ok x2 ⟨h2, hok⟩
  have h2 := h1.spent.trans h2
  split_ifs with htrue
  · rw [gives_bind]
    refine (take_gives _ (h2.lasts hleft) hn).mono ?_
    intro _ x3 h3
    exact gives_pure.2 ⟨rfl, h2.trans h3.spent, h3.ok (hok htrue)⟩
  · exact gives_pure.2 rfl

theorem chunk_gives (hx : x.window.Open) (hok : props = true → x.Ok) (hbig : 2 ^ 21 < turns)
    (hleft : Lasts Left Dry x n) (hn : n + 1 < turns) (c : ℕ) :
    Gives (chunk turns c props) x fun r x' =>
      r.Ends (fun p => p = true ∧ Spent 0 x x' ∧ x'.Ok) fun ok => ok = false := by
  have hhigh : c &&& 0x1F < 32 := Nat.and_lt_two_pow c (n := 5) (y := 0x1F) (by decide)
  rw [chunk, gives_bind]
  refine (size16_gives hhigh x).mono ?_
  rintro un x1 ⟨hun, h1⟩
  rw [gives_bind]
  refine (size16_gives (by decide) x1).mono ?_
  rintro pk x2 ⟨-, h2⟩
  have h2 := (h1.trans h2).keeps
  dsimp only
  rw [gives_bind]
  have hforget : Gives (given (c >>> 5 &&& 3 = 3) forget) x2 fun _ x' => Keeps x2 x' :=
    gives_given.2 ⟨fun _ => forget_gives x2, fun _ => .refl x2⟩
  refine hforget.mono ?_
  intro _ x3 h3
  have h3 := h2.trans h3
  rw [gives_bind]
  refine (setProps_gives (h3.opened hx) (fun h => h3.ok (hok h)) _).mono ?_
  rintro p x4 ⟨h4, hset⟩
  have h4 := h3.spent.trans h4
  split_ifs with htrue
  · obtain ⟨hopened, hlit, hpos, hok4⟩ := hset htrue
    rw [gives_bind]
    refine (reset_gives hopened hlit hpos hok4).mono ?_
    rintro _ x5 ⟨h5, hok5⟩
    have h5 := h4.trans h5
    refine (packed_gives hok5 (hun.trans_lt hbig) (h5.lasts hleft) hn pk).mono ?_
    rintro (p | ok) x6 hr
    · exact ⟨hr.1, h5.trans hr.2.1, hr.2.2⟩
    · exact hr
  · exact gives_pure.2 rfl

/-- Where `lzma2` is between chunks. -/
def Between (props : Bool) (x : Xz σ τ) : Prop := x.window.Open ∧ (props = true → x.Ok)

theorem Keeps.between (h : Keeps x x') (hx : Between props x) : Between props x' :=
  ⟨h.opened hx.1, fun hp => h.ok (hx.2 hp)⟩

theorem lzma2Turn_gives (hx : Between props x) (hbig : 2 ^ 21 < turns)
    (hleft : Lasts Left Dry x n) (hn : n + 1 < turns) :
    Gives (lzma2Turn turns props) x fun r x' =>
      r.Ends (fun p => (Between p x' ∧ Spent 0 x x') ∧ Uses Left Dry x x')
        fun ok => ok = true → x'.window.Open ∧ Spent 0 x x' := by
  have hfalse : ∀ {x' : Xz σ τ}, false = true → x'.window.Open ∧ Spent 0 x x' := fun h => absurd h (by simp)
  rw [lzma2Turn, gives_bind]
  refine (byte_gives x).mono ?_
  rintro c x1 ⟨-, hspent, h1⟩
  rw [gives_bind, gives_get]
  split_ifs with hbad hzero hstored hlow
  · exact gives_pure.2 hfalse
  all_goals rw [not_or] at hbad
  · exact gives_pure.2 fun _ => ⟨h1.keeps.opened hx.1, h1.spent⟩
  · rw [gives_bind]
    refine (size16_gives (by decide) x1).mono ?_
    rintro n' x2 ⟨-, h2⟩
    rw [gives_bind]
    have hforget : Gives (given (c = 1) forget) x2 fun _ x' => Keeps x2 x' :=
      gives_given.2 ⟨fun _ => forget_gives x2, fun _ => .refl x2⟩
    refine hforget.mono ?_
    intro _ x3 h3
    have h3 := h2.keeps.trans h3
    rw [gives_bind]
    refine (storedOn_gives ((h1.keeps.trans h3).opened hx.1) n').mono ?_
    intro _ x4 h4
    have h4 := h3.trans h4
    have hall := h1.keeps.trans h4
    exact gives_pure.2 ⟨⟨hall.between hx, hall.spent⟩, hspent.uses hbad.1 h4.spent⟩
  · exact gives_pure.2 hfalse
  · have hbetween := h1.keeps.between hx
    refine (chunk_gives hbetween.1 hbetween.2 hbig (h1.spent.lasts hleft) hn c).mono ?_
    rintro (p | ok) x2 hr
    · obtain ⟨-, h2, hok⟩ := hr
      exact ⟨⟨⟨hok.opened, fun _ => hok⟩, h1.spent.trans h2⟩, hspent.uses hbad.1 h2⟩
    · intro htrue
      exact absurd (hr.symm.trans htrue) (by simp)

/-- **`lzma2` ends**, with every index in range. -/
theorem lzma2_gives (hx : x.window.Open) (hbig : 2 ^ 21 < turns) (hleft : Lasts Left Dry x n)
    (hn : n + 1 < turns) :
    Gives (lzma2 turns) x fun ok x' => ok = true → x'.window.Open ∧ Spent 0 x x' := by
  refine Gives.loop_uses (I := fun props x' => Between props x' ∧ Spent 0 x x') ?_
    ⟨⟨hx, fun h => absurd h (by simp)⟩, .refl x⟩ hleft (by omega)
  rintro props x1 ⟨hbetween, h1⟩
  refine (lzma2Turn_gives hbetween hbig (h1.lasts hleft) hn).mono ?_
  rintro (p | ok) x2 hr
  · exact ⟨⟨hr.1.1, h1.trans hr.1.2⟩, hr.2⟩
  · exact fun htrue => ⟨(hr htrue).1, h1.trans (hr htrue).2⟩

/-! ### `unxz` -/

theorem headerAt_gives {i : ℕ} (hi : i < headerRoom) (x : Xz σ τ) :
    Gives (headerAt h i) x fun b x' => b = h i ∧ x' = x := by
  rw [headerAt, if_pos hi]
  exact gives_pure.2 ⟨rfl, rfl⟩

theorem vliOn_gives (hstop : stop ≤ headerRoom) (n k i v : ℕ) (x : Xz σ τ) :
    Gives (vliOn h stop n k i v) x fun r x' => r.2 ≤ i + n ∧ x' = x := by
  induction n generalizing k i v with
  | zero => exact gives_pure.2 ⟨le_rfl, rfl⟩
  | succ n ih =>
    rw [vliOn]
    split_ifs with hi
    · rw [gives_bind]
      refine (headerAt_gives (hi.trans_le hstop) x).mono ?_
      rintro b _ ⟨rfl, rfl⟩
      dsimp only
      split_ifs
      · exact gives_pure.2 ⟨by dsimp only; omega, rfl⟩
      · exact (ih _ _ _).mono fun _ _ hr => ⟨by omega, hr.2⟩
    · exact gives_pure.2 ⟨Nat.le_add_right _ _, rfl⟩

theorem vli_gives (hstop : stop ≤ headerRoom) (start : ℕ) (x : Xz σ τ) :
    Gives (vli h start stop) x fun r x' => r.2 ≤ start + 9 ∧ x' = x :=
  vliOn_gives hstop 9 0 start 0 x

theorem flagged_gives (hstop : stop ≤ headerRoom) (flag : Bool) (start : ℕ)
    (x : Xz σ τ) : Gives (flagged flag h start stop) x fun r x' => r.2 ≤ start + 9 ∧ x' = x := by
  rw [flagged]
  split_ifs
  · exact vli_gives hstop start x
  · exact gives_pure.2 ⟨Nat.le_add_right _ _, rfl⟩

theorem blockHeader_gives {hs : ℕ} (hhs : hs ≤ headerRoom) (x : Xz σ τ) :
    Gives (blockHeader h hs) x fun r x' => (∀ said ∈ r, said.2 ≤ 40) ∧ x' = x := by
  have hroom : headerRoom = 1024 := rfl
  rw [blockHeader, gives_bind]
  refine (headerAt_gives (by decide) x).mono ?_
  rintro flags _ ⟨-, rfl⟩
  rw [gives_bind]
  refine (flagged_gives hhs _ 2 _).mono ?_
  rintro packed _ ⟨hpacked, rfl⟩
  rw [gives_bind]
  refine (flagged_gives hhs _ _ _).mono ?_
  rintro block _ ⟨hblock, rfl⟩
  rw [gives_bind]
  refine (vli_gives hhs _ _).mono ?_
  rintro id _ ⟨hid, rfl⟩
  rw [gives_bind]
  refine (vli_gives hhs _ _).mono ?_
  rintro props _ ⟨hprops, rfl⟩
  split_ifs
  · exact gives_pure.2 ⟨by simp, rfl⟩
  rw [gives_bind]
  refine (headerAt_gives (by omega) _).mono ?_
  rintro dict _ ⟨-, rfl⟩
  split_ifs with hdict
  · exact gives_pure.2 ⟨by simp, rfl⟩
  · exact gives_pure.2 ⟨by simpa using hdict, rfl⟩

/-- The window has room, and no more of it than 32 bits count. -/
theorem dictionary_bounds (h : dict ≤ 40) (size : ℕ) :
    0 < dictionary dict size ∧ dictionary dict size < 2 ^ 32 := by
  have hall : (if dict = 40 then 0xFFFFFFFF else (2 ||| dict &&& 1) <<< (dict / 2 + 11)) < 2 ^ 32 := by
    split_ifs
    · decide
    have hone : dict &&& 1 < 2 ^ 2 := (Nat.and_lt_two_pow dict (n := 1) (y := 1) one_lt_two).trans (by decide)
    have htop : 2 ||| dict &&& 1 < 2 ^ 2 := Nat.or_lt_two_pow (by decide) hone
    have hpow : 2 ^ (dict / 2 + 11) ≤ 2 ^ 30 := Nat.pow_le_pow_right two_pos (by omega)
    rw [Nat.shiftLeft_eq]
    calc (2 ||| dict &&& 1) * 2 ^ (dict / 2 + 11)
        ≤ 3 * 2 ^ 30 := Nat.mul_le_mul (by omega) hpow
      _ < 2 ^ 32 := by decide
  unfold dictionary
  generalize (if dict = 40 then 0xFFFFFFFF else (2 ||| dict &&& 1) <<< (dict / 2 + 11)) = all at hall
  dsimp only
  split_ifs <;> omega

theorem ready_gives {k : Blocks} (hdict : dict ≤ 40) (hx : k.begun = true → x.window.Open)
    (room : Bool) (got : Option (ℕ → UInt8)) (out : List UInt8 → τ → Bool × τ) (size : ℕ) :
    Gives (ready room got out k dict size) x fun ok x' => Spent 0 x x' ∧ (ok = true → x'.window.Open) := by
  obtain ⟨hpos, hsmall⟩ := dictionary_bounds hdict size
  rw [ready]
  split_ifs with hbegun
  · exact gives_pure.2 ⟨.refl x, fun _ => hx hbegun⟩
  · rw [windowed, gives_onPart]
    exact (Window.windowOpen_gives x.window got out hpos hsmall).mono fun _ _ hw =>
      ⟨spent_of_coder rfl, hw.2.2⟩
  · exact gives_pure.2 ⟨.refl x, fun h => absurd h (by simp)⟩

theorem blockBody_gives {k : Blocks} (hdict : dict ≤ 40) (hx : k.begun = true → x.window.Open)
    (hbig : 2 ^ 21 < turns) (hleft : Lasts Left Dry x n) (hn : n + 1 < turns) (room : Bool)
    (got : Option (ℕ → UInt8)) (out : List UInt8 → τ → Bool × τ) (check start block : ℕ) :
    Gives (blockBody turns room got out check start k block dict) x fun r x' =>
      r.Ends (fun k' => (k'.begun = true → x'.window.Open) ∧ Spent 0 x x') fun ok => ok = false := by
  rw [blockBody, gives_bind]
  refine (ready_gives hdict hx room got out _).mono ?_
  rintro ok x1 ⟨h1, hopened⟩
  split_ifs with hok
  · rw [gives_bind]
    refine (lzma2_gives (hopened hok) hbig (h1.lasts hleft) hn).mono ?_
    intro ok' x2 h2
    split_ifs with hok'
    · obtain ⟨hopened2, hspent2⟩ := h2 hok'
      have hspent2 := h1.trans hspent2
      rw [gives_bind]
      refine (take_gives _ (hspent2.lasts hleft) hn).mono ?_
      intro _ x3 h3
      rw [gives_bind]
      refine (read_gives check x3).mono ?_
      rintro r x4 ⟨-, h4⟩
      have h4 := h3.trans h4
      exact gives_pure.2 ⟨fun _ => h4.keeps.opened hopened2, hspent2.trans h4.spent⟩
    · exact gives_pure.2 rfl
  · exact gives_pure.2 rfl

theorem readInto_gives {start : ℕ} {l : List UInt8} (hl : start + l.length ≤ headerRoom)
    (x : Xz σ τ) : Gives (readInto h start l) x fun _ x' => x' = x := by
  rw [readInto, if_pos hl]
  exact gives_pure.2 rfl

theorem blockTurn_gives {k : Blocks} (hx : k.begun = true → x.window.Open) (hbig : 2 ^ 21 < turns)
    (hleft : Lasts Left Dry x n) (hn : n + 1 < turns) (room : Bool) (got : Option (ℕ → UInt8))
    (out : List UInt8 → τ → Bool × τ) (check : ℕ) :
    Gives (blockTurn turns room got out check k) x fun r x' =>
      r.Ends (fun k' => ((k'.begun = true → x'.window.Open) ∧ Spent 0 x x') ∧ Uses Left Dry x x')
        fun ok => ok = true → ¬ x'.Dry := by
  have hroom : headerRoom = 1024 := rfl
  have hfalse : ∀ {x' : Xz σ τ}, false = true → ¬ x'.Dry := fun h => absurd h (by simp)
  rw [blockTurn, gives_bind, gives_get, gives_bind]
  refine (byte_gives x).mono ?_
  rintro hs x1 ⟨hhs, hspent, h1⟩
  rw [gives_bind, gives_get]
  dsimp only
  split_ifs with hlast
  · refine gives_pure.2 ?_
    intro hok hdry
    rw [show x1.coder.src.bad = true from hdry] at hok
    exact absurd hok (by simp)
  rw [not_or] at hlast
  rw [gives_bind]
  refine (read_gives _ x1).mono ?_
  rintro r x2 ⟨hlen, h2⟩
  rw [gives_bind]
  refine (readInto_gives (by omega) x2).mono ?_
  rintro h _ rfl
  split_ifs
  · exact gives_pure.2 hfalse
  rw [gives_bind]
  refine (blockHeader_gives (by omega) _).mono ?_
  rintro said x2 ⟨hsaid, rfl⟩
  have hall := h1.trans h2
  cases said with
  | none => exact gives_pure.2 hfalse
  | some said =>
    have hopened : k.begun = true → x2.window.Open := fun hb => hall.keeps.opened (hx hb)
    refine (blockBody_gives (k := { k with h }) (hsaid _ rfl) hopened hbig (hall.spent.lasts hleft) hn room
      got out check x.coder.src.count said.1).mono ?_
    rintro (k' | ok) x3 hr
    · exact ⟨⟨hr.1, hall.spent.trans hr.2⟩, hspent.uses hlast.1 (h2.spent.trans hr.2)⟩
    · intro htrue
      exact absurd (hr.symm.trans htrue) (by simp)

/-- **`unxz` ends**, with every index in range, and returns true only if the input did not run out. -/
theorem unxz_gives (x : Xz σ τ) (hleft : x.coder.src.Left n) (hn : n + 1 < turns) (hbig : 2 ^ 21 < turns)
    (room : Bool) (got : Option (ℕ → UInt8)) (h : ℕ → UInt8) (size : ℕ)
    (out : List UInt8 → τ → Bool × τ) :
    Gives (unxz turns room got h size out) x fun ok x' => ok = true → x'.coder.src.bad = false := by
  have hfalse : ∀ {x' : Xz σ τ}, false = true → x'.coder.src.bad = false := fun h => absurd h (by simp)
  rw [unxz, gives_bind, gives_modify]
  have hleft : Lasts Left Dry { x with window := { x.window with win := none } } n := .inr hleft
  rw [gives_bind]
  refine (read_gives 12 _).mono ?_
  rintro r x1 ⟨hlen, h1⟩
  rw [gives_bind]
  refine (readInto_gives (hlen.trans (by decide) |> (Nat.zero_add _).le.trans) x1).mono ?_
  rintro h _ rfl
  split_ifs
  · exact gives_pure.2 hfalse
  have hleft1 := h1.spent.lasts hleft
  dsimp only
  rw [gives_bind]
  refine (Gives.loop_uses (I := fun k x' => (k.begun = true → x'.window.Open) ∧ Spent 0 _ x')
    (Q := fun ok x' => ok = true → ¬ x'.Dry) ?_ ⟨fun h => absurd h (by simp), .refl _⟩ hleft1
    (by omega)).mono ?_
  · rintro k x2 ⟨hopened, h2⟩
    refine (blockTurn_gives hopened hbig (h2.lasts hleft1) hn room got out _).mono ?_
    rintro (k' | ok) x3 hr
    · exact ⟨⟨hr.1.1, h2.trans hr.1.2⟩, hr.2⟩
    · exact hr
  intro ok x2 hok
  rw [gives_bind, gives_get]
  split_ifs
  · rw [gives_bind, windowed, gives_onPart]
    refine (Window.windowClose_gives x2.window ok).mono ?_
    intro ok w _
    simp only [gives_bind, gives_get, gives_pure, Bool.and_eq_true, Bool.not_eq_true']
    exact fun h => h.2
  · exact gives_pure.2 fun htrue => Bool.eq_false_of_not_eq_true (hok htrue)

end Xz

/-! ### Both decoders -/

/-- **The decoders are safe on any input.** Whatever bytes a source gives before it ends, and whatever was
left by an earlier call, in `h`, or in the memory that `xalloc` gives, `gunzip` and `unxz` come to an end
with every index in range, and return true only if the input did not run out. -/
theorem decoders_safe {s : Source σ} {l : List UInt8} (hs : s.Comes l) :
    (∀ g : Gzip σ τ, g.bits.src = s → ∃ N, ∀ turns ≥ N, ∀ got out, ∃ ok g',
      (Gzip.gunzip turns got out).run g = some (ok, g') ∧ (ok = true → g'.bits.src.bad = false)) ∧
    ∀ x : Xz σ τ, x.coder.src = s → ∃ N, ∀ turns ≥ N, ∀ room got h size out, ∃ ok x',
      (Xz.unxz turns room got h size out).run x = some (ok, x') ∧
        (ok = true → x'.coder.src.bad = false) := by
  have hleft : s.Left l.length := ⟨l, hs, le_rfl⟩
  constructor
  · rintro g rfl
    refine ⟨8 * l.length + g.bits.bitcnt + 1, fun turns hturns got out => ?_⟩
    exact Gzip.gunzip_gives g hleft hturns got out
  · rintro x rfl
    refine ⟨l.length + 2 ^ 21 + 2, fun turns hturns room got h size out => ?_⟩
    exact Xz.unxz_gives x hleft (by omega) (by omega) room got h size out

/-- A gzip member that is cut off in a block of its own codes, and a whole xz file: a source each. -/
theorem decoders_safe_cut :
    (∃ N, ∀ turns ≥ N, ∃ ok g', (Gzip.gunzip turns (some fun _ => 0) fun _ _ => (true, ())).run
      (Gzip.atFirst (Bits.ofBytes [0x1F, 0x8B, 8, 0, 0, 0, 0, 0, 0, 3, 0x05, 0xC1, 0x01, 0x01, 0x00, 0x00, 0x08,
        0xC3, 0xA0, 0xAC, 0xEC, 0xF6, 0xCF, 0x20]).src ()) = some (ok, g') ∧
        (ok = true → g'.bits.src.bad = false)) ∧
    ∃ N, ∀ turns ≥ N, ∃ ok x', (Xz.unxz turns true (some fun _ => 0) (fun _ => 0) 0 fun _ _ => (true, ())).run
      (Xz.atFirst (Bits.ofBytes [0xFD, 0x37, 0x7A, 0x58, 0x5A, 0x00, 0x00, 0x00, 0xFF, 0x12, 0xD9, 0x41, 0x02,
        0x00, 0x21, 0x01, 0x00, 0x00, 0x00, 0x00, 0x37, 0x27, 0x97, 0xD6, 0xE0, 0x00, 0x0B, 0x00, 0x08, 0x5D,
        0x00, 0x30, 0x98, 0x88, 0xA7, 0xEA, 0x25, 0x00, 0x00, 0x00, 0x00, 0x01, 0x1C, 0x0C, 0x5D, 0xA4, 0x47,
        0xCF, 0x06, 0x72, 0x9E, 0x7A, 0x01, 0x00, 0x00, 0x00, 0x00, 0x00, 0x59, 0x5A]).src ()) = some (ok, x') ∧
        (ok = true → x'.coder.src.bad = false) := by
  have hs : ∀ l, (Bits.ofBytes l).src.Comes l := fun l => ⟨[], .stop rfl, (List.append_nil l).symm⟩
  obtain ⟨N, hN⟩ := (decoders_safe (hs _)).1 (Gzip.atFirst _ ()) rfl
  obtain ⟨M, hM⟩ := (decoders_safe (hs _)).2 (Xz.atFirst _ ()) rfl
  exact ⟨⟨N, fun turns hturns => hN turns hturns _ _⟩, M, fun turns hturns => hM turns hturns _ _ _ _ _⟩

end BaxOS.Unpack
