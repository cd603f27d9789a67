import BaxOS.Tuxpac.Deciding
import BaxOS.Tuxpac.UnpackSafe
import BaxOS.Tuxpac.WindowExact

/-!
# `lzma_chunk` undoes LZMA

Whatever packets a compressor chose, each turn of `lzma_chunk` takes the decisions of one and writes what it
stands for.
-/

namespace BaxOS.Unpack
open Programs Lzma Lz77 Window

variable {σ τ : Type} {ds' : List Decision} {len : ℕ} {packets : List Packet}

namespace Xz
open Coder

variable {x x' : Xz σ τ} {sink : List UInt8 → τ → Bool × τ} {o : τ} {y : Context} {ds : List Decision}
  {e : Finish} {w base k n ps left turns : ℕ}

/-- What packets are read by. -/
structure Agrees (x : Xz σ τ) (y : Context) : Prop where
  state : x.state = y.state
  rep0 : x.rep0.toNat = y.rep0
  rep1 : x.rep1.toNat = y.rep1
  rep2 : x.rep2.toNat = y.rep2
  rep3 : x.rep3.toNat = y.rep3
  lc : x.lc = y.lc
  lp : x.lp = y.lp
  pb : x.pb = y.pb

/-- What has been written, and the decisions to come. -/
structure Stands (x : Xz σ τ) (sink : List UInt8 → τ → Bool × τ) (o : τ) (w : ℕ) (y : Context)
    (ds : List Decision) (e : Finish) : Prop where
  carries : x.coder.Carries ds e
  shows : x.window.Shows o y.h y.n
  wsize : x.window.wsize = w
  wsink : x.window.wsink = sink
  agrees : x.Agrees y
  state : y.state < 12
  lit : y.lc + y.lp ≤ 4
  pos : y.pb ≤ 4
  small : y.n < 2 ^ 64

namespace Stands

theorem ready (hx : x.Stands sink o w y ds e) : x.Ready :=
  ⟨hx.shows.opened, by rw [hx.agrees.lc, hx.agrees.lp]; exact hx.lit, by rw [hx.agrees.pb]; exact hx.pos,
    by rw [hx.agrees.state]; exact hx.state⟩

theorem total (hx : x.Stands sink o w y ds e) : x.window.total.toNat = y.n := by
  rw [hx.shows.total, UInt64.toNat_ofNat_of_lt' hx.small]

theorem of_coder {c : Coder σ} (hx : x.Stands sink o w y ds e) (hc : c.Carries ds' e) :
    Stands { x with coder := c } sink o w y ds' e :=
  ⟨hc, hx.shows, hx.wsize, hx.wsink,
    ⟨hx.agrees.state, hx.agrees.rep0, hx.agrees.rep1, hx.agrees.rep2, hx.agrees.rep3, hx.agrees.lc,
      hx.agrees.lp, hx.agrees.pb⟩, hx.state, hx.lit, hx.pos, hx.small⟩

end Stands

/-- A step of the range decoder that takes decisions. -/
theorem coding_reads {α : Type} {m : Prog (Coder σ) α} {P : α → Prop}
    (h : Gives m x.coder fun v c => P v ∧ c.Carries ds' e) :
    Gives (coding m) x fun v x' => P v ∧ ∃ c, c.Carries ds' e ∧ x' = { x with coder := c } := by
  rw [coding, gives_onPart]
  refine h.mono ?_
  rintro v c ⟨hv, hc⟩
  exact ⟨hv, c, hc, rfl⟩

/-! ### Letters -/

theorem shiftLeft_or_bit (s : ℕ) (b : Bool) : s <<< 1 ||| b.toNat = 2 * s + b.toNat := by
  rw [← Nat.shiftLeft_add_eq_or_of_lt (by simpa using b.toNat_lt), Nat.shiftLeft_eq, pow_one, Nat.mul_comm]

/-- The bits of a letter that are left are read. -/
theorem plainOn_reads {b s : ℕ} (hbase : base ≤ 0x300 * 15) (hlow : 2 ^ 8 ≤ s * 2 ^ k) (hhigh : (s + 1) * 2 ^ k ≤ 2 ^ 9)
    (hn : k ≤ n) (hx : x.coder.Carries (treeBits (fun m => .lit (base + m)) k s b ++ ds) e) :
    Gives (plainOn base n s) x fun r x' => r = s * 2 ^ k + b % 2 ^ k ∧
      ∃ c, c.Carries ds e ∧ x' = { x with coder := c } := by
  induction n generalizing k s x with
  | zero =>
    obtain rfl : k = 0 := by omega
    exact gives_pure.2 ⟨by rw [pow_zero, Nat.mod_one, mul_one, add_zero], _, hx, rfl⟩
  | succ n ih =>
    rw [plainOn]
    cases k with
    | zero =>
      rw [if_neg (by omega)]
      exact gives_pure.2 ⟨by rw [pow_zero, Nat.mod_one, mul_one, add_zero], _, hx, rfl⟩
    | succ k =>
      have hpos := Nat.two_pow_pos k
      have hs : s < 0x100 := by
        rw [pow_succ] at hhigh
        nlinarith
      have hbit := (b.testBit k).toNat_lt
      have hcell : (Cell.lit (base + s)).inRange = true := by
        rw [Cell.inRange, decide_eq_true_eq]
        omega
      rw [if_pos hs, gives_bind]
      refine (coding_reads (bit_carries hx hcell)).mono ?_
      rintro _ _ ⟨rfl, c, hc, rfl⟩
      rw [shiftLeft_or_bit]
      have hdouble : s * 2 ^ (k + 1) = 2 * s * 2 ^ k := by
        rw [pow_succ]
        ring
      refine Gives.mono (ih (k := k) ?_ ?_ (by omega) hc) ?_
      · exact hlow.trans (hdouble.le.trans (Nat.mul_le_mul_right _ (by omega)))
      · refine le_trans (Nat.mul_le_mul_right _ (m := 2 * s + 2) (by omega)) (le_of_eq_of_le ?_ hhigh)
        rw [pow_succ]
        ring
      · rintro _ _ ⟨rfl, c', hc', rfl⟩
        refine ⟨?_, c', hc', rfl⟩
        rw [mod_two_pow_succ, pow_succ]
        ring

/-- Some bits of a letter have been read, in `r`: those that are left, `j` of them, come plain. -/
def Partly (base b v : ℕ) (ds : List Decision) (e : Finish) (r : ℕ) (c : Coder σ) : Prop :=
  ∃ j ≤ 8, (2 ^ 8 ≤ r * 2 ^ j ∧ (r + 1) * 2 ^ j ≤ 2 ^ 9) ∧ r * 2 ^ j + b % 2 ^ j = v ∧
    c.Carries (treeBits (fun m => .lit (base + m)) j r b ++ ds) e

/-- The bits of a letter are read, as long as they are those of what a match would give. -/
theorem matchedOn_reads {b old s : ℕ} (hbase : base ≤ 0x300 * 15) (hk : k ≤ 8) (hlow : 2 ^ 8 ≤ s * 2 ^ k)
    (hhigh : (s + 1) * 2 ^ k ≤ 2 ^ 9) (hx : x.coder.Carries (matchedBits base old b k s ++ ds) e) :
    Gives (matchedOn base k (old <<< (8 - k)) s) x fun r x' =>
      ∃ c, Partly base b (s * 2 ^ k + b % 2 ^ k) ds e r c ∧ x' = { x with coder := c } := by
  induction k generalizing s x with
  | zero => exact gives_pure.2 ⟨_, ⟨0, Nat.zero_le 8, ⟨hlow, hhigh⟩, rfl, hx⟩, rfl⟩
  | succ k ih =>
    have hpos := Nat.two_pow_pos k
    have hs : s < 0x100 := by
      rw [pow_succ] at hhigh
      nlinarith
    have hbit := (b.testBit k).toNat_lt
    have hold := (old.testBit k).toNat_lt
    have hm : old <<< (8 - (k + 1)) >>> 7 &&& 1 = (old.testBit k).toNat := by
      rw [Nat.and_one_is_mod, Nat.shiftRight_eq_div_pow, ← Nat.toNat_testBit, Nat.testBit_shiftLeft,
        show 7 - (8 - (k + 1)) = k by omega]
      simp
    have hcell : (Cell.lit (base + ((1 + (old.testBit k).toNat) * 2 ^ 8 + s))).inRange = true := by
      rw [Cell.inRange, decide_eq_true_eq]
      omega
    have hdouble : s * 2 ^ (k + 1) = 2 * s * 2 ^ k := by
      rw [pow_succ]
      ring
    have hlow' : 2 ^ 8 ≤ (2 * s + (b.testBit k).toNat) * 2 ^ k :=
      hlow.trans (hdouble.le.trans (Nat.mul_le_mul_right _ (by omega)))
    have hhigh' : (2 * s + (b.testBit k).toNat + 1) * 2 ^ k ≤ 2 ^ 9 := by
      refine le_trans (Nat.mul_le_mul_right _ (m := 2 * s + 2) (by omega)) (le_of_eq_of_le ?_ hhigh)
      rw [pow_succ]
      ring
    have hworth : (2 * s + (b.testBit k).toNat) * 2 ^ k + b % 2 ^ k = s * 2 ^ (k + 1) + b % 2 ^ (k + 1) := by
      rw [mod_two_pow_succ, pow_succ]
      ring
    rw [matchedOn]
    simp only [hm, Nat.shiftLeft_eq _ 8]
    rw [matchedBits, List.cons_append] at hx
    rw [gives_bind]
    refine (coding_reads (bit_carries hx hcell)).mono ?_
    rintro _ _ ⟨rfl, c, hc, rfl⟩
    rw [shiftLeft_or_bit]
    by_cases hsame : old.testBit k = b.testBit k
    · rw [if_pos hsame] at hc
      rw [if_neg (not_not.2 (by rw [hsame]))]
      cases k with
      | zero =>
        rw [if_neg (by omega)]
        exact gives_pure.2 ⟨_, ⟨0, Nat.zero_le 8, ⟨hlow', hhigh'⟩, hworth, hc⟩, rfl⟩
      | succ k =>
        have hpos := Nat.two_pow_pos k
        rw [if_pos (by rw [pow_succ] at hhigh'; nlinarith), ← Nat.shiftLeft_add,
          show 8 - (k + 1 + 1) + 1 = 8 - (k + 1) by omega]
        refine Gives.mono (ih (by omega) hlow' hhigh' hc) ?_
        rintro r _ ⟨c', hc', rfl⟩
        rw [hworth] at hc'
        exact ⟨c', hc', rfl⟩
    · rw [if_neg hsame] at hc
      rw [if_pos (by revert hsame; cases old.testBit k <;> cases b.testBit k <;> decide)]
      exact gives_pure.2 ⟨_, ⟨k, by omega, ⟨hlow', hhigh'⟩, hworth, hc⟩, rfl⟩

/-- The byte before, or 0. -/
theorem previous_reads (hx : x.Stands sink o w y ds e) :
    Gives previous x fun b x' => b.toNat = (if 0 < y.n then (y.h.getLastD 0).toNat else 0) ∧ x' = x := by
  have htotal : 0 < x.window.total ↔ 0 < y.n := by
    rw [UInt64.lt_iff_toNat_lt, hx.total]
    rfl
  rw [previous, gives_bind, gives_get]
  split_ifs with h hn hn
  · have hsince := hx.shows.since
    have hone : (1 : UInt32).toNat = 1 := rfl
    rw [windowed, gives_onPart]
    refine (back_shows hx.shows (d := 1) hone.ge (by omega) (by have := hx.shows.room; omega)).mono ?_
    rintro b _ ⟨hb, rfl⟩
    refine ⟨?_, rfl⟩
    rw [hone, ← List.getLast?_eq_getElem?] at hb
    rw [List.getLastD_eq_getLast?, hb, Option.getD_some]
  · exact absurd (htotal.1 h) hn
  · exact absurd (htotal.2 hn) h
  · exact gives_pure.2 ⟨rfl, rfl⟩

/-- The bits of a letter, in part: none but after a match. -/
theorem matched_reads {b : UInt8} (hx : x.Stands sink o w y (Packet.litBits y b ++ ds) e)
    (hbase : Packet.litStart y ≤ 0x300 * 15)
    (hrep : 7 ≤ y.state → y.rep0 + 1 ≤ y.h.length ∧ y.rep0 + 1 ≤ w) :
    Gives (matched (Packet.litStart y)) x fun r x' =>
      ∃ c, Partly (Packet.litStart y) b.toNat (2 ^ 8 + b.toNat) ds e r c ∧ x' = { x with coder := c } := by
  have hcarries := hx.carries
  rw [Packet.litBits, ← hx.agrees.state] at hcarries
  have hmod : b.toNat % 2 ^ 8 = b.toNat := Nat.mod_eq_of_lt b.toNat_lt
  rw [matched, gives_bind, gives_get]
  by_cases hstate : 7 ≤ x.state
  · rw [if_neg (not_lt.2 hstate)] at hcarries
    rw [if_pos hstate, gives_bind]
    obtain ⟨hlen, hwin⟩ := hrep (hx.agrees.state ▸ hstate)
    have hsmall := hx.shows.small
    have hwsize := hx.wsize
    have hd : (x.rep0 + 1).toNat = y.rep0 + 1 := by
      rw [UInt32.toNat_add, hx.agrees.rep0]
      exact Nat.mod_eq_of_lt (by show y.rep0 + 1 < 2 ^ 32; omega)
    rw [windowed, gives_onPart]
    refine (back_shows hx.shows (d := x.rep0 + 1) (by omega) (by omega) (by omega)).mono ?_
    rintro old _ ⟨hold, rfl⟩
    rw [hd] at hold
    rw [List.getD_eq_getElem?_getD, hold, Option.getD_some] at hcarries
    have hread := matchedOn_reads (x := x) hbase le_rfl (by decide) (by decide) hcarries
    rw [Nat.sub_self, Nat.shiftLeft_zero, one_mul, hmod] at hread
    exact hread
  · rw [if_pos (not_le.1 hstate)] at hcarries
    rw [if_neg hstate]
    refine gives_pure.2 ⟨_, ⟨8, le_rfl, by decide, ?_, hcarries⟩, rfl⟩
    rw [one_mul, hmod]

/-- What a step on the window leaves. -/
theorem Stands.of_window {v : Window τ} {h : List UInt8} {n : ℕ} (hx : x.Stands sink o w y ds e)
    (hsame : Same x.window v) (hv : v.Shows o h n) (hn : n < 2 ^ 64) :
    Stands { x with window := v } sink o w { y with h, n } ds e :=
  ⟨hx.carries, hv, hsame.wsize.trans hx.wsize, hsame.wsink.trans hx.wsink,
    ⟨hx.agrees.state, hx.agrees.rep0, hx.agrees.rep1, hx.agrees.rep2, hx.agrees.rep3, hx.agrees.lc,
      hx.agrees.lp, hx.agrees.pb⟩, hx.state, hx.lit, hx.pos, hn⟩

/-- **A letter is read**, and written. -/
theorem literal_reads {b : UInt8} (hx : x.Stands sink o w y (Packet.litBits y b ++ ds) e)
    (hfine : (Packet.lit b).Fine y w) (hn : y.n + 1 < 2 ^ 64) :
    Gives literal x fun _ x' => x'.Stands sink o w ((Packet.lit b).apply y) ds e := by
  rw [literal, gives_bind, gives_get, gives_bind]
  refine (previous_reads hx).mono ?_
  rintro prev x ⟨hprev, rfl⟩
  have hstart : litBase x prev = Packet.litStart y := by
    rw [litBase, Packet.litStart, hx.agrees.lc, hx.agrees.lp, hx.total, hprev, Nat.one_shiftLeft,
      Nat.and_two_pow_sub_one_eq_mod, Nat.shiftLeft_eq, Nat.shiftRight_eq_div_pow]
  have hbase := litBase_le hx.ready prev
  rw [hstart] at hbase ⊢
  rw [gives_bind]
  refine (matched_reads hx hbase hfine.2).mono ?_
  rintro r _ ⟨c, ⟨j, hj, ⟨hlow, hhigh⟩, hworth, hc⟩, rfl⟩
  rw [gives_bind]
  refine Gives.mono (plainOn_reads hbase hlow hhigh hj hc) ?_
  rintro _ _ ⟨rfl, c', hc', rfl⟩
  have hb : UInt8.ofNat (2 ^ 8 + b.toNat) = b := by
    rw [← UInt8.toNat_inj, UInt8.toNat_ofNat', Nat.add_mod_left, Nat.mod_eq_of_lt b.toNat_lt]
  rw [hworth, hb, gives_bind, windowed, gives_onPart]
  refine (put_shows hx.shows b).mono ?_
  rintro _ v ⟨hsame, hv⟩
  have hafter := (hx.of_coder hc').of_window hsame hv hn
  refine gives_modify.2 ⟨hafter.carries, hv, hafter.wsize, hafter.wsink, ?_, ?_, hafter.lit, hafter.pos, hn⟩
  · obtain ⟨hstate, h0, h1, h2, h3, hlc, hlp, hpb⟩ := hx.agrees
    refine ⟨?_, h0, h1, h2, h3, hlc, hlp, hpb⟩
    simp only [hstate]
    rfl
  · have hlt := hx.state
    simp only [Packet.apply, Packet.stateAfter]
    split_ifs <;> omega

/-! ### Matches -/

/-- What a step leaves that moves the last distances, or changes the state. -/
theorem Stands.of_agrees {y' : Context} (hx : x.Stands sink o w y ds e)
    (hcoder : x'.coder.Carries ds' e) (hwindow : x'.window = x.window) (h : x'.Agrees y')
    (hwritten : y'.h = y.h ∧ y'.n = y.n) (hprops : y'.lc = y.lc ∧ y'.lp = y.lp ∧ y'.pb = y.pb)
    (hstate : y'.state < 12) : x'.Stands sink o w y' ds' e := by
  obtain ⟨hlc, hlp, hpb⟩ := hprops
  refine ⟨hcoder, ?_, hwindow ▸ hx.wsize, hwindow ▸ hx.wsink, h, hstate, ?_, ?_, ?_⟩
  · rw [hwindow, hwritten.1, hwritten.2]
    exact hx.shows
  · rw [hlc, hlp]
    exact hx.lit
  · rw [hpb]
    exact hx.pos
  · rw [hwritten.2]
    exact hx.small

/-- A length and a new distance are read. -/
theorem newMatch_reads {slot extra : ℕ} (hps : ps < 16)
    (hx : x.Stands sink o w y (lenBits .len ps len ++
      (treeBits (.slot (min len 3)) 6 1 slot ++ distBits slot extra) ++ ds) e)
    (hlen : len < 272) (hslot : slot < 64) (hextra : extra < 2 ^ slotWidth slot) :
    Gives (newMatch ps) x fun r x' => r = len ∧
      x'.Stands sink o w { (Packet.fresh len slot extra).moved y with
        state := (Packet.fresh len slot extra).stateAfter y.state } ds e := by
  have hcarries := hx.carries
  rw [List.append_assoc, List.append_assoc] at hcarries
  rw [newMatch, gives_bind, gives_modify, gives_bind]
  refine Gives.mono (coding_reads (lenDecode_carries len_inRange hps hlen hcarries)) ?_
  rintro len _ ⟨rfl, c1, h1, rfl⟩
  have hcell : ∀ m < 2 ^ 6, (Cell.slot (min len 3) m).inRange = true := by
    intro m hm
    rw [Cell.inRange, Bool.and_eq_true, decide_eq_true_eq, decide_eq_true_eq]
    exact ⟨by omega, hm⟩
  have hmin : (if len < 3 then len else 3) = min len 3 := by
    split_ifs <;> omega
  rw [gives_bind, gives_modify, gives_bind, hmin]
  refine Gives.mono (coding_reads (tree_carries hcell h1)) ?_
  rintro _ _ ⟨rfl, c2, h2, rfl⟩
  rw [Nat.mod_eq_of_lt (show slot < 2 ^ 6 from hslot), gives_bind]
  refine Gives.mono (coding_reads (distance_carries hslot hextra h2)) ?_
  rintro d _ ⟨hd, c3, h3, rfl⟩
  simp only [gives_bind, gives_modify, gives_pure]
  obtain ⟨hstate, h0, h1, h2, -, hlc, hlp, hpb⟩ := hx.agrees
  refine ⟨trivial, hx.of_agrees h3 rfl ⟨?_, hd, h0, h1, h2, hlc, hlp, hpb⟩ ⟨rfl, rfl⟩ ⟨rfl, rfl, rfl⟩ ?_⟩
  · simp only [hstate]
    rfl
  · simp only [Packet.stateAfter]
    split_ifs <;> decide

/-- An older distance is made the last. -/
theorem olderRep_reads {i : ℕ} {bits : List Decision}
    (hi : i = 1 ∧ bits = [.coin (.g1 y.state) false] ∨
      i = 2 ∧ bits = [.coin (.g1 y.state) true, .coin (.g2 y.state) false] ∨
        i = 3 ∧ bits = [.coin (.g1 y.state) true, .coin (.g2 y.state) true])
    (hx : x.Stands sink o w y (bits ++ ds) e) :
    Gives olderRep x fun _ x' => x'.Stands sink o w ((Packet.again i len).moved y) ds e := by
  have hg1 : (Cell.g1 y.state).inRange = true := by simpa [Cell.inRange] using hx.state
  have hg2 : (Cell.g2 y.state).inRange = true := by simpa [Cell.inRange] using hx.state
  have hcarries := hx.carries
  obtain ⟨hstate, h0, h1, h2, h3, hlc, hlp, hpb⟩ := hx.agrees
  rw [olderRep, gives_bind, gives_get, gives_bind, hstate]
  rcases hi with ⟨rfl, rfl⟩ | ⟨rfl, rfl⟩ | ⟨rfl, rfl⟩
  · refine (coding_reads (bit_carries hcarries hg1)).mono ?_
    rintro _ _ ⟨rfl, c, hc, rfl⟩
    rw [if_pos (by rfl)]
    exact gives_modify.2 (hx.of_agrees hc rfl ⟨hstate, h1, h0, h2, h3, hlc, hlp, hpb⟩ ⟨rfl, rfl⟩
      ⟨rfl, rfl, rfl⟩ hx.state)
  · refine (coding_reads (bit_carries hcarries hg1)).mono ?_
    rintro _ _ ⟨rfl, c, hc, rfl⟩
    rw [if_neg (by decide), gives_bind]
    refine Gives.mono (coding_reads (bit_carries hc hg2)) ?_
    rintro _ _ ⟨rfl, c', hc', rfl⟩
    rw [if_pos (by rfl)]
    exact gives_modify.2 (hx.of_agrees hc' rfl ⟨hstate, h2, h0, h1, h3, hlc, hlp, hpb⟩ ⟨rfl, rfl⟩
      ⟨rfl, rfl, rfl⟩ hx.state)
  · refine (coding_reads (bit_carries hcarries hg1)).mono ?_
    rintro _ _ ⟨rfl, c, hc, rfl⟩
    rw [if_neg (by decide), gives_bind]
    refine Gives.mono (coding_reads (bit_carries hc hg2)) ?_
    rintro _ _ ⟨rfl, c', hc', rfl⟩
    rw [if_neg (by decide)]
    exact gives_modify.2 (hx.of_agrees hc' rfl ⟨hstate, h3, h0, h1, h2, hlc, hlp, hpb⟩ ⟨rfl, rfl⟩
      ⟨rfl, rfl, rfl⟩ hx.state)

/-- The length of a match at one of the last distances is read. -/
theorem repMatch_reads (hps : ps < 16) (hx : x.Stands sink o w y (lenBits .repLen ps len ++ ds) e)
    (hlen : len < 272) :
    Gives (repMatch ps) x fun r x' => r = len ∧
      x'.Stands sink o w { y with state := if y.state < 7 then 8 else 11 } ds e := by
  rw [repMatch, gives_bind]
  refine (coding_reads (lenDecode_carries repLen_inRange hps hlen hx.carries)).mono ?_
  rintro _ _ ⟨rfl, c, hc, rfl⟩
  simp only [gives_bind, gives_modify, gives_pure]
  obtain ⟨hstate, h0, h1, h2, h3, hlc, hlp, hpb⟩ := hx.agrees
  refine ⟨trivial, hx.of_agrees hc rfl ⟨?_, h0, h1, h2, h3, hlc, hlp, hpb⟩ ⟨rfl, rfl⟩ ⟨rfl, rfl, rfl⟩ ?_⟩
  · simp only [hstate]
  · simp only
    split_ifs <;> decide

/-- **A match is copied.** -/
theorem copy_reads (hx : x.Stands sink o w y ds e)
    (hreach : Packet.Reaches w y.n (.ref len (y.rep0 + 1))) (hn : y.n + len < 2 ^ 64) :
    Gives (windowed (Window.copy (x.rep0 + 1) len)) x fun ok x' => ok = true ∧
      x'.Stands sink o w { y with h := extend (y.rep0 + 1) len y.h, n := y.n + len } ds e := by
  obtain ⟨hle, hwin⟩ := hreach
  have hsmall := hx.shows.small
  have hwsize := hx.wsize
  have hd : (x.rep0 + 1).toNat = y.rep0 + 1 := by
    rw [UInt32.toNat_add, hx.agrees.rep0]
    exact Nat.mod_eq_of_lt (by show y.rep0 + 1 < 2 ^ 32; omega)
  rw [windowed, gives_onPart]
  refine (copy_shows hx.shows hx.small (d := x.rep0 + 1) (by omega) (by omega) (by omega) len).mono ?_
  rintro _ v ⟨rfl, hsame, hv⟩
  rw [hd] at hv
  exact ⟨rfl, hx.of_window hsame hv hn⟩

theorem copied_reads (hx : x.Stands sink o w y ds e)
    (hreach : Packet.Reaches w y.n (.ref (len + 2) (y.rep0 + 1))) (hn : y.n + (len + 2) < 2 ^ 64)
    (hleft : len + 2 ≤ left) :
    Gives (copied left len) x fun r x' => r.Ends (fun j => j = left - (len + 2) ∧
      x'.Stands sink o w { y with h := extend (y.rep0 + 1) (len + 2) y.h, n := y.n + (len + 2) } ds e)
        fun _ => False := by
  rw [copied, if_neg (not_lt.2 hleft), gives_bind, gives_get, gives_bind]
  refine (copy_reads hx hreach hn).mono ?_
  rintro _ x1 ⟨rfl, h1⟩
  rw [if_pos rfl]
  exact gives_pure.2 ⟨rfl, h1⟩

theorem shortRep_reads (hx : x.Stands sink o w y ds e) (hreach : Packet.Reaches w y.n (.ref 1 (y.rep0 + 1)))
    (hn : y.n + 1 < 2 ^ 64) :
    Gives (shortRep left) x fun r x' => r.Ends (fun j => j = left - 1 ∧
      x'.Stands sink o w (Packet.short.apply y) ds e) fun _ => False := by
  rw [shortRep, gives_bind, gives_modify, gives_bind, gives_get, gives_bind]
  obtain ⟨hstate, h0, h1, h2, h3, hlc, hlp, hpb⟩ := hx.agrees
  have hx1 : Stands { x with state := if x.state < 7 then 9 else 11 } sink o w
      { y with state := if y.state < 7 then 9 else 11 } ds e := by
    refine hx.of_agrees hx.carries rfl ⟨?_, h0, h1, h2, h3, hlc, hlp, hpb⟩ ⟨rfl, rfl⟩ ⟨rfl, rfl, rfl⟩ ?_
    · simp only [hstate]
    · simp only
      split_ifs <;> decide
  refine Gives.mono (copy_reads hx1 hreach hn) ?_
  rintro _ x2 ⟨rfl, hx2⟩
  rw [if_pos rfl]
  exact gives_pure.2 ⟨rfl, hx2⟩

/-- **A packet is read**, and what it stands for is written. -/
theorem packet_reads {p : Packet} (hx : x.Stands sink o w y (p.bits y ++ ds) e) (hfine : p.Fine y w)
    (hleft : p.size ≤ left) (hn : y.n + p.size < 2 ^ 64) :
    Gives (packet left) x fun r x' =>
      r.Ends (fun j => j = left - p.size ∧ x'.Stands sink o w (p.apply y) ds e) fun _ => False := by
  have hpos : 0 < left := by
    refine lt_of_lt_of_le ?_ hleft
    cases p <;> simp [Packet.size]
  have hps : x.window.total.toNat &&& (1 <<< x.pb - 1) = y.n % 2 ^ y.pb := by
    rw [hx.total, hx.agrees.pb, Nat.one_shiftLeft, Nat.and_two_pow_sub_one_eq_mod]
  have hlt : y.n % 2 ^ y.pb < 16 :=
    (Nat.mod_lt _ (Nat.two_pow_pos _)).trans_le (Nat.pow_le_pow_right (n := 2) two_pos hx.pos)
  have hcell : x.state <<< 4 ||| y.n % 2 ^ y.pb = y.state * 2 ^ 4 + y.n % 2 ^ y.pb := by
    rw [hx.agrees.state, ← Nat.shiftLeft_add_eq_or_of_lt hlt, Nat.shiftLeft_eq]
  have hstate := hx.state
  have hmatch : (Cell.isMatch (y.state * 2 ^ 4 + y.n % 2 ^ y.pb)).inRange = true := by
    rw [Cell.inRange, decide_eq_true_eq]
    omega
  have hlong : (Cell.rep0Long (y.state * 2 ^ 4 + y.n % 2 ^ y.pb)).inRange = true := by
    rw [Cell.inRange, decide_eq_true_eq]
    omega
  have hrep : (Cell.isRep y.state).inRange = true := by simpa [Cell.inRange] using hstate
  have hg0 : (Cell.g0 y.state).inRange = true := by simpa [Cell.inRange] using hstate
  have hcarries := hx.carries
  obtain ⟨hreach, hmore⟩ := hfine
  rw [packet, if_pos hpos, gives_bind, gives_get]
  simp only [hps, hcell]
  rw [hx.agrees.state, if_neg (by rw [hx.carries.good, hx.shows.going]; simp), gives_bind]
  cases p with
  | lit b =>
    refine (coding_reads (bit_carries hcarries hmatch)).mono ?_
    rintro _ _ ⟨rfl, c, hc, rfl⟩
    rw [if_pos (by rfl), gives_bind]
    refine Gives.mono (literal_reads (hx.of_coder hc) ⟨hreach, hmore⟩ hn) ?_
    exact fun _ x1 h1 => gives_pure.2 ⟨rfl, h1⟩
  | fresh len slot extra =>
    obtain ⟨hlen, hslot, hextra⟩ := hmore
    refine (coding_reads (bit_carries hcarries hmatch)).mono ?_
    rintro _ _ ⟨rfl, c, hc, rfl⟩
    rw [if_neg (by decide), gives_bind]
    refine Gives.mono (coding_reads (bit_carries hc hrep)) ?_
    rintro _ _ ⟨rfl, c', hc', rfl⟩
    rw [if_pos (by rfl), gives_bind]
    refine Gives.mono (newMatch_reads hlt (hx.of_coder hc') hlen hslot hextra) ?_
    rintro _ x1 ⟨rfl, h1⟩
    exact copied_reads h1 hreach hn hleft
  | short =>
    refine (coding_reads (bit_carries hcarries hmatch)).mono ?_
    rintro _ _ ⟨rfl, c, hc, rfl⟩
    rw [if_neg (by decide), gives_bind]
    refine Gives.mono (coding_reads (bit_carries hc hrep)) ?_
    rintro _ _ ⟨rfl, c1, hc1, rfl⟩
    rw [if_neg (by decide), gives_bind]
    refine Gives.mono (coding_reads (bit_carries hc1 hg0)) ?_
    rintro _ _ ⟨rfl, c2, hc2, rfl⟩
    rw [if_pos (by rfl), gives_bind]
    refine Gives.mono (coding_reads (bit_carries hc2 hlong)) ?_
    rintro _ _ ⟨rfl, c3, hc3, rfl⟩
    rw [if_pos (by rfl)]
    exact shortRep_reads (hx.of_coder hc3) hreach hn
  | again i len =>
    obtain ⟨hi, hlen⟩ := hmore
    obtain ⟨rest, hrest⟩ : ∃ rest, (Packet.again i len).bits y =
        .coin (.isMatch (y.state * 2 ^ 4 + y.n % 2 ^ y.pb)) true :: .coin (.isRep y.state) true :: rest := by
      interval_cases i <;> exact ⟨_, rfl⟩
    rw [hrest] at hcarries
    refine (coding_reads (bit_carries hcarries hmatch)).mono ?_
    rintro _ _ ⟨rfl, c, hc, rfl⟩
    rw [if_neg (by decide), gives_bind]
    refine Gives.mono (coding_reads (bit_carries hc hrep)) ?_
    rintro _ _ ⟨rfl, c1, hc1, rfl⟩
    rw [if_neg (by decide), gives_bind]
    have hcopied : ∀ {x' : Xz σ τ} {i' : ℕ}, i' = i →
        x'.Stands sink o w ((Packet.again i' len).moved y) (lenBits .repLen (y.n % 2 ^ y.pb) len ++ ds) e →
        Gives (do copied left (← repMatch (y.n % 2 ^ y.pb))) x' fun r x' =>
          r.Ends (fun j => j = left - (Packet.again i len).size ∧
            x'.Stands sink o w ((Packet.again i len).apply y) ds e) fun _ => False := by
      rintro x' i' rfl hx'
      rw [gives_bind]
      refine (repMatch_reads hlt hx' hlen).mono ?_
      rintro _ x2 ⟨rfl, h2⟩
      interval_cases i' <;> exact copied_reads h2 hreach hn hleft
    interval_cases i
    · obtain rfl := List.cons.inj (List.cons.inj hrest).2 |>.2
      refine Gives.mono (coding_reads (bit_carries hc1 hg0)) ?_
      rintro _ _ ⟨rfl, c2, hc2, rfl⟩
      rw [if_pos (by rfl), gives_bind]
      refine Gives.mono (coding_reads (bit_carries hc2 hlong)) ?_
      rintro _ _ ⟨rfl, c3, hc3, rfl⟩
      rw [if_neg (by decide)]
      exact hcopied rfl (hx.of_coder hc3)
    all_goals
      obtain rfl := List.cons.inj (List.cons.inj hrest).2 |>.2
      refine Gives.mono (coding_reads (bit_carries hc1 hg0)) ?_
      rintro _ _ ⟨rfl, c2, hc2, rfl⟩
      rw [if_neg (by decide), gives_bind]
    · exact Gives.mono (olderRep_reads (.inl ⟨rfl, rfl⟩) (hx.of_coder hc2)) fun _ _ h => hcopied rfl h
    · exact Gives.mono (olderRep_reads (.inr (.inl ⟨rfl, rfl⟩)) (hx.of_coder hc2)) fun _ _ h => hcopied rfl h
    · exact Gives.mono (olderRep_reads (.inr (.inr ⟨rfl, rfl⟩)) (hx.of_coder hc2)) fun _ _ h => hcopied rfl h

/-! ### `lzma_chunk` -/

theorem length_apply {p : Packet} (hfine : p.Fine y w) (hn : y.n ≤ y.h.length) :
    (p.apply y).h.length = y.h.length + p.size := by
  obtain ⟨hreach, hmore⟩ := hfine
  have hextend : ∀ {len dist : ℕ}, Packet.Reaches w y.n (.ref len (dist + 1)) →
      (extend (dist + 1) len y.h).length = y.h.length + len := by
    rintro len dist ⟨hle, -⟩
    exact length_extend (by omega) (by omega) len
  cases p with
  | lit b => exact List.length_append
  | fresh len slot extra => exact hextend hreach
  | short => exact hextend hreach
  | again i len =>
    obtain ⟨hi, -⟩ := hmore
    interval_cases i <;> exact hextend hreach

/-- So many letters are added by packets. -/
theorem length_packets (hfine : PacketsFine w y packets) (hn : y.n ≤ y.h.length) :
    (packets.foldl Packet.apply y).h.length = y.h.length + (packets.map Packet.size).sum ∧
      (packets.foldl Packet.apply y).n ≤ (packets.foldl Packet.apply y).h.length := by
  induction packets generalizing y with
  | nil => exact ⟨rfl, hn⟩
  | cons p packets ih =>
    obtain ⟨hp, hpackets⟩ := hfine
    have hlen := length_apply hp hn
    obtain ⟨hall, hnext⟩ := ih hpackets (by rw [hlen]; exact Nat.add_le_add_right hn p.size)
    refine ⟨?_, hnext⟩
    rw [List.foldl_cons, hall, hlen, List.map_cons, List.sum_cons, Nat.add_assoc]

/-- **`lzma_chunk` reads packets**, as many as make up a chunk. -/
theorem lzmaChunk_reads (hx : x.Stands sink o w y (packetsBits y packets) e)
    (hfine : PacketsFine w y packets) (hlen : (packets.foldl Packet.apply y).h.length < 2 ^ 64)
    (hn : (packets.map Packet.size).sum < turns) :
    Gives (lzmaChunk turns (packets.map Packet.size).sum) x fun ok x' => ok = true ∧
      x'.Stands sink o w (packets.foldl Packet.apply y) [] e := by
  let I : List Packet → ℕ → Xz σ τ → Prop := fun now left x' => ∃ y', PacketsFine w y' now ∧
    now.foldl Packet.apply y' = packets.foldl Packet.apply y ∧ left = (now.map Packet.size).sum ∧
      x'.Stands sink o w y' (packetsBits y' now) e
  have hcount : packets.length ≤ (packets.map Packet.size).sum := by
    have hone : ∀ n ∈ packets.map Packet.size, 1 ≤ n := by
      simp only [List.mem_map, forall_exists_index, and_imp, forall_apply_eq_imp_iff₂]
      intro p _
      cases p <;> simp [Packet.size]
    simpa using List.length_le_sum_of_one_le _ hone
  refine Gives.loop_list (I := I) ?_ ?_ (by omega) ⟨y, hfine, rfl, rfl, hx⟩
  · rintro p now _ x' ⟨y', hnow, heq, rfl, hx'⟩
    have hall := (length_packets hnow hx'.shows.since).1
    have hsince := hx'.shows.since
    obtain ⟨hp, hnow⟩ := hnow
    rw [heq, List.map_cons, List.sum_cons] at hall
    rw [List.map_cons, List.sum_cons]
    refine (packet_reads hx' hp (by omega) (by omega)).mono ?_
    rintro (j | ok) x2 hr
    · obtain ⟨rfl, hx2⟩ := hr
      exact ⟨p.apply y', hnow, heq, by omega, hx2⟩
    · exact hr.elim
  · rintro _ x' ⟨y', -, heq, rfl, hx'⟩
    rw [packet, if_neg (by simp)]
    exact gives_pure.2 ⟨rfl, heq ▸ hx'⟩

/-- What packets go on from. -/
structure Follows (x : Xz σ τ) (y : Context) : Prop where
  agrees : x.Agrees y
  table : x.coder.table = y.prob
  bounded : ∀ p, y.prob p ≤ 2048
  state : y.state < 12
  lit : y.lc + y.lp ≤ 4
  pos : y.pb ≤ 4

/-- **`lzma_chunk` undoes LZMA**: whatever packets the bytes stand for, what they stand for is written after
what was written before, the bytes are taken and no other, and the next packets can go on from there. -/
theorem lzmaChunk_undoes {coded bs : List UInt8} (hx : x.Follows y)
    (hshows : x.window.Shows o y.h y.n) (hfine : PacketsFine x.window.wsize y packets)
    (hcoded : Lzma.Coded y.prob (packetsBits y packets) coded)
    (hlen : (packets.foldl Packet.apply y).h.length < 2 ^ 64) (hcomes : x.coder.src.Comes (coded ++ bs))
    (hgood : x.coder.src.bad = false) (hsum : (packets.map Packet.size).sum < 2 ^ 32)
    (hturns : 2 ^ 32 ≤ turns) :
    Gives (do coding rcInit; lzmaChunk turns (packets.map Packet.size).sum) x fun ok x' => ok = true ∧
      x'.window.Shows o (packets.foldl Packet.apply y).h (packets.foldl Packet.apply y).n ∧
      Same x.window x'.window ∧ x'.Follows { packets.foldl Packet.apply y with
        prob := (packetsBits y packets).foldl Decision.learn y.prob } ∧
      x'.coder.src.Comes bs ∧ x'.coder.src.bad = false := by
  obtain ⟨hagrees, htable, hbounded, hstate, hlit, hpos⟩ := hx
  obtain ⟨skip, number, rfl, hnumber, hlow, hhigh⟩ := hcoded
  have hlast := (length_packets hfine hshows.since).1
  rw [← htable] at hbounded hnumber hlow hhigh ⊢
  rw [List.cons_append] at hcomes
  rw [gives_bind, coding, gives_onPart]
  refine (rcInit_carries hbounded hcomes hgood hnumber hlow hhigh).mono ?_
  intro _ c hc
  have hstands : Stands { x with coder := c } x.window.wsink o x.window.wsize y (packetsBits y packets) _ :=
    ⟨hc, hshows, rfl, rfl, ⟨hagrees.state, hagrees.rep0, hagrees.rep1, hagrees.rep2, hagrees.rep3,
      hagrees.lc, hagrees.lp, hagrees.pb⟩, hstate, hlit, hpos, by have := hshows.since; omega⟩
  refine Gives.mono (lzmaChunk_reads hstands hfine hlen (hsum.trans_le hturns)) ?_
  rintro _ x1 ⟨rfl, h1⟩
  obtain ⟨mid, hmid, hdone⟩ := h1.carries.bytes
  obtain rfl := hdone.done
  have hlearned : x1.coder.table = (packetsBits y packets).foldl Decision.learn x.coder.table :=
    h1.carries.learned
  obtain ⟨hstate, h0, h1', h2, h3, hlc, hlp, hpb⟩ := h1.agrees
  refine ⟨rfl, h1.shows, ⟨h1.wsize, h1.wsink⟩, ⟨⟨hstate, h0, h1', h2, h3, hlc, hlp, hpb⟩, hlearned, ?_,
    h1.state, h1.lit, h1.pos⟩, hmid, h1.carries.good⟩
  simp only [← hlearned]
  exact h1.carries.bounded

/-- What packets are read by once all is reset. -/
def reset : Context := ⟨[], 0, 0, 0, 0, 0, 0, 0, 0, 0, fun _ => 1024⟩

/-- The decoder then, its window open. -/
def opened (bytes : List UInt8) : Xz Unit (List UInt8) :=
  ⟨⟨(Bits.ofBytes bytes).src, 0, 0, fun _ => 1024⟩,
    ⟨some fun _ => 0, 4096, 0, 0, fun l out => (true, out ++ l), false, []⟩, 0, 0, 0, 0, 0, 0, 0, 0⟩

/-- Two letters, both of them so often again by a back reference, and the first once more by its last
distance. -/
theorem lzmaChunk_undoes_pairs :
    Gives (do coding rcInit; lzmaChunk (2 ^ 32) 20)
      (opened [0x00, 0x30, 0x99, 0xD1, 0x43, 0x8A, 0x70, 0x00, 0x00]) fun ok x' => ok = true ∧
      x'.window.Shows [] (List.replicate 10 [97, 98]).flatten 20 := by
  let coded : List UInt8 := [0x00, 0x30, 0x99, 0xD1, 0x43, 0x8A, 0x70, 0x00, 0x00]
  let packets : List Packet := [.lit 97, .lit 98, .fresh 15 1 0, .short]
  have hfollows : (opened coded).Follows reset :=
    ⟨⟨rfl, rfl, rfl, rfl, rfl, rfl, rfl, rfl⟩, funext fun _ => rfl, fun _ => show 1024 ≤ 2048 by decide,
      by decide, by decide, by decide⟩
  have hshows : (opened coded).window.Shows [] [] 0 :=
    ⟨by decide, by decide, rfl, rfl, le_rfl, rfl, fun _ _ => rfl, ⟨_, rfl, ring_nil _ _⟩, [], rfl, rfl⟩
  have hfine : PacketsFine 4096 reset packets := by
    refine ⟨⟨trivial, fun h => absurd h (by decide)⟩, ⟨trivial, fun h => absurd h (by decide)⟩, ?_, ?_, trivial⟩
    · exact ⟨⟨by decide, by decide⟩, by decide, by decide, by decide⟩
    · exact ⟨⟨by decide, by decide⟩, trivial⟩
  have hcoded : Lzma.Coded reset.prob (packetsBits reset packets) coded :=
    ⟨0x00, [0x30, 0x99, 0xD1, 0x43, 0x8A, 0x70, 0x00, 0x00], rfl, by decide, by decide, by decide⟩
  have hlast : (packets.foldl Packet.apply reset).h = (List.replicate 10 [97, 98]).flatten := by decide
  have hcomes : (opened coded).coder.src.Comes (coded ++ []) := ⟨_, .stop rfl, by decide⟩
  refine (lzmaChunk_undoes hfollows hshows hfine hcoded (by rw [hlast]; decide) hcomes rfl
    (by decide) le_rfl).mono ?_
  rintro _ x' ⟨rfl, h, -⟩
  exact ⟨rfl, hlast ▸ h⟩

end Xz

end BaxOS.Unpack
