import BaxOS.Tuxpac.Window
import BaxOS.Tuxpac.HuffmanExact

/-!
# What is left to read, and where the window is written

A source is a supply of bytes, and with the bits taken from it already one of bits (`Source.Spent`,
`Bits.Spent`). A window that is open is written inside itself (`Window.put_gives`), and read there too, as
long as a distance is not 0 nor more than the window (`Window.back_gives`, `Window.copy_gives`).
-/

namespace BaxOS.Unpack
open Function Programs

variable {σ τ : Type}

/-! ### Sources -/

/-- The bytes that a source is filled with from here on, until it is filled with none. -/
inductive Fills (fill : σ → List UInt8 × σ) : σ → List UInt8 → Prop
  | stop {x : σ} (h : (fill x).1 = []) : Fills fill x []
  | more {x y : σ} {c : UInt8} {cs l : List UInt8} (h : fill x = (c :: cs, y)) (hl : Fills fill y l) :
    Fills fill x (c :: cs ++ l)

namespace Source

variable {s t u : Source σ} {l : List UInt8} {n k : ℕ}

/-- The bytes a source has to give. -/
def Comes (s : Source σ) (l : List UInt8) : Prop := ∃ m, Fills s.fill s.more m ∧ l = s.ahead ++ m

/-- A source has no more than so many bytes to give. -/
def Left (s : Source σ) (n : ℕ) : Prop := ∃ l, s.Comes l ∧ l.length ≤ n

/-- The input ran out. -/
def Dry (s : Source σ) : Prop := s.bad = true

theorem Left.mono {m : ℕ} (h : s.Left m) (hmn : m ≤ n) : s.Left n := by
  obtain ⟨l, hl, hlen⟩ := h
  exact ⟨l, hl, hlen.trans hmn⟩

abbrev Spent (k : ℕ) (s t : Source σ) : Prop := Drains Left Dry k s t

theorem srcByte_bad (h : s.bad = true) : (srcByte s).2.bad = true := by
  unfold srcByte
  split
  · exact h
  · rw [if_pos h]
    exact h

theorem srcByte_nil (h : s.Comes []) (hs : s.bad = false) : (srcByte s).2.bad = true := by
  obtain ⟨m, hm, hl⟩ := h
  obtain ⟨hahead, rfl⟩ := List.append_eq_nil_iff.1 hl.symm
  cases hm with
  | stop hfill =>
    cases hmore : s.fill s.more with
    | mk got more =>
      obtain rfl : got = [] := by rw [← hfill, hmore]
      simp [srcByte, hahead, hs, hmore]

theorem srcByte_cons {c : UInt8} (h : s.Comes (c :: l)) (hs : s.bad = false) :
    (srcByte s).1 = c ∧ (srcByte s).2.bad = false ∧ (srcByte s).2.Comes l := by
  obtain ⟨m, hm, hl⟩ := h
  cases hahead : s.ahead with
  | cons d ds =>
    rw [hahead, List.cons_append] at hl
    obtain ⟨rfl, rfl⟩ := List.cons.inj hl
    rw [srcByte, hahead]
    exact ⟨rfl, hs, m, hm, rfl⟩
  | nil =>
    rw [hahead, List.nil_append] at hl
    subst hl
    cases hm with
    | more hfill hrest =>
      rw [srcByte, hahead]
      simp only [hs, Bool.false_eq_true, if_false, hfill]
      exact ⟨trivial, trivial, _, hrest, rfl⟩

theorem spent_srcByte (s : Source σ) : Spent 1 s (srcByte s).2 := by
  refine ⟨srcByte_bad, ?_⟩
  rintro n ht ⟨l, hl, hn⟩
  have hs : s.bad = false := Bool.eq_false_of_not_eq_true (mt srcByte_bad ht)
  cases l with
  | nil => exact absurd (srcByte_nil hl hs) ht
  | cons c l =>
    rw [List.length_cons] at hn
    exact ⟨by omega, l, (srcByte_cons hl hs).2.2, by omega⟩

theorem spent_srcRead (n : ℕ) (s : Source σ) : Spent 0 s (srcRead n s).2 := by
  induction n generalizing s with
  | zero => exact .refl s
  | succ n ih =>
    rw [srcRead]
    split_ifs
    · exact (spent_srcByte s).zero Left.mono
    · exact ((spent_srcByte s).trans (ih _)).zero Left.mono

theorem length_srcRead (n : ℕ) (s : Source σ) : (srcRead n s).1.2.length ≤ n := by
  induction n generalizing s with
  | zero => exact Nat.le_refl 0
  | succ n ih =>
    rw [srcRead]
    split_ifs
    · exact Nat.zero_le _
    · exact Nat.succ_le_succ (ih _)

end Source

/-! ### Bits -/

namespace Bits

variable {b c : Bits σ} {k n : ℕ}

/-- There are no more than so many bits to take. -/
def Left (b : Bits σ) (n : ℕ) : Prop := ∃ m, b.src.Left m ∧ 8 * m + b.bitcnt ≤ n

/-- The input ran out. -/
def Dry (b : Bits σ) : Prop := b.src.bad = true

theorem Left.mono {m : ℕ} (h : b.Left m) (hmn : m ≤ n) : b.Left n := by
  obtain ⟨k, hk, hlen⟩ := h
  exact ⟨k, hk, hlen.trans hmn⟩

abbrev Spent (k : ℕ) (b c : Bits σ) : Prop := Drains Left Dry k b c

/-- Bits go on as the source does, if there are no more of them. -/
theorem spent_of_src (h : Source.Spent 0 b.src c.src) (hcnt : c.bitcnt ≤ b.bitcnt) : Spent 0 b c := by
  refine ⟨h.dry, ?_⟩
  rintro n hc ⟨m, hm, hlen⟩
  exact ⟨n.zero_le, m, (h.left m hc hm).2, by omega⟩

theorem spent_refill (n need : ℕ) (b : Bits σ) : Spent 0 b (refill n need b) := by
  induction n generalizing b with
  | zero => exact .refl b
  | succ n ih =>
    rw [refill]
    split_ifs with h
    · refine Drains.trans ⟨?_, ?_⟩ (ih _)
      · exact fun h => Source.srcByte_bad h
      · rintro n hc ⟨m, hm, hlen⟩
        obtain ⟨hpos, hleft⟩ := (Source.spent_srcByte b.src).left m hc hm
        exact ⟨n.zero_le, m - 1, hleft, by simp only; omega⟩
    · exact .refl b

theorem refill_bitcnt (n need : ℕ) (b : Bits σ) (hn : need ≤ b.bitcnt + 8 * n) :
    need ≤ (refill n need b).bitcnt := by
  induction n generalizing b with
  | zero => exact hn
  | succ n ih =>
    rw [refill]
    split_ifs with h
    · exact ih _ (by simp only; omega)
    · exact not_lt.1 h

theorem spent_bits (need : ℕ) (b : Bits σ) : Spent need b (bits need b).2 := by
  have hcnt := refill_bitcnt need need b (by omega)
  have hrefill := spent_refill need need b
  refine ⟨hrefill.dry, ?_⟩
  intro n hc hn
  obtain ⟨-, m, hm, hlen⟩ := hrefill.left n hc hn
  refine ⟨by omega, m, hm, ?_⟩
  simp only [bits]
  omega

theorem spent_drop (n : ℕ) (b : Bits σ) : Spent n b (b.drop n) := by
  induction n with
  | zero => exact .refl b
  | succ n ih =>
    rw [drop_succ]
    exact ih.trans (spent_bits 1 _)

end Bits

/-- `decode` finds a symbol or none, and takes a bit at least: those of the first length whose codes the
bits are not past, or all it may. -/
theorem Huff.Tables.exists_decode {h : Huff} {lengths : List ℕ} (t : h.Tables lengths) (b : Bits σ) :
    ∃ sym n, 0 < n ∧ decode h b = some (sym, b.drop n) := by
  classical
  by_cases hpast : ∀ n, 0 < n → n ≤ longest → b.PastCodes lengths n
  · exact ⟨-1, longest, by decide, t.decode_miss hpast⟩
  simp only [not_forall, exists_prop] at hpast
  obtain ⟨hn, hlong, hnot⟩ := Nat.find_spec hpast
  have hle := (Bits.firstOf_le_iff hn).2 fun m hm hmn => by
    have hmin := Nat.find_min hpast hmn
    by_contra hnot
    exact hmin ⟨hm, hmn.le.trans hlong, hnot⟩
  have hin : b.value (Nat.find hpast) - firstOf lengths (Nat.find hpast) <
      (lengths.idxsOf (Nat.find hpast)).length := by
    rw [Bits.PastCodes, not_le] at hnot
    rw [List.length_idxsOf]
    omega
  exact ⟨_, _, hn, t.decode_hit hn hlong hle (List.getElem?_eq_getElem hin)⟩

/-! ### The window -/

namespace Window

variable {w : Window τ} {d : UInt32} {len : ℕ}

/-- The window is open. -/
structure Open (w : Window τ) : Prop where
  win : w.win.isSome
  inside : w.wpos < w.wsize
  small : w.wsize < 2 ^ 32

/-- What is so of an open window once it has been written to. -/
structure Written (w v : Window τ) : Prop where
  opened : v.Open
  wsize : v.wsize = w.wsize

theorem Open.written (h : w.Open) : Written w w := ⟨h, rfl⟩

theorem Written.trans {v u : Window τ} (h : Written w v) (h' : Written v u) : Written w u :=
  ⟨h'.opened, h'.wsize.trans h.wsize⟩

theorem handOn_gives {win : ℕ → UInt8} (h : w.win = some win) (n : ℕ) :
    Gives (handOn n) w fun _ v => ∃ out, v = { w with out } := by
  rw [handOn, gives_bind, gives_get]
  simp only [h, gives_bind, gives_set, gives_pure]
  exact ⟨_, rfl⟩

theorem put_gives (h : w.Open) (b : UInt8) : Gives (put b) w fun _ v => Written w v := by
  obtain ⟨win, hwin⟩ := Option.isSome_iff_exists.1 h.win
  have hinside := h.inside
  rw [put, store]
  simp only [gives_bind, gives_get, hwin, gives_ite, gives_set, hinside, not_true_eq_false, false_implies,
    true_implies, and_true, gives_pure]
  constructor
  · intro hfull
    refine (handOn_gives rfl _).mono ?_
    rintro stop v ⟨out, rfl⟩
    exact gives_modify.2 ⟨⟨rfl, (Nat.zero_le _).trans_lt hinside, h.small⟩, rfl⟩
  · intro hroom
    exact ⟨⟨rfl, by simp only at hroom ⊢; omega, h.small⟩, rfl⟩

theorem back_gives (h : w.Open) (hpos : 1 ≤ d.toNat) (hd : d.toNat ≤ w.wsize) :
    Gives (back d) w fun _ v => v = w := by
  obtain ⟨win, hwin⟩ := Option.isSome_iff_exists.1 h.win
  have hinside := h.inside
  have hsmall := h.small
  rw [back, gives_bind, gives_get]
  simp only [hwin]
  rw [if_pos]
  · exact gives_pure.2 rfl
  refine ⟨hpos, hd, ?_⟩
  split_ifs with hle
  · omega
  · rw [show w.wpos + w.wsize + 2 ^ 32 - d.toNat = w.wpos + w.wsize - d.toNat + 2 ^ 32 by omega,
      Nat.add_mod_right, Nat.mod_eq_of_lt (by omega)]
    omega

theorem copyOn_gives (h : w.Open) (hpos : 1 ≤ d.toNat) (hd : d.toNat ≤ w.wsize) :
    Gives (copyOn d len) w fun _ v => Written w v := by
  induction len generalizing w with
  | zero => exact gives_pure.2 h.written
  | succ len ih =>
    rw [copyOn]
    simp only [gives_bind]
    refine (back_gives h hpos hd).mono ?_
    rintro b v rfl
    refine (put_gives h b).mono ?_
    intro _ u hu
    exact (ih hu.opened (hu.wsize ▸ hd)).mono fun _ _ hv => hu.trans hv

theorem copy_gives (h : w.Open) (d : UInt32) (len : ℕ) :
    Gives (copy d len) w fun ok v => Written w v ∧ (ok = true → 1 ≤ d.toNat ∧ d.toNat ≤ w.wsize) := by
  rw [copy, gives_bind, gives_get, gives_ite]
  constructor
  · intro _
    exact gives_pure.2 ⟨h.written, by simp⟩
  · intro hok
    simp only [not_or, not_lt] at hok
    have hpos : 1 ≤ d.toNat := by
      rw [Nat.one_le_iff_ne_zero]
      exact fun h0 => hok.1 (UInt32.toNat_inj.1 h0)
    rw [gives_bind]
    exact (copyOn_gives h hpos hok.2.2).mono fun _ _ hv => gives_pure.2 ⟨hv, fun _ => ⟨hpos, hok.2.2⟩⟩

theorem windowOpen_gives (w : Window τ) (got : Option (ℕ → UInt8)) {size : ℕ}
    (out : List UInt8 → τ → Bool × τ) (hpos : 0 < size) (hsmall : size < 2 ^ 32) :
    Gives (windowOpen got size out) w fun ok v => v.win = got ∧ ok = got.isSome ∧ (ok = true → v.Open) := by
  simp only [windowOpen, gives_bind, gives_modify, gives_pure]
  exact ⟨trivial, trivial, fun h => ⟨h, hpos, hsmall⟩⟩

theorem windowClose_gives (w : Window τ) (ok : Bool) :
    Gives (windowClose ok) w fun r _ => r = true → ok = true := by
  have hend : ∀ stop v, Gives (do
      modify fun w : Window τ => { w with win := none, wstop := w.wstop || stop }
      return ok && !(← get).wstop) v fun r _ => r = true → ok = true := by
    intro stop v
    simp only [gives_bind, gives_modify, gives_get, gives_pure]
    intro h
    exact (Bool.and_eq_true_iff.1 h).1
  rw [windowClose, gives_bind, gives_get]
  split_ifs with h
  · simp only [Bool.and_eq_true] at h
    obtain ⟨win, hwin⟩ := Option.isSome_iff_exists.1 h.1.1.1
    exact gives_bind.2 ((handOn_gives hwin _).mono fun stop v _ => hend stop v)
  · exact gives_bind.2 (gives_pure.2 (hend false w))

end Window

end BaxOS.Unpack
