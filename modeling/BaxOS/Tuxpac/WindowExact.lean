import BaxOS.Lib.Lz77
import BaxOS.Tuxpac.Supply

/-!
# The window is a history of any length

However much is written through it, a window shows the last of it at every distance up to its size
(`Window.back_shows`), and what the sink is given, with what is in the window still, is all that was
written, in order (`Window.put_shows`). So letters and back references written through the window come to
what they are worth on a list (`Window.copy_shows`, `Window.windowClose_shows`).
-/

namespace BaxOS.Unpack
open Function (update)
open Programs Lz77

variable {τ : Type}

namespace Window

variable {w : Window τ} {o : τ} {h : List UInt8} {b : UInt8} {d : UInt32} {len n : ℕ}

/-- The sink takes whatever it is given. -/
def Accepts (sink : List UInt8 → τ → Bool × τ) : Prop := ∀ l o, (sink l o).1 = true

/-- What the sink keeps once it has been given some pieces. -/
def sent (sink : List UInt8 → τ → Bool × τ) (o : τ) (pieces : List (List UInt8)) : τ :=
  pieces.foldl (fun o l => (sink l o).2) o

/-- An open window through which `h` has been written, the last `n` of it since the dictionary was reset,
when the sink kept `o` at first. -/
structure Shows (w : Window τ) (o : τ) (h : List UInt8) (n : ℕ) : Prop where
  room : 0 < w.wsize
  small : w.wsize < 2 ^ 32
  wpos : w.wpos = h.length % w.wsize
  total : w.total = UInt64.ofNat n
  since : n ≤ h.length
  going : w.wstop = false
  accepts : Accepts w.wsink
  ring : ∃ m, w.win = some m ∧ Ring m w.wsize h
  handed : ∃ pieces, pieces.flatten = h.take (h.length - h.length % w.wsize) ∧
    w.out = sent w.wsink o pieces

theorem Shows.opened (hw : w.Shows o h n) : w.Open := by
  obtain ⟨m, hwin, -⟩ := hw.ring
  refine ⟨by rw [hwin]; rfl, ?_, hw.small⟩
  rw [hw.wpos]
  exact Nat.mod_lt _ hw.room

/-- What is left as it is by what is written. -/
structure Same (w v : Window τ) : Prop where
  wsize : v.wsize = w.wsize
  wsink : v.wsink = w.wsink

theorem Same.trans {u v : Window τ} (h : Same w v) (h' : Same v u) : Same w u :=
  ⟨h'.wsize.trans h.wsize, h'.wsink.trans h.wsink⟩

/-- **A byte is written** after those before it. -/
theorem put_shows (hw : w.Shows o h n) (b : UInt8) :
    Gives (put b) w fun _ v => Same w v ∧ v.Shows o (h ++ [b]) (n + 1) := by
  obtain ⟨m, hwin, hring⟩ := hw.ring
  obtain ⟨pieces, hflat, hout⟩ := hw.handed
  have hroom := hw.room
  have hlt := Nat.mod_lt h.length hroom
  have hring' := hring.write b
  have hlen : (h ++ [b]).length = h.length + 1 := List.length_append
  have htotal : w.total + 1 = UInt64.ofNat (n + 1) := by
    rw [hw.total, UInt64.ofNat_add]
    rfl
  have hnext := cell_succ hroom h.length
  have hinside := hw.opened.inside
  rw [put, store]
  simp only [gives_bind, gives_get, hwin, gives_ite, gives_set, hinside, not_true_eq_false, false_implies,
    true_implies, and_true, gives_pure]
  rw [hw.wpos]
  constructor
  · intro hfull
    rw [if_pos hfull] at hnext
    -- The window is full: with what is in it all that was written has been handed on.
    have hle : w.wsize ≤ h.length + 1 := by
      have := Nat.mod_le h.length w.wsize
      omega
    have hcells : (List.range w.wsize).map (update m (h.length % w.wsize) b) =
        (h ++ [b]).drop (h.length + 1 - w.wsize) := by
      rw [← hlen]
      refine (hring'.tail le_rfl (by omega) ?_).symm
      rw [hlen]
      exact Nat.dvd_sub (Nat.dvd_of_mod_eq_zero hnext) dvd_rfl
    simp only [handOn, gives_bind, gives_get, gives_set, gives_pure, gives_modify]
    refine ⟨⟨rfl, rfl⟩, hroom, hw.small, ?_, htotal, ?_, ?_, hw.accepts, ⟨_, rfl, hring'⟩, ?_⟩
    · rw [hlen]
      exact hnext.symm
    · rw [hlen]
      exact Nat.succ_le_succ hw.since
    · simp only [hw.going, hw.accepts _ _]
      rfl
    · refine ⟨pieces ++ [(h ++ [b]).drop (h.length + 1 - w.wsize)], ?_, ?_⟩
      · have hstart : h.length - h.length % w.wsize = h.length + 1 - w.wsize := by omega
        have htake : h.take (h.length + 1 - w.wsize) = (h ++ [b]).take (h.length + 1 - w.wsize) :=
          (List.take_append_of_le_length (by omega)).symm
        simp only [hlen, hnext, Nat.sub_zero]
        rw [List.flatten_append, hflat, hstart, htake, List.flatten_singleton, List.take_append_drop,
          List.take_of_length_le hlen.le]
      · simp only [sent, List.foldl_append, List.foldl_cons, List.foldl_nil, hcells]
        rw [hout]
        rfl
  · intro hfree
    rw [if_neg hfree] at hnext
    refine ⟨⟨rfl, rfl⟩, hroom, hw.small, ?_, htotal, ?_, hw.going, hw.accepts, ⟨_, rfl, hring'⟩, ?_⟩
    · rw [hlen]
      exact hnext.symm
    · rw [hlen]
      exact Nat.succ_le_succ hw.since
    · refine ⟨pieces, ?_, hout⟩
      simp only [hlen, hnext]
      rw [hflat, Nat.add_sub_add_right, List.take_append_of_le_length (Nat.sub_le _ _)]

/-- **The byte so many back** is the one of the history, whatever was overwritten. -/
theorem back_shows (hw : w.Shows o h n) (hpos : 1 ≤ d.toNat) (hle : d.toNat ≤ h.length)
    (hd : d.toNat ≤ w.wsize) :
    Gives (back d) w fun b v => h[h.length - d.toNat]? = some b ∧ v = w := by
  obtain ⟨m, hwin, hring⟩ := hw.ring
  have hlt := Nat.mod_lt h.length hw.room
  have hsmall := hw.small
  have hcell := cell_back hw.room hle hd
  have hin : (h.length - d.toNat) % w.wsize < w.wsize := Nat.mod_lt _ hw.room
  have hindex : (if d.toNat ≤ w.wpos then w.wpos - d.toNat
      else (w.wpos + w.wsize + 2 ^ 32 - d.toNat) % 2 ^ 32) = (h.length - d.toNat) % w.wsize := by
    rw [← hcell, hw.wpos]
    split_ifs
    · rfl
    · rw [show h.length % w.wsize + w.wsize + 2 ^ 32 - d.toNat =
          h.length % w.wsize + w.wsize - d.toNat + 2 ^ 32 by omega, Nat.add_mod_right,
        Nat.mod_eq_of_lt (by omega)]
  rw [back, gives_bind, gives_get]
  simp only [hwin, hindex]
  rw [if_pos ⟨hpos, hd, hin⟩]
  exact gives_pure.2 ⟨hring.get hpos hle hd, rfl⟩

theorem copyOn_shows (hw : w.Shows o h n) (hpos : 1 ≤ d.toNat) (hle : d.toNat ≤ h.length)
    (hd : d.toNat ≤ w.wsize) (len : ℕ) :
    Gives (copyOn d len) w fun _ v => Same w v ∧ v.Shows o (extend d.toNat len h) (n + len) := by
  induction len generalizing w h n with
  | zero => exact gives_pure.2 ⟨⟨rfl, rfl⟩, hw⟩
  | succ len ih =>
    rw [copyOn, gives_bind]
    refine (back_shows hw hpos hle hd).mono ?_
    rintro b v ⟨hb, rfl⟩
    rw [gives_bind]
    refine (put_shows hw b).mono ?_
    rintro _ u ⟨hsame, hu⟩
    refine (ih hu (by rw [List.length_append]; omega) (hsame.wsize ▸ hd)).mono ?_
    rintro _ x ⟨hsame', hx⟩
    rw [extend, hb, Option.toList_some]
    rw [Nat.add_assoc, Nat.add_comm 1] at hx
    exact ⟨hsame.trans hsame', hx⟩

/-- **A back reference is worth what it is on a list**, at a distance within the window and within what
was written since the dictionary was reset, of which 64 bits keep count. -/
theorem copy_shows (hw : w.Shows o h n) (hn : n < 2 ^ 64) (hpos : 1 ≤ d.toNat) (hle : d.toNat ≤ n)
    (hd : d.toNat ≤ w.wsize) (len : ℕ) :
    Gives (copy d len) w fun ok v =>
      ok = true ∧ Same w v ∧ v.Shows o (extend d.toNat len h) (n + len) := by
  have htotal : w.total.toNat = n := by rw [hw.total, UInt64.toNat_ofNat_of_lt' hn]
  have hzero : d ≠ 0 := by
    rintro rfl
    exact absurd hpos (by decide)
  rw [copy, gives_bind, gives_get, if_neg (by rw [htotal]; simp only [hzero, false_or]; omega), gives_bind]
  exact (copyOn_shows hw hpos (hle.trans hw.since) hd len).mono fun _ _ hv => gives_pure.2 ⟨rfl, hv⟩

/-- A window that has just been opened. -/
theorem windowOpen_shows (w : Window τ) (m : ℕ → UInt8) {size : ℕ} {sink : List UInt8 → τ → Bool × τ}
    (hsink : Accepts sink) (hpos : 0 < size) (hsmall : size < 2 ^ 32) :
    Gives (windowOpen (some m) size sink) w fun ok v =>
      ok = true ∧ v.wsize = size ∧ v.wsink = sink ∧ v.Shows w.out [] 0 := by
  simp only [windowOpen, gives_bind, gives_modify, gives_pure]
  exact ⟨rfl, trivial, trivial, hpos, hsmall, (Nat.zero_mod size).symm, rfl, le_rfl, rfl, hsink,
    ⟨m, rfl, ring_nil m size⟩, [], rfl, rfl⟩

/-- **What the sink was given** once the window is closed is all that was written. -/
theorem windowClose_shows (hw : w.Shows o h n) :
    Gives (windowClose true) w fun ok v =>
      ok = true ∧ ∃ pieces, pieces.flatten = h ∧ v.out = sent w.wsink o pieces := by
  obtain ⟨m, hwin, hring⟩ := hw.ring
  obtain ⟨pieces, hflat, hout⟩ := hw.handed
  have hmod := Nat.mod_le h.length w.wsize
  have hcells : (List.range w.wpos).map m = h.drop (h.length - h.length % w.wsize) := by
    rw [hw.wpos]
    refine (hring.tail (Nat.mod_lt _ hw.room).le hmod ?_).symm
    exact Nat.dvd_sub_mod h.length
  rw [windowClose, gives_bind, gives_get]
  split_ifs with hlast
  · simp only [handOn, gives_bind, gives_get, gives_set, gives_pure, gives_modify, hwin]
    refine ⟨by simp only [hw.going, hw.accepts _ _]; rfl, pieces ++ [h.drop (h.length - h.length % w.wsize)],
      ?_, ?_⟩
    · rw [List.flatten_append, hflat, List.flatten_singleton, List.take_append_drop]
    · simp only [sent, List.foldl_append, List.foldl_cons, List.foldl_nil, hcells]
      rw [hout]
      rfl
  · -- Nothing is in the window that was not handed on.
    have hzero : h.length % w.wsize = 0 := by
      rw [← hw.wpos]
      simpa [hwin, hw.going] using hlast
    simp only [gives_bind, gives_get, gives_pure, gives_modify]
    refine ⟨by simp only [hw.going]; rfl, pieces, ?_, hout⟩
    rw [hflat, hzero, Nat.sub_zero, List.take_length]

end Window

end BaxOS.Unpack
