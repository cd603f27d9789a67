import BaxOS.Tuxpac.Packed
import BaxOS.Tuxpac.Reading

/-!
# What the range decoder reads, where the decisions to come are known

`Coder.Carries c ds e` says that what is read and what is to come stand for the decisions `ds`, and where the
bytes and the probabilities are once they have been taken. `bit` takes the first (`bit_carries`), and what is
made of it the decisions of a number.
-/

namespace BaxOS.Unpack
open Function (update update_self update_of_ne)
open Programs Lzma RangeCoder

variable {σ : Type}

/-- Where decisions end: the bytes after them, and the probabilities. -/
structure Finish where
  after : List UInt8
  prob : Cell → ℕ

namespace Coder

variable {c : Coder σ} {ds : List Decision} {d : Decision} {e : Finish} {bs : List UInt8} {v m n i : ℕ}

/-- The probabilities as numbers. -/
def table (c : Coder σ) (p : Cell) : ℕ := (c.prob p).toNat

/-- Decisions are to come, and `e` is where they end. -/
structure Carries (c : Coder σ) (ds : List Decision) (e : Finish) : Prop where
  bounded : ∀ p, c.table p ≤ 2048
  good : c.src.bad = false
  bytes : ∃ mid, c.src.Comes (mid ++ e.after) ∧
    Holds c.range.toNat c.code.toNat (parts c.table ds) mid
  learned : ds.foldl Decision.learn c.table = e.prob

theorem within_part {prob : Cell → ℕ} (h : ∀ p, prob p ≤ 2048) (d : Decision) (r : ℕ) :
    (d.part prob r).start + (d.part prob r).width ≤ r := by
  cases d with
  | coin c b =>
    have hle : r / 2 ^ 11 * prob c ≤ r :=
      (Nat.mul_le_mul_left _ (h c)).trans (Nat.div_mul_le_self r (2 ^ 11))
    cases b <;> simp only [Decision.part] <;> omega
  | half b => cases b <;> simp only [Decision.part] <;> omega

theorem learn_le {prob : Cell → ℕ} (h : ∀ p, prob p ≤ 2048) (d : Decision) (p : Cell) :
    d.learn prob p ≤ 2048 := by
  have hp := h p
  cases d with
  | coin c b =>
    have hc := h c
    rcases eq_or_ne p c with rfl | hne
    · cases b <;> simp only [Decision.learn, update_self] <;> omega
    · cases b <;> simp only [Decision.learn, update_of_ne hne] <;> omega
  | half b => exact hp

theorem within_parts {prob : Cell → ℕ} (h : ∀ p, prob p ≤ 2048) (ds : List Decision) :
    Within (parts prob ds) := by
  induction ds generalizing prob with
  | nil => exact fun f hf => absurd hf List.not_mem_nil
  | cons d ds ih => exact within_cons.2 ⟨within_part h d, ih (learn_le h d)⟩

/-- A byte is taken. -/
theorem byte_reads {b : UInt8} (h : c.src.Comes (b :: bs)) (hbad : c.src.bad = false) :
    Gives byte c fun v c' => v = b ∧ ∃ s : Source σ, s.Comes bs ∧ s.bad = false ∧ c' = { c with src := s } := by
  obtain ⟨hb, hbad', hrest⟩ := Source.srcByte_cons h hbad
  simp only [byte, gives_bind, gives_get, gives_set, gives_pure]
  exact ⟨hb, _, hrest, hbad', rfl⟩

theorem toNat_shiftLeft_byte {x : UInt32} (h : x.toNat < 2 ^ 24) : (x <<< 8).toNat = x.toNat <<< 8 := by
  rw [UInt32.toNat_shiftLeft, show (8 : UInt32).toNat % 32 = 8 from rfl, Nat.shiftLeft_eq]
  exact Nat.mod_eq_of_lt (by omega)

theorem shiftIn_reads {b : UInt8} (h : c.src.Comes (b :: bs)) (hbad : c.src.bad = false)
    (hcode : c.code.toNat < 2 ^ 24) :
    Gives shiftIn c fun _ c' => ∃ (s : Source σ) (code : UInt32), s.Comes bs ∧ s.bad = false ∧
      code.toNat = c.code.toNat * 256 + b.toNat ∧ c' = { c with src := s, code := code } := by
  rw [shiftIn, gives_bind]
  refine (byte_reads h hbad).mono ?_
  rintro b _ ⟨rfl, s, hs, hbad', rfl⟩
  refine gives_modify.2 ⟨s, _, hs, hbad', ?_, rfl⟩
  rw [UInt32.toNat_or, toNat_shiftLeft_byte hcode, UInt8.toNat_toUInt32,
    ← Nat.shiftLeft_add_eq_or_of_lt b.toNat_lt, Nat.shiftLeft_eq]

/-- **The range is narrowed to a part**, and made wider where that is narrow. -/
theorem normalize_carries {f : ℕ → Part} {fs : List (ℕ → Part)} {r code : ℕ} {mid : List UInt8}
    (h : Holds r code (f :: fs) mid) (hw : Within fs) (hsrc : c.src.Comes (mid ++ bs))
    (hbad : c.src.bad = false) (hrange : c.range.toNat = (f r).width)
    (hcode : c.code.toNat = code - (f r).start) :
    Gives normalize c fun _ c' => c'.src.bad = false ∧ c'.prob = c.prob ∧ ∃ mid', c'.src.Comes (mid' ++ bs) ∧
      Holds c'.range.toNat c'.code.toNat fs mid' := by
  have hin := h.inside hw
  rw [normalize, gives_bind, gives_get]
  split_ifs with hsmall
  · rw [UInt32.lt_iff_toNat_lt, hrange] at hsmall
    obtain ⟨b, mid', rfl, hnext⟩ := h.shift hw hsmall
    have htop : (0x1000000 : UInt32).toNat = 2 ^ 24 := rfl
    rw [htop] at hsmall
    have hrange' : (c.range <<< 8).toNat = (f r).width * 256 := by
      rw [toNat_shiftLeft_byte (by omega), hrange, Nat.shiftLeft_eq]
    rw [gives_bind, gives_set]
    refine Gives.mono (shiftIn_reads hsrc hbad (by simp only; omega)) ?_
    rintro _ _ ⟨s, code', hs, hbad', hcode', rfl⟩
    refine ⟨hbad', rfl, mid', hs, ?_⟩
    simp only [hrange', hcode', hcode]
    exact hnext
  · rw [UInt32.lt_iff_toNat_lt, hrange, not_lt] at hsmall
    refine gives_pure.2 ⟨hbad, rfl, mid, hsrc, ?_⟩
    rw [hrange, hcode]
    exact h.stay hw hsmall

/-- What a decision leaves, once the part it takes is known. -/
theorem Carries.next {c' : Coder σ} (h : c.Carries (d :: ds) e) (hsrc : c'.src = c.src)
    (hrange : c'.range.toNat = (d.part c.table c.range.toNat).width)
    (hcode : c'.code.toNat = c.code.toNat - (d.part c.table c.range.toNat).start)
    (htable : c'.table = d.learn c.table) : Gives normalize c' fun _ c'' => c''.Carries ds e := by
  obtain ⟨hbounded, hgood, ⟨mid, hmid, hholds⟩, hlearned⟩ := h
  have hbounded' := learn_le hbounded d
  refine Gives.mono (normalize_carries hholds (within_parts hbounded' ds) (hsrc ▸ hmid) (hsrc ▸ hgood) hrange
    hcode) ?_
  rintro _ c'' ⟨hgood', hprob, mid', hmid', hholds'⟩
  have htable' : c''.table = d.learn c.table := by
    rw [← htable]
    funext p
    rw [table, hprob, table]
  exact ⟨htable' ▸ hbounded', hgood', ⟨mid', hmid', htable' ▸ hholds'⟩, htable' ▸ hlearned⟩

theorem toNat_ofInt {x : ℤ} (h : x = n) (hn : n < 2 ^ 16) : (UInt16.ofInt x).toNat = n := by
  rw [h, UInt16.ofInt, UInt16.toNat_ofNat']
  omega

/-- **The first decision is taken.** -/
theorem bit_carries {p : Cell} {b : Bool} (h : c.Carries (.coin p b :: ds) e) (hp : p.inRange = true) :
    Gives (bit p) c fun v c' => v = b.toNat ∧ c'.Carries ds e := by
  have hle := h.bounded p
  have hrange := c.range.toNat_lt
  have hbound : ((c.range >>> 11) * (c.prob p).toUInt32).toNat = c.range.toNat / 2 ^ 11 * c.table p := by
    have hfits : c.range.toNat / 2 ^ 11 * c.table p ≤ c.range.toNat :=
      (Nat.mul_le_mul_left _ hle).trans (Nat.div_mul_le_self _ _)
    rw [UInt32.toNat_mul, UInt32.toNat_shiftRight, UInt16.toNat_toUInt32, Nat.shiftRight_eq_div_pow]
    exact Nat.mod_eq_of_lt (hfits.trans_lt hrange)
  obtain ⟨mid, -, hholds⟩ := h.bytes
  obtain ⟨hlow, hhigh⟩ := hholds.inside (within_parts (learn_le h.bounded _) ds)
  have hset : ∀ {v : UInt16} {w : ℕ}, v.toNat = w → ∀ {c' : Coder σ}, c'.prob = update c.prob p v →
      c'.table = update c.table p w := by
    rintro v _ rfl c' hprob
    funext q
    rw [table, hprob]
    rcases eq_or_ne q p with rfl | hne
    · rw [update_self, update_self]
    · rw [update_of_ne hne, update_of_ne hne, table]
  rw [bit, if_pos hp, gives_bind, gives_get]
  simp only [UInt32.lt_iff_toNat_lt, hbound]
  cases b with
  | false =>
    simp only [Decision.part, Nat.zero_add] at hhigh
    rw [if_pos hhigh, gives_bind, gives_set, gives_bind]
    refine Gives.mono (h.next rfl hbound rfl (hset ?_ rfl)) fun _ c' hc' => gives_pure.2 ⟨rfl, hc'⟩
    refine toNat_ofInt ?_ ?_
    · rw [table] at hle ⊢
      push_cast [hle]
      rfl
    · omega
  | true =>
    simp only [Decision.part] at hlow hhigh
    rw [if_neg (not_lt.2 hlow), gives_bind, gives_set, gives_bind]
    refine Gives.mono (h.next rfl ?_ ?_ (hset ?_ rfl)) fun _ c' hc' => gives_pure.2 ⟨rfl, hc'⟩
    · rw [UInt32.toNat_sub_of_le, hbound]
      · rfl
      · rw [UInt32.le_iff_toNat_le, hbound]
        exact (Nat.mul_le_mul_left _ hle).trans (Nat.div_mul_le_self _ _)
    · rw [UInt32.toNat_sub_of_le, hbound]
      · rfl
      · rw [UInt32.le_iff_toNat_le, hbound]
        exact hlow
    · refine toNat_ofInt ?_ ?_
      · rw [table, Nat.cast_sub (Nat.div_le_self _ _)]
        push_cast
        rfl
      · omega

/-- **A half is taken.** -/
theorem half_carries {b : Bool} (h : c.Carries (.half b :: ds) e) :
    ((c.range >>> 1 ≤ c.code) ↔ b = true) ∧
      Gives normalize
        { c with range := c.range >>> 1, code := if b then c.code - c.range >>> 1 else c.code }
        fun _ c' => c'.Carries ds e := by
  have hhalf : (c.range >>> 1).toNat = c.range.toNat / 2 := by
    rw [UInt32.toNat_shiftRight, show (1 : UInt32).toNat % 32 = 1 from rfl, Nat.shiftRight_eq_div_pow, pow_one]
  obtain ⟨mid, -, hholds⟩ := h.bytes
  obtain ⟨hlow, hhigh⟩ := hholds.inside (within_parts (learn_le h.bounded _) ds)
  have hside : (c.range >>> 1 ≤ c.code) ↔ b = true := by
    rw [UInt32.le_iff_toNat_le, hhalf]
    cases b with
    | false =>
      simp only [Decision.part, Nat.zero_add] at hhigh
      simp [hhigh]
    | true => exact iff_of_true hlow rfl
  refine ⟨hside, h.next rfl ?_ ?_ rfl⟩
  · cases b <;> exact hhalf
  · cases b with
    | false => rfl
    | true =>
      have hle := hside.2 rfl
      simp only [if_true]
      rw [UInt32.toNat_sub_of_le _ _ hle, hhalf]
      rfl

/-- **The first number is read**, and stands for the decisions. -/
theorem rcInit_carries {skip : UInt8} {number : List UInt8} (hbounded : ∀ p, c.table p ≤ 2048)
    (hsrc : c.src.Comes (skip :: (number ++ bs))) (hbad : c.src.bad = false)
    (hlen : number.length = 4 + (span (2 ^ 32 - 1) (parts c.table ds)).shifts)
    (hlow : (span (2 ^ 32 - 1) (parts c.table ds)).low ≤ big number)
    (hhigh : big number <
      (span (2 ^ 32 - 1) (parts c.table ds)).low + (span (2 ^ 32 - 1) (parts c.table ds)).width) :
    Gives rcInit c fun _ c' =>
      c'.Carries ds ⟨bs, ds.foldl Decision.learn c.table⟩ := by
  obtain ⟨b3, b2, b1, b0, mid, rfl, hmid⟩ : ∃ b3 b2 b1 b0 mid, number = b3 :: b2 :: b1 :: b0 :: mid ∧
      mid.length = (span (2 ^ 32 - 1) (parts c.table ds)).shifts := by
    rcases number with _ | ⟨b3, _ | ⟨b2, _ | ⟨b1, _ | ⟨b0, mid⟩⟩⟩⟩
    all_goals simp only [List.length_cons, List.length_nil] at hlen
    · omega
    · omega
    · omega
    · omega
    · exact ⟨b3, b2, b1, b0, mid, rfl, by omega⟩
  have hone : ∀ b : UInt8, b.toNat < 256 := fun b => b.toNat_lt
  have h3 := hone b3
  have h2 := hone b2
  have h1 := hone b1
  rw [rcInit, gives_bind]
  refine (byte_reads hsrc hbad).mono ?_
  rintro _ _ ⟨-, s, hs, hbad, rfl⟩
  rw [gives_bind, gives_modify, gives_bind]
  refine Gives.mono (shiftIn_reads hs hbad (show 0 < 2 ^ 24 by decide)) ?_
  rintro _ _ ⟨s3, code3, hs3, hbad3, hcode3, rfl⟩
  rw [show UInt32.toNat 0 = 0 from rfl, Nat.zero_mul, Nat.zero_add] at hcode3
  rw [gives_bind]
  refine Gives.mono (shiftIn_reads hs3 hbad3 (by simp only; omega)) ?_
  rintro _ _ ⟨s2, code2, hs2, hbad2, hcode2, rfl⟩
  simp only at hcode2
  rw [gives_bind]
  refine Gives.mono (shiftIn_reads hs2 hbad2 (by simp only; omega)) ?_
  rintro _ _ ⟨s1, code1, hs1, hbad1, hcode1, rfl⟩
  simp only at hcode1
  rw [gives_bind]
  refine Gives.mono (shiftIn_reads hs1 hbad1 (by simp only; omega)) ?_
  rintro _ _ ⟨s0, code0, hs0, hbad0, hcode0, rfl⟩
  simp only at hcode0
  have hbig : big (b3 :: b2 :: b1 :: b0 :: mid) = code0.toNat * 256 ^ mid.length + big mid := by
    have hfour : big [b3, b2, b1, b0] = code0.toNat := by
      rw [hcode0, hcode1, hcode2, hcode3]
      simp [big]
    rw [← hfour, ← big_append]
    rfl
  rw [hbig] at hlow hhigh
  have hholds : Holds (2 ^ 32 - 1) code0.toNat (parts c.table ds) mid := ⟨hmid, hlow, hhigh⟩
  exact gives_modify.2 ⟨hbounded, hbad0, ⟨mid, hs0, hholds⟩, rfl⟩

/-! ### Numbers -/

section numbers

variable {p : ℕ → Cell}

theorem mod_two_pow_succ (v n : ℕ) : v % 2 ^ (n + 1) = v % 2 ^ n + 2 ^ n * (v.testBit n).toNat := by
  rw [Nat.mod_pow_succ, Nat.toNat_testBit]

theorem treeOn_carries (hp : ∀ m < 2 ^ (i + n), (p m).inRange = true) (hm : m < 2 ^ (i + 1))
    (h : c.Carries (treeBits p n m v ++ ds) e) :
    Gives (treeOn p n m) c fun r c' => r = m * 2 ^ n + v % 2 ^ n ∧ c'.Carries ds e := by
  induction n generalizing i m c with
  | zero => exact gives_pure.2 ⟨by rw [pow_zero, Nat.mod_one, mul_one, add_zero], h⟩
  | succ n ih =>
    have hlt : m < 2 ^ (i + (n + 1)) := hm.trans_le (Nat.pow_le_pow_right two_pos (by omega))
    have hbit := (v.testBit n).toNat_lt
    have hnext : 2 * m + (v.testBit n).toNat < 2 ^ (i + 1 + 1) := by
      rw [Nat.pow_succ 2 (i + 1)]
      omega
    have harith : i + (n + 1) = i + 1 + n := by omega
    rw [treeOn, gives_bind]
    refine (bit_carries h (hp m hlt)).mono ?_
    rintro _ c1 ⟨rfl, h1⟩
    rw [harith] at hp
    rw [Nat.shiftLeft_eq, pow_one, Nat.mul_comm m 2]
    refine (ih hp hnext h1).mono ?_
    rintro _ c2 ⟨rfl, h2⟩
    refine ⟨?_, h2⟩
    rw [mod_two_pow_succ, pow_succ]
    ring

/-- **A number in a tree is read.** -/
theorem tree_carries (hp : ∀ m < 2 ^ n, (p m).inRange = true) (h : c.Carries (treeBits p n 1 v ++ ds) e) :
    Gives (tree p n) c fun r c' => r = v % 2 ^ n ∧ c'.Carries ds e := by
  rw [tree, gives_bind]
  refine (treeOn_carries (i := 0) (by simpa using hp) (by decide) h).mono ?_
  rintro _ c1 ⟨rfl, h1⟩
  exact gives_pure.2 ⟨by rw [Nat.one_shiftLeft, one_mul, Nat.add_sub_cancel_left], h1⟩

theorem rtreeOn_carries (hp : ∀ m < 2 ^ (i + n), (p m).inRange = true) (hm : m < 2 ^ (i + 1)) {k : ℕ}
    (h : c.Carries (rtreeBits p n k m v ++ ds) e) :
    Gives (rtreeOn p n k m (v % 2 ^ k)) c fun r c' => r = v % 2 ^ (k + n) ∧ c'.Carries ds e := by
  induction n generalizing i k m c with
  | zero => exact gives_pure.2 ⟨rfl, h⟩
  | succ n ih =>
    have hlt : m < 2 ^ (i + (n + 1)) := hm.trans_le (Nat.pow_le_pow_right two_pos (by omega))
    have hbit := (v.testBit k).toNat_lt
    have hnext : 2 * m + (v.testBit k).toNat < 2 ^ (i + 1 + 1) := by
      rw [Nat.pow_succ 2 (i + 1)]
      omega
    have harith : i + (n + 1) = i + 1 + n := by omega
    have hlow : v % 2 ^ k ||| (v.testBit k).toNat <<< k = v % 2 ^ (k + 1) := by
      rw [Nat.or_comm, ← Nat.shiftLeft_add_eq_or_of_lt (Nat.mod_lt _ (Nat.two_pow_pos k)), Nat.shiftLeft_eq,
        mod_two_pow_succ, Nat.mul_comm, Nat.add_comm]
    rw [rtreeOn, gives_bind]
    refine (bit_carries h (hp m hlt)).mono ?_
    rintro _ c1 ⟨rfl, h1⟩
    rw [harith] at hp
    rw [hlow, Nat.shiftLeft_eq, pow_one, Nat.mul_comm m 2]
    refine (ih hp hnext h1).mono ?_
    rintro _ c2 ⟨rfl, h2⟩
    exact ⟨by rw [Nat.add_assoc, Nat.add_comm 1 n], h2⟩

theorem rtree_carries (hp : ∀ m < 2 ^ n, (p m).inRange = true) (h : c.Carries (rtreeBits p n 0 1 v ++ ds) e) :
    Gives (rtree p n) c fun r c' => r = v % 2 ^ n ∧ c'.Carries ds e := by
  have hread := rtreeOn_carries (i := 0) (k := 0) (by simpa using hp) (by decide) h
  rwa [pow_zero, Nat.mod_one, Nat.zero_add] at hread

theorem directOn_carries {r : UInt32} (hr : (r.toNat + 1) * 2 ^ n ≤ 2 ^ 32)
    (h : c.Carries (halves n v ++ ds) e) :
    Gives (directOn n r) c fun w c' => w.toNat = r.toNat * 2 ^ n + v % 2 ^ n ∧ c'.Carries ds e := by
  induction n generalizing r c with
  | zero => exact gives_pure.2 ⟨by rw [pow_zero, Nat.mod_one, mul_one, add_zero], h⟩
  | succ n ih =>
    obtain ⟨hside, hnext⟩ := half_carries h
    have hpos := Nat.two_pow_pos n
    have hsmall : r.toNat < 2 ^ 31 := by
      rw [pow_succ] at hr
      nlinarith
    have htwice : (r <<< 1).toNat = r.toNat * 2 := by
      rw [UInt32.toNat_shiftLeft, show (1 : UInt32).toNat % 32 = 1 from rfl, Nat.shiftLeft_eq, pow_one]
      exact Nat.mod_eq_of_lt (by omega)
    have hrest : ∀ {r' : UInt32}, r'.toNat = r.toNat * 2 + (v.testBit n).toNat → ∀ {c1 : Coder σ},
        c1.Carries (halves n v ++ ds) e → Gives (directOn n r') c1 fun w c' =>
          w.toNat = r.toNat * 2 ^ (n + 1) + v % 2 ^ (n + 1) ∧ c'.Carries ds e := by
      intro r' hr' c1 h1
      have hbit := (v.testBit n).toNat_lt
      refine (ih ?_ h1).mono ?_
      · calc (r'.toNat + 1) * 2 ^ n ≤ (r.toNat + 1) * 2 * 2 ^ n := Nat.mul_le_mul_right _ (by omega)
          _ = (r.toNat + 1) * 2 ^ (n + 1) := by rw [pow_succ]; ring
          _ ≤ 2 ^ 32 := hr
      · rintro w c2 ⟨hw, h2⟩
        refine ⟨?_, h2⟩
        rw [hw, hr', mod_two_pow_succ, pow_succ]
        ring
    rw [directOn, gives_bind, gives_modify, gives_bind, gives_get]
    dsimp only
    split_ifs with hin
    · have hb := hside.1 hin
      rw [if_pos hb] at hnext
      rw [gives_bind, gives_set, gives_bind]
      refine Gives.mono hnext fun _ c1 h1 => hrest ?_ h1
      have hor : r.toNat <<< 1 + 1 = r.toNat <<< 1 ||| 1 := Nat.shiftLeft_add_eq_or_of_lt (by decide) _
      rw [Nat.shiftLeft_eq, pow_one] at hor
      rw [UInt32.toNat_or, htwice, hb]
      exact hor.symm
    · have hb : v.testBit n = false := Bool.eq_false_of_not_eq_true (mt hside.2 hin)
      rw [hb] at hnext
      rw [gives_bind]
      refine Gives.mono hnext fun _ c1 h1 => hrest ?_ h1
      rw [htwice, hb]
      rfl

/-- A number in halves is read. -/
theorem direct_carries (hn : n ≤ 32) (h : c.Carries (halves n v ++ ds) e) :
    Gives (direct n) c fun w c' => w.toNat = v % 2 ^ n ∧ c'.Carries ds e := by
  have hzero : (0 : UInt32).toNat = 0 := rfl
  refine (directOn_carries ?_ h).mono ?_
  · rw [hzero, zero_add, one_mul]
    exact Nat.pow_le_pow_right two_pos hn
  · rintro w c1 ⟨hw, h1⟩
    exact ⟨by rw [hw, hzero, zero_mul, zero_add], h1⟩

/-- A length less 2 is read. -/
theorem lenDecode_carries {l : LenCell → Cell}
    (hl : ∀ k : LenCell, k.inRange = true → (l k).inRange = true) {ps : ℕ} (hps : ps < 16) (hn : n < 272)
    (h : c.Carries (lenBits l ps n ++ ds) e) :
    Gives (lenDecode l ps) c fun r c' => r = n ∧ c'.Carries ds e := by
  have hlow : ∀ m < 2 ^ 3, (l (.low ps m)).inRange = true := fun m hm =>
    hl _ (by simpa [LenCell.inRange, hps] using hm)
  have hmid : ∀ m < 2 ^ 3, (l (.mid ps m)).inRange = true := fun m hm =>
    hl _ (by simpa [LenCell.inRange, hps] using hm)
  have hhigh : ∀ m < 2 ^ 8, (l (.high m)).inRange = true := fun m hm =>
    hl _ (by simpa [LenCell.inRange] using hm)
  rw [lenDecode, gives_bind]
  rw [lenBits] at h
  split_ifs at h with h8 h16
  · refine (bit_carries h (hl _ rfl)).mono ?_
    rintro _ c1 ⟨rfl, h1⟩
    rw [if_pos (by rfl)]
    refine (tree_carries hlow h1).mono ?_
    rintro _ c2 ⟨rfl, h2⟩
    exact ⟨Nat.mod_eq_of_lt h8, h2⟩
  · refine (bit_carries h (hl _ rfl)).mono ?_
    rintro _ c1 ⟨rfl, h1⟩
    rw [if_neg (by decide), gives_bind]
    refine (bit_carries h1 (hl _ rfl)).mono ?_
    rintro _ c2 ⟨rfl, h2⟩
    rw [if_pos (by rfl), gives_bind]
    refine (tree_carries hmid h2).mono ?_
    rintro _ c3 ⟨rfl, h3⟩
    exact gives_pure.2 ⟨by omega, h3⟩
  · refine (bit_carries h (hl _ rfl)).mono ?_
    rintro _ c1 ⟨rfl, h1⟩
    rw [if_neg (by decide), gives_bind]
    refine (bit_carries h1 (hl _ rfl)).mono ?_
    rintro _ c2 ⟨rfl, h2⟩
    rw [if_neg (by decide), gives_bind]
    refine (tree_carries hhigh h2).mono ?_
    rintro _ c3 ⟨rfl, h3⟩
    exact gives_pure.2 ⟨by omega, h3⟩

/-- **The distance of a slot is read.** -/
theorem distance_carries {slot extra : ℕ} (hslot : slot < 64) (hextra : extra < 2 ^ slotWidth slot)
    (h : c.Carries (distBits slot extra ++ ds) e) :
    Gives (Xz.distance slot) c fun d c' => d.toNat = slotBase slot + extra ∧ c'.Carries ds e := by
  rw [distBits] at h
  rw [Xz.distance]
  by_cases hfour : slot < 4
  · rw [if_pos hfour] at h
    rw [if_neg (by omega)]
    rw [slotWidth, if_pos hfour, pow_zero, Nat.lt_one_iff] at hextra
    refine gives_pure.2 ⟨?_, h⟩
    rw [slotBase, if_pos hfour, hextra, add_zero]
    exact UInt32.toNat_ofNat_of_lt' (by show slot < 2 ^ 32; omega)
  rw [if_neg hfour] at h
  rw [if_pos (by omega)]
  have hnb : slot >>> 1 - 1 = slotWidth slot := by
    rw [slotWidth, if_neg hfour, Nat.shiftRight_eq_div_pow, pow_one]
  have hbase : (2 ||| slot &&& 1) <<< slotWidth slot = slotBase slot := by
    rw [slotBase, if_neg hfour, Nat.and_one_is_mod, Nat.shiftLeft_eq]
    rcases Nat.mod_two_eq_zero_or_one slot with h0 | h1
    · rw [h0]
      rfl
    · rw [h1]
      rfl
  have hwidth : slotWidth slot ≤ 30 := by
    rw [slotWidth, if_neg hfour]
    omega
  have hfits : slotBase slot + extra < 2 ^ 32 := by
    have hpow : 2 ^ slotWidth slot ≤ 2 ^ 30 := Nat.pow_le_pow_right two_pos hwidth
    rw [slotBase, if_neg hfour]
    have hmod : 2 + slot % 2 ≤ 3 := by omega
    have hmul := Nat.mul_le_mul hmod hpow
    omega
  simp only [hnb, hbase]
  split_ifs at h ⊢ with hlow
  · have hpos : ∀ slot < 14, 4 ≤ slot → slotBase slot - slot + 2 ^ slotWidth slot ≤ 115 := by decide
    rw [gives_bind]
    refine (rtree_carries ?_ h).mono ?_
    · intro m hm
      have := hpos slot hlow (by omega)
      rw [Cell.inRange, decide_eq_true_eq]
      omega
    · rintro _ c1 ⟨rfl, h1⟩
      refine gives_pure.2 ⟨?_, h1⟩
      rw [Nat.mod_eq_of_lt hextra]
      exact UInt32.toNat_ofNat_of_lt' hfits
  · have hrange : ∀ m < 2 ^ 4, (Cell.align m).inRange = true := fun m hm => by simpa [Cell.inRange] using hm
    have hnb4 : 4 ≤ slotWidth slot := by
      rw [slotWidth, if_neg hfour]
      omega
    have hhigh : extra / 2 ^ 4 < 2 ^ (slotWidth slot - 4) := by
      rw [Nat.div_lt_iff_lt_mul (by decide), ← pow_add, Nat.sub_add_cancel hnb4]
      exact hextra
    rw [List.append_assoc] at h
    rw [gives_bind]
    refine (direct_carries (by omega) h).mono ?_
    rintro w c1 ⟨hw, h1⟩
    rw [Nat.mod_eq_of_lt hhigh] at hw
    rw [gives_bind]
    refine (rtree_carries hrange h1).mono ?_
    rintro _ c2 ⟨rfl, h2⟩
    refine gives_pure.2 ⟨?_, h2⟩
    have hshift : (w <<< 4).toNat = extra / 2 ^ 4 * 2 ^ 4 := by
      rw [UInt32.toNat_shiftLeft, show (4 : UInt32).toNat % 32 = 4 from rfl, Nat.shiftLeft_eq, hw]
      exact Nat.mod_eq_of_lt (by omega)
    have hlow : (UInt32.ofNat (extra % 2 ^ 4)).toNat = extra % 2 ^ 4 :=
      UInt32.toNat_ofNat_of_lt' (by show extra % 2 ^ 4 < 2 ^ 32; omega)
    have hstart : (UInt32.ofNat (slotBase slot)).toNat = slotBase slot :=
      UInt32.toNat_ofNat_of_lt' (by show slotBase slot < 2 ^ 32; omega)
    rw [UInt32.toNat_add, UInt32.toNat_add, hshift, hlow, hstart]
    omega

end numbers

end Coder

end BaxOS.Unpack
