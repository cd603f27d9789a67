import BaxOS.Tuxpac.Resolve
import BaxOS.Lib.Keyed

/-!
# The keys of versions

A text is compared by parts: what is before a digit by the characters' ranks, the end of it between `~` and
all others, then the digits by their value, and so on, an end counting as an empty part and as 0. Written
one after another, with a 0 at the end of each part, these numbers are the text's `key`, and `verrevcmp`
compares keys at the first place where they differ (`verrevcmp_signs`). `vcmp` compares an epoch and two
such keys (`vcmp_keyed`).
-/

namespace BaxOS.Tuxpac
open Comparisons

variable {a b s : Text} {c : UInt8}

/-! ### Keys -/

/-- The rank of a character that is no digit: `~` before the end of a part, which has 0, letters after it,
then the rest. A byte from 128 on is a negative `char`. -/
def rank (c : UInt8) : ℤ :=
  if c = tilde then -1
  else if letter c then c.toNat
  else (if c.toNat < 128 then (c.toNat : ℤ) else c.toNat - 256) + 256

/-- The value of digits. -/
def value (s : Text) : ℕ := s.foldl (fun v c => 10 * v + (c.toNat - 48)) 0

/-- What comes after the first characters and the first digits of a text. -/
theorem after_lt (h : s ≠ []) :
    ((s.dropWhile fun c => !digit c).dropWhile digit).length < s.length := by
  cases s with
  | nil => exact absurd rfl h
  | cons c s =>
    rw [List.length_cons, Nat.lt_succ_iff]
    cases hc : digit c with
    | true =>
      rw [List.dropWhile_cons_of_neg (by simp [hc]), List.dropWhile_cons_of_pos hc]
      exact (List.dropWhile_sublist _).length_le
    | false =>
      rw [List.dropWhile_cons_of_pos (by simp [hc])]
      exact ((List.dropWhile_sublist _).trans (List.dropWhile_sublist _)).length_le

/-- A text's parts, as numbers one after another. -/
def key (s : Text) : List ℤ :=
  if s = [] then []
  else
    (s.takeWhile fun c => !digit c).map rank ++
      0 :: (value ((s.dropWhile fun c => !digit c).takeWhile digit) : ℤ) ::
        key ((s.dropWhile fun c => !digit c).dropWhile digit)
  termination_by s.length
  decreasing_by exact after_lt ‹_›

/-- The key of what begins with digits, or is at its end. -/
def digitsKey (s : Text) : List ℤ := 0 :: (value (s.takeWhile digit) : ℤ) :: key (s.dropWhile digit)

/-- The key, whether or not the text is at its end. -/
def tokens (s : Text) : List ℤ :=
  (s.takeWhile fun c => !digit c).map rank ++ digitsKey (s.dropWhile fun c => !digit c)

theorem padded_key (s : Text) : padded (key s) = padded (tokens s) := by
  rw [key]
  split_ifs with h
  · subst h
    have hend : tokens [] = [0, 0] := by simp [tokens, digitsKey, value, key]
    rw [hend, padded_zero_zero]
  · rfl

theorem tokens_other (h : digit c = false) : tokens (c :: s) = rank c :: tokens s := by
  unfold tokens
  rw [List.takeWhile_cons_of_pos (by simp [h]), List.dropWhile_cons_of_pos (by simp [h])]
  rfl

theorem tokens_digits (h : other s = false) : tokens s = digitsKey s := by
  cases s with
  | nil => rfl
  | cons c s =>
    have hc : digit c = true := by simpa [other] using h
    unfold tokens
    rw [List.takeWhile_cons_of_neg (by simp [hc]), List.dropWhile_cons_of_neg (by simp [hc])]
    rfl

/-! ### Characters -/

theorem order_other (h : digit c = false) : order (some c) = rank c := by
  have hnot : letter c = true → c ≠ tilde := by
    rintro hl rfl
    exact absurd hl (by decide)
  simp only [order, rank, h, Bool.false_eq_true, if_false]
  by_cases hl : letter c = true
  · rw [if_pos hl, if_neg (hnot hl), if_pos hl]
  · rw [if_neg hl]
    by_cases ht : c = tilde
    · rw [if_pos ht, if_pos ht]
    · have h128 : 128 ≤ c ↔ 128 ≤ c.toNat := UInt8.le_iff_toNat_le
      rw [if_neg ht, if_neg ht, if_neg hl]
      simp only [h128]
      split_ifs <;> omega

theorem rank_ne_zero (c : UInt8) : rank c ≠ 0 := by
  have hletter : letter c = true → c.toNat ≠ 0 := by
    intro h h0
    have : c = 0 := UInt8.toNat_inj.1 h0
    subst this
    exact absurd h (by decide)
  have := c.toNat_lt
  unfold rank
  split_ifs with h₁ h₂ h₃
  · decide
  · have := hletter h₂
    omega
  · omega
  · omega

/-- The end of a text and its digits come at the same place. -/
theorem order_end (h : other s = false) : order s.head? = 0 := by
  cases s with
  | nil => rfl
  | cons c s =>
    have hc : digit c = true := by simpa [other] using h
    simp [order, hc]

/-- Where the two are at the same place and one goes on with a character, both do. -/
theorem both_other (h : other a = true ∨ other b = true) (heq : order a.head? = order b.head?) :
    ∃ c d a' b', a = c :: a' ∧ b = d :: b' ∧ digit c = false ∧ digit d = false ∧ rank c = rank d := by
  have hcons : ∀ {s : Text}, other s = true → ∃ c s', s = c :: s' ∧ digit c = false := by
    intro s hs
    cases s with
    | nil => exact nomatch hs
    | cons c s => exact ⟨c, s, rfl, by simpa [other] using hs⟩
  have hne : ∀ {s : Text}, other s = true → order s.head? ≠ 0 := by
    intro s hs
    obtain ⟨c, s, rfl, hc⟩ := hcons hs
    rw [List.head?_cons, order_other hc]
    exact rank_ne_zero c
  have hab : other a = true ∧ other b = true := by
    rcases h with ha | hb
    · refine ⟨ha, ?_⟩
      by_contra hb
      rw [order_end (Bool.eq_false_iff.2 hb)] at heq
      exact hne ha heq
    · refine ⟨?_, hb⟩
      by_contra ha
      rw [order_end (Bool.eq_false_iff.2 ha)] at heq
      exact hne hb heq.symm
  obtain ⟨c, a', rfl, hc⟩ := hcons hab.1
  obtain ⟨d, b', rfl, hd⟩ := hcons hab.2
  rw [List.head?_cons, List.head?_cons, order_other hc, order_other hd] at heq
  exact ⟨c, d, a', b', rfl, rfl, hc, hd, heq⟩

/-- A key begins with what its text's first character is compared by. -/
theorem tokens_head (s : Text) : ∃ l, tokens s = order s.head? :: l := by
  cases h : other s with
  | false => exact ⟨_, by rw [tokens_digits h, order_end h, digitsKey]⟩
  | true =>
    cases s with
    | nil => exact nomatch h
    | cons c s =>
      have hc : digit c = false := by simpa [other] using h
      exact ⟨tokens s, by rw [tokens_other hc, List.head?_cons, order_other hc]⟩

/-! ### The two loops -/

/-- A turn of the first loop: it ends, with how the two differ or at no character of either, or goes on past
characters of one rank. -/
theorem nondigits_turn (a b : Text) :
    ((other a || other b) = true ∧ order a.head? ≠ order b.head? ∧
        nondigits a b = .inl (order a.head? - order b.head?)) ∨
      (nondigits a b = .inr (a, b) ∧ other a = false ∧ other b = false) ∨
      ∃ c d a' b', a = c :: a' ∧ b = d :: b' ∧ digit c = false ∧ digit d = false ∧ rank c = rank d ∧
        nondigits a b = nondigits a' b' := by
  by_cases h : other a = true ∨ other b = true
  · have h' : (other a || other b) = true := by simpa using h
    by_cases heq : order a.head? = order b.head?
    · obtain ⟨c, d, a', b', rfl, rfl, hc, hd, hcd⟩ := both_other h heq
      refine .inr (.inr ⟨c, d, a', b', rfl, rfl, hc, hd, hcd, ?_⟩)
      rw [nondigits, if_pos h', if_neg (not_not_intro heq)]
    · refine .inl ⟨h', heq, ?_⟩
      rw [nondigits.eq_def]
      exact (if_pos h').trans (if_pos heq)
  · refine .inr (.inl ⟨?_, by simp_all, by simp_all⟩)
    rw [nondigits.eq_def]
    exact if_neg (by simpa using h)

theorem heads_signs (h : order a.head? ≠ order b.head?) :
    Signs (order a.head? - order b.head?) (padded (tokens a)) (padded (tokens b)) := by
  obtain ⟨la, ha⟩ := tokens_head a
  obtain ⟨lb, hb⟩ := tokens_head b
  rw [ha, hb]
  exact Signs.first ⟨sub_pos, sub_neg⟩ (sub_ne_zero.2 h)

/-- **Up to the digits:** the loop ends with how the two differ, or has read the same in both. -/
theorem nondigits_spec (a b : Text) :
    (∃ r, nondigits a b = .inl r ∧ Signs r (padded (tokens a)) (padded (tokens b))) ∨
      ∃ p q a' b', nondigits a b = .inr (a', b') ∧ a = p ++ a' ∧ b = q ++ b' ∧ other a' = false ∧
        other b' = false ∧ ∃ t, tokens a = t ++ tokens a' ∧ tokens b = t ++ tokens b' := by
  induction a generalizing b with
  | nil =>
    obtain ⟨-, hne, hr⟩ | ⟨hr, ha, hb⟩ | ⟨c, d, a', b', habs, -⟩ := nondigits_turn [] b
    · exact .inl ⟨_, hr, heads_signs hne⟩
    · exact .inr ⟨[], [], _, _, hr, rfl, rfl, ha, hb, [], rfl, rfl⟩
    · exact nomatch habs
  | cons c a ih =>
    obtain ⟨-, hne, hr⟩ | ⟨hr, ha, hb⟩ | ⟨c, d, a', b', heq, rfl, hc, hd, hcd, hrec⟩ :=
      nondigits_turn (c :: a) b
    · exact .inl ⟨_, hr, heads_signs hne⟩
    · exact .inr ⟨[], [], _, _, hr, rfl, rfl, ha, hb, [], rfl, rfl⟩
    · cases heq
      rw [tokens_other hc, tokens_other hd, hrec, hcd]
      obtain ⟨r, hr, hs⟩ | ⟨p, q, a', b', hr, rfl, rfl, ha, hb, t, hta, htb⟩ := ih b'
      · exact .inl ⟨r, hr, hs.padded_cons⟩
      · refine .inr ⟨c :: p, d :: q, a', b', hr, rfl, rfl, ha, hb, rank d :: t, ?_, ?_⟩
        · rw [hta, List.cons_append]
        · rw [htb, List.cons_append]

theorem foldl_value (v : ℕ) (s : Text) :
    s.foldl (fun v c => 10 * v + (c.toNat - 48)) v = v * 10 ^ s.length + value s := by
  induction s generalizing v with
  | nil => simp [value]
  | cons c s ih =>
    unfold value
    rw [List.foldl_cons, ih, List.foldl_cons, ih (10 * 0 + (c.toNat - 48)), List.length_cons]
    ring

theorem value_cons (c : UInt8) (s : Text) : value (c :: s) = (c.toNat - 48) * 10 ^ s.length + value s := by
  have h := foldl_value (c.toNat - 48) s
  rw [← h]
  unfold value
  rw [List.foldl_cons, Nat.mul_zero, Nat.zero_add]

theorem digit_iff : digit c = true ↔ 48 ≤ c.toNat ∧ c.toNat ≤ 57 := by
  unfold digit
  rw [Bool.and_eq_true, decide_eq_true_eq, decide_eq_true_eq, UInt8.le_iff_toNat_le, UInt8.le_iff_toNat_le]
  rfl

theorem value_lt (h : ∀ c ∈ s, digit c = true) : value s < 10 ^ s.length := by
  induction s with
  | nil => simp [value]
  | cons c s ih =>
    have ih := ih fun c hc => h c (List.mem_cons_of_mem _ hc)
    have hc : c.toNat - 48 ≤ 9 := by
      have := digit_iff.1 (h c List.mem_cons_self)
      omega
    have := Nat.mul_le_mul_right (10 ^ s.length) hc
    rw [value_cons, List.length_cons, pow_succ]
    omega

/-- Where the first digit is not 0, more digits make more. -/
theorem value_ge (hc : digit c = true) (h0 : c ≠ 48) : 10 ^ s.length ≤ value (c :: s) := by
  have h48 : c.toNat ≠ 48 := fun h => h0 (UInt8.toNat_inj.1 h)
  have h1 : 1 ≤ c.toNat - 48 := by
    have := digit_iff.1 hc
    omega
  have := Nat.mul_le_mul_right (10 ^ s.length) h1
  rw [value_cons]
  omega

/-- The first digits decide. -/
theorem first_lt {k l p x y : ℕ} (h : k < l) (hx : x < p) : k * p + x < l * p + y := by
  have := Nat.mul_le_mul_right p (Nat.succ_le_of_lt h)
  rw [Nat.succ_mul] at this
  omega

/-- **Through the digits there are in both:** the first difference is that of their values. -/
theorem digits_spec (first : ℤ) (a b : Text) :
    ∃ xs ys r a' b', digits first a b = (r, a', b') ∧ a = xs ++ a' ∧ b = ys ++ b' ∧ xs.length = ys.length ∧
      (∀ c ∈ xs, digit c = true) ∧ (∀ c ∈ ys, digit c = true) ∧
      (a'.head?.any digit = true → b'.head?.any digit = false) ∧ (first ≠ 0 → r = first) ∧
      (first = 0 → Signs r (value xs) (value ys)) := by
  induction a generalizing first b with
  | nil =>
    refine ⟨[], [], first, [], b, by rw [digits]; simp, rfl, rfl, rfl, by simp, by simp, by simp, fun _ => rfl, ?_⟩
    exact fun h0 => .of_eq h0 rfl
  | cons c a ih =>
    cases b with
    | nil =>
      refine ⟨[], [], first, _, [], by rw [digits]; simp, rfl, rfl, rfl, by simp, by simp, by simp, fun _ => rfl, ?_⟩
      exact fun h0 => .of_eq h0 rfl
    | cons d b =>
      by_cases h : (digit c && digit d) = true
      · have hcd : digit c = true ∧ digit d = true := by simpa using h
        obtain ⟨xs, ys, r, a', b', hr, rfl, rfl, hlen, hxs, hys, hend, hne, heq⟩ :=
          ih (if first ≠ 0 then first else c.toNat - d.toNat) b
        refine ⟨c :: xs, d :: ys, r, a', b', ?_, rfl, rfl, congrArg (· + 1) hlen, ?_, ?_, hend, ?_, ?_⟩
        · rw [digits, if_pos h]
          exact hr
        · exact List.forall_mem_cons.2 ⟨hcd.1, hxs⟩
        · exact List.forall_mem_cons.2 ⟨hcd.2, hys⟩
        · intro h0
          rw [if_pos h0] at hne
          exact hne h0
        · intro h0
          rw [if_neg (not_not_intro h0)] at hne heq
          have hc48 := (digit_iff.1 hcd.1).1
          have hd48 := (digit_iff.1 hcd.2).1
          rw [value_cons, value_cons, hlen]
          rcases lt_trichotomy c.toNat d.toNat with hlt | hsame | hgt
          · rw [hne (by omega)]
            exact .of_lt (by omega) (first_lt (by omega) (hlen ▸ value_lt hxs))
          · rw [hsame]
            exact (heq (by omega)).map (Nat.add_lt_add_iff_left).symm (Nat.add_lt_add_iff_left).symm
          · rw [hne (by omega)]
            exact .of_gt (by omega) (first_lt (by omega) (value_lt hys))
      · refine ⟨[], [], first, _, _, ?_, rfl, rfl, rfl, by simp, by simp, ?_, fun _ => rfl, ?_⟩
        · rw [digits, if_neg h]
        · intro hc
          simpa [show digit c = true from hc] using h
        · exact fun h0 => .of_eq h0 rfl

/-- Zeros at the front make no difference. -/
theorem digits_zeros (s : Text) :
    value ((s.dropWhile (· = 48)).takeWhile digit) = value (s.takeWhile digit) ∧
      (s.dropWhile (· = 48)).dropWhile digit = s.dropWhile digit := by
  induction s with
  | nil => exact ⟨rfl, rfl⟩
  | cons c s ih =>
    by_cases hc : c = 48
    · subst hc
      have h48 : digit 48 = true := by decide
      rw [List.dropWhile_cons_of_pos (by simp), List.takeWhile_cons_of_pos h48, value_cons,
        List.dropWhile_cons_of_pos h48]
      refine ⟨?_, ih.2⟩
      rw [ih.1]
      simp
    · rw [List.dropWhile_cons_of_neg (by simpa using hc)]
      exact ⟨rfl, rfl⟩

/-- Whichever goes on with a digit, after as many digits, has the higher value. -/
theorem value_more {xs ys a' : Text} (h : a.dropWhile (· = 48) = xs ++ a') (hxs : ∀ c ∈ xs, digit c = true)
    (hys : ∀ c ∈ ys, digit c = true) (hlen : xs.length = ys.length) (hmore : a'.head?.any digit = true) :
    value ys < value (a.takeWhile digit) := by
  rw [← (digits_zeros a).1]
  have hlong : ys.length < ((a.dropWhile (· = 48)).takeWhile digit).length := by
    rw [h, List.takeWhile_append_of_pos hxs, List.length_append, hlen]
    cases a' with
    | nil => exact nomatch hmore
    | cons d a' =>
      rw [List.takeWhile_cons_of_pos (by simpa using hmore), List.length_cons]
      omega
  have hhead := List.head?_dropWhile_not (fun c : UInt8 => decide (c = 48)) a
  cases hz : a.dropWhile (· = 48) with
  | nil =>
    rw [hz] at hlong
    exact nomatch hlong
  | cons c z =>
    rw [hz] at hlong hhead
    have hc : digit c = true := by
      by_contra hc
      rw [List.takeWhile_cons_of_neg hc] at hlong
      exact nomatch hlong
    rw [List.takeWhile_cons_of_pos hc] at hlong ⊢
    calc value ys < 10 ^ ys.length := value_lt hys
      _ ≤ 10 ^ (z.takeWhile digit).length := Nat.pow_le_pow_right (by omega) (Nat.lt_succ_iff.1 hlong)
      _ ≤ value (c :: z.takeWhile digit) := value_ge hc (by simpa using hhead)

/-- **The digits of the two:** one has more of them, or the first difference is that of their values. -/
theorem digits_signs (a b : Text) :
    ∃ r a' b', digits 0 (a.dropWhile (· = 48)) (b.dropWhile (· = 48)) = (r, a', b') ∧
      a' <:+ a ∧ b' <:+ b ∧
      (a'.head?.any digit = true → value (b.takeWhile digit) < value (a.takeWhile digit)) ∧
      (b'.head?.any digit = true → value (a.takeWhile digit) < value (b.takeWhile digit)) ∧
      (a'.head?.any digit = false → b'.head?.any digit = false →
        Signs r (value (a.takeWhile digit)) (value (b.takeWhile digit)) ∧ a' = a.dropWhile digit ∧
          b' = b.dropWhile digit) := by
  obtain ⟨xs, ys, r, a', b', hr, ha, hb, hlen, hxs, hys, hend, -, hsigns⟩ :=
    digits_spec 0 (a.dropWhile (· = 48)) (b.dropWhile (· = 48))
  have hstop : ∀ {xs s s' : Text}, s.dropWhile (· = 48) = xs ++ s' → (∀ c ∈ xs, digit c = true) →
      s'.head?.any digit = false → value (s.takeWhile digit) = value xs ∧ s.dropWhile digit = s' := by
    intro xs s s' h hxs hs'
    have htake : s'.takeWhile digit = [] ∧ s'.dropWhile digit = s' := by
      cases s' with
      | nil => exact ⟨rfl, rfl⟩
      | cons c s' =>
        have hc : ¬ digit c = true := by simpa using hs'
        exact ⟨List.takeWhile_cons_of_neg hc, List.dropWhile_cons_of_neg hc⟩
    rw [← (digits_zeros s).1, ← (digits_zeros s).2, h, List.takeWhile_append_of_pos hxs,
      List.dropWhile_append_of_pos hxs, htake.1, htake.2, List.append_nil]
    exact ⟨rfl, rfl⟩
  have hsuffix : ∀ {xs s s' : Text}, s.dropWhile (· = 48) = xs ++ s' → s' <:+ s :=
    fun {xs s s'} h => (List.suffix_append xs s').trans (h ▸ List.dropWhile_suffix _)
  refine ⟨r, a', b', hr, hsuffix ha, hsuffix hb, fun hmore => ?_, fun hmore => ?_, fun hna hnb => ?_⟩
  · rw [(hstop hb hys (hend hmore)).1]
    exact value_more ha hxs hys hlen hmore
  · have hna : a'.head?.any digit = false := by
      by_contra h
      exact absurd hmore (by simp [hend (Bool.not_eq_false _ ▸ h)])
    rw [(hstop ha hxs hna).1]
    exact value_more hb hys hxs hlen.symm hmore
  · rw [(hstop ha hxs hna).1, (hstop hb hys hnb).1, (hstop ha hxs hna).2, (hstop hb hys hnb).2]
    exact ⟨hsigns rfl, rfl, rfl⟩

/-! ### The comparison -/

/-- What is left after the digits is less, where there was anything. -/
theorem rest_lt {p s' : Text} (hs : s = p ++ s') (hend : other s' = false) :
    (s'.dropWhile digit).length < s.length + 1 ∧ (s ≠ [] → (s'.dropWhile digit).length < s.length) := by
  have hle := (List.dropWhile_sublist (p := digit) (l := s')).length_le
  subst hs
  rw [List.length_append]
  refine ⟨by omega, fun hne => ?_⟩
  cases s' with
  | nil =>
    rw [List.append_nil] at hne
    have := List.length_pos_iff.2 hne
    rw [List.dropWhile_nil]
    omega
  | cons c s' =>
    have hc : digit c = true := by simpa [other] using hend
    have hle := (List.dropWhile_sublist (p := digit) (l := s')).length_le
    rw [List.dropWhile_cons_of_pos hc, List.length_cons]
    omega

theorem rests_lt {n : ℕ} {p q a' b' : Text} (ha : a = p ++ a') (hb : b = q ++ b') (hea : other a' = false)
    (heb : other b' = false) (hnil : ¬ (a = [] ∧ b = [])) (hn : a.length + b.length < n + 1) :
    (a'.dropWhile digit).length + (b'.dropWhile digit).length < n := by
  have h₁ := rest_lt ha hea
  have h₂ := rest_lt hb heb
  by_cases ha0 : a = []
  · have := h₂.2 fun hb0 => hnil ⟨ha0, hb0⟩
    omega
  · have := h₁.2 ha0
    omega

/-- **`verrevcmp` compares the texts' keys.** -/
theorem verrevcmp_signs {n : ℕ} (hn : a.length + b.length < n) :
    Signs (verrevcmp n a b) (padded (key a)) (padded (key b)) := by
  induction n generalizing a b with
  | zero => exact absurd hn (Nat.not_lt_zero _)
  | succ n ih =>
    unfold verrevcmp
    by_cases hnil : a = [] ∧ b = []
    · rw [if_pos hnil, hnil.1, hnil.2]
      exact .of_eq rfl rfl
    · rw [if_neg hnil, padded_key, padded_key]
      obtain ⟨r, hr, hs⟩ | ⟨p, q, a', b', hr, ha, hb, hea, heb, t, hta, htb⟩ := nondigits_spec a b
      · rw [hr]
        exact hs
      · rw [hr, hta, htb, tokens_digits hea, tokens_digits heb]
        refine .padded_append t (.padded_cons ?_)
        obtain ⟨r, a'', b'', hd, -, -, hmore, hless, hsame⟩ := digits_signs a' b'
        simp only [hd]
        split_ifs with h₁ h₂ h₃
        · exact .of_gt (by decide) (padded_cons_lt (by exact_mod_cast hmore h₁))
        · exact .of_lt (by decide) (padded_cons_lt (by exact_mod_cast hless h₂))
        · obtain ⟨hs, -, -⟩ := hsame (by simpa using h₁) (by simpa using h₂)
          exact (hs.map Nat.cast_lt.symm Nat.cast_lt.symm).first h₃
        · obtain ⟨hs, rfl, rfl⟩ := hsame (by simpa using h₁) (by simpa using h₂)
          rw [hs.eq_zero_iff.1 (not_not.1 h₃)]
          exact .padded_cons (ih (rests_lt ha hb hea heb hnil hn))

/-- A version's key: its epoch, and the keys of what is upstream's and of the revision. -/
def vkey (v : Text) : ℕ ×ₗ Lex (ℕ → ℤ) ×ₗ Lex (ℕ → ℤ) :=
  toLex ((parts v).1, toLex (padded (key (parts v).2.1), padded (key (parts v).2.2)))

/-- **`vcmp` compares the versions' keys.** -/
theorem vcmp_keyed : Keyed vcmp vkey := by
  intro a b
  unfold vcmp vkey
  obtain ⟨ea, ua, ra⟩ := parts a
  obtain ⟨eb, ub, rb⟩ := parts b
  have hup := verrevcmp_signs (Nat.lt_succ_self (ua.length + ub.length))
  have hrev := verrevcmp_signs (Nat.lt_succ_self (ra.length + rb.length))
  dsimp only
  split_ifs with h₁ h₂ h₃
  · exact (Signs.of_gt (by decide) h₂).lex_first (by decide)
  · exact (Signs.of_lt (by decide) (by omega)).lex_first (by decide)
  · exact .lex_second (not_not.1 h₁) (hup.lex_first h₃)
  · exact .lex_second (not_not.1 h₁) (.lex_second (hup.eq_zero_iff.1 (not_not.1 h₃)) hrev)

end BaxOS.Tuxpac
