import Mathlib.Data.List.DropRight
import BaxOS.Tuxpac.VersionKeys

/-!
# What Debian's policy orders versions by

Policy compares an epoch of any size, what is before the last `-` and what is behind it, in full. `vcmp`
takes an epoch in 32 bits and 39 characters of what is upstream's, and `better` cuts a version at 39
characters before that. Where nothing that counts is cut off the two agree, and a version that loses
something is taken for another that is kept whole (`policy_exact`).
-/

namespace BaxOS.Tuxpac
open Comparisons

/-! ### Policy -/

/-- What is before the last `-` of a version and what is behind it. -/
def upstreamRevision (v : Text) : Text × Text :=
  if dash ∈ v then
    (((v.reverse.dropWhile (· ≠ dash)).tail).reverse, (v.reverse.takeWhile (· ≠ dash)).reverse)
  else (v, [])

/-- The epoch, and what is compared after it. -/
def policyParts (v : Text) : ℕ × Text × Text :=
  if colon ∈ v then (value (v.takeWhile digit), upstreamRevision (v.dropWhile (· ≠ colon)).tail)
  else (0, upstreamRevision v)

/-- What policy compares versions by. -/
def policyKey (v : Text) : ℕ ×ₗ Lex (ℕ → ℤ) ×ₗ Lex (ℕ → ℤ) :=
  toLex ((policyParts v).1, toLex (padded (key (policyParts v).2.1), padded (key (policyParts v).2.2)))

theorem number_eq (s : Text) : number s = value (s.takeWhile digit) % 2 ^ 32 := by
  have h : ∀ (l : Text) (v : ℕ),
      l.foldl (fun v c => (v * 10 + (c.toNat - 48)) % 2 ^ 32) (v % 2 ^ 32) =
        l.foldl (fun v c => 10 * v + (c.toNat - 48)) v % 2 ^ 32 := by
    intro l
    induction l with
    | nil => exact fun v => rfl
    | cons c l ih =>
      intro v
      rw [List.foldl_cons, List.foldl_cons, ← ih]
      congr 1
      omega
  exact h _ 0

/-- `vcmp` reads a version as policy does, its epoch in 32 bits and no more than 39 characters upstream. -/
theorem parts_eq (v : Text) :
    parts v = ((policyParts v).1 % 2 ^ 32, (policyParts v).2.1.take (verRoom - 1), (policyParts v).2.2) := by
  unfold parts policyParts upstreamRevision
  by_cases hc : colon ∈ v
  · rw [if_pos hc, if_pos hc]
    dsimp only
    rw [number_eq]
    split_ifs <;> rfl
  · rw [if_neg hc, if_neg hc]
    dsimp only
    split_ifs <;> rfl

/-! ### What is cut off -/

/-- A key, a character at a time: in a part of characters, or in one of digits that has come to a value. -/
def run : Option ℕ → Text → List ℤ
  | none, [] => []
  | some v, [] => [(v : ℤ)]
  | none, c :: s => if digit c then 0 :: run (some (c.toNat - 48)) s else rank c :: run none s
  | some v, c :: s =>
    if digit c then run (some (10 * v + (c.toNat - 48))) s else (v : ℤ) :: rank c :: run none s

theorem run_others (s : Text) :
    run none s = (s.takeWhile fun c => !digit c).map rank ++ run none (s.dropWhile fun c => !digit c) := by
  induction s with
  | nil => rfl
  | cons c s ih =>
    cases hc : digit c with
    | true => rw [List.takeWhile_cons_of_neg (by simp [hc]), List.dropWhile_cons_of_neg (by simp [hc])]; rfl
    | false =>
      rw [List.takeWhile_cons_of_pos (by simp [hc]), List.dropWhile_cons_of_pos (by simp [hc]), run, hc, ih]
      rfl

theorem run_digits (v : ℕ) (s : Text) :
    run (some v) s =
      (((s.takeWhile digit).foldl (fun v c => 10 * v + (c.toNat - 48)) v : ℕ) : ℤ) ::
        run none (s.dropWhile digit) := by
  induction s generalizing v with
  | nil => rfl
  | cons c s ih =>
    cases hc : digit c with
    | true =>
      rw [List.takeWhile_cons_of_pos hc, List.dropWhile_cons_of_pos hc, run, if_pos hc, ih, List.foldl_cons]
    | false =>
      have hneg : ¬ digit c = true := by simp [hc]
      rw [List.takeWhile_cons_of_neg hneg, List.dropWhile_cons_of_neg hneg, run, if_neg hneg, run, if_neg hneg]
      rfl

theorem padded_run (s : Text) : padded (run none s) = padded (key s) := by
  induction hn : s.length using Nat.strong_induction_on generalizing s with
  | _ n ih =>
    rw [padded_key, run_others, tokens, padded_append_inj, digitsKey]
    cases hs : s.dropWhile (fun c => !digit c) with
    | nil =>
      rw [show key (List.dropWhile digit []) = [] by rw [List.dropWhile_nil, key, if_pos rfl]]
      exact padded_zero_zero.symm
    | cons c t =>
      have hc : digit c = true := by
        have := List.head?_dropWhile_not (fun c => !digit c) s
        rw [hs] at this
        simpa using this
      have hlt : (t.dropWhile digit).length < n := by
        have h₁ := (List.dropWhile_sublist (p := fun c => !digit c) (l := s)).length_le
        have h₂ := (List.dropWhile_sublist (p := digit) (l := t)).length_le
        rw [hs, List.length_cons] at h₁
        omega
      rw [run, if_pos hc, run_digits, padded_cons_inj, List.takeWhile_cons_of_pos hc,
        List.dropWhile_cons_of_pos hc, value, List.foldl_cons, Nat.mul_zero, Nat.zero_add, padded_cons_inj]
      exact ih _ hlt _ rfl

/-- The value of the digits at the end, in a part of digits that has come to a value. -/
def ends : Option ℕ → Text → ℕ
  | v, [] => v.getD 0
  | v, c :: s => ends (if digit c then some (10 * v.getD 0 + (c.toNat - 48)) else none) s

theorem run_cons (v : Option ℕ) (c : UInt8) :
    ∃ p v', ∀ s, run v (c :: s) = p ++ run v' s ∧ ends v (c :: s) = ends v' s := by
  cases v <;> cases hc : digit c <;> simp only [run, ends, hc, if_true]
  · exact ⟨[rank c], none, fun s => ⟨rfl, rfl⟩⟩
  · exact ⟨[0], some (c.toNat - 48), fun s => ⟨rfl, by simp⟩⟩
  · exact ⟨[_, rank c], none, fun s => ⟨rfl, rfl⟩⟩
  · exact ⟨[], some _, fun s => ⟨rfl, rfl⟩⟩

theorem zero_iff {c : UInt8} (h : digit c = true) : c.toNat - 48 = 0 ↔ c = 48 := by
  rw [← UInt8.toNat_inj]
  have := digit_iff.1 h
  have h48 : (48 : UInt8).toNat = 48 := rfl
  omega

theorem ne_zero_char {c : UInt8} (h : digit c = false) : c ≠ 48 := by
  rintro rfl
  exact absurd h (by decide)

theorem run_some_nil (v : ℕ) (t : Text) :
    padded (run (some v) t) = padded [] ↔ v = 0 ∧ ∀ c ∈ t, c = 48 := by
  induction t generalizing v with
  | nil => simp [run, padded_cons_nil]
  | cons c t ih =>
    rw [run, List.forall_mem_cons]
    cases hc : digit c with
    | true =>
      have hsum : 10 * v + (c.toNat - 48) = 0 ↔ v = 0 ∧ c.toNat - 48 = 0 := by omega
      rw [if_pos rfl, ih, ← zero_iff hc, hsum, and_assoc]
    | false =>
      rw [if_neg Bool.false_ne_true, padded_cons_nil, padded_cons_nil]
      simp [rank_ne_zero, ne_zero_char hc]

theorem run_none_nil (t : Text) : padded (run none t) = padded [] ↔ ∀ c ∈ t, c = 48 := by
  cases t with
  | nil => simp [run]
  | cons c t =>
    rw [run, List.forall_mem_cons]
    cases hc : digit c with
    | true => rw [if_pos rfl, padded_cons_nil, run_some_nil, zero_iff hc, and_iff_right rfl]
    | false =>
      rw [if_neg Bool.false_ne_true, padded_cons_nil]
      simp [rank_ne_zero, ne_zero_char hc]

/-- Where digits have come to a value that is not 0, none can follow. -/
theorem run_some_self {v : ℕ} (hv : v ≠ 0) (c : UInt8) (t : Text) :
    padded (run (some v) (c :: t)) ≠ padded [(v : ℤ)] := by
  intro h
  rw [run] at h
  split_ifs at h with hc
  · rw [run_digits, foldl_value] at h
    have hhead := padded_head h
    have hpos : 0 < 10 ^ (t.takeWhile digit).length := pow_pos (by omega) _
    have hge := Nat.le_mul_of_pos_right (10 * v + (c.toNat - 48)) hpos
    omega
  · exact rank_ne_zero c (padded_cons_nil.1 (padded_cons_inj.1 h)).1

/-- **What is cut off counts**, unless it is zeros and they are behind no digits but zeros. -/
theorem run_append (v : Option ℕ) (s t : Text) :
    padded (run v (s ++ t)) = padded (run v s) ↔ (∀ c ∈ t, c = 48) ∧ (t = [] ∨ ends v s = 0) := by
  induction s generalizing v with
  | nil =>
    rw [List.nil_append]
    cases v with
    | none => exact (run_none_nil t).trans (by simp [ends])
    | some v =>
      by_cases hv : v = 0
      · subst hv
        have h0 : padded (run (some 0) []) = padded [] := padded_zero
        rw [h0, run_some_nil]
        simp [ends]
      · cases t with
        | nil => simp
        | cons c t =>
          refine iff_of_false (run_some_self hv c t) ?_
          rintro ⟨-, h | h⟩
          · exact nomatch h
          · exact hv h
  | cons c s ih =>
    obtain ⟨p, v', h⟩ := run_cons v c
    rw [List.cons_append, (h _).1, (h _).1, (h s).2, padded_append_inj]
    exact ih v'

/-- The value of the digits a text ends in. -/
def lastValue (s : Text) : ℕ := value (s.rtakeWhile digit)

theorem ends_eq (s : Text) : ends none s = lastValue s := by
  have hsnoc : ∀ (s : Text) (v : Option ℕ) (c : UInt8),
      ends v (s ++ [c]) = if digit c then 10 * ends v s + (c.toNat - 48) else 0 := by
    intro s
    induction s with
    | nil =>
      intro v c
      rw [List.nil_append, ends, ends, ends]
      split_ifs <;> rfl
    | cons d s ih => exact fun v c => ih _ c
  unfold lastValue
  induction s using List.reverseRecOn with
  | nil => rfl
  | append_singleton s c ih =>
    rw [hsnoc, ih, List.rtakeWhile_concat]
    split_ifs with hc
    · unfold value
      rw [List.foldl_append]
      rfl
    · rfl

/-- Cutting a text off changes nothing that counts. -/
structure KeptBy (n : ℕ) (s : Text) : Prop where
  zeros : ∀ c ∈ s.drop n, c = 48
  behind : s.drop n = [] ∨ lastValue (s.take n) = 0

theorem keptBy_iff (n : ℕ) (s : Text) : KeptBy n s ↔ padded (key (s.take n)) = padded (key s) := by
  have h := run_append none (s.take n) (s.drop n)
  rw [List.take_append_drop, padded_run, padded_run, ends_eq] at h
  rw [eq_comm, h]
  exact ⟨fun hk => ⟨hk.zeros, hk.behind⟩, fun hk => ⟨hk.1, hk.2⟩⟩

/-! ### Rendering what is left -/

theorem exists_digits (k n : ℕ) (h : n < 10 ^ k) :
    ∃ s : Text, s.length = k ∧ (∀ c ∈ s, digit c = true) ∧ value s = n := by
  induction k generalizing n with
  | zero => exact ⟨[], rfl, by simp, by simp [value]; omega⟩
  | succ k ih =>
    obtain ⟨s, hlen, hs, hv⟩ := ih (n / 10) (by rw [pow_succ] at h; omega)
    have hc : (UInt8.ofNat (48 + n % 10)).toNat = 48 + n % 10 := by
      rw [UInt8.toNat_ofNat']
      omega
    refine ⟨s ++ [UInt8.ofNat (48 + n % 10)], by simp [hlen], ?_, ?_⟩
    · intro c hcs
      rcases List.mem_append.1 hcs with hcs | hcs
      · exact hs c hcs
      · rw [List.mem_singleton.1 hcs, digit_iff, hc]
        omega
    · unfold value at hv ⊢
      rw [List.foldl_append, hv, List.foldl_cons, List.foldl_nil, hc]
      omega

theorem upstreamRevision_dash (u : Text) {r : Text} (h : dash ∉ r) :
    upstreamRevision (u ++ dash :: r) = (u, r) := by
  have hr : ∀ c ∈ r.reverse, (fun c => decide (c ≠ dash)) c = true := by
    intro c hc
    exact decide_eq_true fun heq => h (heq ▸ List.mem_reverse.1 hc)
  unfold upstreamRevision
  rw [if_pos (by simp), List.reverse_append, List.reverse_cons, List.append_assoc,
    List.dropWhile_append_of_pos hr, List.takeWhile_append_of_pos hr, List.singleton_append,
    List.dropWhile_cons_of_neg (p := fun c => decide (c ≠ dash)) (by simp),
    List.takeWhile_cons_of_neg (p := fun c => decide (c ≠ dash)) (by simp)]
  simp

/-- What is behind what is upstream's. -/
def behind (w : Text) : Text := if dash ∈ w then dash :: (upstreamRevision w).2 else []

theorem upstreamRevision_eq (w : Text) :
    w = (upstreamRevision w).1 ++ behind w ∧ dash ∉ (upstreamRevision w).2 := by
  by_cases h : dash ∈ w
  · obtain ⟨u, r, hw, hr⟩ : ∃ u r, w = u ++ dash :: r ∧ dash ∉ r := by
      obtain ⟨r, u, hw, hr⟩ := List.eq_append_cons_of_mem (List.mem_reverse.2 h)
      refine ⟨u.reverse, r.reverse, ?_, fun hmem => hr (List.mem_reverse.1 hmem)⟩
      rw [← List.reverse_reverse w, hw, List.reverse_append, List.reverse_cons, List.append_assoc]
      rfl
    unfold behind
    rw [if_pos h, hw, upstreamRevision_dash u hr]
    exact ⟨rfl, hr⟩
  · unfold behind upstreamRevision
    rw [if_neg h, if_neg h, List.append_nil]
    exact ⟨rfl, List.not_mem_nil⟩

/-- A version without its epoch, as `vcmp` looks at it. -/
def cutUpstream (w : Text) : Text := (upstreamRevision w).1.take (verRoom - 1) ++ behind w

theorem upstreamRevision_cut (w : Text) :
    upstreamRevision (cutUpstream w) = ((upstreamRevision w).1.take (verRoom - 1), (upstreamRevision w).2) := by
  unfold cutUpstream behind
  by_cases h : dash ∈ w
  · rw [if_pos h, upstreamRevision_dash _ (upstreamRevision_eq w).2]
  · have hw : upstreamRevision w = (w, []) := if_neg h
    rw [if_neg h, List.append_nil, hw]
    exact if_neg fun hmem => h (List.mem_of_mem_take hmem)

theorem cutUpstream_sublist (w : Text) : (cutUpstream w).Sublist w := by
  conv_rhs => rw [(upstreamRevision_eq w).1]
  exact (List.take_sublist _ _).append (List.Sublist.refl _)

/-- The version of an index's line: `take` skips spaces in front, and ends it at a return. -/
structure Held (v : Text) : Prop where
  short : v.length ≤ 127
  clean : ∀ c ∈ v, c ∉ ([0, 9, 10, 13] : List UInt8)
  start : v.head? ≠ some 32

/-- `vcmp` loses nothing of a version that counts. -/
structure Whole (v : Text) : Prop where
  epoch : (policyParts v).1 < 2 ^ 32
  upstream : KeptBy (verRoom - 1) (policyParts v).2.1

theorem vkey_eq_iff (v : Text) : vkey v = policyKey v ↔ Whole v := by
  have hkeys : vkey v = toLex ((policyParts v).1 % 2 ^ 32,
      toLex (padded (key ((policyParts v).2.1.take (verRoom - 1))), padded (key (policyParts v).2.2))) := by
    unfold vkey
    rw [parts_eq]
  rw [hkeys]
  constructor
  · intro h
    obtain ⟨he, hrest⟩ := Prod.ext_iff.1 (congrArg ofLex h)
    obtain ⟨hu, -⟩ := Prod.ext_iff.1 (congrArg ofLex hrest)
    exact ⟨he ▸ Nat.mod_lt _ (by decide), (keptBy_iff _ _).2 hu⟩
  · intro h
    rw [Nat.mod_eq_of_lt h.epoch, (keptBy_iff _ _).1 h.upstream]
    rfl

theorem cutUpstream_head {w : Text} {c : UInt8} (h : (cutUpstream w).head? = some c) :
    w.head? = some c ∨ c = dash := by
  have hw := (upstreamRevision_eq w).1
  unfold cutUpstream at h
  cases hu : (upstreamRevision w).1 with
  | nil =>
    rw [hu, List.take_nil, List.nil_append] at h
    unfold behind at h
    split_ifs at h
    · exact .inr (Option.some.inj h).symm
    · exact nomatch h
  | cons d u =>
    rw [hu] at h hw
    rw [hw]
    exact .inl h

theorem digits_le_epoch (a : Text) : (a.takeWhile digit).length ≤ (a.takeWhile (· ≠ colon)).length := by
  induction a with
  | nil => exact le_rfl
  | cons c a ih =>
    cases hc : digit c with
    | true =>
      have hcolon : c ≠ colon := by
        rintro rfl
        exact absurd hc (by decide)
      rw [List.takeWhile_cons_of_pos hc, List.takeWhile_cons_of_pos (by simpa using hcolon)]
      exact Nat.succ_le_succ ih
    | false =>
      rw [List.takeWhile_cons_of_neg (by simp [hc])]
      exact Nat.zero_le _

theorem policyParts_render {d w : Text} (hd : ∀ c ∈ d, digit c = true) :
    policyParts (d ++ colon :: w) = (value d, upstreamRevision w) := by
  have hcolon : ∀ c ∈ d, (fun c => decide (c ≠ colon)) c = true := by
    intro c hc
    refine decide_eq_true ?_
    rintro rfl
    exact absurd (hd _ hc) (by decide)
  unfold policyParts
  rw [if_pos (by simp), List.takeWhile_append_of_pos hd, List.dropWhile_append_of_pos hcolon,
    List.takeWhile_cons_of_neg (by decide), List.append_nil,
    List.dropWhile_cons_of_neg (p := fun c => decide (c ≠ colon)) (by simp), List.tail_cons]

/-- **What `vcmp` looks at of a version is another version.** -/
theorem exists_parts {a : Text} (ha : Held a) :
    ∃ b, Held b ∧ b.length ≤ a.length ∧ policyParts b = parts a := by
  by_cases hc : colon ∈ a
  · have hsplit : a = a.takeWhile (· ≠ colon) ++ colon :: (a.dropWhile (· ≠ colon)).tail := by
      have hhead := List.head?_dropWhile_not (fun c => decide (c ≠ colon)) a
      have happ := List.takeWhile_append_dropWhile (p := fun c => decide (c ≠ colon)) (l := a)
      cases hdrop : a.dropWhile (· ≠ colon) with
      | nil =>
        rw [hdrop, List.append_nil] at happ
        rw [← happ] at hc
        exact absurd (List.mem_takeWhile_imp hc) (by simp)
      | cons c w =>
        rw [hdrop] at hhead happ
        have hcolon : c = colon := by simpa using hhead
        rw [hcolon] at happ
        exact happ.symm
    have hparts : policyParts a =
        (value (a.takeWhile digit), upstreamRevision (a.dropWhile (· ≠ colon)).tail) := if_pos hc
    generalize (a.dropWhile (· ≠ colon)).tail = w at hsplit hparts
    have hepoch : value (a.takeWhile digit) % 2 ^ 32 < 10 ^ (a.takeWhile (· ≠ colon)).length :=
      calc value (a.takeWhile digit) % 2 ^ 32 ≤ value (a.takeWhile digit) := Nat.mod_le _ _
        _ < 10 ^ (a.takeWhile digit).length := value_lt fun c hc => List.mem_takeWhile_imp hc
        _ ≤ _ := Nat.pow_le_pow_right (by omega) (digits_le_epoch a)
    obtain ⟨d, hlen, hd, hv⟩ := exists_digits _ _ hepoch
    have hle : (d ++ colon :: cutUpstream w).length ≤ a.length := by
      have := (cutUpstream_sublist w).length_le
      rw [hsplit, List.length_append, List.length_append, List.length_cons, List.length_cons, hlen]
      omega
    refine ⟨d ++ colon :: cutUpstream w, ⟨hle.trans ha.short, ?_, ?_⟩, hle, ?_⟩
    · intro c hmem
      rcases List.mem_append.1 hmem with hmem | hmem
      · have hdigit := hd c hmem
        intro hbad
        simp only [List.mem_cons, List.not_mem_nil, or_false] at hbad
        rcases hbad with rfl | rfl | rfl | rfl <;> exact absurd hdigit (by decide)
      · rcases List.mem_cons.1 hmem with rfl | hmem
        · decide
        · refine ha.clean c ?_
          rw [hsplit]
          exact List.mem_append_right _ (List.mem_cons_of_mem _ ((cutUpstream_sublist w).subset hmem))
    · cases d with
      | nil =>
        intro h
        exact absurd (Option.some.inj h) (by decide)
      | cons c d =>
        intro h
        have := hd c List.mem_cons_self
        rw [Option.some.inj h] at this
        exact absurd this (by decide)
    · rw [policyParts_render hd, upstreamRevision_cut, parts_eq, hparts, hv]
  · have hmem : colon ∉ cutUpstream a := fun h => hc ((cutUpstream_sublist a).subset h)
    have hle := (cutUpstream_sublist a).length_le
    refine ⟨cutUpstream a, ⟨hle.trans ha.short, fun c h => ha.clean c ((cutUpstream_sublist a).subset h), ?_⟩,
      hle, ?_⟩
    · intro h
      rcases cutUpstream_head h with h | h
      · exact ha.start h
      · exact absurd h (by decide)
    · have hparts : policyParts a = (0, upstreamRevision a) := if_neg hc
      rw [parts_eq, hparts, ← upstreamRevision_cut]
      exact if_neg hmem

/-- **Whatever a version loses, it is taken for one that loses nothing.** -/
theorem exists_whole {a : Text} (ha : Held a) :
    ∃ b, Held b ∧ Whole b ∧ b.length ≤ a.length ∧ policyKey b = vkey a := by
  obtain ⟨b, hb, hle, hparts⟩ := exists_parts ha
  refine ⟨b, hb, ?_, hle, ?_⟩
  · rw [parts_eq] at hparts
    have hdrop : (policyParts b).2.1.drop (verRoom - 1) = [] := by
      rw [hparts]
      exact List.drop_eq_nil_of_le (List.length_take_le _ _)
    refine ⟨?_, ⟨?_, .inl hdrop⟩⟩
    · rw [hparts]
      exact Nat.mod_lt _ (by decide)
    · rw [hdrop]
      exact fun c hc => nomatch hc
  · unfold policyKey vkey
    rw [hparts]

/-- `vcmp` loses nothing of a version that counts when it is cut as `better` cuts it. -/
structure WholeCut (v : Text) : Prop where
  epoch : (policyParts v).1 < 2 ^ 32
  cut : policyKey (v.take (verRoom - 1)) = policyKey v

theorem upstream_length (v : Text) : (policyParts v).2.1.length ≤ v.length := by
  have hsub : ∀ w, (upstreamRevision w).1.Sublist w := by
    intro w
    conv_rhs => rw [(upstreamRevision_eq w).1]
    exact List.sublist_append_left _ _
  by_cases hc : colon ∈ v
  · have hparts : (policyParts v).2.1 = (upstreamRevision (v.dropWhile (· ≠ colon)).tail).1 :=
      congrArg (fun x : ℕ × Text × Text => x.2.1) (if_pos hc)
    rw [hparts]
    exact ((hsub _).trans ((List.tail_sublist _).trans (List.dropWhile_sublist _))).length_le
  · have hparts : (policyParts v).2.1 = (upstreamRevision v).1 :=
      congrArg (fun x : ℕ × Text × Text => x.2.1) (if_neg hc)
    rw [hparts]
    exact (hsub v).length_le

/-- A version short enough keeps what is upstream's. -/
theorem whole_of_short {v : Text} (hlen : v.length ≤ verRoom - 1) (he : (policyParts v).1 < 2 ^ 32) : Whole v := by
  have hdrop : (policyParts v).2.1.drop (verRoom - 1) = [] :=
    List.drop_eq_nil_of_le ((upstream_length v).trans hlen)
  refine ⟨he, ⟨?_, .inl hdrop⟩⟩
  rw [hdrop]
  exact fun c hc => nomatch hc

/-- The epoch of what is cut at the end is the same, or there is none. -/
theorem epoch_cut (n : ℕ) (v : Text) :
    (policyParts (v.take n)).1 = (policyParts v).1 ∨ (policyParts (v.take n)).1 = 0 := by
  by_cases hc : colon ∈ v.take n
  · left
    have hshort : (v.take n).takeWhile digit ≠ v.take n := by
      intro h
      rw [← h] at hc
      exact absurd (List.mem_takeWhile_imp hc) (by decide)
    have hv : v.takeWhile digit = (v.take n).takeWhile digit := by
      conv_lhs => rw [← List.take_append_drop n v]
      rw [List.takeWhile_append, if_neg]
      exact fun h => hshort ((List.takeWhile_sublist _).eq_of_length h)
    unfold policyParts
    rw [if_pos hc, if_pos (List.mem_of_mem_take hc), hv]
  · right
    unfold policyParts
    rw [if_neg hc]

theorem vkey_cut_iff (v : Text) : vkey (v.take (verRoom - 1)) = policyKey v ↔ WholeCut v := by
  have hlen : (v.take (verRoom - 1)).length ≤ verRoom - 1 := List.length_take_le _ _
  constructor
  · intro h
    have he : (policyParts (v.take (verRoom - 1))).1 % 2 ^ 32 = (policyParts v).1 := by
      have hfst : (parts (v.take (verRoom - 1))).1 = (policyParts v).1 := (Prod.ext_iff.1 (congrArg ofLex h)).1
      rw [parts_eq] at hfst
      exact hfst
    have hlt : (policyParts v).1 < 2 ^ 32 := he ▸ Nat.mod_lt _ (by decide)
    have hcut : (policyParts (v.take (verRoom - 1))).1 < 2 ^ 32 := by
      rcases epoch_cut (verRoom - 1) v with hsame | hzero
      · rw [hsame]
        exact hlt
      · rw [hzero]
        decide
    exact ⟨hlt, by rw [← (vkey_eq_iff _).2 (whole_of_short hlen hcut), h]⟩
  · intro h
    have he : (policyParts (v.take (verRoom - 1))).1 = (policyParts v).1 :=
      (Prod.ext_iff.1 (congrArg ofLex h.cut)).1
    rw [(vkey_eq_iff _).2 (whole_of_short hlen (he ▸ h.epoch)), h.cut]

/-- **Where nothing that counts is cut off, versions are ordered as policy orders them,** and nowhere else: a
version that loses something is told from no version that has only what is left of it. -/
theorem policy_exact (a : Text) (ha : Held a) :
    (Whole a ↔ ∀ b, Held b → Whole b → Signs (vcmp a b) (policyKey a) (policyKey b)) ∧
      (WholeCut a ↔ ∀ b, Held b → WholeCut b →
        Signs (vcmp (a.take (verRoom - 1)) (b.take (verRoom - 1))) (policyKey a) (policyKey b)) := by
  have htake : Held (a.take (verRoom - 1)) := by
    refine ⟨(List.take_sublist _ _).length_le.trans ha.short, fun c hc => ha.clean c (List.mem_of_mem_take hc), ?_⟩
    rw [List.head?_take]
    exact ha.start
  refine ⟨⟨fun hw b _ hb => ?_, fun h => ?_⟩, ⟨fun hw b _ hb => ?_, fun h => ?_⟩⟩
  · rw [← (vkey_eq_iff a).2 hw, ← (vkey_eq_iff b).2 hb]
    exact vcmp_keyed a b
  · obtain ⟨b, hb, hw, -, hkey⟩ := exists_whole ha
    have hzero : vcmp a b = 0 := (vcmp_keyed a b).eq_zero_iff.2 (by rw [(vkey_eq_iff b).2 hw, hkey])
    rw [← vkey_eq_iff, ← hkey]
    exact ((h b hb hw).eq_zero_iff.1 hzero).symm
  · rw [← (vkey_cut_iff a).2 hw, ← (vkey_cut_iff b).2 hb]
    exact vcmp_keyed _ _
  · obtain ⟨b, hb, hw, hlen, hkey⟩ := exists_whole htake
    have hshort : b.take (verRoom - 1) = b :=
      List.take_of_length_le (hlen.trans (List.length_take_le _ _))
    have hcut : WholeCut b := ⟨hw.epoch, by rw [hshort]⟩
    have hzero : vcmp (a.take (verRoom - 1)) (b.take (verRoom - 1)) = 0 := by
      rw [hshort]
      exact (vcmp_keyed _ b).eq_zero_iff.2 (by rw [(vkey_eq_iff b).2 hw, hkey])
    rw [← vkey_cut_iff, ← hkey]
    exact ((h b hb hcut).eq_zero_iff.1 hzero).symm

/-- A version of a usual length. -/
theorem policy_exact_usual :
    Held (text "1:2.36-9+deb12u10") ∧ (Whole (text "1:2.36-9+deb12u10") ↔ ∀ b, Held b → Whole b →
      Signs (vcmp (text "1:2.36-9+deb12u10") b) (policyKey (text "1:2.36-9+deb12u10")) (policyKey b)) := by
  have h : Held (text "1:2.36-9+deb12u10") := ⟨by decide +kernel, by decide +kernel, by decide +kernel⟩
  exact ⟨h, (policy_exact _ h).1⟩

/-- The day and the commit a version was made from; its number is to follow. -/
def snapshot : Text := text "2025.06.30+git20250630.0123456789abcdef"

/-- Two versions of one commit: what differs is cut off, though policy has the second after the first. -/
theorem vcmp_not_policy :
    ¬ ∀ a b : Text, Held a → Held b →
      Signs (vcmp a b) (policyKey a) (policyKey b) ∧
        Signs (vcmp (a.take (verRoom - 1)) (b.take (verRoom - 1))) (policyKey a) (policyKey b) := by
  intro h
  have hsigns := (h (snapshot ++ text "1-1") (snapshot ++ text "2-1") ⟨by decide +kernel, by decide +kernel, by decide +kernel⟩
    ⟨by decide +kernel, by decide +kernel, by decide +kernel⟩).1
  have hparts : parts (snapshot ++ text "1-1") = parts (snapshot ++ text "2-1") := by decide +kernel
  have hzero : vcmp (snapshot ++ text "1-1") (snapshot ++ text "2-1") = 0 :=
    (vcmp_keyed _ _).eq_zero_iff.2 (by unfold vkey; rw [hparts])
  have hkey := hsigns.eq_zero_iff.1 hzero
  have hup := (Prod.ext_iff.1 (congrArg ofLex (Prod.ext_iff.1 (congrArg ofLex hkey)).2)).1
  have hrun : padded (run none (snapshot ++ text "1")) = padded (run none (snapshot ++ text "2")) := by
    rw [padded_run, padded_run]
    have h₁ : (policyParts (snapshot ++ text "1-1")).2.1 = snapshot ++ text "1" := by decide +kernel
    have h₂ : (policyParts (snapshot ++ text "2-1")).2.1 = snapshot ++ text "2" := by decide +kernel
    rw [← h₁, ← h₂]
    exact hup
  have hdiffer : ∃ i, (run none (snapshot ++ text "1")).getD i 0 ≠ (run none (snapshot ++ text "2")).getD i 0 :=
    ⟨(run none (snapshot ++ text "1")).length - 1, by decide +kernel⟩
  obtain ⟨i, hi⟩ := hdiffer
  exact hi (congrFun hrun i)

end BaxOS.Tuxpac
