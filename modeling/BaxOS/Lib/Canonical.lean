import Mathlib.Tactic
import Mathlib.Data.Nat.Digits.Lemmas

/-!
# Canonical codes

Codes are given in order of length, each the one after the code before it, made as long as it should be
(`assign`). Those of one length are then a range of numbers, from `first` on (`assign_groups`). The
numbers that the beginnings of a word are (`Grows`) are past the range of each length, one after
another, up to the one they are in, if there is one (`Grows.first_le_iff`): no code begins another.
-/

namespace Canonical

variable {α : Type*} {len : α → ℕ} {g : ℕ → List α} {count : ℕ → ℕ} {v : ℕ → ℕ} {c m n : ℕ}

/-! ### Words -/

/-- A code as its bits, the most significant first. -/
def word (n c : ℕ) : List ℕ := (Nat.digitsAppend 2 n c).reverse

/-- Bits are a code's just where they are worth the code. -/
theorem eq_word_iff {ds : List ℕ} (hlen : ds.length = n) (hlt : ∀ d ∈ ds, d < 2) (hc : c < 2 ^ n) :
    ds = word n c ↔ Nat.ofDigits 2 ds.reverse = c := by
  have hinv := Nat.setInvOn_digitsAppend_ofDigits one_lt_two n
  constructor
  · rintro rfl
    rw [word, List.reverse_reverse]
    exact hinv.2 hc
  · rintro rfl
    rw [word, hinv.1 ⟨by rw [List.length_reverse, hlen], by simpa using hlt⟩, List.reverse_reverse]

/-! ### Codes -/

/-- Codes given in order of length: each is one more than the one before it, which was `width` bits
long, made as long as it should be. -/
def assign (len : α → ℕ) : ℕ → ℕ → List α → List (α × ℕ)
  | _, _, [] => []
  | next, width, a :: as =>
    (a, next * 2 ^ (len a - width)) :: assign len (next * 2 ^ (len a - width) + 1) (len a) as

/-- Where the codes of each length begin, of so many codes of each. -/
def first (count : ℕ → ℕ) : ℕ → ℕ
  | 0 => 0
  | 1 => 0
  | n + 2 => 2 * (first count (n + 1) + count (n + 1))

theorem first_succ (count : ℕ → ℕ) (hn : 0 < n) : first count (n + 1) = 2 * (first count n + count n) := by
  cases n with
  | zero => exact absurd hn (lt_irrefl 0)
  | succ n => rfl

theorem first_congr {count' : ℕ → ℕ} (h : ∀ n, 0 < n → count n = count' n) (n : ℕ) :
    first count n = first count' n := by
  induction n using first.induct with
  | case1 => rfl
  | case2 => rfl
  | case3 n ih => rw [first, first, ih, h (n + 1) n.succ_pos]

theorem assign_widen {next width : ℕ} {as : List α} (has : ∀ a ∈ as, m ≤ len a) (hw : width ≤ m) :
    assign len next width as = assign len (next * 2 ^ (m - width)) m as := by
  cases as with
  | nil => rfl
  | cons a as =>
    have hm := has a List.mem_cons_self
    have hcode : next * 2 ^ (len a - width) = next * 2 ^ (m - width) * 2 ^ (len a - m) := by
      rw [Nat.mul_assoc, ← Nat.pow_add]
      congr 2
      omega
    rw [assign, assign, hcode]

/-- The codes of one length, and those that come after. -/
theorem assign_group {as : List α} (has : ∀ a ∈ as, len a = n) (next : ℕ) (bs : List α) :
    assign len next n (as ++ bs) = as.zipIdx next ++ assign len (next + as.length) n bs := by
  induction as generalizing next with
  | nil => rfl
  | cons a as ih =>
    have ha := has a List.mem_cons_self
    have ih := ih (fun a h => has a (List.mem_cons_of_mem _ h)) (next + 1)
    rw [List.cons_append, assign, ha, Nat.sub_self, pow_zero, mul_one, ih, List.zipIdx_cons,
      List.length_cons, List.cons_append]
    congr 3
    omega

theorem assign_from (hg : ∀ n, ∀ a ∈ g n, len a = n) (hm : 0 < m) (k : ℕ) :
    assign len (first (fun n => (g n).length) m) m ((List.range' m k).flatMap g) =
      (List.range' m k).flatMap fun n => (g n).zipIdx (first (fun n => (g n).length) n) := by
  induction k generalizing m with
  | zero => rfl
  | succ k ih =>
    have hlate : ∀ a ∈ (List.range' (m + 1) k).flatMap g, m + 1 ≤ len a := by
      intro a ha
      obtain ⟨n, hn, hga⟩ := List.mem_flatMap.1 ha
      rw [hg n a hga]
      exact (List.mem_range'_1.1 hn).1
    rw [List.range'_succ, List.flatMap_cons, List.flatMap_cons, assign_group (hg m),
      assign_widen hlate (Nat.le_succ m), Nat.add_sub_cancel_left, pow_one, Nat.mul_comm,
      ← first_succ (fun n => (g n).length) hm, ih m.succ_pos]

/-- **The codes of each length are a range.** -/
theorem assign_groups (hg : ∀ n, ∀ a ∈ g n, len a = n) (k : ℕ) :
    assign len 0 0 ((List.range' 1 k).flatMap g) =
      (List.range' 1 k).flatMap fun n => (g n).zipIdx (first (fun n => (g n).length) n) := by
  have hlate : ∀ a ∈ (List.range' 1 k).flatMap g, 1 ≤ len a := by
    intro a ha
    obtain ⟨n, hn, hga⟩ := List.mem_flatMap.1 ha
    rw [hg n a hga]
    exact (List.mem_range'_1.1 hn).1
  rw [assign_widen hlate (Nat.zero_le 1), Nat.zero_mul]
  exact assign_from hg one_pos k

theorem mem_assign_groups (hg : ∀ n, ∀ a ∈ g n, len a = n) {k : ℕ} {a : α} :
    (a, c) ∈ assign len 0 0 ((List.range' 1 k).flatMap g) ↔
      (1 ≤ len a ∧ len a ≤ k) ∧ first (fun n => (g n).length) (len a) ≤ c ∧
        (g (len a))[c - first (fun n => (g n).length) (len a)]? = some a := by
  simp only [assign_groups hg, List.mem_flatMap, List.mem_range'_1,
    List.mk_mem_zipIdx_iff_le_and_getElem?_sub]
  constructor
  · rintro ⟨n, hn, hle, hget⟩
    obtain rfl := hg n a (List.mem_of_getElem? hget)
    exact ⟨by omega, hle, hget⟩
  · rintro ⟨hn, hle, hget⟩
    exact ⟨len a, by omega, hle, hget⟩

/-! ### Walks -/

/-- The numbers that the first bits of a word are, one bit more at a time. -/
def Grows (v : ℕ → ℕ) : Prop := ∀ n, v (n + 1) / 2 = v n

/-- The first `n` bits are past the codes of `n` bits. -/
def Past (count v : ℕ → ℕ) (n : ℕ) : Prop := first count n + count n ≤ v n

theorem Grows.past_iff (hv : Grows v) (hn : 0 < n) : first count (n + 1) ≤ v (n + 1) ↔ Past count v n := by
  have hgrow := hv n
  rw [first_succ count hn, Past]
  omega

/-- **Not before the codes of `n` bits, and past those of fewer.** -/
theorem Grows.first_le_iff (hv : Grows v) (hn : 0 < n) :
    first count n ≤ v n ↔ ∀ m, 0 < m → m < n → Past count v m := by
  induction n with
  | zero => exact absurd hn (lt_irrefl 0)
  | succ n ih =>
    rcases Nat.eq_zero_or_pos n with rfl | hpos
    · simp only [zero_add, first, Nat.zero_le, true_iff]
      intro m hm hm1
      omega
    rw [hv.past_iff hpos]
    constructor
    · intro hpast m hm hmn
      rcases Nat.lt_succ_iff_lt_or_eq.1 hmn with hlt | rfl
      · exact (ih hpos).1 (le_trans (Nat.le_add_right _ _) hpast) m hm hlt
      · exact hpast
    · intro h
      exact h n hpos n.lt_succ_self

end Canonical
