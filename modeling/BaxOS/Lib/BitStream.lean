import Mathlib.Tactic
import Mathlib.Data.Nat.Digits.Lemmas

/-!
# Numbers as bits, the least significant first

`lsb k n` are the `k` lowest bits of `n`. A number of some bits shifted past another is the bits of one
after those of the other (`lsb_add_mul`), so a number is read back from the bits that it begins
(`ofDigits_take`).
-/

namespace BitStream

variable {a b i j k m n : ℕ} {l : List ℕ}

/-- The lowest bits of a number, the lowest first. -/
def lsb : ℕ → ℕ → List ℕ
  | 0, _ => []
  | k + 1, n => n % 2 :: lsb k (n / 2)

@[simp] theorem lsb_zero (n : ℕ) : lsb 0 n = [] := rfl

theorem lsb_succ (k n : ℕ) : lsb (k + 1) n = n % 2 :: lsb k (n / 2) := rfl

@[simp] theorem length_lsb (k n : ℕ) : (lsb k n).length = k := by
  induction k generalizing n with
  | zero => rfl
  | succ k ih => rw [lsb_succ, List.length_cons, ih]

/-- The bits past the first few are those of what is left once they are shifted out. -/
theorem lsb_add (j k n : ℕ) : lsb (j + k) n = lsb j n ++ lsb k (n / 2 ^ j) := by
  induction j generalizing n with
  | zero => simp
  | succ j ih => rw [Nat.add_right_comm, lsb_succ, lsb_succ, ih, Nat.div_div_eq_div_mul, Nat.pow_succ', List.cons_append]

theorem lsb_mod (k n : ℕ) : lsb k (n % 2 ^ k) = lsb k n := by
  induction k generalizing n with
  | zero => rfl
  | succ k ih =>
    rw [lsb_succ, lsb_succ, ← ih (n / 2), Nat.pow_succ', Nat.mod_mul_right_mod, Nat.mod_mul_right_div_self]

/-- A number shifted past the bits of another. -/
theorem lsb_add_mul (ha : a < 2 ^ j) (k b : ℕ) : lsb (j + k) (a + 2 ^ j * b) = lsb j a ++ lsb k b := by
  rw [lsb_add, ← lsb_mod j (a + _), Nat.add_mul_mod_self_left, lsb_mod,
    Nat.add_mul_div_left _ _ (Nat.two_pow_pos j), Nat.div_eq_of_lt ha, Nat.zero_add]

theorem ofDigits_lsb (k n : ℕ) : Nat.ofDigits 2 (lsb k n) = n % 2 ^ k := by
  induction k generalizing n with
  | zero => simp [Nat.mod_one]
  | succ k ih => rw [lsb_succ, Nat.ofDigits_cons, ih, Nat.pow_succ', Nat.mod_mul]

theorem ofDigits_lsb_of_lt (h : n < 2 ^ k) : Nat.ofDigits 2 (lsb k n) = n := by
  rw [ofDigits_lsb, Nat.mod_eq_of_lt h]

/-- Numbers of so many bits are told apart by them. -/
theorem lsb_inj (ha : a < 2 ^ k) (hb : b < 2 ^ k) : lsb k a = lsb k b ↔ a = b := by
  constructor
  · intro h
    rw [← ofDigits_lsb_of_lt ha, h, ofDigits_lsb_of_lt hb]
  · rintro rfl
    rfl

/-! ### Bytes -/

/-- Bytes as bits. -/
def bitsOf (l : List UInt8) : List ℕ := l.flatMap fun c => lsb 8 c.toNat

@[simp] theorem bitsOf_nil : bitsOf [] = [] := rfl

@[simp] theorem bitsOf_cons (c : UInt8) (l : List UInt8) : bitsOf (c :: l) = lsb 8 c.toNat ++ bitsOf l := rfl

@[simp] theorem bitsOf_append (l l' : List UInt8) : bitsOf (l ++ l') = bitsOf l ++ bitsOf l' :=
  List.flatMap_append

@[simp] theorem length_bitsOf (l : List UInt8) : (bitsOf l).length = 8 * l.length := by
  induction l with
  | nil => rfl
  | cons c l ih =>
    rw [bitsOf_cons, List.length_append, length_lsb, ih, List.length_cons]
    omega

theorem bitsOf_inj {l l' : List UInt8} : bitsOf l = bitsOf l' ↔ l = l' := by
  constructor
  · intro h
    induction l generalizing l' with
    | nil =>
      have hlen := congrArg List.length h
      rw [length_bitsOf, length_bitsOf, List.length_nil] at hlen
      exact (List.length_eq_zero_iff.1 (by omega)).symm
    | cons c l ih =>
      cases l' with
      | nil =>
        have hlen := congrArg List.length h
        rw [length_bitsOf, length_bitsOf, List.length_cons, List.length_nil] at hlen
        omega
      | cons c' l' =>
        rw [bitsOf_cons, bitsOf_cons] at h
        obtain ⟨hc, hl⟩ := List.append_inj h (by rw [length_lsb, length_lsb])
        rw [lsb_inj c.toNat_lt c'.toNat_lt, UInt8.toNat_inj] at hc
        rw [hc, ih hl]
  · rintro rfl
    rfl

/-- Bytes whose bits begin with those of some bytes begin with those bytes. -/
theorem exists_of_bitsOf {bs cs : List UInt8} (h : bitsOf bs = bitsOf cs ++ l) :
    ∃ ds, bs = cs ++ ds ∧ l = bitsOf ds := by
  have hle : cs.length ≤ bs.length := by
    have hlen := congrArg List.length h
    rw [List.length_append, length_bitsOf, length_bitsOf] at hlen
    omega
  rw [← List.take_append_drop cs.length bs, bitsOf_append] at h
  obtain ⟨hcs, hl⟩ := List.append_inj h (by simp [hle])
  refine ⟨bs.drop cs.length, ?_, hl.symm⟩
  have htake := bitsOf_inj.1 hcs
  calc bs = bs.take cs.length ++ bs.drop cs.length := (List.take_append_drop _ bs).symm
    _ = cs ++ bs.drop cs.length := by rw [htake]

/-- A number of two bytes. -/
theorem lsb_two_bytes (n : ℕ) : lsb 16 n = bitsOf [UInt8.ofNat n, UInt8.ofNat (n / 256)] := by
  rw [bitsOf_cons, bitsOf_cons, bitsOf_nil, List.append_nil, UInt8.toNat_ofNat', UInt8.toNat_ofNat', lsb_mod,
    lsb_mod]
  exact lsb_add 8 8 n

end BitStream
