import Mathlib.Tactic

/-!
# Some bits of one word and the rest of another

A word put together under a mask is one of the two just where the other's bits outside the mask are
its own (`merge_eq_iff`), and a word with its low bits cleared is at or a little below what it was
(`toNat_clearLow`).
-/

namespace Masked

variable {w : ℕ}

/-- The bits of `b` in the mask, and those of `a` outside it. -/
def merge (m a b : BitVec w) : BitVec w := (a &&& ~~~ m) ||| (b &&& m)

theorem merge_outside (m a b : BitVec w) : merge m a b &&& ~~~ m = a &&& ~~~ m := by
  unfold merge
  ext i hi
  simp only [BitVec.getElem_and, BitVec.getElem_or, BitVec.getElem_not]
  cases m[i] <;> simp

theorem merge_inside (m b : BitVec w) : merge m b b = b := by
  unfold merge
  ext i hi
  simp only [BitVec.getElem_and, BitVec.getElem_or, BitVec.getElem_not]
  cases m[i] <;> simp

theorem merge_congr {m a a' b : BitVec w} (h : a &&& ~~~ m = a' &&& ~~~ m) :
    merge m a b = merge m a' b := by
  unfold merge
  rw [h]

/-- **A merge is its second word** just where the first has that word's bits outside the mask. -/
theorem merge_eq_iff {m a b : BitVec w} : merge m a b = b ↔ a &&& ~~~ m = b &&& ~~~ m := by
  constructor
  · intro h
    rw [← merge_outside m a b, h]
  · intro h
    rw [merge_congr h, merge_inside]

/-- A word is unchanged by clearing bits it has not. -/
theorem and_not_eq_self_iff {m a : BitVec w} : a &&& ~~~ m = a ↔ a &&& m = 0 := by
  constructor
  · intro h
    rw [← h, BitVec.and_assoc]
    ext i hi
    simp
  · intro h
    ext i hi
    have hi' := congrArg (fun b : BitVec w => b[i]) h
    simp only [BitVec.getElem_and, BitVec.getElem_not] at hi' ⊢
    revert hi'
    cases m[i] <;> cases a[i] <;> simp

/-- **A word with its low bits cleared**. -/
theorem toNat_clearLow (a : BitVec 64) (k : ℕ) (hk : k ≤ 64) :
    (a &&& ~~~ BitVec.ofNat 64 (2 ^ k - 1)).toNat = a.toNat - a.toNat % 2 ^ k := by
  set low := BitVec.ofNat 64 (2 ^ k - 1) with hlow
  have hlt : 2 ^ k ≤ 2 ^ 64 := Nat.pow_le_pow_right (by norm_num) hk
  have hpos : 0 < 2 ^ k := Nat.two_pow_pos k
  have hlowNat : low.toNat = 2 ^ k - 1 := by
    rw [hlow, BitVec.toNat_ofNat, Nat.mod_eq_of_lt (by omega)]
  have hsum : (a &&& ~~~ low) + (a &&& low) = a := by
    rw [BitVec.add_eq_or_of_and_eq_zero]
    · exact merge_inside low a
    · ext i hi
      simp only [BitVec.getElem_and, BitVec.getElem_not]
      cases low[i] <;> simp
  have hmod : (a &&& low).toNat = a.toNat % 2 ^ k := by
    rw [BitVec.toNat_and, hlowNat, Nat.and_two_pow_sub_one_eq_mod]
  have hle : (a &&& ~~~ low).toNat ≤ a.toNat := by
    rw [BitVec.toNat_and]
    exact Nat.and_le_left
  have hmodle := Nat.mod_le a.toNat (2 ^ k)
  have := congrArg BitVec.toNat hsum
  rw [BitVec.toNat_add, hmod] at this
  rcases Nat.lt_or_ge ((a &&& ~~~ low).toNat + a.toNat % 2 ^ k) (2 ^ 64) with hs | hs
  · rw [Nat.mod_eq_of_lt hs] at this
    omega
  · have := a.isLt
    omega

end Masked
