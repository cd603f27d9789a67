import Mathlib.Tactic

/-!
# Weighing a table cell by cell

A table of `n` cells and a weight for what a cell may hold: `census n f w` is what the whole table
weighs. Changing one cell changes it by the difference (`census_update`), so that an invariant that
balances several tables is kept by arithmetic.
-/

namespace Census

open Finset Function

variable {α : Type*} {n j k : ℕ} {f g : ℕ → α} {w : α → ℕ}

/-- What the first `n` cells of a table weigh together. -/
def census (n : ℕ) (f : ℕ → α) (w : α → ℕ) : ℕ := ∑ k ∈ range n, w (f k)

theorem census_eq_zero : census n f w = 0 ↔ ∀ k < n, w (f k) = 0 := by
  unfold census
  rw [sum_eq_zero_iff]
  simp

theorem census_mono {w' : α → ℕ} (h : ∀ k < n, w (f k) ≤ w' (f k)) :
    census n f w ≤ census n f w' :=
  sum_le_sum fun k hk => h k (mem_range.1 hk)

theorem census_erase (hk : k < n) (f : ℕ → α) (w : α → ℕ) :
    census n f w = w (f k) + ∑ x ∈ range n \ {k}, w (f x) :=
  sum_eq_add_sum_sdiff_singleton_of_mem (mem_range.2 hk) fun x => w (f x)

/-- **One cell changed.** -/
theorem census_update (hk : k < n) (f : ℕ → α) (w : α → ℕ) (a : α) :
    census n (update f k a) w + w (f k) = census n f w + w a := by
  have hrest : ∑ x ∈ range n \ {k}, w (update f k a x) = ∑ x ∈ range n \ {k}, w (f x) := by
    refine sum_congr rfl fun x hx => ?_
    have hne : x ≠ k := by simpa using (mem_sdiff.1 hx).2
    rw [update_of_ne hne]
  rw [census_erase hk, census_erase hk f, hrest, update_self]
  omega

theorem le_census (hk : k < n) (f : ℕ → α) (w : α → ℕ) : w (f k) ≤ census n f w :=
  single_le_sum (f := fun x => w (f x)) (fun _ _ => Nat.zero_le _) (mem_range.2 hk)

/-- Two cells weigh no more than the table. -/
theorem add_le_census (hj : j < n) (hk : k < n) (hne : j ≠ k) (f : ℕ → α) (w : α → ℕ) :
    w (f j) + w (f k) ≤ census n f w := by
  have hmem : k ∈ range n \ {j} := by simp [hk, hne.symm]
  have hle := single_le_sum (f := fun x => w (f x)) (fun _ _ => Nat.zero_le _) hmem
  rw [census_erase hj]
  exact Nat.add_le_add_left hle _

theorem exists_of_census_pos (h : 0 < census n f w) : ∃ k < n, 0 < w (f k) := by
  by_contra hno
  push Not at hno
  have := census_eq_zero.2 fun k hk => Nat.le_zero.1 (hno k hk)
  omega

end Census
