import Mathlib.Tactic
import Mathlib.Data.List.GetD
import Mathlib.Data.List.TakeDrop

/-!
# Splices

`splice z old offset data` is a list with another laid over it, filled up with `z` where it ends
short of the offset. It is known by what it reads as at each place (`getD_splice`,
`map_range_eq_splice`).
-/

namespace Splices

variable {α : Type*} {z : α} {old data : List α} {offset : ℕ}

/-- `old` with `data` over it from `offset` on, and `z` in any gap before. -/
def splice (z : α) (old : List α) (offset : ℕ) (data : List α) : List α :=
  old.takeD offset z ++ data ++ old.drop (offset + data.length)

theorem length_splice : (splice z old offset data).length =
    max old.length (offset + data.length) := by
  simp only [splice, List.length_append, List.takeD_length, List.length_drop]
  omega

theorem getD_takeD (l : List α) (n k : ℕ) :
    (l.takeD n z).getD k z = if k < n then l.getD k z else z := by
  induction n generalizing l k with
  | zero => simp
  | succ n ih =>
    cases k with
    | zero => cases l <;> simp
    | succ k =>
      cases l with
      | nil => simp
      | cons a l => simpa using ih l k

/-- What a splice reads as: the data where it lies, the old list around it. -/
theorem getD_splice (k : ℕ) : (splice z old offset data).getD k z =
    if offset ≤ k ∧ k < offset + data.length then data.getD (k - offset) z else old.getD k z := by
  unfold splice
  by_cases h1 : k < offset
  · rw [List.append_assoc, List.getD_append _ _ _ _ (by simpa using h1), getD_takeD, if_pos h1,
      if_neg (by omega)]
  · rw [List.append_assoc, List.getD_append_right _ _ _ _ (by simpa using h1), List.takeD_length]
    by_cases h2 : k < offset + data.length
    · rw [if_pos ⟨not_lt.1 h1, h2⟩, List.getD_append _ _ _ _ (by omega)]
    · rw [if_neg (by omega), List.getD_append_right _ _ _ _ (by omega)]
      simp only [List.getD_eq_getElem?_getD, List.getElem?_drop]
      congr 2
      omega

/-- Two lists as long that read the same everywhere are the same. -/
theorem ext_getD {l l' : List α} (hl : l.length = l'.length)
    (h : ∀ k, k < l.length → l.getD k z = l'.getD k z) : l = l' := by
  refine List.ext_getElem hl fun k hk hk' => ?_
  have := h k hk
  rwa [List.getD_eq_getElem _ _ hk, List.getD_eq_getElem _ _ hk'] at this

theorem getD_map_range {f : ℕ → α} {n k : ℕ} (hk : k < n) :
    ((List.range n).map f).getD k z = f k := by
  rw [List.getD_eq_getElem _ _ (by simpa using hk), List.getElem_map, List.getElem_range]

/-- **A splice, byte by byte.** -/
theorem map_range_eq_splice {f : ℕ → α} {n : ℕ} (hn : n = max old.length (offset + data.length))
    (h : ∀ k, k < n → f k = if offset ≤ k ∧ k < offset + data.length
      then data.getD (k - offset) z else old.getD k z) :
    (List.range n).map f = splice z old offset data := by
  refine ext_getD (z := z) (by rw [length_splice, List.length_map, List.length_range, hn]) ?_
  intro k hk
  rw [List.length_map, List.length_range] at hk
  rw [getD_map_range hk, getD_splice, h k hk]

end Splices
