import Mathlib.Tactic

/-!
# Back references, and a window of what they refer to

What was written so far is a list that tokens add to: a letter, or a number of letters each of which is the
one so many back (`Token.apply`). A ring of `w` cells that is written one after another holds the last `w`
of them (`Ring`), which is all that a distance of no more than `w` looks back at (`Ring.get`).
-/

namespace Lz77

variable {α : Type*} {h : List α} {a : α} {d i n w : ℕ} {m : ℕ → α}

/-! ### Tokens -/

/-- What was written once `n` letters have been added, each the one `d` back. -/
def extend (d : ℕ) : ℕ → List α → List α
  | 0, h => h
  | n + 1, h => extend d n (h ++ h[h.length - d]?.toList)

/-- A letter, or letters of which each is the one `dist` back. -/
inductive Token (α : Type*)
  | lit (a : α)
  | ref (len dist : ℕ)

/-- What was written once a token has been added to it. -/
def Token.apply (h : List α) : Token α → List α
  | lit a => h ++ [a]
  | ref len dist => extend dist len h

/-- What was written once tokens have been added. -/
def expand (h : List α) (ts : List (Token α)) : List α := ts.foldl Token.apply h

/-- A distance is within what was written, and within `w`. -/
def Token.Within (w : ℕ) (h : List α) : Token α → Prop
  | lit _ => True
  | ref _ dist => 1 ≤ dist ∧ dist ≤ h.length ∧ dist ≤ w

/-- Every distance is, where it comes. -/
def Within (w : ℕ) : List α → List (Token α) → Prop
  | _, [] => True
  | h, t :: ts => t.Within w h ∧ Within w (t.apply h) ts

theorem length_extend (hd : 1 ≤ d) (hle : d ≤ h.length) (n : ℕ) : (extend d n h).length = h.length + n := by
  induction n generalizing h with
  | zero => rfl
  | succ n ih =>
    have hget : h[h.length - d]? = some h[h.length - d] := List.getElem?_eq_getElem (by omega)
    rw [extend, hget, Option.toList_some, ih (by rw [List.length_append]; omega), List.length_append,
      List.length_singleton]
    omega

theorem prefix_extend (d n : ℕ) (h : List α) : h <+: extend d n h := by
  induction n generalizing h with
  | zero => exact List.prefix_rfl
  | succ n ih => exact (List.prefix_append h _).trans (ih _)

theorem prefix_expand (h : List α) (ts : List (Token α)) : h <+: expand h ts := by
  induction ts generalizing h with
  | nil => exact List.prefix_rfl
  | cons t ts ih =>
    refine List.IsPrefix.trans ?_ (ih _)
    cases t with
    | lit a => exact List.prefix_append h [a]
    | ref len dist => exact prefix_extend dist len h

/-! ### The window -/

/-- A ring of `w` cells holds the last `w` letters written, each in the cell of its number. -/
def Ring (m : ℕ → α) (w : ℕ) (h : List α) : Prop :=
  ∀ i, (hi : i < h.length) → h.length ≤ i + w → m (i % w) = h[i]

theorem ring_nil (m : ℕ → α) (w : ℕ) : Ring m w [] := fun i hi => absurd hi (Nat.not_lt_zero i)

/-- The next letter is written in the next cell. -/
theorem Ring.write (hr : Ring m w h) (a : α) :
    Ring (Function.update m (h.length % w) a) w (h ++ [a]) := by
  intro i hi hlast
  rw [List.length_append, List.length_singleton] at hi hlast
  rcases Nat.lt_succ_iff_lt_or_eq.1 hi with hlt | rfl
  · have hne : i % w ≠ h.length % w := by
      intro heq
      -- Two numbers less than `w` apart are not in one cell.
      have hdvd : w ∣ h.length - i := (Nat.modEq_iff_dvd' hlt.le).1 heq
      exact absurd (Nat.le_of_dvd (by omega) hdvd) (by omega)
    rw [Function.update_of_ne hne, hr i hlt (by omega), List.getElem_append_left hlt]
  · rw [Function.update_self, List.getElem_append_right le_rfl]
    simp

/-- The cell after a cell. -/
theorem cell_succ (hw : 0 < w) (n : ℕ) : (n + 1) % w = if n % w + 1 = w then 0 else n % w + 1 := by
  have hlt := Nat.mod_lt n hw
  rw [← Nat.mod_add_mod]
  split_ifs with hlast
  · rw [hlast, Nat.mod_self]
  · exact Nat.mod_eq_of_lt (by omega)

/-- The cell of the letter `d` back, from the next one to be written on. -/
theorem cell_back (hw : 0 < w) (hd : d ≤ n) (hle : d ≤ w) :
    (if d ≤ n % w then n % w - d else n % w + w - d) = (n - d) % w := by
  obtain ⟨q, r, hr, rfl⟩ : ∃ q r, r < w ∧ n = w * q + r :=
    ⟨n / w, n % w, Nat.mod_lt n hw, (Nat.div_add_mod n w).symm⟩
  rw [Nat.mul_add_mod, Nat.mod_eq_of_lt hr]
  split_ifs with hdr
  · rw [Nat.add_sub_assoc hdr, Nat.mul_add_mod, Nat.mod_eq_of_lt (by omega)]
  · obtain ⟨q, rfl⟩ : ∃ p, q = p + 1 := Nat.exists_eq_add_one_of_ne_zero (by rintro rfl; omega)
    rw [Nat.mul_succ, show w * q + w + r - d = w * q + (r + w - d) by omega, Nat.mul_add_mod,
      Nat.mod_eq_of_lt (by omega)]

theorem Ring.get (hr : Ring m w h) (hd : 1 ≤ d) (hle : d ≤ h.length) (hdw : d ≤ w) :
    h[h.length - d]? = some (m ((h.length - d) % w)) := by
  rw [List.getElem?_eq_getElem (by omega), hr _ (by omega) (by omega)]

/-- The last letters written are in the first cells, where the one before them is in the last. -/
theorem Ring.tail {k : ℕ} (hr : Ring m w h) (hk : k ≤ w) (hkh : k ≤ h.length) (hdvd : w ∣ h.length - k) :
    h.drop (h.length - k) = (List.range k).map m := by
  obtain ⟨q, hq⟩ := hdvd
  apply List.ext_getElem
  · rw [List.length_drop, List.length_map, List.length_range]
    omega
  · intro i hi hi'
    rw [List.length_map, List.length_range] at hi'
    rw [List.getElem_drop, List.getElem_map, List.getElem_range, ← hr _ (by omega) (by omega), hq,
      Nat.mul_add_mod, Nat.mod_eq_of_lt (by omega)]

end Lz77
