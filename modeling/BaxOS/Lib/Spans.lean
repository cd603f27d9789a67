import Mathlib.Tactic

/-!
# Spans: how often a cell is held

A span is a run of consecutive cells. `tally spans p` is the number of spans of the list that hold
the cell `p`; every change to the list at one place changes the tally by the spans that go and come
there (`tally_set`, `tally_eraseIdx`, `tally_insertIdx`). No two spans share a cell where the tally
is at most one everywhere.
-/

namespace Spans

/-- A run of cells: the first and how many. -/
structure Span where
  first : ℕ
  count : ℕ
  deriving DecidableEq, Inhabited

namespace Span

/-- The cell past its last. -/
def stop (s : Span) : ℕ := s.first + s.count

/-- How often it holds a cell. -/
def holds (s : Span) (p : ℕ) : ℕ := if s.first ≤ p ∧ p < s.stop then 1 else 0

theorem holds_pos {s : Span} {p : ℕ} : 0 < s.holds p ↔ s.first ≤ p ∧ p < s.stop := by
  unfold holds
  split_ifs with h <;> simp [h]

theorem holds_le (s : Span) (p : ℕ) : s.holds p ≤ 1 := by
  unfold holds
  split_ifs <;> omega

@[simp] theorem holds_empty (a p : ℕ) : (⟨a, 0⟩ : Span).holds p = 0 :=
  if_neg fun h => by
    have h1 : a ≤ p := h.1
    have h2 : p < a + 0 := h.2
    omega

/-- A span with cells more at its end. -/
theorem holds_append (s : Span) (n p : ℕ) :
    (⟨s.first, s.count + n⟩ : Span).holds p = s.holds p + (⟨s.stop, n⟩ : Span).holds p := by
  unfold holds stop
  simp only
  split_ifs <;> omega

/-- A span with cells more at its front. -/
theorem holds_prepend (s : Span) {a n : ℕ} (h : a + n = s.first) (p : ℕ) :
    (⟨a, s.count + n⟩ : Span).holds p = (⟨a, n⟩ : Span).holds p + s.holds p := by
  unfold holds stop
  simp only
  split_ifs <;> omega

/-- A span cut in two. -/
theorem holds_cut (s : Span) {m : ℕ} (h : m ≤ s.count) (p : ℕ) :
    (⟨s.first, m⟩ : Span).holds p + (⟨s.first + m, s.count - m⟩ : Span).holds p = s.holds p := by
  unfold holds stop
  simp only
  split_ifs <;> omega

/-- A span with one cell more at its front. -/
theorem holds_succ (a n p : ℕ) :
    (⟨a, n + 1⟩ : Span).holds p = (if p = a then 1 else 0) + (⟨a + 1, n⟩ : Span).holds p := by
  unfold holds stop
  simp only
  split_ifs <;> omega

theorem holds_one (a p : ℕ) : (⟨a, 1⟩ : Span).holds p = if p = a then 1 else 0 := by
  rw [holds_succ, holds_empty, Nat.add_zero]

end Span

/-- How many of the spans hold a cell. -/
def tally (l : List Span) (p : ℕ) : ℕ := (l.map (·.holds p)).sum

variable {l : List Span} {i p : ℕ} {s : Span}

@[simp] theorem tally_nil (p : ℕ) : tally [] p = 0 := rfl

@[simp] theorem tally_cons (s : Span) (l : List Span) (p : ℕ) :
    tally (s :: l) p = s.holds p + tally l p := by
  unfold tally
  rw [List.map_cons, List.sum_cons]

@[simp] theorem tally_append (l l' : List Span) (p : ℕ) :
    tally (l ++ l') p = tally l p + tally l' p := by
  unfold tally
  rw [List.map_append, List.sum_append]

/-- A span taken out of the list. -/
theorem tally_eraseIdx (h : l[i]? = some s) :
    tally (l.eraseIdx i) p + s.holds p = tally l p := by
  induction l generalizing i with
  | nil => simp at h
  | cons a l ih =>
    cases i with
    | zero =>
      obtain rfl : a = s := by simpa using h
      rw [List.eraseIdx_cons_zero, tally_cons, Nat.add_comm]
    | succ i =>
      rw [List.getElem?_cons_succ] at h
      rw [List.eraseIdx_cons_succ, tally_cons, tally_cons, Nat.add_assoc, ih h]

/-- A span of the list replaced by another. -/
theorem tally_set (h : l[i]? = some s) (s' : Span) :
    tally (l.set i s') p + s.holds p = tally l p + s'.holds p := by
  induction l generalizing i with
  | nil => simp at h
  | cons a l ih =>
    cases i with
    | zero =>
      obtain rfl : a = s := by simpa using h
      rw [List.set_cons_zero, tally_cons, tally_cons]
      omega
    | succ i =>
      rw [List.getElem?_cons_succ] at h
      rw [List.set_cons_succ, tally_cons, tally_cons]
      have := ih h
      omega

/-- A span put in the list. -/
theorem tally_insertIdx (h : i ≤ l.length) (s : Span) :
    tally (l.insertIdx i s) p = tally l p + s.holds p := by
  induction l generalizing i with
  | nil =>
    obtain rfl : i = 0 := by simpa using h
    simp
  | cons a l ih =>
    cases i with
    | zero =>
      rw [List.insertIdx_zero, tally_cons]
      omega
    | succ i =>
      rw [List.length_cons] at h
      rw [List.insertIdx_succ_cons, tally_cons, tally_cons, ih (by omega)]
      omega

/-- A span of the list holds no more than the list does. -/
theorem holds_le_tally (h : l[i]? = some s) (p : ℕ) : s.holds p ≤ tally l p := by
  have := tally_eraseIdx (p := p) h
  omega

/-- A cell some span of the list holds. -/
theorem exists_of_tally_pos (h : 0 < tally l p) : ∃ (i : ℕ) (s : Span), l[i]? = some s ∧ 0 < s.holds p := by
  induction l with
  | nil => simp at h
  | cons a l ih =>
    rw [tally_cons] at h
    rcases Nat.eq_zero_or_pos (a.holds p) with h0 | h0
    · obtain ⟨i, s, h1, h2⟩ := ih (by omega)
      exact ⟨i + 1, s, by rw [List.getElem?_cons_succ, h1], h2⟩
    · exact ⟨0, a, by simp, h0⟩

end Spans
