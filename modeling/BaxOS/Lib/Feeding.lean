import Mathlib.Tactic

/-!
# Sinks that are fed in pieces

A sink takes its input a turn at a time: `turn t d` is its state once it has taken some of what is ahead,
and how much that was. Where a turn that is cut short is taken up by the next one (`Cuttable`), what a
view of the sink shows does not depend on how the input is cut (`Cuttable.pieces`).
-/

namespace Feeding

variable {σ β ρ : Type*}

/-- Turns until nothing is ahead. -/
def feedOn (turn : σ → List β → σ × ℕ) : ℕ → σ → List β → σ
  | 0, t, _ => t
  | n + 1, t, d => if d.isEmpty then t else feedOn turn n (turn t d).1 (d.drop (turn t d).2)

/-- All that is ahead is fed. -/
def feed (turn : σ → List β → σ × ℕ) (t : σ) (d : List β) : σ := feedOn turn d.length t d

/-- In the states that are `ok`, a turn takes something; what it shows and how much it takes depends on
what is seen of the state; and one that is cut short goes on where it was. -/
structure Cuttable (turn : σ → List β → σ × ℕ) (ok : σ → Prop) (view : σ → ρ) : Prop where
  stays : ∀ {t d}, ok t → ok (turn t d).1
  pos : ∀ {t d}, ok t → d ≠ [] → 0 < (turn t d).2
  le : ∀ {t d}, ok t → (turn t d).2 ≤ d.length
  same : ∀ {t t'} d, view t = view t' →
    view (turn t d).1 = view (turn t' d).1 ∧ (turn t d).2 = (turn t' d).2
  early : ∀ {t a} b, ok t → a ≠ [] → (turn t (a ++ b)).2 ≤ a.length →
    view (turn t (a ++ b)).1 = view (turn t a).1 ∧ (turn t (a ++ b)).2 = (turn t a).2
  late : ∀ {t a b}, ok t → a ≠ [] → a.length < (turn t (a ++ b)).2 →
    (turn t a).2 = a.length ∧ view (turn t (a ++ b)).1 = view (turn (turn t a).1 b).1 ∧
      (turn t (a ++ b)).2 = a.length + (turn (turn t a).1 b).2

@[simp] theorem feed_nil (turn : σ → List β → σ × ℕ) (t : σ) : feed turn t [] = t := rfl

/-- **What each turn keeps.** -/
theorem feed_invariant {turn : σ → List β → σ × ℕ} {P : σ → Prop} (hturn : ∀ t d, P t → P (turn t d).1)
    {t : σ} (ht : P t) (d : List β) : P (feed turn t d) := by
  have hon : ∀ n t d, P t → P (feedOn turn n t d) := by
    intro n
    induction n with
    | zero => exact fun _ _ ht => ht
    | succ n ih =>
      intro t d ht
      rw [feedOn]
      split_ifs
      · exact ht
      · exact ih _ _ (hturn _ _ ht)
  exact hon _ _ _ ht

theorem pieces_invariant {turn : σ → List β → σ × ℕ} {P : σ → Prop} (hturn : ∀ t d, P t → P (turn t d).1)
    {t : σ} (ht : P t) (ps : List (List β)) : P (ps.foldl (feed turn) t) := by
  induction ps generalizing t with
  | nil => exact ht
  | cons p ps ih => exact ih (feed_invariant hturn ht p)

namespace Cuttable

variable {turn : σ → List β → σ × ℕ} {ok : σ → Prop} {view : σ → ρ}

/-- Turns enough are all the same. -/
theorem feedOn_eq (h : Cuttable turn ok view) {t : σ} (ht : ok t) {n m : ℕ} {d : List β}
    (hn : d.length ≤ n) (hm : d.length ≤ m) : feedOn turn n t d = feedOn turn m t d := by
  induction n generalizing t m d with
  | zero =>
    obtain rfl := List.length_eq_zero_iff.1 (Nat.le_zero.1 hn)
    cases m <;> simp [feedOn]
  | succ n ih =>
    rcases eq_or_ne d [] with rfl | hd
    · cases m <;> simp [feedOn]
    have hpos := h.pos ht hd
    have hlen := List.length_pos_iff.2 hd
    cases m with
    | zero => omega
    | succ m =>
      simp only [feedOn, List.isEmpty_iff, hd, if_false]
      exact ih (h.stays ht) (by rw [List.length_drop]; omega) (by rw [List.length_drop]; omega)

/-- **One turn, and the rest.** -/
theorem feed_eq (h : Cuttable turn ok view) {t : σ} (ht : ok t) {d : List β} (hd : d ≠ []) :
    feed turn t d = feed turn (turn t d).1 (d.drop (turn t d).2) := by
  have hpos := h.pos ht hd
  have hlen := List.length_pos_iff.2 hd
  unfold feed
  rw [show d.length = d.length - 1 + 1 by omega, feedOn, if_neg (by simpa using hd)]
  exact h.feedOn_eq (h.stays ht) (by rw [List.length_drop]; omega) le_rfl

theorem feed_ok (h : Cuttable turn ok view) {t : σ} (ht : ok t) (d : List β) : ok (feed turn t d) :=
  feed_invariant (fun _ _ => h.stays) ht d

/-- What is shown in the end depends on what is seen at the start. -/
theorem feed_same (h : Cuttable turn ok view) {t t' : σ} (d : List β) (hview : view t = view t') :
    view (feed turn t d) = view (feed turn t' d) := by
  have hon : ∀ n t t' d, view t = view t' → view (feedOn turn n t d) = view (feedOn turn n t' d) := by
    intro n
    induction n with
    | zero => exact fun _ _ _ h => h
    | succ n ih =>
      intro t t' d hview
      rw [feedOn, feedOn]
      split_ifs
      · exact hview
      · obtain ⟨h1, h2⟩ := h.same d hview
        rw [h2]
        exact ih _ _ _ h1
  exact hon _ _ _ _ hview

/-- **One cut.** -/
theorem feed_append (h : Cuttable turn ok view) {t : σ} (ht : ok t) (a b : List β) :
    view (feed turn t (a ++ b)) = view (feed turn (feed turn t a) b) := by
  induction hn : a.length using Nat.strong_induction_on generalizing t a with
  | _ n ih =>
    rcases eq_or_ne a [] with rfl | ha
    · rfl
    have hab : a ++ b ≠ [] := by simp [ha]
    have hpos := h.pos ht hab
    rw [h.feed_eq ht hab, h.feed_eq ht ha]
    rcases Nat.lt_or_ge a.length (turn t (a ++ b)).2 with hlate | hearly
    · -- The turn goes past the cut.
      obtain ⟨hall, hview, hcount⟩ := h.late ht ha hlate
      have hb : b ≠ [] := by
        rintro rfl
        have := h.le ht (d := a ++ [])
        rw [List.append_nil] at this hlate
        omega
      have hok := h.stays ht (d := a)
      rw [hcount, hall, List.drop_length, feed_nil, h.feed_eq hok hb, List.drop_append,
        List.drop_of_length_le (Nat.le_add_right _ _), Nat.add_sub_cancel_left, List.nil_append]
      exact h.feed_same _ hview
    · -- The turn ends before it.
      obtain ⟨hview, hcount⟩ := h.early b ht ha hearly
      have hlen := List.length_pos_iff.2 ha
      rw [List.drop_append_of_le_length hearly,
        ih _ (by rw [List.length_drop]; omega) (h.stays ht) _ rfl, ← hcount]
      exact h.feed_same b (h.feed_same _ hview)

/-- **However the input is cut.** -/
theorem pieces (h : Cuttable turn ok view) {t : σ} (ht : ok t) (ps : List (List β)) :
    view (ps.foldl (feed turn) t) = view (feed turn t ps.flatten) := by
  induction ps generalizing t with
  | nil => rfl
  | cons p ps ih =>
    rw [List.foldl_cons, List.flatten_cons, h.feed_append ht, ih (h.feed_ok ht p)]

end Cuttable

end Feeding
