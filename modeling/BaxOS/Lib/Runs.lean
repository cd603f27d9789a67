import Mathlib.Tactic

/-!
# Runs under a condition

A run takes one step after another. `Along ok step s l` says that each step of the run `l` from `s`
meets a condition in the state it is taken in; what such a step preserves, such a run preserves
(`Along.invariant`).
-/

namespace Runs

variable {σ α : Type*} {ok : σ → α → Prop} {step : σ → α → σ}

/-- Every step of the run meets `ok` where it is taken. -/
def Along (ok : σ → α → Prop) (step : σ → α → σ) : σ → List α → Prop
  | _, [] => True
  | s, a :: l => ok s a ∧ Along ok step (step s a) l

instance Along.decidable [∀ s a, Decidable (ok s a)] : ∀ s l, Decidable (Along ok step s l)
  | _, [] => isTrue trivial
  | s, a :: l =>
    have := Along.decidable (step s a) l
    inferInstanceAs (Decidable (ok s a ∧ Along ok step (step s a) l))

/-- **What each step keeps, a run keeps.** -/
theorem Along.invariant {P : σ → Prop} (hstep : ∀ s a, P s → ok s a → P (step s a)) {s : σ}
    {l : List α} (hs : P s) (h : Along ok step s l) : P (l.foldl step s) := by
  induction l generalizing s with
  | nil => exact hs
  | cons a l ih => exact ih (hstep s a hs h.1) h.2

/-- A condition that the steps of the run meet wherever they are taken. -/
theorem Along.of_forall {s : σ} {l : List α} (h : ∀ a ∈ l, ∀ s, ok s a) : Along ok step s l := by
  induction l generalizing s with
  | nil => trivial
  | cons a l ih =>
    exact ⟨h a List.mem_cons_self s, ih fun b hb => h b (List.mem_cons_of_mem a hb)⟩

/-- A run in two parts. -/
theorem Along.append {s : σ} {l l' : List α} (h : Along ok step s l)
    (h' : Along ok step (l.foldl step s) l') : Along ok step s (l ++ l') := by
  induction l generalizing s with
  | nil => exact h'
  | cons a l ih => exact ⟨h.1, ih h.2 h'⟩

/-- Two conditions at once. -/
theorem Along.and {ok' : σ → α → Prop} {s : σ} {l : List α} (h : Along ok step s l)
    (h' : Along ok' step s l) : Along (fun s a => ok s a ∧ ok' s a) step s l := by
  induction l generalizing s with
  | nil => trivial
  | cons a l ih => exact ⟨⟨h.1, h'.1⟩, ih h.2 h'.2⟩

/-- A condition that another implies wherever an invariant holds. -/
theorem Along.imp {ok' : σ → α → Prop} {P : σ → Prop}
    (hstep : ∀ s a, P s → ok s a → P (step s a)) (himp : ∀ s a, P s → ok s a → ok' s a) {s : σ}
    {l : List α} (hs : P s) (h : Along ok step s l) : Along ok' step s l := by
  induction l generalizing s with
  | nil => trivial
  | cons a l ih => exact ⟨himp s a hs h.1, ih (hstep s a hs h.1) h.2⟩

/-- Two conditions that are one wherever an invariant holds. -/
theorem Along.congr {ok₁ ok₂ : σ → α → Prop} {P : σ → Prop}
    (hstep : ∀ s a, P s → ok s a → P (step s a))
    (hiff : ∀ s a, P s → ok s a → (ok₁ s a ↔ ok₂ s a)) {s : σ} {l : List α} (hs : P s)
    (h : Along ok step s l) : Along ok₁ step s l ↔ Along ok₂ step s l := by
  induction l generalizing s with
  | nil => exact Iff.rfl
  | cons a l ih => exact and_congr (hiff s a hs h.1) (ih (hstep s a hs h.1) h.2)

end Runs
