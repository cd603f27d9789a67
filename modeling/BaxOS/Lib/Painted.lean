import Mathlib.Tactic

/-!
# Places painted one after the other

A function changed at one place after another: what it is at a place is what was last put there
(`paint_of_mem`), a place not painted is as it was (`paint_of_notMem`), and painting what is there
already changes nothing.
-/

namespace Painted

variable {P V : Type*} [DecidableEq P] {f : P → V} {ws : List (P × V)} {p : P} {v : V}

/-- The function, painted. -/
def paint (f : P → V) (ws : List (P × V)) : P → V :=
  ws.foldl (fun f w => Function.update f w.1 w.2) f

@[simp] theorem paint_nil (f : P → V) : paint f [] = f := rfl

@[simp] theorem paint_cons (f : P → V) (w : P × V) (ws : List (P × V)) :
    paint f (w :: ws) = paint (Function.update f w.1 w.2) ws := rfl

/-- **A place not painted.** -/
theorem paint_of_notMem (h : ∀ w ∈ ws, w.1 ≠ p) : paint f ws p = f p := by
  induction ws generalizing f with
  | nil => rfl
  | cons w ws ih =>
    rw [paint_cons, ih fun w' hw => h w' (List.mem_cons_of_mem w hw),
      Function.update_of_ne (h w List.mem_cons_self).symm]

/-- **A place painted**, always the same. -/
theorem paint_of_mem (hv : ∀ w ∈ ws, w.1 = p → w.2 = v) (hp : ∃ w ∈ ws, w.1 = p) :
    paint f ws p = v := by
  induction ws generalizing f with
  | nil =>
    obtain ⟨w, hw, -⟩ := hp
    exact absurd hw List.not_mem_nil
  | cons w ws ih =>
    have hv' : ∀ w' ∈ ws, w'.1 = p → w'.2 = v := fun w' hw => hv w' (List.mem_cons_of_mem w hw)
    rw [paint_cons]
    by_cases hrest : ∃ w' ∈ ws, w'.1 = p
    · exact ih hv' hrest
    · have hnone : ∀ w' ∈ ws, w'.1 ≠ p := fun w' hw hc => hrest ⟨w', hw, hc⟩
      obtain ⟨w', hw', hwp⟩ := hp
      have hhead : w' = w := by
        rcases List.mem_cons.1 hw' with h | h
        · exact h
        · exact absurd hwp (hnone w' h)
      subst hhead
      rw [paint_of_notMem hnone, ← hwp, Function.update_self]
      exact hv w' List.mem_cons_self hwp

end Painted
