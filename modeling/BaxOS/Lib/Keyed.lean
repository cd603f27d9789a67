import Mathlib.Tactic
import Mathlib.Order.PiLex
import Mathlib.Data.Prod.Lex

/-!
# Comparisons by a key

A comparison answers with a number's sign. `Keyed cmp key` says that it compares keys: such a comparison
is a total preorder (`Keyed.comparison`), and looking for the greatest finds one
with the greatest key whatever the order it looks in (`greatest_perm`).

`padded l` is a list of integers with zeros after it. Two such are compared at the first place where they
differ.
-/

namespace Comparisons

/-! ### Signs -/

section Signs

variable {κ : Type*} [LinearOrder κ]

/-- A number has the sign of a comparison. -/
structure Signs (z : ℤ) (x y : κ) : Prop where
  pos : 0 < z ↔ y < x
  neg : z < 0 ↔ x < y

namespace Signs

variable {z z' : ℤ} {x y : κ}

theorem of_lt (hz : z < 0) (h : x < y) : Signs z x y where
  pos := ⟨fun hz' => absurd hz' hz.le.not_gt, fun h' => absurd h' h.not_gt⟩
  neg := ⟨fun _ => h, fun _ => hz⟩

theorem of_gt (hz : 0 < z) (h : y < x) : Signs z x y where
  pos := ⟨fun _ => h, fun _ => hz⟩
  neg := ⟨fun hz' => absurd hz' hz.le.not_gt, fun h' => absurd h' h.not_gt⟩

theorem of_eq (hz : z = 0) (h : x = y) : Signs z x y := by
  subst hz h
  exact ⟨by simp, by simp⟩

theorem eq_zero_iff (h : Signs z x y) : z = 0 ↔ x = y := by
  constructor
  · intro hz
    refine le_antisymm (not_lt.1 fun hlt => ?_) (not_lt.1 fun hlt => ?_)
    · exact absurd (h.pos.2 hlt) (by omega)
    · exact absurd (h.neg.2 hlt) (by omega)
  · intro hxy
    have h₁ : ¬ 0 < z := fun hz => (h.pos.1 hz).ne hxy.symm
    have h₂ : ¬ z < 0 := fun hz => (h.neg.1 hz).ne hxy
    omega

theorem nonpos_iff (h : Signs z x y) : z ≤ 0 ↔ x ≤ y := by
  rw [← not_lt, ← not_lt, h.pos]

/-- The same comparison of other keys. -/
theorem map {μ : Type*} [LinearOrder μ] {u v : μ} (h : Signs z x y) (h₁ : x < y ↔ u < v)
    (h₂ : y < x ↔ v < u) : Signs z u v := ⟨h.pos.trans h₂, h.neg.trans h₁⟩

section Lex

variable {μ : Type*} [LinearOrder μ] {u v : μ}

/-- Of pairs, the first parts differ. -/
theorem lex_first (h : Signs z x y) (hz : z ≠ 0) : Signs z (toLex (x, u)) (toLex (y, v)) := by
  rcases lt_or_gt_of_ne hz with hlt | hgt
  · exact .of_lt hlt (Prod.Lex.toLex_lt_toLex.2 (.inl (h.neg.1 hlt)))
  · exact .of_gt hgt (Prod.Lex.toLex_lt_toLex.2 (.inl (h.pos.1 hgt)))

/-- Of pairs, the first parts are the same. -/
theorem lex_second (hxy : x = y) (h : Signs z u v) : Signs z (toLex (x, u)) (toLex (y, v)) := by
  subst hxy
  refine h.map ?_ ?_ <;>
    exact ⟨fun h => Prod.Lex.toLex_lt_toLex.2 (.inr ⟨rfl, h⟩), fun h =>
      (Prod.Lex.toLex_lt_toLex.1 h).elim (fun h => absurd h (lt_irrefl _)) And.right⟩

end Lex

end Signs

end Signs

/-! ### Comparisons -/

section Keyed

variable {α κ : Type*} [LinearOrder κ]

/-- What a comparison's answers are to keep to. -/
structure Comparison (cmp : α → α → ℤ) : Prop where
  opposite : ∀ a b, (cmp a b).sign = -(cmp b a).sign
  self : ∀ a, cmp a a = 0
  trans : ∀ a b c, cmp a b ≤ 0 → cmp b c ≤ 0 → cmp a c ≤ 0

/-- A comparison compares keys. -/
def Keyed (cmp : α → α → ℤ) (key : α → κ) : Prop := ∀ a b, Signs (cmp a b) (key a) (key b)

variable {cmp : α → α → ℤ} {key : α → κ} {a b c : α}

/-- **The other way round the sign is the opposite.** -/
theorem Keyed.opposite (h : Keyed cmp key) (a b : α) : (cmp a b).sign = -(cmp b a).sign := by
  rcases lt_trichotomy (key a) (key b) with hlt | heq | hgt
  · rw [Int.sign_eq_neg_one_of_neg ((h a b).neg.2 hlt), Int.sign_eq_one_of_pos ((h b a).pos.2 hlt)]
  · rw [(h a b).eq_zero_iff.2 heq, (h b a).eq_zero_iff.2 heq.symm]
    rfl
  · rw [Int.sign_eq_one_of_pos ((h a b).pos.2 hgt), Int.sign_eq_neg_one_of_neg ((h b a).neg.2 hgt)]
    rfl

/-- **Everything equals itself.** -/
theorem Keyed.self (h : Keyed cmp key) (a : α) : cmp a a = 0 := (h a a).eq_zero_iff.2 rfl

/-- **What is no more than what is no more than a third is no more than that.** -/
theorem Keyed.trans (h : Keyed cmp key) (hab : cmp a b ≤ 0) (hbc : cmp b c ≤ 0) : cmp a c ≤ 0 :=
  (h a c).nonpos_iff.2 (((h a b).nonpos_iff.1 hab).trans ((h b c).nonpos_iff.1 hbc))

theorem Keyed.comparison (h : Keyed cmp key) : Comparison cmp := ⟨h.opposite, h.self, fun _ _ _ => h.trans⟩

/-- Looking for the greatest: another is taken where it is greater. -/
def greatest (key : α → κ) (x : α) (l : List α) : α := l.foldl (fun x y => if key x < key y then y else x) x

theorem key_greatest (key : α → κ) (x : α) (l : List α) :
    key (greatest key x l) = l.foldl (fun k y => max k (key y)) (key x) := by
  induction l generalizing x with
  | nil => rfl
  | cons y l ih =>
    show key (greatest key (if key x < key y then y else x) l) = _
    rw [ih, List.foldl_cons]
    congr 1
    split_ifs with h
    · exact (max_eq_right h.le).symm
    · exact (max_eq_left (not_lt.1 h)).symm

/-- The greatest is one of those looked at, and none of them is greater. -/
theorem greatest_spec (key : α → κ) (x : α) (l : List α) :
    greatest key x l ∈ x :: l ∧ ∀ y ∈ x :: l, key y ≤ key (greatest key x l) := by
  induction l generalizing x with
  | nil => exact ⟨List.mem_cons_self, fun y hy => by rw [List.mem_singleton.1 hy]; exact le_rfl⟩
  | cons z l ih =>
    obtain ⟨hmem, hle⟩ := ih (if key x < key z then z else x)
    change greatest key x (z :: l) ∈ _ at hmem
    have hfirst := hle _ List.mem_cons_self
    refine ⟨?_, fun y hy => ?_⟩
    · rcases List.mem_cons.1 hmem with heq | hmem
      · rw [heq]
        split_ifs <;> simp
      · exact List.mem_cons_of_mem x (List.mem_cons_of_mem z hmem)
    · change key y ≤ key (greatest key _ l)
      rcases List.mem_cons.1 hy with rfl | hy
      · refine le_trans ?_ hfirst
        split_ifs with h
        · exact h.le
        · exact le_rfl
      · rcases List.mem_cons.1 hy with rfl | hy
        · refine le_trans ?_ hfirst
          split_ifs with h
          · exact le_rfl
          · exact not_lt.1 h
        · exact hle y (List.mem_cons_of_mem _ hy)

/-- Among things in the order of their places the greatest found is the first of the greatest. -/
theorem greatest_placed (key : α → κ) (place : α → ℕ) {x : α} {l : List α}
    (h : (x :: l).Pairwise fun y z => place y ≤ place z) :
    greatest key x l = greatest (fun y => toLex (key y, OrderDual.toDual (place y))) x l := by
  induction l generalizing x with
  | nil => rfl
  | cons z l ih =>
    obtain ⟨hx, hz⟩ := List.pairwise_cons.1 h
    have hless : key x < key z ↔
        toLex (key x, OrderDual.toDual (place x)) < toLex (key z, OrderDual.toDual (place z)) := by
      rw [Prod.Lex.toLex_lt_toLex]
      refine ⟨.inl, fun hor => hor.resolve_right fun heq => ?_⟩
      exact (hx z List.mem_cons_self).not_gt (OrderDual.toDual_lt_toDual.1 heq.2)
    change greatest key (if key x < key z then z else x) l = greatest _ (if _ then z else x) l
    simp only [← hless]
    refine ih ?_
    split_ifs
    · exact hz
    · exact List.pairwise_cons.2 ⟨fun y hy => hx y (List.mem_cons_of_mem z hy),
        (List.pairwise_cons.1 hz).2⟩

/-- **The greatest found has the same key whatever the order it is looked for in.** -/
theorem greatest_perm (key : α → κ) {l l' : List α} (h : l.Perm l') (x : α) :
    key (greatest key x l) = key (greatest key x l') := by
  rw [key_greatest key, key_greatest key]
  refine h.foldl_eq' (fun y _ z _ k => ?_) _
  rw [max_assoc, max_assoc, max_comm (key y)]

end Keyed

/-! ### Lists with zeros after them -/

/-- A list as if it went on with zeros. -/
def padded (l : List ℤ) : Lex (ℕ → ℤ) := toLex fun i => l.getD i 0

section Padded

variable {x y : ℤ} {l l' : List ℤ}

theorem padded_cons_lt (h : x < y) : padded (x :: l) < padded (y :: l') :=
  ⟨0, fun j hj => absurd hj j.not_lt_zero, h⟩

theorem padded_cons_lt_cons : padded (x :: l) < padded (x :: l') ↔ padded l < padded l' := by
  constructor
  · rintro ⟨i, heq, hlt⟩
    cases i with
    | zero => exact absurd hlt (lt_irrefl x)
    | succ i => exact ⟨i, fun j hj => heq (j + 1) (Nat.succ_lt_succ hj), hlt⟩
  · rintro ⟨i, heq, hlt⟩
    refine ⟨i + 1, fun j hj => ?_, hlt⟩
    cases j with
    | zero => rfl
    | succ j => exact heq j (Nat.lt_of_succ_lt_succ hj)

theorem padded_cons_inj : padded (x :: l) = padded (x :: l') ↔ padded l = padded l' := by
  constructor
  · intro h
    refine congrArg toLex (funext fun i => ?_)
    exact congrFun h (i + 1)
  · intro h
    refine congrArg toLex (funext fun i => ?_)
    cases i with
    | zero => rfl
    | succ i => exact congrFun h i

theorem padded_head (h : padded (x :: l) = padded (y :: l')) : x = y := congrFun h 0

theorem padded_cons_nil : padded (x :: l) = padded [] ↔ x = 0 ∧ padded l = padded [] := by
  constructor
  · intro h
    exact ⟨congrFun h 0, congrArg toLex (funext fun i => congrFun h (i + 1))⟩
  · rintro ⟨rfl, h⟩
    refine congrArg toLex (funext fun i => ?_)
    cases i with
    | zero => rfl
    | succ i => exact congrFun h i

/-- Zeros at the end say nothing. -/
theorem padded_zero : padded [0] = padded [] := padded_cons_nil.2 ⟨rfl, rfl⟩

theorem padded_zero_zero : padded [0, 0] = padded [] := (padded_cons_inj.2 padded_zero).trans padded_zero

/-- What stands before both makes no difference. -/
theorem padded_append_lt (p : List ℤ) : padded (p ++ l) < padded (p ++ l') ↔ padded l < padded l' := by
  induction p with
  | nil => rfl
  | cons x p ih => exact padded_cons_lt_cons.trans ih

theorem padded_append_inj (p : List ℤ) : padded (p ++ l) = padded (p ++ l') ↔ padded l = padded l' := by
  induction p with
  | nil => rfl
  | cons x p ih => exact padded_cons_inj.trans ih

theorem Signs.padded_cons {z : ℤ} (h : Signs z (padded l) (padded l')) :
    Signs z (padded (x :: l)) (padded (x :: l')) :=
  h.map padded_cons_lt_cons.symm padded_cons_lt_cons.symm

theorem Signs.padded_append {z : ℤ} (p : List ℤ) (h : Signs z (padded l) (padded l')) :
    Signs z (padded (p ++ l)) (padded (p ++ l')) :=
  h.map (padded_append_lt p).symm (padded_append_lt p).symm

/-- The first numbers differ. -/
theorem Signs.first {z : ℤ} (h : Signs z x y) (hz : z ≠ 0) : Signs z (padded (x :: l)) (padded (y :: l')) := by
  rcases lt_or_gt_of_ne hz with hlt | hgt
  · exact .of_lt hlt (padded_cons_lt (h.neg.1 hlt))
  · exact .of_gt hgt (padded_cons_lt (h.pos.1 hgt))

end Padded

end Comparisons
