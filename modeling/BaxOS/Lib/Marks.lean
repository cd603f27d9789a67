import Mathlib.Logic.Relation
import BaxOS.Lib.Census

/-!
# Marking what is reached, in passes

Numbers below `n` are marked along edges: a pass goes through the marked ones and marks what each has
an edge to, and there is another pass as long as one marks something. What is marked in the end is
what was marked at first and all it reaches (`marks_iff`).
-/

namespace Marks
open Function Relation Census

variable (edge : ℕ → ℕ → Bool) (n : ℕ)

/-- What number `i` has an edge to is marked, and whether that was new. -/
def sweep (i : ℕ) (s : (ℕ → Bool) × Bool) : (ℕ → Bool) × Bool :=
  (List.range n).foldl (fun s j => if !s.1 j && edge i j then (update s.1 j true, true) else s) s

/-- One pass. -/
def pass (m : ℕ → Bool) : (ℕ → Bool) × Bool :=
  (List.range n).foldl (fun s i => if s.1 i then sweep edge n i s else s) (m, false)

/-- Passes as long as one marks something. -/
def marks : ℕ → (ℕ → Bool) → ℕ → Bool
  | 0, m => m
  | k + 1, m =>
    let s := pass edge n m
    if s.2 then marks k s.1 else s.1

/-- How many of the numbers are marked. -/
def marked (m : ℕ → Bool) : ℕ := census n m Bool.toNat

variable {edge n}

/-- What a part of a pass does: marks only grow, to what a closed set they are in has, and it says
whether they did. -/
structure Grown (edge : ℕ → ℕ → Bool) (n : ℕ) (s t : (ℕ → Bool) × Bool) : Prop where
  mono : ∀ i, s.1 i = true → t.1 i = true
  sound : ∀ K : ℕ → Prop, (∀ i j, K i → j < n → edge i j = true → K j) →
    (∀ i, s.1 i = true → K i) → ∀ i, t.1 i = true → K i
  same : t.2 = false → t = s
  more : t.2 = true → s.2 = true ∨ marked n s.1 < marked n t.1

variable {s t u : (ℕ → Bool) × Bool} {m : ℕ → Bool} {i j : ℕ}

theorem Grown.refl (s : (ℕ → Bool) × Bool) : Grown edge n s s :=
  ⟨fun _ h => h, fun _ _ h => h, fun _ => rfl, Or.inl⟩

theorem marked_mono {m m' : ℕ → Bool} (h : ∀ i, m i = true → m' i = true) : marked n m ≤ marked n m' := by
  unfold marked census
  exact Finset.sum_le_sum fun i _ => Bool.toNat_le_toNat (Bool.le_iff_imp.2 (h i))

theorem marked_le (m : ℕ → Bool) : marked n m ≤ n := by
  have hle : census n m Bool.toNat ≤ ∑ _i ∈ Finset.range n, 1 :=
    Finset.sum_le_sum fun i _ => Bool.toNat_le (m i)
  rw [Finset.sum_const, Finset.card_range, smul_eq_mul, Nat.mul_one] at hle
  exact hle

theorem Grown.trans (h : Grown edge n s t) (h' : Grown edge n t u) : Grown edge n s u where
  mono i hi := h'.mono i (h.mono i hi)
  sound K hK hs := h'.sound K hK (h.sound K hK hs)
  same hu := by
    have hut := h'.same hu
    rw [hut] at hu ⊢
    exact h.same hu
  more hu := by
    rcases h'.more hu with ht | hlt
    · exact (h.more ht).imp_right fun hlt => hlt.trans_le (marked_mono h'.mono)
    · exact Or.inr ((marked_mono h.mono).trans_lt hlt)

section Loop

variable {β : Type*} {f : (ℕ → Bool) × Bool → β → (ℕ → Bool) × Bool} {l : List β}
  {P : (ℕ → Bool) × Bool → Prop}

/-- What grows at each turn of a loop grows over all of it. -/
theorem grown_foldl (hP : ∀ s t, P s → Grown edge n s t → P t)
    (hf : ∀ s, P s → ∀ b ∈ l, Grown edge n s (f s b)) (hs : P s) : Grown edge n s (l.foldl f s) := by
  induction l generalizing s with
  | nil => exact Grown.refl s
  | cons b l ih =>
    have hb := hf s hs b List.mem_cons_self
    exact hb.trans (ih (fun s hs c hc => hf s hs c (List.mem_cons_of_mem b hc)) (hP s _ hs hb))

/-- A loop that says it changed nothing did not at any turn. -/
theorem turn_of_foldl (hP : ∀ s t, P s → Grown edge n s t → P t)
    (hf : ∀ s, P s → ∀ b ∈ l, Grown edge n s (f s b)) (hs : P s) (hl : (l.foldl f s).2 = false) {b : β}
    (hb : b ∈ l) : f s b = s := by
  induction l generalizing s with
  | nil => exact absurd hb List.not_mem_nil
  | cons c l ih =>
    have hc := hf s hs c List.mem_cons_self
    have hrest := grown_foldl hP (fun s hs d hd => hf s hs d (List.mem_cons_of_mem c hd)) (hP s _ hs hc)
    rw [List.foldl_cons] at hl
    have hsame : f s c = s := hc.same (by rw [← hrest.same hl]; exact hl)
    rcases List.mem_cons.1 hb with rfl | hb
    · exact hsame
    · rw [hsame] at hl
      exact ih (fun s hs d hd => hf s hs d (List.mem_cons_of_mem c hd)) hs hl hb

end Loop

theorem marked_update (hj : j < n) (hm : m j = false) : marked n m < marked n (update m j true) := by
  have hsum := census_update hj m Bool.toNat true
  rw [hm] at hsum
  unfold marked
  simp only [Bool.toNat_false, Bool.toNat_true, Nat.add_zero] at hsum
  omega

theorem sweep_turn (hj : j < n) (hi : s.1 i = true) :
    Grown edge n s (if !s.1 j && edge i j then (update s.1 j true, true) else s) := by
  split_ifs with hnew
  · obtain ⟨hno, hedge⟩ := Bool.and_eq_true_iff.1 hnew
    rw [Bool.not_eq_true'] at hno
    refine ⟨fun k hk => ?_, fun K hK hs k hk => ?_, fun hf => Bool.noConfusion hf,
      fun _ => Or.inr (marked_update hj hno)⟩
    · by_cases hkj : k = j
      · rw [hkj]
        exact update_self ..
      · exact (update_of_ne hkj ..).trans hk
    · by_cases hkj : k = j
      · rw [hkj]
        exact hK i j (hs i hi) hj hedge
      · exact hs k ((update_of_ne hkj ..).symm.trans hk)
  · exact Grown.refl s

theorem sweep_grown (hi : s.1 i = true) : Grown edge n s (sweep edge n i s) :=
  grown_foldl (P := fun s => s.1 i = true) (fun _ _ hs h => h.mono i hs)
    (fun _ hs _ hj => sweep_turn (List.mem_range.1 hj) hs) hi

/-- A sweep that marks nothing finds everything marked. -/
theorem sweep_closed (hi : s.1 i = true) (hs : (sweep edge n i s).2 = false) (hj : j < n)
    (hedge : edge i j = true) : s.1 j = true := by
  have hturn := turn_of_foldl (P := fun s => s.1 i = true) (fun _ _ hs h => h.mono i hs)
    (fun _ hs _ hj => sweep_turn (List.mem_range.1 hj) hs) hi hs (List.mem_range.2 hj)
  by_contra hno
  rw [Bool.not_eq_true] at hno
  rw [hno, hedge] at hturn
  have hmark := congrFun (congrArg Prod.fst hturn) j
  rw [hno] at hmark
  exact Bool.noConfusion ((update_self ..).symm.trans hmark)

theorem pass_turn (s : (ℕ → Bool) × Bool) (i : ℕ) :
    Grown edge n s (if s.1 i then sweep edge n i s else s) := by
  split_ifs with hi
  · exact sweep_grown hi
  · exact Grown.refl s

theorem pass_grown (m : ℕ → Bool) : Grown edge n (m, false) (pass edge n m) :=
  grown_foldl (P := fun _ => True) (fun _ _ _ _ => trivial) (fun s _ i _ => pass_turn s i) trivial

/-- A pass that marks nothing finds everything marked. -/
theorem pass_closed (hm : (pass edge n m).2 = false) (hi : i < n) (hmi : m i = true) (hj : j < n)
    (hedge : edge i j = true) : m j = true := by
  have hturn := turn_of_foldl (P := fun _ => True) (fun _ _ _ _ => trivial)
    (fun s _ i _ => pass_turn s i) trivial hm (List.mem_range.2 hi)
  rw [if_pos (show (m, false).1 i = true from hmi)] at hturn
  exact sweep_closed (s := (m, false)) hmi (by rw [hturn]) hj hedge

/-- What the passes mark: closed where there are enough of them. -/
theorem marks_spec (edge : ℕ → ℕ → Bool) (n : ℕ) (m : ℕ → Bool) (k : ℕ) : (∀ i, m i = true → marks edge n k m i = true) ∧
    (∀ K : ℕ → Prop, (∀ i j, K i → j < n → edge i j = true → K j) → (∀ i, m i = true → K i) →
      ∀ i, marks edge n k m i = true → K i) ∧
    (n < marked n m + k → ∀ i j, i < n → marks edge n k m i = true → j < n → edge i j = true →
      marks edge n k m j = true) := by
  induction k generalizing m with
  | zero =>
    refine ⟨fun _ h => h, fun _ _ h => h, fun hlt => ?_⟩
    have := marked_le (n := n) m
    omega
  | succ k ih =>
    have hg : Grown edge n (m, false) (pass edge n m) := pass_grown m
    unfold marks
    simp only
    split_ifs with hmore
    · obtain ⟨hmono, hsound, hclosed⟩ := ih (pass edge n m).1
      refine ⟨fun i hi => hmono i (hg.mono i hi), fun K hK hs => hsound K hK (hg.sound K hK hs),
        fun hlt => hclosed ?_⟩
      have hlt' : marked n m < marked n (pass edge n m).1 :=
        (hg.more hmore).resolve_left Bool.false_ne_true
      omega
    · rw [Bool.not_eq_true] at hmore
      rw [hg.same hmore]
      exact ⟨fun _ h => h, fun _ _ h => h, fun _ i j hi hmi hj he => pass_closed hmore hi hmi hj he⟩

/-- **What is marked in the end** is what was marked at first and all it reaches. -/
theorem marks_iff (hm : ∀ i, m i = true → i < n) : marks edge n (n + 1) m i = true ↔
    ∃ r, m r = true ∧ ReflTransGen (fun a b => b < n ∧ edge a b = true) r i := by
  obtain ⟨hmono, hsound, hclosed⟩ := marks_spec edge n m (n + 1)
  constructor
  · refine hsound (fun i => ∃ r, m r = true ∧ ReflTransGen _ r i) (fun a b ha hb hedge => ?_)
      (fun r hr => ⟨r, hr, .refl⟩) i
    obtain ⟨r, hr, hreach⟩ := ha
    exact ⟨r, hr, hreach.tail ⟨hb, hedge⟩⟩
  · rintro ⟨r, hr, hreach⟩
    -- along the path, what is reached is marked and below `n`
    have hpath : marks edge n (n + 1) m i = true ∧ i < n := by
      induction hreach with
      | refl => exact ⟨hmono r hr, hm r hr⟩
      | tail _ hstep ih => exact ⟨hclosed (by omega) _ _ ih.2 ih.1 hstep.1 hstep.2, hstep.1⟩
    exact hpath.1

end Marks
