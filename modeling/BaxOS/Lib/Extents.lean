import Mathlib.Tactic

/-!
# Extents: who owns which run of cells

Owners each hold one run of consecutive cells. `Packed lo hi run` says that the runs lie in
`[lo, hi)` and that no two owners share a cell; giving one owner another run keeps this when the
new run is apart from everybody else's (`Packed.update`).

`hop` looks for room by first fit, hopping past every run in the way until none is. It never passes
a place that is free (`hop_le_of_clear`), it stops (`hops_hop`), and where it stops is free
(`clear_hop`), so what it finds is the least. How a candidate's end is computed is a parameter,
`fin`: on a machine the sum may wrap.
-/

namespace Extents

variable {fuel start : ℕ}

/-- A run: its first cell and how many there are. -/
abbrev Run := ℕ × ℕ

/-- Two runs share no cell. -/
def Apart (r q : Run) : Prop := r.2 = 0 ∨ q.2 = 0 ∨ r.1 + r.2 ≤ q.1 ∨ q.1 + q.2 ≤ r.1

namespace Apart

variable {r q : Run}

theorem symm (h : Apart r q) : Apart q r := by
  unfold Apart at *
  omega

/-- What is apart from a run is apart from every run inside it. -/
theorem mono {p : Run} (h : Apart r q) (h1 : r.1 ≤ p.1) (h2 : p.1 + p.2 ≤ r.1 + r.2) :
    Apart p q := by
  unfold Apart at *
  omega

theorem empty_left (a : ℕ) (q : Run) : Apart (a, 0) q := Or.inl rfl

theorem empty_right (r : Run) (a : ℕ) : Apart r (a, 0) := Or.inr (Or.inl rfl)

end Apart

/-- The owners' runs lie in `[lo, hi)` and no two share a cell. -/
structure Packed {ι : Type*} (lo hi : ℕ) (run : ι → Run) : Prop where
  inside : ∀ i, 0 < (run i).2 → lo ≤ (run i).1 ∧ (run i).1 + (run i).2 ≤ hi
  apart : ∀ i j, i ≠ j → Apart (run i) (run j)

namespace Packed

variable {ι : Type*} {lo hi hi' : ℕ} {run : ι → Run}

theorem mono (h : Packed lo hi run) (hh : hi ≤ hi') : Packed lo hi' run where
  inside i hi := ⟨(h.inside i hi).1, (h.inside i hi).2.trans hh⟩
  apart := h.apart

/-- What lies past `hi` is apart from every owner's run. -/
theorem apart_past (h : Packed lo hi run) {r : Run} (hr : hi ≤ r.1) (i : ι) : Apart r (run i) := by
  by_cases h0 : (run i).2 = 0
  · exact Or.inr (Or.inl h0)
  · have := h.inside i (by omega)
    unfold Apart
    omega

/-- One owner's run replaced by one apart from everybody else's. -/
theorem update [DecidableEq ι] (h : Packed lo hi run) (i : ι) {r : Run}
    (hin : 0 < r.2 → lo ≤ r.1 ∧ r.1 + r.2 ≤ hi) (hap : ∀ j, j ≠ i → Apart r (run j)) :
    Packed lo hi (Function.update run i r) where
  inside j hj := by
    rcases eq_or_ne j i with rfl | hne
    · rw [Function.update_self] at hj ⊢
      exact hin hj
    · rw [Function.update_of_ne hne] at hj ⊢
      exact h.inside j hj
  apart j k hjk := by
    rcases eq_or_ne j i with rfl | hj
    · rw [Function.update_self, Function.update_of_ne hjk.symm]
      exact hap k hjk.symm
    · rw [Function.update_of_ne hj]
      rcases eq_or_ne k i with rfl | hk
      · rw [Function.update_self]
        exact (hap j hj).symm
      · rw [Function.update_of_ne hk]
        exact h.apart j k hjk

/-- One owner's run given up. -/
theorem release [DecidableEq ι] (h : Packed lo hi run) (i : ι) (a : ℕ) :
    Packed lo hi (Function.update run i (a, 0)) :=
  h.update i (fun h0 => absurd h0 (lt_irrefl 0)) fun j _ => Apart.empty_left a (run j)

end Packed

/-! ### First fit -/

/-- One pass over the runs in use, given by first cell and end: the candidate hops past each it
overlaps. The flag says whether it moved. -/
def hopPass (fin : ℕ → ℕ) : List (ℕ × ℕ) → ℕ → Bool → ℕ × Bool
  | [], start, moved => (start, moved)
  | r :: rest, start, moved =>
    if r.1 < fin start ∧ start < r.2 then hopPass fin rest r.2 true
    else hopPass fin rest start moved

/-- Passes until one leaves the candidate where it is. -/
def hop (fin : ℕ → ℕ) (runs : List (ℕ × ℕ)) : ℕ → ℕ → ℕ
  | 0, start => start
  | n + 1, start =>
    match hopPass fin runs start false with
    | (next, true) => hop fin runs n next
    | (next, false) => next

/-- No run in use reaches into the `count` cells from `a` on. -/
def Clear (count : ℕ) (runs : List (ℕ × ℕ)) (a : ℕ) : Prop :=
  ∀ r ∈ runs, a + count ≤ r.1 ∨ r.2 ≤ a

section Hop

variable {fin : ℕ → ℕ} {runs : List (ℕ × ℕ)} {count : ℕ}

theorem hopPass_cons (fin : ℕ → ℕ) (r : ℕ × ℕ) (rest : List (ℕ × ℕ)) (start : ℕ) (moved : Bool) :
    hopPass fin (r :: rest) start moved =
      if r.1 < fin start ∧ start < r.2 then hopPass fin rest r.2 true
      else hopPass fin rest start moved := rfl

theorem hop_succ (fin : ℕ → ℕ) (runs : List (ℕ × ℕ)) (n start : ℕ) :
    hop fin runs (n + 1) start =
      match hopPass fin runs start false with
      | (next, true) => hop fin runs n next
      | (next, false) => next := rfl

theorem hopPass_ge (fin : ℕ → ℕ) (runs : List (ℕ × ℕ)) (start : ℕ) (moved : Bool) :
    start ≤ (hopPass fin runs start moved).1 := by
  induction runs generalizing start moved with
  | nil => exact le_rfl
  | cons r rest ih =>
    rw [hopPass_cons]
    split_ifs with h
    · exact h.2.le.trans (ih r.2 true)
    · exact ih start moved

/-- A pass that does not move the candidate found nothing in its way. -/
theorem hopPass_still {moved : Bool} (h : (hopPass fin runs start moved).2 = false) :
    moved = false ∧ (hopPass fin runs start moved).1 = start ∧
      ∀ r ∈ runs, fin start ≤ r.1 ∨ r.2 ≤ start := by
  induction runs generalizing start moved with
  | nil => exact ⟨h, rfl, fun _ hr => absurd hr List.not_mem_nil⟩
  | cons r rest ih =>
    rw [hopPass_cons] at h ⊢
    split_ifs at h ⊢ with hr
    · exact absurd (ih h).1 (by simp)
    · obtain ⟨h1, h2, h3⟩ := ih h
      refine ⟨h1, h2, fun q hq => ?_⟩
      rcases List.mem_cons.1 hq with rfl | hq
      · omega
      · exact h3 q hq

/-- A pass that moves the candidate takes it to the end of a run that lay past where it was, or
further. -/
theorem hopPass_moved {moved : Bool} (h : (hopPass fin runs start moved).2 = true) :
    moved = true ∨ ∃ r ∈ runs, start < r.2 ∧ r.2 ≤ (hopPass fin runs start moved).1 := by
  induction runs generalizing start moved with
  | nil => exact Or.inl h
  | cons r rest ih =>
    rw [hopPass_cons] at h ⊢
    split_ifs at h ⊢ with hr
    · exact Or.inr ⟨r, List.mem_cons_self, hr.2, hopPass_ge fin rest r.2 true⟩
    · rcases ih h with hm | ⟨q, hq, h1, h2⟩
      · exact Or.inl hm
      · exact Or.inr ⟨q, List.mem_cons_of_mem r hq, h1, h2⟩

/-- A pass never goes by a clear place. -/
theorem hopPass_le_of_clear (hfin : ∀ x, fin x ≤ x + count) {a : ℕ} (ha : Clear count runs a)
    (moved : Bool) (hs : start ≤ a) : (hopPass fin runs start moved).1 ≤ a := by
  induction runs generalizing start moved with
  | nil => exact hs
  | cons r rest ih =>
    have hrest : Clear count rest a := fun q hq => ha q (List.mem_cons_of_mem r hq)
    have hr := ha r List.mem_cons_self
    have hf := hfin start
    rw [hopPass_cons]
    split_ifs with h
    · exact ih hrest true (by omega)
    · exact ih hrest moved hs

theorem hop_ge (runs : List (ℕ × ℕ)) (fuel start : ℕ) : start ≤ hop fin runs fuel start := by
  induction fuel generalizing start with
  | zero => exact le_rfl
  | succ n ih =>
    have hp := hopPass_ge fin runs start false
    rw [hop_succ]
    split
    · rename_i next heq
      rw [heq] at hp
      exact hp.trans (ih next)
    · rename_i next heq
      rw [heq] at hp
      exact hp

/-- **First fit never passes a clear place.** -/
theorem hop_le_of_clear (hfin : ∀ x, fin x ≤ x + count) {a : ℕ} (ha : Clear count runs a)
    (hs : start ≤ a) : hop fin runs fuel start ≤ a := by
  induction fuel generalizing start with
  | zero => exact hs
  | succ n ih =>
    have hp := hopPass_le_of_clear hfin ha false hs
    rw [hop_succ]
    split
    · rename_i next heq
      rw [heq] at hp
      exact ih hp
    · rename_i next heq
      rw [heq] at hp
      exact hp

/-- The runs that end past `start`: each pass that moves the candidate leaves fewer. -/
def ahead (runs : List (ℕ × ℕ)) (start : ℕ) : ℕ := (runs.filter (start < ·.2)).length

theorem ahead_lt {next : ℕ} (h : ∃ r ∈ runs, start < r.2 ∧ r.2 ≤ next) :
    ahead runs next < ahead runs start := by
  unfold ahead
  have hle : start ≤ next := by
    obtain ⟨r, -, h1, h2⟩ := h
    omega
  induction runs with
  | nil => obtain ⟨r, hr, -⟩ := h; exact absurd hr List.not_mem_nil
  | cons q rest ih =>
    have hmono : (rest.filter (next < ·.2)).length ≤ (rest.filter (start < ·.2)).length :=
      (List.monotone_filter_right rest fun r hr => by
        simp only [decide_eq_true_eq] at hr ⊢; omega).length_le
    obtain ⟨r, hr, h1, h2⟩ := h
    rcases List.mem_cons.1 hr with rfl | hr
    · rw [List.filter_cons_of_neg (by simpa using h2), List.filter_cons_of_pos (by simpa using h1),
        List.length_cons]
      omega
    · have := ih ⟨r, hr, h1, h2⟩
      by_cases hq : next < q.2
      · rw [List.filter_cons_of_pos (by simpa using hq),
          List.filter_cons_of_pos (by simp; omega), List.length_cons, List.length_cons]
        omega
      · rw [List.filter_cons_of_neg (by simpa using hq)]
        by_cases hq' : start < q.2
        · rw [List.filter_cons_of_pos (by simpa using hq'), List.length_cons]
          omega
        · rw [List.filter_cons_of_neg (by simpa using hq')]
          exact this

/-- The loop, without a bound on the passes: from `start` it stops at the second place. -/
inductive Hops (fin : ℕ → ℕ) (runs : List (ℕ × ℕ)) : ℕ → ℕ → Prop
  | still {start next : ℕ} (h : hopPass fin runs start false = (next, false)) :
    Hops fin runs start next
  | moved {start next stop : ℕ} (h : hopPass fin runs start false = (next, true))
    (rest : Hops fin runs next stop) : Hops fin runs start stop

/-- **First fit stops**, and where `hop` says: each pass that moves the candidate leaves fewer runs
ahead of it. -/
theorem hops_hop (hf : ahead runs start < fuel) :
    Hops fin runs start (hop fin runs fuel start) := by
  induction fuel generalizing start with
  | zero => omega
  | succ n ih =>
    rw [hop_succ]
    split
    · rename_i next heq
      apply Hops.moved heq
      apply ih
      have hm : false = true ∨ ∃ r ∈ runs, start < r.2 ∧ r.2 ≤ (hopPass fin runs start false).1 :=
        hopPass_moved (by rw [heq])
      rw [heq] at hm
      rcases hm with hm | hm
      · exact absurd hm (by simp)
      · have : ahead runs next < ahead runs start := ahead_lt hm
        omega
    · rename_i next heq
      exact Hops.still heq

/-- Where the loop stops nothing is in the way. -/
theorem Hops.clear {stop : ℕ} (h : Hops fin runs start stop) :
    ∀ r ∈ runs, fin stop ≤ r.1 ∨ r.2 ≤ stop := by
  induction h with
  | @still start next h =>
    have hp : (hopPass fin runs start false).2 = false := by rw [h]
    obtain ⟨-, h2, h3⟩ := hopPass_still hp
    rw [h] at h2
    rw [show next = start from h2]
    exact h3
  | moved _ _ ih => exact ih

/-- **Where first fit stops is clear**, given a pass for each run ahead and one more. -/
theorem clear_hop (fin : ℕ → ℕ) (runs : List (ℕ × ℕ)) (hf : ahead runs start < fuel) :
    ∀ r ∈ runs, fin (hop fin runs fuel start) ≤ r.1 ∨ r.2 ≤ hop fin runs fuel start :=
  (hops_hop hf).clear

theorem ahead_le (runs : List (ℕ × ℕ)) (start : ℕ) : ahead runs start ≤ runs.length :=
  List.length_filter_le _ _

/-- Where first fit stops is where it started, or the end of a run. -/
theorem hopPass_mem (fin : ℕ → ℕ) (runs : List (ℕ × ℕ)) (start : ℕ) (moved : Bool) :
    (hopPass fin runs start moved).1 = start ∨
      ∃ r ∈ runs, r.2 = (hopPass fin runs start moved).1 := by
  induction runs generalizing start moved with
  | nil => exact Or.inl rfl
  | cons r rest ih =>
    rw [hopPass_cons]
    split_ifs
    · rcases ih r.2 true with h | ⟨q, hq, h⟩
      · exact Or.inr ⟨r, List.mem_cons_self, h.symm⟩
      · exact Or.inr ⟨q, List.mem_cons_of_mem r hq, h⟩
    · rcases ih start moved with h | ⟨q, hq, h⟩
      · exact Or.inl h
      · exact Or.inr ⟨q, List.mem_cons_of_mem r hq, h⟩

theorem hop_le {hi : ℕ} (hruns : ∀ r ∈ runs, r.2 ≤ hi) (hs : start ≤ hi) :
    hop fin runs fuel start ≤ hi := by
  induction fuel generalizing start with
  | zero => exact hs
  | succ n ih =>
    have hp : (hopPass fin runs start false).1 ≤ hi := by
      rcases hopPass_mem fin runs start false with h | ⟨r, hr, h⟩
      · rw [h]
        exact hs
      · rw [← h]
        exact hruns r hr
    rw [hop_succ]
    split
    · rename_i next heq
      rw [heq] at hp
      exact ih hp
    · rename_i next heq
      rw [heq] at hp
      exact hp

end Hop

end Extents
