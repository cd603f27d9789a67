import Mathlib.Tactic
import Mathlib.Combinatorics.Enumerative.DoubleCounting

/-!
# Open addressing round a ring of cells

A hash table of `n` cells. A key's search starts at its home cell and goes round the ring; it ends
at a cell never used. A key given up leaves a cell that searches step over.

`Holds n home cell keys` says that the cells hold exactly the given keys, one cell each, and that
the search for each meets no cell never used before it (`Holds.search`). Adding a key at any cell
its search may stop at keeps this (`Holds.insert`), giving one up keeps it (`Holds.erase`).
-/

namespace Probe

/-- A cell: never used, given up, or holding a key. -/
inductive Cell (κ : Type*)
  | fresh
  | gone
  | full (k : κ)
  deriving DecidableEq

variable {κ : Type*} {n : ℕ} {home : κ → ℕ} {cell : ℕ → Cell κ} {keys : Set κ}

/-- The `t`-th cell from `a` on, round the ring. -/
def ring (n a t : ℕ) : ℕ := (a + t) % n

theorem ring_lt (hn : 0 < n) (a t : ℕ) : ring n a t < n := Nat.mod_lt _ hn

/-- Every cell is met once in a round. -/
theorem exists_ring {p : ℕ} (hp : p < n) (a : ℕ) : ∃ t < n, ring n a t = p := by
  have hn : 0 < n := by omega
  have ha := Nat.mod_lt a hn
  unfold ring
  by_cases h : a % n ≤ p
  · refine ⟨p - a % n, by omega, ?_⟩
    rw [Nat.add_mod, Nat.mod_eq_of_lt (show p - a % n < n by omega),
      show a % n + (p - a % n) = p by omega, Nat.mod_eq_of_lt hp]
  · refine ⟨p + n - a % n, by omega, ?_⟩
    rw [Nat.add_mod, Nat.mod_eq_of_lt (show p + n - a % n < n by omega),
      show a % n + (p + n - a % n) = p + n by omega, Nat.add_mod_right, Nat.mod_eq_of_lt hp]

/-- No cell is met twice in a round. -/
theorem ring_inj {a t u : ℕ} (ht : t < n) (hu : u < n) (h : ring n a t = ring n a u) : t = u := by
  have hm : t % n = u % n := Nat.ModEq.add_left_cancel' a h
  rwa [Nat.mod_eq_of_lt ht, Nat.mod_eq_of_lt hu] at hm

/-- The first `t` cells from `a` on have all been used. -/
def Solid (n : ℕ) (cell : ℕ → Cell κ) (a t : ℕ) : Prop :=
  ∀ u < t, cell (ring n a u) ≠ Cell.fresh

/-- The cells hold exactly `keys`, and every search ends where it should. -/
structure Holds (n : ℕ) (home : κ → ℕ) (cell : ℕ → Cell κ) (keys : Set κ) : Prop where
  sound : ∀ p < n, ∀ k, cell p = .full k → k ∈ keys
  held : ∀ k ∈ keys, ∃ p < n, cell p = .full k
  once : ∀ p < n, ∀ q < n, ∀ k, cell p = .full k → cell q = .full k → p = q
  reach : ∀ k, ∀ t < n, cell (ring n (home k) t) = .full k → Solid n cell (home k) t

namespace Holds

theorem empty (h : ∀ p < n, cell p = .fresh) : Holds n home cell ∅ where
  sound p hp k hk := by rw [h p hp] at hk; cases hk
  held k hk := hk.elim
  once p hp q hq k hk := by rw [h p hp] at hk; cases hk
  reach k t ht hk := by
    rw [h _ (ring_lt (by omega) _ _)] at hk
    cases hk

theorem congr {cell' : ℕ → Cell κ} (h : Holds n home cell keys)
    (hc : ∀ p < n, cell' p = cell p) : Holds n home cell' keys where
  sound p hp k hk := h.sound p hp k (hc p hp ▸ hk)
  held k hk := by
    obtain ⟨p, hp, hpk⟩ := h.held k hk
    exact ⟨p, hp, (hc p hp).trans hpk⟩
  once p hp q hq k hk hk' := h.once p hp q hq k (hc p hp ▸ hk) (hc q hq ▸ hk')
  reach k t ht hk u hu := by
    have hn : 0 < n := by omega
    rw [hc _ (ring_lt hn _ _)] at hk ⊢
    exact h.reach k t ht hk u hu

/-- **The search for a key finds it**, before any cell never used. -/
theorem search (h : Holds n home cell keys) {k : κ} (hk : k ∈ keys) :
    ∃ t < n, cell (ring n (home k) t) = .full k ∧ Solid n cell (home k) t := by
  obtain ⟨p, hp, hpk⟩ := h.held k hk
  obtain ⟨t, ht, rfl⟩ := exists_ring hp (home k)
  exact ⟨t, ht, hpk, h.reach k t ht hpk⟩

/-- A key added where its search may stop. -/
theorem insert (h : Holds n home cell keys) {k : κ} (hk : k ∉ keys) {t : ℕ} (ht : t < n)
    (hfree : ∀ k', cell (ring n (home k) t) ≠ .full k') (hs : Solid n cell (home k) t) :
    Holds n home (Function.update cell (ring n (home k) t) (.full k)) (insert k keys) := by
  set p := ring n (home k) t with hp
  have hn : 0 < n := by omega
  have hother : ∀ q < n, cell q ≠ .full k := fun q hq hqk => hk (h.sound q hq k hqk)
  constructor
  · intro q hq k' hk'
    rcases eq_or_ne q p with rfl | hne
    · rw [Function.update_self] at hk'
      cases hk'
      exact Set.mem_insert k keys
    · rw [Function.update_of_ne hne] at hk'
      exact Set.mem_insert_of_mem k (h.sound q hq k' hk')
  · rintro k' (rfl | hk')
    · exact ⟨p, ring_lt hn _ _, Function.update_self p _ cell⟩
    · obtain ⟨q, hq, hqk⟩ := h.held k' hk'
      refine ⟨q, hq, ?_⟩
      rw [Function.update_of_ne (fun hqp => hfree k' (by rw [← hqp]; exact hqk)), hqk]
  · intro q hq r hr k' hqk hrk
    rcases eq_or_ne q p with hqp | hqp <;> rcases eq_or_ne r p with hrp | hrp
    · exact hqp.trans hrp.symm
    · rw [hqp, Function.update_self] at hqk
      cases hqk
      rw [Function.update_of_ne hrp] at hrk
      exact absurd hrk (hother r hr)
    · rw [hrp, Function.update_self] at hrk
      cases hrk
      rw [Function.update_of_ne hqp] at hqk
      exact absurd hqk (hother q hq)
    · rw [Function.update_of_ne hqp] at hqk
      rw [Function.update_of_ne hrp] at hrk
      exact h.once q hq r hr k' hqk hrk
  · intro k' u hu hku v hv
    -- a cell once used stays used
    have hused : ∀ q, cell q ≠ .fresh → Function.update cell p (.full k) q ≠ .fresh := by
      intro q hq
      rcases eq_or_ne q p with rfl | hne
      · simp
      · rwa [Function.update_of_ne hne]
    rcases eq_or_ne (ring n (home k') u) p with hup | hup
    · rw [hup, Function.update_self] at hku
      cases hku
      obtain rfl := ring_inj hu ht hup
      exact hused _ (hs v hv)
    · rw [Function.update_of_ne hup] at hku
      exact hused _ (h.reach k' u hu hku v hv)

/-- A key given up. -/
theorem erase (h : Holds n home cell keys) {k : κ} {p : ℕ} (hp : p < n)
    (hpk : cell p = .full k) : Holds n home (Function.update cell p .gone) (keys \ {k}) := by
  constructor
  · intro q hq k' hk'
    rcases eq_or_ne q p with rfl | hne
    · rw [Function.update_self] at hk'; cases hk'
    · rw [Function.update_of_ne hne] at hk'
      refine ⟨h.sound q hq k' hk', fun heq => hne ?_⟩
      rw [Set.mem_singleton_iff] at heq
      exact h.once q hq p hp k (heq ▸ hk') hpk
  · rintro k' ⟨hk', hne⟩
    obtain ⟨q, hq, hqk⟩ := h.held k' hk'
    refine ⟨q, hq, ?_⟩
    have hqp : q ≠ p := by
      rintro rfl
      rw [hpk] at hqk
      cases hqk
      exact hne rfl
    rw [Function.update_of_ne hqp, hqk]
  · intro q hq r hr k' hqk hrk
    rcases eq_or_ne q p with rfl | hqp
    · rw [Function.update_self] at hqk; cases hqk
    rcases eq_or_ne r p with rfl | hrp
    · rw [Function.update_self] at hrk; cases hrk
    rw [Function.update_of_ne hqp] at hqk
    rw [Function.update_of_ne hrp] at hrk
    exact h.once q hq r hr k' hqk hrk
  · intro k' u hu hku v hv
    have hup : ring n (home k') u ≠ p := by
      rintro hup
      rw [hup, Function.update_self] at hku
      cases hku
    rw [Function.update_of_ne hup] at hku
    rcases eq_or_ne (ring n (home k') v) p with hvp | hvp
    · simp [hvp]
    · rw [Function.update_of_ne hvp]
      exact h.reach k' u hu hku v hv

end Holds

/-! ### Counting the cells used -/

/-- How many cells have been used. -/
def used [DecidableEq κ] (n : ℕ) (cell : ℕ → Cell κ) : ℕ :=
  ((Finset.range n).filter fun p => cell p ≠ .fresh).card

section Used

variable [DecidableEq κ]

theorem used_congr {cell' : ℕ → Cell κ} (hc : ∀ p < n, cell' p = cell p) :
    used n cell' = used n cell := by
  unfold used
  congr 1
  refine Finset.filter_congr fun p hp => ?_
  rw [hc p (Finset.mem_range.1 hp)]

theorem used_eq_zero (h : ∀ p < n, cell p = .fresh) : used n cell = 0 := by
  rw [used, Finset.card_eq_zero, Finset.filter_eq_empty_iff]
  exact fun p hp => not_not.2 (h p (Finset.mem_range.1 hp))

/-- Putting something in a cell never used uses one more. -/
theorem used_update_fresh {p : ℕ} (hp : p < n) (h : cell p = .fresh) {c : Cell κ}
    (hc : c ≠ .fresh) : used n (Function.update cell p c) = used n cell + 1 := by
  unfold used
  have : (Finset.range n).filter (fun q => Function.update cell p c q ≠ .fresh) =
      insert p ((Finset.range n).filter fun q => cell q ≠ .fresh) := by
    ext q
    simp only [Finset.mem_filter, Finset.mem_insert, Finset.mem_range]
    rcases eq_or_ne q p with rfl | hne
    · simp [hp, hc]
    · simp [hne]
  rw [this, Finset.card_insert_of_notMem (by simp [h])]

/-- Changing what a used cell holds uses as many. -/
theorem used_update_used {p : ℕ} (h : cell p ≠ .fresh) {c : Cell κ} (hc : c ≠ .fresh) :
    used n (Function.update cell p c) = used n cell := by
  unfold used
  congr 1
  refine Finset.filter_congr fun q _ => ?_
  rcases eq_or_ne q p with rfl | hne
  · simp [h, hc]
  · rw [Function.update_of_ne hne]

/-- While fewer cells are used than there are, one never used is met from anywhere. -/
theorem exists_fresh (h : used n cell < n) (a : ℕ) : ∃ t < n, cell (ring n a t) = .fresh := by
  by_contra hno
  push Not at hno
  have hall : (Finset.range n).filter (fun p => cell p ≠ .fresh) = Finset.range n := by
    refine Finset.filter_true_of_mem fun p hp => ?_
    obtain ⟨t, ht, rfl⟩ := exists_ring (Finset.mem_range.1 hp) a
    exact hno t ht
  rw [used, hall, Finset.card_range] at h
  exact lt_irrefl _ h

/-- There are no more keys held than cells used. -/
theorem Holds.card_le (h : Holds n home cell keys) (s : Finset κ) (hs : ∀ k ∈ s, k ∈ keys) :
    s.card ≤ used n cell := by
  refine Finset.card_le_card_of_forall_subsingleton (fun k p => cell p = .full k) ?_ ?_
  · intro k hk
    obtain ⟨p, hp, hpk⟩ := h.held k (hs k hk)
    exact ⟨p, by simp [hp, hpk], hpk⟩
  · rintro p - k ⟨-, hk⟩ k' ⟨-, hk'⟩
    exact Cell.full.inj (hk.symm.trans hk')

end Used

end Probe
