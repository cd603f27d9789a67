import BaxOS.Lib.Spans

/-!
# Spans in order, none touching the next

`Spaced l` says that the spans of a list stand in order with a gap after each. Such spans share no cell
(`Spaced.tally_le`), a span that shares none with them stands between two of them (`Spaced.around`), and
cells that follow one another, all held, are held by one of them (`Spaced.covers`).
-/

namespace Spans

/-- In order, with a gap after each. -/
def Spaced (l : List Span) : Prop := l.Pairwise fun s t => s.stop < t.first

namespace Spaced

variable {l as bs : List Span} {s m : Span} {p : ℕ}

theorem sublist {l' : List Span} (h : Spaced l) (hsub : l'.Sublist l) : Spaced l' :=
  List.Pairwise.sublist hsub h

/-- A span with a gap on each side put among the others. -/
theorem insert (h : Spaced (as ++ bs)) (ha : ∀ a ∈ as, a.stop < m.first) (hb : ∀ b ∈ bs, m.stop < b.first) :
    Spaced (as ++ m :: bs) := by
  obtain ⟨h₁, h₂, h₃⟩ := List.pairwise_append.1 h
  refine List.pairwise_append.2 ⟨h₁, List.pairwise_cons.2 ⟨hb, h₂⟩, fun a hmem b hmem' => ?_⟩
  rcases List.mem_cons.1 hmem' with rfl | hmem'
  · exact ha a hmem
  · exact h₃ a hmem b hmem'

/-- What comes after a span starts after it. -/
theorem lt_of_append (h : Spaced (as ++ s :: bs)) :
    (∀ a ∈ as, a.stop < s.first) ∧ ∀ b ∈ bs, s.stop < b.first := by
  obtain ⟨-, h₂, h₃⟩ := List.pairwise_append.1 h
  exact ⟨fun a ha => h₃ a ha s List.mem_cons_self, (List.pairwise_cons.1 h₂).1⟩

theorem holds_eq_zero (h : p < s.first ∨ s.stop ≤ p) : s.holds p = 0 := by
  unfold Span.holds
  rw [if_neg]
  omega

theorem tally_eq_zero (h : ∀ s ∈ l, p < s.first ∨ s.stop ≤ p) : tally l p = 0 := by
  induction l with
  | nil => rfl
  | cons s l ih =>
    rw [tally_cons, holds_eq_zero (h s List.mem_cons_self),
      ih fun t ht => h t (List.mem_cons_of_mem s ht)]

/-- **No two share a cell.** -/
theorem tally_le (h : Spaced l) (p : ℕ) : tally l p ≤ 1 := by
  induction l with
  | nil => exact Nat.zero_le 1
  | cons s l ih =>
    obtain ⟨hs, hl⟩ := List.pairwise_cons.1 h
    rw [tally_cons]
    by_cases hp : p < s.stop
    · rw [tally_eq_zero fun t ht => .inl (hp.trans (hs t ht))]
      exact s.holds_le p
    · rw [holds_eq_zero (.inr (not_lt.1 hp)), Nat.zero_add]
      exact ih hl

theorem holds_le_tally_of_mem (h : s ∈ l) (p : ℕ) : s.holds p ≤ tally l p := by
  obtain ⟨i, hi⟩ := List.getElem?_of_mem h
  exact holds_le_tally hi p

/-- **A span that shares no cell with the others stands between those before it and those after.** -/
theorem around (h : Spaced l) (hpos : ∀ s ∈ l, 0 < s.count) (hm : 0 < m.count)
    (hfree : ∀ p, tally l p + m.holds p ≤ 1) :
    ∃ as bs, l = as ++ bs ∧ as.length = l.findIdx (fun r => m.first ≤ r.first) ∧
      (∀ a ∈ as, a.stop ≤ m.first) ∧ ∀ b ∈ bs, m.stop ≤ b.first := by
  set i := l.findIdx (fun r => decide (m.first ≤ r.first))
  have hi : i ≤ l.length := List.findIdx_le_length
  refine ⟨l.take i, l.drop i, (List.take_append_drop i l).symm, ?_, fun a ha => ?_, fun b hb => ?_⟩
  · rw [List.length_take, Nat.min_eq_left hi]
  · obtain ⟨j, hj, rfl⟩ := List.mem_iff_getElem.1 ha
    rw [List.length_take] at hj
    have hlt : j < l.length := by omega
    rw [List.getElem_take]
    have hbefore : l[j].first < m.first := by
      have hnot := List.not_of_lt_findIdx (show j < l.findIdx (fun r => decide (m.first ≤ r.first)) by omega)
      simpa using hnot
    by_contra hcon
    have h₁ : l[j].holds m.first ≤ tally l m.first :=
      holds_le_tally_of_mem (List.getElem_mem _) _
    have h₂ : 0 < l[j].holds m.first := Span.holds_pos.2 ⟨hbefore.le, not_le.1 hcon⟩
    have h₃ : 0 < m.holds m.first := Span.holds_pos.2 ⟨le_rfl, Nat.lt_add_of_pos_right hm⟩
    have := hfree m.first
    omega
  · have hmem : b ∈ l := List.mem_of_mem_drop hb
    have hafter : m.first ≤ b.first := by
      obtain ⟨j, hj, rfl⟩ := List.mem_iff_getElem.1 hb
      rw [List.length_drop] at hj
      rw [List.getElem_drop]
      have hlt : l.findIdx (fun r => decide (m.first ≤ r.first)) < l.length := by omega
      have hfound : m.first ≤ l[i].first := by
        have := List.findIdx_getElem (w := hlt)
        simpa using this
      rcases Nat.eq_zero_or_pos j with rfl | hj0
      · exact hfound
      · have hlater := List.pairwise_iff_getElem.1 h i (i + j) hlt (by omega) (by omega)
        unfold Span.stop at hlater
        omega
    by_contra hcon
    have h₁ : b.holds b.first ≤ tally l b.first := holds_le_tally_of_mem hmem _
    have h₂ : 0 < b.holds b.first := Span.holds_pos.2 ⟨le_rfl, Nat.lt_add_of_pos_right (hpos b hmem)⟩
    have h₃ : 0 < m.holds b.first := Span.holds_pos.2 ⟨hafter, not_le.1 hcon⟩
    have := hfree b.first
    omega

/-- **Cells that follow one another, all held, are held by one span.** -/
theorem covers (h : Spaced l) {a n : ℕ} (hn : 0 < n) (hheld : ∀ i < n, 0 < tally l (a + i)) :
    ∃ s ∈ l, s.first ≤ a ∧ a + n ≤ s.stop := by
  induction l with
  | nil => exact absurd (hheld 0 hn) (lt_irrefl 0)
  | cons s l ih =>
    obtain ⟨hs, hl⟩ := List.pairwise_cons.1 h
    by_cases hfirst : s.first ≤ a ∧ a < s.stop
    · -- the cell past the span's last is held by none, as the next does not touch it
      refine ⟨s, List.mem_cons_self, hfirst.1, ?_⟩
      by_contra hcon
      have hgap : tally (s :: l) s.stop = 0 :=
        tally_eq_zero fun t ht => by
          rcases List.mem_cons.1 ht with rfl | ht
          · exact .inr le_rfl
          · exact .inl (hs t ht)
      have := hheld (s.stop - a) (by omega)
      rw [Nat.add_sub_cancel' hfirst.2.le, hgap] at this
      exact lt_irrefl 0 this
    · -- so it is none of theirs, all of them being after it
      have hrest : ∀ i < n, 0 < tally l (a + i) := by
        have h₀ := hheld 0 hn
        rw [Nat.add_zero, tally_cons, holds_eq_zero (by omega), Nat.zero_add] at h₀
        have hpast : s.stop < a := by
          obtain ⟨j, t, hj, ht⟩ := exists_of_tally_pos h₀
          exact (hs t (List.mem_of_getElem? hj)).trans_le (Span.holds_pos.1 ht).1
        intro i hi
        have := hheld i hi
        rwa [tally_cons, holds_eq_zero (.inr (by omega)), Nat.zero_add] at this
      obtain ⟨t, ht, hcover⟩ := ih hl hrest
      exact ⟨t, List.mem_cons_of_mem s ht, hcover⟩

end Spaced

end Spans
