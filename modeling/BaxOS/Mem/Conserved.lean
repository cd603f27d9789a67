import BaxOS.Mem.Tidy

/-!
# What putting pages back keeps

`run_add` joins pages to the runs they touch and, where the list is full, lets the smallest run go: onto
the chain, or lost where it is below `LOOSE_FLOOR`. It keeps every page it could, but for one thing: low
pages put back are not themselves counted among the runs when the smallest is looked for
(`runAdd_conserves`).
-/

namespace BaxOS.Mem
open Spans Function Chains Runs

/-! ### The free pages -/

/-- A page met on the chain from a place on. -/
inductive OnChain (word : ℕ → ℕ) : ℕ → ℕ → Prop
  | here {p : ℕ} (h : p ≠ 0) : OnChain word p p
  | next {a p : ℕ} (h : a ≠ 0) (hp : OnChain word (word a) p) : OnChain word a p

/-- A page is free: in a run or on the chain. -/
def Free (s : State) (p : ℕ) : Prop := 0 < tally s.runs p ∨ OnChain s.word s.loose p

/-- A chain's pages are those met on it. -/
theorem onChain_iff {word : ℕ → ℕ} {a p : ℕ} {l : List ℕ}
    (h : Chain (fun p => link (word p)) (link a) l) : OnChain word a p ↔ p ∈ l := by
  induction l generalizing a with
  | nil =>
    have ha : a = 0 := link_eq_none.1 h
    constructor
    · rintro (h | ⟨h, -⟩)
      · exact absurd ha h
      · exact absurd ha h
    · exact fun h => nomatch h
  | cons b l ih =>
    obtain ⟨hb, hl⟩ := h
    obtain ⟨rfl, hne⟩ := link_eq_some.1 hb
    rw [List.mem_cons, ← ih hl]
    constructor
    · rintro (h | ⟨h, hp⟩)
      · exact .inl rfl
      · exact .inr hp
    · rintro (rfl | hp)
      · exact .here hne
      · exact .next hne hp

/-- The allocator has each page once, and its runs are tidy. -/
structure Sound (s : State) (l : List ℕ) : Prop where
  chained : Chained s l
  once : ∀ p, freeOf s l p ≤ 1
  tidy : Tidy s.runs

theorem Sound.free_iff {s : State} {l : List ℕ} (h : Sound s l) (p : ℕ) : Free s p ↔ 0 < freeOf s l p := by
  unfold Free freeOf
  rw [onChain_iff h.chained.linked, ← List.count_pos_iff]
  omega

/-- Pages that are not free. -/
def NoneFree (s : State) (page count : ℕ) : Prop := ∀ p, page ≤ p → p < page + count → ¬ Free s p

theorem Sound.noneFree_iff {s : State} {l : List ℕ} (h : Sound s l) {page count : ℕ} :
    NoneFree s page count ↔ ∀ p, freeOf s l p + (⟨page, count⟩ : Span).holds p ≤ 1 := by
  refine forall_congr' fun p => ?_
  rw [h.free_iff]
  have := h.once p
  constructor
  · intro hp
    unfold Span.holds Span.stop
    split_ifs with hin
    · have := hp hin.1 hin.2
      omega
    · omega
  · intro hp h₁ h₂ h₃
    have : 0 < (⟨page, count⟩ : Span).holds p := Span.holds_pos.2 ⟨h₁, h₂⟩
    omega

/-! ### The chain takes what is high -/

/-- The pages of a run that are high up. -/
def high (r : Span) (p : ℕ) : ℕ := if looseFloor ≤ p then r.holds p else 0

/-- A run that starts high up is high all through. -/
theorem high_of_le {r : Span} (h : looseFloor ≤ r.first) (p : ℕ) : high r p = r.holds p := by
  unfold high
  split_ifs with hp
  · rfl
  · exact (Spaced.holds_eq_zero (.inl (by omega))).symm

/-- **The chain takes the high pages, each once**, and no others. -/
theorem loosen_exact {s : State} {l : List ℕ} {page count : ℕ} (h : Chained s l)
    (hfree : ∀ p, freeOf s l p + (⟨page, count⟩ : Span).holds p ≤ 1) :
    ∃ l', Chained (loosen page count s) l' ∧
      ∀ p, freeOf (loosen page count s) l' p = freeOf s l p + high ⟨page, count⟩ p := by
  induction count generalizing page s l with
  | zero =>
    refine ⟨l, h, fun p => ?_⟩
    unfold high
    rw [Span.holds_empty, ite_self]
    rfl
  | succ count ih =>
    unfold loosen
    have hsplit := fun p => Span.holds_succ page count p
    have hhigh : ∀ p, high ⟨page, count + 1⟩ p =
        (if p = page ∧ looseFloor ≤ page then 1 else 0) + high ⟨page + 1, count⟩ p := by
      intro p
      unfold high
      rw [hsplit p]
      by_cases hp : p = page
      · subst hp
        split_ifs <;> simp_all
      · split_ifs <;> simp_all
    by_cases hlow : page < looseFloor
    · rw [if_pos hlow]
      obtain ⟨l', hl', hfree'⟩ := @ih s l (page + 1) h fun p => by
        have h₁ := hfree p
        have h₂ := hsplit p
        split_ifs at h₂ <;> omega
      refine ⟨l', hl', fun p => ?_⟩
      rw [hfree', hhigh, if_neg fun hp => absurd hp.2 (not_le.2 hlow), Nat.zero_add]
    · rw [if_neg hlow]
      have hnot : page ∉ l := fun hp => by
        have h₁ := hfree page
        have h₂ := hsplit page
        have h₃ := List.count_pos_iff.2 hp
        rw [if_pos rfl] at h₂
        unfold freeOf at h₁
        omega
      have hpush := chained_push h (not_lt.1 hlow) hnot
      obtain ⟨l', hl', hfree'⟩ := @ih _ _ (page + 1) hpush fun p => by
        have h₁ := hfree p
        have h₂ := hsplit p
        unfold freeOf at h₁ ⊢
        rw [List.count_cons]
        by_cases hp : p = page
        · subst hp
          rw [if_pos rfl] at h₂
          simp only [beq_self_eq_true, if_true]
          omega
        · rw [if_neg hp] at h₂
          simp only [beq_iff_eq, Ne.symm hp, if_false]
          omega
      refine ⟨l', hl', fun p => ?_⟩
      rw [hfree', hhigh]
      unfold freeOf
      rw [List.count_cons]
      by_cases hp : p = page
      · subst hp
        simp only [beq_self_eq_true, if_true, true_and, not_lt.1 hlow]
        omega
      · simp only [beq_iff_eq, Ne.symm hp, if_false, hp, false_and]
        omega

/-! ### The smallest run -/

/-- A run is no better to let go of than another that is low. -/
def NoBetter (runs : List Span) (best j : ℕ) : Prop :=
  (runs.getD best default).first < looseFloor →
    (runs.getD j default).first < looseFloor ∧ (runs.getD best default).count ≤ (runs.getD j default).count

theorem NoBetter.refl (runs : List Span) (j : ℕ) : NoBetter runs j j := fun h => ⟨h, le_rfl⟩

theorem NoBetter.trans {runs : List Span} {i j k : ℕ} (h : NoBetter runs i j) (h' : NoBetter runs j k) :
    NoBetter runs i k := fun hi => ⟨(h' (h hi).1).1, (h hi).2.trans (h' (h hi).1).2⟩

/-- A comparison of `run_add`: the run that is kept as the best is no worse than the other. -/
theorem noBetter_of_smaller {runs : List Span} {j best : ℕ} (hbest : best < runs.length) :
    (smaller runs j best = true → NoBetter runs j best) ∧
      (smaller runs j best = false → NoBetter runs best j) := by
  unfold smaller NoBetter
  simp only [decide_eq_true_eq, decide_eq_false_iff_not, hbest, true_and]
  constructor
  · rintro (h | ⟨h, -⟩ | ⟨h, hlt⟩) hlow
    · omega
    · omega
    · exact ⟨not_le.1 fun hb => absurd (h.2 hb) (not_le.2 hlow), hlt.le⟩
  · intro h hlow
    push Not at h
    obtain ⟨-, h₁, h₂⟩ := h
    have hj : ¬ looseFloor ≤ (runs.getD j default).first := fun hj => absurd (h₁ hj) (not_le.2 hlow)
    exact ⟨not_le.1 hj, h₂ ⟨fun h => absurd h hj, fun h => absurd h (not_le.2 hlow)⟩⟩

/-- **The run let go of**: if it is low, all are, and none is smaller. -/
theorem smallest_spec {runs : List Span} {least : Span} (h : runs[smallest runs]? = some least)
    (hlow : least.first < looseFloor) : ∀ r ∈ runs, r.first < looseFloor ∧ least.count ≤ r.count := by
  -- the first comparison makes the first run the best, and from then on the best is a run
  have hfold : ∀ (l : List ℕ) (best : ℕ), best < runs.length → (∀ j ∈ l, j < runs.length) →
      NoBetter runs (l.foldl (fun best j => if smaller runs j best then j else best) best) best ∧
        ∀ j ∈ l, NoBetter runs (l.foldl (fun best j => if smaller runs j best then j else best) best) j := by
    intro l
    induction l with
    | nil => exact fun best _ _ => ⟨.refl runs best, fun _ h => nomatch h⟩
    | cons j l ih =>
      intro best hbest hl
      have hj := hl j List.mem_cons_self
      have hrest : ∀ k ∈ l, k < runs.length := fun k hk => hl k (List.mem_cons_of_mem j hk)
      obtain ⟨hyes, hno⟩ := noBetter_of_smaller (j := j) hbest
      rw [List.foldl_cons]
      cases hs : smaller runs j best with
      | true =>
        obtain ⟨h₁, h₂⟩ := ih j hj hrest
        simp only [if_true]
        refine ⟨h₁.trans (hyes hs), fun k hk => ?_⟩
        rcases List.mem_cons.1 hk with rfl | hk
        · exact h₁
        · exact h₂ k hk
      | false =>
        obtain ⟨h₁, h₂⟩ := ih best hbest hrest
        simp only [Bool.false_eq_true, if_false]
        refine ⟨h₁, fun k hk => ?_⟩
        rcases List.mem_cons.1 hk with rfl | hk
        · exact h₁.trans (hno hs)
        · exact h₂ k hk
  obtain ⟨n, hn⟩ : ∃ n, runs.length = n + 1 :=
    ⟨runs.length - 1, by have := (List.getElem?_eq_some_iff.1 h).1; omega⟩
  have hall : ∀ j < runs.length, NoBetter runs (smallest runs) j := by
    unfold smallest
    rw [hn, List.range_succ_eq_map, List.foldl_cons]
    have hfirst : smaller runs 0 (n + 1) = true := by
      unfold smaller
      rw [decide_eq_true_eq]
      exact .inl hn.symm
    rw [if_pos hfirst]
    obtain ⟨h₁, h₂⟩ := hfold ((List.range n).map Nat.succ) 0 (by omega) fun j hj => by
      obtain ⟨i, hi, rfl⟩ := List.mem_map.1 hj
      have := List.mem_range.1 hi
      omega
    intro j hj
    cases j with
    | zero => exact h₁
    | succ j => exact h₂ (j + 1) (List.mem_map_of_mem (List.mem_range.2 (by omega)))
  intro r hr
  obtain ⟨j, hj⟩ := List.getElem?_of_mem hr
  have := hall j (List.getElem?_eq_some_iff.1 hj).1
  unfold NoBetter at this
  rw [getD_of_getElem? h, getD_of_getElem? hj] at this
  exact this hlow

/-! ### What `run_add` keeps -/

/-- The low pages of a run. -/
def low (r : Span) (p : ℕ) : ℕ := if looseFloor ≤ p then 0 else r.holds p

theorem high_add_low (r : Span) (p : ℕ) : high r p + low r p = r.holds p := by
  unfold high low
  split_ifs
  · rfl
  · exact Nat.zero_add _

/-- Pages put back among low runs that fill the list and that they do not touch, low themselves. -/
structure Crowded (s : State) (page count : ℕ) : Prop where
  pos : 0 < count
  apart : joined s.runs page count = none
  full : s.runs.length = maxRuns
  low : page < looseFloor
  all : ∀ r ∈ s.runs, r.first < looseFloor

/-- What `run_add` loses: nothing, or the low pages of a run that is the smallest of those there are. -/
structure Loses (s : State) (page count : ℕ) (lost : ℕ → ℕ) : Prop where
  none : ¬ Crowded s page count → ∀ p, lost p = 0
  least : Crowded s page count → ∃ r ∈ s.runs, (∀ r' ∈ s.runs, r.count ≤ r'.count) ∧ lost = Mem.low r

/-- **`run_add` keeps each page it is given and each it had**, but for those it loses. -/
theorem runAdd_exact {s : State} {l : List ℕ} {page count : ℕ} (h : Sound s l)
    (hfree : ∀ p, freeOf s l p + (⟨page, count⟩ : Span).holds p ≤ 1) :
    ∃ l' lost, Sound (runAdd s page count) l' ∧ Loses s page count lost ∧
      ∀ p, freeOf (runAdd s page count) l' p + lost p = freeOf s l p + (⟨page, count⟩ : Span).holds p := by
  have htidy : Tidy (runAdd s page count).runs := runAdd_tidy h.tidy fun p =>
    (Nat.add_le_add_right (Nat.le_add_right _ _) _).trans (hfree p)
  have hput := runAdd_putBack s page count
  generalize runAdd s page count = s' at hput htidy ⊢
  -- where the pages are all kept, the list has no more to say
  have hkept : ¬ Crowded s page count → ∀ l', Chained s' l' →
      (∀ p, freeOf s' l' p = freeOf s l p + (⟨page, count⟩ : Span).holds p) →
      ∃ l' lost, Sound s' l' ∧ Loses s page count lost ∧
        ∀ p, freeOf s' l' p + lost p = freeOf s l p + (⟨page, count⟩ : Span).holds p := by
    intro hnot l' hl' heq
    refine ⟨l', fun _ => 0, ⟨hl', fun p => ?_, htidy⟩, ⟨fun _ _ => rfl, fun hc => absurd hc hnot⟩, heq⟩
    rw [heq]
    exact hfree p
  have hroom := htidy.room
  cases hput with
  | none h0 =>
    refine hkept (fun hc => absurd h0 hc.pos.ne') l h.chained fun p => ?_
    rw [h0, Span.holds_empty, Nat.add_zero]
  | joined hpos runs hj =>
    refine hkept (fun hc => ?_) l ⟨h.chained.linked, h.chained.high, h.chained.count, hroom⟩ fun p => ?_
    · rw [hc.apart] at hj
      exact nomatch hj
    · have := (joined_spec hj).1 p
      unfold freeOf
      simp only
      omega
  | inserted hpos hj hlen =>
    refine hkept (fun hc => hlen hc.full) l ⟨h.chained.linked, h.chained.high, h.chained.count, hroom⟩
      fun p => ?_
    have := tally_insertIdx (p := p) (place_le s.runs page) ⟨page, count⟩
    unfold freeOf
    simp only
    omega
  | loosened hpos hj hfull hs =>
    unfold isSmallest at hs
    rw [decide_eq_true_eq] at hs
    obtain ⟨l', hl', heq⟩ := loosen_exact h.chained hfree
    refine hkept (fun hc => absurd hs.1 (not_le.2 hc.low)) l' hl' fun p => ?_
    rw [heq, high_of_le hs.1]
  | evicted hpos hj hfull hs least hl =>
    have hlt := (List.getElem?_eq_some_iff.1 hl).1
    have hmem := List.mem_of_getElem? hl
    have herase := fun p => tally_eraseIdx (p := p) hl
    generalize hk : (if smallest s.runs < place s.runs page then place s.runs page - 1
      else place s.runs page) = k at htidy hroom hkept ⊢
    have hk' : k ≤ (s.runs.eraseIdx (smallest s.runs)).length := by
      rw [List.length_eraseIdx, if_pos hlt, ← hk]
      have := place_le s.runs page
      split_ifs <;> omega
    have hinsert := fun p => tally_insertIdx (p := p) hk' ⟨page, count⟩
    -- the smallest run leaves the list for the chain
    have hout : Chained { s with runs := s.runs.eraseIdx (smallest s.runs) } l := by
      refine ⟨h.chained.linked, h.chained.high, h.chained.count, ?_⟩
      exact (List.length_eraseIdx_le s.runs _).trans h.chained.room
    obtain ⟨l', hl', heq⟩ := @loosen_exact _ l least.first least.count hout fun p => by
      have h₁ := herase p
      have h₂ := h.once p
      show tally (s.runs.eraseIdx (smallest s.runs)) p + l.count p + least.holds p ≤ 1
      unfold freeOf at h₂
      omega
    rw [loosen_setRuns] at hl' heq
    change ∀ p, _ = _ + high least p at heq
    have hchained : Chained { loosen least.first least.count s with
        runs := (s.runs.eraseIdx (smallest s.runs)).insertIdx k ⟨page, count⟩ } l' :=
      ⟨hl'.linked, hl'.high, hl'.count, hroom⟩
    have hfree' : ∀ p, freeOf { loosen least.first least.count s with
        runs := (s.runs.eraseIdx (smallest s.runs)).insertIdx k ⟨page, count⟩ } l' p + low least p =
          freeOf s l p + (⟨page, count⟩ : Span).holds p := by
      intro p
      have h₁ := herase p
      have h₂ := hinsert p
      have h₃ := heq p
      have h₄ := high_add_low least p
      unfold freeOf at h₃ ⊢
      simp only at h₃ ⊢
      omega
    by_cases hhigh : looseFloor ≤ least.first
    · refine hkept (fun hc => absurd hhigh (not_le.2 (hc.all least hmem))) l' hchained fun p => ?_
      have h₁ := hfree' p
      have h₂ := high_add_low least p
      rw [high_of_le hhigh] at h₂
      omega
    · have hall := smallest_spec hl (not_le.1 hhigh)
      have hpage : page < looseFloor := by
        unfold isSmallest at hs
        rw [decide_eq_false_iff_not, getD_of_getElem? hl] at hs
        by_contra hcon
        exact hs ⟨not_lt.1 hcon, .inl (not_le.1 hhigh)⟩
      refine ⟨l', low least, ⟨hchained, fun p => ?_, htidy⟩, ⟨fun hnot => ?_, fun _ => ?_⟩, hfree'⟩
      · have h₁ := hfree' p
        have h₂ := hfree p
        omega
      · exact absurd ⟨hpos, hj, hfull, hpage, fun r hr => (hall r hr).1⟩ hnot
      · exact ⟨least, hmem, fun r hr => (hall r hr).2, rfl⟩

end BaxOS.Mem
