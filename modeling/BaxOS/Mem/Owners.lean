import BaxOS.Mem.Pages
import BaxOS.Lib.Runs

/-!
# What each call of the page allocator does with pages

`freeOf s l p` says how often the allocator has page `p`: in its runs, and on its chain, whose pages
are those of `l` (`Chained`). `Serves s put s' got` says what a part of a call does: given the pages
`put`, it comes by the pages `got`, and no page is there oftener after it than before; it writes
into no page but those it had or was given. Such parts follow one another (`Serves.trans`) and leave
be what they are not concerned with (`Serves.frame`).

Every part of the allocator is such a step but the one `take_below` makes of `run_take`, which is
one where the rest of the run stays among the runs (`takeBelow_serves`).
-/

namespace BaxOS.Mem
open Spans Function Chains

variable {count i page : ℕ} {runs : List Span} {r : Span}

/-- A link as the chain has it: none where it is 0. -/
def link (v : ℕ) : Option ℕ := if v = 0 then none else some v

theorem link_eq_none {v : ℕ} : link v = none ↔ v = 0 := by
  unfold link
  split_ifs with h <;> simp [h]

theorem link_eq_some {v a : ℕ} : link v = some a ↔ v = a ∧ v ≠ 0 := by
  unfold link
  split_ifs with h <;> simp [h]

/-- The pages on the chain are those of `l`, and there is room for the runs. -/
structure Chained (s : State) (l : List ℕ) : Prop where
  linked : Chain (fun p => link (s.word p)) (link s.loose) l
  high : ∀ p ∈ l, looseFloor ≤ p
  count : s.looseCount = l.length
  room : s.runs.length ≤ maxRuns

/-- How often the allocator has a page. -/
def freeOf (s : State) (l : List ℕ) (p : ℕ) : ℕ := tally s.runs p + l.count p

/-- What a part of a call does: given `put` it comes by `got`. -/
def Serves (s : State) (put : ℕ → ℕ) (s' : State) (got : ℕ → ℕ) : Prop :=
  ∀ l, Chained s l → (∀ p, freeOf s l p + put p ≤ 1) →
    ∃ l', Chained s' l' ∧ (∀ p, freeOf s' l' p + got p ≤ freeOf s l p + put p) ∧
      ∀ p, freeOf s l p + put p = 0 → s'.word p = s.word p

/-- No pages. -/
abbrev nothing : ℕ → ℕ := fun _ => 0

namespace Serves

variable {s s' s'' : State} {put put' got got' : ℕ → ℕ}

theorem refl (s : State) (put : ℕ → ℕ) : Serves s put s put :=
  fun l hl _ => ⟨l, hl, fun _ => le_rfl, fun _ _ => rfl⟩

theorem trans (h : Serves s put s' got) (h' : Serves s' got s'' got') : Serves s put s'' got' := by
  intro l hl hle
  obtain ⟨l1, hl1, h1, hw1⟩ := h l hl hle
  obtain ⟨l2, hl2, h2, hw2⟩ := h' l1 hl1 fun p => (h1 p).trans (hle p)
  refine ⟨l2, hl2, fun p => (h2 p).trans (h1 p), fun p hp => ?_⟩
  have := h1 p
  rw [hw2 p (by omega), hw1 p hp]

/-- Pages a part of a call is not concerned with. -/
theorem frame (h : Serves s put s' got) (x : ℕ → ℕ) :
    Serves s (fun p => put p + x p) s' fun p => got p + x p := by
  intro l hl hle
  obtain ⟨l', hl', h1, hw⟩ := h l hl fun p => by
    have : freeOf s l p + (put p + x p) ≤ 1 := hle p
    omega
  refine ⟨l', hl', fun p => ?_, fun p hp => hw p ?_⟩
  · have := h1 p
    show freeOf s' l' p + (got p + x p) ≤ freeOf s l p + (put p + x p)
    omega
  · have hp : freeOf s l p + (put p + x p) = 0 := hp
    omega

/-- Pages may be given for nothing and lost. -/
theorem weaken (h : Serves s put s' got) (hput : ∀ p, put p ≤ put' p) (hgot : ∀ p, got' p ≤ got p) :
    Serves s put' s' got' := by
  intro l hl hle
  obtain ⟨l', hl', h1, hw⟩ := h l hl fun p => by
    have := hle p
    have := hput p
    omega
  refine ⟨l', hl', fun p => ?_, fun p hp => hw p ?_⟩
  · have := h1 p
    have := hput p
    have := hgot p
    omega
  · have := hput p
    omega

end Serves

/-! ### The chain -/

theorem loosen_runs (page count : ℕ) (s : State) : (loosen page count s).runs = s.runs := by
  induction count generalizing page s with
  | zero => rfl
  | succ count ih =>
    unfold loosen
    rw [ih]
    split_ifs
    all_goals rfl

theorem loosen_setRuns (page count : ℕ) (s : State) (runs : List Span) :
    loosen page count { s with runs := runs } = { loosen page count s with runs := runs } := by
  induction count generalizing page s with
  | zero => rfl
  | succ count ih =>
    unfold loosen
    rw [← ih]
    split_ifs
    all_goals rfl

/-- One page put on the chain. -/
theorem chained_push {s : State} {l : List ℕ} (h : Chained s l)
    (hpage : looseFloor ≤ page) (hnot : page ∉ l) :
    Chained { s with
      word := update s.word page s.loose
      loose := page
      looseCount := s.looseCount + 1 } (page :: l) := by
  refine ⟨⟨?_, ?_⟩, ?_, ?_, h.room⟩
  · exact link_eq_some.2 ⟨rfl, Nat.pos_iff_ne_zero.1 (lt_of_lt_of_le (by decide) hpage)⟩
  · show Chain (fun p => link (update s.word page s.loose p))
      (link (update s.word page s.loose page)) l
    rw [update_self]
    refine h.linked.congr fun p hp => ?_
    rw [update_of_ne]
    rintro rfl
    exact hnot hp
  · intro p hp
    rcases List.mem_cons.1 hp with rfl | hp
    · exact hpage
    · exact h.high p hp
  · rw [List.length_cons, h.count]

theorem loosen_serves (s : State) (page count : ℕ) :
    Serves s (⟨page, count⟩ : Span).holds (loosen page count s) nothing := by
  induction count generalizing page s with
  | zero => exact (Serves.refl s _).weaken (fun _ => le_rfl) fun _ => Nat.zero_le _
  | succ count ih =>
    unfold loosen
    have hsplit : ∀ p, (⟨page, count + 1⟩ : Span).holds p =
        (if p = page then 1 else 0) + (⟨page + 1, count⟩ : Span).holds p :=
      fun p => Span.holds_succ page count p
    split_ifs with hlow
    · exact (ih s (page + 1)).weaken (fun p => by rw [hsplit]; omega) fun _ => le_rfl
    · have hone : Serves s (fun p => if p = page then 1 else 0)
          { s with
            word := update s.word page s.loose
            loose := page
            looseCount := s.looseCount + 1 } nothing := by
        intro l hl hle
        have hnot : page ∉ l := fun hp => by
          have h1 : tally s.runs page + l.count page + (if page = page then 1 else 0) ≤ 1 :=
            hle page
          have h2 := List.count_pos_iff.2 hp
          rw [if_pos rfl] at h1
          omega
        refine ⟨page :: l, chained_push hl (not_lt.1 hlow) hnot, fun p => ?_, fun p hp => ?_⟩
        · unfold freeOf nothing
          simp only [List.count_cons, beq_iff_eq]
          split_ifs <;> omega
        · refine update_of_ne ?_ _ _
          rintro rfl
          simp at hp
      refine ((hone.frame (⟨page + 1, count⟩ : Span).holds).trans
        ((ih _ (page + 1)).weaken ?_ fun _ => le_rfl)).weaken (fun p => ?_) fun _ => le_rfl
      · exact fun p => by simp
      · rw [hsplit]

/-- The chain's first page taken. -/
theorem popped_serves {s : State} (h : s.loose ≠ 0) :
    Serves s nothing s.popped fun p => if p = s.loose then 1 else 0 := by
  intro l hl _
  cases l with
  | nil => exact absurd (link_eq_none.1 hl.linked) h
  | cons a l =>
    obtain ⟨h1, h2⟩ := hl.linked
    obtain ⟨rfl, -⟩ := link_eq_some.1 h1
    refine ⟨l, ⟨h2, fun p hp => hl.high p (List.mem_cons_of_mem _ hp), ?_, hl.room⟩, fun p => ?_,
      fun _ _ => rfl⟩
    · show s.looseCount - 1 = l.length
      rw [hl.count, List.length_cons, Nat.add_sub_cancel]
    · unfold freeOf nothing State.popped
      simp only [List.count_cons, beq_iff_eq]
      split_ifs <;> omega

/-! ### The runs -/

/-- The runs changed, none held oftener for it but by what is given. -/
theorem runs_serves (s : State) {put got : ℕ → ℕ}
    (hroom : s.runs.length ≤ maxRuns → runs.length ≤ maxRuns)
    (h : ∀ p, tally runs p + got p ≤ tally s.runs p + put p) :
    Serves s put { s with runs := runs } got := by
  intro l hl _
  refine ⟨l, ⟨hl.linked, hl.high, hl.count, hroom hl.room⟩, fun p => ?_, fun _ _ => rfl⟩
  have := h p
  show tally runs p + l.count p + got p ≤ tally s.runs p + l.count p + put p
  omega

theorem place_le (runs : List Span) (page : ℕ) : place runs page ≤ runs.length :=
  List.findIdx_le_length

theorem touchesLast_spec
    (h : touchesLast runs i page = some r) : 0 < i ∧ runs[i - 1]? = some r ∧ r.stop = page := by
  unfold touchesLast at h
  obtain ⟨h1, h2⟩ := Option.filter_eq_some_iff.1 h
  split_ifs at h1 with hi
  exact ⟨hi, h1, by simpa using h2⟩

theorem touchesNext_spec
    (h : touchesNext runs i page = some r) : runs[i]? = some r ∧ page = r.first := by
  unfold touchesNext at h
  obtain ⟨h1, h2⟩ := Option.filter_eq_some_iff.1 h
  exact ⟨h1, by simpa using h2⟩

/-- **Pages joined to what they touch**: they are there as well, in one run. -/
theorem joined_spec {runs' : List Span}
    (h : joined runs page count = some runs') :
    (∀ p, tally runs' p = tally runs p + (⟨page, count⟩ : Span).holds p) ∧
    runs'.length ≤ runs.length ∧
    ∃ (j : ℕ) (r : Span), runs'[j]? = some r ∧ r.first ≤ page ∧ page + count ≤ r.stop := by
  unfold joined at h
  simp only at h
  set i := place runs page
  split at h
  · rename_i last hlast
    obtain ⟨hi, hl, hstop⟩ := touchesLast_spec hlast
    have hlen : i - 1 < runs.length := (List.getElem?_eq_some_iff.1 hl).1
    split at h
    · rename_i next hnext
      obtain ⟨hn, hpage⟩ := touchesNext_spec hnext
      obtain rfl := Option.some.inj h
      have hn' : (runs.set (i - 1) ⟨last.first, last.count + count + next.count⟩)[i]? =
          some next := by
        rw [List.getElem?_set_ne (by omega), hn]
      refine ⟨fun p => ?_, ?_, i - 1, ⟨last.first, last.count + count + next.count⟩, ?_, ?_⟩
      · have h1 := tally_eraseIdx (p := p) hn'
        have h2 := tally_set (p := p) hl ⟨last.first, last.count + count + next.count⟩
        have h3 := Span.holds_append last (count + next.count) p
        have h4 := Span.holds_prepend next hpage p
        rw [hstop, Nat.add_comm count next.count, ← Nat.add_assoc] at h3
        rw [Nat.add_right_comm last.count count next.count] at h2 h1 ⊢
        omega
      · rw [List.length_eraseIdx, List.length_set]
        split_ifs <;> omega
      · rw [List.getElem?_eraseIdx_of_lt (by omega), List.getElem?_set_self hlen]
      · unfold Span.stop at hstop ⊢
        simp only
        omega
    · obtain rfl := Option.some.inj h
      refine ⟨fun p => ?_, ?_, i - 1, _, List.getElem?_set_self hlen, ?_⟩
      · have h2 := tally_set (p := p) hl ⟨last.first, last.count + count⟩
        have h3 := Span.holds_append last count p
        rw [hstop] at h3
        omega
      · rw [List.length_set]
      · unfold Span.stop at hstop ⊢
        simp only
        omega
  · split at h
    · rename_i next hnext
      obtain ⟨hn, hpage⟩ := touchesNext_spec hnext
      have hlen : i < runs.length := (List.getElem?_eq_some_iff.1 hn).1
      obtain rfl := Option.some.inj h
      refine ⟨fun p => ?_, ?_, i, _, List.getElem?_set_self hlen, ?_⟩
      · have h2 := tally_set (p := p) hn ⟨page, next.count + count⟩
        have h3 := Span.holds_prepend next hpage p
        omega
      · rw [List.length_set]
      · unfold Span.stop
        simp only
        omega
    · cases h

/-- What is let go of is one of the runs. -/
theorem smallest_lt (h : runs ≠ []) : smallest runs < runs.length := by
  have hfold : ∀ (l : List ℕ) (best : ℕ), (∀ j ∈ l, j < runs.length) →
      (l ≠ [] ∧ best = runs.length ∨ best < runs.length) →
      l.foldl (fun best j => if smaller runs j best then j else best) best < runs.length := by
    intro l
    induction l with
    | nil =>
      intro best _ hb
      rcases hb with ⟨hb, -⟩ | hb
      · exact absurd rfl hb
      · exact hb
    | cons j l ih =>
      intro best hl hb
      rw [List.foldl_cons]
      have hj := hl j List.mem_cons_self
      have hrest : ∀ k ∈ l, k < runs.length := fun k hk => hl k (List.mem_cons_of_mem j hk)
      split_ifs with hs
      · exact ih j hrest (Or.inr hj)
      · refine ih best hrest (Or.inr ?_)
        rcases hb with ⟨-, rfl⟩ | hb
        · exact absurd (by simp [smaller]) hs
        · exact hb
  have hne : List.range runs.length ≠ [] := by
    rw [Ne, List.range_eq_nil]
    exact fun h0 => h (List.length_eq_zero_iff.1 h0)
  exact hfold _ _ (fun j hj => List.mem_range.1 hj) (Or.inl ⟨hne, rfl⟩)

/-- Whether a full list lets go of the pages put back themselves. -/
def spills (runs : List Span) (page count : ℕ) : Bool :=
  (joined runs page count).isNone ∧ runs.length = maxRuns ∧ isSmallest runs page count

/-- **Pages put back are the allocator's, each once; unless they spill, they are in one run.** -/
theorem runAdd_serves (s : State) (page count : ℕ) :
    Serves s (⟨page, count⟩ : Span).holds (runAdd s page count) nothing ∧
    (0 < count → spills s.runs page count = false →
      ∃ (j : ℕ) (r : Span), (runAdd s page count).runs[j]? = some r ∧ r.first ≤ page ∧
        page + count ≤ r.stop) := by
  unfold runAdd
  by_cases h0 : count = 0
  · rw [if_pos h0]
    exact ⟨(Serves.refl s _).weaken (fun _ => le_rfl) fun _ => Nat.zero_le _, fun h => by omega⟩
  rw [if_neg h0]
  have hplace := place_le s.runs page
  split
  · rename_i runs hj
    obtain ⟨h1, h2, h3⟩ := joined_spec hj
    exact ⟨runs_serves s (fun h => h2.trans h) fun p => by rw [h1]; simp, fun _ _ => h3⟩
  · rename_i hj
    simp only
    by_cases hfull : s.runs.length = maxRuns
    · rw [if_pos hfull]
      by_cases hsmall : isSmallest s.runs page count = true
      · rw [if_pos hsmall]
        refine ⟨loosen_serves s page count, fun _ hs => ?_⟩
        simp [spills, hj, hfull, hsmall] at hs
      rw [if_neg hsmall]
      have hne : s.runs ≠ [] := by
        rintro h
        rw [h] at hfull
        simp [maxRuns] at hfull
      have hlt := smallest_lt hne
      set j := smallest s.runs
      have hget : s.runs[j]? = some (s.runs.getD j default) := by
        rw [List.getD_eq_getElem?_getD, List.getElem?_eq_getElem hlt, Option.getD_some]
      set least := s.runs.getD j default
      have hlen : (s.runs.eraseIdx j).length = s.runs.length - 1 := by
        rw [List.length_eraseIdx, if_pos hlt]
      have hi : (if j < place s.runs page then place s.runs page - 1 else place s.runs page) ≤
          (s.runs.eraseIdx j).length := by
        rw [hlen]
        split_ifs <;> omega
      -- the smallest run leaves the list for the chain, and the pages come in its stead
      have hout : Serves s (⟨page, count⟩ : Span).holds { s with runs := s.runs.eraseIdx j }
          fun p => least.holds p + (⟨page, count⟩ : Span).holds p :=
        runs_serves s (fun h => by rw [hlen]; omega) fun p => by
          have := tally_eraseIdx (p := p) hget
          omega
      have hchain := (loosen_serves { s with runs := s.runs.eraseIdx j } least.first
        least.count).frame (⟨page, count⟩ : Span).holds
      have hin : Serves (loosen least.first least.count { s with runs := s.runs.eraseIdx j })
          (⟨page, count⟩ : Span).holds
          { loosen least.first least.count { s with runs := s.runs.eraseIdx j } with
            runs := (s.runs.eraseIdx j).insertIdx _ ⟨page, count⟩ } nothing := runs_serves _
        (fun h => by
          rw [List.length_insertIdx, if_pos hi, hlen]
          omega)
        fun p => by
          rw [loosen_runs, tally_insertIdx hi]
          simp
      rw [loosen_setRuns] at hchain hin
      rw [loosen_runs]
      refine ⟨(hout.trans hchain).trans (hin.weaken (fun p => ?_) fun _ => le_rfl), fun _ _ => ?_⟩
      · simp
      · refine ⟨_, ⟨page, count⟩, by rw [List.getElem?_insertIdx_self, if_pos hi], le_rfl, le_rfl⟩
    · rw [if_neg hfull]
      refine ⟨runs_serves s (fun h => ?_) fun p => ?_, fun _ _ => ?_⟩
      · rw [List.length_insertIdx, if_pos hplace]
        omega
      · rw [tally_insertIdx hplace]
        simp
      · exact ⟨_, ⟨page, count⟩, by rw [List.getElem?_insertIdx_self, if_pos hplace], le_rfl,
          le_rfl⟩

theorem getD_of_getElem? (h : runs[i]? = some r) :
    runs.getD i default = r := by
  rw [List.getD_eq_getElem?_getD, h, Option.getD_some]

theorem lastRun_spec {q : Span → Bool} (h : lastRun runs q = some i) :
    ∃ r, runs[i]? = some r ∧ q r = true := by
  have hi : i < runs.length := by
    simpa using List.mem_of_find?_eq_some h
  have hq := List.find?_some h
  have hget := List.getElem?_eq_getElem hi
  rw [getD_of_getElem? hget] at hq
  exact ⟨_, hget, hq⟩

/-- **A run cut down loses the pages past those it keeps.** -/
theorem keepFirst_spec {left : ℕ} (h : runs[i]? = some r)
    (hleft : left ≤ r.count) :
    (∀ p, tally (keepFirst runs i left) p + (⟨r.first + left, r.count - left⟩ : Span).holds p =
      tally runs p) ∧
    (keepFirst runs i left).length ≤ runs.length ∧
    (left = 0 → (keepFirst runs i left).length < runs.length) := by
  have hi : i < runs.length := (List.getElem?_eq_some_iff.1 h).1
  unfold keepFirst
  rw [getD_of_getElem? h]
  split_ifs with h0
  · subst h0
    rw [List.length_eraseIdx, if_pos hi]
    exact ⟨fun p => tally_eraseIdx h, by omega, fun _ => by omega⟩
  · refine ⟨fun p => ?_, by rw [List.length_set], fun h => absurd h h0⟩
    have h1 := tally_set (p := p) h ⟨r.first, left⟩
    have h2 := r.holds_cut hleft p
    omega

theorem takeTop_serves {s : State} (h : s.runs[i]? = some r)
    (hcount : count ≤ r.count) :
    Serves s nothing (takeTop s i count).2 (⟨(takeTop s i count).1, count⟩ : Span).holds := by
  unfold takeTop
  simp only [getD_of_getElem? h]
  obtain ⟨h1, h2, -⟩ := keepFirst_spec h (Nat.sub_le r.count count)
  refine runs_serves s (fun hr => h2.trans hr) fun p => ?_
  have := h1 p
  rw [Nat.sub_sub_self hcount] at this
  rw [show r.stop - count = r.first + (r.count - count) by unfold Span.stop; omega]
  simp only [nothing]
  omega

/-- The run that holds a page, and what is left of it before the page and after. -/
theorem runTake_cut (hi : (runs.findIdx? fun r => r.first ≤ page ∧ page < r.stop) = some i) :
    ∃ r, runs[i]? = some r ∧ r.first ≤ page ∧ page < r.stop ∧ page - r.first ≤ r.count ∧
      ∀ p, tally (keepFirst runs i (page - r.first)) p + (⟨page, 1⟩ : Span).holds p +
        (⟨page + 1, r.stop - page - 1⟩ : Span).holds p = tally runs p := by
  obtain ⟨hlt, hr, -⟩ := List.findIdx?_eq_some_iff_getElem.1 hi
  have hget := List.getElem?_eq_getElem hlt
  generalize runs[i] = r at hget hr
  obtain ⟨h1, h2⟩ : r.first ≤ page ∧ page < r.stop := by simpa using hr
  have hstop : r.stop = r.first + r.count := rfl
  have hleft : page - r.first ≤ r.count := by omega
  refine ⟨r, hget, h1, h2, hleft, fun p => ?_⟩
  have hp := (keepFirst_spec hget hleft).1 p
  have hone := Span.holds_prepend ⟨page + 1, r.stop - page - 1⟩ (a := page) (n := 1) rfl p
  rw [show r.first + (page - r.first) = page by omega,
    show r.count - (page - r.first) = r.stop - page - 1 + 1 by omega] at hp
  simp only at hone
  omega

/-- **A page taken out of the run that holds it**; the rest of the run is there still unless it
spills. -/
theorem runTake_spec {s s' : State} (h : runTake s page = (true, s')) :
    Serves s nothing s' (⟨page, 1⟩ : Span).holds ∧
    ∃ (i : ℕ) (r : Span), s.runs[i]? = some r ∧ r.first ≤ page ∧ page < r.stop ∧
      (page + 1 < r.stop → spills (keepFirst s.runs i (page - r.first)) (page + 1)
        (r.stop - page - 1) = false →
        ∃ (j : ℕ) (r' : Span), s'.runs[j]? = some r' ∧ r'.first ≤ page + 1 ∧ r.stop ≤ r'.stop) := by
  unfold runTake at h
  split at h
  · cases h
  rename_i i hi
  obtain ⟨r, hget, h1, h2, hleft, h3⟩ := runTake_cut hi
  simp only [getD_of_getElem? hget, Prod.mk.injEq, true_and] at h
  have h4 := (keepFirst_spec hget hleft).2.1
  obtain ⟨h5, h6⟩ := runAdd_serves { s with runs := keepFirst s.runs i (page - r.first) } (page + 1)
    (r.stop - page - 1)
  rw [h] at h5 h6
  refine ⟨?_, i, r, hget, h1, h2, fun hlast hspill => ?_⟩
  · -- the run without its pages from this one on, and then with those after it again
    have hcut : Serves s nothing { s with runs := keepFirst s.runs i (page - r.first) }
        fun p => (⟨page + 1, r.stop - page - 1⟩ : Span).holds p + (⟨page, 1⟩ : Span).holds p := by
      refine runs_serves s (fun hr => h4.trans hr) fun p => ?_
      have hp := h3 p
      simp only [nothing]
      omega
    refine hcut.trans ((h5.frame (⟨page, 1⟩ : Span).holds).weaken (fun _ => le_rfl) fun p => ?_)
    simp
  · obtain ⟨j, r', h7, h8, h9⟩ := h6 (by omega) hspill
    exact ⟨j, r', h7, h8, by omega⟩

/-! ### The calls -/

theorem fillLoose_serves (s : State) : Serves s nothing (fillLoose s) nothing := by
  unfold fillLoose
  split
  · exact Serves.refl s nothing
  · rename_i i hi
    obtain ⟨r, hr, hq⟩ := lastRun_spec hi
    simp only [decide_eq_true_eq] at hq
    have htop := takeTop_serves hr hq.1
    generalize takeTop s i looseFill = t at htop ⊢
    obtain ⟨page, s'⟩ := t
    simp only at htop ⊢
    split_ifs
    · exact htop.trans (runAdd_serves s' page looseFill).1
    · exact htop.trans (loosen_serves s' page looseFill)

theorem drain_serves (fuel : ℕ) (s : State) : Serves s nothing (drain fuel s) nothing := by
  induction fuel generalizing s with
  | zero => exact Serves.refl s nothing
  | succ fuel ih =>
    unfold drain
    split_ifs with h
    · refine (popped_serves h.1).trans (Serves.trans ?_ (ih _))
      refine (runAdd_serves s.popped s.loose 1).1.weaken (fun p => ?_) fun _ => le_rfl
      rw [Span.holds_one]
    · exact Serves.refl s nothing

/-- What a call hands out: nothing where it fails. -/
def gotten (page count : ℕ) : ℕ → ℕ := if page = 0 then nothing else (⟨page, count⟩ : Span).holds

theorem gotten_le (page count p : ℕ) : gotten page count p ≤ (⟨page, count⟩ : Span).holds p := by
  unfold gotten
  split_ifs
  · exact Nat.zero_le _
  · exact le_rfl

theorem takeLong_serves {s : State} {r : ℕ × State} (h : takeLong s count = some r) :
    Serves s nothing r.2 (gotten r.1 count) := by
  unfold takeLong at h
  obtain ⟨i, hi, rfl⟩ := Option.map_eq_some_iff.1 h
  obtain ⟨r, hr, hq⟩ := lastRun_spec hi
  exact (takeTop_serves hr (by simpa using hq)).weaken (fun _ => le_rfl) fun p => gotten_le _ _ p

/-- **`take` hands out pages the allocator had.** -/
theorem take_serves (s : State) (count : ℕ) :
    Serves s nothing (take s count).2 (gotten (take s count).1 count) := by
  unfold take
  set s0 := if count = 1 ∧ s.loose = 0 then fillLoose s else s with hs0
  have h0 : Serves s nothing s0 nothing := by
    rw [hs0]
    split_ifs
    · exact fillLoose_serves s
    · exact Serves.refl s nothing
  simp only
  split_ifs with h1 h2
  · refine h0.trans ((popped_serves h1.2).weaken (fun _ => le_rfl) fun p => ?_)
    refine (gotten_le _ _ p).trans (le_of_eq ?_)
    rw [h1.1, Span.holds_one]
  all_goals split
  · rename_i r hr
    exact h0.trans (takeLong_serves hr)
  · exact h0
  · rename_i r hr
    exact h0.trans (takeLong_serves hr)
  · have hd := h0.trans (drain_serves s0.looseCount s0)
    cases hl : takeLong (drain s0.looseCount s0) count with
    | none => exact hd
    | some r => exact hd.trans (takeLong_serves hl)

theorem memPagesFree_serves (s : State) (page count : ℕ) :
    Serves s (⟨page, count⟩ : Span).holds (memPagesFree s page count) nothing := by
  unfold memPagesFree
  split_ifs with h
  · rw [h.1]
    exact loosen_serves s page 1
  · exact (runAdd_serves s page count).1

theorem memTakePage_serves (s : State) (page : ℕ) :
    Serves s nothing (memTakePage s page).2
      (if (memTakePage s page).1 then (⟨page, 1⟩ : Span).holds else nothing) := by
  unfold memTakePage
  generalize ht : runTake s page = t
  obtain ⟨taken, s'⟩ := t
  cases taken with
  | true => exact (runTake_spec ht).1
  | false =>
    unfold runTake at ht
    split at ht
    · obtain rfl := (Prod.mk.inj ht).2
      exact Serves.refl s nothing
    · cases ht

/-! ### `mem_pages_below` -/

/-- Two runs that hold a page held once are one. -/
theorem index_unique {j p : ℕ} {r' : Span} (hi : runs[i]? = some r)
    (hj : runs[j]? = some r') (hr : 0 < r.holds p) (hr' : 0 < r'.holds p) (h : tally runs p ≤ 1) :
    i = j := by
  by_contra hne
  have h1 := tally_set (p := p) hi ⟨0, 0⟩
  have hj' : (runs.set i ⟨0, 0⟩)[j]? = some r' := by rw [List.getElem?_set_ne hne, hj]
  have h2 := holds_le_tally hj' p
  rw [Span.holds_empty] at h1
  omega

/-- A page that a run holds can be taken. -/
theorem runTake_of_held {s : State} {j : ℕ} (hj : s.runs[j]? = some r)
    (h : 0 < r.holds page) : ∃ s', runTake s page = (true, s') := by
  unfold runTake
  split
  · rename_i hnone
    have hno := List.findIdx?_eq_none_iff.1 hnone r (List.mem_of_getElem? hj)
    exact absurd (Span.holds_pos.1 h) (by simpa using hno)
  · exact ⟨_, rfl⟩

/-- Whether taking pages from below a limit leaves the rest of their run nowhere but on the chain,
where it is taken for pages still in the run. -/
def spillsRest (s : State) (count limit : ℕ) : Bool :=
  match belowRun s.runs count limit with
  | none => false
  | some i =>
    let r := s.runs.getD i default
    let page := min r.stop limit - count
    1 < count ∧ spills (keepFirst s.runs i (page - r.first)) (page + 1) (r.stop - page - 1)

/-- **The pages of a run taken one by one**, where the run's rest does not spill when the first is
taken. After that each is the first of its run, so that the run is gone from the list before its
rest comes back. -/
theorem takeEach_spec (n : ℕ) {s : State} {l : List ℕ} (h : Chained s l)
    (hle : ∀ p, freeOf s l p ≤ 1) (hr : s.runs[i]? = some r) (hfirst : r.first ≤ page)
    (hstop : page + n + 1 ≤ r.stop)
    (hspill : 0 < n → spills (keepFirst s.runs i (page - r.first)) (page + 1)
      (r.stop - page - 1) = false) :
    ∃ l', Chained (takeEach page (n + 1) s) l' ∧
      (∀ p, freeOf (takeEach page (n + 1) s) l' p + (⟨page, n + 1⟩ : Span).holds p ≤
        freeOf s l p) ∧
      ∀ p, freeOf s l p = 0 → (takeEach page (n + 1) s).word p = s.word p := by
  have hheld : 0 < r.holds page := Span.holds_pos.2 ⟨hfirst, by omega⟩
  induction n generalizing page i r s l with
  | zero =>
    obtain ⟨s', ht⟩ := runTake_of_held hr hheld
    obtain ⟨l1, hl1, hfree, hword⟩ := (runTake_spec ht).1 l h hle
    simp only [takeEach, ht, zero_add]
    exact ⟨l1, hl1, hfree, hword⟩
  | succ n ih =>
    obtain ⟨s', ht⟩ := runTake_of_held hr hheld
    obtain ⟨hserves, j, r0, hj, h1, h2, hrest⟩ := runTake_spec ht
    have htally : tally s.runs page ≤ 1 := (Nat.le_add_right _ _).trans (hle page)
    obtain rfl := index_unique hj hr (Span.holds_pos.2 ⟨h1, h2⟩) hheld htally
    obtain rfl : r = r0 := Option.some.inj (hr.symm.trans hj)
    obtain ⟨l1, hl1, hfree, hword⟩ := hserves l h hle
    simp only [nothing, add_zero] at hfree hword
    obtain ⟨k, r', hk, hfirst', hstop'⟩ := hrest (by omega) (hspill (Nat.succ_pos n))
    -- the run begins at the next page, as this one is in no run any more
    have hbegin : r'.first = page + 1 := by
      by_contra hne
      have h3 := holds_le_tally hk page
      have h4 : 0 < r'.holds page := Span.holds_pos.2 ⟨by omega, by omega⟩
      have h5 := hfree page
      have h6 := hle page
      rw [Span.holds_one, if_pos rfl] at h5
      unfold freeOf at h5 h6
      omega
    have hroom : spills (keepFirst s'.runs k (page + 1 - r'.first)) (page + 1 + 1)
        (r'.stop - (page + 1) - 1) = false := by
      have h5 := (keepFirst_spec hk (Nat.zero_le r'.count)).2.2 rfl
      have h6 := hl1.room
      rw [hbegin, Nat.sub_self]
      unfold spills
      simp only [decide_eq_false_iff_not, not_and]
      intro _ h7
      omega
    obtain ⟨l2, hl2, hfree2, hword2⟩ := ih hl1
      (fun p => (Nat.le_add_right _ _).trans ((hfree p).trans (hle p))) hk hfirst' (by omega)
      (fun _ => hroom) (Span.holds_pos.2 ⟨hfirst', by omega⟩)
    unfold takeEach
    rw [ht]
    refine ⟨l2, hl2, fun p => ?_, fun p hp => ?_⟩
    · have h7 := hfree p
      have h8 := hfree2 p
      rw [Span.holds_one] at h7
      rw [Span.holds_succ page (n + 1) p]
      simp only
      omega
    · have h7 := hfree p
      simp only
      rw [hword2 p (by omega), hword p hp]

/-- **Pages taken from below a limit are pages the allocator had, where their run's rest does not
spill.** -/
theorem takeBelow_serves {s : State} {limit : ℕ} (hok : spillsRest s count limit = false) :
    Serves s nothing (takeBelow s count limit).2 (gotten (takeBelow s count limit).1 count) := by
  intro l hl hle
  unfold spillsRest at hok
  unfold takeBelow
  cases hb : belowRun s.runs count limit with
  | none => exact Serves.refl s nothing l hl hle
  | some i =>
    obtain ⟨r, hr, hq⟩ := lastRun_spec hb
    have hq : r.first + count ≤ min r.stop limit := by simpa using hq
    rw [hb] at hok
    simp only [getD_of_getElem? hr] at hok ⊢
    set page := min r.stop limit - count
    have hall : ∃ l', Chained (takeEach page count s) l' ∧
        (∀ p, freeOf (takeEach page count s) l' p + (⟨page, count⟩ : Span).holds p ≤
          freeOf s l p) ∧
        ∀ p, freeOf s l p = 0 → (takeEach page count s).word p = s.word p := by
      cases count with
      | zero => exact ⟨l, hl, fun p => by rw [Span.holds_empty]; exact le_rfl, fun _ _ => rfl⟩
      | succ n =>
        refine takeEach_spec n hl hle hr (by omega) (by omega) fun hn => ?_
        simpa [hn] using hok
    obtain ⟨l', h1, h2, h3⟩ := hall
    refine ⟨l', h1, fun p => ?_, h3⟩
    have := h2 p
    have := gotten_le page count p
    simp only [nothing]
    omega

/-- Whether one of the turns of `mem_pages_below` spills. -/
def spillsBelow (s : State) (count limit : ℕ) : List (List Span) → Bool
  | [] => spillsRest s count limit
  | given :: rest => spillsRest s count limit ||
    (takeBelow s count limit).1 == 0 && given ≠ [] &&
      spillsBelow (shrink (takeBelow s count limit).2 given) count limit rest

/-! ### Whole calls -/

/-- A way of accounting for the pages that the parts of a call are given and come by. -/
structure Accounts (R : State → (ℕ → ℕ) → State → (ℕ → ℕ) → Prop) : Prop where
  refl : ∀ s put, R s put s put
  trans : ∀ {s s' s'' put got got'}, R s put s' got → R s' got s'' got' → R s put s'' got'
  frame : ∀ {s s' put got}, R s put s' got →
    ∀ x : ℕ → ℕ, R s (fun p => put p + x p) s' fun p => got p + x p
  weaken : ∀ {s s' put put' got got'}, R s put s' got → (∀ p, put p ≤ put' p) →
    (∀ p, got' p ≤ got p) → R s put' s' got'
  take : ∀ s count, R s nothing (Mem.take s count).2 (gotten (Mem.take s count).1 count)
  add : ∀ s page count, R s (⟨page, count⟩ : Span).holds (runAdd s page count) nothing
  free : ∀ s page count, R s (⟨page, count⟩ : Span).holds (memPagesFree s page count) nothing
  takePage : ∀ s page, R s nothing (memTakePage s page).2
    (if (memTakePage s page).1 then (⟨page, 1⟩ : Span).holds else nothing)
  takeBelow : ∀ {s count limit}, spillsRest s count limit = false →
    R s nothing (Mem.takeBelow s count limit).2 (gotten (Mem.takeBelow s count limit).1 count)

namespace Accounts

variable {R : State → (ℕ → ℕ) → State → (ℕ → ℕ) → Prop} {s : State}

/-- Pages put back run by run. -/
theorem foldl (h : Accounts R) {f : State → Span → State}
    (hf : ∀ s r, R s r.holds (f s r) nothing) (given : List Span) (s : State) :
    R s (tally given) (given.foldl f s) nothing := by
  induction given generalizing s with
  | nil => exact h.weaken (h.refl s nothing) (fun _ => Nat.zero_le _) fun _ => le_rfl
  | cons r given ih =>
    refine h.trans (h.weaken (h.frame (hf s r) (tally given)) (fun p => ?_) fun _ => le_rfl)
      (h.weaken (ih (f s r)) (fun p => ?_) fun _ => le_rfl)
    · rw [tally_cons]
    · simp

theorem shrink (h : Accounts R) (s : State) (given : List Span) :
    R s (tally given) (Mem.shrink s given) nothing :=
  h.foldl (fun s r => h.free s r.first r.count) given s

/-- Pages that were taken put back, if any were. -/
theorem putBack (h : Accounts R) (s : State) (page count : ℕ) :
    R s (gotten page count) (if page ≠ 0 then runAdd s page count else s) nothing := by
  unfold gotten
  by_cases h0 : page = 0
  · rw [if_pos h0, if_neg (not_not.2 h0)]
    exact h.refl s nothing
  · rw [if_neg h0, if_pos h0]
    exact h.add s page count

/-- One asking of the disk cache, and what comes after it. -/
theorem asked (h : Accounts R) {s1 s2 s3 s' : State} {given more : List Span} {mid got : ℕ → ℕ}
    (htake : R s nothing s1 mid) (hshrink : R s1 (tally given) s2 nothing)
    (hback : R s2 mid s3 nothing) (hrest : R s3 (tally more) s' got) :
    R s (tally (given ++ more)) s' got := by
  have h1 := h.frame htake (tally (given ++ more))
  have h2 := h.frame hshrink fun p => mid p + tally more p
  have h3 := h.frame hback (tally more)
  refine h.trans (h.weaken h1 (fun p => ?_) fun _ => le_rfl)
    (h.trans (h.weaken h2 (fun p => ?_) fun _ => le_rfl)
      (h.trans (h.weaken h3 (fun p => ?_) fun _ => le_rfl)
        (h.weaken hrest (fun p => ?_) fun _ => le_rfl)))
  all_goals simp only [nothing, tally_append]
  all_goals omega

/-- **`mem_pages` hands out pages the allocator had, or that the disk cache has given back.** -/
theorem memPages (h : Accounts R) (s : State) (count : ℕ) (shrinks : List (List Span)) :
    R s (tally (Mem.memPages s count shrinks).2.1) (Mem.memPages s count shrinks).2.2
      (gotten (Mem.memPages s count shrinks).1 count) := by
  induction shrinks generalizing s with
  | nil => exact h.take s count
  | cons given rest ih =>
    have htake := h.take s count
    unfold Mem.memPages
    generalize Mem.take s count = t at htake ⊢
    obtain ⟨page, s1⟩ := t
    simp only at htake ⊢
    by_cases h1 : page ≠ 0 ∧ floorKept s1 ≤ page
    · rw [if_pos h1]
      exact htake
    rw [if_neg h1]
    by_cases h2 : given = []
    · rw [if_pos h2, h2]
      exact htake
    rw [if_neg h2]
    exact h.asked htake (h.shrink s1 given) (h.putBack (Mem.shrink s1 given) page count) (ih _)

theorem memPagesLent (h : Accounts R) (s : State) (count : ℕ) :
    R s nothing (Mem.memPagesLent s count).2 (gotten (Mem.memPagesLent s count).1 count) := by
  have htake := h.take s count
  unfold Mem.memPagesLent
  generalize Mem.take s count = t at htake ⊢
  obtain ⟨page, s1⟩ := t
  simp only at htake ⊢
  split_ifs with hlow
  · have hback := h.putBack s1 page count
    rw [if_pos hlow.1] at hback
    exact h.trans htake hback
  · exact htake

/-- **`mem_pages_below` hands out pages the allocator had, or that the disk cache has given back,
where no turn of it spills.** -/
theorem memPagesBelow (h : Accounts R) {limit : ℕ} {shrinks : List (List Span)}
    (hok : spillsBelow s count limit shrinks = false) :
    R s (tally (Mem.memPagesBelow s count limit shrinks).2.1)
      (Mem.memPagesBelow s count limit shrinks).2.2
      (gotten (Mem.memPagesBelow s count limit shrinks).1 count) := by
  induction shrinks generalizing s with
  | nil => exact h.takeBelow hok
  | cons given rest ih =>
    unfold spillsBelow at hok
    obtain ⟨hok, hmore⟩ := Bool.or_eq_false_iff.1 hok
    have htake := h.takeBelow hok
    unfold Mem.memPagesBelow
    generalize Mem.takeBelow s count limit = t at htake hmore ⊢
    obtain ⟨page, s1⟩ := t
    simp only at htake hmore ⊢
    by_cases h1 : page ≠ 0
    · rw [if_pos h1]
      exact htake
    rw [if_neg h1]
    have h1 := not_not.1 h1
    by_cases h2 : given = []
    · rw [if_pos h2, h2]
      exact htake
    rw [if_neg h2]
    have hgot : gotten page count = nothing := if_pos h1
    rw [hgot] at htake
    refine h.asked htake (h.shrink s1 given) (h.refl _ nothing) (ih ?_)
    simpa [h1, h2] using hmore

end Accounts

theorem serves_accounts : Accounts Serves where
  refl := Serves.refl
  trans := Serves.trans
  frame := Serves.frame
  weaken := Serves.weaken
  take := take_serves
  add s page count := (runAdd_serves s page count).1
  free := memPagesFree_serves
  takePage := memTakePage_serves
  takeBelow := takeBelow_serves

end BaxOS.Mem
