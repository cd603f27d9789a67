import BaxOS.Mem.Conserved

/-!
# Runs of `run_add`, `run_take` and `take`

From an empty list on, whatever is put back and taken, the runs are tidy, and each `run_add` (one of the
caller's, or one that `run_take` and `take` make) keeps all the pages it can, unless the pages put back
are low and smaller than each of the low runs that fill the list (`calls_conserve`).
-/

namespace BaxOS.Mem
open Spans Function Chains Runs

/-! ### The calls -/

/-- A call. -/
inductive Call
  | add (page count : ℕ)
  | takePage (page : ℕ)
  | take (count : ℕ)

/-- What it does. -/
def State.call (s : State) : Call → State
  | .add page count => runAdd s page count
  | .takePage page => (runTake s page).2
  | .take count => (Mem.take s count).2

/-- A `run_add`: the state it finds and the pages it puts back. -/
structure Addition where
  s : State
  page : ℕ
  count : ℕ

/-- The one that `run_take` makes. -/
def takePageAdds (s : State) (page : ℕ) : List Addition :=
  match s.runs.findIdx? fun r => r.first ≤ page ∧ page < r.stop with
  | none => []
  | some i =>
    let r := s.runs.getD i default
    [⟨{ s with runs := keepFirst s.runs i (page - r.first) }, page + 1, r.stop - page - 1⟩]

/-- The one that `take` makes where the pages for the chain straddle the floor. -/
def fillAdds (s : State) : List Addition :=
  match lastRun s.runs fun r => looseFill ≤ r.count ∧ looseFloor + looseFill < r.stop with
  | none => []
  | some i =>
    let (page, s) := takeTop s i looseFill
    if page < looseFloor then [⟨s, page, looseFill⟩] else []

/-- Those that `take` makes when it drains the chain. -/
def drainAdds : ℕ → State → List Addition
  | 0, _ => []
  | fuel + 1, s =>
    if s.loose ≠ 0 ∧ s.runs.length < maxRuns - 1 then
      ⟨s.popped, s.loose, 1⟩ :: drainAdds fuel (runAdd s.popped s.loose 1)
    else []

/-- All that `take` makes. -/
def takeAdds (s : State) (count : ℕ) : List Addition :=
  let filled := if count = 1 ∧ s.loose = 0 then fillLoose s else s
  (if count = 1 ∧ s.loose = 0 then fillAdds s else []) ++
    if count = 1 ∧ filled.loose ≠ 0 then []
    else
      match takeLong filled count with
      | some _ => []
      | none => if filled.looseCount = 0 then [] else drainAdds filled.looseCount filled

/-- Each `run_add` of a call. -/
def State.adds (s : State) : Call → List Addition
  | .add page count => [⟨s, page, count⟩]
  | .takePage page => takePageAdds s page
  | .take count => takeAdds s count

/-- What is put back is not free already. -/
def Fresh (s : State) : Call → Prop
  | .add page count => NoneFree s page count
  | _ => True

namespace Addition

/-- The state after it. -/
def after (a : Addition) : State := runAdd a.s a.page a.count

/-- A page is free, or is put back. -/
def Given (a : Addition) (p : ℕ) : Prop := Free a.s p ∨ a.page ≤ p ∧ p < a.page + a.count

/-- **What a `run_add` is to keep**: all pages; or, where low runs fill the list, all but the low ones of
a run that is the smallest of all, what is put back included. -/
def Conserves (a : Addition) : Prop :=
  (∀ p, Free a.after p ↔ a.Given p) ∨
    a.s.runs.length = maxRuns ∧ (∀ r ∈ a.s.runs, r.first < looseFloor) ∧
      ∃ r ∈ ⟨a.page, a.count⟩ :: a.s.runs, (∀ r' ∈ ⟨a.page, a.count⟩ :: a.s.runs, r.count ≤ r'.count) ∧
        ∀ p, Free a.after p ↔ a.Given p ∧ ¬ (r.first ≤ p ∧ p < r.stop ∧ p < looseFloor)

/-- What is put back among low runs that fill the list is no smaller than one of them. -/
def Fits (a : Addition) : Prop := Crowded a.s a.page a.count → ∃ r ∈ a.s.runs, r.count ≤ a.count

/-- The allocator has each page once, and those put back not at all. -/
def Ready (a : Addition) : Prop :=
  ∃ l, Sound a.s l ∧ ∀ p, freeOf a.s l p + (⟨a.page, a.count⟩ : Span).holds p ≤ 1

variable {a : Addition}

theorem given_iff {l : List ℕ} (h : Sound a.s l) (p : ℕ) :
    a.Given p ↔ 0 < freeOf a.s l p + (⟨a.page, a.count⟩ : Span).holds p := by
  unfold Given
  rw [h.free_iff]
  have hin : a.page ≤ p ∧ p < a.page + a.count ↔ 0 < (⟨a.page, a.count⟩ : Span).holds p :=
    (Span.holds_pos (s := ⟨a.page, a.count⟩)).symm
  rw [hin]
  omega

theorem low_pos {r : Span} {p : ℕ} : 0 < low r p ↔ r.first ≤ p ∧ p < r.stop ∧ p < looseFloor := by
  unfold low
  split_ifs with h
  · omega
  · rw [Span.holds_pos]
    omega

/-- **A `run_add` keeps what it is to, exactly where what it puts back fits.** -/
theorem conserves_iff (h : a.Ready) : a.Conserves ↔ a.Fits := by
  obtain ⟨l, hs, hfree⟩ := h
  obtain ⟨l', lost, hs', hloses, heq⟩ := runAdd_exact hs hfree
  have hafter : ∀ p, Free a.after p ↔ a.Given p ∧ lost p = 0 := by
    intro p
    unfold after
    rw [hs'.free_iff, given_iff hs]
    have := heq p
    have := hfree p
    omega
  constructor
  · intro hc hcrowd
    by_contra hno
    push Not at hno
    obtain ⟨r₀, hr₀, -, hlost⟩ := hloses.least hcrowd
    have hpos := hs.tidy.some_ r₀ hr₀
    have hlow : 0 < low r₀ r₀.first :=
      low_pos.2 ⟨le_rfl, Nat.lt_add_of_pos_right hpos, hcrowd.all r₀ hr₀⟩
    have hheld : 0 < tally a.s.runs r₀.first :=
      (Span.holds_pos.2 ⟨le_rfl, Nat.lt_add_of_pos_right hpos⟩).trans_le
        (Spaced.holds_le_tally_of_mem hr₀ _)
    have hgiven : a.Given r₀.first := .inl (.inl hheld)
    have hgone : ¬ Free a.after r₀.first := by
      rw [hafter, hlost]
      omega
    rcases hc with hc | ⟨-, -, r, hr, hleast, hc⟩
    · exact hgone ((hc _).2 hgiven)
    · -- the run let go of would be what is put back, and that has not this page
      rcases List.mem_cons.1 hr with rfl | hr
      · refine hgone ((hc _).2 ⟨hgiven, fun hin => ?_⟩)
        have h₁ : 0 < (⟨a.page, a.count⟩ : Span).holds r₀.first := Span.holds_pos.2 ⟨hin.1, hin.2.1⟩
        have h₂ := hfree r₀.first
        unfold freeOf at h₂
        omega
      · exact absurd (hno r hr) (not_lt.2 (hleast _ List.mem_cons_self))
  · intro hfits
    by_cases hcrowd : Crowded a.s a.page a.count
    · obtain ⟨r, hr, hleast, hlost⟩ := hloses.least hcrowd
      obtain ⟨r₁, hr₁, hle⟩ := hfits hcrowd
      refine .inr ⟨hcrowd.full, hcrowd.all, r, List.mem_cons_of_mem _ hr, fun r' hr' => ?_, fun p => ?_⟩
      · rcases List.mem_cons.1 hr' with rfl | hr'
        · exact (hleast r₁ hr₁).trans hle
        · exact hleast r' hr'
      · rw [hafter, hlost, ← low_pos, Nat.pos_iff_ne_zero, not_not]
    · refine .inl fun p => ?_
      rw [hafter, hloses.none hcrowd p, and_iff_left rfl]

end Addition

/-! ### Every `run_add` is ready -/

section Ready

variable {s : State} {l : List ℕ}

/-- The runs cut, the rest as it is. -/
theorem Sound.cut (h : Sound s l) {runs : List Span} (htidy : Tidy runs)
    (hle : ∀ p, tally runs p ≤ tally s.runs p) : Sound { s with runs := runs } l where
  chained := ⟨h.chained.linked, h.chained.high, h.chained.count, htidy.room⟩
  once p := (Nat.add_le_add_right (hle p) _).trans (h.once p)
  tidy := htidy

/-- After a `run_add` that is ready. -/
theorem Addition.Ready.after {a : Addition} (h : a.Ready) : ∃ l, Sound a.after l := by
  obtain ⟨l, hs, hfree⟩ := h
  obtain ⟨l', -, hs', -⟩ := runAdd_exact hs hfree
  exact ⟨l', hs'⟩

theorem takePage_ready (h : Sound s l) (page : ℕ) :
    (∀ a ∈ takePageAdds s page, a.Ready) ∧ ∃ l', Sound (runTake s page).2 l' := by
  unfold takePageAdds runTake
  cases hi : s.runs.findIdx? fun r => decide (r.first ≤ page ∧ page < r.stop) with
  | none => exact ⟨(fun _ h => nomatch h), l, h⟩
  | some i =>
    obtain ⟨r, hget, -, -, hleft, hcut⟩ := runTake_cut hi
    simp only [getD_of_getElem? hget]
    have hready : Addition.Ready ⟨{ s with runs := keepFirst s.runs i (page - r.first) }, page + 1,
        r.stop - page - 1⟩ := by
      refine ⟨l, h.cut (keepFirst_tidy h.tidy hget hleft) fun p => ?_, fun p => ?_⟩
      · have := hcut p
        omega
      · have := hcut p
        have := h.once p
        unfold freeOf at this ⊢
        simp only
        omega
    refine ⟨fun a ha => ?_, hready.after⟩
    rw [List.mem_singleton.1 ha]
    exact hready

/-- The first page of the chain taken off it. -/
theorem Sound.popped (h : Sound s l) (hne : s.loose ≠ 0) : ∃ l', Sound s.popped l' ∧
    ∀ p, freeOf s.popped l' p + (if p = s.loose then 1 else 0) = freeOf s l p := by
  cases l with
  | nil => exact absurd (link_eq_none.1 h.chained.linked) hne
  | cons a l =>
    obtain ⟨h₁, h₂⟩ := h.chained.linked
    obtain ⟨rfl, -⟩ := link_eq_some.1 h₁
    have hfree : ∀ p, freeOf s.popped l p + (if p = s.loose then 1 else 0) = freeOf s (s.loose :: l) p := by
      intro p
      show tally s.runs p + l.count p + _ = tally s.runs p + (s.loose :: l).count p
      rw [List.count_cons, Nat.add_assoc]
      simp only [beq_iff_eq, eq_comm (a := p)]
    refine ⟨l, ⟨⟨h₂, fun p hp => h.chained.high p (List.mem_cons_of_mem _ hp), ?_, h.chained.room⟩,
      fun p => ?_, h.tidy⟩, hfree⟩
    · show s.looseCount - 1 = l.length
      rw [h.chained.count, List.length_cons, Nat.add_sub_cancel]
    · have := hfree p
      have := h.once p
      omega

/-- Where the list is not full the chain is not touched. -/
theorem runAdd_looseCount {page count : ℕ} (hroom : s.runs.length ≠ maxRuns) :
    (runAdd s page count).looseCount = s.looseCount := by
  have hput := runAdd_putBack s page count
  generalize runAdd s page count = s' at hput ⊢
  cases hput with
  | none _ => rfl
  | joined _ _ _ => rfl
  | inserted _ _ _ => rfl
  | loosened _ _ hfull _ => exact absurd hfull hroom
  | evicted _ _ hfull _ _ _ => exact absurd hfull hroom

/-- **Draining the chain** loses no page, as the list is never full, and goes on to the chain's end or
until one more run would fill the list. -/
theorem drain_ready (fuel : ℕ) (h : Sound s l) (hfuel : l.length ≤ fuel) :
    (∀ a ∈ drainAdds fuel s, a.Ready) ∧ ∃ l', Sound (drain fuel s) l' ∧
      (∀ p, freeOf (drain fuel s) l' p = freeOf s l p) ∧
      ((drain fuel s).loose = 0 ∨ maxRuns - 1 ≤ (drain fuel s).runs.length) := by
  induction fuel generalizing s l with
  | zero =>
    obtain rfl := List.length_eq_zero_iff.1 (Nat.le_zero.1 hfuel)
    exact ⟨List.forall_mem_nil _, [], h, fun _ => rfl, .inl (link_eq_none.1 h.chained.linked)⟩
  | succ fuel ih =>
    unfold drainAdds drain
    split_ifs with hc
    · obtain ⟨l', hs, heq⟩ := h.popped hc.1
      have hfree : ∀ p, freeOf s.popped l' p + (⟨s.loose, 1⟩ : Span).holds p ≤ 1 := by
        intro p
        rw [Span.holds_one, heq]
        exact h.once p
      obtain ⟨l₁, lost, hs₁, hloses, heq₁⟩ := runAdd_exact hs hfree
      have hnone := hloses.none fun hcrowd => by
        have hlen : s.runs.length = maxRuns := hcrowd.full
        omega
      have hlen : l₁.length ≤ fuel := by
        have hcount : (runAdd s.popped s.loose 1).looseCount = s.looseCount - 1 :=
          runAdd_looseCount fun hfull : s.runs.length = maxRuns => by omega
        have h₁ := hs₁.chained.count
        have h₂ := h.chained.count
        omega
      obtain ⟨hrest, l₂, hs₂, heq₂, hend⟩ := ih hs₁ hlen
      refine ⟨fun a ha => ?_, l₂, hs₂, fun p => ?_, hend⟩
      · rcases List.mem_cons.1 ha with rfl | ha
        · exact ⟨l', hs, hfree⟩
        · exact hrest a ha
      · have h₁ := heq₁ p
        rw [hnone, Span.holds_one, heq] at h₁
        rw [heq₂]
        exact h₁
    · refine ⟨List.forall_mem_nil _, l, h, fun _ => rfl, ?_⟩
      omega

theorem takeTop_sound (h : Sound s l) {i count : ℕ} {r : Span} (hr : s.runs[i]? = some r)
    (hc : count ≤ r.count) : Sound (takeTop s i count).2 l ∧
      ∀ p, freeOf (takeTop s i count).2 l p + (⟨(takeTop s i count).1, count⟩ : Span).holds p =
        freeOf s l p := by
  have htidy := @takeTop_tidy s i count r h.tidy hr
  obtain ⟨hcut, -, -⟩ := keepFirst_spec hr (Nat.sub_le r.count count)
  unfold takeTop at htidy ⊢
  simp only [getD_of_getElem? hr] at htidy ⊢
  have hfree : ∀ p, freeOf { s with runs := keepFirst s.runs i (r.count - count) } l p +
      (⟨r.stop - count, count⟩ : Span).holds p = freeOf s l p := by
    intro p
    have hp := hcut p
    rw [Nat.sub_sub_self hc, show r.first + (r.count - count) = r.stop - count by unfold Span.stop; omega]
      at hp
    unfold freeOf
    simp only
    omega
  refine ⟨h.cut htidy fun p => ?_, hfree⟩
  have := hcut p
  omega

theorem fill_ready (h : Sound s l) : (∀ a ∈ fillAdds s, a.Ready) ∧ ∃ l', Sound (fillLoose s) l' ∧
    ∀ p, freeOf (fillLoose s) l' p = freeOf s l p := by
  unfold fillAdds fillLoose
  cases hi : lastRun s.runs fun r => decide (looseFill ≤ r.count ∧ looseFloor + looseFill < r.stop) with
  | none => exact ⟨(fun _ h => nomatch h), l, h, fun _ => rfl⟩
  | some i =>
    obtain ⟨r, hr, hq⟩ := lastRun_spec hi
    obtain ⟨hlong, hstop⟩ := of_decide_eq_true hq
    obtain ⟨hs, heq⟩ := takeTop_sound h hr hlong
    have hpage : looseFloor ≤ (takeTop s i looseFill).1 := by
      unfold takeTop
      simp only [getD_of_getElem? hr]
      omega
    dsimp only
    generalize takeTop s i looseFill = t at hs heq hpage ⊢
    obtain ⟨page, s'⟩ := t
    dsimp only at hs heq hpage ⊢
    rw [if_neg (not_lt.2 hpage), if_neg (not_lt.2 hpage)]
    obtain ⟨l', hl', hfree⟩ := loosen_exact hs.chained fun p => by
      rw [heq]
      exact h.once p
    have hsame : ∀ p, freeOf (loosen page looseFill s') l' p = freeOf s l p := by
      intro p
      rw [hfree, high_of_le hpage, heq]
    refine ⟨(fun _ h => nomatch h), l', ⟨hl', fun p => ?_, ?_⟩, hsame⟩
    · rw [hsame]
      exact h.once p
    · rw [loosen_runs]
      exact hs.tidy

/-- What `take` comes to: the pages it hands out, and no others, leave the allocator; or no run is long
enough, and the chain is at its end or the list as full as draining it leaves it. -/
inductive Took (s : State) (l : List ℕ) (count : ℕ) : ℕ × State → Prop
  | got (page : ℕ) (s' : State) (l' : List ℕ) (hs : Sound s' l')
      (h : ∀ p, freeOf s' l' p + (⟨page, count⟩ : Span).holds p = freeOf s l p) : Took s l count (page, s')
  | failed (s' : State) (l' : List ℕ) (hs : Sound s' l') (h : ∀ p, freeOf s' l' p = freeOf s l p)
      (hshort : ∀ r ∈ s'.runs, r.count < count)
      (hend : s'.loose = 0 ∨ s' = drain s.looseCount s ∧ maxRuns - 1 ≤ s'.runs.length) :
      Took s l count (0, s')

theorem lastRun_eq_none {runs : List Span} {q : Span → Bool} (h : lastRun runs q = none) :
    ∀ r ∈ runs, q r = false := by
  intro r hr
  obtain ⟨i, hi⟩ := List.getElem?_of_mem hr
  have hno := List.find?_eq_none.1 h i
    (List.mem_reverse.2 (List.mem_range.2 (List.getElem?_eq_some_iff.1 hi).1))
  rw [getD_of_getElem? hi] at hno
  simpa using hno

theorem takeLong_spec (h : Sound s l) (count : ℕ) :
    (∀ r, takeLong s count = some r → ∃ l', Sound r.2 l' ∧
      ∀ p, freeOf r.2 l' p + (⟨r.1, count⟩ : Span).holds p = freeOf s l p) ∧
      (takeLong s count = none → ∀ r ∈ s.runs, r.count < count) := by
  unfold takeLong
  refine ⟨fun r hr => ?_, fun hno r hr => ?_⟩
  · obtain ⟨i, hi, rfl⟩ := Option.map_eq_some_iff.1 hr
    obtain ⟨r, hr, hq⟩ := lastRun_spec hi
    exact ⟨l, takeTop_sound h hr (of_decide_eq_true hq)⟩
  · simpa using lastRun_eq_none (Option.map_eq_none_iff.1 hno) r hr

/-- The chain is empty where it holds no page. -/
theorem Sound.loose_eq_zero (h : Sound s l) : s.looseCount = 0 ↔ s.loose = 0 := by
  rw [h.chained.count, List.length_eq_zero_iff, ← link_eq_none]
  have hlinked := h.chained.linked
  cases l with
  | nil => exact ⟨fun _ => hlinked, fun _ => rfl⟩
  | cons a l =>
    refine ⟨fun h => (nomatch h), fun h => ?_⟩
    rw [hlinked.1] at h
    exact nomatch h

theorem take_ready (h : Sound s l) (count : ℕ) :
    (∀ a ∈ takeAdds s count, a.Ready) ∧ Took s l count (take s count) := by
  obtain ⟨hfills, lf, hsf, heqf⟩ := fill_ready h
  -- the chain filled, or as it was
  obtain ⟨s₀, l₀, hs₀, hs₀eq, heq₀, hdrain⟩ : ∃ s₀ l₀, Sound s₀ l₀ ∧
      (if count = 1 ∧ s.loose = 0 then fillLoose s else s) = s₀ ∧ (∀ p, freeOf s₀ l₀ p = freeOf s l p) ∧
      (¬ (count = 1 ∧ s₀.loose ≠ 0) → s₀.loose ≠ 0 → s₀ = s) := by
    by_cases hc : count = 1 ∧ s.loose = 0
    · refine ⟨fillLoose s, lf, hsf, if_pos hc, heqf, fun hno hne => absurd ⟨hc.1, hne⟩ hno⟩
    · exact ⟨s, l, h, if_neg hc, fun _ => rfl, fun _ _ => rfl⟩
  have hfilled : ∀ a ∈ (if count = 1 ∧ s.loose = 0 then fillAdds s else []), a.Ready := by
    split_ifs
    · exact hfills
    · exact fun _ h => nomatch h
  unfold takeAdds take
  dsimp only
  rw [hs₀eq]
  by_cases hpop : count = 1 ∧ s₀.loose ≠ 0
  · obtain ⟨l', hs', heq'⟩ := hs₀.popped hpop.2
    rw [if_pos hpop, if_pos hpop, List.append_nil]
    refine ⟨hfilled, .got _ _ l' hs' fun p => ?_⟩
    rw [hpop.1, Span.holds_one, heq', heq₀]
  rw [if_neg hpop, if_neg hpop]
  obtain ⟨hsome, hnone⟩ := takeLong_spec hs₀ count
  cases hlong : takeLong s₀ count with
  | some r =>
    obtain ⟨l', hs', heq'⟩ := hsome r hlong
    rw [List.append_nil]
    refine ⟨hfilled, .got r.1 r.2 l' hs' fun p => ?_⟩
    rw [heq', heq₀]
  | none =>
    dsimp only
    by_cases hcount : s₀.looseCount = 0
    · rw [if_pos hcount, if_pos hcount, List.append_nil]
      exact ⟨hfilled, .failed s₀ l₀ hs₀ heq₀ (hnone hlong) (.inl (hs₀.loose_eq_zero.1 hcount))⟩
    · rw [if_neg hcount, if_neg hcount]
      have hsame := hdrain hpop (fun h0 => hcount (hs₀.loose_eq_zero.2 h0))
      obtain ⟨hadds, l', hs', heq', hend⟩ := drain_ready s₀.looseCount hs₀ hs₀.chained.count.ge
      refine ⟨fun a ha => ?_, ?_⟩
      · rcases List.mem_append.1 ha with ha | ha
        · exact hfilled a ha
        · exact hadds a ha
      obtain ⟨hsome', hnone'⟩ := takeLong_spec hs' count
      cases hlong' : takeLong (drain s₀.looseCount s₀) count with
      | some r =>
        obtain ⟨l₂, hs₂, heq₂⟩ := hsome' r hlong'
        refine .got r.1 r.2 l₂ hs₂ fun p => ?_
        rw [heq₂, heq', heq₀]
      | none =>
        refine .failed _ l' hs' (fun p => (heq' p).trans (heq₀ p)) (hnone' hlong') ?_
        rcases hend with hend | hend
        · exact .inl hend
        · refine .inr ⟨?_, hend⟩
          rw [hsame]

/-- **Every call** makes only `run_add`s that are ready, and keeps the runs tidy and each page once. -/
theorem call_ready (h : Sound s l) {c : Call} (hc : Fresh s c) :
    (∀ a ∈ s.adds c, a.Ready) ∧ ∃ l', Sound (s.call c) l' := by
  cases c with
  | add page count =>
    have hready : Addition.Ready ⟨s, page, count⟩ := ⟨l, h, h.noneFree_iff.1 hc⟩
    refine ⟨fun a ha => ?_, hready.after⟩
    rw [List.mem_singleton.1 ha]
    exact hready
  | takePage page => exact takePage_ready h page
  | take count =>
    obtain ⟨hadds, htook⟩ := take_ready h count
    refine ⟨hadds, ?_⟩
    show ∃ l', Sound (take s count).2 l'
    generalize take s count = t at htook
    cases htook with
    | got _ _ l' hs _ => exact ⟨l', hs⟩
    | failed _ l' hs _ _ _ => exact ⟨l', hs⟩

end Ready

/-! ### Runs of calls -/

/-- No page is free yet. -/
def noPages (word : ℕ → ℕ) (ramPages : ℕ) : State := ⟨[], 0, 0, word, ramPages⟩

theorem noPages_sound (word : ℕ → ℕ) (ramPages : ℕ) : Sound (noPages word ramPages) [] where
  chained := ⟨rfl, (fun _ h => nomatch h), rfl, Nat.zero_le _⟩
  once _ := Nat.zero_le 1
  tidy := .nil

/-- **The runs are kept, and every page that can be**: from an empty list on, whatever is put back that is
not free already and whatever is taken, the runs are in order with a gap after each, none is empty and
there are at most `RUNS`, each free page is in one run or on the chain; and each `run_add` of a further
call keeps what it is to, exactly where what it puts back fits. -/
theorem calls_conserve {word : ℕ → ℕ} {ramPages : ℕ} {calls : List Call}
    (hcalls : Along Fresh State.call (noPages word ramPages) calls) :
    let s := calls.foldl State.call (noPages word ramPages)
    Tidy s.runs ∧ (∃ l, Sound s l) ∧
      ∀ c, Fresh s c → ∀ a ∈ s.adds c, Tidy a.after.runs ∧ (a.Conserves ↔ a.Fits) := by
  have hsound : ∃ l, Sound (calls.foldl State.call (noPages word ramPages)) l :=
    hcalls.invariant (P := fun s => ∃ l, Sound s l) (fun s c ⟨_, h⟩ hc => (call_ready h hc).2)
      ⟨[], noPages_sound word ramPages⟩
  obtain ⟨l, hs⟩ := hsound
  refine ⟨hs.tidy, ⟨l, hs⟩, fun c hc a ha => ?_⟩
  have hready := (call_ready hs hc).1 a ha
  obtain ⟨l', hs'⟩ := hready.after
  exact ⟨hs'.tidy, Addition.conserves_iff hready⟩

/-- Two pages put back, and one of them taken. -/
theorem calls_conserve_pair :
    Along Fresh State.call (noPages (fun _ => 0) 0) [.add 1 2, .takePage 1] ∧
      let s := [Call.add 1 2, .takePage 1].foldl State.call (noPages (fun _ => 0) 0)
      Tidy s.runs ∧ (∃ l, Sound s l) ∧
        ∀ c, Fresh s c → ∀ a ∈ s.adds c, Tidy a.after.runs ∧ (a.Conserves ↔ a.Fits) := by
  have hrun : Along Fresh State.call (noPages (fun _ => 0) 0) [.add 1 2, .takePage 1] := by
    refine ⟨fun p _ _ hfree => ?_, trivial, trivial⟩
    rw [(noPages_sound _ _).free_iff] at hfree
    exact lt_irrefl 0 hfree
  exact ⟨hrun, calls_conserve hrun⟩

/-! ### The run let go of is not the smallest -/

section Last

variable {runs : List Span} {page count : ℕ} (hpast : ∀ r ∈ runs, r.stop < page)
include hpast

/-- Pages past all the runs belong after them. -/
theorem place_last : place (runs ++ []) page = runs.length := by
  rw [List.append_nil]
  refine List.findIdx_eq_length.2 fun r hr => ?_
  have := hpast r hr
  unfold Span.stop at this
  rw [decide_eq_false_iff_not]
  omega

theorem joined_last : joined runs page count = none := by
  have hjoin := @joined_append runs [] page count (place_last hpast).symm
  have hnone : runs.getLast?.filter (fun r => decide (r.stop = page)) = none := by
    refine Option.filter_eq_none_iff.2 fun r hr => ?_
    have := hpast r (List.mem_of_getLast? hr)
    simpa using this.ne
  rwa [hnone, List.append_nil] at hjoin

end Last

/-- Pages put back past all the runs. -/
theorem runAdd_last {s : State} {page count : ℕ} (hpast : ∀ r ∈ s.runs, r.stop < page) (hpos : 0 < count)
    (hroom : s.runs.length < maxRuns) :
    runAdd s page count = { s with runs := s.runs ++ [⟨page, count⟩] } := by
  have hplace := place_last hpast
  unfold runAdd
  rw [if_neg hpos.ne', joined_last hpast]
  dsimp only
  rw [if_neg hroom.ne, ← List.append_nil s.runs, hplace, insertIdx_append, List.append_nil]

/-- Pairs of pages, a page between each two. -/
def pairs (n : ℕ) : List Span := (List.range n).map fun k => ⟨3 * k + 1, 2⟩

/-- They are put back one after another. -/
def addPairs (n : ℕ) : List Call := (List.range n).map fun k => .add (3 * k + 1) 2

theorem pairs_stop {n : ℕ} : ∀ r ∈ pairs n, r.stop < 3 * n + 1 := by
  intro r hr
  obtain ⟨k, hk, rfl⟩ := List.mem_map.1 hr
  have := List.mem_range.1 hk
  show 3 * k + 1 + 2 < 3 * n + 1
  omega

theorem pairs_length (n : ℕ) : (pairs n).length = n := by
  unfold pairs
  rw [List.length_map, List.length_range]

/-- The next pages are not free. -/
theorem noneFree_pairs {word : ℕ → ℕ} {n count : ℕ} :
    NoneFree { noPages word 0 with runs := pairs n } (3 * n + 1) count := by
  rintro p hp - (hrun | hchain)
  · have hzero : tally (pairs n) p = 0 :=
      Spaced.tally_eq_zero fun r hr => .inr (((pairs_stop r hr).le).trans hp)
    exact absurd hrun (by rw [hzero]; exact lt_irrefl 0)
  · have hnil : Chain (fun p => link (word p)) (link 0) [] := rfl
    exact nomatch (onChain_iff hnil).1 hchain

theorem addPairs_run (word : ℕ → ℕ) {n : ℕ} (hn : n ≤ maxRuns) :
    Along Fresh State.call (noPages word 0) (addPairs n) ∧
      (addPairs n).foldl State.call (noPages word 0) = { noPages word 0 with runs := pairs n } := by
  induction n with
  | zero => exact ⟨trivial, rfl⟩
  | succ n ih =>
    obtain ⟨halong, heq⟩ := ih (by omega)
    have hsplit : addPairs (n + 1) = addPairs n ++ [.add (3 * n + 1) 2] := by
      unfold addPairs
      rw [List.range_succ, List.map_append]
      rfl
    have hruns : pairs (n + 1) = pairs n ++ [⟨3 * n + 1, 2⟩] := by
      unfold pairs
      rw [List.range_succ, List.map_append]
      rfl
    have hlen := pairs_length n
    rw [hsplit, List.foldl_append, heq]
    refine ⟨halong.append ⟨?_, trivial⟩, ?_⟩
    · rw [heq]
      exact noneFree_pairs
    · rw [List.foldl_cons, List.foldl_nil]
      show runAdd _ (3 * n + 1) 2 = _
      rw [runAdd_last pairs_stop (by decide) (by rw [hlen]; omega), hruns]

/-- A single page put back where as many pairs as the list holds are free. -/
theorem pairs_not_conserves {n : ℕ} (hn : n = maxRuns) {l : List ℕ}
    (hs : Sound { noPages (fun _ => 0) 0 with runs := pairs n } l) :
    ¬ Addition.Conserves ⟨{ noPages (fun _ => 0) 0 with runs := pairs n }, 3 * n + 1, 1⟩ := by
  have hlow : ∀ r ∈ pairs n, r.first < looseFloor ∧ r.count = 2 := by
    intro r hr
    obtain ⟨k, hk, rfl⟩ := List.mem_map.1 hr
    have hk := List.mem_range.1 hk
    have hmost : maxRuns = 512 := rfl
    refine ⟨?_, rfl⟩
    show 3 * k + 1 < 2 ^ 18
    omega
  have hpage : 3 * n + 1 < looseFloor := by
    rw [hn]
    decide
  intro hc
  obtain ⟨r, hr, hle⟩ := (Addition.conserves_iff ⟨l, hs, hs.noneFree_iff.1 noneFree_pairs⟩).1 hc
    ⟨Nat.one_pos, joined_last pairs_stop, (pairs_length n).trans hn, hpage, fun r hr => (hlow r hr).1⟩
  have htwo := (hlow r hr).2
  have hone : r.count ≤ 1 := hle
  omega

/-- **A larger run is let go of for a smaller**: with 512 pairs of low pages free, a single low page put
back costs a pair. -/
theorem exists_not_conserves :
    ∃ calls c, Along Fresh State.call (noPages (fun _ => 0) 0) calls ∧
      let s := calls.foldl State.call (noPages (fun _ => 0) 0)
      Fresh s c ∧ ∃ a ∈ s.adds c, ¬ a.Conserves := by
  obtain ⟨n, hn⟩ : ∃ n, n = maxRuns := ⟨_, rfl⟩
  obtain ⟨halong, heq⟩ := addPairs_run (fun _ => 0) hn.le
  have hsound := halong.invariant (P := fun s => ∃ l, Sound s l)
    (fun s c ⟨_, h⟩ hc => (call_ready h hc).2) ⟨[], noPages_sound _ 0⟩
  rw [heq] at hsound
  obtain ⟨l, hs⟩ := hsound
  refine ⟨addPairs n, .add (3 * n + 1) 1, halong, ?_⟩
  rw [heq]
  exact ⟨noneFree_pairs, _, List.mem_singleton_self _, pairs_not_conserves hn hs⟩

end BaxOS.Mem
