import BaxOS.Mem.FreeRuns
import BaxOS.Mem.Apart

/-!
# `mem_pages` fails only when it must

Where no page has two owners the runs stay tidy through every call, with the disk cache or without
(`step_allotted`). A `mem_pages` that fails without one has then looked at runs that are all there is,
each as long as can be; and one that does not takes from the free pages what it returns
(`run_failsLate`). Once a full list has let go of a page that `mem_pages_below` hands out, a page may
still be free that was just returned (`exists_not_failsLate`).
-/

namespace BaxOS.Mem
open Spans Function Chains Runs

variable {l : List ℕ} {count limit : ℕ} {m : Machine}

/-! ### Parts of a call keep the runs tidy -/

/-- What a part of a call does with pages, and that it keeps the runs tidy. -/
structure Keeps (s : State) (put : ℕ → ℕ) (s' : State) (got : ℕ → ℕ) : Prop where
  serves : Serves s put s' got
  tidy : ∀ l, Sound s l → (∀ p, freeOf s l p + put p ≤ 1) → Tidy s'.runs

namespace Keeps

variable {s s' s'' : State} {put put' got got' : ℕ → ℕ}

theorem refl (s : State) (put : ℕ → ℕ) : Keeps s put s put := ⟨.refl s put, fun _ h _ => h.tidy⟩

/-- The allocator after it. -/
theorem sound (h : Keeps s put s' got) (hs : Sound s l) (hle : ∀ p, freeOf s l p + put p ≤ 1) :
    ∃ l', Sound s' l' ∧ ∀ p, freeOf s' l' p + got p ≤ freeOf s l p + put p := by
  obtain ⟨l', hl', h₁, -⟩ := h.serves l hs.chained hle
  refine ⟨l', ⟨hl', fun p => ?_, h.tidy l hs hle⟩, h₁⟩
  exact (Nat.le_add_right _ _).trans ((h₁ p).trans (hle p))

theorem trans (h : Keeps s put s' got) (h' : Keeps s' got s'' got') : Keeps s put s'' got' := by
  refine ⟨h.serves.trans h'.serves, fun l hs hle => ?_⟩
  obtain ⟨l', hs', h₁⟩ := h.sound hs hle
  exact h'.tidy l' hs' fun p => (h₁ p).trans (hle p)

theorem frame (h : Keeps s put s' got) (x : ℕ → ℕ) :
    Keeps s (fun p => put p + x p) s' fun p => got p + x p :=
  ⟨h.serves.frame x, fun l hs hle => h.tidy l hs fun p =>
    (Nat.add_le_add_left (Nat.le_add_right _ _) _).trans (hle p)⟩

theorem weaken (h : Keeps s put s' got) (hput : ∀ p, put p ≤ put' p) (hgot : ∀ p, got' p ≤ got p) :
    Keeps s put' s' got' :=
  ⟨h.serves.weaken hput hgot, fun l hs hle => h.tidy l hs fun p =>
    (Nat.add_le_add_left (hput p) _).trans (hle p)⟩

end Keeps

theorem runAdd_keeps (s : State) (page count : ℕ) :
    Keeps s (⟨page, count⟩ : Span).holds (runAdd s page count) nothing :=
  ⟨(runAdd_serves s page count).1, fun _ hs hle => runAdd_tidy hs.tidy fun p =>
    (Nat.add_le_add_right (Nat.le_add_right _ _) _).trans (hle p)⟩

theorem memPagesFree_keeps (s : State) (page count : ℕ) :
    Keeps s (⟨page, count⟩ : Span).holds (memPagesFree s page count) nothing := by
  refine ⟨memPagesFree_serves s page count, fun l hs hle => ?_⟩
  unfold memPagesFree
  split_ifs
  · rw [loosen_runs]
    exact hs.tidy
  · exact (runAdd_keeps s page count).tidy l hs hle

theorem take_keeps (s : State) (count : ℕ) :
    Keeps s nothing (take s count).2 (gotten (take s count).1 count) := by
  refine ⟨take_serves s count, fun l hs _ => ?_⟩
  have htook := (take_ready hs count).2
  generalize take s count = t at htook ⊢
  cases htook with
  | got _ _ _ hs' _ => exact hs'.tidy
  | failed _ _ hs' _ _ _ => exact hs'.tidy

theorem memTakePage_keeps (s : State) (page : ℕ) :
    Keeps s nothing (memTakePage s page).2
      (if (memTakePage s page).1 then (⟨page, 1⟩ : Span).holds else nothing) :=
  ⟨memTakePage_serves s page, fun _ hs _ => runTake_tidy hs.tidy page⟩

theorem takeEach_tidy {s : State} (h : Tidy s.runs) (page count : ℕ) : Tidy (takeEach page count s).runs := by
  induction count generalizing page s with
  | zero => exact h
  | succ count ih => exact ih (runTake_tidy h page) (page + 1)

theorem takeBelow_keeps {s : State} (hok : spillsRest s count limit = false) :
    Keeps s nothing (takeBelow s count limit).2 (gotten (takeBelow s count limit).1 count) := by
  refine ⟨takeBelow_serves hok, fun l hs _ => ?_⟩
  unfold takeBelow
  cases belowRun s.runs count limit with
  | none => exact hs.tidy
  | some i => exact takeEach_tidy hs.tidy _ _

theorem keeps_accounts : Accounts Keeps where
  refl := Keeps.refl
  trans := Keeps.trans
  frame := Keeps.frame
  weaken := Keeps.weaken
  take := take_keeps
  add := runAdd_keeps
  free := memPagesFree_keeps
  takePage := memTakePage_keeps
  takeBelow := takeBelow_keeps

/-! ### Every state -/

/-- No page has two owners, page 0 none, and the runs are tidy. -/
structure Allotted (m : Machine) (l : List ℕ) : Prop where
  sound : Sound m.mem l
  apart : ∀ p, owners m l p ≤ 1
  zero : owners m l 0 = 0

/-- A call that hands out some pages and takes back others. -/
theorem Allotted.call {s' : State} {put got : ℕ → ℕ} (h : Allotted m l)
    (hkeeps : Keeps m.mem put s' got) (hput : ∀ p, put p ≤ m.held p) :
    ∃ l', Allotted ⟨s', fun p => m.held p - put p + got p⟩ l' := by
  have hle : ∀ p, freeOf m.mem l p + m.held p ≤ 1 := h.apart
  obtain ⟨l', hs', h₁⟩ := hkeeps.sound h.sound fun p => by
    have := hle p
    have := hput p
    omega
  have howners : ∀ p, owners ⟨s', fun p => m.held p - put p + got p⟩ l' p ≤ owners m l p := by
    intro p
    have := hput p
    have := h₁ p
    show freeOf s' l' p + (m.held p - put p + got p) ≤ freeOf m.mem l p + m.held p
    omega
  exact ⟨l', hs', fun p => (howners p).trans (h.apart p), Nat.le_zero.1 ((howners 0).trans h.zero.le)⟩

theorem step_allotted {op : Op} (h : ∃ l, Allotted m l) (hop : Allowed m op)
    (hok : RestKept m op) : ∃ l, Allotted (step m op) l := by
  obtain ⟨l, h⟩ := h
  refine keeps_accounts.keeps (P := fun m => ∃ l, Allotted m l)
    (fun hkeeps hput => h.call hkeeps hput) (fun page v hpage => ?_) hop hok
  have hsound : Sound { m.mem with word := update m.mem.word page v } l :=
    ⟨h.sound.chained.write h.apart hpage v, h.sound.once, h.sound.tidy⟩
  exact ⟨l, hsound, h.apart, h.zero⟩

/-- The runs of the memory map put back. -/
theorem memTakeOver_allotted {map : List Span} {held : ℕ → ℕ} (hmap : ∀ p, tally map p + held p ≤ 1)
    (hzero : tally map 0 + held 0 = 0) (ramPages : ℕ) (word : ℕ → ℕ) :
    ∃ l, Allotted ⟨memTakeOver map ramPages word, held⟩ l := by
  have hfold := keeps_accounts.foldl fun s r => runAdd_keeps s r.first r.count
  have hle : ∀ p, freeOf (noPages word ramPages) [] p + tally map p ≤ 1 := by
    intro p
    have := hmap p
    show 0 + tally map p ≤ 1
    omega
  obtain ⟨l, hs, h₁⟩ := (hfold map (noPages word ramPages)).sound (noPages_sound word ramPages) hle
  have howners : ∀ p, freeOf (memTakeOver map ramPages word) l p ≤ tally map p := by
    intro p
    have h₂ : freeOf (memTakeOver map ramPages word) l p + 0 ≤ 0 + tally map p := h₁ p
    omega
  refine ⟨l, hs, fun p => ?_, ?_⟩
  · exact (Nat.add_le_add_right (howners p) _).trans (hmap p)
  · exact Nat.le_zero.1 ((Nat.add_le_add_right (howners 0) _).trans hzero.le)

/-! ### `mem_pages` without a disk cache -/

/-- The chain is drained before the list fills. -/
def Drains (s : State) : Prop := (drain s.looseCount s).loose = 0

/-- **`mem_pages` fails only when it must**: if it returns none, no pages that many in a row are free,
provided that the chain is drained; and if it returns some, they leave the free pages and no others. -/
structure FailsLate (s : State) (count : ℕ) : Prop where
  must : (memPages s count []).1 = 0 → Drains s → ¬ ∃ a, ∀ i < count, Free s (a + i)
  leaves : (memPages s count []).1 ≠ 0 → ∀ p, Free (memPages s count []).2.2 p ↔
    Free s p ∧ ¬ ((memPages s count []).1 ≤ p ∧ p < (memPages s count []).1 + count)
  takes : (memPages s count []).1 ≠ 0 → ∀ i < count, Free s ((memPages s count []).1 + i)

theorem failsLate (h : Allotted m l) (hcount : 0 < count) :
    FailsLate m.mem count := by
  have htook := (take_ready h.sound count).2
  have hpages : memPages m.mem count [] = ((take m.mem count).1, [], (take m.mem count).2) := rfl
  generalize take m.mem count = t at htook hpages
  cases htook with
  | got page s' l' hs' heq =>
    have hin : ∀ p, page ≤ p ∧ p < page + count ↔ 0 < (⟨page, count⟩ : Span).holds p := fun p =>
      (Span.holds_pos (s := ⟨page, count⟩)).symm
    refine ⟨fun hzero => ?_, fun _ p => ?_, fun _ i hi => ?_⟩ <;> rw [hpages] at *
    · have h₁ := heq 0
      have h₂ : freeOf m.mem l 0 + m.held 0 = 0 := h.zero
      have h₃ := (hin 0).1 ⟨hzero.le, Nat.add_pos_right page hcount⟩
      omega
    · rw [hs'.free_iff, h.sound.free_iff, hin]
      have := heq p
      have := h.sound.once p
      omega
    · have h₁ := heq (page + i)
      have h₂ := (hin (page + i)).1 ⟨Nat.le_add_right _ _, Nat.add_lt_add_left hi _⟩
      rw [h.sound.free_iff]
      show 0 < freeOf m.mem l (page + i)
      omega
  | failed s' l' hs' heq hshort hend =>
    refine ⟨fun _ hdrains => ?_, fun h => absurd (by rw [hpages]) h, fun h => absurd (by rw [hpages]) h⟩
    rintro ⟨a, ha⟩
    -- what is free is in runs now, and these are all too short
    have hloose : s'.loose = 0 := by
      rcases hend with hend | ⟨rfl, -⟩
      · exact hend
      · exact hdrains
    have hnil : l' = [] := by
      have := (hs'.loose_eq_zero).2 hloose
      rw [hs'.chained.count, List.length_eq_zero_iff] at this
      exact this
    have hheld : ∀ i < count, 0 < tally s'.runs (a + i) := by
      intro i hi
      have h₁ := (h.sound.free_iff _).1 (ha i hi)
      rw [← heq, hnil] at h₁
      exact h₁
    obtain ⟨r, hr, hfirst, hstop⟩ := hs'.tidy.spaced.covers hcount hheld
    have := hshort r hr
    unfold Span.stop at hstop
    omega

/-- **In every state** reached from the memory map on, in which page 0 is not, by calls whose callers keep
their promise and whose `mem_pages_below` calls do not spill, `mem_pages` without a disk cache fails only
when it must. -/
theorem run_failsLate (map : List Span) (ramPages : ℕ) (word held : ℕ → ℕ)
    (hmap : ∀ p, tally map p + held p ≤ 1) (hzero : tally map 0 + held 0 = 0) (ops : List Op)
    (hops : Along (fun m op => Allowed m op ∧ RestKept m op) step
      ⟨memTakeOver map ramPages word, held⟩ ops) {count : ℕ} (hcount : 0 < count) :
    FailsLate (run ⟨memTakeOver map ramPages word, held⟩ ops).mem count := by
  obtain ⟨l, h⟩ := hops.invariant (P := fun m => ∃ l, Allotted m l)
    (fun _ _ h hop => step_allotted h hop.1 hop.2) (memTakeOver_allotted hmap hzero ramPages word)
  exact failsLate h hcount

theorem run_failsLate_pages :
    FailsLate (run ⟨memTakeOver [⟨2 ^ 18, 100⟩] (2 ^ 20) fun _ => 0, fun _ => 0⟩
      [.pages 1 [], .takePage (2 ^ 18 + 9), .lent 16]).mem 64 := by
  have hops : Along (fun m op => Allowed m op ∧ RestKept m op) step
      ⟨memTakeOver [⟨2 ^ 18, 100⟩] (2 ^ 20) fun _ => 0, fun _ => 0⟩
      [.pages 1 [], .takePage (2 ^ 18 + 9), .lent 16] :=
    ⟨⟨fun _ => Nat.zero_le _, trivial⟩, ⟨trivial, trivial⟩, ⟨trivial, trivial⟩, trivial⟩
  refine run_failsLate _ _ _ _ (fun p => ?_) (by decide) _ hops (by decide)
  rw [tally_cons, tally_nil]
  exact Span.holds_le _ p

/-! ### A page returned that is still free -/

/-- A memory map in order, with a gap after each of its runs, is the list of runs. -/
theorem memTakeOver_eq {map : List Span} (h : Tidy map) (ramPages : ℕ) (word : ℕ → ℕ) :
    memTakeOver map ramPages word = { noPages word ramPages with runs := map } := by
  induction map using List.reverseRecOn with
  | nil => rfl
  | append_singleton map r ih =>
    have hmap : Tidy map := h.sublist (List.sublist_append_left map [r])
    have hpast := (List.pairwise_append.1 h.spaced).2.2
    have hroom := h.room
    rw [List.length_append, List.length_singleton] at hroom
    have hlast : memTakeOver (map ++ [r]) ramPages word =
        runAdd (memTakeOver map ramPages word) r.first r.count := List.foldl_append
    rw [hlast, ih hmap]
    exact runAdd_last (fun a ha => hpast a ha r (List.mem_singleton_self r)) (h.some_ r (by simp)) hroom

/-- As many runs as the list holds, three pages each, above the gigabyte. -/
def threes : List Span := (List.range 512).map fun k => ⟨2 ^ 18 + 4 * k, 3⟩

theorem threes_tidy : Tidy threes where
  spaced := by
    refine List.pairwise_map.2 (List.pairwise_lt_range.imp fun {i j} hij => ?_)
    show 2 ^ 18 + 4 * i + 3 < 2 ^ 18 + 4 * j
    omega
  some_ r hr := by
    obtain ⟨k, -, rfl⟩ := List.mem_map.1 hr
    exact Nat.succ_pos 2
  room := by
    unfold threes
    rw [List.length_map, List.length_range]
    exact le_rfl

/-- They are free. -/
def full : Machine := ⟨{ noPages (fun _ => 0) (2 ^ 20) with runs := threes }, fun _ => 0⟩

theorem full_runs : full.mem.runs = threes := by
  unfold full
  dsimp only

/-- The last page of the last of them. -/
def lastPage : ℕ := 2 ^ 18 + 4 * 511 + 2

/-- Pages no larger than any run of a full list, which they do not touch, go onto the chain. -/
theorem runAdd_spills {s : State} {page : ℕ} (hpos : 0 < count) (hj : joined s.runs page count = none)
    (hfull : s.runs.length = maxRuns) (hhigh : looseFloor ≤ page) (hleast : ∀ r ∈ s.runs, count ≤ r.count) :
    runAdd s page count = loosen page count s := by
  have hlt := smallest_lt (List.ne_nil_of_length_pos (by rw [hfull]; decide))
  have hget := List.getElem?_eq_getElem hlt
  have hsmall : isSmallest s.runs page count = true := by
    unfold isSmallest
    rw [decide_eq_true_eq, getD_of_getElem? hget]
    exact ⟨hhigh, .inr (hleast _ (List.getElem_mem hlt))⟩
  unfold runAdd
  rw [if_neg hpos.ne', hj]
  dsimp only
  rw [if_pos hfull, if_pos hsmall]

/-- The last run cut down to its first page, and its last page on the chain. -/
def cut : State := loosen lastPage 1 { full.mem with runs := keepFirst threes 511 1 }

/-- The first of two pages taken from the top of the last run: the list lets go of the second. -/
theorem full_runTake : runTake full.mem (lastPage - 1) = (true, cut) := by
  have hfind : threes.findIdx? (fun r => r.first ≤ lastPage - 1 ∧ lastPage - 1 < r.stop) = some 511 := by
    decide +kernel
  have hget : threes.getD 511 default = ⟨2 ^ 18 + 4 * 511, 3⟩ := by decide +kernel
  have hfacts : joined (keepFirst threes 511 1) lastPage 1 = none ∧ (keepFirst threes 511 1).length = maxRuns ∧
      ∀ r ∈ keepFirst threes 511 1, 1 ≤ r.count := by decide +kernel
  unfold runTake
  rw [full_runs, hfind]
  dsimp only
  rw [hget]
  have hleft : lastPage - 1 - (2 ^ 18 + 4 * 511) = 1 := by decide
  have hrest : (⟨2 ^ 18 + 4 * 511, 3⟩ : Span).stop - (lastPage - 1) - 1 = 1 := by decide
  have hnext : lastPage - 1 + 1 = lastPage := by decide
  rw [hleft, hrest, hnext, cut]
  generalize keepFirst threes 511 1 = runs at hfacts ⊢
  rw [runAdd_spills Nat.one_pos hfacts.1 hfacts.2.1 (by decide) hfacts.2.2]

theorem takeEach_two (page : ℕ) (s : State) :
    takeEach page 2 s = (runTake (runTake s page).2 (page + 1)).2 := rfl

/-- It takes the second all the same. -/
theorem full_takeBelow : takeBelow full.mem 2 (2 ^ 20) = (lastPage - 1, cut) := by
  have hrun : belowRun threes 2 (2 ^ 20) = some 511 := by decide +kernel
  have hget : threes.getD 511 default = ⟨2 ^ 18 + 4 * 511, 3⟩ := by decide +kernel
  have hnone : (runTake cut lastPage).2 = cut := by
    have hfind : cut.runs.findIdx? (fun r => r.first ≤ lastPage ∧ lastPage < r.stop) = none := by
      unfold cut
      rw [loosen_runs]
      decide +kernel
    unfold runTake
    rw [hfind]
  unfold takeBelow
  rw [full_runs, hrun]
  dsimp only
  rw [hget]
  have hpage : min (⟨2 ^ 18 + 4 * 511, 3⟩ : Span).stop (2 ^ 20) - 2 = lastPage - 1 := by decide
  have hnext : lastPage - 1 + 1 = lastPage := by decide
  rw [hpage, takeEach_two, full_runTake, hnext, hnone]

theorem step_free (s : State) (held : ℕ → ℕ) (page count : ℕ) :
    (step ⟨s, held⟩ (.free page count)).mem = memPagesFree s page count := rfl

/-- Without a disk cache nothing is given back to `mem_pages_below`. -/
theorem allowed_below (m : Machine) (count limit : ℕ) : Allowed m (.below count limit []) :=
  fun _ => Nat.zero_le _

/-- A `mem_pages_below` that finds pages hands them out. -/
theorem step_below {page : ℕ} {s : State}
    (h : takeBelow m.mem count limit = (page, s)) (hne : page ≠ 0) :
    step m (.below count limit []) = ⟨s, handOut m.held page count⟩ := by
  have hbelow : memPagesBelow m.mem count limit [] = (page, [], s) := by
    unfold memPagesBelow
    rw [h]
  simp only [step, hbelow, if_neg hne]
  rfl

set_option maxRecDepth 10000 in
/-- Given back, the second of them is in a run, and on the chain as well. -/
theorem cut_freed :
    (memPages (memPagesFree cut (lastPage - 1) 2) 1 []).1 = lastPage ∧
      (memPages (memPagesFree cut (lastPage - 1) 2) 1 []).2.2.runs.any
        (fun r => r.first ≤ lastPage ∧ lastPage < r.stop) = true := by
  decide

/-- **A page returned that is still free**: let go of to the chain while it was handed out, it is put
back as well, and `mem_pages` takes it off the chain only. -/
theorem exists_not_failsLate :
    ∃ map ops, (∀ p, tally map p ≤ 1) ∧ tally map 0 = 0 ∧
      Along Allowed step ⟨memTakeOver map (2 ^ 20) fun _ => 0, fun _ => 0⟩ ops ∧
      ¬ FailsLate (run ⟨memTakeOver map (2 ^ 20) fun _ => 0, fun _ => 0⟩ ops).mem 1 := by
  have hzero : tally threes 0 = 0 := by
    refine Spaced.tally_eq_zero fun r hr => .inl ?_
    obtain ⟨k, -, rfl⟩ := List.mem_map.1 hr
    exact Nat.add_pos_left (by decide) _
  have hbelow : step full (.below 2 (2 ^ 20) []) = ⟨cut, handOut full.held (lastPage - 1) 2⟩ :=
    step_below full_takeBelow (by decide)
  have hfull : (⟨memTakeOver threes (2 ^ 20) fun _ => 0, fun _ => 0⟩ : Machine) = full := by
    rw [memTakeOver_eq threes_tidy, full]
  refine ⟨threes, [.below 2 (2 ^ 20) [], .free (lastPage - 1) 2], threes_tidy.spaced.tally_le, hzero, ?_⟩
  obtain ⟨hpage, hruns⟩ := cut_freed
  unfold run
  rw [hfull, List.foldl_cons, List.foldl_cons, List.foldl_nil, hbelow]
  refine ⟨⟨allowed_below full 2 (2 ^ 20), ?_, trivial⟩, fun h => ?_⟩
  · rw [hbelow]
    exact fun p => Nat.le_add_left _ _
  · rw [step_free] at h
    obtain ⟨r, hr, hin⟩ := List.any_eq_true.1 hruns
    rw [decide_eq_true_eq] at hin
    have hleaves := h.leaves (by rw [hpage]; decide) lastPage
    rw [hpage] at hleaves
    exact (hleaves.1 (.inl ((Span.holds_pos.2 hin).trans_le (Spaced.holds_le_tally_of_mem hr _)))).2
      ⟨le_rfl, Nat.lt_succ_self _⟩

end BaxOS.Mem
