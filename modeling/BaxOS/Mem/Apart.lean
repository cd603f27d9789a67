import BaxOS.Mem.Owners

/-!
# No page has two owners

`owners m l p` counts who has page `p`: the runs, the chain, and whoever it was handed out to. In
every run whose `mem_pages_below` calls do not spill it is at most one, for every page and in every
state (`run_apart`); so no call hands out a page that somebody still has. A full list that lets go
of the rest of a run `mem_pages_below` is taking from breaks it (`exists_not_apart`).
-/

namespace BaxOS.Mem
open Spans Function Chains Runs

variable {m : Machine} {page : ℕ}

/-- How many have a page: the allocator, and whoever it was handed out to. -/
def owners (m : Machine) (l : List ℕ) (p : ℕ) : ℕ := freeOf m.mem l p + m.held p

/-- **No page has two owners.** -/
def Apart (m : Machine) : Prop := ∃ l, Chained m.mem l ∧ ∀ p, owners m l p ≤ 1

/-- What callers promise: they give back only what they have, and write only to that. -/
def Allowed (m : Machine) : Op → Prop
  | .pages count shrinks => ∀ p, tally (memPages m.mem count shrinks).2.1 p ≤ m.held p
  | .below count limit shrinks =>
    ∀ p, tally (memPagesBelow m.mem count limit shrinks).2.1 p ≤ m.held p
  | .free page count => ∀ p, (⟨page, count⟩ : Span).holds p ≤ m.held p
  | .write page _ => 0 < m.held page
  | _ => True

/-- What a step must meet: a `mem_pages_below` does not spill. -/
def RestKept (m : Machine) : Op → Prop
  | .below count limit shrinks => spillsBelow m.mem count limit shrinks = false
  | _ => True

/-- A call that hands out some pages and takes back others. -/
theorem Apart.call {s' : State} {put got : ℕ → ℕ} (h : Apart m)
    (hserves : Serves m.mem put s' got) (hput : ∀ p, put p ≤ m.held p) :
    Apart ⟨s', fun p => m.held p - put p + got p⟩ := by
  obtain ⟨l, hl, hle⟩ := h
  have howners : ∀ p, freeOf m.mem l p + m.held p ≤ 1 := hle
  obtain ⟨l', hl', h1, -⟩ := hserves l hl fun p => by
    have := howners p
    have := hput p
    omega
  refine ⟨l', hl', fun p => ?_⟩
  have := howners p
  have := hput p
  have := h1 p
  show freeOf s' l' p + (m.held p - put p + got p) ≤ 1
  omega

/-- What is held once a call has handed out pages, if any. -/
theorem handOut_eq (held : ℕ → ℕ) (page count : ℕ) :
    (if page = 0 then held else handOut held page count) =
      fun p => held p + gotten page count p := by
  funext p
  unfold gotten handOut
  split_ifs
  · rfl
  · rfl

/-- A page somebody has is not on the chain, so that no link changes when it is written to. -/
theorem Chained.write {l : List ℕ} (hl : Chained m.mem l) (hle : ∀ p, owners m l p ≤ 1)
    (hpage : 0 < m.held page) (v : ℕ) :
    Chained { m.mem with word := update m.mem.word page v } l := by
  refine ⟨hl.linked.congr fun p hp => ?_, hl.high, hl.count, hl.room⟩
  show link (update m.mem.word page v p) = link (m.mem.word p)
  rw [update_of_ne]
  rintro rfl
  have h1 : tally m.mem.runs p + l.count p + m.held p ≤ 1 := hle p
  have h2 := List.count_pos_iff.2 hp
  omega

/-- What is so whatever pages a call hands out and takes back, and whatever is written to a page
somebody has, stays so. -/
theorem Accounts.keeps {R : State → (ℕ → ℕ) → State → (ℕ → ℕ) → Prop} (h : Accounts R)
    {P : Machine → Prop} (hcall : ∀ {s' put got}, R m.mem put s' got → (∀ p, put p ≤ m.held p) →
      P ⟨s', fun p => m.held p - put p + got p⟩)
    (hwrite : ∀ page v, 0 < m.held page →
      P { m with mem := { m.mem with word := update m.mem.word page v } })
    {op : Op} (hop : Allowed m op) (hok : RestKept m op) : P (step m op) := by
  cases op with
  | pages count shrinks =>
    have := hcall (h.memPages m.mem count shrinks) hop
    unfold step
    simp only [handOut_eq]
    exact this
  | lent count =>
    have := hcall (h.memPagesLent m.mem count) fun _ => Nat.zero_le _
    unfold step
    simp only [handOut_eq]
    exact this
  | below count limit shrinks =>
    have := hcall (h.memPagesBelow hok) hop
    unfold step
    simp only [handOut_eq]
    exact this
  | takePage page =>
    have := hcall (h.takePage m.mem page) fun _ => Nat.zero_le _
    simp only [step]
    generalize memTakePage m.mem page = t at this ⊢
    obtain ⟨taken, s'⟩ := t
    cases taken with
    | true => exact this
    | false => exact this
  | free page count =>
    have := hcall (h.free m.mem page count) hop
    unfold step giveBack
    simp only [tally_cons, tally_nil, Nat.add_zero]
    exact this
  | write page v => exact hwrite page v hop

theorem step_apart {op : Op} (h : Apart m) (hop : Allowed m op)
    (hok : RestKept m op) : Apart (step m op) := by
  refine serves_accounts.keeps (fun hserves hput => h.call hserves hput) (fun page v hpage => ?_)
    hop hok
  obtain ⟨l, hl, hle⟩ := h
  exact ⟨l, hl.write hle hpage v, hle⟩

/-- The runs of the memory map are put back as any pages are. -/
theorem memTakeOver_apart {map : List Span} {held : ℕ → ℕ} (hmap : ∀ p, tally map p + held p ≤ 1)
    (ramPages : ℕ) (word : ℕ → ℕ) : Apart ⟨memTakeOver map ramPages word, held⟩ := by
  have hfold := serves_accounts.foldl fun s r => (runAdd_serves s r.first r.count).1
  have hstart : Chained ⟨[], 0, 0, word, ramPages⟩ [] := ⟨rfl, by simp, rfl, by simp⟩
  obtain ⟨l, hl, h1, -⟩ := hfold map ⟨[], 0, 0, word, ramPages⟩ [] hstart fun p => by
    have := hmap p
    show 0 + 0 + tally map p ≤ 1
    omega
  refine ⟨l, hl, fun p => ?_⟩
  have h2 : freeOf (memTakeOver map ramPages word) l p + 0 ≤ 0 + 0 + tally map p := h1 p
  have := hmap p
  show freeOf (memTakeOver map ramPages word) l p + held p ≤ 1
  omega

/-- **No page has two owners**: from the memory map on, in every run whose callers keep their
promise and whose `mem_pages_below` calls do not spill, every page is in one run, on the chain or
handed out, and only once, at every step. -/
theorem run_apart (map : List Span) (ramPages : ℕ) (word held : ℕ → ℕ)
    (hmap : ∀ p, tally map p + held p ≤ 1) (ops : List Op)
    (hops : Along (fun m op => Allowed m op ∧ RestKept m op) step
      ⟨memTakeOver map ramPages word, held⟩ ops) :
    Apart (run ⟨memTakeOver map ramPages word, held⟩ ops) :=
  hops.invariant (fun _ _ h hop => step_apart h hop.1 hop.2) (memTakeOver_apart hmap ramPages word)

theorem run_apart_below :
    Apart (run ⟨memTakeOver [⟨2 ^ 18, 100⟩] (2 ^ 20) fun _ => 0, fun _ => 0⟩
      [.pages 1 [], .takePage (2 ^ 18 + 9), .below 2 (2 ^ 20) [], .lent 16]) := by
  refine run_apart _ _ _ _ (fun p => ?_) _ ⟨⟨fun p => ?_, trivial⟩, ⟨trivial, trivial⟩,
    ⟨fun p => ?_, ?_⟩, ⟨trivial, trivial⟩, trivial⟩
  · rw [tally_cons, tally_nil]
    exact Span.holds_le _ p
  · exact Nat.zero_le _
  · exact Nat.zero_le _
  · show spillsBelow _ _ _ _ = false
    decide

/-- A page high up is let go of where no run is empty. -/
theorem isSmallest_page {runs : List Span} (hne : runs ≠ []) (hpage : looseFloor ≤ page)
    (hcount : ∀ r ∈ runs, 1 ≤ r.count) : isSmallest runs page 1 = true := by
  have hlt := smallest_lt hne
  have hmem : runs.getD (smallest runs) default ∈ runs := by
    rw [List.getD_eq_getElem?_getD, List.getElem?_eq_getElem hlt, Option.getD_some]
    exact List.getElem_mem hlt
  unfold isSmallest
  rw [decide_eq_true_eq]
  exact ⟨hpage, .inr (hcount _ hmem)⟩

theorem runAdd_full {s : State} (hjoined : joined s.runs page 1 = none)
    (hfull : s.runs.length = maxRuns) (hpage : looseFloor ≤ page) (hcount : ∀ r ∈ s.runs, 1 ≤ r.count) :
    (runAdd s page 1).loose = page ∧ (runAdd s page 1).runs = s.runs := by
  have hne : s.runs ≠ [] := by
    intro h
    rw [h] at hfull
    exact absurd hfull (by decide)
  rw [runAdd, if_neg one_ne_zero, hjoined]
  simp only [hfull, if_true, isSmallest_page hne hpage hcount, loosen, if_neg (not_lt.2 hpage)]
  exact ⟨trivial, trivial⟩

/-- The second of two pages taken from a run's top goes to the chain where the list is full. -/
theorem below_loose {i limit : ℕ} {runs : List Span}
    (hrun : belowRun m.mem.runs 2 limit = some i)
    (hpage : min (m.mem.runs.getD i default).stop limit - 2 = page)
    (hfind : (m.mem.runs.findIdx? fun r => r.first ≤ page ∧ page < r.stop) = some i)
    (hstop : (m.mem.runs.getD i default).stop - page - 1 = 1)
    (hruns : keepFirst m.mem.runs i (page - (m.mem.runs.getD i default).first) = runs)
    (hjoined : joined runs (page + 1) 1 = none) (hfull : runs.length = maxRuns)
    (hhigh : looseFloor ≤ page + 1) (hcount : ∀ r ∈ runs, 1 ≤ r.count)
    (hgone : (runs.findIdx? fun r => r.first ≤ page + 1 ∧ page + 1 < r.stop) = none) :
    (step m (.below 2 limit [])).mem.loose = page + 1 := by
  obtain ⟨hloose, hkept⟩ := runAdd_full (s := { m.mem with runs }) hjoined hfull hhigh hcount
  simp only [step, memPagesBelow, takeBelow, hrun, hpage, takeEach, runTake, hfind, hstop, hruns, hkept, hgone]
  exact hloose

theorem run_concat (m : Machine) (ops : List Op) (op : Op) : run m (ops ++ [op]) = step (run m ops) op :=
  List.foldl_concat step m op ops

/-- Every other page of the first thousand taken, the highest first: 512 runs are left. -/
def holes : List Op := (List.range 511).map fun k => .takePage (2 ^ 18 + 1021 - 2 * k)

/-- The machine once they are. -/
def holed : Machine := run ⟨memTakeOver [⟨2 ^ 18, 1100⟩] (2 ^ 20) fun _ => 0, fun _ => 0⟩ holes

set_option maxRecDepth 10000 in
/-- **A page with two owners.** The list is full when two pages are taken from the top of its last
run: the page after the first is let go of to the chain, and is handed out all the same. -/
theorem exists_not_apart :
    Along Allowed step ⟨memTakeOver [⟨2 ^ 18, 1100⟩] (2 ^ 20) fun _ => 0, fun _ => 0⟩
      (holes ++ [.below 2 (2 ^ 20) []]) ∧
    ¬ Apart (run ⟨memTakeOver [⟨2 ^ 18, 1100⟩] (2 ^ 20) fun _ => 0, fun _ => 0⟩
      (holes ++ [.below 2 (2 ^ 20) []])) := by
  refine ⟨Along.of_forall fun op hop m => ?_, fun ⟨l, hl, hle⟩ => ?_⟩
  · rcases List.mem_append.1 hop with hop | hop
    · obtain ⟨k, -, rfl⟩ := List.mem_map.1 hop
      trivial
    · obtain rfl := List.mem_singleton.1 hop
      exact fun p => Nat.zero_le _
  · have hpage : min (holed.mem.runs.getD 511 default).stop (2 ^ 20) - 2 = 2 ^ 18 + 1098 := by decide
    have hall : (keepFirst holed.mem.runs 511 (2 ^ 18 + 1098 - (holed.mem.runs.getD 511 default).first)).all
        (fun r => 1 ≤ r.count) = true := by decide
    have hloose : (step holed (.below 2 (2 ^ 20) [])).mem.loose = 2 ^ 18 + 1099 :=
      below_loose (by decide) hpage (by decide) (by decide) rfl (by decide)
        (by decide) (by decide) (fun r hr => of_decide_eq_true (List.all_eq_true.1 hall r hr))
        (by decide)
    have hheld : (step holed (.below 2 (2 ^ 20) [])).held (2 ^ 18 + 1099) = 1 := by decide
    rw [run_concat] at hl hle
    change Chained (step holed (.below 2 (2 ^ 20) [])).mem l at hl
    have hmem : 2 ^ 18 + 1099 ∈ l := by
      have hlinked := hl.linked
      rw [hloose] at hlinked
      cases l with
      | nil => exact absurd (link_eq_none.1 hlinked) (by decide)
      | cons a l =>
        rw [(link_eq_some.1 hlinked.1).1]
        exact List.mem_cons_self
    have h1 : owners (step holed (.below 2 (2 ^ 20) [])) l (2 ^ 18 + 1099) ≤ 1 := hle (2 ^ 18 + 1099)
    have h2 := List.count_pos_iff.2 hmem
    unfold owners freeOf at h1
    omega

end BaxOS.Mem
