import BaxOS.Lib.Spans
import BaxOS.Lib.Chain

/-!
# The kernel's pages: `mem_pages`, `mem_pages_below`, `mem_pages_free`

The state of `kernel/mem.c` once memory is the kernel's (`ours`): the runs of free memory, a list of
at most `RUNS` of them sorted by address, and the single pages, chained through their own first
word. Addresses are in pages; `word p` is the first word of page `p`, which whoever has the page
may write.

The disk cache is asked for memory back where there is not enough. What it gives back at each
asking is an argument: runs of pages it has, none where it has nothing more to give.
-/

namespace BaxOS.Mem
open Spans Function

/-- `RUNS`. -/
def maxRuns : ℕ := 512
/-- `LOOSE_FLOOR`: a gigabyte. -/
def looseFloor : ℕ := 2 ^ 18
/-- `LOOSE_FILL`. -/
def looseFill : ℕ := 16
/-- `FIXED_TOP`: a gigabyte. -/
def fixedTop : ℕ := 2 ^ 18

/-- The module's state: `runs`, `loose` and `loose_count`, and the first word of each page.
`ramPages` is the machine's memory. -/
structure State where
  runs : List Span
  loose : ℕ
  looseCount : ℕ
  word : ℕ → ℕ
  ramPages : ℕ

/-- `loosen`: pages put on the chain, but for those low down, which are lost. -/
def loosen : ℕ → ℕ → State → State
  | _, 0, s => s
  | page, count + 1, s =>
    loosen (page + 1) count (if page < looseFloor then s else
      { s with
        word := update s.word page s.loose
        loose := page
        looseCount := s.looseCount + 1 })

/-- The first page of the chain, taken off it. -/
def State.popped (s : State) : State :=
  { s with
    loose := s.word s.loose
    looseCount := s.looseCount - 1 }

/-! ### Putting back -/

/-- Where among the runs a page belongs. -/
def place (runs : List Span) (page : ℕ) : ℕ := runs.findIdx fun r => page ≤ r.first

/-- The run before place `i` where it ends at `page`. -/
def touchesLast (runs : List Span) (i page : ℕ) : Option Span :=
  (if 0 < i then runs[i - 1]? else none).filter fun r => r.stop = page

/-- The run at place `i` where it starts at `page`. -/
def touchesNext (runs : List Span) (i page : ℕ) : Option Span :=
  runs[i]?.filter fun r => page = r.first

/-- The runs with some pages joined to what they touch, where they touch anything. -/
def joined (runs : List Span) (page count : ℕ) : Option (List Span) :=
  let i := place runs page
  match touchesLast runs i page with
  | some last =>
    match touchesNext runs i (page + count) with
    | some next =>
      some ((runs.set (i - 1) ⟨last.first, last.count + count + next.count⟩).eraseIdx i)
    | none => some (runs.set (i - 1) ⟨last.first, last.count + count⟩)
  | none =>
    match touchesNext runs i (page + count) with
    | some next => some (runs.set i ⟨page, next.count + count⟩)
    | none => none

/-- Whether run `j` is a better one to let go of than the smallest so far, `best`. -/
def smaller (runs : List Span) (j best : ℕ) : Bool :=
  let high := looseFloor ≤ (runs.getD j default).first
  let bestHigh := best < runs.length ∧ looseFloor ≤ (runs.getD best default).first
  best = runs.length ∨ high ∧ ¬ bestHigh ∨
    (high ↔ bestHigh) ∧ (runs.getD j default).count < (runs.getD best default).count

/-- The smallest run, a high one if there is one. -/
def smallest (runs : List Span) : ℕ :=
  (List.range runs.length).foldl (fun best j => if smaller runs j best then j else best) runs.length

/-- Whether some pages are themselves what a full list lets go of. -/
def isSmallest (runs : List Span) (page count : ℕ) : Bool :=
  looseFloor ≤ page ∧ ((runs.getD (smallest runs) default).first < looseFloor ∨
    count ≤ (runs.getD (smallest runs) default).count)

/-- `run_add`. -/
def runAdd (s : State) (page count : ℕ) : State :=
  if count = 0 then s
  else
    match joined s.runs page count with
    | some runs => { s with runs := runs }
    | none =>
      let i := place s.runs page
      if s.runs.length = maxRuns then
        if isSmallest s.runs page count then loosen page count s
        else
          let j := smallest s.runs
          let least := s.runs.getD j default
          let s := loosen least.first least.count s
          { s with runs := (s.runs.eraseIdx j).insertIdx (if j < i then i - 1 else i) ⟨page, count⟩ }
      else { s with runs := s.runs.insertIdx i ⟨page, count⟩ }

/-! ### Taking -/

/-- A run cut down to its first pages, or gone where none are left. -/
def keepFirst (runs : List Span) (i left : ℕ) : List Span :=
  if left = 0 then runs.eraseIdx i else runs.set i ⟨(runs.getD i default).first, left⟩

/-- `run_take`: a page taken out of whatever run holds it. -/
def runTake (s : State) (page : ℕ) : Bool × State :=
  match s.runs.findIdx? fun r => r.first ≤ page ∧ page < r.stop with
  | none => (false, s)
  | some i =>
    let r := s.runs.getD i default
    (true, runAdd { s with runs := keepFirst s.runs i (page - r.first) } (page + 1)
      (r.stop - page - 1))

/-- The last run there is of a kind. -/
def lastRun (runs : List Span) (p : Span → Bool) : Option ℕ :=
  (List.range runs.length).reverse.find? fun i => p (runs.getD i default)

/-- The top `count` pages of run `i`. -/
def takeTop (s : State) (i count : ℕ) : ℕ × State :=
  let r := s.runs.getD i default
  (r.stop - count, { s with runs := keepFirst s.runs i (r.count - count) })

/-- The chain filled from the top run that is long and high enough. -/
def fillLoose (s : State) : State :=
  match lastRun s.runs fun r => looseFill ≤ r.count ∧ looseFloor + looseFill < r.stop with
  | none => s
  | some i =>
    let (page, s) := takeTop s i looseFill
    if page < looseFloor then runAdd s page looseFill else loosen page looseFill s

/-- The single pages put back into runs, as long as there is room. -/
def drain : ℕ → State → State
  | 0, s => s
  | fuel + 1, s =>
    if s.loose ≠ 0 ∧ s.runs.length < maxRuns - 1 then drain fuel (runAdd s.popped s.loose 1)
    else s

/-- The top of the last run that is long enough. -/
def takeLong (s : State) (count : ℕ) : Option (ℕ × State) :=
  (lastRun s.runs fun r => count ≤ r.count).map fun i => takeTop s i count

/-- `take`. The chain is drained where no run is long enough, once; it holds `loose_count` pages. -/
def take (s : State) (count : ℕ) : ℕ × State :=
  let s := if count = 1 ∧ s.loose = 0 then fillLoose s else s
  if count = 1 ∧ s.loose ≠ 0 then (s.loose, s.popped)
  else
    match takeLong s count with
    | some r => r
    | none =>
      if s.looseCount = 0 then (0, s)
      else
        let s := drain s.looseCount s
        (takeLong s count).getD (0, s)

/-- `mem_pages_free`. -/
def memPagesFree (s : State) (page count : ℕ) : State :=
  if count = 1 ∧ looseFloor ≤ page then loosen page 1 s else runAdd s page count

/-- What the disk cache gives back when it is asked. -/
def shrink (s : State) (given : List Span) : State :=
  given.foldl (fun s r => memPagesFree s r.first r.count) s

/-- `floor_kept`. -/
def floorKept (s : State) : ℕ := if fixedTop < s.ramPages then fixedTop else 0

/-- `mem_pages`, with what the disk cache gives back each time it is asked: the pages, what it has
given back, and the state. -/
def memPages (s : State) (count : ℕ) : List (List Span) → ℕ × List Span × State
  | [] => let (page, s) := take s count; (page, [], s)
  | given :: rest =>
    let (page, s) := take s count
    if page ≠ 0 ∧ floorKept s ≤ page then (page, [], s)
    else
      let s := shrink s given
      if given = [] then (page, [], s)
      else
        let (page, more, s) := memPages (if page ≠ 0 then runAdd s page count else s) count rest
        (page, given ++ more, s)

/-- `mem_pages_lent`. -/
def memPagesLent (s : State) (count : ℕ) : ℕ × State :=
  let (page, s) := take s count
  if page ≠ 0 ∧ page < floorKept s then (0, runAdd s page count) else (page, s)

/-- The loop that takes the pages of `take_below`. Whether a run held the page is not asked. -/
def takeEach : ℕ → ℕ → State → State
  | _, 0, s => s
  | page, count + 1, s => takeEach (page + 1) count (runTake s page).2

/-- The run `take_below` takes from. -/
def belowRun (runs : List Span) (count limit : ℕ) : Option ℕ :=
  lastRun runs fun r => r.first + count ≤ min r.stop limit

/-- `take_below`. -/
def takeBelow (s : State) (count limit : ℕ) : ℕ × State :=
  match belowRun s.runs count limit with
  | none => (0, s)
  | some i =>
    let page := min (s.runs.getD i default).stop limit - count
    (page, takeEach page count s)

/-- `mem_pages_below`, as `mem_pages`. -/
def memPagesBelow (s : State) (count limit : ℕ) : List (List Span) → ℕ × List Span × State
  | [] => let (page, s) := takeBelow s count limit; (page, [], s)
  | given :: rest =>
    let (page, s) := takeBelow s count limit
    if page ≠ 0 then (page, [], s)
    else
      let s := shrink s given
      if given = [] then (page, [], s)
      else
        let (page, more, s) := memPagesBelow s count limit rest
        (page, given ++ more, s)

/-- `mem_take_page`. -/
def memTakePage (s : State) (page : ℕ) : Bool × State := runTake s page

/-- `mem_take_over`: the runs the memory map says are free. -/
def memTakeOver (map : List Span) (ramPages : ℕ) (word : ℕ → ℕ) : State :=
  map.foldl (fun s r => runAdd s r.first r.count) ⟨[], 0, 0, word, ramPages⟩

/-! ### Runs -/

/-- The allocator, and how many have each page. -/
structure Machine where
  mem : State
  held : ℕ → ℕ

/-- Pages handed out. -/
def handOut (held : ℕ → ℕ) (page count : ℕ) : ℕ → ℕ :=
  fun p => held p + (⟨page, count⟩ : Span).holds p

/-- Pages given back. -/
def giveBack (held : ℕ → ℕ) (given : List Span) : ℕ → ℕ := fun p => held p - tally given p

/-- A call, or a write to a page by whoever has it. -/
inductive Op
  | pages (count : ℕ) (shrinks : List (List Span))
  | lent (count : ℕ)
  | below (count limit : ℕ) (shrinks : List (List Span))
  | takePage (page : ℕ)
  | free (page count : ℕ)
  | write (page v : ℕ)

/-- One of them. -/
def step (m : Machine) : Op → Machine
  | .pages count shrinks =>
    let (page, given, s) := memPages m.mem count shrinks
    let held := giveBack m.held given
    ⟨s, if page = 0 then held else handOut held page count⟩
  | .lent count =>
    let (page, s) := memPagesLent m.mem count
    ⟨s, if page = 0 then m.held else handOut m.held page count⟩
  | .below count limit shrinks =>
    let (page, given, s) := memPagesBelow m.mem count limit shrinks
    let held := giveBack m.held given
    ⟨s, if page = 0 then held else handOut held page count⟩
  | .takePage page =>
    let (taken, s) := memTakePage m.mem page
    ⟨s, if taken then handOut m.held page 1 else m.held⟩
  | .free page count => ⟨memPagesFree m.mem page count, giveBack m.held [⟨page, count⟩]⟩
  | .write page v => { m with mem := { m.mem with word := update m.mem.word page v } }

/-- All of them in turn. -/
def run (m : Machine) (ops : List Op) : Machine := ops.foldl step m

end BaxOS.Mem
