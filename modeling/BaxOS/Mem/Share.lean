import BaxOS.Fs.Disk
import BaxOS.Lib.Buckets

/-!
# The pages processes have in common: `shared_find`, `shared_add`, `shared_drop`

The state of `kernel/share.c`: entries, each on up to two chains, by what page of what file it is
and by where it is, and the free ones chained through `next_key`. Pages are given by their numbers.
Whether there is memory for a bigger table, each time one is wanted, is part of the state.

`Shares` is what the table is for: which pages there are, what each is a page of, and how many
hold it. `Spec` says what each call does to that and answers.
-/

namespace BaxOS.Share
open Fs Buckets Function

/-- `SECTORS`: those of a page. -/
def pageSectors : ℕ := 8
/-- `FIRST_ROOM`. -/
def firstRoom : ℕ := 256

/-- `struct entry`. -/
structure Entry where
  start : ℕ
  index : ℕ
  frame : ℕ
  refs : ℕ
  nextKey : ℕ
  nextFrame : ℕ

/-- The module's state. -/
structure State where
  entries : ℕ → Entry
  byKey : ℕ → ℕ
  byFrame : ℕ → ℕ
  room : ℕ
  used : ℕ
  freeHead : ℕ
  memory : ℕ → Bool

/-- The links of the chains by what pages are. -/
def State.nextKey (s : State) : ℕ → ℕ := fun i => (s.entries i).nextKey
/-- The links of the chains by where pages are. -/
def State.nextFrame (s : State) : ℕ → ℕ := fun i => (s.entries i).nextFrame

/-- Entry `i` changed. -/
def State.setEntry (s : State) (i : ℕ) (e : Entry) : State :=
  { s with entries := update s.entries i e }

/-- `key_hash`. -/
def keyHash (s : State) (start index : ℕ) : ℕ :=
  (u32 (start * 2654435761) ^^^ u32 (index * 40503)) &&& (s.room - 1)

/-- `frame_hash`. -/
def frameHash (s : State) (frame : ℕ) : ℕ := u32 (frame * 2654435761) &&& (s.room - 1)

/-- A link of a chain by what pages are. -/
def State.setKeyLink (s : State) (b : ℕ) (at_ : Link) (v : ℕ) : State :=
  let next := setNext s.nextKey at_ v
  { s with
    byKey := setHead s.byKey b at_ v
    entries := fun i => { s.entries i with nextKey := next i } }

/-- A link of a chain by where pages are. -/
def State.setFrameLink (s : State) (b : ℕ) (at_ : Link) (v : ℕ) : State :=
  let next := setNext s.nextFrame at_ v
  { s with
    byFrame := setHead s.byFrame b at_ v
    entries := fun i => { s.entries i with nextFrame := next i } }

/-- `link_key`. -/
def linkKey (s : State) (i : ℕ) : State :=
  let b := keyHash s (s.entries i).start (s.entries i).index
  { s.setEntry i { s.entries i with nextKey := s.byKey b } with byKey := update s.byKey b (i + 1) }

/-- `unlink_key`. -/
def unlinkKey (s : State) (i : ℕ) : State :=
  let b := keyHash s (s.entries i).start (s.entries i).index
  let (at_, v) := seekLink s.nextKey (· == i) s.room .head (s.byKey b)
  let s := if v = i + 1 then s.setKeyLink b at_ (s.entries i).nextKey else s
  s.setEntry i { s.entries i with start := 0 }

/-- An entry put on the chain by where its page is. -/
def linkFrame (s : State) (i : ℕ) : State :=
  let b := frameHash s (s.entries i).frame
  { s.setEntry i { s.entries i with nextFrame := s.byFrame b } with
    byFrame := update s.byFrame b (i + 1) }

/-- `of_frame`: the link to a page's entry, and its number plus one. -/
def ofFrame (s : State) (page : ℕ) : Link × ℕ :=
  let frame := u32 page
  seekLink s.nextFrame (fun i => (s.entries i).frame == frame) s.room .head
    (s.byFrame (frameHash s frame))

/-- An entry put with the free ones. -/
def release (s : State) (i : ℕ) : State :=
  { s.setEntry i { s.entries i with nextKey := s.freeHead } with freeHead := i + 1 }

/-- The chains of a bigger table, built from the entries below `n`, the last first. -/
def rebuild : ℕ → State → State
  | 0, s => s
  | i + 1, s =>
    rebuild i (if (s.entries i).refs = 0 then release s i
      else linkFrame (if (s.entries i).start ≠ 0 then linkKey s i else s) i)

/-- `grow`. -/
def grow (s : State) : Bool × State :=
  let s1 := { s with memory := fun n => s.memory (n + 1) }
  if s.memory 0 then
    let bigger := if s.room = 0 then firstRoom else u32 (s.room * 2)
    (true, rebuild bigger
      { s1 with
        entries := fun i => if i < s.room then s.entries i else ⟨0, 0, 0, 0, 0, 0⟩
        byKey := fun _ => 0
        byFrame := fun _ => 0
        room := bigger
        freeHead := 0 })
  else (false, s1)

/-- The entry `shared_find` finds. -/
def findKey (s : State) (start index : ℕ) : Option ℕ :=
  (seekLink s.nextKey (fun i => (s.entries i).start == start && (s.entries i).index == index)
    s.room .head (s.byKey (keyHash s start index))).2.ppred

/-- `shared_find`. -/
def sharedFind (s : State) (start index : ℕ) : ℕ × State :=
  if s.room = 0 then (0, s)
  else
    match findKey s start index with
    | none => (0, s)
    | some i =>
      let e := s.entries i
      (e.frame, s.setEntry i { e with refs := u32 (e.refs + 1) })

/-- A free entry, where there is one or memory for more. -/
def withFree (s : State) : Bool × State := if s.freeHead = 0 then grow s else (true, s)

/-- The first free entry made one of a page. -/
def takeFree (s : State) (start index page : ℕ) : State :=
  let i := s.freeHead - 1
  { s.setEntry i ⟨start, index, u32 page, 1, 0, 0⟩ with freeHead := s.nextKey i }

/-- `shared_add`. -/
def sharedAdd (s : State) (start index page : ℕ) : Bool × State :=
  match withFree s with
  | (false, s) => (false, s)
  | (true, s) =>
    let i := s.freeHead - 1
    (true, { linkFrame (linkKey (takeFree s start index page) i) i with used := u32 (s.used + 1) })

/-- `shared_adopt`. -/
def sharedAdopt (s : State) (page : ℕ) : Bool × State :=
  match withFree s with
  | (false, s) => (false, s)
  | (true, s) =>
    let i := s.freeHead - 1
    (true, { linkFrame (takeFree s 0 0 page) i with used := u32 (s.used + 1) })

/-- A page's entry taken off its chains and put with the free ones. -/
def letGo (s : State) (page : ℕ) (at_ : Link) (i : ℕ) : State :=
  let s := s.setFrameLink (frameHash s (u32 page)) at_ (s.entries i).nextFrame
  let s := if (s.entries i).start ≠ 0 then unlinkKey s i else s
  let s := s.setEntry i { s.entries i with refs := 0 }
  { release s i with used := u32 (s.used + 2 ^ 32 - 1) }

/-- `shared_take`. -/
def sharedTake (s : State) (page : ℕ) : Bool × State :=
  match ofFrame s page with
  | (_, 0) => (false, s)
  | (at_, i + 1) => if (s.entries i).refs ≠ 1 then (false, s) else (true, letGo s page at_ i)

/-- `shared_hold`. -/
def sharedHold (s : State) (page : ℕ) : State :=
  match ofFrame s page with
  | (_, 0) => s
  | (_, i + 1) => s.setEntry i { s.entries i with refs := u32 ((s.entries i).refs + 1) }

/-- `shared_drop`, with the pages it gives to `mem_pages_free`. -/
def sharedDrop (s : State) (page : ℕ) : List ℕ × State :=
  match ofFrame s page with
  | (_, 0) => ([], s)
  | (at_, i + 1) =>
    let refs := u32 ((s.entries i).refs + 2 ^ 32 - 1)
    if 0 < refs then ([], s.setEntry i { s.entries i with refs := refs })
    else ([page], letGo s page at_ i)

/-- Whether `shared_written` takes entry `i` for one of the sectors written. -/
def written (s : State) (lba count i : ℕ) : Bool :=
  let e := s.entries i
  let first := u32 (e.start + u32 (e.index * pageSectors))
  e.refs ≠ 0 ∧ e.start ≠ 0 ∧ first < u32 (lba + count) ∧ lba < u32 (first + pageSectors)

/-- `shared_written`. -/
def sharedWritten (s : State) (lba count : ℕ) : State :=
  (List.range s.room).foldl (fun s i => if written s lba count i then unlinkKey s i else s) s

/-! ### Runs -/

/-- A call. -/
inductive Op
  | find (start index : ℕ)
  | add (start index page : ℕ)
  | adopt (page : ℕ)
  | take (page : ℕ)
  | hold (page : ℕ)
  | drop (page : ℕ)
  | written (lba count : ℕ)

/-- What it answers, or the pages it gives back to the allocator. -/
inductive Out
  | page (p : ℕ)
  | done (ok : Bool)
  | freed (pages : List ℕ)
  deriving DecidableEq

/-- One of them; `none` where it looks for a chain before there are any. -/
def step (s : State) : Op → Option (Out × State)
  | .find start index => some ((sharedFind s start index).map .page id)
  | .add start index page => some ((sharedAdd s start index page).map .done id)
  | .adopt page => some ((sharedAdopt s page).map .done id)
  | .take page => if s.room = 0 then none else some ((sharedTake s page).map .done id)
  | .hold page => if s.room = 0 then none else some (.freed [], sharedHold s page)
  | .drop page => if s.room = 0 then none else some ((sharedDrop s page).map .freed id)
  | .written lba count => some (.freed [], sharedWritten s lba count)

/-- All of them in turn, with what they answer. -/
def run : State → List Op → Option (List Out × State)
  | s, [] => some ([], s)
  | s, op :: ops => do
    let (out, s) ← step s op
    let (outs, s) ← run s ops
    return (out :: outs, s)

/-- The module as it starts. -/
def started (memory : ℕ → Bool) : State :=
  ⟨fun _ => ⟨0, 0, 0, 0, 0, 0⟩, fun _ => 0, fun _ => 0, 0, 0, 0, memory⟩

/-! ### What the table is for -/

/-- A page in common: what page of what file it is, while it is that file's, and how many hold
it. -/
structure Held where
  key : Option (ℕ × ℕ)
  refs : ℕ
  deriving DecidableEq

/-- The pages in common. -/
abbrev Shares := ℕ → Option Held

/-- Whether one of a page's eight sectors is among those written. -/
def Covers (lba count : ℕ) (key : ℕ × ℕ) : Prop :=
  ∃ sector, (lba ≤ sector ∧ sector < lba + count) ∧
    key.1 + pageSectors * key.2 ≤ sector ∧ sector < key.1 + pageSectors * key.2 + pageSectors

/-- **What each call does to the pages in common, and answers.** -/
def Spec (t : Shares) (op : Op) (out : Out) (t' : Shares) : Prop :=
  match op with
  | .find start index =>
    (∃ p e, t p = some e ∧ e.key = some (start, index) ∧ out = .page p ∧
      t' = update t p (some { e with refs := e.refs + 1 })) ∨
    (∀ p e, t p = some e → e.key ≠ some (start, index)) ∧ out = .page 0 ∧ t' = t
  | .add start index page =>
    out = .done true ∧ t' = update t page (some ⟨some (start, index), 1⟩) ∨
    out = .done false ∧ t' = t
  | .adopt page =>
    out = .done true ∧ t' = update t page (some ⟨none, 1⟩) ∨ out = .done false ∧ t' = t
  | .take page =>
    if (t page).map Held.refs = some 1 then out = .done true ∧ t' = update t page none
    else out = .done false ∧ t' = t
  | .hold page =>
    out = .freed [] ∧ t' = update t page ((t page).map fun e => { e with refs := e.refs + 1 })
  | .drop page =>
    if (t page).map Held.refs = some 1 then out = .freed [page] ∧ t' = update t page none
    else out = .freed [] ∧
      t' = update t page ((t page).map fun e => { e with refs := e.refs - 1 })
  | .written lba count =>
    out = .freed [] ∧ ∀ p, match t p with
      | none => t' p = none
      | some e => (∀ k, e.key = some k → Covers lba count k) ∧ t' p = some { e with key := none } ∨
        (∃ k, e.key = some k ∧ ¬ Covers lba count k) ∧ t' p = some e

/-- What all of them do in turn. -/
def SpecRun : Shares → List Op → List Out → Shares → Prop
  | t, [], outs, t' => outs = [] ∧ t' = t
  | t, op :: ops, outs, t' => ∃ out rest t1, outs = out :: rest ∧ Spec t op out t1 ∧
    SpecRun t1 ops rest t'

end BaxOS.Share
