import BaxOS.Mem.Apart
import BaxOS.Fs.Disk

/-!
# Module images: `image_alloc`, `image_free`

`kernel/module.c` gives each module the pages its image takes, and offers what is left of the last one
to the next small module; a page goes back once no module is in it. Addresses are in bytes here and
pages in pages; memory ends far below `2 ^ 64`, so that only the sizes, which have 32 bits, can wrap.
-/

namespace BaxOS.Mem
open Spans Function Runs
open Fs (u32)

/-- `TAILS`. -/
def maxTails : ℕ := 8
/-- `MODULES`. -/
def maxModules : ℕ := 12

/-- `struct tail`. -/
structure Tail where
  page : ℕ
  used : ℕ
  users : ℕ

/-- A free slot. -/
def noTail : Tail := ⟨0, 0, 0⟩

/-- `image` and `span` of a loaded module. -/
structure Image where
  image : ℕ
  span : ℕ
  deriving DecidableEq

/-- The page allocator, `tails`, `held` and the modules that are loaded. `own` is what `mem_pages` has
handed out for images and `mem_pages_free` has not been given back. -/
structure Images where
  machine : Machine
  tails : ℕ → Tail
  held : ℕ
  mods : List Image
  own : List ℕ

/-- `need`. -/
def needOf (span : ℕ) : ℕ := u32 (span + 15) / 16 * 16

/-- `pages`. -/
def pagesFor (span : ℕ) : ℕ := u32 (span + 4095) / 4096

/-- The first slot of a kind. -/
def tailWith (tails : ℕ → Tail) (q : Tail → Bool) : Option ℕ :=
  (List.range maxTails).find? fun i => q (tails i)

/-- `tail_of`. -/
def tailOf (tails : ℕ → Tail) (page : ℕ) : Option ℕ := tailWith tails fun t => t.page = page ∧ page ≠ 0

/-- Pages of its own, the last of them offered if there is a slot. -/
def allocPages (s : Images) (span : ℕ) (shrinks : List (List Span)) : ℕ × Images :=
  let page := (memPages s.machine.mem (pagesFor span) shrinks).1
  let machine := step s.machine (.pages (pagesFor span) shrinks)
  if page = 0 then (0, { s with machine })
  else
    let last : Tail := ⟨4096 * page + u32 (u32 (pagesFor span + 2 ^ 32 - 1) * 4096), needOf span % 4096, 1⟩
    let tails :=
      if needOf span % 4096 ≠ 0 then
        match tailWith s.tails fun t => t.page = 0 with
        | some i => update s.tails i last
        | none => s.tails
      else s.tails
    (4096 * page, { s with
      machine, tails
      held := u32 (s.held + pagesFor span)
      own := s.own ++ List.range' page (pagesFor span) })

/-- `image_alloc`. -/
def imageAlloc (s : Images) (span : ℕ) (shrinks : List (List Span)) : ℕ × Images :=
  let need := needOf span
  match tailWith s.tails fun t => t.page ≠ 0 ∧ u32 (t.used + need) ≤ 4096 with
  | some i =>
    let t := s.tails i
    let used := u32 (t.used + need) % 2 ^ 16
    (t.page + used - need, { s with
      tails := update s.tails i ⟨t.page, used, (t.users + 1) % 2 ^ 16⟩ })
  | none => allocPages s span shrinks

/-- A page given back. -/
def giveUp (s : Images) (page : ℕ) : Images :=
  { s with
    machine := step s.machine (.free page 1)
    held := u32 (s.held + 2 ^ 32 - 1)
    own := s.own.erase page }

/-- `image_free`'s loop, of one page. -/
def freePage (s : Images) (page : ℕ) : Images :=
  match tailOf s.tails (4096 * page) with
  | some i =>
    let t := s.tails i
    let users := (t.users + 2 ^ 16 - 1) % 2 ^ 16
    if 0 < users then { s with tails := update s.tails i { t with users } }
    else giveUp { s with tails := update s.tails i noTail } page
  | none => giveUp s page

/-- The pages from the one an image starts in to the one it ends in. -/
def Image.pages (m : Image) : List ℕ :=
  List.range' (m.image / 4096) ((m.image + m.span + 4095) / 4096 - m.image / 4096)

/-- `image_free`. -/
def imageFree (s : Images) (m : Image) : Images := m.pages.foldl freePage s

/-! ### Runs -/

/-- A module of some span is loaded, as far as `image_alloc`, with what the disk cache gives back each
time it is asked; one is unloaded; or the page allocator is called by somebody else. -/
inductive ImageOp
  | load (span : ℕ) (shrinks : List (List Span))
  | unload (i : ℕ)
  | other (op : Op)

/-- One of them. -/
def imageStep (s : Images) : ImageOp → Images
  | .load span shrinks =>
    if s.mods.length = maxModules then s
    else
      let (image, s) := imageAlloc s (u32 span) shrinks
      if image = 0 then s else { s with mods := s.mods ++ [⟨image, u32 span⟩] }
  | .unload i =>
    match s.mods[i]? with
    | some m => imageFree { s with mods := s.mods.eraseIdx i } m
    | none => s
  | .other op => { s with machine := step s.machine op }

/-- Nothing is loaded. -/
def noImages (machine : Machine) : Images := ⟨machine, fun _ => noTail, 0, [], []⟩

/-- What others have of the pages that are handed out. -/
def others (s : Images) : Machine := ⟨s.machine.mem, fun p => s.machine.held p - s.own.count p⟩

/-- What others promise: they give back only what they have, and write only to pages that somebody has. -/
def OthersAllowed (s : Images) : ImageOp → Prop
  | .load span shrinks => Allowed (others s) (.pages (pagesFor (u32 span)) shrinks)
  | .unload _ => True
  | .other (.write page _) => 0 < s.machine.held page
  | .other op => Allowed (others s) op

/-- Its size does not wrap, rounded up to 16, to pages, or on top of what is used of a tail. -/
def Sized (s : Images) (span : ℕ) : Prop :=
  0 < span ∧ span + 4095 < 2 ^ 32 ∧
    ∀ i < maxTails, (s.tails i).page ≠ 0 → (s.tails i).used + needOf span < 2 ^ 32

instance (s : Images) (span : ℕ) : Decidable (Sized s span) := inferInstanceAs (Decidable (_ ∧ _ ∧ _))

/-- What a step must meet: a span does not wrap, and a `mem_pages_below` does not spill. -/
def SizedOrKept (s : Images) : ImageOp → Prop
  | .load span _ => Sized s (u32 span)
  | .unload _ => True
  | .other op => RestKept s.machine op

/-- Two images share no byte. -/
def Image.Clear (a b : Image) : Prop := a.image + a.span ≤ b.image ∨ b.image + b.span ≤ a.image

instance (a b : Image) : Decidable (a.Clear b) := inferInstanceAs (Decidable (_ ∨ _))

/-- **Images have their pages, each its own bytes.** No two of them overlap; every page that has a byte
of one is still held, and no other is; each is held once, and `held` is how many there are. -/
structure Placed (s : Images) : Prop where
  clear : s.mods.Pairwise Image.Clear
  owns : ∀ p, p ∈ s.own ↔ ∃ m ∈ s.mods, ∃ b, m.image ≤ b ∧ b < m.image + m.span ∧ b / 4096 = p
  once : s.own.Nodup
  held : s.held = s.own.length
  handed : ∀ p ∈ s.own, 0 < s.machine.held p

end BaxOS.Mem
