import BaxOS.Fs.Disk
import BaxOS.Lib.Buckets

/-!
# The disk cache: `cache_read`, `cache_written`, `cache_shrink`

The state of `modules/storage/cache.c`: lines of 128 sectors, hashed by their first sector into as
many chains as there is room for lines. What `mem_alloc`, `mem_pages_lent`, the memory left free and
the disk will answer is part of the state, each answer used once.

A line's memory is the bytes in it, `none` where it has given them back. `mem_alloc` may ask the
cache for memory back on its way, which `busy` has `cache_shrink` refuse.
-/

namespace BaxOS.Cache
open ByteStore Fs Buckets Function

/-- `LINE_SECTORS`. -/
def lineSectors : ℕ := 128
/-- `LINE_BYTES`. -/
def lineBytes : ℕ := lineSectors * 512
/-- `BOOT_LINES`. -/
def bootLines : ℕ := 256
/-- `FIRST_ROOM`. -/
def firstRoom : ℕ := 8
/-- `NONE`. -/
def noSector : ℕ := 0xFFFFFFFF

/-- `struct line`. -/
structure Line where
  first : ℕ
  used : ℕ
  next : ℕ
  data : Option Store

/-- The module's state. `allocs` are the answers of `mem_alloc`, each with what it asks the cache
to give back first; `lent` those of `mem_pages_lent`, with what the memory holds; `free` whether
there is memory left over the reserve; `reads` what a read of the disk comes to: `none` where it
succeeds, or what it leaves in its buffer where it fails. -/
structure State where
  room : ℕ
  lines : ℕ → Line
  chains : ℕ → ℕ
  count : ℕ
  clock : ℕ
  limit : ℕ
  off : Bool
  busy : Bool
  ours : Bool
  allocs : ℕ → List ℕ × Bool
  lent : ℕ → Option Store
  free : ℕ → Bool
  reads : ℕ → Option Store

/-- Line `i` changed. -/
def State.setLine (s : State) (i : ℕ) (l : Line) : State := { s with lines := update s.lines i l }

/-- `chain`: the chain of a first sector. -/
def chain (s : State) (first : ℕ) : ℕ := first / lineSectors % s.room

/-- The lines' links. -/
def State.next (s : State) : ℕ → ℕ := fun i => (s.lines i).next

/-- A link of a chain set. -/
def State.setLink (s : State) (b : ℕ) (at_ : Link) (v : ℕ) : State :=
  let next := setNext s.next at_ v
  { s with
    chains := setHead s.chains b at_ v
    lines := fun i => { s.lines i with next := next i } }

/-- `unhook`. -/
def unhook (s : State) (i : ℕ) : State :=
  let b := chain s (s.lines i).first
  let (at_, v) := seekLink s.next (· == i) s.room .head (s.chains b)
  let s := if v = i + 1 then s.setLink b at_ (s.lines i).next else s
  s.setLine i { s.lines i with first := noSector }

/-- `find`. -/
def find (s : State) (first : ℕ) : Option ℕ :=
  (seekLink s.next (fun i => (s.lines i).first == first) s.room .head
    (s.chains (chain s first))).2.ppred

/-- `oldest`: the line with memory used longest ago. -/
def oldest (s : State) : Option ℕ :=
  (List.range s.room).foldl (fun best i =>
    if (s.lines i).data.isSome then
      match best with
      | none => some i
      | some b => if (s.lines i).used < (s.lines b).used then some i else best
    else best) none

/-- The loop of `cap`. -/
def capOn (most : ℕ) : ℕ → State → State
  | 0, s => s
  | fuel + 1, s =>
    if most < s.count then
      match oldest s with
      | none => s
      | some i =>
        let s := if (s.lines i).first ≠ noSector then unhook s i else s
        let s := s.setLine i { s.lines i with data := none }
        capOn most fuel { s with count := s.count - 1 }
    else s

/-- `cap`: lines given back, oldest first, until no more than `most` are left. -/
def cap (s : State) (most : ℕ) : State := capOn most s.count s

/-- `cache_shrink`. -/
def cacheShrink (s : State) (bytes : ℕ) : State :=
  if s.busy then s
  else cap s (if bytes / lineBytes < s.count then s.count - (bytes + lineBytes - 1) / lineBytes
    else 0)

/-- `mem_alloc`. -/
def memAlloc (s : State) : Bool × State :=
  ((s.allocs 0).2, { (s.allocs 0).1.foldl cacheShrink s with allocs := fun n => s.allocs (n + 1) })

/-- `mem_pages_lent`. -/
def memPagesLent (s : State) : Option Store × State :=
  (s.lent 0, { s with lent := fun n => s.lent (n + 1) })

/-- `may_grow`. -/
def mayGrow (s : State) : Bool × State :=
  if s.limit ≠ 0 then (s.count < s.limit, s)
  else if ¬ s.ours then (s.count < bootLines, s)
  else (s.free 0, { s with free := fun n => s.free (n + 1) })

/-- The lines a bigger block has: those there were, and blank ones. -/
def grownLines (s : State) : ℕ → Line := fun i =>
  if i < s.room then s.lines i else ⟨0, 0, 0, none⟩

/-- The chains made again, line by line. -/
def rechain : List ℕ → State → State
  | [], s => s
  | i :: rest, s =>
    if (s.lines i).first ≠ noSector then
      let b := chain s (s.lines i).first
      let s := { s with
        lines := update s.lines i { s.lines i with next := s.chains b }
        chains := update s.chains b (i + 1) }
      rechain rest s
    else rechain rest s

/-- Room for twice the lines, if there is memory for it. -/
def grow (s : State) : State :=
  match memAlloc s with
  | (false, s) => s
  | (true, s) => rechain (List.range s.room)
      { s with
        lines := grownLines s
        chains := fun _ => 0
        room := 2 * s.room }

/-- The oldest line, let go of to be filled again. -/
def recycle (s : State) : Option ℕ × State :=
  match oldest s with
  | none => (none, s)
  | some i => (some i, if (s.lines i).first ≠ noSector then unhook s i else s)

/-- `slot`: a line with memory to fill, a new one bought or the oldest. -/
def slot (s : State) : Option ℕ × State :=
  match mayGrow s with
  | (false, s) => recycle s
  | (true, s) =>
    let s := if s.count = s.room then grow s else s
    match (List.range s.room).find? fun i => (s.lines i).data.isNone with
    | none => recycle s
    | some i =>
      match memPagesLent s with
      | (none, s) => recycle s
      | (some junk, s) =>
        (some i, { s.setLine i ⟨noSector, 0, 0, some junk⟩ with count := s.count + 1 })

/-- Sectors of the disk, from `lba` on. -/
def sectors (disk : Store) (lba : ℕ) : Store := fun o => disk (512 * lba + o)

/-- The rest of a read straight from the disk. -/
def around (s : State) (disk : Store) (lba n dst : ℕ) (out : Store) : Option Store × State :=
  (match s.reads 0 with
    | some _ => none
    | none => some (blit out dst (512 * n) (sectors disk lba)),
    { s with reads := fun k => s.reads (k + 1) })

/-- A line's sectors handed on. -/
def served (s : State) (i within take dst : ℕ) (out : Store) : Store × State :=
  let l := s.lines i
  (blit out dst (512 * take) fun o => (l.data.getD fun _ => 0) (512 * within + o),
    { s.setLine i { l with used := u32 (s.clock + 1) } with clock := u32 (s.clock + 1) })

/-- A line filled from the disk and hooked to its chain, or `none` where it cannot be read. -/
def fill (s : State) (disk : Store) (first i : ℕ) : Bool × State :=
  match s.reads 0 with
  | some junk => (false, { s.setLine i { s.lines i with data := some junk } with
      reads := fun k => s.reads (k + 1) })
  | none =>
    let b := chain s first
    (true, { s.setLine i { s.lines i with
        first := first
        next := s.chains b
        data := some (sectors disk first) } with
      chains := update s.chains b (i + 1)
      reads := fun k => s.reads (k + 1) })

/-- The loop of `cache_read`: `n` sectors from `lba` on, to the buffer from `dst` on. -/
def readOn (disk : Store) : ℕ → ℕ → ℕ → ℕ → Store → State → Option Store × State
  | 0, _, _, _, out, s => (some out, s)
  | fuel + 1, lba, n, dst, out, s =>
    if n = 0 then (some out, s)
    else
      let first := lba - lba % lineSectors
      let within := lba - first
      let take := if lineSectors - within < n then lineSectors - within else n
      match find s first with
      | some i =>
        let (out, s) := served s i within take dst out
        readOn disk fuel (u32 (lba + take)) (n - take) (dst + 512 * take) out s
      | none =>
        match slot s with
        | (none, s) => around s disk lba n dst out
        | (some i, s) =>
          match fill s disk first i with
          | (false, s) => around s disk lba n dst out
          | (true, s) =>
            let (out, s) := served s i within take dst out
            readOn disk fuel (u32 (lba + take)) (n - take) (dst + 512 * take) out s

/-- `cache_read`: what is in the buffer where it answers 0. -/
def cacheRead (s : State) (disk : Store) (lba n : ℕ) (out : Store) : Option Store × State :=
  if s.off then around s disk lba n 0 out
  else
    let (r, s) := readOn disk n lba n 0 out { s with busy := true }
    (r, { s with busy := false })

/-- The loop of `cache_written`, line by line from `first` on. -/
def writtenOn (lba n : ℕ) (data : Store) : ℕ → ℕ → State → Option State
  | 0, _, _ => none
  | fuel + 1, first, s =>
    let past := u32 (lba + n)
    if first < past then
      let from_ := if first < lba then lba else first
      let til := if past < u32 (first + lineSectors) then past else u32 (first + lineSectors)
      let s := match find s first with
        | none => s
        | some i =>
          let l := s.lines i
          let laid := fun held : Store => blit held (512 * (from_ - first))
            (512 * u32 (til + 2 ^ 32 - from_)) fun o => data (512 * (from_ - lba) + o)
          s.setLine i { l with data := l.data.map laid }
      writtenOn lba n data fuel (u32 (first + lineSectors)) s
    else some s

/-- `cache_written`: the sectors written go into whatever lines hold them. `none` where its loop
does not end. -/
def cacheWritten (s : State) (lba n : ℕ) (data : Store) : Option State :=
  writtenOn lba n data (n / lineSectors + 3) (lba - lba % lineSectors) s

/-- `cache off`. -/
def cacheOff (s : State) : State := cap { s with off := true } 0

/-- `cache on`, `cache auto` or `cache` with a size, `lines` of it. -/
def cacheOn (s : State) (lines : ℕ) : State :=
  cap { s with
    off := false
    limit := lines } (if lines ≠ 0 then lines else s.count)

/-! ### Runs -/

/-- The cache and the disk under it. -/
structure Machine where
  cache : State
  disk : Store

/-- What happens to them. -/
inductive Op
  | read (lba n : ℕ) (out : Store)
  | write (lba n : ℕ) (data : Store)
  | shrink (bytes : ℕ)
  | turnOn (lines : ℕ)
  | turnOff
  | takeOver

/-- One of them. -/
def step (m : Machine) : Op → Option Machine
  | .read lba n out => some { m with cache := (cacheRead m.cache m.disk lba n out).2 }
  | .write lba n data => (cacheWritten m.cache lba n data).map fun s =>
      ⟨s, blit m.disk (512 * lba) (512 * n) data⟩
  | .shrink bytes => some { m with cache := cacheShrink m.cache bytes }
  | .turnOn lines => some { m with cache := cacheOn m.cache lines }
  | .turnOff => some { m with cache := cacheOff m.cache }
  | .takeOver => some { m with cache := { m.cache with ours := true } }

/-- All of them in turn. -/
def run (m : Machine) (ops : List Op) : Option Machine := ops.foldlM step m

/-- The module as it starts, whatever it will be answered. -/
def started (ours : Bool) (allocs : ℕ → List ℕ × Bool) (lent : ℕ → Option Store) (free : ℕ → Bool)
    (reads : ℕ → Option Store) : State :=
  ⟨firstRoom, fun _ => ⟨0, 0, 0, none⟩, fun _ => 0, 0, 0, 0, false, false, ours, allocs, lent, free,
    reads⟩

end BaxOS.Cache
