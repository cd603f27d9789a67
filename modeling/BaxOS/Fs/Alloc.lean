import BaxOS.Fs.Index
import BaxOS.Lib.Extents

/-!
# Room on the disk: `allocate`, `free_entry`, `index_grow`

A run of free sectors is where the file already is, or past everything put on the disk so far, or
in a gap between the runs the table and the header say are in use.
-/

namespace BaxOS.Fs
open ByteStore Extents

/-! ### Runs of sectors -/

/-- The table entries `allocate_gap` reads, a chunk of sectors at a time. -/
def tableScan (s : State) : List (ℕ × FsFile) :=
  (List.range (min s.head.tableNext (perSector * tableSectors s.head.tableNext))).map fun i =>
    (i, fileAt s.disk (entryAddr s.head i))

/-- Whether entry `i` is the file being replaced. -/
def isReplaced (replacing : Option Slot) (i : ℕ) : Bool :=
  match replacing with
  | some r => r.index = i
  | none => false

/-- The runs in use: the table's, the index's, and each file's but the one being replaced. -/
def usedRuns (s : State) (replacing : Option Slot) : List (ℕ × ℕ) :=
  (s.head.tableLba, u32 (s.head.tableLba + tableSectors s.head.tableSize)) ::
  (s.head.indexLba, u32 (s.head.indexLba + s.head.indexSectors)) ::
  (tableScan s).filterMap fun (i, f) =>
    if f.name ≠ [] ∧ 0 < bytesOf f.size ∧ ¬ isReplaced replacing i then
      some (f.start, u32 (f.start + sectorsFor (bytesOf f.size)))
    else none

/-- The loop of `allocate_gap`: the candidate hops past every run it overlaps until none do. -/
def firstFit (s : State) (count : ℕ) (replacing : Option Slot) : ℕ :=
  let used := usedRuns s replacing
  hop (fun start => u32 (start + count)) used (used.length + 1) dataLba

/-- `allocate_gap`: `0` where there is no gap, or no memory to look for one. -/
def allocateGap (s : State) (count : ℕ) (replacing : Option Slot) : ℕ × State :=
  let (runs, s) := memAlloc s
  let (buffer, s) := memAlloc s
  if runs && buffer then
    let start := firstFit s count replacing
    (if u32 (start + count) ≤ s.head.diskSectors then start else 0, s)
  else (0, s)

/-- The rest of `allocate`, for a run that is not where the file is already. -/
def allocateNew (s : State) (count : ℕ) (replacing : Option Slot) : ℕ × State :=
  if u32 (s.head.dataEnd + count) ≤ s.head.diskSectors then
    (s.head.dataEnd, { s with head.dataEnd := u32 (s.head.dataEnd + count) })
  else allocateGap s count replacing

/-- `allocate`: the first of `count` free sectors, those of the file being replaced counting as
free, or `0`. -/
def allocate (s : State) (count : ℕ) (replacing : Option Slot) : ℕ × State :=
  match replacing with
  | none => allocateNew s count none
  | some r =>
    let have_ := sectorsFor (bytesOf r.size)
    if count ≤ have_ then (r.start, s)
    else if u32 (r.start + have_) = s.head.dataEnd ∧
        u32 (r.start + count) ≤ s.head.diskSectors then
      (r.start, { s with head.dataEnd := u32 (r.start + count) })
    else allocateNew s count (some r)

/-- Sectors moved, `step` a call: sectors `i` to `count` of the run at `dst` become those of the
run at `src`, whose length is `held`, and zeros past it. -/
def moveSectors (step src held dst count : ℕ) : ℕ → ℕ → State → State
  | 0, _, s => s
  | fuel + 1, i, s =>
    if i < count then
      let n := min step (count - i)
      let old := if i < held then min (held - i) n else 0
      let run : Store := fun o =>
        if o < sectorSize * old then s.disk (sectorSize * u32 (src + i) + o) else 0
      moveSectors step src held dst count fuel (i + step) (put s (u32 (dst + i)) n run)
    else s

/-! ### Table entries -/

/-- The end of `free_entry`'s growing: the table copied to the run at `lba`, `size` entries long. -/
def moveTable (s : State) (lba size : ℕ) : State :=
  let count := tableSectors size
  let s := moveSectors chunk s.head.tableLba (tableSectors s.head.tableSize) lba count count 0 s
  { s with
    head.tableLba := lba
    head.tableSize := size }

/-- `free_entry`: a free entry's number, or `none`. -/
def freeEntry (s : State) : Option ℕ × State :=
  if s.head.freeHead ≠ 0 then
    match readEntry s (s.head.freeHead - 1) with
    | none => (none, s)
    | some f => (some (s.head.freeHead - 1), { s with head.freeHead := f.start })
  else if s.head.tableNext < s.head.tableSize then
    (some s.head.tableNext, { s with head.tableNext := u32 (s.head.tableNext + 1) })
  else
    let size := u32 (s.head.tableSize + tableStep)
    match allocate s (tableSectors size) none with
    | (0, s) => (none, s)
    | (lba, s) =>
      match memAlloc s with
      | (false, s) => (none, s)
      | (true, s) =>
        let s := moveTable s lba size
        (some s.head.tableNext, { s with head.tableNext := u32 (s.head.tableNext + 1) })

/-- `drop_entry`: entry `index` freed onto the list of free ones. -/
def dropEntry (s : State) (index : ℕ) (name : Name) : State :=
  let s := indexRemove s name index
  let s := writeEntry s index (some []) s.head.freeHead 0
  saveHeader { s with head.freeHead := u32 (index + 1) }

/-! ### Index growth -/

/-- The place of a record in the index being made: from `i` on, round the table of `n`, the first
never used. -/
def freeCell (cells : ℕ → Record) (n : ℕ) : ℕ → ℕ → Option ℕ
  | 0, _ => none
  | fuel + 1, i =>
    if (cells i).entry = 0 then some i else freeCell cells n fuel (u32 (i + 1) % n)

/-- The index remade from the table's entries, with how many records it has. -/
def rebuild (s : State) (sectors : ℕ) :
    List ℕ → (ℕ → Record) → ℕ → Option ((ℕ → Record) × ℕ)
  | [], cells, taken => some (cells, taken)
  | e :: rest, cells, taken =>
    let f := fileAt s.disk (entryAddr s.head e)
    if f.name = [] then rebuild s sectors rest cells taken
    else
      let n := records * sectors
      match freeCell cells n n (u32 (records * (hashOf f.name % sectors))) with
      | none => none
      | some i =>
        rebuild s sectors rest
          (Function.update cells i ⟨hashOf f.name, parentHash f.name, e + 1⟩) (taken + 1)

/-- Records as they lie on the disk: they fill a sector and leave its last bytes over. -/
def cellBytes (cells : ℕ → Record) : Store := fun o =>
  if o % sectorSize < 12 * records then
    (cells (records * (o / sectorSize) + o % sectorSize / 12)).bytes (o % sectorSize % 12)
  else 0

/-- `index_grow`: the index remade twice the size. -/
def indexGrow (s : State) : Except Err Unit × State :=
  let sectors := u32 (2 * s.head.indexSectors)
  match memAlloc s with
  | (false, s) => (.error .enospc, s)
  | (true, s) =>
    match rebuild s sectors (List.range s.head.tableNext) (fun _ => ⟨0, 0, 0⟩) 0 with
    | none => (.error .stuck, s)
    | some (cells, taken) =>
      match allocate s sectors none with
      | (0, s) => (.error .enospc, s)
      | (lba, s) =>
        let s := put s lba sectors (cellBytes cells)
        (.ok (), saveHeader { s with
          head.indexLba := lba
          head.indexSectors := sectors
          head.indexTaken := taken })

/-- Whether one record more would have the index over half full. -/
def indexFull (h : Header) : Bool := records * h.indexSectors < u32 (2 * (h.indexTaken + 1))

/-- `index_add`: the record of entry `entry`, named `name` in the table already. -/
def indexAdd (s : State) (name : Name) (entry : ℕ) : Except Err Unit × State :=
  if indexFull s.head then indexGrow s
  else
    let p : Placing := ⟨⟨hashOf name, parentHash name, u32 (entry + 1)⟩, 0⟩
    (.ok (), visitAll (place p) (probe s.head (hashOf name)) s)

end BaxOS.Fs
