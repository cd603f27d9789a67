import BaxOS.Fs.Recent
import BaxOS.Fs.ListExact

/-!
# `fs.c` through its slots

The functions of `fs.c` where a request to the disk may fail: each reads a sector by `loadSector`,
edits it in its slot and puts it down. What `fs.c` works out from what it read is the same as where
nothing fails (`hashOf`, `placeRecords`, `gather`, `hop` and so on).
-/

namespace BaxOS.Fs.Recent
open ByteStore Extents

/-- `head`. -/
def getHead : Call Header := do
  let s ← get
  return s.head

/-! ### The header and the entries -/

/-- `load_table`. -/
def loadTable : Call Unit := do
  let s ← get
  if s.heldTable then return
  loadSector fsLba
  let data ← sectorData
  let h := headerAt fun a => data (a - sectorSize * fsLba)
  setHead fun _ => h
  if h.magic ≠ fsMagic then throw .eio
  setHeldTable true

/-- `save_header`. -/
def saveHeader : Call Unit := do
  loadSector fsLba
  let h ← getHead
  editSector fun _ => h.sector
  try putHeld fsLba
  catch e =>
    setHeldTable false
    throw e

/-- `read_entry`. -/
def readEntry (index : ℕ) : Call FsFile := do
  let h ← getHead
  if h.tableNext ≤ index then throw .eio
  loadSector (u32 (h.tableLba + index / perSector))
  let data ← sectorData
  return fileAt data (128 * (index % perSector))

/-- The entry at an address of a sector changed, its name too unless it is `none`. -/
def editEntry (a : ℕ) (name : Option Name) (start size : ℕ) (data : Store) : Store :=
  let data := match name with
    | some n => setString data a fsNameLen n
    | none => data
  blit (blit data (a + fsNameLen) 4 (wordBytes start)) (a + (fsNameLen + 4)) 4 (wordBytes size)

/-- `write_entry`. -/
def writeEntry (index : ℕ) (name : Option Name) (start size : ℕ) : Call Unit := do
  let h ← getHead
  let lba := u32 (h.tableLba + index / perSector)
  loadSector lba
  editSector (editEntry (128 * (index % perSector)) name start size)
  putHeld lba

/-! ### The index -/

/-- `probe`: each sector of the search loaded and visited, until the visitor says to stop. -/
def probeOn {σ : Type} (visit : ℕ → σ → Call (σ × Bool)) : List ℕ → σ → Call σ
  | [], x => pure x
  | lba :: rest, x => do
    loadSector lba
    let (y, stop) ← visit lba x
    if stop then return y
    probeOn visit rest y

/-- `gather`, of the sector in use. -/
def gatherSector (hash : ℕ) (_lba : ℕ) (x : Search) : Call (Search × Bool) := do
  let data ← sectorData
  return gather data hash 0 x

/-- Entry `e`, if it can be read and is the one named `name`. -/
def slotNamed (name : Name) (e : ℕ) : Call (Option Slot) := do
  try
    let f ← readEntry e
    return if f.name = name then some ⟨e, f.start, f.size⟩ else none
  catch _ => return none

/-- The first of the candidates that is the entry named `name`. -/
def firstNamed (name : Name) : List ℕ → Call (Option Slot)
  | [] => pure none
  | e :: rest => do
    let f ← slotNamed name e
    if f.isSome then return f
    firstNamed name rest

/-- The search of `find` that carries on past other names, record by record. -/
def searchOn (name : Name) (hash : ℕ) : List ℕ → Call (Option Slot)
  | [] => pure none
  | i :: rest => do
    let h ← getHead
    loadSector (u32 (h.indexLba + u32 (hash + i / records) % h.indexSectors))
    let data ← sectorData
    let r := recordAt data (12 * (i % records))
    if r.entry = 0 then return none
    if r.entry ≠ gone ∧ r.hash = hash then
      let f ← slotNamed name (r.entry - 1)
      if f.isSome then return f
    searchOn name hash rest

/-- `find`: the entry named `name`, none too where a sector cannot be read. -/
def find (name : Name) : Call (Option Slot) := do
  if name = [] then return none
  try
    loadTable
    let h ← getHead
    let x ← probeOn (gatherSector (hashOf name)) (probe h (hashOf name)) ⟨[], false⟩
    let f ← firstNamed name x.candidates
    if f.isSome then return f
    if x.ended ∨ x.candidates = [] then return none
    searchOn name (hashOf name) (List.range (u32 (records * h.indexSectors)))
  catch _ => return none

/-- `place`, of the sector in use. A write that fails stops the search as one that succeeds does. -/
def placeSector (p : Placing) (lba : ℕ) (_ : Unit) : Call (Unit × Bool) := do
  let data ← sectorData
  match placeRecords p (sectorRecords data 0) 0 with
  | none => return ((), false)
  | some none => return ((), true)
  | some (some i) =>
    let fresh := p.remove = 0 ∧ (recordAt data (12 * i)).entry = 0
    setHead fun h => { h with indexTaken := if fresh then u32 (h.indexTaken + 1) else h.indexTaken }
    editSector fun data => blit data (12 * i) 12 (if p.remove ≠ 0 then ⟨0, 0, gone⟩ else p.record).bytes
    try putHeld lba
    catch _ => pure ()
    return ((), true)

/-- `index_remove`. -/
def indexRemove (name : Name) (entry : ℕ) : Call Unit := do
  let h ← getHead
  probeOn (placeSector ⟨⟨hashOf name, 0, 0⟩, u32 (entry + 1)⟩) (probe h (hashOf name)) ()

/-! ### Room on the disk -/

/-- The runs in use of the entries in a chunk of the table, `k` sectors from sector `at_` of it. -/
def chunkRuns (h : Header) (replacing : Option Slot) (at_ k : ℕ) (data : Store) : List (ℕ × ℕ) :=
  (List.range (perSector * k)).filterMap fun i =>
    let f := fileAt data (128 * i)
    if perSector * at_ + i < h.tableNext ∧ f.name ≠ [] ∧ 0 < bytesOf f.size ∧
        ¬ isReplaced replacing (perSector * at_ + i) then
      some (f.start, u32 (f.start + sectorsFor (bytesOf f.size)))
    else none

/-- The table's runs in use, read a chunk of sectors at a time from sector `at_` on. -/
def tableRuns (h : Header) (replacing : Option Slot) : ℕ → ℕ → Call (List (ℕ × ℕ))
  | 0, _ => pure []
  | fuel + 1, at_ => do
    if tableSectors h.tableNext ≤ at_ then return []
    let k := min chunk (tableSectors h.tableNext - at_)
    let (ok, data) ← ataReadMany (u32 (h.tableLba + at_)) k
    if !ok then throw .eio
    let rest ← tableRuns h replacing fuel (at_ + chunk)
    return chunkRuns h replacing at_ k data ++ rest

/-- `allocate_gap`: `0` where there is no gap, no memory to look for one, or a sector of the table
cannot be read. -/
def allocateGap (count : ℕ) (replacing : Option Slot) : Call ℕ := do
  let runs ← memAlloc
  let buffer ← memAlloc
  if !(runs && buffer) then return 0
  let h ← getHead
  try
    let files ← tableRuns h replacing (tableSectors h.tableNext) 0
    let used := (h.tableLba, u32 (h.tableLba + tableSectors h.tableSize)) ::
      (h.indexLba, u32 (h.indexLba + h.indexSectors)) :: files
    let start := hop (fun start => u32 (start + count)) used (used.length + 1) dataLba
    return if u32 (start + count) ≤ h.diskSectors then start else 0
  catch _ => return 0

/-- The rest of `allocate`, for a run that is not where the file is already. -/
def allocateNew (count : ℕ) (replacing : Option Slot) : Call ℕ := do
  let h ← getHead
  if u32 (h.dataEnd + count) ≤ h.diskSectors then
    setHead fun h => { h with dataEnd := u32 (h.dataEnd + count) }
    return h.dataEnd
  allocateGap count replacing

/-- `allocate`. -/
def allocate (count : ℕ) (replacing : Option Slot) : Call ℕ := do
  let h ← getHead
  match replacing with
  | none => allocateNew count none
  | some r =>
    let have_ := sectorsFor (bytesOf r.size)
    if count ≤ have_ then return r.start
    if u32 (r.start + have_) = h.dataEnd ∧ u32 (r.start + count) ≤ h.diskSectors then
      setHead fun h => { h with dataEnd := u32 (r.start + count) }
      return r.start
    allocateNew count (some r)

/-- Sectors moved, `step` a call, as `Fs.moveSectors` does. -/
def moveSectors (step src held dst count : ℕ) : ℕ → ℕ → Call Unit
  | 0, _ => pure ()
  | fuel + 1, i => do
    if count ≤ i then return
    let n := min step (count - i)
    let old := if i < held then min (held - i) n else 0
    let (ok, run) ← if 0 < old then ataReadMany (u32 (src + i)) old else pure (true, fun _ => 0)
    if !ok then throw .eio
    put (u32 (dst + i)) n (fun o => if o < sectorSize * old then run o else 0) none
    moveSectors step src held dst count fuel (i + step)

/-- `free_entry`: a free entry's number, or none. -/
def freeEntry : Call (Option ℕ) := do
  let h ← getHead
  try
    if h.freeHead ≠ 0 then
      let f ← readEntry (h.freeHead - 1)
      setHead fun h => { h with freeHead := f.start }
      return some (h.freeHead - 1)
    if h.tableNext < h.tableSize then
      setHead fun h => { h with tableNext := u32 (h.tableNext + 1) }
      return some h.tableNext
    let size := u32 (h.tableSize + tableStep)
    let count := tableSectors size
    let lba ← allocate count none
    if lba = 0 then return none
    let given ← memAlloc
    if !given then return none
    moveSectors chunk h.tableLba (tableSectors h.tableSize) lba count count 0
    setHead fun h => { h with
      tableLba := lba
      tableSize := size
      tableNext := u32 (h.tableNext + 1) }
    return some h.tableNext
  catch _ => return none

/-- The index remade from the table's entries, with how many records it has. -/
def rebuild (sectors : ℕ) : List ℕ → (ℕ → Record) → ℕ → Call ((ℕ → Record) × ℕ)
  | [], cells, taken => pure (cells, taken)
  | e :: rest, cells, taken => do
    let f ← readEntry e
    if f.name = [] then rebuild sectors rest cells taken
    else
      let n := u32 (records * sectors)
      match freeCell cells n n (u32 (records * (hashOf f.name % sectors))) with
      | none => throw .stuck
      | some i =>
        rebuild sectors rest
          (Function.update cells i ⟨hashOf f.name, parentHash f.name, e + 1⟩) (taken + 1)

/-- `index_grow`. -/
def indexGrow : Call Unit := do
  let h ← getHead
  let sectors := u32 (2 * h.indexSectors)
  let given ← memAlloc
  if !given then throw .enospc
  let (cells, taken) ← rebuild sectors (List.range h.tableNext) (fun _ => ⟨0, 0, 0⟩) 0
  let lba ← allocate sectors none
  if lba = 0 then throw .enospc
  put lba sectors (cellBytes cells) none
  setHead fun h => { h with
    indexLba := lba
    indexSectors := sectors
    indexTaken := taken }
  saveHeader

/-- `index_add`. -/
def indexAdd (name : Name) (entry : ℕ) : Call Unit := do
  let h ← getHead
  if u32 (records * h.indexSectors) < u32 (2 * (h.indexTaken + 1)) then indexGrow
  else
    probeOn (placeSector ⟨⟨hashOf name, parentHash name, u32 (entry + 1)⟩, 0⟩)
      (probe h (hashOf name)) ()

/-- `drop_entry`. -/
def dropEntry (index : ℕ) (name : Name) : Call Unit := do
  indexRemove name index
  let h ← getHead
  writeEntry index (some []) h.freeHead 0
  setHead fun h => { h with freeHead := u32 (index + 1) }
  saveHeader

/-! ### The disk as a whole -/

/-- `fs_init`. -/
def fsInit : Call Unit := do
  try loadTable
  catch _ =>
    setHeldTable false
    throw .eio

/-- `fs_format`. -/
def fsFormat (diskSectors : ℕ) : Call Unit := do
  let given ← memAlloc
  if !given then throw .eio
  setHead fun _ => newHeader diskSectors
  setHeldTable true
  put dataLba (tableSectors tableFirst + indexFirst) (fun _ => 0) none
  saveHeader

/-- `fs_resize`: how many sectors the disk has now. -/
def fsResize (free : ℕ) : Call ℕ := do
  loadTable
  setHead fun h => { h with diskSectors := u32 (h.dataEnd + free) }
  saveHeader
  let h ← getHead
  return h.diskSectors

/-- `fs_runs`: the table's run and the index's. -/
def fsRuns : Call (Run × Run) := do
  loadTable
  let h ← getHead
  return ((h.tableLba, tableSectors h.tableNext), (h.indexLba, h.indexSectors))

/-- `struct fs_stats`. -/
structure FsStats where
  total : ℕ
  used : ℕ
  files : ℕ

/-- The loop of `fs_get_stats`: the sectors and the number of the files in the table. -/
def statsOn (h : Header) : ℕ → ℕ → Call (ℕ × ℕ)
  | 0, _ => pure (0, 0)
  | fuel + 1, at_ => do
    if tableSectors h.tableNext ≤ at_ then return (0, 0)
    let k := min chunk (tableSectors h.tableNext - at_)
    let (ok, data) ← ataReadMany (u32 (h.tableLba + at_)) k
    if !ok then throw .eio
    let files := (List.range (perSector * k)).filterMap fun i =>
      let f := fileAt data (128 * i)
      if perSector * at_ + i < h.tableNext ∧ f.name ≠ [] then some (sectorsFor (bytesOf f.size))
      else none
    let (used, count) ← statsOn h fuel (at_ + chunk)
    return (files.sum + used, files.length + count)

/-- `fs_get_stats`. -/
def fsGetStats : Call FsStats := do
  loadTable
  let given ← memAlloc
  if !given then throw .eio
  let h ← getHead
  let (used, files) ← statsOn h (tableSectors h.tableNext) 0
  return ⟨h.diskSectors, u32 (dataLba + tableSectors h.tableSize + h.indexSectors + used), files⟩

/-! ### Paths -/

/-- One turn of the loop of `resolve_any`, with something left to walk. -/
def walkPart (follow : Bool) (w : Walk) : Call Walk := do
  let part := w.walk.takeWhile (· ≠ slash)
  let rest := w.walk.drop part.length
  let folder := !rest.isEmpty
  if part = [] then return { w with walk := rest.drop 1 }
  if part = [dot] then return { w with walk := rest.drop 1 }
  if part = [dot, dot] then return { w with full := upOne w.full, walk := rest.drop 1 }
  if fsNameLen < w.full.length + part.length + 2 then throw .einval
  let name := w.full ++ part
  let link ← if folder || follow then find name else pure none
  match link.filter (isLink ·.size) with
  | some l =>
    let size := bytesOf l.size
    if fsLinks < w.links + 1 then throw .eloop
    if walkMax < size + rest.length + 1 then throw .einval
    loadSector l.start
    let data ← sectorData
    let walk := untilNul ((List.range size).map data ++ rest)
    return ⟨w.links + 1, if walk.head? = some slash then [] else w.full, walk⟩
  | none =>
    return { w with full := if folder then name ++ [slash] else name, walk := rest.drop 1 }

/-- The loop of `resolve_any`. -/
def walkOn (follow : Bool) : ℕ → Walk → Call Name
  | 0, _ => throw .einval
  | fuel + 1, w => do
    if w.walk = [] then return w.full
    let w ← walkPart follow w
    walkOn follow fuel w

/-- `resolve_any`. -/
def resolveAny (path : Name) (follow : Bool) : Call Name := do
  if path = [] ∨ walkMax ≤ path.length then throw .einval
  loadTable
  let s ← get
  walkOn follow walkFuel ⟨0, if path.head? = some slash then [] else s.cwd, path⟩

/-- `resolve`. -/
def resolve (path : Name) (follow : Bool) : Call Name := do
  let full ← resolveAny path follow
  if full = [] then throw .einval
  return full

/-- `dir_name`. -/
def dirName (path : Name) (follow : Bool) : Call Name := do
  let full ← resolve path follow
  if full.getLast? = some slash then return full
  if fsNameLen < full.length + 2 then throw .einval
  return full ++ [slash]

/-- `parent_exists`. -/
def parentExists (name : Name) : Call Bool := do
  if parentOf name = [] then return true
  let f ← find (parentOf name)
  return f.isSome

/-! ### Looking at files -/

/-- `fs_file`. -/
def fsFile (index : ℕ) : Call FsFile := do
  loadTable
  try
    let f ← readEntry index
    if f.name = [] then throw .enoent
    return f
  catch _ => throw .enoent

/-- The record at the cursor of `fs_list`, from the run buffer where there is one, else from its own
sector. -/
def recordOn (run : Option IndexRun) (cursor : ℕ) : Call (Record × Option IndexRun) := do
  let h ← getHead
  let sec := u32 (cursor / records)
  match run with
  | some run =>
    if run.count = 0 ∨ sec < run.first ∨ u32 (run.first + run.count) ≤ sec then
      let count := if h.indexSectors - sec < listRun then h.indexSectors - sec else listRun
      let (ok, data) ← ataReadMany (u32 (h.indexLba + sec)) count
      if !ok then throw .eio
      return (recordAt data (12 * (cursor % records)), some ⟨sec, count, data⟩)
    return (recordAt run.buffer (sectorSize * (sec - run.first) + 12 * (cursor % records)), some run)
  | none =>
    loadSector (u32 (h.indexLba + sec))
    let data ← sectorData
    return (recordAt data (12 * (cursor % records)), none)

/-- An entry directly inside a folder, by the number in its record. -/
def fileInside (folder : Name) (index : ℕ) : Call (Option FsFile) := do
  try
    let f ← fsFile index
    return if (fsInside folder f.name).isSome then some f else none
  catch _ => return none

/-- The loop of `fs_list`. -/
def listOn (folder : Name) : Option IndexRun → List ℕ → Call (ℕ × ℕ × FsFile)
  | _, [] => throw .enoent
  | run, k :: rest => do
    let (r, run) ← recordOn run k
    if r.entry = 0 ∨ r.entry = gone ∨ r.parent ≠ hashOf folder then listOn folder run rest
    else
      let f ← fileInside folder (r.entry - 1)
      match f with
      | some f => return (k + 1, r.entry - 1, f)
      | none => listOn folder run rest

/-- `fs_list`. `held` is what the memory of the run buffer held before. -/
def fsList (held : Store) (folder : Name) (cursor : ℕ) : Call (ℕ × ℕ × FsFile) := do
  loadTable
  let given ← memAlloc
  let h ← getHead
  listOn folder (if given then some ⟨0, 0, held⟩ else none)
    (List.range' cursor (records * h.indexSectors - cursor))

/-- `stat_at`. -/
def statAt (path : Name) (follow : Bool) : Call FsFile := do
  let full ← resolve path follow
  let f ← find full
  match f with
  | none => throw .enoent
  | some f => return ⟨full, f.start, f.size⟩

/-- `fs_stat`. -/
def fsStat (path : Name) : Call FsFile := statAt path true

/-- `fs_lstat`. -/
def fsLstat (path : Name) : Call FsFile := statAt path false

/-- `fs_sector`. -/
def fsSector (start index : ℕ) : Call Store := do
  loadSector (u32 (start + index))
  sectorData

/-- `fs_read_many`. -/
def fsReadMany (start index count : ℕ) : Call Store := do
  let (ok, data) ← ataReadMany (u32 (start + index)) count
  if !ok then throw .eio
  return data

/-- `fs_readlink`. -/
def fsReadlink (path : Name) (max : ℕ) : Call (List UInt8) := do
  let link ← fsLstat path
  if !isLink link.size then throw .einval
  loadSector link.start
  let data ← sectorData
  return (List.range (min (bytesOf link.size) max)).map data

/-- `fs_folder`. -/
def fsFolder (path : Name) (max : ℕ) : Call Name := do
  let s ← get
  let name ←
    if path ≠ [] ∧ path ≠ [slash] then do
      let full ← dirName path true
      let f ← find full
      if f.isNone then throw .enoent
      pure full
    else if path = [slash] then pure []
    else pure s.cwd
  if max < name.length + 1 then throw .einval
  return name

/-- `fs_folder_at`: the folder's entry, one-based, or `0` for the root. -/
def fsFolderAt (path : Name) : Call ℕ := do
  let full ← resolveAny path true
  if full = [] then return 0
  if fsNameLen < full.length + 2 then throw .einval
  loadTable
  let f ← find (if full.getLast? = some slash then full else full ++ [slash])
  match f with
  | none => throw .enoent
  | some f => return u32 (f.index + 1)

/-- `fs_entry`. -/
def fsEntry (path : Name) (follow : Bool) : Call ℕ := do
  let full ← resolve path follow
  let f ← find full
  match f with
  | none => throw .enoent
  | some f => return u32 (f.index + 1)

/-! ### Writing -/

/-- A sector of data put together in a slot of its own and put down. -/
def putScratch (lba : ℕ) (data : Store) : Call Unit := do
  scratch
  editSector fun _ => data
  putSector lba

/-- `store`'s data: the whole sectors straight from the caller, the last one padded with zeros. -/
def putData (start count : ℕ) (data : List UInt8) : Call Unit := do
  let whole := u32 (data.length / sectorSize)
  if 0 < whole then put start whole (dataStore data) none
  if whole < count then
    putScratch (u32 (start + whole)) (dataStore (data.drop (sectorSize * whole)))

/-- `store` once it has an entry for the file: `old` is the file already there. -/
def storeAt (index : ℕ) (old : Option Slot) (name : Name) (data : List UInt8) (flag : ℕ) :
    Call Unit := do
  let count := sectorsFor (u32 data.length)
  let start ← allocate count old
  if start = 0 then throw .enospc
  putData start count data
  writeEntry index (some name) start (u32 data.length ||| flag)
  if old.isNone then indexAdd name index
  saveHeader

/-- `store`. -/
def store (name : Name) (data : List UInt8) (flag : ℕ) : Call Unit := do
  if name.getLast? = some slash then throw .einval
  let there ← parentExists name
  if !there then throw .enoent
  let old ← find name
  match old with
  | some f => storeAt f.index old name data flag
  | none =>
    let index ← freeEntry
    match index with
    | none => throw .enospc
    | some index => storeAt index none name data flag

/-- `fs_write`. -/
def fsWrite (path : Name) (data : List UInt8) : Call Unit := do
  let name ← resolve path true
  store name data 0

/-- `fs_symlink`. -/
def fsSymlink (target path : Name) : Call Unit := do
  let full ← resolve path false
  if target.length = 0 ∨ fsLinkLen ≤ target.length then throw .einval
  let file ← find full
  if file.isSome ∨ fsNameLen < full.length + 2 then throw .eexist
  let folder ← find (full ++ [slash])
  if folder.isSome then throw .eexist
  store full target fsLink

/-- `fs_remove`. `held` is as for `fsList`. -/
def fsRemove (held : Store) (path : Name) : Call Unit := do
  let full ← resolve path false
  let file ← find full
  match file with
  | some file => dropEntry file.index full
  | none =>
    let full ← dirName path false
    let file ← find full
    match file with
    | none => throw .enoent
    | some file =>
      let other ← try
          let _ ← fsList held full 0
          pure true
        catch _ => pure false
      if other then throw .enotempty
      dropEntry file.index full

/-- `fs_mkdir`. -/
def fsMkdir (path : Name) : Call Unit := do
  let full ← dirName path false
  let file ← find full.dropLast
  if file.isSome then throw .eexist
  let folder ← find full
  if folder.isSome then throw .eexist
  let there ← parentExists full
  if !there then throw .enoent
  let index ← freeEntry
  match index with
  | none => throw .enospc
  | some index =>
    writeEntry index (some full) 0 0
    indexAdd full index
    saveHeader

/-- The entry `fs_set_mode` sets, by its name or by its name as a folder. -/
def modeEntry (path full : Name) : Call (Option Slot) := do
  let file ← find full
  if file.isSome then return file
  try
    let dir ← dirName path true
    find dir
  catch _ => return none

/-- `fs_set_mode`. -/
def fsSetMode (path : Name) (mode : ℕ) : Call Unit := do
  let full ← resolve path true
  let entry ← modeEntry path full
  match entry with
  | none => throw .enoent
  | some f =>
    if f.size ≠ 0 then throw .einval
    writeEntry f.index none (fsMode ||| mode % 2 ^ 16) 0

/-- `fs_chdir`. -/
def fsChdir (path : Name) : Call Unit := do
  let s ← get
  if path = [] ∨ path = [slash] then setCwd []
  else if path = [dot, dot] then setCwd (upOne s.cwd)
  else
    let full ← dirName path true
    let f ← find full
    if f.isNone then throw .enoent
    setCwd full

/-- `fs_cwd_set`. -/
def fsCwdSet (dir : Name) : Call Unit := setCwd dir

/-- `fs_rename`. Where the source cannot be found a second time it does not return. -/
def fsRename (source dest : Name) : Call Unit := do
  let was ← resolve source false
  if was.getLast? = some slash then throw .einval
  let file ← find was
  if file.isNone then throw .enoent
  let name ← resolve dest false
  if name.getLast? = some slash then throw .einval
  if was = name then return
  let there ← find name
  match there with
  | some there => dropEntry there.index name
  | none => pure ()
  let parent ← parentExists name
  if !parent then throw .enoent
  let file ← find was
  match file with
  | none => throw .stuck
  | some file =>
    indexRemove was file.index
    writeEntry file.index (some name) file.start file.size
    indexAdd name file.index

/-- A sector that `fs_write_at` covers in part: read back where the file had it, changed, and put
down. -/
def layPart (lba : ℕ) (had : Bool) (into n : ℕ) (data : Store) : Call Unit := do
  scratch
  editSector fun _ _ => 0
  if had then readSector lba
  editSector fun was => blit was into n data
  putSector lba

/-- The loop of `fs_write_at` that lays the data down. -/
def layData (start held offset : ℕ) (data : List UInt8) : ℕ → ℕ → Call Unit
  | 0, _ => pure ()
  | fuel + 1, done => do
    if data.length ≤ done then return
    let at_ := u32 ((offset + done) / sectorSize)
    let into := (offset + done) % sectorSize
    let whole := if into = 0 then (data.length - done) / sectorSize else 0
    if 0 < whole then
      put (u32 (start + at_)) (u32 whole) (dataStore (data.drop done)) none
      layData start held offset data fuel (done + sectorSize * whole)
    else
      let n := min (data.length - done) (sectorSize - into)
      layPart (u32 (start + at_)) (at_ < held) into n (dataStore (data.drop done))
      layData start held offset data fuel (done + n)

/-- `fs_write_at` once it knows where the file is to be: the old sectors moved there, the sectors
of a gap past the old end zeroed. -/
def moveFile (start held room offset : ℕ) : Call Unit := do
  let gap := if held < offset / sectorSize then offset / sectorSize else held
  if (room ≠ start ∧ 0 < held) ∨ held < gap then
    let given ← memAlloc
    if !given then throw .enospc
    moveSectors moveRun start held room gap gap (if room ≠ start then 0 else held)

/-- The end of `fs_write_at`: the data, the entry and the header. -/
def writeAtEnd (name : Name) (start held offset size : ℕ) (data : List UInt8) : Call Unit := do
  layData start held offset data data.length 0
  loadTable
  let file ← find name
  match file with
  | none => throw .eio
  | some file =>
    writeEntry file.index none start size
    saveHeader

/-- `fs_write_at`. -/
def fsWriteAt (path : Name) (offset : ℕ) (data : List UInt8) : Call Unit := do
  let name ← resolve path true
  let file ← find name
  match file with
  | none => throw .enoent
  | some file =>
    if data.length = 0 then return
    let end_ := u32 (offset + u32 data.length)
    let end_ := if end_ < file.size then file.size else end_
    let held := sectorsFor file.size
    let need := sectorsFor end_
    if held < need then
      let room ← allocate need (some file)
      if room = 0 then throw .enospc
      moveFile file.start held room offset
      writeAtEnd name room held offset end_ data
    else writeAtEnd name file.start held offset end_ data

/-! ### A run of calls -/

/-- A call of `fs.c` that may touch the disk, the header or the slots. -/
inductive Op
  | cache (slow : Bool) (page : ℕ → Store)
  | init
  | format (diskSectors : ℕ)
  | resize (free : ℕ)
  | runs
  | getStats
  | file (index : ℕ)
  | list (held : Store) (folder : Name) (cursor : ℕ)
  | stat (path : Name)
  | lstat (path : Name)
  | sector (start index : ℕ)
  | readMany (start index count : ℕ)
  | readlink (path : Name) (max : ℕ)
  | folder (path : Name) (max : ℕ)
  | folderAt (path : Name)
  | entry (path : Name) (follow : Bool)
  | write (path : Name) (data : List UInt8)
  | writeAt (path : Name) (offset : ℕ) (data : List UInt8)
  | symlink (target path : Name)
  | remove (held : Store) (path : Name)
  | mkdir (path : Name)
  | setMode (path : Name) (mode : ℕ)
  | rename (source dest : Name)
  | chdir (path : Name)
  | cwdSet (dir : Name)

/-- One call, for the state it leaves. -/
def call : Op → Call Unit
  | .cache slow page => fsCache slow page
  | .init => fsInit
  | .format n => fsFormat n
  | .resize free => do
    let _ ← fsResize free
    return
  | .runs => do
    let _ ← fsRuns
    return
  | .getStats => do
    let _ ← fsGetStats
    return
  | .file index => do
    let _ ← fsFile index
    return
  | .list held folder cursor => do
    let _ ← fsList held folder cursor
    return
  | .stat path => do
    let _ ← fsStat path
    return
  | .lstat path => do
    let _ ← fsLstat path
    return
  | .sector start index => do
    let _ ← fsSector start index
    return
  | .readMany start index count => do
    let _ ← fsReadMany start index count
    return
  | .readlink path max => do
    let _ ← fsReadlink path max
    return
  | .folder path max => do
    let _ ← fsFolder path max
    return
  | .folderAt path => do
    let _ ← fsFolderAt path
    return
  | .entry path follow => do
    let _ ← fsEntry path follow
    return
  | .write path data => fsWrite path data
  | .writeAt path offset data => fsWriteAt path offset data
  | .symlink target path => fsSymlink target path
  | .remove held path => fsRemove held path
  | .mkdir path => fsMkdir path
  | .setMode path mode => fsSetMode path mode
  | .rename source dest => fsRename source dest
  | .chdir path => fsChdir path
  | .cwdSet dir => fsCwdSet dir

/-- The state after one call. -/
def exec (s : State) (op : Op) : State := ((call op).run.run s).2

/-- The state after a list of calls. -/
def run (s : State) (ops : List Op) : State := ops.foldl exec s

end BaxOS.Fs.Recent
