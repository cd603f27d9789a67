import BaxOS.Lib.Store

/-!
# The filesystem's state and what it keeps on the disk

The state of `fs.c`: the disk, the header in memory, the working directory, and what `mem_alloc`
will answer. Disk reads and writes succeed here; the sectors `fs.c` keeps of what it read lately
are then copies of the disk's, so a sector is read from the disk directly.

* `Header`, `FsFile` and `Record` are the source's `struct header`, `struct fs_file` and
  `struct record`; `fileAt`, `recordAt` and `headerAt` read them off the disk.
* `put`, `writeEntry`, `putRecord` and `saveHeader` write. A sector that is read, changed in one
  place and put back changes the disk in that place.

A number of the source's `uint32_t` is a natural number below `2 ^ 32`; `u32` is where its
arithmetic wraps.
-/

namespace BaxOS.Fs
open ByteStore

/-! ### Numbers and names -/

/-- Arithmetic of 32 bits. -/
def u32 (n : ℕ) : ℕ := n % 2 ^ 32

theorem u32_of_lt {n : ℕ} (h : n < 2 ^ 32) : u32 n = n := Nat.mod_eq_of_lt h

theorem u32_lt (n : ℕ) : u32 n < 2 ^ 32 := Nat.mod_lt _ (by norm_num)

/-- A name or a path, without the NUL it ends in. -/
abbrev Name := List UInt8

/-- `'/'`. -/
def slash : UInt8 := 0x2F

/-- `'.'`. -/
def dot : UInt8 := 0x2E

/-- `FS_E*`. A call that does not return is `stuck`: the search of `index_grow` for a place in a
full table never ends. -/
inductive Err
  | eio
  | enoent
  | enospc
  | einval
  | eexist
  | enotempty
  | eloop
  | stuck
  deriving DecidableEq

/-- `FS_LBA`, the header's sector. -/
def fsLba : ℕ := 1
/-- `DATA_LBA`. -/
def dataLba : ℕ := fsLba + 1
/-- `SECTOR_SIZE`. -/
def sectorSize : ℕ := 512
/-- `PER_SECTOR`, table entries in a sector. -/
def perSector : ℕ := 4
/-- `RECORDS`, index records in a sector. -/
def records : ℕ := 42
/-- `FS_NAME_LEN`, a whole path with its NUL. -/
def fsNameLen : ℕ := 120
/-- `FS_LINK_LEN`, a link's target with its NUL. -/
def fsLinkLen : ℕ := 128
/-- `FS_LINKS`, links followed in one path. -/
def fsLinks : ℕ := 40
/-- `FS_LINK`, the bit of a size that makes an entry a link. -/
def fsLink : ℕ := 2 ^ 31
/-- `FS_MODE`, the bit of the start of a folder or an empty file that says it is a mode. -/
def fsMode : ℕ := 2 ^ 31
/-- `TABLE_FIRST`, entries a new filesystem starts with. -/
def tableFirst : ℕ := 64
/-- `TABLE_STEP`, how many more each time it fills. -/
def tableStep : ℕ := 256
/-- `INDEX_FIRST`, index sectors a new one starts with. -/
def indexFirst : ℕ := 4
/-- `CHUNK`, sectors moved in one call. -/
def chunk : ℕ := 64
/-- `MOVE_RUN`, sectors a call when a file is moved. -/
def moveRun : ℕ := 128
/-- `FS_MAGIC`. -/
def fsMagic : ℕ := 0x39465842
/-- `GONE`, the entry of a record whose file was removed. -/
def gone : ℕ := 0xFFFFFFFF

/-- `sectors_for`. -/
def sectorsFor (size : ℕ) : ℕ := u32 (size + sectorSize - 1) / sectorSize

/-- `table_sectors`. -/
def tableSectors (size : ℕ) : ℕ := sectorsFor (u32 (128 * size))

/-! ### What the disk holds -/

/-- `struct header`. -/
structure Header where
  magic : ℕ
  diskSectors : ℕ
  tableLba : ℕ
  tableSize : ℕ
  tableNext : ℕ
  freeHead : ℕ
  indexLba : ℕ
  indexSectors : ℕ
  indexTaken : ℕ
  dataEnd : ℕ
  deriving DecidableEq

/-- `struct fs_file`, a table entry. An empty name means it is free. -/
structure FsFile where
  name : Name
  start : ℕ
  size : ℕ
  deriving DecidableEq

/-- `struct record`, a record of the index. `entry` is an entry's number plus one, `0` in a
record never used and `gone` in one whose file was removed. -/
structure Record where
  hash : ℕ
  parent : ℕ
  entry : ℕ
  deriving DecidableEq

/-- `struct slot`, what `find` gives. -/
structure Slot where
  index : ℕ
  start : ℕ
  size : ℕ
  deriving DecidableEq

/-- `bytes_of`: the bytes of data an entry of this size owns. -/
def bytesOf (size : ℕ) : ℕ := size % fsLink

/-- `is_link`, of an entry's size. -/
def isLink (size : ℕ) : Bool := fsLink ≤ size

/-- The table entry at an address: its name, then its start and its size. -/
def fileAt (d : Store) (a : ℕ) : FsFile :=
  ⟨cstr d a fsNameLen, word d (a + fsNameLen), word d (a + (fsNameLen + 4))⟩

/-- The index record at an address. -/
def recordAt (d : Store) (a : ℕ) : Record := ⟨word d a, word d (a + 4), word d (a + 8)⟩

/-- The header the disk holds. -/
def headerAt (d : Store) : Header where
  magic := word d (sectorSize * fsLba)
  diskSectors := word d (sectorSize * fsLba + 4)
  tableLba := word d (sectorSize * fsLba + 8)
  tableSize := word d (sectorSize * fsLba + 12)
  tableNext := word d (sectorSize * fsLba + 16)
  freeHead := word d (sectorSize * fsLba + 20)
  indexLba := word d (sectorSize * fsLba + 24)
  indexSectors := word d (sectorSize * fsLba + 28)
  indexTaken := word d (sectorSize * fsLba + 32)
  dataEnd := word d (sectorSize * fsLba + 36)

/-- A header's numbers, in order. -/
def Header.words (h : Header) : List ℕ :=
  [h.magic, h.diskSectors, h.tableLba, h.tableSize, h.tableNext, h.freeHead, h.indexLba,
    h.indexSectors, h.indexTaken, h.dataEnd]

/-- The header's sector: its numbers, then zeros. -/
def Header.sector (h : Header) : Store := fun i => wordBytes (h.words.getD (i / 4) 0) (i % 4)

/-- A record's twelve bytes. -/
def Record.bytes (r : Record) : Store := fun i =>
  wordBytes (if i < 4 then r.hash else if i < 8 then r.parent else r.entry) (i % 4)

/-! ### The state -/

/-- The state of the filesystem: the disk, `head`, `cwd`, and whether each `mem_alloc` from now on
finds memory. -/
structure State where
  disk : Store
  head : Header
  cwd : Name
  mem : ℕ → Bool

/-- `mem_alloc`: whether it gave memory. -/
def memAlloc (s : State) : Bool × State := (s.mem 0, { s with mem := fun n => s.mem (n + 1) })

/-- `put`: `count` sectors of `data` to the disk from sector `lba` on. -/
def put (s : State) (lba count : ℕ) (data : Store) : State :=
  { s with disk := blit s.disk (sectorSize * lba) (sectorSize * count) data }

/-- Where table entry `index` is. -/
def entryAddr (h : Header) (index : ℕ) : ℕ :=
  sectorSize * u32 (h.tableLba + index / perSector) + 128 * (index % perSector)

/-- `read_entry`. -/
def readEntry (s : State) (index : ℕ) : Option FsFile :=
  if index < s.head.tableNext then some (fileAt s.disk (entryAddr s.head index)) else none

/-- `write_entry`: entry `index` written, its name too unless it is `none`. -/
def writeEntry (s : State) (index : ℕ) (name : Option Name) (start size : ℕ) : State :=
  let a := entryAddr s.head index
  let d := match name with
    | some n => setString s.disk a fsNameLen n
    | none => s.disk
  let d := blit d (a + fsNameLen) 4 (wordBytes start)
  { s with disk := blit d (a + (fsNameLen + 4)) 4 (wordBytes size) }

/-- One record of the index sector at `lba` changed. -/
def putRecord (s : State) (lba i : ℕ) (r : Record) : State :=
  { s with disk := blit s.disk (sectorSize * lba + 12 * i) 12 r.bytes }

/-- `save_header`. -/
def saveHeader (s : State) : State := put s fsLba 1 s.head.sector

/-- `load_table`, as a restart finds the disk. -/
def loadTable (s : State) : Except Err State :=
  if (headerAt s.disk).magic = fsMagic then .ok { s with head := headerAt s.disk } else .error .eio

/-- Data as a store, zeros after its end. -/
def dataStore (data : List UInt8) : Store := fun i => data.getD i 0

end BaxOS.Fs
