import BaxOS.Fs.Paths

/-!
# The calls: `fs_write`, `fs_write_at`, `fs_symlink`, `fs_mkdir`, `fs_rename`, `fs_remove`,
`fs_set_mode`

Each answers `.ok ()` for `0` and `.error` for a code, with the state it leaves either way.
-/

namespace BaxOS.Fs
open ByteStore

/-! ### Writing a file whole -/

/-- `store`'s data: the whole sectors straight from the caller, the last one padded with zeros. -/
def putData (s : State) (start count : ℕ) (data : List UInt8) : State :=
  let whole := u32 (data.length / sectorSize)
  let s := if 0 < whole then put s start whole (dataStore data) else s
  if whole < count then
    put s (u32 (start + whole)) 1 (dataStore (data.drop (sectorSize * whole)))
  else s

/-- `store` once it has an entry for the file: `old` is the file already there. -/
def storeAt (s : State) (index : ℕ) (old : Option Slot) (name : Name) (data : List UInt8)
    (flag : ℕ) : Except Err Unit × State :=
  let count := sectorsFor (u32 data.length)
  match allocate s count old with
  | (0, s) => (.error .enospc, s)
  | (start, s) =>
    let s := putData s start count data
    let s := writeEntry s index (some name) start (u32 data.length ||| flag)
    match (if old.isNone then indexAdd s name index else (.ok (), s)) with
    | (.ok (), s) => (.ok (), saveHeader s)
    | (.error e, s) => (.error e, s)

/-- `store`: a file, or a link when `flag` is `FS_LINK`, under a whole path. -/
def store (s : State) (name : Name) (data : List UInt8) (flag : ℕ) :
    Except Err Unit × State :=
  if name.getLast? = some slash then (.error .einval, s)
  else if ¬ parentExists s name then (.error .enoent, s)
  else
    match find s name with
    | some old => storeAt s old.index (some old) name data flag
    | none =>
      match freeEntry s with
      | (none, s) => (.error .enospc, s)
      | (some index, s) => storeAt s index none name data flag

/-- `fs_write`. -/
def fsWrite (s : State) (path : Name) (data : List UInt8) : Except Err Unit × State :=
  match resolve s path true with
  | .error e => (.error e, s)
  | .ok name => store s name data 0

/-- `fs_symlink`. -/
def fsSymlink (s : State) (target path : Name) : Except Err Unit × State :=
  match resolve s path false with
  | .error e => (.error e, s)
  | .ok full =>
    if target.length = 0 ∨ fsLinkLen ≤ target.length then (.error .einval, s)
    else if (find s full).isSome ∨ fsNameLen < full.length + 2 then (.error .eexist, s)
    else if (find s (full ++ [slash])).isSome then (.error .eexist, s)
    else store s full target fsLink

/-! ### Folders, removal, renaming -/

/-- `fs_remove`. -/
def fsRemove (s : State) (path : Name) : Except Err Unit × State :=
  match resolve s path false with
  | .error e => (.error e, s)
  | .ok full =>
    match find s full with
    | some file => (.ok (), dropEntry s file.index full)
    | none =>
      match dirName s path false with
      | .error e => (.error e, s)
      | .ok full =>
        match find s full with
        | none => (.error .enoent, s)
        | some file =>
          match fsList s full 0 with
          | (.ok _, s) => (.error .enotempty, s)
          | (.error _, s) => (.ok (), dropEntry s file.index full)

/-- `fs_mkdir`. -/
def fsMkdir (s : State) (path : Name) : Except Err Unit × State :=
  match dirName s path false with
  | .error e => (.error e, s)
  | .ok full =>
    if (find s full.dropLast).isSome ∨ (find s full).isSome then (.error .eexist, s)
    else if ¬ parentExists s full then (.error .enoent, s)
    else
      match freeEntry s with
      | (none, s) => (.error .enospc, s)
      | (some index, s) =>
        match indexAdd (writeEntry s index (some full) 0 0) full index with
        | (.ok (), s) => (.ok (), saveHeader s)
        | (.error e, s) => (.error e, s)

/-- `fs_set_mode`. -/
def fsSetMode (s : State) (path : Name) (mode : ℕ) : Except Err Unit × State :=
  match resolve s path true with
  | .error e => (.error e, s)
  | .ok full =>
    let entry := match find s full with
      | some f => some f
      | none => match dirName s path true with
        | .ok dir => find s dir
        | .error _ => none
    match entry with
    | none => (.error .enoent, s)
    | some f =>
      if f.size ≠ 0 then (.error .einval, s)
      else (.ok (), writeEntry s f.index none (fsMode ||| mode % 2 ^ 16) 0)

/-- `fs_rename` once a file already at the destination is gone. -/
def afterDrop (s : State) (dest : Name) : State :=
  match find s dest with
  | some there => dropEntry s there.index dest
  | none => s

/-- `fs_rename` once the file's record is gone and its entry has the new name. -/
def renamed (s : State) (was dest : Name) (file : Slot) : State :=
  writeEntry (indexRemove s was file.index) file.index (some dest) file.start file.size

/-- `fs_rename`. It takes the second `find` of the source to succeed as the first did. -/
def fsRename (s : State) (source dest : Name) : Except Err Unit × State :=
  match resolve s source false with
  | .error e => (.error e, s)
  | .ok was =>
    if was.getLast? = some slash then (.error .einval, s)
    else if (find s was).isNone then (.error .enoent, s)
    else
      match resolve s dest false with
      | .error e => (.error e, s)
      | .ok name =>
        if name.getLast? = some slash then (.error .einval, s)
        else if was = name then (.ok (), s)
        else
          let s := afterDrop s name
          if ¬ parentExists s name then (.error .enoent, s)
          else
            match find s was with
            | none => (.error .stuck, s)
            | some file => indexAdd (renamed s was name file) name file.index

/-! ### Writing into a file -/

/-- The loop of `fs_write_at` that lays the data down: the sectors it covers whole straight from
the data, one only partly covered read back first where the file had it. -/
def layData (start held offset : ℕ) (data : List UInt8) : ℕ → ℕ → State → State
  | 0, _, s => s
  | fuel + 1, done, s =>
    if done < data.length then
      let at_ := u32 ((offset + done) / sectorSize)
      let into := (offset + done) % sectorSize
      let whole := if into = 0 then (data.length - done) / sectorSize else 0
      if 0 < whole then
        let s := put s (u32 (start + at_)) (u32 whole) (dataStore (data.drop done))
        layData start held offset data fuel (done + sectorSize * whole) s
      else
        let n := min (data.length - done) (sectorSize - into)
        let was : Store := fun o =>
          if at_ < held then s.disk (sectorSize * u32 (start + at_) + o) else 0
        let s := put s (u32 (start + at_)) 1 (blit was into n (dataStore (data.drop done)))
        layData start held offset data fuel (done + n) s
    else s

/-- `fs_write_at` once it knows where the file is to be: the old sectors moved there, the sectors
of a gap past the old end zeroed. `none` where there is no memory to move them through. -/
def moveFile (s : State) (start held room offset : ℕ) : Option State :=
  let gap := if held < offset / sectorSize then offset / sectorSize else held
  if (room ≠ start ∧ 0 < held) ∨ held < gap then
    match memAlloc s with
    | (false, _) => none
    | (true, s) =>
      some (moveSectors moveRun start held room gap gap (if room ≠ start then 0 else held) s)
  else some s

/-- The end of `fs_write_at`: the data, the entry and the header. -/
def writeAtEnd (s : State) (name : Name) (start held offset size : ℕ) (data : List UInt8) :
    Except Err Unit × State :=
  let s := layData start held offset data data.length 0 s
  match find s name with
  | none => (.error .eio, s)
  | some file => (.ok (), saveHeader (writeEntry s file.index none start size))

/-- `fs_write_at`. -/
def fsWriteAt (s : State) (path : Name) (offset : ℕ) (data : List UInt8) :
    Except Err Unit × State :=
  match resolve s path true with
  | .error e => (.error e, s)
  | .ok name =>
    match find s name with
    | none => (.error .enoent, s)
    | some file =>
      if data.length = 0 then (.ok (), s)
      else
        let end_ := u32 (offset + u32 data.length)
        let end_ := if end_ < file.size then file.size else end_
        let held := sectorsFor file.size
        let need := sectorsFor end_
        if held < need then
          match allocate s need (some file) with
          | (0, s) => (.error .enospc, s)
          | (room, s) =>
            match moveFile s file.start held room offset with
            | none => (.error .enospc, (memAlloc s).2)
            | some s => writeAtEnd s name room held offset end_ data
        else writeAtEnd s name file.start held offset end_ data

/-! ### A new filesystem and a run of calls -/

/-- The header `fs_format` starts with. -/
def newHeader (diskSectors : ℕ) : Header where
  magic := fsMagic
  diskSectors := diskSectors
  tableLba := dataLba
  tableSize := tableFirst
  tableNext := 0
  freeHead := 0
  indexLba := u32 (dataLba + tableSectors tableFirst)
  indexSectors := indexFirst
  indexTaken := 0
  dataEnd := u32 (dataLba + tableSectors tableFirst + indexFirst)

/-- `fs_format`. -/
def fsFormat (s : State) (diskSectors : ℕ) : Except Err Unit × State :=
  match memAlloc s with
  | (false, s) => (.error .eio, s)
  | (true, s) =>
    let s := { s with head := newHeader diskSectors }
    (.ok (), saveHeader (put s dataLba (tableSectors tableFirst + indexFirst) fun _ => 0))

/-- `fs_resize`. -/
def fsResize (s : State) (free : ℕ) : State :=
  saveHeader { s with head.diskSectors := u32 (s.head.dataEnd + free) }

/-- A string a program passes: no NUL before its end. -/
structure CString where
  chars : List UInt8
  nul : 0 ∉ chars

/-- A working directory as `fs_chdir` leaves one: empty at the root, else ending in a slash. -/
structure Dir where
  name : Name
  nul : 0 ∉ name
  fits : name.length < fsNameLen
  folder : name = [] ∨ name.getLast? = some slash

/-- A call that may change the filesystem, or the working directory a process brings. -/
inductive Op
  | write (path : CString) (data : List UInt8)
  | writeAt (path : CString) (offset : ℕ) (data : List UInt8)
  | symlink (target path : CString)
  | mkdir (path : CString)
  | rename (source dest : CString)
  | remove (path : CString)
  | setMode (path : CString) (mode : ℕ)
  | cwdSet (dir : Dir)

/-- One call. -/
def exec (s : State) : Op → Except Err Unit × State
  | .write path data => fsWrite s path.chars data
  | .writeAt path offset data => fsWriteAt s path.chars offset data
  | .symlink target path => fsSymlink s target.chars path.chars
  | .mkdir path => fsMkdir s path.chars
  | .rename source dest => fsRename s source.chars dest.chars
  | .remove path => fsRemove s path.chars
  | .setMode path mode => fsSetMode s path.chars mode
  | .cwdSet dir => (.ok (), fsCwdSet s dir.name)

/-- The state after a list of calls. -/
def run (s : State) (ops : List Op) : State := ops.foldl (fun s op => (exec s op).2) s

end BaxOS.Fs
