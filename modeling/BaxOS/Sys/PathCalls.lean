import BaxOS.Lib.Rooms

/-!
# The calls that take a path

Each call copies its paths, and what `at_path` and `proc_fd_target` make of them, into arrays of its
own. A call comes to an `Overrun` at the first copy that does not fit. What the filesystem, the
descriptors and the devices answer is a `Kernel`'s to say; none of it copies a path.
-/

namespace BaxOS.PathCalls
open Rooms

abbrev Str := List UInt8

/-- `FS_NAME_LEN`. -/
def fsNameLen : ℕ := 120

/-- `FS_LINK_LEN`. -/
def fsLinkLen : ℕ := 128

/-- `TRACE_NAME`. -/
def traceName : ℕ := 20

/-- `CMDLINE_MAX`. -/
def cmdlineMax : ℕ := 1024

/-- A name that is kept in an array of `FS_NAME_LEN`. -/
abbrev Name := { s : Str // s.length < fsNameLen }

/-- What a string literal spells. -/
def lit (s : String) : Str := s.toList.map fun c => UInt8.ofNat c.toNat

/-- What a call answers with. -/
inductive Errno
  | enoent | eio | enomem | efault | eexist | einval | enfile | eacces | eperm | eloop | eother
  deriving DecidableEq

abbrev Res := Except Errno ℕ

/-- What a descriptor is, as far as its path goes: the console, a folder of `/proc` or `/dev`, a
device by its name, a pipe or a socket, a file opened for writing by its name, memory, a folder or a
file by its number, or something else. -/
inductive Handle
  | console
  | procdir (folder : ℕ)
  | dev (name : Option Name)
  | pipe (number : Fin (2 ^ 32))
  | sock (number : Fin (2 ^ 32))
  | writing (name : Name)
  | mem
  | folder (number : ℕ)
  | file (number : ℕ)
  | other
  deriving DecidableEq

/-- An entry that `fs_stat` found: its size, and whether it is a link. -/
structure Entry where
  size : ℕ
  link : Bool

/-- What the rest of the kernel answers. -/
structure Kernel where
  handle : ℕ → Option Handle
  table : ℕ → Option Name
  pid : Fin (2 ^ 32)
  exe : Name
  stat : Str → Option Entry
  lstat : Str → Option Entry
  folderAt : Str → Bool
  write : Str → Bool
  written : Str → Bool
  rename : Str → Str → Res
  symlink : Str → Str → Res
  readlink : Str → ℕ → Res
  remove : Str → Res
  mkdir : Str → ℕ → Res
  setMode : Str → ℕ → Res
  memReopen : ℕ → Res
  opsOpen : Str → ℕ → Option Res
  devOpen : Str → ℕ → Option Res
  fifoOpen : Str → ℕ → Option Res
  openRead : Str → ℕ → Res
  giveHandle : Res
  ofdFree : Bool
  tmpfiles : ℕ
  alloc : Bool
  canCopy : Str → Bool
  userRange : Bool
  statOf : Str → ℕ → Res
  statOfHandle : ℕ → Res
  bang : Str → Option (Str × Option Str)
  builtin : Str → Bool
  load : Str → Option Name
  execAlloc : Bool

/-! ### Paths made of paths -/

/-- The digits of a number, in tens. -/
def decimal (n : ℕ) : Str := (Nat.toDigits 10 n).map fun c => UInt8.ofNat c.toNat

def isDigit (c : UInt8) : Bool := 0x30 ≤ c && c ≤ 0x39

/-- A number read from its digits into `bits` bits. -/
def number (bits : ℕ) (s : Str) : ℕ := s.foldl (fun n c => (n * 10 + (c.toNat - 0x30)) % 2 ^ bits) 0

/-- A name without the slash it begins with. -/
def unrooted (s : Str) : Str := if s.head? = some 0x2F then s.drop 1 else s

/-- A folder's name without its trailing slash. -/
def untrailed (s : Str) : Str := if s.getLast? = some 0x2F then s.dropLast else s

/-- `fd_path`: the path of descriptor `fd`, into an array of `max`. -/
def fdPath (k : Kernel) (fd max : ℕ) : Copying (Option Str) :=
  match k.handle fd with
  | none => pure none
  | some h =>
    if max < fsNameLen + 16 then pure none
    else
      let rooted (name : Str) : Copying (Option Str) := do
        let rest ← copy max 1 (unrooted name)
        pure (some (0x2F :: rest))
      match h with
      | .console => rooted (lit "dev/tty1")
      | .procdir folder => rooted
          (if folder = 0 then lit "ctl" else if folder = 5 then lit "proc"
            else if folder = 2 then lit "dev/input" else if folder = 3 then lit "dev/pts"
            else lit "dev")
      | .dev name =>
        match name with
        | none => pure none
        | some name => rooted name.1
      | .pipe n => do
        let out ← copy max 0 (lit "pipe:[" ++ decimal n ++ lit "]")
        pure (some out)
      | .sock n => do
        let out ← copy max 0 (lit "socket:[" ++ decimal n ++ lit "]")
        pure (some out)
      | .writing name => rooted name.1
      | .mem => rooted (lit "memfd:shm (deleted)")
      | .folder 0 => rooted []
      | .folder (n + 1) | .file (n + 1) =>
        match k.table n with
        | none => pure none
        | some name => rooted (untrailed name.1)
      | .file 0 | .other => pure none

/-- What a path of `/proc` says of the caller: its own file, or a descriptor. -/
inductive Magic
  | exe
  | fd (n : ℕ)

def Magic.isExe : Magic → Bool
  | .exe => true
  | .fd _ => false

/-- The rest of a path past `/proc/self/` or `/proc/<pid>/`, where it is the caller's. -/
def ofSelf (k : Kernel) (name : Str) : Option Str :=
  if ¬ lit "/proc/" <+: name then none
  else
    let p := name.drop 6
    if lit "self/" <+: p then some (p.drop 5)
    else
      match p.dropWhile isDigit with
      | [] => none
      | c :: rest => if c ≠ 0x2F ∨ number 32 (p.takeWhile isDigit) ≠ k.pid then none else some rest

/-- What a path names, if it is one of those. -/
def magic (k : Kernel) (name : Str) : Option Magic :=
  match ofSelf k name with
  | none => none
  | some p =>
    if p = lit "exe" then some .exe
    else if ¬ lit "fd/" <+: p ∨ p.length = 3 then none
    else if (p.drop 3).dropWhile isDigit = [] then some (.fd (number 32 (p.drop 3))) else none

/-- `proc_fd_target`, into an array of `max`. -/
def procFdTarget (k : Kernel) (name : Str) (max : ℕ) : Copying (Option Str) :=
  match magic k name with
  | none => pure none
  | some .exe =>
    if k.exe.1 = [] then pure none
    else do
      let rest ← copy max 1 (unrooted k.exe.1)
      pure (some (0x2F :: rest))
  | some (.fd n) => fdPath k n max

/-- `AT_FDCWD`, as a 32-bit number. -/
def atFdcwd : ℕ := 2 ^ 32 - 100

/-- The folders of `/proc` and `/dev`, by number. -/
def bases : List Str :=
  [lit "/proc/", lit "/dev/", lit "/dev/input/", lit "/dev/pts/", lit "/proc/self/fd/"]

/-- What a path is relative to, when it is to a folder's descriptor: the folder's spelling, slashes
and all; or nothing, and the path goes as it is. -/
def relativeTo (k : Kernel) (dirfd : ℕ) (name : Str) : Option Str :=
  if name.head? = some 0x2F ∨ dirfd % 2 ^ 32 = atFdcwd then none
  else
    match k.handle dirfd with
    | some (.procdir folder) => some (bases.getD folder (lit "/proc/"))
    | some (.folder 0) => some [0x2F]
    | some (.folder (n + 1)) => (k.table n).map fun folder => 0x2F :: folder.1
    | _ => none

/-- `at_path`, into an array of `max`. The folder's spelling is copied with a terminator or without. -/
def atPath (k : Kernel) (dirfd : ℕ) (name : Option Str) (max : ℕ) : Copying (Option Str) :=
  match name with
  | none => pure none
  | some name =>
    match relativeTo k dirfd name with
    | none => pure (some name)
    | some base =>
      if max < base.length + name.length + 1 then pure none
      else do
        let base ← copy max 0 base
        let rest ← copy max base.length name
        pure (some (base ++ rest))

/-! ### `open` -/

def oAccmode : ℕ := 0x03
def oCreat : ℕ := 0x40
def oExcl : ℕ := 0x80
def oTrunc : ℕ := 0x200
def oNofollow : ℕ := 0x20000
def oTmpfile : ℕ := 0x410000

/-- Whether all the bits of `mask` are set. -/
def hasAll (flags mask : ℕ) : Bool := flags &&& mask = mask

/-- Whether a name is taken, for `O_EXCL`. -/
def taken (k : Kernel) (name : Str) (flags : ℕ) : Bool :=
  (k.lstat name).isSome || k.folderAt name || (k.devOpen name flags).isSome

/-- What opens a name that is a module's, a device or a FIFO. -/
def special (k : Kernel) (name : Str) (flags : ℕ) : Option Res :=
  (k.opsOpen name flags).or ((k.devOpen name flags).or (k.fifoOpen name flags))

/-- The name that a file with none of its own is given in a folder. -/
def scratchName (k : Kernel) (name : Str) : Str := name ++ lit "/.tmp" ++ decimal (k.tmpfiles % 64)

/-- `open_name` once it has the name of a file to write, and whether to empty it. -/
def openKept (k : Kernel) (name : Str) (empty : Bool) : Copying Res :=
  if fsNameLen < name.length + 1 then pure (.error .einval)
  else if empty && ! k.write name then pure (.error .eacces)
  else if ! k.written name then pure (.error .eacces)
  else if ! k.alloc then pure (.error .enomem)
  else do
    copyBytes (name.length + 1) 0 (name.length + 1)
    pure k.giveHandle

/-- `open_name`, to write. -/
def openWrite (k : Kernel) (name : Str) (flags : ℕ) : Copying Res :=
  if ! k.ofdFree then pure (.error .enfile)
  else if hasAll flags oTmpfile then
    if ! k.folderAt name then pure (.error .enoent)
    else do
      let scratch ← copy fsNameLen 0 (scratchName k name)
      openKept k scratch true
  else
    match k.stat name with
    | none => if flags &&& oCreat = 0 then pure (.error .enoent) else openKept k name true
    | some _ => openKept k name (flags &&& oTrunc ≠ 0)

/-- `open_name`, once it is known what the name is of. -/
def openNamed (k : Kernel) (name : Str) (flags : ℕ) : Copying Res :=
  if hasAll flags (oCreat ||| oExcl) && taken k name flags then pure (.error .eexist)
  else if flags &&& oNofollow ≠ 0 && (k.lstat name).any Entry.link then pure (.error .eloop)
  else
    match special k name flags with
    | some r => pure r
    | none => if flags &&& oAccmode ≠ 0 then openWrite k name flags else pure (k.openRead name flags)

/-- Whether a path names memory that is opened again: a memory file's descriptor or one open for
writing. -/
def reopened (k : Kernel) (name : Str) : Option ℕ :=
  if lit "/proc/self/fd/" <+: name then
    let n := number 64 ((name.drop 14).takeWhile isDigit)
    match k.handle n with
    | some .mem | some (.writing _) => some n
    | _ => none
  else none

/-- `open_name`. -/
def openName (k : Kernel) (name : Option Str) (flags : ℕ) : Copying Res :=
  match name with
  | none => pure (.error .einval)
  | some name =>
    match reopened k name with
    | some n => pure (k.memReopen n)
    | none => do
      let target ← procFdTarget k name (fsNameLen + 16)
      openNamed k (target.getD name) flags

/-- `sys_open`. -/
def sysOpen (k : Kernel) (path : Option Str) (flags : ℕ) : Copying Res := openName k path flags

/-- `sys_openat`. -/
def sysOpenat (k : Kernel) (dirfd : ℕ) (path : Option Str) (flags : ℕ) : Copying Res := do
  let name ← atPath k dirfd path fsNameLen
  openName k name flags

/-! ### Links and names -/

/-- `LINK_MAX_COPY`. -/
def linkMaxCopy : ℕ := 1024 * 1024

/-- `link_copy`: what the newest pair's names are kept in is 64 bytes each. -/
def linkCopy (k : Kernel) (source dest : Option Str) : Copying Res :=
  match source, dest with
  | some source, some dest =>
    match k.stat source with
    | none => pure (.error .enoent)
    | some file =>
      if (k.lstat dest).isSome then pure (.error .eexist)
      else if linkMaxCopy < file.size ∨ file.link then pure (.error .eperm)
      else if ! k.canCopy source then pure (.error .eio)
      else if ! k.write dest then pure (.error .eother)
      else if source.length < 64 ∧ dest.length < 64 then do
        let _ ← copy 64 0 source
        let _ ← copy 64 0 dest
        pure (.ok 0)
      else pure (.ok 0)
  | _, _ => pure (.error .efault)

/-- The last part of a path, from its slash on. -/
def leafOf (s : Str) : Option Str :=
  if 0x2F ∈ s then some (0x2F :: (s.reverse.takeWhile (· ≠ 0x2F)).reverse) else none

/-- `sys_linkat` once the old path is spelled. -/
def linkFrom (k : Kernel) (source : Str) (newdir : ℕ) (newpath : Option Str) : Copying Res := do
  let target ← procFdTarget k source (fsNameLen + 16)
  match target with
  | some a => do
    let dest ← atPath k newdir newpath fsNameLen
    if dest.isSome && (leafOf a).any fun leaf => lit "/.tmp" <+: leaf then
      pure (if (dest.bind k.lstat).isSome then .error .eexist else k.rename a (dest.getD []))
    else do
      let dest ← atPath k newdir newpath fsNameLen
      linkCopy k (some a) dest
  | none => do
    let a ← copy (fsNameLen + 16) 0 source
    let dest ← atPath k newdir newpath fsNameLen
    linkCopy k (some a) dest

/-- `sys_linkat`. -/
def sysLinkat (k : Kernel) (olddir : ℕ) (oldpath : Option Str) (newdir : ℕ) (newpath : Option Str) :
    Copying Res := do
  let source ← atPath k olddir oldpath (fsNameLen + 16)
  match source with
  | none => do
    let dest ← atPath k newdir newpath fsNameLen
    linkCopy k none dest
  | some [] => do
    let fd ← copy 32 0 (lit "/proc/self/fd/" ++ decimal (olddir % 2 ^ 32))
    linkFrom k fd newdir newpath
  | some source => linkFrom k source newdir newpath

/-- `sys_link`. -/
def sysLink (k : Kernel) (oldpath newpath : Option Str) : Copying Res :=
  sysLinkat k atFdcwd oldpath atFdcwd newpath

/-- `sys_symlinkat`. -/
def sysSymlinkat (k : Kernel) (target : Option Str) (dirfd : ℕ) (path : Option Str) : Copying Res :=
  match target with
  | none => pure (.error .efault)
  | some dest =>
    if fsLinkLen < dest.length + 1 then pure (.error .einval)
    else do
      let kept ← copy fsLinkLen 0 dest
      let name ← atPath k dirfd path fsNameLen
      pure (name.elim (.error .efault) (k.symlink kept))

/-- `sys_rename` and `sys_renameat` once the old path is spelled. -/
def renameFrom (k : Kernel) (old : Option Str) (new : Copying (Option Str)) : Copying Res :=
  match old with
  | none => pure (.error .efault)
  | some old =>
    if fsNameLen < old.length + 1 then pure (.error .efault)
    else do
      copyBytes fsNameLen 0 (old.length + 1)
      let name ← new
      pure (name.elim (.error .efault) (k.rename old))

/-- `sys_rename`. -/
def sysRename (k : Kernel) (oldpath newpath : Option Str) : Copying Res :=
  renameFrom k oldpath (pure newpath)

/-- `sys_renameat`. -/
def sysRenameat (k : Kernel) (olddir : ℕ) (oldpath : Option Str) (newdir : ℕ) (newpath : Option Str) :
    Copying Res := do
  let old ← atPath k olddir oldpath fsNameLen
  renameFrom k old (atPath k newdir newpath fsNameLen)

/-- `sys_unlinkat`. -/
def sysUnlinkat (k : Kernel) (dirfd : ℕ) (path : Option Str) : Copying Res := do
  let name ← atPath k dirfd path fsNameLen
  pure (name.elim (.error .efault) k.remove)

/-- `sys_mkdirat`. -/
def sysMkdirat (k : Kernel) (dirfd : ℕ) (path : Option Str) (mode : ℕ) : Copying Res := do
  let name ← atPath k dirfd path fsNameLen
  pure (name.elim (.error .efault) fun name => k.mkdir name mode)

/-- `S_IFMT` and `S_IFIFO`. -/
def isFifoMode (mode : ℕ) : Bool := mode &&& 0xF000 = 0x1000

/-- `sys_mknodat`. -/
def sysMknodat (k : Kernel) (dirfd : ℕ) (path : Option Str) (mode : ℕ) : Copying Res := do
  let name ← atPath k dirfd path fsNameLen
  match name with
  | none => pure (.error .efault)
  | some name =>
    if ! isFifoMode mode then pure (.error .eperm)
    else if (k.stat name).isSome then pure (.error .eexist)
    else if ! k.write name then pure (.error .eother)
    else pure (k.setMode name (0x1000 ||| (mode &&& 0o755)))

/-! ### What a path is of -/

/-- `sys_readlinkat`, into a program's buffer of `size`. -/
def sysReadlinkat (k : Kernel) (dirfd : ℕ) (path : Option Str) (size : ℕ) : Copying Res := do
  let name ← atPath k dirfd path fsNameLen
  match name with
  | none => pure (.error .efault)
  | some name =>
    if ! k.userRange then pure (.error .efault)
    else do
      let target ← procFdTarget k name (fsNameLen + 16)
      match target with
      | some target => do
        copyBytes size 0 (min target.length size)
        pure (.ok (min target.length size))
      | none => pure (k.readlink name size)

/-- `statx_core` and `newfstatat_core`: `bad` is what one says of a bad address, and `own` for which spelling
of the path it is the descriptor itself. -/
def statCore (k : Kernel) (dirfd : ℕ) (path : Option Str) (flags : ℕ) (bad : Errno) (own : Str → Bool) :
    Copying Res := do
  let name ← atPath k dirfd path fsNameLen
  match name with
  | none => pure (.error bad)
  | some name =>
    if ! k.userRange then pure (.error bad)
    else do
      let target ← procFdTarget k name (fsNameLen + 16)
      pure (if own name then k.statOfHandle dirfd else k.statOf (target.getD name) flags)

/-- `statx_core`: an empty path. -/
def statxCore (k : Kernel) (dirfd : ℕ) (path : Option Str) (flags : ℕ) : Copying Res :=
  statCore k dirfd path flags .einval fun _ => path = some []

/-- `sys_statx`, which spells the path again for its mount, its links and its owner. -/
def sysStatx (k : Kernel) (dirfd : ℕ) (path : Option Str) (flags : ℕ) : Copying Res := do
  let r ← statxCore k dirfd path flags
  match r with
  | .error e => pure (.error e)
  | .ok n =>
    if path = some [] then pure (.ok n)
    else do
      let _ ← atPath k dirfd path fsNameLen
      pure (.ok n)

/-- `newfstatat_core`: a path that is spelled as nothing. -/
def newfstatatCore (k : Kernel) (dirfd : ℕ) (path : Option Str) (flags : ℕ) : Copying Res :=
  statCore k dirfd path flags .efault fun name => name = []

/-- `sys_newfstatat`. -/
def sysNewfstatat (k : Kernel) (dirfd : ℕ) (path : Option Str) (flags : ℕ) : Copying Res := do
  let r ← newfstatatCore k dirfd path flags
  let _ ← atPath k dirfd path fsNameLen
  pure r

/-! ### `execve` -/

/-- A program's name, from the last slash that is not its end: `base` is what it is so far. -/
def baseName (base : Str) : Str → Str
  | [] => base
  | c :: rest => baseName (if c = 0x2F ∧ rest ≠ [] then rest else base) rest

/-- `process_named`: `proc->name` is `TRACE_NAME` bytes. -/
def processNamed (path : Str) : Copying Unit := do
  let n := min (baseName path path).length (traceName - 1)
  copyBytes traceName 0 n
  copyBytes traceName n 1

/-- The loop of `process_cmdline` that fills `n` bytes, `done` of them filled. -/
def fillCmdline (n : ℕ) : ℕ → List Str → Copying Unit
  | _, [] => pure ()
  | done, s :: strs =>
    if n ≤ done then pure ()
    else do
      let len := min (s.length + 1) (n - done)
      copyBytes n done len
      fillCmdline n (done + len) strs

/-- `process_cmdline`. -/
def processCmdline (k : Kernel) (words : List Str) : Copying Unit :=
  let n := min ((words.map fun s => s.length + 1).sum) cmdlineMax
  if n = 0 ∨ ! k.execAlloc then pure ()
  else do
    fillCmdline n 0 words
    copyBytes n (n - 1) 1

/-- `sys_execve` from the program's file on: `words` are what it is handed. -/
def execLoaded (k : Kernel) (name : Str) (words : List Str) : Copying Res :=
  match k.load name with
  | none => pure (.error .eother)
  | some file => do
    processNamed (words.headD [])
    processCmdline k words
    let _ ← copy fsNameLen 0 file.1
    pure (.ok 0)

/-- `sys_execve` with a script's interpreter, whose path is checked before it is copied. -/
def execInterp (k : Kernel) (interp : Str) (words : List Str) : Copying Res :=
  if fsNameLen < interp.length + 1 then pure (.error .einval)
  else do
    let name ← copy fsNameLen 0 interp
    if (k.stat name).isNone then pure (.error .enoent) else execLoaded k name words

/-- `sys_execve` once it knows the program's name, which goes into `held->name`. -/
def execNamed (k : Kernel) (name : Str) (args : List Str) : Copying Res := do
  let name ← copy fsNameLen 0 name
  let words := if args = [] then [name] else args
  if k.builtin name then pure (.ok 0)
  else if (k.stat name).isNone then pure (.error .enoent)
  else
    match k.bang name with
    | none => execLoaded k name words
    | some (interp, extra) => do
      let script ← copy fsNameLen 0 name
      execInterp k interp (interp :: (extra.toList ++ [script] ++ words.drop 1))

/-- `sys_execve`, with what `copy_list` took of the arguments. -/
def sysExecve (k : Kernel) (path : Option Str) (args : List Str) : Copying Res :=
  match path with
  | none => pure (.error .einval)
  | some given =>
    if fsNameLen < given.length + 1 then pure (.error .einval)
    else if ! k.alloc then pure (.error .enomem)
    else do
      let name ← copy fsNameLen 0 given
      let target ← procFdTarget k given fsNameLen
      execNamed k (target.getD name) args

/-! ### Any of them -/

/-- A call that takes paths. -/
inductive Call
  | open (path : Option Str) (flags : ℕ)
  | openat (dirfd : ℕ) (path : Option Str) (flags : ℕ)
  | linkat (olddir : ℕ) (oldpath : Option Str) (newdir : ℕ) (newpath : Option Str)
  | link (oldpath newpath : Option Str)
  | symlinkat (target : Option Str) (dirfd : ℕ) (path : Option Str)
  | rename (oldpath newpath : Option Str)
  | renameat (olddir : ℕ) (oldpath : Option Str) (newdir : ℕ) (newpath : Option Str)
  | execve (path : Option Str) (args : List Str)
  | unlinkat (dirfd : ℕ) (path : Option Str)
  | mkdirat (dirfd : ℕ) (path : Option Str) (mode : ℕ)
  | mknodat (dirfd : ℕ) (path : Option Str) (mode : ℕ)
  | statx (dirfd : ℕ) (path : Option Str) (flags : ℕ)
  | newfstatat (dirfd : ℕ) (path : Option Str) (flags : ℕ)
  | readlinkat (dirfd : ℕ) (path : Option Str) (size : ℕ)

/-- What a call does. -/
def Call.run (k : Kernel) : Call → Copying Res
  | .open path flags => sysOpen k path flags
  | .openat dirfd path flags => sysOpenat k dirfd path flags
  | .linkat olddir oldpath newdir newpath => sysLinkat k olddir oldpath newdir newpath
  | .link oldpath newpath => sysLink k oldpath newpath
  | .symlinkat target dirfd path => sysSymlinkat k target dirfd path
  | .rename oldpath newpath => sysRename k oldpath newpath
  | .renameat olddir oldpath newdir newpath => sysRenameat k olddir oldpath newdir newpath
  | .execve path args => sysExecve k path args
  | .unlinkat dirfd path => sysUnlinkat k dirfd path
  | .mkdirat dirfd path mode => sysMkdirat k dirfd path mode
  | .mknodat dirfd path mode => sysMknodat k dirfd path mode
  | .statx dirfd path flags => sysStatx k dirfd path flags
  | .newfstatat dirfd path flags => sysNewfstatat k dirfd path flags
  | .readlinkat dirfd path size => sysReadlinkat k dirfd path size

end BaxOS.PathCalls
