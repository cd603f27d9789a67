import BaxOS.Fs.WriteCalls

/-!
# Files open for writing: `mem_io`, `write`, `pwrite64`, `ftruncate`, `fallocate`

An open file is on the disk, by the name it was opened by, or in memory: a memory file, or one whose name
was deleted. Each opening remembers a position and a size of its own (`struct ofd`); a file on the disk has
a size there too, and a memory file has none besides.

A call picks its descriptor's opening up and leaves it at its end, so that it is found by its number here.
-/

namespace BaxOS.Openings
open ByteStore Fs

/-! ### Memory files -/

/-- `PAGE_SIZE`. -/
def pageSize : ℕ := 4096

/-- `struct mobj`: room for pages, and those that are there. -/
structure Mobj where
  room : ℕ
  frame : ℕ → Option Store

/-- A byte of the memory: what has not been touched holds zeros. -/
def Mobj.byte (m : Mobj) (p : ℕ) : UInt8 :=
  match m.frame (p / pageSize) with
  | some page => page (p % pageSize)
  | none => 0

/-- Doubled until it is over `index`. -/
def doubled (index : ℕ) : ℕ → ℕ → ℕ
  | 0, room => room
  | n + 1, room => if room ≤ index then doubled index n (2 * room) else room

/-- The first half of `mobj_page`: a table with room for `index`. -/
def Mobj.roomFor (m : Mobj) (index : ℕ) (s : State) : Option Mobj × State :=
  if m.room ≤ index then
    match memAlloc s with
    | (false, s) => (none, s)
    | (true, s) => (some { m with room := doubled index 32 (if m.room = 0 then 16 else m.room) }, s)
  else (some m, s)

/-- `mobj_page`, making it: the page, and the memory that has it. The page is got from `mem_pages` and taken
in by `shared_adopt`. -/
def Mobj.page (m : Mobj) (index : ℕ) (s : State) : Option Store × Mobj × State :=
  match m.roomFor index s with
  | (none, s) => (none, m, s)
  | (some m, s) =>
    match m.frame index with
    | some page => (some page, m, s)
    | none =>
      match memAlloc s with
      | (false, s) => (none, m, s)
      | (true, s) =>
        match memAlloc s with
        | (false, s) => (none, m, s)
        | (true, s) => (some fun _ => 0, { m with frame := Function.update m.frame index (some fun _ => 0) }, s)

/-- The loop of `mem_io`, in: how much went in. -/
def memIn : ℕ → Mobj → State → ℕ → List UInt8 → ℕ × Mobj × State
  | 0, m, s, _, _ => (0, m, s)
  | n + 1, m, s, at_, data =>
    if data = [] then (0, m, s)
    else
      let k := min (pageSize - at_ % pageSize) data.length
      match m.page (u32 (at_ / pageSize)) s with
      | (none, m, s) => (0, m, s)
      | (some page, m, s) =>
        let page := blit page (at_ % pageSize) k (dataStore data)
        let m := { m with frame := Function.update m.frame (u32 (at_ / pageSize)) (some page) }
        let (done, m, s) := memIn n m s (at_ + k) (data.drop k)
        (k + done, m, s)

/-! ### Openings -/

/-- `start` of a descriptor: `MEM_MARK`, `WRITE_MARK`, or another kind. -/
inductive Mark
  | mem
  | write
  | other
  deriving DecidableEq

/-- A descriptor and the `struct ofd` it has. A `MEM_MARK` one has memory. -/
structure Opening where
  mark : Mark
  offset : ℕ
  size : ℕ
  mem : Option ℕ
  name : Option CString
  offset_lt : offset < 2 ^ 32
  size_lt : size < 2 ^ 32
  held : mark = .mem → mem.isSome = true

namespace Opening

/-- The position set. -/
def seek (h : Opening) (n : ℕ) : Opening := { h with offset := u32 n, offset_lt := u32_lt n }

/-- The size set. -/
def grow (h : Opening) (n : ℕ) : Opening := { h with size := u32 n, size_lt := u32_lt n }

/-- `mem_backed`: the memory the bytes are in. -/
def backed (h : Opening) : Option ℕ :=
  if h.mark = .mem ∨ h.mark = .write ∧ h.name.isNone = true then h.mem else none

/-- `write_name`. -/
def writeName (h : Opening) : CString := h.name.getD ⟨[], by simp⟩

end Opening

/-- The filesystem, the memory files, and what is open. -/
structure Files where
  fs : State
  mobjs : ℕ → Mobj
  openings : ℕ → Option Opening

/-- An opening left as `h`. -/
def Files.leave (s : Files) (k : ℕ) (h : Opening) : Files :=
  { s with openings := Function.update s.openings k (some h) }

/-! ### Calls -/

/-- `EBADF`, `EFAULT`, `EINVAL`, `EIO`, `ENOMEM`. -/
inductive Errno
  | ebadf
  | efault
  | einval
  | eio
  | enomem
  deriving DecidableEq

/-- What a program has in its own memory, which is no more than 512 GiB. -/
structure UserText where
  bytes : List UInt8
  fits : bytes.length ≤ 2 ^ 39

/-- `mem_io`, in, from a position. -/
def memIo (s : Files) (h : Opening) (mem : ℕ) (data : List UInt8) : ℕ × Opening × Files :=
  let (done, m, fs) := memIn data.length (s.mobjs mem) s.fs h.offset data
  let h := h.seek (h.offset + done)
  (done, if h.size < h.offset then h.grow h.offset else h,
    { s with fs, mobjs := Function.update s.mobjs mem m })

/-- `sys_write`, to a file open for writing. -/
def sysWrite (s : Files) (k : ℕ) (text : Option UserText) : Except Errno ℕ × Files :=
  match text with
  | none => (.error .efault, s)
  | some data =>
    match s.openings k with
    | none => (.error .ebadf, s)
    | some h =>
      match h.backed with
      | some mem =>
        let (done, h, s) := memIo s h mem data.bytes
        (.ok done, s.leave k h)
      | none =>
        if h.mark ≠ .write then (.error .ebadf, s)
        else
          match fsWriteAt s.fs h.writeName.chars h.offset data.bytes with
          | (.error _, fs) => (.error .eio, { s with fs })
          | (.ok (), fs) =>
            let h := h.seek (h.offset + u32 data.bytes.length)
            (.ok data.bytes.length, { s with fs }.leave k (if h.size < h.offset then h.grow h.offset else h))

/-- `sys_pwrite64`. -/
def sysPwrite64 (s : Files) (k : ℕ) (text : Option UserText) (offset : ℕ) : Except Errno ℕ × Files :=
  match text with
  | none => (.error .efault, s)
  | some data =>
    match s.openings k with
    | none => (.error .ebadf, s)
    | some h =>
      match h.backed with
      | some mem =>
        let (done, h', s) := memIo s (h.seek offset) mem data.bytes
        (.ok done, s.leave k (h'.seek h.offset))
      | none =>
        if h.mark ≠ .write then (.error .ebadf, s)
        else
          match fsWriteAt s.fs h.writeName.chars (u32 offset) data.bytes with
          | (.error _, fs) => (.error .eio, { s with fs })
          | (.ok (), fs) =>
            let past := (offset + data.bytes.length) % 2 ^ 64
            (.ok data.bytes.length, { s with fs }.leave k (if h.size < past then h.grow past else h))

/-- `fs_stat`. -/
def fsStat (s : State) (path : CString) : Option Slot :=
  match resolve s path.chars true with
  | .error _ => none
  | .ok name => find s name

/-- `read_at`. -/
def readAt (s : State) (file : Slot) (offset size : ℕ) : Option (List UInt8) :=
  if file.size < offset ∨ file.size - offset < size then none
  else some ((sectorBytes s file.start (offset + size)).drop offset)

/-- Shorter: what stays, written again on its own. -/
def cutTo (s : State) (path : CString) (length : ℕ) : Except Errno Unit × State :=
  match memAlloc s with
  | (false, s) => (.error .enomem, s)
  | (true, s) =>
    match (fsStat s path).bind (readAt s · 0 length) with
    | none => (.error .eio, s)
    | some kept =>
      match fsWrite s path.chars kept with
      | (.error _, s) => (.error .eio, s)
      | (.ok (), s) => (.ok (), s)

/-- A file on the disk made `length` long, which was `known` long when it was last looked at. -/
def fileTo (s : State) (path : CString) (known length : ℕ) : Except Errno Unit × State :=
  if length = 0 then
    match fsWrite s path.chars [] with
    | (.error _, s) => (.error .eio, s)
    | (.ok (), s) => (.ok (), s)
  else if known < length then
    match fsWriteAt s path.chars (u32 (length + (2 ^ 32 - 1))) [0] with
    | (.error _, s) => (.error .eio, s)
    | (.ok (), s) => (.ok (), s)
  else if length < known then cutTo s path length
  else (.ok (), s)

/-- `sys_ftruncate`. -/
def sysFtruncate (s : Files) (k length : ℕ) : Except Errno ℕ × Files :=
  match s.openings k with
  | none => (.error .ebadf, s)
  | some h =>
    if h.backed.isSome then (.ok 0, s.leave k (h.grow length))
    else if h.mark ≠ .write then (.error .einval, s)
    else
      match fsStat s.fs h.writeName with
      | none => (.ok 0, s.leave k (h.grow length))
      | some _ =>
        match fileTo s.fs h.writeName h.size length with
        | (.error e, fs) => (.error e, { s with fs })
        | (.ok (), fs) => (.ok 0, { s with fs }.leave k (h.grow length))

/-- `FALLOC_FL_KEEP_SIZE` is bit 0 of the mode. -/
def keepSize (mode : ℕ) : Bool := mode % 2 = 1

/-- `sys_fallocate`. -/
def sysFallocate (s : Files) (k mode offset len : ℕ) : Except Errno ℕ × Files :=
  let want := (offset + len) % 2 ^ 64
  match s.openings k with
  | none => (.error .ebadf, s)
  | some h => if !keepSize mode ∧ h.size < want then sysFtruncate s k want else (.ok 0, s)

/-- A call on an open file. -/
inductive Call
  | write (text : Option UserText)
  | pwrite64 (text : Option UserText) (offset : ℕ)
  | ftruncate (length : ℕ)
  | fallocate (mode offset len : ℕ)

/-- The call made. -/
def Call.exec (s : Files) (k : ℕ) : Call → Except Errno ℕ × Files
  | write text => sysWrite s k text
  | pwrite64 text offset => sysPwrite64 s k text offset
  | ftruncate length => sysFtruncate s k length
  | fallocate mode offset len => sysFallocate s k mode offset len

end BaxOS.Openings
