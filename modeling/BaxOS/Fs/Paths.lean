import BaxOS.Fs.Alloc

/-!
# Paths: `resolve_any` and what looks a name up

The table holds whole paths. A path is walked a part at a time into one of those; a part that is a
link is swapped for what it holds.
-/

namespace BaxOS.Fs
open ByteStore

/-! ### Walking a path -/

/-- `WALK_MAX`. -/
def walkMax : ℕ := fsNameLen + fsLinkLen

/-- A folder's name cut back to the folder it is in, as `".."` does. -/
def upOne (full : Name) : Name := (full.dropLast.reverse.dropWhile (· ≠ slash)).reverse

/-- The first `n` bytes of a sector. -/
def sectorBytes (s : State) (lba n : ℕ) : List UInt8 :=
  (List.range n).map fun i => s.disk (sectorSize * lba + i)

/-- A string as C reads it, up to its first NUL. -/
def untilNul (l : List UInt8) : Name := l.takeWhile (· ≠ 0)

/-- Where the walk of a path has got to: links followed, the name made so far, what is left. -/
structure Walk where
  links : ℕ
  full : Name
  walk : Name

/-- One turn of the loop of `resolve_any`, with something left to walk. -/
def walkPart (s : State) (follow : Bool) (w : Walk) : Except Err Walk :=
  let part := w.walk.takeWhile (· ≠ slash)
  let rest := w.walk.drop part.length
  let folder := !rest.isEmpty
  if part = [] then .ok { w with walk := rest.drop 1 }
  else if part = [dot] then .ok { w with walk := rest.drop 1 }
  else if part = [dot, dot] then .ok { w with full := upOne w.full, walk := rest.drop 1 }
  else if fsNameLen < w.full.length + part.length + 2 then .error .einval
  else
    let name := w.full ++ part
    match (if folder || follow then (find s name).filter (isLink ·.size) else none) with
    | some l =>
      let size := bytesOf l.size
      if fsLinks < w.links + 1 then .error .eloop
      else if walkMax < size + rest.length + 1 then .error .einval
      else
        let walk := untilNul (sectorBytes s l.start size ++ rest)
        .ok ⟨w.links + 1, if walk.head? = some slash then [] else w.full, walk⟩
    | none => .ok { w with full := if folder then name ++ [slash] else name, walk := rest.drop 1 }

/-- The loop of `resolve_any`. It ends well before `fuel` does. -/
def walkOn (s : State) (follow : Bool) : ℕ → Walk → Except Err Name
  | 0, _ => .error .einval
  | fuel + 1, w =>
    if w.walk = [] then .ok w.full
    else
      match walkPart s follow w with
      | .error e => .error e
      | .ok w => walkOn s follow fuel w

/-- Turns the loop of `resolve_any` takes at most: one for each byte of each walk. -/
def walkFuel : ℕ := (fsLinks + 1) * (walkMax + 1)

/-- `resolve_any`: the whole path a name stands for, empty for the root. -/
def resolveAny (s : State) (path : Name) (follow : Bool) : Except Err Name :=
  if path = [] ∨ walkMax ≤ path.length then .error .einval
  else walkOn s follow walkFuel ⟨0, if path.head? = some slash then [] else s.cwd, path⟩

/-- `resolve`: the same, for what needs an entry. -/
def resolve (s : State) (path : Name) (follow : Bool) : Except Err Name :=
  match resolveAny s path follow with
  | .error e => .error e
  | .ok [] => .error .einval
  | .ok full => .ok full

/-- `dir_name`: the same, ending in the slash that makes it a folder's name. -/
def dirName (s : State) (path : Name) (follow : Bool) : Except Err Name :=
  match resolve s path follow with
  | .error e => .error e
  | .ok full =>
    if full.getLast? = some slash then .ok full
    else if fsNameLen < full.length + 2 then .error .einval
    else .ok (full ++ [slash])

/-- `parent_exists`. -/
def parentExists (s : State) (name : Name) : Bool :=
  (parentOf name).isEmpty || (find s (parentOf name)).isSome

/-! ### Listing -/

/-- `fs_inside`: the part of a whole path directly inside a folder. -/
def fsInside (folder name : Name) : Option Name :=
  if folder.isPrefixOf name then
    let rest := name.drop folder.length
    if rest = [] ∨ slash ∈ rest.dropLast then none else some rest
  else none

/-- `fs_file`. -/
def fsFile (s : State) (index : ℕ) : Except Err FsFile :=
  match readEntry s index with
  | none => .error .enoent
  | some f => if f.name ≠ [] then .ok f else .error .enoent

/-- The index records `fs_list` goes through, and the first that is an entry in the folder, with
the cursor past it. -/
def listOn (s : State) (folder : Name) (inside : ℕ) : List ℕ → Except Err (ℕ × ℕ × FsFile)
  | [] => .error .enoent
  | k :: rest =>
    let r := recordAt s.disk (sectorSize * u32 (s.head.indexLba + k / records) + 12 * (k % records))
    if r.entry = 0 ∨ r.entry = gone ∨ r.parent ≠ inside then listOn s folder inside rest
    else
      match fsFile s (r.entry - 1) with
      | .ok f =>
        if (fsInside folder f.name).isSome then .ok (k + 1, r.entry - 1, f)
        else listOn s folder inside rest
      | .error _ => listOn s folder inside rest

/-- `fs_list`: the next entry directly inside a folder from a cursor on. Whether there is memory
to read the index by runs changes only how it is read. -/
def fsList (s : State) (folder : Name) (cursor : ℕ) :
    Except Err (ℕ × ℕ × FsFile) × State :=
  let (_, s) := memAlloc s
  (listOn s folder (hashOf folder)
    (List.range' cursor (records * s.head.indexSectors - cursor)), s)

/-! ### The working directory -/

/-- `fs_chdir`. -/
def fsChdir (s : State) (path : Name) : Except Err Unit × State :=
  if path = [] ∨ path = [slash] then (.ok (), { s with cwd := [] })
  else if path = [dot, dot] then (.ok (), { s with cwd := upOne s.cwd })
  else
    match dirName s path true with
    | .error e => (.error e, s)
    | .ok full =>
      if (find s full).isSome then (.ok (), { s with cwd := full }) else (.error .enoent, s)

/-- `fs_cwd_set`. -/
def fsCwdSet (s : State) (dir : Name) : State := { s with cwd := dir }

end BaxOS.Fs
