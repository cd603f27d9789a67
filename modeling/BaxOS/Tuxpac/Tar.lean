import BaxOS.Tuxpac.Depends
import BaxOS.Lib.Feeding

/-!
# Unpacking: `tar_sink`, `tar_entry`

A package's two archives are fed to `tar_sink` as they are unpacked, in whatever pieces that gives. What
the system does for it, `sys_open` and the rest, is an argument, with a state of its own.
-/

namespace BaxOS.Tuxpac
open Feeding

/-! ### The system -/

/-- The calls of the system, on a state of its own. `create` is `sys_open` for writing, the file made or
emptied; `lstat` is the file's mode; `alloc` is `xalloc`. -/
structure Os (σ : Type*) where
  mkdir : Text → σ → ℤ × σ
  lstat : Text → σ → Option ℕ
  present : Text → σ → Bool
  unlink : Text → σ → σ
  symlink : Text → Text → σ → ℤ × σ
  create : Text → ℕ → σ → ℤ × σ
  write : ℤ → List UInt8 → σ → ℤ × σ
  close : ℤ → σ → σ
  alloc : ℕ → σ → Bool × σ

def enoent : ℤ := -2
def eexist : ℤ := -17

/-- `S_IFMT`, `S_IFDIR` and `S_IFLNK`. -/
def fileType (mode : ℕ) : ℕ := mode / 2 ^ 12 % 16
def isFolder (mode : ℕ) : Bool := fileType mode = 4
def isLink (mode : ℕ) : Bool := fileType mode = 10

/-- `CONF`, `POST`, and the sizes of `elves`, of `name`, `link` and `path` in `tar_entry`, and of
`longname` and `longlink`. -/
def confRoom : ℕ := 4096
def postRoom : ℕ := 16384
def elvesRoom : ℕ := 8192
def nameRoom : ℕ := 256 + 160
def linkRoom : ℕ := 256
def absoluteRoom : ℕ := pathRoom + 264
def longRoom : ℕ := 256

def slash : UInt8 := 47
def dot : UInt8 := 46

variable {σ : Type*}

/-- `mkdirs`. -/
def mkdirs (os : Os σ) (path : Text) (s : σ) : σ :=
  if pathRoom ≤ path.length then s
  else
    (List.range' 1 path.length).foldl
      (fun s i => if path[i]? = some slash ∨ i = path.length then (os.mkdir (path.take i) s).2 else s) s

/-- Where the last slash of a path is. -/
def lastSlash (path : Text) : Option ℕ :=
  (List.range path.length).reverse.find? fun i => path[i]? = some slash

/-- `mkparent`. -/
def mkparent (os : Os σ) (path : Text) (s : σ) : σ :=
  if path.length < pathRoom then
    match lastSlash path with
    | some i => if i ≠ 0 then mkdirs os (path.take i) s else s
    | none => s
  else s

/-- A call made again with the folders above made, where there are none. -/
def withParent (os : Os σ) (path : Text) (call : σ → ℤ × σ) (s : σ) : ℤ × σ :=
  let (err, s) := call s
  if err = enoent then call (mkparent os path s) else (err, s)

/-! ### What is laid down -/

/-- `conf`, `post`, the path list, `tar.failed`, and the system. -/
structure Laid (σ : Type*) where
  conf : Text
  post : Text
  list : Text
  listCap : ℕ
  failed : ℕ
  os : σ

/-- `cap` doubled until it is enough. -/
def grown : ℕ → ℕ → ℕ → ℕ
  | 0, cap, _ => cap
  | fuel + 1, cap, need => if cap < need then grown fuel (cap * 2) need else cap

/-- `list_add`. -/
def listAdd (os : Os σ) (mark p tail : Text) (o : Laid σ) : Laid σ :=
  let need := o.list.length + (mark.length + p.length + tail.length + 1)
  let list := o.list ++ mark ++ p ++ tail ++ [newline]
  if o.listCap < need then
    let cap := grown need (if o.listCap ≠ 0 then o.listCap * 2 else 16384) need
    let (got, s) := os.alloc cap o.os
    if got then { o with os := s, listCap := cap, list } else { o with os := s, failed := o.failed + 1 }
  else { o with list }

/-- A text's bytes before a 0. -/
def cstr (bytes : List UInt8) : Text := bytes.takeWhile (· ≠ 0)

/-- `is_conf`. -/
def isConf (conf p : Text) : Bool :=
  (pieces [newline] (cstr conf)).any fun l => l.takeWhile (· ≠ space) = p

/-- `skipped`. -/
def skipped : List Text := [text "/usr/share/doc", text "/usr/share/man", text "/usr/share/info",
  text "/usr/share/locale", text "/usr/share/lintian"]

/-- `excluded`. -/
def excluded (p : Text) : Bool :=
  skipped.any fun s => s.isPrefixOf p && (p.length = s.length || p[s.length]? = some slash)

/-- `octal`'s loop. -/
def octalOn : ℕ → List UInt8 → ℕ
  | v, [] => v
  | v, c :: cs =>
    if c = space ∧ v = 0 then octalOn v cs
    else if c < 48 ∨ 55 < c then v
    else octalOn (v * 8 + (c.toNat - 48)) cs

/-- `octal`, of `n` bytes of a header. -/
def octal (hdr : List UInt8) (at_ n : ℕ) : ℕ := octalOn 0 ((hdr.drop at_).take n)

/-- What is below the root of a name: no `.` in front of a slash or of the end, and no slash. -/
def beneath (name : Text) : Text :=
  let name := if name.head? = some dot ∧ (name.tail.head? = some slash ∨ name.tail = []) then name.tail
    else name
  if name.head? = some slash then name.tail else name

/-- `absolute`, as `strcpy` leaves it. -/
def rooted (name : Text) : Text := slash :: beneath name

/-- `absolute`. -/
def absolute (name : Text) : Text := slash :: (beneath name).rdropWhile (· = slash)

/-! ### Headers -/

/-- `CONTROL` and `DATA`. -/
inductive Mode
  | control
  | data
  deriving DecidableEq

/-- A header, with the long name and the long link that apply to it. -/
structure Heading where
  mode : Mode
  hdr : List UInt8
  longname : Option Text
  longlink : Option Text

/-- A header of zeros: the end. -/
def zeros (hdr : List UInt8) : Bool := hdr.all (· = 0)

def typeOf (hdr : List UInt8) : UInt8 := hdr.getD 156 0
def sizeOf (hdr : List UInt8) : ℕ := octal hdr 124 12
def padOf (size : ℕ) : ℕ := (512 - size % 512) % 512

/-- The types of an entry with the next one's name, or its link. -/
def longNameType : UInt8 := 76
def longLinkType : UInt8 := 75

/-- `x` and `g`. -/
def pax (type : UInt8) : Bool := type = 120 || type = 103

/-- `name`. -/
def Heading.name (h : Heading) : Text :=
  match h.longname with
  | some name => name
  | none =>
    let first := if (h.hdr.drop 257).take 5 = text "ustar" ∧ h.hdr.getD 345 0 ≠ 0 then
      cstr ((h.hdr.drop 345).take 155) ++ [slash] else []
    first ++ cstr (h.hdr.take 100)

/-- `link`. -/
def Heading.link (h : Heading) : Text :=
  match h.longlink with
  | some link => link
  | none => cstr ((h.hdr.drop 157).take 100)

/-- `path`. -/
def Heading.path (h : Heading) : Text := absolute h.name

/-- Whether a file, a folder or a link is laid down for it, if it is one. -/
def Heading.lays (h : Heading) : Bool :=
  h.mode = .data && h.path ≠ [slash] && !excluded h.path && h.path.length < pathRoom

/-! ### Laying down -/

/-- `case '5'`. -/
def layFolder (os : Os σ) (path : Text) (o : Laid σ) : Laid σ :=
  let (err, s) := withParent os path (os.mkdir path) o.os
  if err = 0 then listAdd os [] path [slash] { o with os := s } else { o with os := s }

/-- `case '2'`, and `case '1'` once its target is absolute. -/
def layLink (os : Os σ) (target path : Text) (o : Laid σ) : Laid σ :=
  let s := if (os.lstat path o.os).any (!isFolder ·) then os.unlink path o.os else o.os
  let (err, s) := withParent os path (os.symlink target path) s
  if err = 0 then listAdd os [] path [] { o with os := s }
  else if err ≠ eexist then { o with os := s, failed := o.failed + 1 }
  else { o with os := s }

/-- `case '0'`: the file that is open, none for a conffile that stays or one that cannot be opened, or
has no data. `first` is whether one was. -/
def layFile (os : Os σ) (h : Heading) (o : Laid σ) : ℤ × Bool × Laid σ :=
  let path := h.path
  let c := isConf o.conf path
  let mark := if c then [42] else []
  if c ∧ os.present path o.os then (-1, false, listAdd os mark path [] o)
  else
    let s := if (os.lstat path o.os).any isLink then os.unlink path o.os else o.os
    let (err, s) := withParent os path (os.create path (octal h.hdr 100 8 % 2 ^ 12)) s
    if err < 0 then (-1, false, { o with os := s, failed := o.failed + 1 })
    else if sizeOf h.hdr = 0 then (-1, true, listAdd os mark path [] { o with os := os.close err s })
    else (err, true, listAdd os mark path [] { o with os := s })

/-- `scripts`. -/
def scripts : List Text := [text "preinst", text "postinst", text "prerm", text "postrm",
  text "triggers", text "config", text "templates"]

/-- `script_path`. -/
def scriptPath (pkg script : Text) : Text := text "/var/lib/tuxpac/" ++ pkg ++ [dot] ++ script

/-- The script of the package `pkg` that a path of its control archive is, if there is room for it. -/
def scriptOf (pkg path : Text) : Option Text :=
  if pathRoom < pkg.length + 32 then none else scripts.find? (· = path.tail)

/-- A script's file: what it is open as, negative if it cannot be or has no data. -/
def layScript (os : Os σ) (pkg script : Text) (size : ℕ) (o : Laid σ) : ℤ × ℤ × Laid σ :=
  let s := mkdirs os (text "/var/lib/tuxpac") o.os
  let (err, s) := os.create (scriptPath pkg script) 0o755 s
  if err < 0 then (err, err, { o with os := s })
  else if size = 0 then (err, -1, { o with os := os.close err s })
  else (err, err, { o with os := s })

/-! ### `tar_sink` -/

/-- `K_SKIP` and the rest. -/
inductive Kind
  | skip
  | file
  | name
  | link
  | conf
  | post
  | script
  deriving DecidableEq

/-- `tar`, with as much of `hdr` as there is, `path`, `elves`, and what is laid down. `headings` are the
headers that names were built for. -/
structure Tar (σ : Type*) where
  hdr : List UInt8
  left : ℕ
  pad : ℕ
  kind : Kind
  fd : ℤ
  first : Bool
  longlen : ℕ
  longname : List UInt8
  longlink : List UInt8
  hasName : Bool
  hasLink : Bool
  path : Text
  elves : Text
  laid : Laid σ
  headings : List Heading

/-- A `tar` as `untar` starts with. -/
def fresh (o : Laid σ) : Tar σ :=
  ⟨[], 0, 0, .skip, 0, false, 0, [], [], false, false, [], [], o, []⟩

/-- The long name and the long link that apply to the next entry. -/
def Tar.nameKept (t : Tar σ) : Option Text := if t.hasName then some (cstr t.longname) else none
def Tar.linkKept (t : Tar σ) : Option Text := if t.hasLink then some (cstr t.longlink) else none

/-- A header with the names that apply to it. -/
def Tar.heading (mode : Mode) (t : Tar σ) (hdr : List UInt8) : Heading := ⟨mode, hdr, t.nameKept, t.linkKept⟩

/-- The data of an entry is ahead. -/
def Tar.measured (t : Tar σ) (hdr : List UInt8) : Tar σ :=
  { t with kind := .skip, left := sizeOf hdr, pad := padOf (sizeOf hdr) }

/-- The names that apply to a header are taken. -/
def Tar.headed (mode : Mode) (t : Tar σ) (hdr : List UInt8) : Tar σ :=
  let h := t.heading mode hdr
  { t with hasName := false, hasLink := false, path := h.path, headings := t.headings ++ [h] }

/-- What `tar_entry` does with an entry that has a name, and whose data has been measured. -/
def enter (os : Os σ) (pkg : Text) (h : Heading) (t : Tar σ) : Tar σ :=
  let type := typeOf h.hdr
  match h.mode with
  | .control =>
    if h.path = text "/conffiles" then { t with kind := .conf }
    else
      match scriptOf pkg h.path with
      | none => t
      | some script =>
        let (err, fd, laid) := layScript os pkg script (sizeOf h.hdr) t.laid
        let kind : Kind := if err < 0 then .skip else if script = text "postinst" then .post else .script
        { t with kind, fd, laid }
  | .data =>
    if h.path = [slash] ∨ excluded h.path then t
    else if pathRoom ≤ h.path.length then { t with laid := { t.laid with failed := t.laid.failed + 1 } }
    else if type = 53 then { t with laid := layFolder os h.path t.laid }
    else if type = 49 then { t with laid := layLink os (absolute h.link) h.path t.laid }
    else if type = 50 then { t with laid := layLink os h.link h.path t.laid }
    else if type = 48 ∨ type = 0 ∨ type = 55 then
      let (fd, first, laid) := layFile os h t.laid
      { t with kind := .file, fd, first := first || t.first, laid }
    else t

/-- `tar_entry`. -/
def tarEntry (os : Os σ) (mode : Mode) (pkg : Text) (t : Tar σ) (hdr : List UInt8) : Tar σ :=
  let type := typeOf hdr
  if zeros hdr then { t with kind := .skip, left := 0, pad := 0 }
  else
    let t := t.measured hdr
    if type = longNameType then { t with kind := .name, longlen := 0 }
    else if type = longLinkType then { t with kind := .link, longlen := 0 }
    else if pax type then t
    else enter os pkg (t.heading mode hdr) (t.headed mode hdr)

/-- `add_line`. -/
def addLine (lines : Text) (cap : ℕ) (what : Text) : Text :=
  if (pieces [newline] lines).any (· = what) then lines
  else if lines.length + what.length + 2 ≤ cap then lines ++ what ++ [newline] else lines

/-- `tar_sink`'s branch of an entry's data. -/
def tarData (os : Os σ) (t : Tar σ) (d : List UInt8) : Tar σ :=
  let o := t.laid
  let t := { t with left := t.left - d.length }
  match t.kind with
  | .file =>
    if t.fd < 0 then t
    else
      let elves := if t.first ∧ 4 ≤ d.length ∧ d.take 4 = 127 :: text "ELF" then
        addLine t.elves elvesRoom t.path else t.elves
      let t := { t with elves, first := false }
      let (n, s) := os.write t.fd d o.os
      if n ≠ d.length then
        { t with fd := -1, laid := { o with os := os.close t.fd s, failed := o.failed + 1 } }
      else if t.left = 0 then { t with fd := -1, laid := { o with os := os.close t.fd s } }
      else { t with laid := { o with os := s } }
  | .name =>
    let longname := (t.longname.take t.longlen ++ d).take (longRoom - 1)
    { t with longname, longlen := longname.length, hasName := true }
  | .link =>
    let longlink := (t.longlink.take t.longlen ++ d).take (longRoom - 1)
    { t with longlink, longlen := longlink.length, hasLink := true }
  | .conf => { t with laid := { o with conf := o.conf ++ d.take (confRoom - 1 - o.conf.length) } }
  | .post | .script =>
    let o := if t.kind = .post then { o with post := o.post ++ d.take (postRoom - 1 - o.post.length) } else o
    if t.fd < 0 then { t with laid := o }
    else
      let (n, s) := os.write t.fd d o.os
      let o := { o with os := s, failed := if n ≠ d.length then o.failed + 1 else o.failed }
      if t.left = 0 then { t with fd := -1, laid := { o with os := os.close t.fd o.os } }
      else { t with laid := o }
  | .skip => t

/-- A turn of `tar_sink`'s loop. -/
def tarTurn (os : Os σ) (mode : Mode) (pkg : Text) (t : Tar σ) (d : List UInt8) : Tar σ × ℕ :=
  if 0 < t.left then
    let k := min t.left d.length
    (tarData os t (d.take k), k)
  else if 0 < t.pad then
    let k := min t.pad d.length
    ({ t with pad := t.pad - k }, k)
  else
    let k := min (512 - t.hdr.length) d.length
    let hdr := t.hdr ++ d.take k
    (if hdr.length = 512 then tarEntry os mode pkg { t with hdr := [] } hdr else { t with hdr }, k)

/-- `tar_sink`. -/
def tarSink (os : Os σ) (mode : Mode) (pkg : Text) : Tar σ → List UInt8 → Tar σ :=
  feed (tarTurn os mode pkg)

end BaxOS.Tuxpac
