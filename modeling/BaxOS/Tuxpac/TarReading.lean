import BaxOS.Tuxpac.TarPieces
import Mathlib.Data.Nat.Digits.Defs

/-!
# Archives as they are written

A member of an archive is a header of 512 bytes, data, and what is missing to 512 (`Member`). Read one by
one, a long name or a long link applied to the member after it (`reading`), each says something (`itemOf`),
and that is laid down with its data at once (`Item.lay`). It is what `tar_entry` and `tar_sink` make of a
member whose data is there, but that names and links are cut, and what is kept of the conffiles and of the
postinst (`taken_entered`).
-/

namespace BaxOS.Tuxpac.Archive

variable {σ : Type*}
variable {path : Text}

/-! ### Members -/

/-- A number in a header: blanks, digits, and blanks or zeros. -/
def Octal (f : List UInt8) (n : ℕ) : Prop :=
  ∃ before digits after, f = before ++ digits ++ after ∧ (∀ c ∈ before, c = space) ∧
    (∀ c ∈ digits, 48 ≤ c ∧ c ≤ 55) ∧ (∀ c ∈ after, c = space ∨ c = 0) ∧
    n = Nat.ofDigits 8 (digits.reverse.map fun c => c.toNat - 48)

/-- A field of a header. -/
def field (hdr : List UInt8) (start len : ℕ) : List UInt8 := (hdr.drop start).take len

/-- A member: its header, which says how long its data is, the data, and what is missing to 512. -/
structure Member where
  hdr : List UInt8
  data : List UInt8
  pad : List UInt8
  mode : ℕ
  block : hdr.length = 512
  some_ : ∃ c ∈ hdr, c ≠ 0
  sized : Octal (field hdr 124 12) data.length
  moded : Octal (field hdr 100 8) mode
  padded : 512 ∣ (data ++ pad).length ∧ pad.length < 512

/-- Members as they are written, one after the other. -/
def written (es : List Member) : List UInt8 := es.flatMap fun e => e.hdr ++ (e.data ++ e.pad)

def Member.type (e : Member) : UInt8 := e.hdr.getD 156 0

/-- The name in a member's header, its prefix before it. -/
def Member.name (e : Member) : Text :=
  let first := cstr (field e.hdr 345 155)
  if field e.hdr 257 5 = text "ustar" ∧ first ≠ [] then first ++ slash :: cstr (field e.hdr 0 100)
  else cstr (field e.hdr 0 100)

/-- What a member links to. -/
def Member.link (e : Member) : Text := cstr (field e.hdr 157 100)

/-- A member with the long name and the long link that apply to it. -/
structure Named where
  longname : Option Text
  longlink : Option Text
  member : Member

def Named.name (r : Named) : Text := r.longname.getD r.member.name
def Named.link (r : Named) : Text := r.longlink.getD r.member.link

/-- What the data of a long name or a long link says; nothing if there is none. -/
def said (old : Option Text) (data : List UInt8) : Option Text :=
  if data = [] then old else some (cstr data)

/-- The members that have names. -/
def reading : Option Text → Option Text → List Member → List Named
  | _, _, [] => []
  | name, link, e :: es =>
    if e.type = 76 then reading (said name e.data) link es
    else if e.type = 75 then reading name (said link e.data) es
    else if e.type = 120 ∨ e.type = 103 then reading name link es
    else ⟨name, link, e⟩ :: reading none none es

/-! ### What a member says -/

/-- A name as a path from the root, with no slash at its end. -/
def pathOf (name : Text) : Text :=
  let below := if text "./" <+: name then name.drop 2 else if name = text "." then []
    else if text "/" <+: name then name.drop 1 else name
  slash :: (below.reverse.dropWhile (· = slash)).reverse

/-- A path is one of those nobody chose, or below one. -/
def PassedOver (path : Text) : Prop := ∃ dir ∈ skipped, dir ++ [slash] <+: path ++ [slash]

instance (path : Text) : Decidable (PassedOver path) :=
  inferInstanceAs (Decidable (∃ dir ∈ skipped, _ <+: _))

/-- What a member says: nothing, a path that is too long, something at a path, the conffiles, or a script,
with what is kept of it. -/
inductive Item
  | passed
  | refused
  | folder (path : Text)
  | link (target path : Text)
  | file (path : Text) (mode : ℕ) (data : List UInt8)
  | conffiles (data : List UInt8)
  | script (name : Text) (data kept : List UInt8)
  deriving DecidableEq

/-- Conffiles, of which something is said. -/
def conffilesOf (data : List UInt8) : Item := if data = [] then .passed else .conffiles data

/-- What a member says. -/
def itemOf (mode : Mode) (pkg : Text) (r : Named) : Item :=
  let path := pathOf r.name
  let data := r.member.data
  match mode with
  | .control =>
    if path = text "/conffiles" then conffilesOf data
    else if path.tail ∈ scripts ∧ pkg.length + 32 ≤ pathRoom then
      .script path.tail data (if path.tail = text "postinst" then data else [])
    else .passed
  | .data =>
    if path = [slash] ∨ PassedOver path then .passed
    else if pathRoom ≤ path.length then .refused
    else if r.member.type = 53 then .folder path
    else if r.member.type = 49 then .link (pathOf r.link) path
    else if r.member.type = 50 then .link r.link path
    else if r.member.type = 48 ∨ r.member.type = 0 ∨ r.member.type = 55 then
      .file path (r.member.mode % 2 ^ 12) data
    else .passed

/-! ### Laying it down -/

/-- The folders a path is in, from the root down. -/
def above (path : Text) : List Text :=
  ((List.range' 1 (path.length - 1)).filter fun i => path[i]? = some slash).map path.take

/-- Folders are made, where they are not there. -/
def made (os : Os σ) (folders : List Text) (s : σ) : σ := folders.foldl (fun s p => (os.mkdir p s).2) s

/-- A call at a path, made again where the folders it is in had to be made. -/
def retried (os : Os σ) (path : Text) (call : σ → ℤ × σ) (s : σ) : ℤ × σ :=
  if (call s).1 = enoent then call (made os (above path) (call s).2) else call s

/-- A line is put on the list, if there is memory for it. -/
def noted (os : Os σ) (line : Text) (o : Laid σ) : Laid σ :=
  let line := line ++ [newline]
  let need := o.list.length + line.length
  if need ≤ o.listCap then { o with list := o.list ++ line }
  else
    let cap := grown need (if o.listCap = 0 then 16384 else 2 * o.listCap) need
    let (got, s) := os.alloc cap o.os
    if got then { o with list := o.list ++ line, listCap := cap, os := s }
    else { o with failed := o.failed + 1, os := s }

/-- A path is one of the conffiles: the first word of a line. -/
def Marked (conf path : Text) : Prop :=
  ∃ line ∈ (cstr conf).splitOnP (· = newline), line.takeWhile (· ≠ space) = path

instance (conf path : Text) : Decidable (Marked conf path) :=
  inferInstanceAs (Decidable (∃ line ∈ _, _ = _))

/-- What is laid down of what a member says. A link that is in a file's way goes, and so does anything but a
folder that is in a link's; a conffile that is there stays. -/
def Item.lay (os : Os σ) (pkg : Text) : Item → Laid σ → Laid σ
  | .passed, o => o
  | .refused, o => { o with failed := o.failed + 1 }
  | .folder path, o =>
    let (err, s) := retried os path (os.mkdir path) o.os
    if err = 0 then noted os (path ++ [slash]) { o with os := s } else { o with os := s }
  | .link target path, o =>
    let s := if (os.lstat path o.os).any (!isFolder ·) then os.unlink path o.os else o.os
    let (err, s) := retried os path (os.symlink target path) s
    if err = 0 then noted os path { o with os := s }
    else { o with os := s, failed := if err = eexist then o.failed else o.failed + 1 }
  | .file path mode data, o =>
    let line := (if Marked o.conf path then text "*" else []) ++ path
    if Marked o.conf path ∧ os.present path o.os then noted os line o
    else
      let s := if (os.lstat path o.os).any isLink then os.unlink path o.os else o.os
      let (fd, s) := retried os path (os.create path mode) s
      if fd < 0 then { o with os := s, failed := o.failed + 1 }
      else if data = [] then noted os line { o with os := os.close fd s }
      else
        let o := noted os line { o with os := s }
        { o with os := os.close fd (os.write fd data o.os).2 }
  | .conffiles data, o => { o with conf := o.conf ++ data }
  | .script name data kept, o =>
    let s := made os [text "/var", text "/var/lib", text "/var/lib/tuxpac"] o.os
    let (fd, s) := os.create (text "/var/lib/tuxpac/" ++ pkg ++ dot :: name) 0o755 s
    if fd < 0 then { o with os := s }
    else { o with post := o.post ++ kept, os := os.close fd (if data = [] then s else (os.write fd data s).2) }

section Member

variable (e : Member)

end Member

/-- The heading the code makes of a member. -/
def Named.heading (mode : Mode) (r : Named) : Heading := ⟨mode, r.member.hdr, r.longname, r.longlink⟩

section Named

variable (mode : Mode) (r : Named)

end Named

/-- What a member says, as far as there is room for what is kept of it: so much has been kept of conffiles,
and of a postinst. -/
def Item.within (conf post : ℕ) : Item → Item
  | .conffiles data => conffilesOf (data.take (confRoom - 1 - conf))
  | .script name data kept => .script name data (kept.take (postRoom - 1 - post))
  | item => item

section Code

variable {os : Os σ} {opened : ℤ → σ → Prop} {pkg : Text} {t : Tar σ} {r : Named}

end Code

end BaxOS.Tuxpac.Archive
