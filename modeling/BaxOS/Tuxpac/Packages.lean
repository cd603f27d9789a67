import Mathlib.Tactic

/-!
# Packages

What `tuxpac` reads of a package: a line of the index, a line of the database of what is installed,
and the texts in them, names between commas and bars. Lines are cut into their fields already.
-/

namespace BaxOS.Tuxpac

/-- A text, as its bytes before the 0. -/
abbrev Text := List UInt8

/-- A text written out. -/
def text (s : String) : Text := s.toList.map fun c => UInt8.ofNat c.toNat

/-- `VER`. -/
def verRoom : ℕ := 40

def comma : UInt8 := 44
def dash : UInt8 := 45
def colon : UInt8 := 58
def bar : UInt8 := 124
def tilde : UInt8 := 126

/-- The pieces a text is gone through in, up to each of `stops`; the last is one if it is not
empty. -/
def pieces (stops : List UInt8) (s : Text) : List Text :=
  let ps := s.splitOnP (· ∈ stops)
  if ps.getLast? = some [] then ps.dropLast else ps

/-- `listed`: whether a name is between the commas of a list. -/
def listed (list name : Text) : Bool := (pieces [comma] list).any (· = name)

/-! ### Versions -/

def digit (c : UInt8) : Bool := 48 ≤ c && c ≤ 57

def letter (c : UInt8) : Bool := 97 ≤ c && c ≤ 122 || 65 ≤ c && c ≤ 90

/-- `order`, of a byte or of a text's end; a byte from 128 on is negative. -/
def order : Option UInt8 → ℤ
  | none => 0
  | some c =>
    if digit c then 0
    else if letter c then c.toNat
    else if c = tilde then -1
    else if 128 ≤ c then c.toNat
    else c.toNat + 256

/-- Whether a text goes on, and not with a digit. -/
def other (s : Text) : Bool := s.head?.any fun c => !digit c

/-- `verrevcmp`'s first loop: up to a digit in both, or how they differ before. -/
def nondigits : Text → Text → ℤ ⊕ Text × Text
  | a, b =>
    if other a || other b then
      if order a.head? ≠ order b.head? then .inl (order a.head? - order b.head?)
      else
        match a, b with
        | _ :: a, _ :: b => nondigits a b
        | a, b => .inr (a, b)
    else .inr (a, b)
  termination_by a => a.length

/-- Its last loop: the digits there are in both, and the first difference of them. -/
def digits (first : ℤ) : Text → Text → ℤ × Text × Text
  | c :: a, d :: b =>
    if digit c && digit d then
      digits (if first ≠ 0 then first else c.toNat - d.toNat) a b
    else (first, c :: a, d :: b)
  | a, b => (first, a, b)

/-- `verrevcmp`. Each turn takes a byte of one of the two, or is the last. -/
def verrevcmp : ℕ → Text → Text → ℤ
  | 0, _, _ => 0
  | n + 1, a, b =>
    if a = [] ∧ b = [] then 0
    else
      match nondigits a b with
      | .inl r => r
      | .inr (a, b) =>
        match digits 0 (a.dropWhile (· = 48)) (b.dropWhile (· = 48)) with
        | (first, a, b) =>
          if a.head?.any digit then 1
          else if b.head?.any digit then -1
          else if first ≠ 0 then first
          else verrevcmp n a b

/-- `number`, in 32 bits. -/
def number (s : Text) : ℕ :=
  (s.takeWhile digit).foldl (fun v c => (v * 10 + (c.toNat - 48)) % 2 ^ 32) 0

/-- A version's epoch, what is upstream's and Debian's revision. -/
def parts (v : Text) : ℕ × Text × Text :=
  let (epoch, v) := if colon ∈ v then (number v, (v.dropWhile (· ≠ colon)).tail) else (0, v)
  if dash ∈ v then
    (epoch, (((v.reverse.dropWhile (· ≠ dash)).tail).reverse).take (verRoom - 1),
      (v.reverse.takeWhile (· ≠ dash)).reverse)
  else (epoch, v.take (verRoom - 1), [])

/-- `vcmp`: above 0 if the first is newer. -/
def vcmp (a b : Text) : ℤ :=
  let (ea, ua, ra) := parts a
  let (eb, ub, rb) := parts b
  if ea ≠ eb then if eb < ea then 1 else -1
  else
    let r := verrevcmp (ua.length + ub.length + 1) ua ub
    if r ≠ 0 then r else verrevcmp (ra.length + rb.length + 1) ra rb

/-! ### The index and the database -/

/-- A line of the index. -/
structure Line where
  name : Text
  ver : Text
  deps : Text
  prov : Text
  deriving DecidableEq

/-- `struct inst`, without its mark. -/
structure Inst where
  name : Text
  ver : Text
  deps : Text
  prov : Text
  /-- `'m'`, asked for, rather than `'a'`, pulled in. -/
  asked : Bool
  gone : Bool
  deriving DecidableEq

/-- The groups of a `Depends`, each of alternatives. -/
def groups (deps : Text) : List Text := (pieces [comma] deps).filter (· ≠ [])

/-- The alternatives of a group. -/
def alternatives (group : Text) : List Text := pieces [bar] group

/-- `answers`: whether an installed package is what an alternative names. -/
def answers (p : Inst) (a : Text) : Bool := !p.gone && (p.name = a || listed p.prov a)

/-- `find_inst`. -/
def findInst (db : List Inst) (name : Text) : Option ℕ :=
  db.findIdx? fun p => !p.gone && p.name = name

/-- `implied`: what a package needs that Debian does not say. -/
def implied : List (Text × Text) := [(text "curl", text "ca-certificates")]

end BaxOS.Tuxpac
