import BaxOS.Fs.Disk

/-!
# The index: `find`, `index_add`, `index_remove`

The index is a hash table of records, forty-two to a sector. A name's search starts at the sector
its hash says and goes on sector by sector, round the index, until a record never used.
-/

namespace BaxOS.Fs
open ByteStore

/-! ### Hashes -/

/-- `lower`. -/
def lower (c : UInt8) : UInt8 := if 0x41 ≤ c ∧ c ≤ 0x5A then c + 0x20 else c

/-- `hash_of`: FNV-1a of a name, case folded, never zero. -/
def hashOf (name : Name) : ℕ :=
  let h := name.foldl (fun h c => u32 ((h ^^^ (lower c).toNat) * 0x01000193)) 0x811C9DC5
  if h ≠ 0 then h else 1

/-- A name up to the slash before its last part: the folder it is in, empty for the root. -/
def parentOf (name : Name) : Name :=
  let n := if name.getLast? = some slash then name.dropLast else name
  (n.reverse.dropWhile (· ≠ slash)).reverse

/-- `parent_hash`. -/
def parentHash (name : Name) : ℕ := hashOf (parentOf name)

/-! ### Searching -/

/-- The index sectors a hash's search goes through, in order. -/
def probe (h : Header) (hash : ℕ) : List ℕ :=
  (List.range h.indexSectors).map fun i => u32 (h.indexLba + u32 (hash + i) % h.indexSectors)

/-- `probe` calling its visitor on each sector until it says to stop. -/
def visitAll {σ : Type} (visit : ℕ → σ → σ × Bool) : List ℕ → σ → σ
  | [], x => x
  | lba :: rest, x =>
    match visit lba x with
    | (y, true) => y
    | (y, false) => visitAll visit rest y

/-- The records of the index sector at `lba`. -/
def sectorRecords (d : Store) (lba : ℕ) : List Record :=
  (List.range records).map fun i => recordAt d (sectorSize * lba + 12 * i)

/-- `struct search`: the entries whose hash matched, and whether a record never used was met. -/
structure Search where
  candidates : List ℕ
  ended : Bool

/-- The records of one sector, as `gather` goes through them. -/
def gatherRecords (hash : ℕ) : List Record → Search → Search
  | [], x => x
  | r :: rest, x =>
    if r.entry = 0 then { x with ended := true }
    else if r.entry ≠ gone ∧ r.hash = hash ∧ x.candidates.length < records then
      gatherRecords hash rest { x with candidates := x.candidates ++ [r.entry - 1] }
    else gatherRecords hash rest x

/-- `gather`. -/
def gather (d : Store) (hash lba : ℕ) (x : Search) : Search × Bool :=
  let y := gatherRecords hash (sectorRecords d lba) x
  (y, y.ended || !y.candidates.isEmpty)

/-- Entry `e`, if it is the one named `name`. -/
def slotNamed (s : State) (name : Name) (e : ℕ) : Option Slot :=
  match readEntry s e with
  | some f => if f.name = name then some ⟨e, f.start, f.size⟩ else none
  | none => none

/-- The search that carries on past other names, record by record. -/
def searchOn (s : State) (name : Name) (hash : ℕ) : List ℕ → Option Slot
  | [] => none
  | i :: rest =>
    let lba := u32 (s.head.indexLba + (hash + i / records) % s.head.indexSectors)
    let r := recordAt s.disk (sectorSize * lba + 12 * (i % records))
    if r.entry = 0 then none
    else if r.entry ≠ gone ∧ r.hash = hash then
      match slotNamed s name (r.entry - 1) with
      | some f => some f
      | none => searchOn s name hash rest
    else searchOn s name hash rest

/-- `find`: the entry named `name`. -/
def find (s : State) (name : Name) : Option Slot :=
  if name = [] then none
  else
    let hash := hashOf name
    let x := visitAll (gather s.disk hash) (probe s.head hash) ⟨[], false⟩
    match x.candidates.findSome? (slotNamed s name) with
    | some f => some f
    | none =>
      if x.ended ∨ x.candidates = [] then none
      else searchOn s name hash (List.range (records * s.head.indexSectors))

/-! ### Changing a record -/

/-- `struct placing`: the record to add, or the entry whose record goes, plus one. -/
structure Placing where
  record : Record
  remove : ℕ

/-- The record of a sector that `place` changes: `some (some i)` for the `i`-th, `some none` where
it stops without one, `none` where the search goes on. -/
def placeRecords (p : Placing) : List Record → ℕ → Option (Option ℕ)
  | [], _ => none
  | r :: rest, i =>
    if p.remove ≠ 0 ∧ r.entry = 0 then some none
    else if (if p.remove ≠ 0 then r.entry = p.remove else r.entry = 0 ∨ r.entry = gone) then
      some (some i)
    else placeRecords p rest (i + 1)

/-- `place`. -/
def place (p : Placing) (lba : ℕ) (s : State) : State × Bool :=
  match placeRecords p (sectorRecords s.disk lba) 0 with
  | none => (s, false)
  | some none => (s, true)
  | some (some i) =>
    let taken := if p.remove = 0 ∧ (recordAt s.disk (sectorSize * lba + 12 * i)).entry = 0
      then u32 (s.head.indexTaken + 1) else s.head.indexTaken
    let s := { s with head.indexTaken := taken }
    (putRecord s lba i (if p.remove ≠ 0 then ⟨0, 0, gone⟩ else p.record), true)

/-- `index_remove`. -/
def indexRemove (s : State) (name : Name) (entry : ℕ) : State :=
  visitAll (place ⟨⟨hashOf name, 0, 0⟩, u32 (entry + 1)⟩) (probe s.head (hashOf name)) s

end BaxOS.Fs
