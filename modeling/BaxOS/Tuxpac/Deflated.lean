import BaxOS.Lib.BitStream
import BaxOS.Lib.Lz77
import BaxOS.Tuxpac.Inflate
import BaxOS.Tuxpac.Huffman

/-!
# What gzip data is

A member is a header, with fields it says are there, and blocks packed into bytes as bits. A block is bytes
as they are, or letters and back references in codes: the fixed ones, or its own, whose lengths come first,
in runs that are in a code themselves.
-/

namespace BaxOS.Unpack.Deflate
open BitStream Lz77 Gzip

/-! ### Letters and back references -/

/-- A letter, or a back reference by the symbols for its length and its distance and the numbers that are
added to what those stand for. -/
inductive Item
  | lit (b : UInt8)
  | ref (len extra dist more : ℕ)

namespace Item

/-- What it stands for. -/
def token : Item → Token UInt8
  | lit b => .lit b
  | ref len extra dist more => .ref (lbase.getD len 0 + extra) (dbase.getD dist 0 + more)

/-- Its bits, in two codes of such lengths. -/
def bits (lits dists : List ℕ) : Item → List ℕ
  | lit b => codeWord lits b.toNat
  | ref len extra dist more =>
    codeWord lits (257 + len) ++ lsb (lext.getD len 0) extra ++
      (codeWord dists dist ++ lsb (dext.getD dist 0) more)

/-- Its symbols have codes, and its numbers are no longer than they may be. -/
def Fine (lits dists : List ℕ) : Item → Prop
  | lit b => 0 < lengthOf lits b.toNat
  | ref len extra dist more =>
    (len < 29 ∧ extra < 2 ^ lext.getD len 0 ∧ 0 < lengthOf lits (257 + len)) ∧
      dist < 30 ∧ more < 2 ^ dext.getD dist 0 ∧ 0 < lengthOf dists dist

end Item

/-- Items, and the symbol that ends them. -/
def itemsBits (lits dists : List ℕ) (items : List Item) : List ℕ :=
  items.flatMap (Item.bits lits dists) ++ codeWord lits 256

/-- Items that can be in a block, after what was written before it: no distance is more than the window's
32768, or goes back past the beginning. -/
structure ItemsFine (lits dists : List ℕ) (h : List UInt8) (items : List Item) : Prop where
  fine : ∀ i ∈ items, i.Fine lits dists
  stop : 0 < lengthOf lits 256
  within : Within 32768 h (items.map Item.token)

/-! ### Codes and their lengths -/

/-- How much of all the words of the longest length begin with a code. -/
def kraft (lengths : List ℕ) : ℕ := ∑ n ∈ Finset.Ico 1 16, lengths.count n * 2 ^ (15 - n)

/-- The lengths of a code that no word is left over by. -/
def Full (lengths : List ℕ) : Prop := kraft lengths = 2 ^ 15

/-- The lengths of a code that may be used: a full one, or one of a single symbol or none. -/
def Usable (lengths : List ℕ) : Prop := Full lengths ∨ lengths.length ≤ lengths.count 0 + 1

/-- Lengths given one by one, or the last one again, or none a number of times. -/
inductive Run
  | len (l : ℕ)
  | again (n : ℕ)
  | zeros (n : ℕ)
  | manyZeros (n : ℕ)

namespace Run

/-- The lengths once a run has been added to them. -/
def apply (ls : List ℕ) : Run → List ℕ
  | len l => ls ++ [l]
  | again n => ls ++ List.replicate (3 + n) (ls.getLastD 0)
  | zeros n => ls ++ List.replicate (3 + n) 0
  | manyZeros n => ls ++ List.replicate (11 + n) 0

/-- Its symbol. -/
def symbol : Run → ℕ
  | len l => l
  | again _ => 16
  | zeros _ => 17
  | manyZeros _ => 18

/-- Its bits, in a code of such lengths. -/
def bits (cl : List ℕ) : Run → List ℕ
  | len l => codeWord cl l
  | again n => codeWord cl 16 ++ lsb 2 n
  | zeros n => codeWord cl 17 ++ lsb 3 n
  | manyZeros n => codeWord cl 18 ++ lsb 7 n

/-- A run that can come after some lengths. -/
def Fine (cl ls : List ℕ) (r : Run) : Prop :=
  0 < lengthOf cl r.symbol ∧
    match r with
    | len l => l < 16
    | again n => n < 4 ∧ ls ≠ []
    | zeros n => n < 8
    | manyZeros n => n < 128

end Run

/-- Runs that can come one after another. -/
def RunsFine (cl : List ℕ) : List ℕ → List Run → Prop
  | _, [] => True
  | ls, r :: rs => r.Fine cl ls ∧ RunsFine cl (r.apply ls) rs

/-- The lengths of a block's own codes: how they come in the code of lengths `cl`, of which so many are
given, and what they are. -/
structure Codes where
  cl : List ℕ
  ncode : ℕ
  runs : List Run
  lits : List ℕ
  dists : List ℕ

namespace Codes

/-- Their bits. -/
def bits (c : Codes) : List ℕ :=
  lsb 5 (c.lits.length - 257) ++ (lsb 5 (c.dists.length - 1) ++ (lsb 4 (c.ncode - 4) ++
    ((order.take c.ncode).flatMap (fun o => lsb 3 (c.cl.getD o 0)) ++ c.runs.flatMap (Run.bits c.cl))))

/-- Lengths that a block may begin with. -/
structure Fine (c : Codes) : Prop where
  cl : c.cl.length = 19
  short : ∀ l ∈ c.cl, l < 8
  least : 4 ≤ c.ncode
  most : c.ncode ≤ 19
  given : ∀ o ∈ order.drop c.ncode, c.cl.getD o 0 = 0
  full : Full c.cl
  runs : RunsFine c.cl [] c.runs
  all : c.runs.foldl Run.apply [] = c.lits ++ c.dists
  someLits : 257 ≤ c.lits.length
  manyLits : c.lits.length ≤ 286
  someDists : 1 ≤ c.dists.length
  manyDists : c.dists.length ≤ 30
  lits : Usable c.lits
  dists : Usable c.dists

end Codes

/-! ### Blocks -/

/-- The lengths of the fixed code of symbols. -/
def fixedLits : List ℕ :=
  List.replicate 144 8 ++ List.replicate 112 9 ++ List.replicate 24 7 ++ List.replicate 8 8

/-- The lengths of the fixed code of distances. -/
def fixedDists : List ℕ := List.replicate 30 5

/-- A block. The bits up to the next byte, before bytes as they are, may be anything. -/
inductive Block
  | stored (padding : ℕ) (data : List UInt8)
  | fixed (items : List Item)
  | dynamic (codes : Codes) (items : List Item)

/-- How many bits there are up to the next byte, at bit `p`. -/
def pad (p : ℕ) : ℕ := (8 - p % 8) % 8

namespace Block

/-- What was written once the block has been added to it. -/
def apply (h : List UInt8) : Block → List UInt8
  | stored _ data => h ++ data
  | fixed items => expand h (items.map Item.token)
  | dynamic _ items => expand h (items.map Item.token)

/-- Its bits after the one that says whether it is the last, where that is bit `p`. -/
def bits (p : ℕ) : Block → List ℕ
  | stored padding data =>
    lsb 2 0 ++ (lsb (pad (p + 3)) padding ++
      (lsb 16 data.length ++ (lsb 16 (0xFFFF - data.length) ++ bitsOf data)))
  | fixed items => lsb 2 1 ++ itemsBits fixedLits fixedDists items
  | dynamic codes items => lsb 2 2 ++ (codes.bits ++ itemsBits codes.lits codes.dists items)

/-- A block that can come after what was written before it. -/
def Fine (h : List UInt8) : Block → Prop
  | stored _ data => data.length < 2 ^ 16
  | fixed items => ItemsFine fixedLits fixedDists h items
  | dynamic codes items => codes.Fine ∧ ItemsFine codes.lits codes.dists h items

end Block

/-- The bits of blocks from bit `p` on, each with one that says whether it is the last. -/
def blocksBits : ℕ → List Block → List ℕ
  | _, [] => []
  | p, b :: bs =>
    lsb 1 (if bs = [] then 1 else 0) ++ (b.bits p ++ blocksBits (p + 1 + (b.bits p).length) bs)

/-- Blocks that can come one after another. -/
def BlocksFine : List UInt8 → List Block → Prop
  | _, [] => True
  | h, b :: bs => b.Fine h ∧ BlocksFine (b.apply h) bs

/-! ### The header -/

/-- A header: its flags, the time and the rest that come next, and the fields that come if their flags are
set. -/
structure Header where
  flags : UInt8
  rest : List UInt8
  extra : List UInt8
  name : List UInt8
  comment : List UInt8
  crc : List UInt8

namespace Header

/-- A field that comes if a flag is set. -/
def field (h : Header) (flag : UInt8) (l : List UInt8) : List UInt8 := if h.flags &&& flag ≠ 0 then l else []

/-- The bytes of the fields that come. -/
def fields (h : Header) : List UInt8 :=
  h.field 4 ([UInt8.ofNat h.extra.length, UInt8.ofNat (h.extra.length / 256)] ++ h.extra) ++
    (h.field 8 (h.name ++ [0]) ++ (h.field 16 (h.comment ++ [0]) ++ h.field 2 h.crc))

/-- Its bytes. -/
def bytes (h : Header) : List UInt8 := [0x1F, 0x8B, 8, h.flags] ++ h.rest ++ h.fields

/-- A header whose fields are as long as they may be. -/
structure Fine (h : Header) : Prop where
  rest : h.rest.length = 6
  extra : h.extra.length < 2 ^ 16
  name : 0 ∉ h.name
  comment : 0 ∉ h.comment
  crc : h.crc.length = 2

end Header

/-- The input is a member that stands for the data, with anything after its last block. -/
def Gzipped (input data : List UInt8) : Prop :=
  ∃ (head : Header) (blocks : List Block) (body rest : List UInt8) (padding : List ℕ),
    (head.Fine ∧ blocks ≠ [] ∧ BlocksFine [] blocks) ∧ bitsOf body = blocksBits 0 blocks ++ padding ∧
      input = head.bytes ++ (body ++ rest) ∧ data = blocks.foldl Block.apply []

end BaxOS.Unpack.Deflate
