import BaxOS.Lib.Lz77
import BaxOS.Lib.RangeCoder
import BaxOS.Tuxpac.Lzma

/-!
# What LZMA data is

Packets, letters and back references, come as decisions of a range coder whose probabilities follow what has
been decided.
-/

namespace BaxOS.Unpack.Lzma
open Function (update)
open Lz77

/-! ### Decisions -/

/-- A bit of a probability that is kept, or one of two halves. -/
inductive Decision
  | coin (c : Cell) (b : Bool)
  | half (b : Bool)

namespace Decision

/-- The part of a range that it takes. -/
def part (prob : Cell → ℕ) : Decision → ℕ → RangeCoder.Part
  | coin c false, r => ⟨0, r / 2 ^ 11 * prob c⟩
  | coin c true, r => ⟨r / 2 ^ 11 * prob c, r - r / 2 ^ 11 * prob c⟩
  | half false, r => ⟨0, r / 2⟩
  | half true, r => ⟨r / 2, r / 2⟩

/-- The probabilities after it. -/
def learn (prob : Cell → ℕ) : Decision → Cell → ℕ
  | coin c false => update prob c (prob c + (2048 - prob c) / 32)
  | coin c true => update prob c (prob c - prob c / 32)
  | half _ => prob

end Decision

/-- The parts that decisions take, one after another. -/
def parts : (Cell → ℕ) → List Decision → List (ℕ → RangeCoder.Part)
  | _, [] => []
  | prob, d :: ds => d.part prob :: parts (d.learn prob) ds

/-- Bytes that stand for decisions: one that is passed over, and those of a number in what the decisions
leave of the whole range. -/
def Coded (prob : Cell → ℕ) (ds : List Decision) (bytes : List UInt8) : Prop :=
  ∃ skip number, bytes = skip :: number ∧
    let s := RangeCoder.span (2 ^ 32 - 1) (parts prob ds)
    number.length = 4 + s.shifts ∧ s.low ≤ RangeCoder.big number ∧ RangeCoder.big number < s.low + s.width

/-! ### Numbers as decisions -/

/-- `n` bits of a number, the high one first, in a tree of probabilities. -/
def treeBits (p : ℕ → Cell) : ℕ → ℕ → ℕ → List Decision
  | 0, _, _ => []
  | n + 1, m, v => .coin (p m) (v.testBit n) :: treeBits p n (2 * m + (v.testBit n).toNat) v

/-- `n` bits of a number from the `i`th on, the low one first. -/
def rtreeBits (p : ℕ → Cell) : ℕ → ℕ → ℕ → ℕ → List Decision
  | 0, _, _, _ => []
  | n + 1, i, m, v => .coin (p m) (v.testBit i) :: rtreeBits p n (i + 1) (2 * m + (v.testBit i).toNat) v

/-- `n` bits of a number, the high one first, each one of two halves. -/
def halves : ℕ → ℕ → List Decision
  | 0, _ => []
  | n + 1, v => .half (v.testBit n) :: halves n v

/-- A length less 2. -/
def lenBits (l : LenCell → Cell) (ps n : ℕ) : List Decision :=
  if n < 8 then .coin (l .choice) false :: treeBits (fun m => l (.low ps m)) 3 1 n
  else if n < 16 then
    .coin (l .choice) true :: .coin (l .choice2) false :: treeBits (fun m => l (.mid ps m)) 3 1 (n - 8)
  else .coin (l .choice) true :: .coin (l .choice2) true :: treeBits (fun m => l (.high m)) 8 1 (n - 16)

/-- How many bits come after the slot of a distance. -/
def slotWidth (slot : ℕ) : ℕ := if slot < 4 then 0 else slot / 2 - 1

/-- The first distance less 1 of a slot. -/
def slotBase (slot : ℕ) : ℕ := if slot < 4 then slot else (2 + slot % 2) * 2 ^ slotWidth slot

/-- The bits that come after the slot of a distance. -/
def distBits (slot extra : ℕ) : List Decision :=
  if slot < 4 then []
  else if slot < 14 then rtreeBits (fun m => .pos (slotBase slot - slot + m)) (slotWidth slot) 0 1 extra
  else halves (slotWidth slot - 4) (extra / 2 ^ 4) ++ rtreeBits .align 4 0 1 extra

/-- The bits of a letter, those of what a match would give telling which probabilities, as long as they are
the same. -/
def matchedBits (base old b : ℕ) : ℕ → ℕ → List Decision
  | 0, _ => []
  | n + 1, s =>
    .coin (.lit (base + ((1 + (old.testBit n).toNat) * 2 ^ 8 + s))) (b.testBit n) ::
      if old.testBit n = b.testBit n then matchedBits base old b n (2 * s + (b.testBit n).toNat)
      else treeBits (fun m => .lit (base + m)) n (2 * s + (b.testBit n).toNat) b

/-! ### Packets -/

/-- What packets are read by: all that was written, and how much of it since the dictionary was reset; the
state and the last distances less 1; `lc`, `lp` and `pb`; and the probabilities. -/
structure Context where
  h : List UInt8
  n : ℕ
  state : ℕ
  rep0 : ℕ
  rep1 : ℕ
  rep2 : ℕ
  rep3 : ℕ
  lc : ℕ
  lp : ℕ
  pb : ℕ
  prob : Cell → ℕ

/-- A letter; a back reference by its length less 2, and the slot of its distance less 1 and what is added to
that; the letter at the last distance; or one of the last distances, and a length less 2. -/
inductive Packet
  | lit (b : UInt8)
  | fresh (len slot extra : ℕ)
  | short
  | again (i len : ℕ)

namespace Packet

variable (x : Context)

/-- What it stands for. -/
def token : Packet → Token UInt8
  | lit b => .lit b
  | fresh len slot extra => .ref (len + 2) (slotBase slot + extra + 1)
  | short => .ref 1 (x.rep0 + 1)
  | again 0 len => .ref (len + 2) (x.rep0 + 1)
  | again 1 len => .ref (len + 2) (x.rep1 + 1)
  | again 2 len => .ref (len + 2) (x.rep2 + 1)
  | again _ len => .ref (len + 2) (x.rep3 + 1)

/-- How many letters that is. -/
def size : Packet → ℕ
  | lit _ => 1
  | fresh len _ _ => len + 2
  | short => 1
  | again _ len => len + 2

/-- Where the probabilities of the next letter begin. -/
def litStart : ℕ :=
  let prev := if 0 < x.n then (x.h.getLastD 0).toNat else 0
  0x300 * ((x.n % 2 ^ x.lp) * 2 ^ x.lc + prev / 2 ^ (8 - x.lc))

/-- The decisions of a letter. -/
def litBits (b : UInt8) : List Decision :=
  if x.state < 7 then treeBits (fun m => .lit (litStart x + m)) 8 1 b.toNat
  else matchedBits (litStart x) (x.h.getD (x.h.length - (x.rep0 + 1)) 0).toNat b.toNat 8 1

/-- Its decisions. -/
def bits (p : Packet) : List Decision :=
  let ps := x.n % 2 ^ x.pb
  match p with
  | lit b => .coin (.isMatch (x.state * 2 ^ 4 + ps)) false :: litBits x b
  | fresh len slot extra =>
    .coin (.isMatch (x.state * 2 ^ 4 + ps)) true :: .coin (.isRep x.state) false ::
      (lenBits .len ps len ++ (treeBits (.slot (min len 3)) 6 1 slot ++ distBits slot extra))
  | short =>
    [.coin (.isMatch (x.state * 2 ^ 4 + ps)) true, .coin (.isRep x.state) true, .coin (.g0 x.state) false,
      .coin (.rep0Long (x.state * 2 ^ 4 + ps)) false]
  | again 0 len =>
    .coin (.isMatch (x.state * 2 ^ 4 + ps)) true :: .coin (.isRep x.state) true ::
      .coin (.g0 x.state) false :: .coin (.rep0Long (x.state * 2 ^ 4 + ps)) true :: lenBits .repLen ps len
  | again 1 len =>
    .coin (.isMatch (x.state * 2 ^ 4 + ps)) true :: .coin (.isRep x.state) true ::
      .coin (.g0 x.state) true :: .coin (.g1 x.state) false :: lenBits .repLen ps len
  | again 2 len =>
    .coin (.isMatch (x.state * 2 ^ 4 + ps)) true :: .coin (.isRep x.state) true ::
      .coin (.g0 x.state) true :: .coin (.g1 x.state) true :: .coin (.g2 x.state) false ::
        lenBits .repLen ps len
  | again _ len =>
    .coin (.isMatch (x.state * 2 ^ 4 + ps)) true :: .coin (.isRep x.state) true ::
      .coin (.g0 x.state) true :: .coin (.g1 x.state) true :: .coin (.g2 x.state) true ::
        lenBits .repLen ps len

/-- The state after it. -/
def stateAfter (state : ℕ) : Packet → ℕ
  | lit _ => if state < 4 then 0 else if state < 10 then state - 3 else state - 6
  | fresh _ _ _ => if state < 7 then 7 else 10
  | short => if state < 7 then 9 else 11
  | again _ _ => if state < 7 then 8 else 11

/-- The last distances after it. -/
def moved : Packet → Context
  | fresh _ slot extra =>
    { x with rep0 := slotBase slot + extra, rep1 := x.rep0, rep2 := x.rep1, rep3 := x.rep2 }
  | again 0 _ => x
  | again 1 _ => { x with rep0 := x.rep1, rep1 := x.rep0 }
  | again 2 _ => { x with rep0 := x.rep2, rep1 := x.rep0, rep2 := x.rep1 }
  | again _ _ => { x with rep0 := x.rep3, rep1 := x.rep0, rep2 := x.rep1, rep3 := x.rep2 }
  | _ => x

/-- What the next packet is read by. -/
def apply (p : Packet) : Context :=
  { p.moved x with
    h := (p.token x).apply x.h
    n := x.n + p.size
    state := p.stateAfter x.state }

/-- A distance is within what was written since the dictionary was reset, and within the window. -/
def Reaches (w n : ℕ) : Token UInt8 → Prop
  | .lit _ => True
  | .ref _ dist => dist ≤ n ∧ dist ≤ w

/-- A packet that can come, where the window is of `w` bytes. -/
def Fine (w : ℕ) (p : Packet) : Prop :=
  Reaches w x.n (p.token x) ∧
    match p with
    | lit _ => 7 ≤ x.state → x.rep0 + 1 ≤ x.h.length ∧ x.rep0 + 1 ≤ w
    | fresh len slot extra => len < 272 ∧ slot < 64 ∧ extra < 2 ^ slotWidth slot
    | short => True
    | again i len => i < 4 ∧ len < 272

end Packet

/-- The decisions of packets, one after another. -/
def packetsBits : Context → List Packet → List Decision
  | _, [] => []
  | x, p :: ps => p.bits x ++ packetsBits (p.apply x) ps

/-- Packets that can come one after another. -/
def PacketsFine (w : ℕ) : Context → List Packet → Prop
  | _, [] => True
  | x, p :: ps => p.Fine x w ∧ PacketsFine w (p.apply x) ps

end BaxOS.Unpack.Lzma
