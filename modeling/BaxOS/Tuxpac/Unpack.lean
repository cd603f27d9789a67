import BaxOS.Lib.Canonical

/-!
# Unpacking: sources, bits, and Huffman codes

`src_byte`, `bits`, `construct` and `decode`. A source is filled by a function of whatever it is filled
from, a file or a response. An index out of an array's range is `none`.
-/

namespace BaxOS.Unpack
open Function

variable {σ : Type*}

/-! ### Sources -/

/-- `struct source`: what is in `buf` from `pos` to `len`, `count` and `bad`, and what `fill` fills it
from; a `fill` of no bytes is one that returns 0, or is `NULL`. -/
structure Source (σ : Type*) where
  ahead : List UInt8
  count : ℕ
  bad : Bool
  more : σ
  fill : σ → List UInt8 × σ

/-- `src_byte`. -/
def srcByte (s : Source σ) : UInt8 × Source σ :=
  match s.ahead with
  | c :: cs => (c, { s with ahead := cs, count := s.count + 1 })
  | [] =>
    if s.bad then (0, s)
    else
      match s.fill s.more with
      | ([], more) => (0, { s with more, bad := true })
      | (c :: cs, more) => (c, { s with more, ahead := cs, count := s.count + 1 })

/-! ### Bits -/

/-- `in`, `bitbuf` and `bitcnt`: what is left of the bytes taken. -/
structure Bits (σ : Type*) where
  src : Source σ
  bitbuf : ℕ
  bitcnt : ℕ
  holds : bitbuf < 2 ^ bitcnt

/-- The loop of `bits`, which takes a byte a turn; no bit of `v` is above the 32nd, since no more than
13 are needed at once. -/
def refill : ℕ → ℕ → Bits σ → Bits σ
  | 0, _, b => b
  | n + 1, need, b =>
    if b.bitcnt < need then
      refill n need
        { src := (srcByte b.src).2
          bitbuf := b.bitbuf ||| (srcByte b.src).1.toNat <<< b.bitcnt
          bitcnt := b.bitcnt + 8
          holds := by
            apply Nat.or_lt_two_pow
            · exact b.holds.trans_le (Nat.pow_le_pow_right two_pos (Nat.le_add_right _ 8))
            · rw [Nat.shiftLeft_eq, Nat.add_comm, Nat.pow_add]
              exact Nat.mul_lt_mul_of_pos_right (srcByte b.src).1.toNat_lt (Nat.two_pow_pos _) }
    else b

/-- `bits`. -/
def bits (need : ℕ) (b : Bits σ) : ℕ × Bits σ :=
  let b := refill need need b
  (b.bitbuf &&& (1 <<< need - 1),
    { b with
      bitbuf := b.bitbuf >>> need
      bitcnt := b.bitcnt - need
      holds := by
        rw [Nat.shiftRight_eq_div_pow, Nat.div_lt_iff_lt_mul (Nat.two_pow_pos _), ← Nat.pow_add]
        exact b.holds.trans_le (Nat.pow_le_pow_right two_pos (by omega)) })

/-- What is left when `n` bits have been taken one at a time. -/
def Bits.drop (n : ℕ) (b : Bits σ) : Bits σ := (fun b => (bits 1 b).2)^[n] b

/-- The next `n` bits, taken one at a time. -/
def Bits.take (n : ℕ) (b : Bits σ) : List ℕ := (List.range n).map fun i => (bits 1 (b.drop i)).1

/-! ### Huffman codes -/

/-- The most bits a code has, one less than the size of `count`. -/
def longest : ℕ := 15

/-- The size of `symbol`. -/
def symbolRoom : ℕ := 288

/-- `struct huff`. -/
structure Huff where
  count : ℕ → UInt16
  symbol : ℕ → UInt16

/-- `h->symbol[i]`. -/
def Huff.symbolAt (h : Huff) (i : ℤ) : Option UInt16 :=
  if 0 ≤ i ∧ i < symbolRoom then some (h.symbol i.toNat) else none

/-- The loop of `decode` over the lengths that are left: what it returns, and what is left of the
bits. -/
def decodeOn (h : Huff) : List ℕ → ℕ → ℕ → ℕ → Bits σ → Option (ℤ × Bits σ)
  | [], _, _, _, b => some (-1, b)
  | len :: lens, code, first, index, b =>
    let code := code ||| (bits 1 b).1
    let count := (h.count len).toNat
    if (code : ℤ) - count < first then
      (h.symbolAt (index + (code - first))).map fun s => ((s.toNat : ℤ), (bits 1 b).2)
    else decodeOn h lens (code <<< 1) ((first + count) <<< 1) (index + count) (bits 1 b).2

/-- `decode`. -/
def decode (h : Huff) (b : Bits σ) : Option (ℤ × Bits σ) := decodeOn h (List.range' 1 longest) 0 0 0 b

/-- How many codes there are of each length. -/
def tally : List ℕ → (ℕ → UInt16) → Option (ℕ → UInt16)
  | [], count => some count
  | l :: ls, count => if l ≤ longest then tally ls (update count l (count l + 1)) else none

/-- The words that are left over at each length: over all lengths, or where they are too few. -/
def leftOver (count : ℕ → UInt16) : List ℕ → ℤ → ℤ
  | [], left => left
  | len :: lens, left =>
    let left := 2 * left - (count len).toNat
    if left < 0 then left else leftOver count lens left

/-- `offs`, as it is at first: where in `symbol` the symbols of each length begin. -/
def offsets (count : ℕ → UInt16) : ℕ → UInt16
  | 0 => 0
  | 1 => 0
  | len + 2 => offsets count (len + 1) + count (len + 1)

/-- The last loop of `construct`, from the symbol `s` on. -/
def place : ℕ → List ℕ → (ℕ → UInt16) → (ℕ → UInt16) → Option (ℕ → UInt16)
  | _, [], _, symbol => some symbol
  | s, l :: ls, offs, symbol =>
    if l = 0 then place (s + 1) ls offs symbol
    else if (offs l).toNat < symbolRoom then
      place (s + 1) ls (update offs l (offs l + 1)) (update symbol (offs l).toNat (UInt16.ofNat s))
    else none

/-- `construct`: what it returns, and the codes then. -/
def construct (h : Huff) (length : List ℕ) : Option (ℤ × Huff) :=
  match tally length fun _ => 0 with
  | none => none
  | some count =>
    if (count 0).toNat = length.length then some (0, { h with count })
    else
      let left := leftOver count (List.range' 1 longest) 1
      if left < 0 then some (left, { h with count })
      else (place 0 length (offsets count) h.symbol).map fun symbol => (left, ⟨count, symbol⟩)

end BaxOS.Unpack
