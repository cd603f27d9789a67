import BaxOS.Tuxpac.Window

/-!
# Unpacking: gzip

`gunzip`, with `stored`, `fixed`, `dynamic` and `codes`. A loop that only the source ends is given turns;
one that counts goes by what it counts.
-/

namespace BaxOS.Unpack
open Function Programs

variable {σ τ : Type}

/-- What `gunzip` works in: `in`, `bitbuf` and `bitcnt`, the window, `lencode`, `distcode` and
`lengths`. -/
structure Gzip (σ τ : Type) where
  bits : Bits σ
  window : Window τ
  lencode : Huff
  distcode : Huff
  lengths : ℕ → ℕ

namespace Gzip

/-! ### What the decoders are made of -/

/-- `src_byte(in)`. -/
def byte : Prog (Gzip σ τ) ℕ := do
  let g ← get
  let taken := srcByte g.bits.src
  set { g with bits := { g.bits with src := taken.2 } }
  return taken.1.toNat

/-- `src_read(in, ..)`. -/
def read (n : ℕ) : Prog (Gzip σ τ) (Bool × List UInt8) := do
  let g ← get
  let taken := srcRead n g.bits.src
  set { g with bits := { g.bits with src := taken.2 } }
  return taken.1

/-- `bits`. -/
def bitsOf (need : ℕ) : Prog (Gzip σ τ) ℕ := do
  let g ← get
  let taken := Unpack.bits need g.bits
  set { g with bits := taken.2 }
  return taken.1

/-- `bitbuf = bitcnt = 0`. -/
def noBits : Prog (Gzip σ τ) Unit :=
  modify fun g => { g with bits := ⟨g.bits.src, 0, 0, Nat.one_pos⟩ }

/-- `decode`, of one of the two codes. -/
def decodeBy (code : Gzip σ τ → Huff) : Prog (Gzip σ τ) ℤ := do
  let g ← get
  match decode (code g) g.bits with
  | none => failure
  | some (sym, rest) =>
    set { g with bits := rest }
    return sym

/-- A call on the window. -/
def windowed {α : Type} (m : Prog (Window τ) α) : Prog (Gzip σ τ) α :=
  onPart window (fun w g => { g with window := w }) m

/-- An entry of a table. -/
def entry (table : List ℕ) (i : ℕ) : Prog (Gzip σ τ) ℕ :=
  match table[i]? with
  | none => failure
  | some x => pure x

/-- The size of `lengths`. -/
def lengthsRoom : ℕ := 320

/-- `lengths[i] = v`. -/
def setLength (i v : ℕ) : Prog (Gzip σ τ) Unit :=
  if i < lengthsRoom then modify fun g => { g with lengths := update g.lengths i v } else failure

/-- `for (; i < ..; i++) lengths[i] = v`, `n` times. -/
def setLengths (v : ℕ) : ℕ → ℕ → Prog (Gzip σ τ) Unit
  | _, 0 => pure ()
  | i, n + 1 => do
    setLength i v
    setLengths v (i + 1) n

/-- `construct(&lencode, lengths, n)`. -/
def constructLen (n : ℕ) : Prog (Gzip σ τ) ℤ := do
  let g ← get
  match construct g.lencode ((List.range n).map g.lengths) with
  | none => failure
  | some (left, h) =>
    set { g with lencode := h }
    return left

/-- `construct(&distcode, lengths + from, n)`. -/
def constructDist (start n : ℕ) : Prog (Gzip σ τ) ℤ := do
  let g ← get
  match construct g.distcode ((List.range' start n).map g.lengths) with
  | none => failure
  | some (left, h) =>
    set { g with distcode := h }
    return left

/-! ### Blocks -/

/-- `lbase`. -/
def lbase : List ℕ := [3, 4, 5, 6, 7, 8, 9, 10, 11, 13, 15, 17, 19, 23, 27, 31,
  35, 43, 51, 59, 67, 83, 99, 115, 131, 163, 195, 227, 258]

/-- `lext`. -/
def lext : List ℕ := [0, 0, 0, 0, 0, 0, 0, 0, 1, 1, 1, 1, 2, 2, 2, 2,
  3, 3, 3, 3, 4, 4, 4, 4, 5, 5, 5, 5, 0]

/-- `dbase`. -/
def dbase : List ℕ := [1, 2, 3, 4, 5, 7, 9, 13, 17, 25, 33, 49, 65, 97, 129, 193,
  257, 385, 513, 769, 1025, 1537, 2049, 3073, 4097, 6145,
  8193, 12289, 16385, 24577]

/-- `dext`. -/
def dext : List ℕ := [0, 0, 0, 0, 1, 1, 2, 2, 3, 3, 4, 4, 5, 5, 6, 6,
  7, 7, 8, 8, 9, 9, 10, 10, 11, 11, 12, 12, 13, 13]

/-- What `codes` does with the symbol of a length, once 257 has been taken off. -/
def backReference (sym : ℕ) : Prog (Gzip σ τ) (Turn Unit Bool) := do
  if 29 ≤ sym then return .leave false
  else
    let base ← entry lbase sym
    let extra ← bitsOf (← entry lext sym)
    let d ← decodeBy distcode
    if d < 0 ∨ 30 ≤ d then return .leave false
    else
      let dist ← entry dbase d.toNat
      let more ← bitsOf (← entry dext d.toNat)
      if ← windowed (Window.copy (UInt32.ofNat (dist + more)) (base + extra)) then return .again ()
      else return .leave false

/-- A turn of the loop of `codes`. -/
def codesTurn (_ : Unit) : Prog (Gzip σ τ) (Turn Unit Bool) := do
  let sym ← decodeBy lencode
  let g ← get
  if sym < 0 ∨ g.bits.src.bad = true ∨ g.window.wstop = true then return .leave false
  else if sym < 256 then
    windowed (Window.put (UInt8.ofNat sym.toNat))
    return .again ()
  else if sym = 256 then return .leave true
  else backReference (sym - 257).toNat

/-- `codes`. -/
def codes (turns : ℕ) : Prog (Gzip σ τ) Bool := loop codesTurn turns ()

/-- The loop of `stored`. -/
def storedOn : ℕ → Prog (Gzip σ τ) Unit
  | 0 => pure ()
  | len + 1 => do
    if (← get).bits.src.bad then pure ()
    else
      let b ← byte
      windowed (Window.put (UInt8.ofNat b))
      storedOn len

/-- `stored`. -/
def stored : Prog (Gzip σ τ) Bool := do
  noBits
  let len ← byte
  let high ← byte
  let len := len ||| high <<< 8
  let nlen ← byte
  let high ← byte
  let nlen := nlen ||| high <<< 8
  if len ≠ nlen ^^^ 0xFFFF then return false
  else
    storedOn len
    return !(← get).bits.src.bad

/-- `fixed`. -/
def fixed (turns : ℕ) : Prog (Gzip σ τ) Bool := do
  setLengths 8 0 144
  setLengths 9 144 112
  setLengths 7 256 24
  setLengths 8 280 8
  let _ ← constructLen 288
  setLengths 5 0 30
  let _ ← constructDist 0 30
  codes turns

/-- `order`. -/
def order : List ℕ := [16, 17, 18, 0, 8, 7, 9, 6, 10, 5, 11, 4, 12, 3, 13, 2, 14, 1, 15]

/-- The lengths of the codes that lengths are given in, the first `ncode` of those that are left. -/
def orderOn : List ℕ → ℕ → Prog (Gzip σ τ) Unit
  | [], _ => pure ()
  | o :: os, 0 => do
    setLength o 0
    orderOn os 0
  | o :: os, ncode + 1 => do
    setLength o (← bitsOf 3)
    orderOn os ncode

/-- A length that is given `n` times from `index` on. -/
def repeated (all index len n : ℕ) : Prog (Gzip σ τ) (Turn ℕ Bool) := do
  if all < index + n then return .leave false
  else
    setLengths len index n
    return .again (index + n)

/-- The last length again. -/
def repeatLast (all index : ℕ) : Prog (Gzip σ τ) (Turn ℕ Bool) := do
  if index = 0 then return .leave false
  else
    let g ← get
    let n ← bitsOf 2
    repeated all index (g.lengths (index - 1)) (3 + n)

/-- No length, a number of times that is given in so many bits. -/
def repeatZero (all index least need : ℕ) : Prog (Gzip σ τ) (Turn ℕ Bool) := do
  let n ← bitsOf need
  repeated all index 0 (least + n)

/-- A turn of the loop that reads the lengths, `all` of them. -/
def lengthsTurn (all index : ℕ) : Prog (Gzip σ τ) (Turn ℕ Bool) := do
  if index < all then
    let sym ← decodeBy lencode
    let g ← get
    if sym < 0 ∨ g.bits.src.bad = true then return .leave false
    else if sym < 16 then
      setLength index sym.toNat
      return .again (index + 1)
    else if sym = 16 then repeatLast all index
    else if sym = 17 then repeatZero all index 3 3
    else repeatZero all index 11 7
  else return .leave true

/-- Codes that leave some words over, and are more than the one that may. -/
def incomplete (left : ℤ) (h : Huff) (n : ℕ) : Bool := left < 0 ∨ 0 < left ∧ (n : ℤ) - (h.count 0).toNat ≠ 1

/-- The end of `dynamic`, once the lengths have been read. -/
def codesOf (turns nlen ndist : ℕ) : Prog (Gzip σ τ) Bool := do
  if (← get).lengths 256 = 0 then return false
  else
    let err ← constructLen nlen
    if incomplete err (← get).lencode nlen then return false
    else
      let err ← constructDist nlen ndist
      if incomplete err (← get).distcode ndist then return false
      else codes turns

/-- `dynamic`. -/
def dynamic (turns : ℕ) : Prog (Gzip σ τ) Bool := do
  let nlen ← bitsOf 5
  let nlen := nlen + 257
  let ndist ← bitsOf 5
  let ndist := ndist + 1
  let ncode ← bitsOf 4
  if 286 < nlen ∨ 30 < ndist then return false
  else
    orderOn order (ncode + 4)
    if (← constructLen 19) ≠ 0 then return false
    else if ← loop (lengthsTurn (nlen + ndist)) turns 0 then codesOf turns nlen ndist
    else return false

/-! ### `gunzip` -/

/-- A turn of the loop over a name or a comment. -/
def textTurn (_ : Unit) : Prog (Gzip σ τ) (Turn Unit Unit) := do
  if (← byte) = 0 then return .leave ()
  else if (← get).bits.src.bad then return .leave ()
  else return .again ()

/-- The extra field. -/
def extra : Prog (Gzip σ τ) Unit := do
  let n ← byte
  let high ← byte
  let _ ← read (n ||| high <<< 8)

/-- The fields that the header says come after it. -/
def optional (turns : ℕ) (flags : UInt8) : Prog (Gzip σ τ) Unit := do
  given (flags &&& 4 ≠ 0) extra
  given (flags &&& 8 ≠ 0) (loop textTurn turns ())
  given (flags &&& 16 ≠ 0) (loop textTurn turns ())
  given (flags &&& 2 ≠ 0) (discard (read 2))

/-- A block of one of the three kinds. -/
def block (turns kind : ℕ) : Prog (Gzip σ τ) Bool :=
  if kind = 0 then stored
  else if kind = 1 then fixed turns
  else if kind = 2 then dynamic turns
  else pure false

/-- A turn of the loop over the blocks. -/
def blockTurn (turns : ℕ) (_ : Unit) : Prog (Gzip σ τ) (Turn Unit Bool) := do
  let last ← bitsOf 1
  let kind ← bitsOf 2
  let ok ← block turns kind
  if ok = true ∧ last = 0 then return .again () else return .leave ok

/-- `gunzip`, given what `xalloc` gives, from what the last call left. -/
def gunzip (turns : ℕ) (got : Option (ℕ → UInt8)) (out : List UInt8 → τ → Bool × τ) :
    Prog (Gzip σ τ) Bool := do
  let r ← read 10
  if !r.1 || r.2.getD 0 0 != 0x1F || r.2.getD 1 0 != 0x8B || r.2.getD 2 0 != 8 then return false
  else
    optional turns (r.2.getD 3 0)
    if ← windowed (Window.windowOpen got 32768 out) then
      noBits
      let ok ← loop (blockTurn turns) turns ()
      let ok ← windowed (Window.windowClose ok)
      return ok && !(← get).bits.src.bad
    else return false

/-- The variables as they are before anything was unpacked, and a source in hand. -/
def atFirst (src : Source σ) (out : τ) : Gzip σ τ where
  bits := ⟨src, 0, 0, Nat.one_pos⟩
  window := ⟨none, 0, 0, 0, fun _ out => (true, out), false, out⟩
  lencode := ⟨fun _ => 0, fun _ => 0⟩
  distcode := ⟨fun _ => 0, fun _ => 0⟩
  lengths := fun _ => 0

end Gzip

end BaxOS.Unpack
