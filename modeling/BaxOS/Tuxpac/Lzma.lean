import BaxOS.Tuxpac.Window

/-!
# Unpacking: xz

The range decoder, `lzma_chunk`, `lzma2` and `unxz`. A probability is known by its place in
`struct lzma`, which is one of a family of arrays.
-/

namespace BaxOS.Unpack
open Function Programs

variable {σ τ : Type}

/-! ### Probabilities -/

/-- A place in `struct len_coder`. -/
inductive LenCell
  | choice
  | choice2
  | low (i j : ℕ)
  | mid (i j : ℕ)
  | high (i : ℕ)
  deriving DecidableEq

/-- A place in `struct lzma`. -/
inductive Cell
  | isMatch (i : ℕ)
  | isRep (i : ℕ)
  | g0 (i : ℕ)
  | g1 (i : ℕ)
  | g2 (i : ℕ)
  | rep0Long (i : ℕ)
  | slot (i j : ℕ)
  | pos (i : ℕ)
  | align (i : ℕ)
  | len (c : LenCell)
  | repLen (c : LenCell)
  | lit (i : ℕ)
  deriving DecidableEq

/-- Within its array. -/
def LenCell.inRange : LenCell → Bool
  | choice => true
  | choice2 => true
  | low i j => i < 16 && j < 8
  | mid i j => i < 16 && j < 8
  | high i => i < 256

/-- Within its array. -/
def Cell.inRange : Cell → Bool
  | isMatch i => i < 192
  | isRep i => i < 12
  | g0 i => i < 12
  | g1 i => i < 12
  | g2 i => i < 12
  | rep0Long i => i < 192
  | slot i j => i < 4 && j < 64
  | pos i => i < 115
  | align i => i < 16
  | len c => c.inRange
  | repLen c => c.inRange
  | lit i => i < 0x300 <<< 4

/-! ### The range decoder -/

/-- `in`, `range`, `code`, and the probabilities. -/
structure Coder (σ : Type) where
  src : Source σ
  range : UInt32
  code : UInt32
  prob : Cell → UInt16

namespace Coder

/-- `src_byte(in)`. -/
def byte : Prog (Coder σ) UInt8 := do
  let c ← get
  let taken := srcByte c.src
  set { c with src := taken.2 }
  return taken.1

/-- `code = code << 8 | src_byte(in)`. -/
def shiftIn : Prog (Coder σ) Unit := do
  let b ← byte
  modify fun c => { c with code := c.code <<< 8 ||| b.toUInt32 }

/-- `rc_init`. -/
def rcInit : Prog (Coder σ) Unit := do
  let _ ← byte
  modify fun c => { c with code := 0 }
  shiftIn
  shiftIn
  shiftIn
  shiftIn
  modify fun c => { c with range := 0xFFFFFFFF }

/-- `if (range < 1u << 24) { .. }`. -/
def normalize : Prog (Coder σ) Unit := do
  let c ← get
  if c.range < 0x1000000 then
    set { c with range := c.range <<< 8 }
    shiftIn

/-- `bit`. A shift by 5 is a division by 32, rounded down. -/
def bit (p : Cell) : Prog (Coder σ) ℕ := do
  if p.inRange then
    let c ← get
    let bound := (c.range >>> 11) * (c.prob p).toUInt32
    let old : ℤ := (c.prob p).toNat
    if c.code < bound then
      set { c with prob := update c.prob p (UInt16.ofInt (old + (2048 - old) / 32)), range := bound }
      normalize
      return 0
    else
      set { c with
        prob := update c.prob p (UInt16.ofInt (old - old / 32))
        code := c.code - bound
        range := c.range - bound }
      normalize
      return 1
  else failure

/-- The loop of `tree`, with `n` turns to come. -/
def treeOn (p : ℕ → Cell) : ℕ → ℕ → Prog (Coder σ) ℕ
  | 0, m => pure m
  | n + 1, m => do
    let b ← bit (p m)
    treeOn p n (m <<< 1 + b)

/-- `tree`. -/
def tree (p : ℕ → Cell) (n : ℕ) : Prog (Coder σ) ℕ := do
  let m ← treeOn p n 1
  return m - 1 <<< n

/-- The loop of `rtree`, from `i` on. -/
def rtreeOn (p : ℕ → Cell) : ℕ → ℕ → ℕ → ℕ → Prog (Coder σ) ℕ
  | 0, _, _, s => pure s
  | n + 1, i, m, s => do
    let b ← bit (p m)
    rtreeOn p n (i + 1) (m <<< 1 + b) (s ||| b <<< i)

/-- `rtree`. -/
def rtree (p : ℕ → Cell) (n : ℕ) : Prog (Coder σ) ℕ := rtreeOn p n 0 1 0

/-- The loop of `direct`. -/
def directOn : ℕ → UInt32 → Prog (Coder σ) UInt32
  | 0, r => pure r
  | n + 1, r => do
    modify fun c => { c with range := c.range >>> 1 }
    let c ← get
    if c.range ≤ c.code then
      set { c with code := c.code - c.range }
      normalize
      directOn n (r <<< 1 ||| 1)
    else
      normalize
      directOn n (r <<< 1)

/-- `direct`. -/
def direct (n : ℕ) : Prog (Coder σ) UInt32 := directOn n 0

/-- `len_decode`. -/
def lenDecode (l : LenCell → Cell) (ps : ℕ) : Prog (Coder σ) ℕ := do
  if (← bit (l .choice)) = 0 then tree (fun m => l (.low ps m)) 3
  else if (← bit (l .choice2)) = 0 then
    let n ← tree (fun m => l (.mid ps m)) 3
    return 8 + n
  else
    let n ← tree (fun m => l (.high m)) 8
    return 16 + n

/-- What `lzma_reset` does to the probabilities. -/
def reset : Prog (Coder σ) Unit := modify fun c => { c with prob := fun _ => 1024 }

end Coder

/-! ### `lzma_chunk` -/

/-- What `unxz` works in: `in`, `range`, `code` and the probabilities, the window, `rep`, `lc`, `lp`, `pb`
and `state`. -/
structure Xz (σ τ : Type) where
  coder : Coder σ
  window : Window τ
  rep0 : UInt32
  rep1 : UInt32
  rep2 : UInt32
  rep3 : UInt32
  lc : ℕ
  lp : ℕ
  pb : ℕ
  state : ℕ

namespace Xz
open Coder

/-- A call on the range decoder. -/
def coding {α : Type} (m : Prog (Coder σ) α) : Prog (Xz σ τ) α :=
  onPart coder (fun c x => { x with coder := c }) m

/-- A call on the window. -/
def windowed {α : Type} (m : Prog (Window τ) α) : Prog (Xz σ τ) α :=
  onPart window (fun w x => { x with window := w }) m

/-- `lzma_reset`. -/
def lzmaReset : Prog (Xz σ τ) Unit := do
  coding Coder.reset
  modify fun x => { x with state := 0, rep0 := 0, rep1 := 0, rep2 := 0, rep3 := 0 }

/-- `while (s < 0x100) s = s << 1 | bit(&lit[s])`, of which there are no more than eight turns. -/
def plainOn (base : ℕ) : ℕ → ℕ → Prog (Xz σ τ) ℕ
  | 0, s => pure s
  | n + 1, s => do
    if s < 0x100 then
      let b ← coding (bit (.lit (base + s)))
      plainOn base n (s <<< 1 ||| b)
    else return s

/-- The loop over the bits of a literal that are those of the byte a match would give, of which there are
no more than eight turns. -/
def matchedOn (base : ℕ) : ℕ → ℕ → ℕ → Prog (Xz σ τ) ℕ
  | 0, _, s => pure s
  | n + 1, old, s => do
    let m := old >>> 7 &&& 1
    let b ← coding (bit (.lit (base + ((1 + m) <<< 8 + s))))
    let s := s <<< 1 ||| b
    if m ≠ b then return s
    else if s < 0x100 then matchedOn base n (old <<< 1) s
    else return s

/-- The byte before, or 0. -/
def previous : Prog (Xz σ τ) UInt8 := do
  if 0 < (← get).window.total then windowed (Window.back 1) else return 0

/-- Where the probabilities of a literal begin. -/
def litBase (x : Xz σ τ) (prev : UInt8) : ℕ :=
  0x300 * ((x.window.total.toNat &&& (1 <<< x.lp - 1)) <<< x.lc + prev.toNat >>> (8 - x.lc))

/-- The bits of a literal that are those of the byte a match would give, after a match. -/
def matched (base : ℕ) : Prog (Xz σ τ) ℕ := do
  let x ← get
  if 7 ≤ x.state then
    let old ← windowed (Window.back (x.rep0 + 1))
    matchedOn base 8 old.toNat 1
  else return 1

/-- A literal. -/
def literal : Prog (Xz σ τ) Unit := do
  let x ← get
  let prev ← previous
  let s ← matched (litBase x prev)
  let s ← plainOn (litBase x prev) 8 s
  windowed (Window.put (UInt8.ofNat s))
  modify fun x =>
    { x with state := if x.state < 4 then 0 else if x.state < 10 then x.state - 3 else x.state - 6 }

/-- The distance of a match, from its slot. -/
def distance (slot : ℕ) : Prog (Coder σ) UInt32 := do
  if 4 ≤ slot then
    let nb := slot >>> 1 - 1
    let d := (2 ||| slot &&& 1) <<< nb
    if slot < 14 then
      let low ← rtree (fun m => .pos (d - slot + m)) nb
      return UInt32.ofNat (d + low)
    else
      let high ← direct (nb - 4)
      let low ← rtree .align 4
      return UInt32.ofNat d + high <<< 4 + UInt32.ofNat low
  else return UInt32.ofNat slot

/-- A match: its length, less 2. -/
def newMatch (ps : ℕ) : Prog (Xz σ τ) ℕ := do
  modify fun x => { x with rep3 := x.rep2, rep2 := x.rep1, rep1 := x.rep0 }
  let len ← coding (lenDecode .len ps)
  modify fun x => { x with state := if x.state < 7 then 7 else 10 }
  let slot ← coding (tree (.slot (if len < 3 then len else 3)) 6)
  let d ← coding (distance slot)
  modify fun x => { x with rep0 := d }
  return len

/-- One of the last distances again, once it is not the last one. -/
def olderRep : Prog (Xz σ τ) Unit := do
  let x ← get
  if (← coding (bit (.g1 x.state))) = 0 then
    modify fun x => { x with rep0 := x.rep1, rep1 := x.rep0 }
  else if (← coding (bit (.g2 x.state))) = 0 then
    modify fun x => { x with rep0 := x.rep2, rep1 := x.rep0, rep2 := x.rep1 }
  else modify fun x => { x with rep0 := x.rep3, rep1 := x.rep0, rep2 := x.rep1, rep3 := x.rep2 }

/-- The length of a match at one of the last distances, less 2. -/
def repMatch (ps : ℕ) : Prog (Xz σ τ) ℕ := do
  let len ← coding (lenDecode .repLen ps)
  modify fun x => { x with state := if x.state < 7 then 8 else 11 }
  return len

/-- The end of a turn: `len` is copied, two more than it was given as. -/
def copied (left len : ℕ) : Prog (Xz σ τ) (Turn ℕ Bool) := do
  let len := len + 2
  if left < len then return .leave false
  else if ← windowed (Window.copy ((← get).rep0 + 1) len) then return .again (left - len)
  else return .leave false

/-- A short rep. -/
def shortRep (left : ℕ) : Prog (Xz σ τ) (Turn ℕ Bool) := do
  modify fun x => { x with state := if x.state < 7 then 9 else 11 }
  if ← windowed (Window.copy ((← get).rep0 + 1) 1) then return .again (left - 1)
  else return .leave false

/-- A turn of the loop of `lzma_chunk`. -/
def packet (left : ℕ) : Prog (Xz σ τ) (Turn ℕ Bool) := do
  if 0 < left then
    let x ← get
    let ps := x.window.total.toNat &&& (1 <<< x.pb - 1)
    if x.coder.src.bad = true ∨ x.window.wstop = true then return .leave false
    else if (← coding (bit (.isMatch (x.state <<< 4 ||| ps)))) = 0 then
      literal
      return .again (left - 1)
    else if (← coding (bit (.isRep x.state))) = 0 then copied left (← newMatch ps)
    else if (← coding (bit (.g0 x.state))) = 0 then
      if (← coding (bit (.rep0Long (x.state <<< 4 ||| ps)))) = 0 then shortRep left
      else copied left (← repMatch ps)
    else
      olderRep
      copied left (← repMatch ps)
  else return .leave true

/-- `lzma_chunk`. -/
def lzmaChunk (turns left : ℕ) : Prog (Xz σ τ) Bool := loop packet turns left

/-! ### `lzma2` -/

/-- `src_byte(in)`. -/
def byte : Prog (Xz σ τ) ℕ := do
  let b ← coding Coder.byte
  return b.toNat

/-- `src_read(in, ..)`. -/
def read (n : ℕ) : Prog (Xz σ τ) (Bool × List UInt8) := do
  let x ← get
  let taken := srcRead n x.coder.src
  set { x with coder := { x.coder with src := taken.2 } }
  return taken.1

/-- Two bytes, the high one first, and 1. -/
def size16 (high : ℕ) : Prog (Xz σ τ) ℕ := do
  let b1 ← byte
  let b0 ← byte
  return (high <<< 16 ||| b1 <<< 8 ||| b0) + 1

/-- The loop over a stored chunk. -/
def storedOn : ℕ → Prog (Xz σ τ) Unit
  | 0 => pure ()
  | n + 1 => do
    if (← get).coder.src.bad then pure ()
    else
      let b ← byte
      windowed (Window.put (UInt8.ofNat b))
      storedOn n

/-- A turn of a loop that takes bytes as long as `count` asks for more. -/
def takeTurn (more : ℕ → Bool) (_ : Unit) : Prog (Xz σ τ) (Turn Unit Unit) := do
  let x ← get
  if more x.coder.src.count = true ∧ x.coder.src.bad = false then
    let _ ← byte
    return .again ()
  else return .leave ()

/-- `total = 0`. -/
def forget : Prog (Xz σ τ) Unit := modify fun x => { x with window := { x.window with total := 0 } }

/-- `props`, once the byte that may come for them has been read; `false` too where it is refused. -/
def setProps (reset : ℕ) (props : Bool) : Prog (Xz σ τ) Bool := do
  if 2 ≤ reset then
    let b ← byte
    if 224 < b then return false
    else
      modify fun x => { x with lc := b % 9, lp := b / 9 % 5, pb := b / 45 }
      return decide (b % 9 + b / 9 % 5 ≤ 4)
  else return props

/-- A chunk once its sizes and what it resets are known. -/
def packed (turns un pk : ℕ) : Prog (Xz σ τ) (Turn Bool Bool) := do
  let start := (← get).coder.src.count
  coding rcInit
  if ← lzmaChunk turns un then
    loop (takeTurn fun count => count < start + pk) turns ()
    return .again true
  else return .leave false

/-- A chunk that is not stored, of control byte `c`. -/
def chunk (turns c : ℕ) (props : Bool) : Prog (Xz σ τ) (Turn Bool Bool) := do
  let un ← size16 (c &&& 0x1F)
  let pk ← size16 0
  let reset := c >>> 5 &&& 3
  given (reset = 3) forget
  if ← setProps reset props then
    given (1 ≤ reset) lzmaReset
    packed turns un pk
  else return .leave false

/-- A turn of the loop of `lzma2`. -/
def lzma2Turn (turns : ℕ) (props : Bool) : Prog (Xz σ τ) (Turn Bool Bool) := do
  let c ← byte
  let x ← get
  if x.coder.src.bad = true ∨ x.window.wstop = true then return .leave false
  else if c = 0 then return .leave true
  else if c = 1 ∨ c = 2 then
    let n ← size16 0
    given (c = 1) forget
    storedOn n
    return .again props
  else if c < 0x80 then return .leave false
  else chunk turns c props

/-- `lzma2`. -/
def lzma2 (turns : ℕ) : Prog (Xz σ τ) Bool := loop (lzma2Turn turns) turns false

/-! ### `unxz` -/

/-- The size of `h`. -/
def headerRoom : ℕ := 1024

/-- `h[i]`. -/
def headerAt (h : ℕ → UInt8) (i : ℕ) : Prog (Xz σ τ) UInt8 := if i < headerRoom then pure (h i) else failure

/-- The header with bytes read into it from `start` on. -/
def readInto (h : ℕ → UInt8) (start : ℕ) (l : List UInt8) : Prog (Xz σ τ) (ℕ → UInt8) :=
  if start + l.length ≤ headerRoom then pure fun i => if start ≤ i then l.getD (i - start) (h i) else h i
  else failure

/-- The loop of `vli`, with `n` turns to come: the number, and where it ends. -/
def vliOn (h : ℕ → UInt8) (stop : ℕ) : ℕ → ℕ → ℕ → ℕ → Prog (Xz σ τ) (ℕ × ℕ)
  | 0, _, i, v => pure (v, i)
  | n + 1, k, i, v => do
    if i < stop then
      let b ← headerAt h i
      let v := v ||| (b.toNat &&& 0x7F) <<< (7 * k)
      if b.toNat &&& 0x80 = 0 then return (v, i + 1) else vliOn h stop n (k + 1) (i + 1) v
    else return (v, i)

/-- `vli`. -/
def vli (h : ℕ → UInt8) (start stop : ℕ) : Prog (Xz σ τ) (ℕ × ℕ) := vliOn h stop 9 0 start 0

/-- A number that is there only if a flag is set, and 0 else. -/
def flagged (flag : Bool) (h : ℕ → UInt8) (start stop : ℕ) : Prog (Xz σ τ) (ℕ × ℕ) :=
  if flag then vli h start stop else pure (0, start)

/-- What a block's header says: what the block unpacks to, if it says, and the byte for the size of its
dictionary; `none` where the block is refused. -/
def blockHeader (h : ℕ → UInt8) (hs : ℕ) : Prog (Xz σ τ) (Option (ℕ × ℕ)) := do
  let flags ← headerAt h 1
  let packed ← flagged (flags &&& 0x40 != 0) h 2 hs
  let block ← flagged (flags &&& 0x80 != 0) h packed.2 hs
  let id ← vli h block.2 hs
  let props ← vli h id.2 hs
  if id.1 ≠ 0x21 ∨ props.1 ≠ 1 then return none
  else
    let dict ← headerAt h props.2
    if 40 < dict.toNat then return none else return some (block.1, dict.toNat)

/-- The size of the window. -/
def dictionary (dict size : ℕ) : ℕ :=
  let all := if dict = 40 then 0xFFFFFFFF else (2 ||| dict &&& 1) <<< (dict / 2 + 11)
  let all := if size ≠ 0 ∧ size < all then size else all
  if all < 4096 then 4096 else all

/-- What the loop over the blocks keeps: whether `p` is there, `size`, and the header. -/
structure Blocks where
  begun : Bool
  size : ℕ
  h : ℕ → UInt8

/-- `size`, which at the first block is what that unpacks to where it was not known. -/
def Blocks.sizeAt (k : Blocks) (block : ℕ) : ℕ := if !k.begun && k.size = 0 then block else k.size

/-- `p` and the window are there, or come to be at the first block. -/
def ready (room : Bool) (got : Option (ℕ → UInt8)) (out : List UInt8 → τ → Bool × τ) (k : Blocks)
    (dict size : ℕ) : Prog (Xz σ τ) Bool :=
  if k.begun then pure true
  else if room then windowed (Window.windowOpen got (dictionary dict size) out)
  else pure false

/-- A block after its header, which began at `start`. -/
def blockBody (turns : ℕ) (room : Bool) (got : Option (ℕ → UInt8)) (out : List UInt8 → τ → Bool × τ)
    (check start : ℕ) (k : Blocks) (block dict : ℕ) : Prog (Xz σ τ) (Turn Blocks Bool) := do
  if ← ready room got out k dict (k.sizeAt block) then
    if ← lzma2 turns then
      loop (takeTurn fun count => (count - start) % 4 ≠ 0) turns ()
      let _ ← read check
      return .again { k with begun := true, size := k.sizeAt block }
    else return .leave false
  else return .leave false

/-- A turn of the loop over the blocks. -/
def blockTurn (turns : ℕ) (room : Bool) (got : Option (ℕ → UInt8)) (out : List UInt8 → τ → Bool × τ)
    (check : ℕ) (k : Blocks) : Prog (Xz σ τ) (Turn Blocks Bool) := do
  let start := (← get).coder.src.count
  let hs ← byte
  let bad := (← get).coder.src.bad
  if bad = true ∨ hs = 0 then return .leave !bad
  else
    let hs := (hs + 1) * 4
    let r ← read (hs - 1)
    let h ← readInto k.h 1 r.2
    if !r.1 || (h 1).toNat &&& 3 != 0 then return .leave false
    else
      match ← blockHeader h hs with
      | none => return .leave false
      | some (block, dict) => blockBody turns room got out check start { k with h } block dict

/-- `unxz`, given whether `xalloc` gives room for `p`, what it gives for the window, and what is in `h`,
from what the last call left. -/
def unxz (turns : ℕ) (room : Bool) (got : Option (ℕ → UInt8)) (h : ℕ → UInt8) (size : ℕ)
    (out : List UInt8 → τ → Bool × τ) : Prog (Xz σ τ) Bool := do
  modify fun x => { x with window := { x.window with win := none } }
  let r ← read 12
  let h ← readInto h 0 r.2
  if !r.1 || h 0 != 0xFD || h 1 != 0x37 || h 2 != 0x7A || h 3 != 0x58 || h 4 != 0x5A || h 5 != 0 then
    return false
  else
    let check := (h 7).toNat &&& 0x0F
    let check := if check = 0 then 0 else 4 <<< ((check - 1) / 3)
    let ok ← loop (blockTurn turns room got out check) turns ⟨false, size, h⟩
    if (← get).window.win.isSome then
      let ok ← windowed (Window.windowClose ok)
      return ok && !(← get).coder.src.bad
    else return ok

/-- The variables as they are before anything was unpacked, and a source in hand. -/
def atFirst (src : Source σ) (out : τ) : Xz σ τ where
  coder := ⟨src, 0, 0, fun _ => 0⟩
  window := ⟨none, 0, 0, 0, fun _ out => (true, out), false, out⟩
  rep0 := 0
  rep1 := 0
  rep2 := 0
  rep3 := 0
  lc := 0
  lp := 0
  pb := 0
  state := 0

end Xz

end BaxOS.Unpack
