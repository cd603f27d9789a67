import BaxOS.Lib.Programs
import BaxOS.Tuxpac.Unpack

/-!
# Unpacking: runs of bytes read, and the window

`src_read`, and the window that both decoders write through: `window_open`, `window_close`, `put`, `back`
and `copy`.
-/

namespace BaxOS.Unpack
open Function Programs

variable {σ τ : Type}

/-! ### Sources -/

/-- `src_read`: whether all the bytes were there, those that were, and the source then. A run is taken
from `buf` a byte at a time. -/
def srcRead : ℕ → Source σ → (Bool × List UInt8) × Source σ
  | 0, s => ((true, []), s)
  | n + 1, s =>
    let taken := srcByte s
    if s.ahead = [] ∧ (s.bad = true ∨ (s.fill s.more).1 = []) then ((false, []), taken.2)
    else
      let rest := srcRead n taken.2
      ((rest.1.1, taken.1 :: rest.1.2), rest.2)

/-! ### The window -/

/-- `win`, `wsize`, `wpos`, `total`, `wstop`, and `wsink` with what it keeps the bytes in. A window that
is not open is `none`. -/
structure Window (τ : Type) where
  win : Option (ℕ → UInt8)
  wsize : ℕ
  wpos : ℕ
  total : UInt64
  wsink : List UInt8 → τ → Bool × τ
  wstop : Bool
  out : τ

namespace Window

/-- `window_open`, given what `xalloc` gives: memory with anything in it, or none. -/
def windowOpen (got : Option (ℕ → UInt8)) (size : ℕ) (out : List UInt8 → τ → Bool × τ) :
    Prog (Window τ) Bool := do
  modify fun w =>
    { w with win := got, wsize := size, wpos := 0, total := 0, wsink := out, wstop := false }
  return got.isSome

/-- Hands on the first `n` bytes of the window, and says whether the decoder is to stop. -/
def handOn (n : ℕ) : Prog (Window τ) Bool := do
  let w ← get
  match w.win with
  | none => failure
  | some win =>
    let answer := w.wsink ((List.range n).map win) w.out
    set { w with out := answer.2 }
    return !answer.1

/-- `window_close`, up to the test of the source. -/
def windowClose (ok : Bool) : Prog (Window τ) Bool := do
  let w ← get
  let stop ← if w.win.isSome && ok && !w.wstop && decide (0 < w.wpos) then handOn w.wpos else pure false
  modify fun w => { w with win := none, wstop := w.wstop || stop }
  return ok && !(← get).wstop

/-- `win[wpos++] = b; total++`. -/
def store (b : UInt8) : Prog (Window τ) Unit := do
  let w ← get
  match w.win with
  | none => failure
  | some win =>
    if w.wpos < w.wsize then
      set { w with win := some (update win w.wpos b), wpos := w.wpos + 1, total := w.total + 1 }
    else failure

/-- `put`. -/
def put (b : UInt8) : Prog (Window τ) Unit := do
  store b
  let w ← get
  if w.wpos = w.wsize then
    let stop ← handOn w.wsize
    modify fun w => { w with wstop := w.wstop || stop, wpos := 0 }

/-- `back`. A distance it is not for, 0 or more than the window, is `none` as an index out of range is. -/
def back (d : UInt32) : Prog (Window τ) UInt8 := do
  let w ← get
  let i := if d.toNat ≤ w.wpos then w.wpos - d.toNat else (w.wpos + w.wsize + 2 ^ 32 - d.toNat) % 2 ^ 32
  match w.win with
  | none => failure
  | some win => if 1 ≤ d.toNat ∧ d.toNat ≤ w.wsize ∧ i < w.wsize then return win i else failure

/-- The loop of `copy`. -/
def copyOn (d : UInt32) : ℕ → Prog (Window τ) Unit
  | 0 => pure ()
  | len + 1 => do
    put (← back d)
    copyOn d len

/-- `copy`. -/
def copy (d : UInt32) (len : ℕ) : Prog (Window τ) Bool := do
  let w ← get
  if d = 0 ∨ w.total.toNat < d.toNat ∨ w.wsize < d.toNat then return false
  else
    copyOn d len
    return true

end Window

end BaxOS.Unpack
