import BaxOS.Lib.Pieces

/-!
# The keyboard and the console's keys

`key_byte` turns a scancode into the characters a key types and pushes them into the driver's
`keys`; `gather` takes them from there, one by one, into the console's `typed`, and `take_key` hands
them on. A character here is a piece of the text its key typed; the code reads only what the piece
carries. A ring is the list of what is in it, the oldest first, and the PS/2 keyboard is the one that
types.
-/

namespace BaxOS.Console
open Pieces

/-- `SC_RELEASE`: the bit a scancode has when its key comes up. -/
def scRelease : UInt8 := 0x80
def scExtended : UInt8 := 0xE0
def scLshift : UInt8 := 0x2A
def scRshift : UInt8 := 0x36
def scCtrl : UInt8 := 0x1D
def scCaps : UInt8 := 0x3A
def scAlt : UInt8 := 0x38

def escape : UInt8 := 27

/-- Scancode set 1, up to the space bar; at 0 there is no character. -/
def unshifted : List UInt8 :=
  [0x00, 0x1B, 0x31, 0x32, 0x33, 0x34, 0x35, 0x36, 0x37, 0x38, 0x39, 0x30, 0x2D, 0x3D,
   0x08, 0x09, 0x71, 0x77, 0x65, 0x72, 0x74, 0x79, 0x75, 0x69, 0x6F, 0x70, 0x5B, 0x5D,
   0x0A, 0x00, 0x61, 0x73, 0x64, 0x66, 0x67, 0x68, 0x6A, 0x6B, 0x6C, 0x3B, 0x27, 0x60,
   0x00, 0x5C, 0x7A, 0x78, 0x63, 0x76, 0x62, 0x6E, 0x6D, 0x2C, 0x2E, 0x2F, 0x00, 0x2A,
   0x00, 0x20]

def shifted : List UInt8 :=
  [0x00, 0x1B, 0x21, 0x40, 0x23, 0x24, 0x25, 0x5E, 0x26, 0x2A, 0x28, 0x29, 0x5F, 0x2B,
   0x08, 0x09, 0x51, 0x57, 0x45, 0x52, 0x54, 0x59, 0x55, 0x49, 0x4F, 0x50, 0x7B, 0x7D,
   0x0A, 0x00, 0x41, 0x53, 0x44, 0x46, 0x47, 0x48, 0x4A, 0x4B, 0x4C, 0x3A, 0x22, 0x7E,
   0x00, 0x7C, 0x5A, 0x58, 0x43, 0x56, 0x42, 0x4E, 0x4D, 0x3C, 0x3E, 0x3F, 0x00, 0x2A,
   0x00, 0x20]

/-- What a key with no character of its own sends, behind `E0`. -/
def greyKey (code : UInt8) : Option (List UInt8) :=
  match code with
  | 0x48 => some [27, 0x5B, 0x41]
  | 0x50 => some [27, 0x5B, 0x42]
  | 0x4D => some [27, 0x5B, 0x43]
  | 0x4B => some [27, 0x5B, 0x44]
  | 0x47 => some [27, 0x5B, 0x48]
  | 0x4F => some [27, 0x5B, 0x46]
  | 0x52 => some [27, 0x5B, 0x32, 0x7E]
  | 0x53 => some [27, 0x5B, 0x33, 0x7E]
  | 0x49 => some [27, 0x5B, 0x35, 0x7E]
  | 0x51 => some [27, 0x5B, 0x36, 0x7E]
  | _ => none

/-- F1 to F12. -/
def functionKey (code : UInt8) : Option (List UInt8) :=
  match code with
  | 0x3B => some [27, 0x5B, 0x5B, 0x41]
  | 0x3C => some [27, 0x5B, 0x5B, 0x42]
  | 0x3D => some [27, 0x5B, 0x5B, 0x43]
  | 0x3E => some [27, 0x5B, 0x5B, 0x44]
  | 0x3F => some [27, 0x5B, 0x5B, 0x45]
  | 0x40 => some [27, 0x5B, 0x31, 0x37, 0x7E]
  | 0x41 => some [27, 0x5B, 0x31, 0x38, 0x7E]
  | 0x42 => some [27, 0x5B, 0x31, 0x39, 0x7E]
  | 0x43 => some [27, 0x5B, 0x32, 0x30, 0x7E]
  | 0x44 => some [27, 0x5B, 0x32, 0x31, 0x7E]
  | 0x57 => some [27, 0x5B, 0x32, 0x33, 0x7E]
  | 0x58 => some [27, 0x5B, 0x32, 0x34, 0x7E]
  | _ => none

/-- The keys held down, Caps Lock, and whether `E0` was the last byte. -/
structure Mods where
  shift : Bool := false
  ctrl : Bool := false
  alt : Bool := false
  caps : Bool := false
  extended : Bool := false
  deriving DecidableEq

/-- What a key that has one types: its character with Caps Lock and Ctrl, or 0. -/
def plainChar (m : Mods) (wasExtended : Bool) (code : UInt8) : UInt8 :=
  let c :=
    if wasExtended then if code = 0x1C then 0x0A else if code = 0x35 then 0x2F else 0
    else if code < 0x3A then
      let c := (if m.shift then shifted else unshifted).getD code.toNat 0
      if m.caps ∧ ((0x61 ≤ c ∧ c ≤ 0x7A) ∨ (0x41 ≤ c ∧ c ≤ 0x5A)) then c ^^^ 0x20 else c
    else 0
  if m.ctrl ∧ 0x40 ≤ c ∧ c < 0x7F then if 0x61 ≤ c then c - 0x61 + 1 else c - 0x40 else c

/-- `key_byte`: the modifiers after a byte, and the characters given to `key_push`; one that is 0 is
not pushed. -/
def keyByte (m : Mods) (code : UInt8) : Mods × List UInt8 :=
  let key := code &&& ~~~ scRelease
  let down := code &&& scRelease = 0
  let n := { m with extended := code = scExtended }
  if code = scExtended then (n, [])
  else if key = scLshift ∨ key = scRshift then
    (if m.extended then n else { n with shift := down }, [])
  else if key = scCtrl then ({ n with ctrl := down }, [])
  else if key = scAlt then ({ n with alt := down }, [])
  else if ¬ down then (n, [])
  else if code = scCaps then ({ n with caps := ! m.caps }, [])
  else
    match if m.extended then greyKey code else functionKey code with
    | some text => (n, text)
    | none =>
      let c := plainChar m m.extended code
      (n, if c = 0 then [] else if m.alt then [escape, c] else [c])

/-! ### The queue of the driver -/

/-- `KEYS`. -/
def keysMax : ℕ := 16

/-- `key_push`. -/
def keyPush (keys : List (Piece UInt8)) (p : Piece UInt8) : List (Piece UInt8) :=
  if value p ≠ 0 ∧ keys.length < keysMax then keys ++ [p] else keys

/-! ### The console -/

/-- `TYPED`. -/
def typedMax : ℕ := 32

/-- `VINTR`: Ctrl-C. -/
def vintr : UInt8 := 3

/-- `VQUIT`: Ctrl-\. -/
def vquit : UInt8 := 0x1C

/-- `FORCE_AFTER`. -/
def forceAfter : ℕ := 3

/-- `CONSOLE_FORCE`: what `signalled` is for a program to be ended whatever it does. -/
def consoleForce : ℕ := 9

/-- The driver's queue and modifiers and the console's, with the texts of the keys pressed and the
characters taken. -/
structure Keyboard where
  mods : Mods := {}
  keys : List (Piece UInt8) := []
  typed : List (Piece UInt8) := []
  signalled : ℕ := 0
  unreadIntr : ℕ := 0
  keysOff : Bool := false
  isig : Bool := false
  pressed : List (List UInt8) := []
  taken : List (Piece UInt8) := []

/-- What happens to it: a scancode, a turn of `gather`'s loop with a key in the queue (`idle` is
whether nothing has been read for `FORCE_IDLE`), a key handed on by `take_key`, `console_signal`,
`console_reset`, `console_keys` and `console_set`. -/
inductive Event
  | code (b : UInt8)
  | gather (idle : Bool)
  | take
  | signal
  | reset
  | turn (on : Bool)
  | set (isig : Bool)
  deriving DecidableEq

namespace Keyboard

/-- `gather`, with the character it was given. -/
def gathered (s : Keyboard) (p : Piece UInt8) (idle : Bool) : Keyboard :=
  let c := value p
  let s := { s with unreadIntr := if c = vintr then (s.unreadIntr + 1) % 2 ^ 32 else 0 }
  if forceAfter ≤ s.unreadIntr ∧ idle then { s with signalled := consoleForce, typed := [] }
  else if s.keysOff then s
  else if s.isig ∧ (c = vintr ∨ c = vquit) then
    { s with signalled := if c = vintr then 2 else 3, typed := [] }
  else if s.typed.length < typedMax then { s with typed := s.typed ++ [p] }
  else s

/-- What an event does. All but a scancode and a turn of `gather` come after `gather` has emptied the
queue: one before it has says nothing. -/
def step (s : Keyboard) : Event → Keyboard
  | .code b =>
    let (mods, text) := keyByte s.mods b
    { s with
      mods, keys := (pieces text).foldl keyPush s.keys
      pressed := s.pressed ++ [text] }
  | .gather idle =>
    match s.keys with
    | [] => s
    | p :: keys => { s with keys }.gathered p idle
  | .take =>
    match s.keys, s.typed with
    | [], p :: typed =>
      if s.signalled ≠ 0 then s
      else { s with typed, unreadIntr := 0, taken := s.taken ++ [p] }
    | _, _ => s
  | .signal =>
    if s.keys ≠ [] then s
    else { s with
      signalled := 0, unreadIntr := if s.signalled = consoleForce then 0 else s.unreadIntr }
  | .reset =>
    if s.keys ≠ [] then s
    else { s with typed := [], signalled := 0, unreadIntr := 0, isig := true }
  | .turn on => if s.keys ≠ [] then s else { s with keysOff := ! on }
  | .set isig => if s.keys ≠ [] then s else { s with isig }

/-- A run from the start of the machine. -/
def run (es : List Event) : Keyboard := es.foldl step {}

/-- **Keys arrive whole**: the characters taken are texts of keys pressed, in order, but for what is
still in `typed` of the last. -/
def ArriveWhole (s : Keyboard) : Prop :=
  ∃ (ks : List (List UInt8)) (rest : List UInt8), ks.Sublist s.pressed ∧
    s.taken.map value ++ rest = ks.flatten ∧ rest <+: s.typed.map value

end Keyboard

end BaxOS.Console
