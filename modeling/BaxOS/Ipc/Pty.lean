import Mathlib.Tactic

/-!
# Pseudo-terminals

A terminal of `pty.c`: what its line discipline does with a character typed, what the slave's writes put
out, and what the two ends' reads take. The queues are lists, of at most `QUEUE` bytes.

Signals, windows and the descriptors' numbers are left out.
-/

namespace BaxOS.Terminal

/-- `QUEUE` and `LINE`. -/
def queue : ℕ := 4096
def lineMost : ℕ := 256

/-- The characters the code has by name. -/
def backspace : UInt8 := 8
def tab : UInt8 := 9
def newline : UInt8 := 10
def carriage : UInt8 := 13
def space : UInt8 := 32
def caret : UInt8 := 94

/-- `struct termios`, its flags and `cc`. -/
structure Termios where
  iflag : ℕ
  oflag : ℕ
  lflag : ℕ
  cc : ℕ → UInt8

namespace Termios

def icrnl (t : Termios) : Bool := t.iflag.testBit 8
def opost (t : Termios) : Bool := t.oflag.testBit 0
def onlcr (t : Termios) : Bool := t.oflag.testBit 2
def isig (t : Termios) : Bool := t.lflag.testBit 0
def icanon (t : Termios) : Bool := t.lflag.testBit 1
def echo (t : Termios) : Bool := t.lflag.testBit 3
def echoe (t : Termios) : Bool := t.lflag.testBit 4
def echoctl (t : Termios) : Bool := t.lflag.testBit 9

/-- `VINTR` to `VWERASE`. -/
def vintr (t : Termios) : UInt8 := t.cc 0
def vquit (t : Termios) : UInt8 := t.cc 1
def verase (t : Termios) : UInt8 := t.cc 2
def vkill (t : Termios) : UInt8 := t.cc 3
def veof (t : Termios) : UInt8 := t.cc 4
def vmin (t : Termios) : UInt8 := t.cc 6
def veol (t : Termios) : UInt8 := t.cc 11
def vwerase (t : Termios) : UInt8 := t.cc 14

/-- What `pty_open` gives a terminal. -/
def cooked : Termios where
  iflag := 0x500
  oflag := 5
  lflag := 0x8A3B
  cc i := [3, 0x1C, 0x7F, 0x15, 4, 0, 1, 0, 0x11, 0x13, 0x1A, 0, 0x12, 0x0F, 0x17, 0x16, 0].getD i 0

end Termios

/-- `struct pty`. -/
structure Pty where
  masters : ℕ
  slaves : ℕ
  opened : Bool
  eof : Bool
  t : Termios
  inq : List UInt8
  out : List UInt8
  line : List UInt8

namespace Pty

/-! ### The line discipline -/

/-- `out_put`. -/
def outPut (p : Pty) (c : UInt8) : Pty := if p.out.length < queue then { p with out := p.out ++ [c] } else p

/-- `output`. -/
def output (p : Pty) (c : UInt8) : Pty :=
  (if p.t.opost && p.t.onlcr && c = newline then p.outPut carriage else p).outPut c

/-- `echo`. -/
def echo (p : Pty) (c : UInt8) : Pty :=
  if !p.t.echo then p
  else if p.t.echoctl && c < space && c ≠ newline && c ≠ tab then (p.output caret).output (c + 64)
  else p.output c

/-- `erase_one`. -/
def eraseOne (p : Pty) : Pty :=
  if p.line = [] then p
  else
    let p := { p with line := p.line.dropLast }
    if p.t.echo && p.t.echoe then ((p.output backspace).output space).output backspace else p

/-- A loop of `erase_one`, while the last of the line is so. -/
def eraseWhile (which : UInt8 → Bool) : ℕ → Pty → Pty
  | 0, p => p
  | n + 1, p => if p.line.getLast?.any which then eraseWhile which n p.eraseOne else p

/-- Such a loop ends with the line. -/
def erase (p : Pty) (which : UInt8 → Bool) : Pty := eraseWhile which p.line.length p

/-- `line_done`. -/
def lineDone (p : Pty) : Pty :=
  let n := min p.line.length (queue - p.inq.length)
  { p with inq := p.inq ++ p.line.take n, line := [] }

/-- A character typed goes into the line, if it has room, and is echoed. -/
def gather (p : Pty) (c : UInt8) : Pty := Pty.echo { p with line := p.line ++ [c] } c

/-- Whether a character is a signal. -/
def signals (t : Termios) (c : UInt8) : Bool := t.isig && (c = t.vintr || c = t.vquit)

/-- A character typed as it is taken. -/
def typed (t : Termios) (c : UInt8) : UInt8 := if c = carriage && t.icrnl then newline else c

/-- `input`. -/
def input (p : Pty) (c : UInt8) : Pty :=
  let c := typed p.t c
  if signals p.t c then { p.echo c with line := [], inq := [] }
  else if !p.t.icanon then
    (if p.inq.length < queue then { p with inq := p.inq ++ [c] } else p).echo c
  else if c = p.t.verase ∨ c = backspace then p.eraseOne
  else if c = p.t.vkill then p.erase fun _ => true
  else if c = p.t.vwerase then (p.erase (· = space)).erase (· ≠ space)
  else if c = p.t.veof ∧ p.t.veof ≠ 0 then Pty.lineDone { p with eof := p.line = [] }
  else if c = newline ∨ p.t.veol ≠ 0 ∧ c = p.t.veol then
    (if p.line.length < lineMost then { p with line := p.line ++ [c] } else p).echo c |>.lineDone
  else if p.line.length < lineMost - 1 then p.gather c
  else p

/-! ### The descriptors -/

/-- `slave_can_write`. -/
def slaveCanWrite (p : Pty) : Bool := p.out.length < queue || p.masters = 0

/-- `slave_can_read`. -/
def slaveCanRead (p : Pty) : Bool :=
  p.inq ≠ [] || p.eof || p.masters = 0 || !p.t.icanon && p.t.vmin = 0

/-- `pty_read` of the master, where it has something to read. -/
def masterRead (p : Pty) (count : ℕ) : List UInt8 × Pty := (p.out.take count, { p with out := p.out.drop count })

/-- How much `pty_read` of the slave takes: up to a newline, if there is one and it has the room. -/
def readCount (p : Pty) (count : ℕ) : ℕ :=
  let stop := (p.inq.takeWhile (· ≠ newline)).length
  if p.t.icanon && stop < p.inq.length && stop + 1 < count then stop + 1 else count

/-- The `TCSETS` of `pty_ioctl`, and with `flush` its `TCSETSF`. -/
def setTermios (p : Pty) (t : Termios) (flush : Bool) : Pty :=
  let p := { p with t, inq := if flush then [] else p.inq, line := if flush then [] else p.line }
  if !t.icanon && p.line ≠ [] then p.lineDone else p

/-- `pty_read` of the slave: what it reads, or that it waits. -/
def slaveRead (p : Pty) (count : ℕ) : Option (List UInt8) × Pty :=
  if !p.slaveCanRead then (none, p)
  else if p.inq = [] then (some [], { p with eof := false })
  else
    let n := p.readCount count
    (some (p.inq.take n), { p with inq := p.inq.drop n })

end Pty
end BaxOS.Terminal
