import Mathlib.Logic.Function.Basic
import BaxOS.Lib.Store

/-!
# Pipes

`struct pipe` of `kernel/syscall.c` and what reads and writes one: pipes, FIFOs and socketpair ends.

A call that waits does so in turns: a turn is what it does from its start, or from where
`thread_yield` comes back, up to its return or the next `thread_yield`. What it finds there that is
not the pipe's own is the caller's to say: whether `mem_alloc` has memory for the buffer's growth,
whether the descriptor waits, whether anything else runs, and whether a signal is there to handle.
-/

namespace BaxOS.Ipc
open ByteStore Function

/-- `PIPES`. -/
def pipeSlots : ℕ := 256
/-- `PIPE_FIRST`. -/
def pipeFirst : ℕ := 8192
/-- `PIPE_CAP`. -/
def pipeCap : ℕ := 64 * 1024

/-- `struct pmsg`: where a message's bytes start in what has ever been written, how many there are,
and the descriptors sent with it. -/
structure Pmsg (D : Type) where
  at_ : ℕ
  len : ℕ
  fds : List D

/-- `struct pipe`. -/
structure Pipe (D : Type) where
  data : Store
  size : ℕ
  len : ℕ
  readAt : ℕ
  refs : ℕ
  count : ℕ
  fifo : ℕ
  packets : Bool
  wrote : ℕ
  taken : ℕ
  msgs : List (Pmsg D)
  msgRoom : ℕ

/-- Why a call fails. -/
inductive Errno
  | eagain
  | eintr
  | epipe
  | ebadf
  | efault
  | einval
  | emsgsize
  | enobufs
  deriving DecidableEq

/-- What a turn comes to: the call returns, or waits, with what it goes on with. -/
inductive Turn (κ ρ : Type)
  | returns (r : Except Errno ρ)
  | waits (k : κ)

/-- What a turn returned, if it did. -/
def Turn.result {κ ρ : Type} : Turn κ ρ → Option (Except Errno ρ)
  | .returns r => some r
  | .waits _ => none

/-- What a turn finds: `O_NONBLOCK`, `thread_only` and `interrupt_check`. -/
structure Looks where
  nonblock : Bool
  alone : Bool
  interrupted : Bool

/-- What `PIPE_READ` to `PIPE_BUFFER` say a descriptor is; a socketpair's end has the slot of the
pipe it writes to. -/
inductive Kind
  | read
  | write
  | event
  | file
  | pair (out : Option ℕ)
  | buffer
  deriving DecidableEq

variable {D : Type}

namespace Pipe

/-- A slot that is free. -/
def free : Pipe D := ⟨fun _ => 0, 0, 0, 0, 0, 0, 0, false, 0, 0, [], 0⟩

/-- `pipe_left`. -/
def left (p : Pipe D) : ℕ := p.len - p.readAt

/-- What waits in a pipe. -/
def bytes (p : Pipe D) : List UInt8 := (List.range p.left).map fun i => p.data (p.readAt + i)

/-- What has been read moved out of the way. -/
def compact (p : Pipe D) : Pipe D :=
  if 0 < p.readAt then
    { p with
      data := blit p.data 0 (p.len - p.readAt) fun i => p.data (p.readAt + i)
      len := p.len - p.readAt
      readAt := 0 }
  else p

/-- `while (want < need) want *= 2`, which does not end from 0. -/
def widen (want need : ℕ) : ℕ → ℕ
  | 0 => want
  | n + 1 => if want < need then widen (2 * want) need n else want

/-- `pipe_put`: as much as there is room for, and how much that was. -/
def put (p : Pipe D) (from_ : List UInt8) (alloc : Bool) : Pipe D × ℕ :=
  let p := p.compact
  let count := min from_.length (pipeCap - p.len)
  if p.size < p.len + count ∧ alloc = false then (p, 0)
  else
    ({ p with
      size := widen p.size (p.len + count) (p.len + count)
      data := blit p.data p.len count fun i => from_.getD i 0
      len := p.len + count
      wrote := p.wrote + count }, count)

/-- `pipe_read`. -/
def take (p : Pipe D) (count : ℕ) : Pipe D × List UInt8 :=
  let count := min count p.left
  let got := (List.range count).map fun i => p.data (p.readAt + i)
  let p := { p with readAt := p.readAt + count, taken := p.taken + count }
  (if p.readAt = p.len then { p with readAt := 0, len := 0 } else p, got)

/-- `readable`, of an end that reads. -/
def readable (p : Pipe D) : Bool := p.readAt < p.len || p.count = 0

/-- What a write that can put no more returns. -/
def stopped (done : ℕ) (e : Errno) : Except Errno ℕ := if 0 < done then .ok done else .error e

/-- A turn of `pipe_write`, with `done` bytes in already and `rest` to go: `ends` is whether the
descriptor is a write end. -/
def write (ends : Bool) (a : Looks) (alloc : ℕ → Bool) (p : Pipe D) (rest : List UInt8) (done : ℕ) :
    Pipe D × Turn (List UInt8 × ℕ) ℕ :=
  if rest = [] then (p, .returns (.ok done))
  else if ends = true ∧ p.refs ≤ p.count then (p, .returns (stopped done .epipe))
  else
    let (p', n) := p.put rest (alloc 0)
    if _ : 0 < n then write ends a (fun k => alloc (k + 1)) p' (rest.drop n) (done + n)
    else if a.nonblock || a.alone then (p', .returns (stopped done .eagain))
    else if a.interrupted then (p', .returns (stopped done .eintr))
    else (p', .waits (rest, done))
  termination_by rest.length
  decreasing_by
    rw [List.length_drop]
    have : 0 < rest.length := List.length_pos_iff.2 ‹_›
    omega

/-- A turn of the wait for something to read, where the call has more to wait for. -/
def await {ρ : Type} (a : Looks) (dontwait : Bool) (p : Pipe D) : Option (Turn Unit ρ) :=
  if p.readable then none
  else if a.nonblock || dontwait then some (.returns (.error .eagain))
  else if a.alone then none
  else if a.interrupted then some (.returns (.error .eintr))
  else some (.waits ())

/-- A turn of `event_read`. -/
def event (semaphore : Bool) (a : Looks) (p : Pipe D) (count : ℕ) :
    Pipe D × Turn Unit (List UInt8) :=
  if count < 8 then (p, .returns (.error .einval))
  else if p.count = 0 then
    if a.nonblock || a.alone then (p, .returns (.error .eagain))
    else if a.interrupted then (p, .returns (.error .eintr))
    else (p, .waits ())
  else
    let took := if semaphore then 1 else p.count
    ({ p with count := p.count - took }, .returns (.ok ((List.range 8).map (wordBytes took))))

end Pipe

/-! ### Descriptors -/

/-- A descriptor on a pipe: its slot and which end it is. -/
structure End where
  slot : ℕ
  kind : Kind
  deriving DecidableEq

/-- `pipe_of`. -/
def pipeOf (t : ℕ → Pipe D) (e : End) : Option ℕ :=
  if e.slot < pipeSlots ∧ 0 < (t e.slot).refs then some e.slot else none

/-- `pair_out`: the pipe a socketpair's end writes to. -/
def pairOut (t : ℕ → Pipe D) (e : End) : Option ℕ :=
  match e.kind with
  | .pair (some out) => if out < pipeSlots ∧ 0 < (t out).refs then some out else none
  | _ => none

/-- `written`: the pipe a descriptor writes to. -/
def written (t : ℕ → Pipe D) (e : End) : Option ℕ :=
  if e.kind = .write then pipeOf t e else pairOut t e

/-- A pipe changed, if there is one. -/
def change (t : ℕ → Pipe D) (i : Option ℕ) (f : Pipe D → Pipe D) : ℕ → Pipe D :=
  match i with
  | none => t
  | some i => update t i (f (t i))

/-- `pipe_hold`. -/
def pipeHold (t : ℕ → Pipe D) (e : End) : ℕ → Pipe D :=
  let p := pipeOf t e
  let out := pairOut t e
  let w := written t e
  let t := change t p fun p => { p with refs := p.refs + 1 }
  let t := change t out fun p => { p with refs := p.refs + 1 }
  change t w fun p => { p with count := p.count + 1 }

/-- `pipe_drop`, and the descriptors sent and never received that go with it. -/
def pipeDrop (t : ℕ → Pipe D) (i : Option ℕ) : (ℕ → Pipe D) × List D :=
  match i with
  | none => (t, [])
  | some i =>
    if (t i).refs = 1 then (update t i Pipe.free, (t i).msgs.flatMap Pmsg.fds)
    else (update t i { t i with refs := (t i).refs - 1 }, [])

/-- `pipe_release`. -/
def pipeRelease (t : ℕ → Pipe D) (e : End) : (ℕ → Pipe D) × List D :=
  let t := change t (written t e) fun p => { p with count := p.count - 1 }
  let (t, out) := pipeDrop t (pairOut t e)
  let (t, own) := pipeDrop t (pipeOf t e)
  (t, out ++ own)

/-- `pipe_slot`. -/
def pipeSlot (t : ℕ → Pipe D) : Option ℕ :=
  (List.range pipeSlots).find? fun i => (t i).refs = 0

end BaxOS.Ipc
