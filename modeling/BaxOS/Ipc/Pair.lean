import BaxOS.Ipc.Pipe

/-!
# Messages on a socketpair

`pair_put`, `pair_take` and what comes to them: `write_to` and `sys_read` of a pipe, `pair_send` and
`pair_recv`. A descriptor that is sent is whatever the caller says one is.
-/

namespace BaxOS.Ipc
open Function

variable {D : Type}

/-- Whether there is memory for a message's bound, and for the growth each put of each buffer asks. -/
structure Grant where
  push : Bool
  put : ℕ → ℕ → Bool

/-- What a send that waits goes on with: what it is writing, how much of that is in, the buffers
after it, and how much is in of those before. -/
structure Sending where
  rest : List UInt8
  part : ℕ
  iov : List (List UInt8)
  done : ℕ

/-- What a receive comes to: the bytes, the descriptors handed over and those let go of, and whether
a message was cut. -/
structure Taken (D : Type) where
  got : List UInt8
  fds : List D
  dropped : List D
  cut : Bool
  deriving DecidableEq

namespace Pipe

/-- `pmsg_push`. -/
def push (p : Pipe D) (at_ len : ℕ) (fds : List D) (alloc : Bool) : Option (Pipe D) :=
  if p.msgs.length = p.msgRoom then
    if alloc then some { p with
      msgs := p.msgs ++ [⟨at_, len, fds⟩]
      msgRoom := if p.msgRoom = 0 then 4 else p.msgRoom * 2 }
    else none
  else some { p with msgs := p.msgs ++ [⟨at_, len, fds⟩] }

/-- A message's buffers, put one after another. -/
def putAll (alloc : ℕ → ℕ → Bool) : ℕ → Pipe D → List (List UInt8) → Pipe D
  | _, p, [] => p
  | i, p, b :: iov => putAll alloc (i + 1) (p.put b (alloc i 0)).1 iov

/-- A turn of `pair_put` on a packet pair. -/
def sendPacket (a : Looks) (dontwait : Bool) (m : Grant) (p : Pipe D) (iov : List (List UInt8))
    (fds : List D) : Pipe D × Turn Unit ℕ :=
  let total := (iov.map List.length).sum
  if pipeCap < total then (p, .returns (.error .emsgsize))
  else if pipeCap - p.left < total then
    if dontwait || a.nonblock || a.alone then (p, .returns (.error .eagain))
    else if a.interrupted then (p, .returns (.error .eintr))
    else (p, .waits ())
  else
    match p.push p.wrote total fds m.push with
    | none => (p, .returns (.error .enobufs))
    | some p => (putAll m.put 0 p iov, .returns (.ok total))

/-- A turn of `pair_put` on a stream pair, from the buffer it is at. -/
def sendStream (a : Looks) (alloc : ℕ → ℕ → Bool) (i : ℕ) (p : Pipe D) (rest : List UInt8)
    (part : ℕ) (iov : List (List UInt8)) (done : ℕ) : Pipe D × Turn Sending ℕ :=
  match p.write false a (alloc i) rest part, iov with
  | (p, .waits (rest, part)), iov => (p, .waits ⟨rest, part, iov, done⟩)
  | (p, .returns (.error e)), _ => (p, .returns (stopped done e))
  | (p, .returns (.ok r)), [] => (p, .returns (.ok (done + r)))
  | (p, .returns (.ok r)), b :: iov => sendStream a alloc (i + 1) p b 0 iov (done + r)
  termination_by structural iov

/-- The first turn of `pair_put` on a stream pair. -/
def startStream (a : Looks) (m : Grant) (p : Pipe D) (iov : List (List UInt8)) (fds : List D) :
    Pipe D × Turn Sending ℕ :=
  match if fds = [] then some p else p.push p.wrote 0 fds m.push with
  | none => (p, .returns (.error .enobufs))
  | some p =>
    match iov with
    | [] => (p, .returns (.ok 0))
    | b :: iov => p.sendStream a m.put 0 b 0 iov 0

/-- A turn of `pair_put` from its start: `valid` is whether the buffers are the caller's. -/
def pairPut (a : Looks) (dontwait valid : Bool) (m : Grant) (p : Pipe D) (iov : List (List UInt8))
    (fds : List D) : Pipe D × Turn Sending ℕ :=
  if valid = false then (p, .returns (.error .efault))
  else if p.packets then
    match p.sendPacket a dontwait m iov fds with
    | (p, .returns r) => (p, .returns r)
    | (p, .waits _) => (p, .waits ⟨[], 0, iov, 0⟩)
  else p.startStream a m iov fds

/-- A turn of `pair_put` after a wait. -/
def pairPutOn (a : Looks) (dontwait : Bool) (m : Grant) (p : Pipe D) (fds : List D) (k : Sending) :
    Pipe D × Turn Sending ℕ :=
  if p.packets then
    match p.sendPacket a dontwait m k.iov fds with
    | (p, .returns r) => (p, .returns r)
    | (p, .waits _) => (p, .waits k)
  else p.sendStream a m.put 0 k.rest k.part k.iov k.done

/-- A turn of `write_to` a socketpair's end, from its start. -/
def writeTo (a : Looks) (m : Grant) (p : Pipe D) (text : List UInt8) : Pipe D × Turn Sending ℕ :=
  if p.packets then p.pairPut a false true m [text] []
  else
    match p.write false a (m.put 0) text 0 with
    | (p, .returns r) => (p, .returns r)
    | (p, .waits (rest, part)) => (p, .waits ⟨rest, part, [], 0⟩)

/-- Bytes read into one buffer after another. -/
def scatter (limit want : ℕ) : List ℕ → Pipe D → List UInt8 → Pipe D × List UInt8
  | [], p, got => (p, got)
  | k :: room, p, got =>
    if got.length < limit ∧ got.length < want then
      let (p, more) := p.take (min k (limit - got.length))
      scatter limit want room p (got ++ more)
    else (p, got)

/-- The first message taken off, and its descriptors. -/
def pop (p : Pipe D) (m : Pmsg D) (msgs : List (Pmsg D)) (got : List UInt8) (asks cut : Bool) :
    Pipe D × Taken D :=
  ({ p with msgs }, ⟨got, if asks then m.fds else [], if asks then [] else m.fds, cut⟩)

/-- What `pair_take` takes, once it has waited: `asks` is whether it was given room for
descriptors. -/
def receive (p : Pipe D) (room : List ℕ) (asks : Bool) : Pipe D × Taken D :=
  match p.packets, p.msgs with
  | true, [] => (p, ⟨[], [], [], false⟩)
  | true, m :: msgs =>
    let (p, got) := scatter (min m.len p.left) room.sum room p []
    if got.length < m.len then (p.take (m.len - got.length)).1.pop m msgs got asks true
    else p.pop m msgs got asks false
  | false, [] =>
    let (p, got) := scatter p.left room.sum room p []
    (p, ⟨got, [], [], false⟩)
  | false, m :: msgs =>
    if m.at_ ≤ p.taken then
      let limit := match msgs with
        | [] => p.left
        | m' :: _ => m'.at_ - p.taken
      let (p, got) := scatter (min limit p.left) room.sum room p []
      p.pop m msgs got asks false
    else
      let (p, got) := scatter (min (m.at_ - p.taken) p.left) room.sum room p []
      (p, ⟨got, [], [], false⟩)

/-- A turn of `pair_take`. -/
def pairTake (a : Looks) (dontwait : Bool) (p : Pipe D) (room : List ℕ) (asks : Bool) :
    Pipe D × Turn Unit (Taken D) :=
  match p.await a dontwait with
  | some t => (p, t)
  | none =>
    let (p, taken) := p.receive room asks
    (p, .returns (.ok taken))

/-- A turn of `sys_read` of a pipe. -/
def sysRead (k : Kind) (semaphore : Bool) (a : Looks) (p : Pipe D) (count : ℕ) :
    Pipe D × Turn Unit (Taken D) :=
  let plain := fun (p, got) => (p, Turn.returns (.ok ⟨got, [], [], false⟩))
  match k with
  | .event =>
    match p.event semaphore a count with
    | (p, .waits _) => (p, .waits ())
    | (p, .returns r) => (p, .returns (r.map fun got => ⟨got, [], [], false⟩))
  | .file => plain (p.take count)
  | .write | .buffer => (p, .returns (.error .ebadf))
  | .read =>
    match p.await a false with
    | some t => (p, t)
    | none => plain (p.take count)
  | .pair _ =>
    match p.await a false with
    | some t => (p, t)
    | none =>
      if p.packets || !p.msgs.isEmpty then p.pairTake a false [count] false
      else plain (p.take count)

end Pipe
end BaxOS.Ipc
