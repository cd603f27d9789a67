import BaxOS.Lib.Runs
import BaxOS.Ipc.PairSends

/-!
# What is sent over a socketpair

Both ends of a pair stay open, any number of callers send and receive on them, a turn at a time. In
every run in which a packet's bytes find memory, and a stream's descriptors are followed by the first
byte sent with them or wait for it alone, what is received is what was sent, in order and once
(`run_delivered`). A receive with nothing else to run comes to nothing though the other end is open
(`exists_not_delivered`).
-/

namespace BaxOS.Ipc
open Function

variable {D : Type}

/-- A call that sends: the end it is on, what it sends, what of it is left, how much is in, and what
it returned. -/
structure Send (D : Type) where
  side : Bool
  iov : List (List UInt8)
  fds : List D
  dontwait : Bool
  left : Sending
  moved : ℕ
  result : Option (Except Errno ℕ)

/-- What a call that receives came to: the room it had, whether it asked for descriptors, whether
nothing else ran, and what it took. -/
structure Receipt (D : Type) where
  room : ℕ
  asks : Bool
  alone : Bool
  taken : Taken D
  deriving DecidableEq

/-- The state: the pipe that what each end sends goes through, the sends and the number of the next.
Beside it, what the state does not say: what the sends report to have put on a stream and in packets,
each by its send, and what the receives at the other end came to. -/
structure Pair (D : Type) where
  pipes : Bool → Pipe D
  sends : ℕ → Option (Send D)
  begun : ℕ
  items : Bool → List (ℕ × Item D)
  packets : Bool → List (ℕ × List UInt8 × List D)
  receipts : Bool → List (Receipt D)

/-- What a program does, and what it finds. -/
inductive Deed (D : Type)
  | write (side : Bool) (text : List UInt8) (looks : Looks) (grant : Grant)
  | sendmsg (side : Bool) (iov : List (List UInt8)) (fds : List D) (dontwait valid : Bool)
      (looks : Looks) (grant : Grant)
  | resume (c : ℕ) (looks : Looks) (grant : Grant)
  | read (side : Bool) (count : ℕ) (looks : Looks)
  | recvmsg (side : Bool) (room : List ℕ) (dontwait : Bool) (looks : Looks)
  | held (side : Bool) (refs count : ℕ)

/-- How much a send has in after a turn. -/
def Turn.sent (moved : ℕ) : Turn Sending ℕ → ℕ
  | .returns (.ok n) => n
  | .returns (.error _) => moved
  | .waits k => k.done + k.part

/-- What a send goes on with after a turn. -/
def Turn.left (k : Sending) : Turn Sending ℕ → Sending
  | .returns _ => k
  | .waits k => k

/-- Whether a send has failed. -/
def failed : Option (Except Errno ℕ) → Bool
  | some (.error _) => true
  | _ => false

/-- Whether a send has succeeded. -/
def worked : Option (Except Errno ℕ) → Bool
  | some (.ok _) => true
  | _ => false

namespace Pair

/-- A send after a turn, and what it reports of that turn. -/
def sent (s : Pair D) (c : ℕ) (k : Send D) (first : Bool) (r : Pipe D × Turn Sending ℕ) : Pair D :=
  let moved := r.2.sent k.moved
  let more := (if first && !failed r.2.result then Pipe.mark k.fds else []) ++
    ((k.iov.flatten.drop k.moved).take (moved - k.moved)).map .byte
  { s with
    pipes := update s.pipes k.side r.1
    sends := update s.sends c (some { k with left := r.2.left k.left, moved, result := r.2.result })
    items := if (s.pipes k.side).packets then s.items
      else update s.items k.side (s.items k.side ++ more.map (Prod.mk c))
    packets := if (s.pipes k.side).packets && worked r.2.result then
        update s.packets k.side (s.packets k.side ++ [(c, k.iov.flatten, k.fds)])
      else s.packets }

/-- A receive after a turn. -/
def received (s : Pair D) (side : Bool) (room : ℕ) (asks : Bool) (looks : Looks)
    (r : Pipe D × Turn Unit (Taken D)) : Pair D :=
  { s with
    pipes := update s.pipes side r.1
    receipts := match r.2 with
      | .returns (.ok taken) =>
        update s.receipts side (s.receipts side ++ [⟨room, asks, looks.alone, taken⟩])
      | _ => s.receipts }

/-- A call that sends. -/
def made (side : Bool) (iov : List (List UInt8)) (fds : List D) (dontwait : Bool) : Send D :=
  ⟨side, iov, fds, dontwait, ⟨[], 0, iov, 0⟩, 0, none⟩

/-- The next step. -/
def step (s : Pair D) : Deed D → Pair D
  | .write side text looks grant =>
    { s.sent s.begun (made side [text] [] false) true ((s.pipes side).writeTo looks grant text) with
      begun := s.begun + 1 }
  | .sendmsg side iov fds dontwait valid looks grant =>
    { s.sent s.begun (made side iov fds dontwait) true
        ((s.pipes side).pairPut looks dontwait valid grant iov fds) with
      begun := s.begun + 1 }
  | .resume c looks grant =>
    match s.sends c with
    | none => s
    | some k =>
      if k.result.isSome then s
      else s.sent c k false ((s.pipes k.side).pairPutOn looks k.dontwait grant k.fds k.left)
  | .read side count looks =>
    s.received (!side) count false looks ((s.pipes !side).sysRead (.pair none) false looks count)
  | .recvmsg side room dontwait looks =>
    s.received (!side) room.sum true looks ((s.pipes !side).pairTake looks dontwait room true)
  | .held side refs count => { s with pipes := update s.pipes side { s.pipes side with refs, count } }

/-- A run. -/
def run (s : Pair D) (as : List (Deed D)) : Pair D := as.foldl step s

/-- A pair as it is made. -/
structure Made (s : Pair D) : Prop where
  pipes : ∀ side, ∃ packets, s.pipes side = { Pipe.free with size := pipeFirst, refs := 2, count := 1, packets }
  sends : s.sends = fun _ => none
  begun : s.begun = 0
  items : s.items = fun _ => []
  packets : s.packets = fun _ => []
  receipts : s.receipts = fun _ => []

end Pair

/-! ### What it says -/

/-- A send on a stream whose descriptors are in and none of its bytes. -/
def Send.Opening (k : Send D) : Prop := k.result = none ∧ k.moved = 0 ∧ k.fds ≠ []

/-- What a send has put on a stream: of one that failed nothing, else its descriptors, and the first
of its bytes. -/
def Send.items (k : Send D) : List (Item D) :=
  if failed k.result then [] else Pipe.mark k.fds ++ (k.iov.flatten.take k.moved).map .byte

/-- What a send has put in packets. -/
def Send.packets (k : Send D) : List (List UInt8 × List D) :=
  if worked k.result then [(k.iov.flatten, k.fds)] else []

/-- Receives, and the packets they took: each the next, cut to the room there was, or none with nothing
else to run. -/
inductive Handed : List (Receipt D) → List (List UInt8 × List D) → Prop
  | nil : Handed [] []
  | took {rs : List (Receipt D)} {ms : List (List UInt8 × List D)} (h : Handed rs ms) (r : Receipt D)
      (b : List UInt8) (l : List D) (ht : r.taken = ⟨b.take r.room, if r.asks then l else [],
        if r.asks then [] else l, decide (r.room < b.length)⟩) : Handed (rs ++ [r]) (ms ++ [(b, l)])
  | alone {rs : List (Receipt D)} {ms : List (List UInt8 × List D)} (h : Handed rs ms) (r : Receipt D)
      (ha : r.alone = true) (ht : r.taken = ⟨[], [], [], false⟩) : Handed (rs ++ [r]) ms

namespace Pair

/-- **A stream's bytes and descriptors are delivered.** -/
structure Streams (s : Pair D) (side : Bool) : Prop where
  /-- What has been received, and what waits, is what the sends report. -/
  order : (s.receipts side).flatMap (fun r => r.taken.items) ++ (s.pipes side).items =
    (s.items side).map Prod.snd
  sent : ∀ c k, s.sends c = some k → k.side = side →
    ((s.items side).filter fun x => x.1 = c).map Prod.snd = k.items
  only : ∀ x ∈ s.items side, ∃ k, s.sends x.1 = some k ∧ k.side = side
  /-- Descriptors are followed by the first byte sent with them; there are none, or it is to come. -/
  first : ∀ i c l, (s.items side)[i]? = some (c, .fds l) →
    (∃ b, (s.items side)[i + 1]? = some (c, .byte b)) ∨ ∃ k, s.sends c = some k ∧
      (k.iov.flatten = [] ∨ k.Opening ∧ i + 1 = (s.items side).length)
  asked : ∀ r ∈ s.receipts side, if r.asks then r.taken.dropped = [] else r.taken.fds = []
  /-- A receive with room comes to no bytes where nothing else runs, or of a message of none. -/
  empty : ∀ l r l', s.receipts side = l ++ r :: l' → r.taken.got = [] → 0 < r.room →
    r.alone = true ∨ ∃ c k, s.sends c = some k ∧ k.iov.flatten = [] ∧
      (s.items side)[(l.flatMap fun r => r.taken.items).length]? =
        some (c, .fds (r.taken.fds ++ r.taken.dropped))
  reports : ∀ c k, s.sends c = some k → k.side = side → (∀ n, k.result = some (.ok n) → n = k.moved) ∧
    (failed k.result = true → k.moved = 0)

/-- **Packets are delivered.** -/
structure Packets (s : Pair D) (side : Bool) : Prop where
  order : ∃ l l', s.packets side = l ++ l' ∧ l'.map Prod.snd = (s.pipes side).messages ∧
    Handed (s.receipts side) (l.map Prod.snd)
  sent : ∀ c k, s.sends c = some k → k.side = side →
    ((s.packets side).filter fun x => x.1 = c).map Prod.snd = k.packets
  only : ∀ x ∈ s.packets side, ∃ k, s.sends x.1 = some k ∧ k.side = side
  reports : ∀ c k n, s.sends c = some k → k.side = side → k.result = some (.ok n) →
    n = k.iov.flatten.length

/-- **A socketpair delivers what was sent, once.** -/
structure Delivered (s : Pair D) : Prop where
  streams : ∀ side, (s.pipes side).packets = false → s.Streams side
  packets : ∀ side, (s.pipes side).packets = true → s.Packets side

/-- What a turn of a send is to find: on a packet pair, memory for its bytes; on a stream pair, no
other send's descriptors without a byte after them, and after its own the first of its bytes at once,
or that it waits. -/
structure Finds (s : Pair D) (c : ℕ) (k : Send D) (bufs : List (List UInt8)) (looks : Looks)
    (grant : Grant) : Prop where
  packets : (s.pipes k.side).packets = true → (s.pipes k.side).Fits grant k.iov
  others : (s.pipes k.side).packets = false → ∀ c' k', s.sends c' = some k' → k'.side = k.side →
    k'.Opening → c' = c
  first : (s.pipes k.side).packets = false → k.fds ≠ [] → k.moved = 0 → k.iov.flatten ≠ [] →
    (s.pipes k.side).Opens grant.put 0 bufs ∨
      (looks.nonblock || looks.alone) = false ∧ looks.interrupted = false

/-- **What it holds by**: every turn of a send finds that, and the ends stay open. -/
def Steady (s : Pair D) : Deed D → Prop
  | .write side text looks grant => s.Finds s.begun (made side [text] [] false) [text] looks grant
  | .sendmsg side iov fds dontwait _ looks grant =>
    s.Finds s.begun (made side iov fds dontwait) iov looks grant
  | .resume c looks grant => ∀ k, s.sends c = some k → k.result = none →
    s.Finds c k (k.left.rest :: k.left.iov) looks grant
  | .held _ _ count => 0 < count
  | _ => True

end Pair
end BaxOS.Ipc
