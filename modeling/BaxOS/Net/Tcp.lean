import Mathlib.Tactic

/-!
# TCP: one socket

What `stack.c` does with a TCP socket when a segment arrives, a timer runs out or a program calls. Every
send may be answered before it returns, so that each function is cut at its sends: a `Turn` is what one
does up to and with a send, and what is left to do after it.

A segment is its fields. Sequence numbers are 32 bits wide; lengths are numbers, and what is taken from
one wraps as it does in 32 bits. Kept beside the socket, as marks, is what is copied from and to its
buffers, and what `tcp_push` takes away from `out_len`.
-/

namespace BaxOS.Net

/-- `RBUF`, `SBUF`, `WINDOW` and `RTO`. -/
def rbuf : ℕ := 16384
def sbuf : ℕ := 8192
def windowMost : ℕ := 6 * 1460
def rtoFirst : ℕ := 1000

/-- `ECONNRESET`, `ETIMEDOUT` and `ECONNREFUSED`. -/
def econnreset : ℕ := 104
def etimedout : ℕ := 110
def econnrefused : ℕ := 111

/-- The states a TCP socket is in. -/
inductive Conn
  | closed
  | listen
  | synSent
  | synRcvd
  | established
  | finWait1
  | finWait2
  | closeWait
  | closing
  | lastAck
  deriving DecidableEq

/-- `proto`: 0 in a free slot; a TCP socket's; another's. -/
inductive Proto
  | free
  | tcp
  | other
  deriving DecidableEq

/-- A sequence number. -/
abbrev Seq := BitVec 32

/-- `seq_lt`. -/
@[irreducible] def seqLt (a b : Seq) : Bool := (a - b).slt 0

/-- `a - b`, of two `uint32_t`. -/
@[irreducible] def sub32 (a b : ℕ) : ℕ := (a + 2 ^ 32 - b % 2 ^ 32) % 2 ^ 32

/-- The flags of a segment. -/
structure Flags where
  fin : Bool
  syn : Bool
  rst : Bool
  psh : Bool
  ack : Bool
  deriving DecidableEq

/-- A segment: what `tcp_input` reads into its locals. -/
structure Seg where
  seq : Seq
  ackNo : Seq
  flags : Flags
  win : ℕ
  mss : ℕ
  data : List UInt8
  deriving DecidableEq

/-- `struct sock`, of a TCP socket. -/
structure Sock where
  proto : Proto
  refs : ℕ
  state : Conn
  error : ℕ
  parent : ℕ
  backlog : ℕ
  tries : ℕ
  dups : ℕ
  loop : Bool
  finIn : Bool
  finOut : Bool
  finSent : Bool
  port : ℕ
  peerPort : ℕ
  mss : ℕ
  peerIp : ℕ
  inBuf : ℕ → UInt8
  inLen : ℕ
  inHead : ℕ
  outBuf : ℕ → UInt8
  outLen : ℕ
  sndUna : Seq
  sndNxt : Seq
  sndWnd : ℕ
  rcvNxt : Seq
  timer : ℕ
  rto : ℕ

/-- What is kept of a function's course: so many bytes copied from or to `out` or `in`, from there on; and
a length that another is taken from. -/
inductive Mark
  | out (at_ n : ℕ)
  | ring (at_ n : ℕ)
  | less (a b : ℕ)
  deriving DecidableEq

/-- What a function does after a send: nothing; the rest of `tcp_push`; `tcp_closed`. -/
inductive Rest
  | done
  | push
  | closed (err : ℕ)
  deriving DecidableEq

/-- What a function does up to a send. -/
structure Turn where
  sock : Sock
  sent : Option Seg
  rest : Rest
  marks : List Mark

/-- What a function does after more of its course. -/
def Turn.after (t : Turn) (marks : List Mark) : Turn := { t with marks := marks ++ t.marks }

namespace Sock

/-- A free slot. -/
def free : Sock where
  proto := .free
  refs := 0
  state := .closed
  error := 0
  parent := 0
  backlog := 0
  tries := 0
  dups := 0
  loop := false
  finIn := false
  finOut := false
  finSent := false
  port := 0
  peerPort := 0
  mss := 0
  peerIp := 0
  inBuf _ := 0
  inLen := 0
  inHead := 0
  outBuf _ := 0
  outLen := 0
  sndUna := 0
  sndNxt := 0
  sndWnd := 0
  rcvNxt := 0
  timer := 0
  rto := 0

/-- `sock_new`, where there are pages for its buffers. -/
def new (proto : Proto) : Sock := { free with proto, mss := 536, rto := rtoFirst }

/-- `window`. -/
def window (k : Sock) : ℕ :=
  let room := sub32 rbuf k.inLen
  (if room < windowMost then room else windowMost) % 2 ^ 16

/-- What `tcp_send` sends; the largest segment it takes goes with a `SYN`. -/
def seg (k : Sock) (flags : Flags) (seq : Seq) (data : List UInt8) : Seg :=
  ⟨seq, k.rcvNxt, flags, k.window, if flags.syn then 1460 else 536, data⟩

/-- The flags of what `tcp_send` is called with. -/
def ackOnly : Flags := ⟨false, false, false, false, true⟩
def ackPsh : Flags := ⟨false, false, false, true, true⟩
def ackFin : Flags := ⟨true, false, false, false, true⟩
def ackSyn : Flags := ⟨false, true, false, false, true⟩
def synOnly : Flags := ⟨false, true, false, false, false⟩
def ackRst : Flags := ⟨false, false, true, false, true⟩

/-- `arm`. -/
def arm (now : ℕ) (k : Sock) : Sock := if k.timer = 0 then { k with timer := now + k.rto } else k

/-- `tcp_closed`, with `sock_free`. -/
def tcpClosed (k : Sock) (err : ℕ) : Sock :=
  if k.refs = 0 then free
  else { k with state := .closed, timer := 0, error := if err ≠ 0 ∧ k.error = 0 then err else k.error }

/-- `SYN_RCVD` and the states numbered from it on. -/
def past (k : Sock) : Bool :=
  match k.state with
  | .closed | .listen | .synSent => false
  | _ => true

/-- `tcp_abort`. -/
def tcpAbort (k : Sock) (err : ℕ) : Turn :=
  if k.past then ⟨k, some (k.seg ackRst k.sndNxt []), .closed err, []⟩ else ⟨k.tcpClosed err, none, .done, []⟩

/-- Whether a socket's `SYN` is yet to be acknowledged, after it has come to be as it is. -/
def synAfter (syn : Bool) (k : Sock) : Bool :=
  match k.state with
  | .synSent | .synRcvd => true
  | .closed | .listen => syn
  | _ => false

/-! ### Sending -/

/-- The states in which bytes go, and the `FIN`. -/
def sends (k : Sock) : Bool :=
  match k.state with
  | .established | .closeWait | .finWait1 | .closing | .lastAck => true
  | _ => false

/-- Whether `tcp_push`'s loop goes on. -/
def pushes (k : Sock) : Bool := k.proto = .tcp && !k.finSent && k.sends

/-- The state after the `FIN`. -/
def finState (c : Conn) : Conn :=
  match c with
  | .established => .finWait1
  | .closeWait => .lastAck
  | c => c

/-- Bytes of a buffer. -/
def bytes (buf : ℕ → UInt8) (at_ n : ℕ) : List UInt8 := (List.range n).map fun i => buf (at_ + i)

/-- The end of `tcp_push`. -/
def pushEnd (k : Sock) (ack : Bool) (marks : List Mark) : Turn :=
  if ack && k.proto = .tcp && k.state ≠ .closed then ⟨k, some (k.seg ackOnly k.sndNxt []), .done, marks⟩
  else ⟨k, none, .done, marks⟩

/-- What has been sent and not acknowledged. -/
def sent (k : Sock) : ℕ := (k.sndNxt - k.sndUna).toNat

/-- How much the far end has room for, and how much of what is waiting goes next. -/
def room (k : Sock) : ℕ := if k.sent < k.sndWnd then k.sndWnd - k.sent else 0
def goes (k : Sock) : ℕ := min (min (sub32 k.outLen k.sent) k.room) k.mss

/-- `tcp_push`, a turn of its loop. -/
def tcpPush (now : ℕ) (k : Sock) (ack : Bool) : Turn :=
  if k.pushes then
    if 0 < k.goes then
      ⟨arm now { k with sndNxt := k.sndNxt + .ofNat 32 k.goes },
        some (k.seg ackPsh k.sndNxt (bytes k.outBuf k.sent k.goes)), .push,
        [.less k.outLen k.sent, .out k.sent k.goes]⟩
    else if k.finOut ∧ k.sent = k.outLen then
      ⟨arm now { k with sndNxt := k.sndNxt + 1, finSent := true, state := finState k.state },
        some (k.seg ackFin k.sndNxt []), .done, [.less k.outLen k.sent]⟩
    else k.pushEnd ack [.less k.outLen k.sent]
  else k.pushEnd ack []

/-- `tcp_timeout`. -/
def tcpTimeout (now : ℕ) (k : Sock) : Turn :=
  if k.state = .finWait2 then ⟨k.tcpClosed 0, none, .done, []⟩
  else
    let k := { k with tries := (k.tries + 1) % 2 ^ 8 }
    if 8 < k.tries then k.tcpAbort etimedout
    else
      let rto := if k.rto < 30000 then k.rto * 2 else 60000
      let k := { k with rto, timer := now + rto }
      match k.state with
      | .synSent => ⟨k, some (k.seg synOnly k.sndUna []), .done, []⟩
      | .synRcvd => ⟨k, some (k.seg ackSyn k.sndUna []), .done, []⟩
      | _ =>
        let k := { k with
          sndNxt := k.sndUna, finSent := false, sndWnd := if k.sndWnd = 0 then 1 else k.sndWnd }
        k.tcpPush now false

/-! ### Buffers -/

/-- A buffer with bytes laid in it. -/
def lay (buf : ℕ → UInt8) (at_ : ℕ) (data : List UInt8) : ℕ → UInt8 := fun i =>
  if at_ ≤ i then (data[i - at_]?).getD (buf i) else buf i

/-- `ring_put`. -/
def ringPut (k : Sock) (data : List UInt8) : Sock × List Mark :=
  let n := data.length
  let tail := (k.inHead + k.inLen) % rbuf
  let first := min n (sub32 rbuf tail)
  ({ k with
      inBuf := lay (lay k.inBuf tail (data.take first)) 0 (data.drop first)
      inLen := k.inLen + n },
    [.ring tail first, .ring 0 (sub32 n first)])

/-- `ring_get`. -/
def ringGet (k : Sock) (n : ℕ) (peek : Bool) : List UInt8 × Sock × List Mark :=
  let first := min n (sub32 rbuf k.inHead)
  (bytes k.inBuf k.inHead first ++ bytes k.inBuf 0 (sub32 n first),
    if peek then k else { k with inHead := (k.inHead + n) % rbuf, inLen := sub32 k.inLen n },
    [.ring k.inHead first, .ring 0 (sub32 n first)])

/-- The acknowledged bytes moved out of `out`. -/
def outShift (k : Sock) (gone : ℕ) : Sock × List Mark :=
  let left := sub32 k.outLen gone
  ({ k with outBuf := lay k.outBuf 0 (bytes k.outBuf gone left), outLen := left },
    [.less k.outLen gone, .out gone left, .out 0 left])

/-! ### Segments -/

/-- `tcp_refuse`: a reset for a segment nothing here wanted. -/
def refusal (x : Seg) : Seg :=
  if x.flags.ack then ⟨x.ackNo, 0, ⟨false, false, true, false, false⟩, 0, 536, []⟩
  else
    ⟨0, x.seq + .ofNat 32 x.data.length + (if x.flags.syn then 1 else 0) + (if x.flags.fin then 1 else 0),
      ackRst, 0, 536, []⟩

/-- A segment without its data, and its `FIN`. -/
def Seg.bare (x : Seg) : Seg := { x with data := [], flags := { x.flags with fin := false } }

/-- A segment without what was had already, and whether there was any. -/
def unhad (k : Sock) (x : Seg) : Seg × Bool :=
  if seqLt x.seq k.rcvNxt then
    let skip := (k.rcvNxt - x.seq).toNat
    if x.data.length < skip then ({ Seg.bare x with seq := x.seq + .ofNat 32 x.data.length }, true)
    else ({ x with seq := x.seq + .ofNat 32 skip, data := x.data.drop skip }, true)
  else (x, false)

/-- What comes next of a segment: nothing, if it is ahead of a gap. -/
def trim (k : Sock) (x : Seg) : Seg × Bool :=
  if x.data ≠ [] ∨ x.flags.fin then
    let r := k.unhad x
    if r.1.seq ≠ k.rcvNxt then (Seg.bare r.1, true) else r
  else (x, false)

/-- An acknowledgement of something new. -/
def advance (now : ℕ) (k : Sock) (ackNo : Seq) : Sock × List Mark :=
  let n := (ackNo - k.sndUna).toNat
  let (k, marks) := k.outShift (min n k.outLen)
  ({ k with
      sndUna := ackNo, tries := 0, dups := 0, rto := rtoFirst
      timer := if ackNo = k.sndNxt then 0 else now + rtoFirst }, marks)

/-- The `FIN` acknowledged: closed, or half so. -/
def finAcked (now : ℕ) (k : Sock) : Sock ⊕ Sock :=
  match k.state with
  | .lastAck | .closing => .inl (k.tcpClosed 0)
  | .finWait1 =>
    .inr { k with state := .finWait2, timer := if k.refs = 0 then now + 30000 else k.timer }
  | _ => .inr k

/-- What a segment acknowledges: where `tcp_input` ends with that, or the socket it goes on with. -/
def acked (now : ℕ) (k : Sock) (x : Seg) : Turn ⊕ Sock × List Mark :=
  if k.state = .synRcvd then
    if x.ackNo ≠ k.sndNxt then .inl ⟨k, some (refusal x), .done, []⟩
    else .inr ({ k with sndUna := x.ackNo, state := .established, timer := 0, tries := 0 }, [])
  else if seqLt k.sndUna x.ackNo && !seqLt k.sndNxt x.ackNo then
    let (k, marks) := k.advance now x.ackNo
    if k.finSent ∧ x.ackNo = k.sndNxt then
      match k.finAcked now with
      | .inl k => .inl ⟨k, none, .done, marks⟩
      | .inr k => .inr (k, marks)
    else .inr (k, marks)
  else if seqLt k.sndNxt x.ackNo then .inl ⟨k, some (k.seg ackOnly k.sndNxt []), .done, []⟩
  else if x.ackNo = k.sndUna ∧ x.data = [] ∧ ¬x.flags.fin ∧ k.sndNxt ≠ k.sndUna then
    let k := { k with dups := (k.dups + 1) % 2 ^ 8 }
    if k.dups = 3 then .inr ({ k with sndNxt := k.sndUna, finSent := false }, []) else .inr (k, [])
  else .inr (k, [])

/-- The data of a segment taken, as much as there is room for; and whether its `FIN` still counts, and
whether it is to be acknowledged. -/
def takeData (k : Sock) (x : Seg) (again : Bool) : Sock × Bool × Bool × List Mark :=
  if x.data ≠ [] ∧ (k.state = .established ∨ k.state = .finWait1 ∨ k.state = .finWait2) then
    let take := min (sub32 rbuf k.inLen) x.data.length
    let (k', marks) := k.ringPut (x.data.take take)
    ({ k' with rcvNxt := k.rcvNxt + .ofNat 32 take }, x.flags.fin && !decide (take < x.data.length), true,
      .less rbuf k.inLen :: marks)
  else (k, x.flags.fin, again, [])

/-- The state after the far end's `FIN`. -/
def finHeard (c : Conn) : Conn :=
  match c with
  | .established => .closeWait
  | .finWait1 => .closing
  | c => c

/-- The rest of `tcp_input`: the `FIN`, and what there is to send. -/
def takeFin (now : ℕ) (k : Sock) (fin again : Bool) (marks : List Mark) : Turn :=
  if fin && !k.finIn then
    let k := { k with rcvNxt := k.rcvNxt + 1, finIn := true }
    if k.state = .finWait2 then ⟨k, some (k.seg ackOnly k.sndNxt []), .closed 0, marks⟩
    else (tcpPush now { k with state := finHeard k.state } true).after marks
  else (k.tcpPush now again).after marks

/-- `tcp_input`, of a segment for a socket that does not listen. -/
def tcpInput (now : ℕ) (k : Sock) (x : Seg) : Turn :=
  if x.flags.rst then
    if k.state ≠ .synSent ∨ x.flags.ack ∧ x.ackNo = k.sndNxt then
      ⟨k.tcpClosed (if k.state = .synSent then econnrefused else econnreset), none, .done, []⟩
    else ⟨k, none, .done, []⟩
  else if k.state = .synSent then
    if x.flags.ack ∧ x.ackNo ≠ k.sndNxt then ⟨k, some (refusal x), .done, []⟩
    else if ¬(x.flags.syn ∧ x.flags.ack) then ⟨k, none, .done, []⟩
    else
      tcpPush now { k with
        rcvNxt := x.seq + 1, mss := x.mss, sndUna := x.ackNo, sndWnd := x.win, state := .established
        timer := 0, tries := 0 } true
  else if x.flags.syn then
    if k.state = .synRcvd then ⟨k, some (k.seg ackSyn k.sndUna []), .done, []⟩
    else ⟨k, some (k.seg ackOnly k.sndNxt []), .done, []⟩
  else
    let (x, again) := k.trim x
    if ¬x.flags.ack then ⟨k, none, .done, []⟩
    else
      match k.acked now x with
      | .inl t => t
      | .inr (k, marks) =>
        let (k, fin, again, marks') := { k with sndWnd := x.win }.takeData x again
        k.takeFin now fin again (marks ++ marks')

/-- `tcp_offer`: the socket of a connection asked for, and its answer. -/
def offered (now : ℕ) (c : Sock) (l : ℕ) (port src sport : ℕ) (loop : Bool) (iss : Seq) (x : Seg) : Turn :=
  let c := arm now { c with
    state := .synRcvd, parent := l % 2 ^ 8, port := port, peerIp := src, peerPort := sport
    rcvNxt := x.seq + 1, sndUna := iss, sndNxt := iss + 1, sndWnd := x.win, mss := x.mss, loop := loop }
  ⟨c, some (c.seg ackSyn iss []), .done, []⟩

/-! ### Calls -/

/-- `op_connect`, with a route. -/
def connect (now : ℕ) (k : Sock) (loop : Bool) (ip peerPort port : ℕ) (iss : Seq) : Turn :=
  let k := arm now { k with
    loop := loop, peerIp := ip, peerPort := peerPort, error := 0, port := port
    sndUna := iss, sndNxt := iss + 1, state := .synSent }
  ⟨k, some (k.seg synOnly iss []), .done, []⟩

/-- `op_shutdown`, of sending. -/
def shutdown (now : ℕ) (k : Sock) : Turn :=
  if k.state = .established ∨ k.state = .closeWait then { k with finOut := true }.tcpPush now false
  else ⟨k, none, .done, []⟩

/-- `tcp_write`, and how many bytes it took; none is an error. -/
def tcpWrite (now : ℕ) (k : Sock) (data : List UInt8) : Turn × Option ℕ :=
  if k.state ≠ .established ∧ k.state ≠ .closeWait then (⟨{ k with error := 0 }, none, .done, []⟩, none)
  else if k.finOut then (⟨k, none, .done, []⟩, none)
  else
    let n := min (sub32 sbuf k.outLen) data.length
    if n = 0 then (⟨k, none, .done, [.less sbuf k.outLen]⟩, none)
    else
      let t := { k with outBuf := lay k.outBuf k.outLen (data.take n), outLen := k.outLen + n }.tcpPush now false
      ({ t with marks := .less sbuf k.outLen :: .out k.outLen n :: t.marks }, some n)

/-- What a read answers: bytes, an error, the end, or that there is nothing yet. -/
inductive Answer
  | bytes (data : List UInt8)
  | error (err : ℕ)
  | ended
  | notConnected
  | again
  deriving DecidableEq

/-- `tcp_read`. -/
def tcpRead (k : Sock) (size : ℕ) (peek : Bool) : Turn × Answer :=
  if 0 < k.inLen then
    let n := min size k.inLen
    let was := sub32 rbuf k.inLen
    let (data, k', marks) := k.ringGet n peek
    let tells := !peek && (decide (was < k.mss) && decide (k.mss ≤ was + n) ||
      decide (was < rbuf / 2) && decide (rbuf / 2 ≤ was + n))
    (⟨k', if tells then some (k'.seg ackOnly k.sndNxt []) else none, .done, .less rbuf k.inLen :: marks⟩,
      .bytes data)
  else if k.error ≠ 0 then (⟨{ k with error := 0 }, none, .done, []⟩, .error k.error)
  else if k.finIn ∨ k.state = .closed ∧ k.peerIp ≠ 0 then (⟨k, none, .done, []⟩, .ended)
  else (⟨k, none, .done, []⟩, if k.state = .listen ∨ k.state = .closed then .notConnected else .again)

end Sock
end BaxOS.Net
