import BaxOS.Net.Tcp

/-!
# The sockets

The 32 sockets of the stack and what happens to them: segments, as bytes, forged ones among them; timers
that run out; calls of programs, each with a descriptor. What a function has still to do after a send is a
frame; a segment may arrive meanwhile, and other frames come on top. Calls come one after another.

Kept beside the code's own state: how many descriptors refer to each slot; whether its `SYN` is yet to be
acknowledged; which pages it has, of those handed out, and which have been given back; the marks.
-/

namespace BaxOS.Net
open Function

/-- `SOCKETS` and `LINGER`. -/
def sockets : ℕ := 32
def lingerMs : ℕ := 200

/-! ### What a segment says -/

/-- A byte of a packet. -/
def byte (p : List UInt8) (i : ℕ) : ℕ := (p.getD i 0).toNat

/-- Two bytes, and four, as the network has them. -/
def half (p : List UInt8) (i : ℕ) : ℕ := byte p i * 2 ^ 8 + byte p (i + 1)
def word (p : List UInt8) (i : ℕ) : Seq := .ofNat 32 (half p i * 2 ^ 16 + half p (i + 2))

/-- The options up to `off`, from `i` on: the largest segment the far end takes. -/
def largest (p : List UInt8) (off : ℕ) : ℕ → ℕ → ℕ → ℕ
  | 0, _, mss => mss
  | fuel + 1, i, mss =>
    if i + 1 < off ∧ byte p i ≠ 0 then
      if byte p i = 1 then largest p off fuel (i + 1) mss
      else
        let mss := if byte p i = 2 ∧ byte p (i + 1) = 4 ∧ i + 4 ≤ off then half p (i + 2) else mss
        if byte p (i + 1) < 2 then mss else largest p off fuel (i + byte p (i + 1)) mss
    else mss

/-- What `tcp_input` reads of a packet: its two ports, and the segment. -/
def parse (p : List UInt8) : Option (ℕ × ℕ × Seg) :=
  let off := byte p 12 / 2 ^ 4 * 4
  if p.length < 20 ∨ off < 20 ∨ p.length < off then none
  else
    let fl := byte p 13
    some (half p 0, half p 2,
      ⟨word p 4, word p 8, ⟨fl.testBit 0, fl.testBit 1, fl.testBit 2, fl.testBit 3, fl.testBit 4⟩, half p 14,
        min (largest p off off 20 536) 1460, p.drop off⟩)

/-! ### The stack -/

/-- What is left to do after a send, of a slot: the rest of `tcp_push`; `tcp_closed`; the children of a
listener from `i` on, as `op_drop` takes them; its moment's grace, until then. -/
inductive Frame
  | push (i : ℕ)
  | closed (i err : ℕ)
  | children (l i : ℕ)
  | linger (i till : ℕ)
  deriving DecidableEq

/-- The state: `socks`, from 0 on. -/
structure Stack where
  socks : ℕ → Sock
  frames : List Frame
  now : ℕ
  held : ℕ → ℕ
  syn : ℕ → Bool
  pages : ℕ → Option ℕ
  given : ℕ
  back : List ℕ
  marks : List Mark

/-- What a turn leaves to do. -/
def Rest.frames (r : Rest) (i : ℕ) : List Frame :=
  match r with
  | .done => []
  | .push => [.push i]
  | .closed err => [.closed i err]

namespace Stack

/-- Nothing open. -/
def empty : Stack := ⟨fun _ => .free, [], 0, fun _ => 0, fun _ => false, fun _ => none, 0, [], []⟩

/-- A slot changed; one that is free now has given back its pages. -/
def put (s : Stack) (i : ℕ) (k : Sock) : Stack :=
  { s with
    socks := update s.socks i k
    syn := update s.syn i (Sock.synAfter (s.syn i) k)
    pages := if k.proto = .free then update s.pages i none else s.pages
    back := if k.proto = .free then (s.pages i).toList ++ s.back else s.back }

/-- Something is left to do. -/
def later (s : Stack) (f : Frame) : Stack := { s with frames := f :: s.frames }

/-- Descriptors of a slot counted. -/
def holds (s : Stack) (i n : ℕ) : Stack := { s with held := update s.held i n }

/-- A function runs up to a send. -/
def run (s : Stack) (i : ℕ) (t : Turn) : Stack :=
  let s := s.put i t.sock
  { s with frames := t.rest.frames i ++ s.frames, marks := t.marks ++ s.marks }

/-- The first slot of which this is so. -/
def find (s : Stack) (p : Sock → Bool) : Option ℕ := (List.range sockets).find? fun i => p (s.socks i)

/-- `sock_new`, if there are pages; what it becomes right after is given. -/
def sockNew (s : Stack) (room : Bool) (t : Turn) : Option (ℕ × Stack) :=
  match s.find fun k => k.proto = .free with
  | none => none
  | some i =>
    if room then
      let s := { s with
        syn := update s.syn i false, pages := update s.pages i (some s.given), given := s.given + 1 }
      some (i, s.run i t)
    else none

/-! ### Segments -/

/-- `tcp_find`. -/
def tcpFind (s : Stack) (src sport dport : ℕ) : Option ℕ :=
  let here (k : Sock) : Bool := k.proto = .tcp && k.port = dport && k.state ≠ .closed
  match s.find fun k => here k && k.state ≠ .listen && k.peerIp = src && k.peerPort = sport with
  | some i => some i
  | none => (List.range sockets).reverse.find? fun i => here (s.socks i) && (s.socks i).state = .listen

/-- Whether `tcp_offer` finds as many waiting as there may be. -/
def backlogged (s : Stack) (l : ℕ) : Bool :=
  (s.socks l).backlog ≤ ((List.range sockets).filter fun i =>
    (s.socks i).proto = .tcp && (s.socks i).parent = l + 1).length

/-- `tcp_input`, and `tcp_offer`; `loop` is whether there is no `hop_src`. -/
def tcpInput (s : Stack) (src : ℕ) (p : List UInt8) (loop room : Bool) (iss : Seq) : Stack :=
  match parse p with
  | none => s
  | some (sport, dport, x) =>
    match s.tcpFind src sport dport with
    | none => s
    | some i =>
      let k := s.socks i
      if k.state = .listen then
        if x.flags.syn && !x.flags.rst && !x.flags.ack && !s.backlogged i then
          ((s.sockNew room ((Sock.new .tcp).offered s.now (i + 1) k.port src sport loop iss x)).map Prod.snd).getD s
        else s
      else s.run i (k.tcpInput s.now x)

/-! ### Calls -/

/-- `op_drop`, of the last descriptor of an open connection. -/
def dropOpen (s : Stack) (i : ℕ) (k : Sock) : Stack :=
  if 0 < k.inLen then s.run i (k.tcpAbort 0)
  else (s.later (.linger i (s.now + lingerMs))).run i ({ k with finOut := true }.tcpPush s.now false)

/-- `op_drop`, of the last descriptor, up to its first send. -/
def dropLast (s : Stack) (i : ℕ) (k : Sock) : Stack :=
  if k.proto ≠ .tcp then s.put i .free
  else
    match k.state with
    | .listen => (s.put i k).later (.children i 0)
    | .established | .closeWait => s.dropOpen i k
    | .synSent | .closed => s.put i .free
    | _ => (s.put i k).later (.linger i (s.now + lingerMs))

/-- `op_drop`. -/
def drop (s : Stack) (i : ℕ) : Stack :=
  let k := s.socks i
  let s := s.holds i (s.held i - 1)
  if k.proto = .free ∨ k.refs = 0 then s
  else
    let k := { k with refs := k.refs - 1 }
    if 0 < k.refs then s.put i k else s.dropLast i k

/-- `port_taken`, of TCP. -/
def portTaken (s : Stack) (port : ℕ) : Bool :=
  (s.find fun k => k.proto = .tcp && k.port = port && k.parent = 0).isSome

/-- `op_bind`; `auto` is what `autobind` finds. -/
def bind (s : Stack) (i port auto : ℕ) : Stack :=
  let k := s.socks i
  if k.port ≠ 0 ∨ port ≠ 0 ∧ s.portTaken port then s
  else s.put i { k with port := if port = 0 then auto else port }

/-- `op_connect`, where there is a route. -/
def connect (s : Stack) (i ip port auto : ℕ) (loop : Bool) (iss : Seq) : Stack :=
  let k := s.socks i
  if k.state ≠ .closed ∨ k.finIn ∨ ip = 0 then s
  else s.run i (k.connect s.now loop ip port (if k.port = 0 then auto else k.port) iss)

/-- `op_listen`. -/
def listen (s : Stack) (i backlog auto : ℕ) : Stack :=
  let k := s.socks i
  if k.state ≠ .closed ∧ k.state ≠ .listen then s
  else s.put i { k with
    port := if k.port = 0 then auto else k.port, state := .listen, backlog := max 1 (min backlog 8) }

/-- `op_accept`. -/
def accept (s : Stack) (l : ℕ) : Stack :=
  if (s.socks l).state ≠ .listen then s
  else
    match s.find fun k => k.proto = .tcp && k.parent = l + 1 && k.state ≠ .synRcvd with
    | none => s
    | some i => (s.put i { s.socks i with parent := 0, refs := 1 }).holds i (s.held i + 1)

/-! ### Steps -/

/-- What happens. Of a call, `i` is the slot its descriptor refers to. -/
inductive Act
  | segment (src : ℕ) (p : List UInt8) (loop room : Bool) (iss : Seq)
  /-- `icmp_error`, of a `SYN`. -/
  | unreachable (i : ℕ)
  | timeout (i : ℕ)
  | tick (ms : ℕ)
  /-- A send returns. -/
  | resume
  | socket (proto : Proto) (room : Bool)
  | hold (i : ℕ)
  | drop (i : ℕ)
  | bind (i port auto : ℕ)
  | connect (i ip port auto : ℕ) (loop : Bool) (iss : Seq)
  | listen (i backlog auto : ℕ)
  | accept (i : ℕ)
  | shutdown (i : ℕ)
  | write (i : ℕ) (data : List UInt8)
  | read (i size : ℕ) (peek : Bool)
  | error (i : ℕ)
  deriving DecidableEq

/-- What is left of a function goes on. -/
def resume (s : Stack) (f : Frame) : Option Stack :=
  match f with
  | .push i => some (s.run i ((s.socks i).tcpPush s.now false))
  | .closed i err => some (s.put i ((s.socks i).tcpClosed err))
  | .children l i =>
    if i < sockets then
      let s := s.later (.children l (i + 1))
      let k := s.socks i
      if k.proto = .tcp ∧ k.parent = l + 1 then some (s.run i (k.tcpAbort 0)) else some s
    else some (s.put l .free)
  | .linger i till =>
    let k := s.socks i
    if k.proto = .tcp ∧ k.state ≠ .finWait2 ∧ s.now < till then none
    else if k.proto = .tcp ∧ k.state = .finWait2 then some (s.put i { k with timer := s.now + 30000 })
    else some s

/-- Whether the card may be looked at: nothing is being sent. -/
def polls (s : Stack) : Bool :=
  s.frames.all fun f =>
    match f with
    | .linger _ _ => true
    | _ => false

/-- A call of a program that has a descriptor, of a TCP socket. -/
def call (s : Stack) (i : ℕ) (f : Stack) : Option Stack :=
  if s.frames = [] ∧ 0 < s.held i ∧ (s.socks i).proto = .tcp then some f else none

/-- A step. -/
def step (s : Stack) : Act → Option Stack
  | .segment src p loop room iss => some (s.tcpInput src p loop room iss)
  | .unreachable i =>
    let k := s.socks i
    if k.proto = .tcp ∧ k.state = .synSent then some (s.put i (k.tcpClosed econnrefused)) else none
  | .timeout i =>
    let k := s.socks i
    if s.polls ∧ i < sockets ∧ k.proto = .tcp ∧ k.timer ≠ 0 ∧ k.timer ≤ s.now then some (s.run i (k.tcpTimeout s.now))
    else none
  | .tick ms => some { s with now := s.now + ms }
  | .resume =>
    match s.frames with
    | [] => none
    | f :: rest => { s with frames := rest }.resume f
  | .socket proto room =>
    if s.frames = [] ∧ proto ≠ .free then
      some (((s.sockNew room ⟨{ Sock.new proto with refs := 1 }, none, .done, []⟩).map fun r =>
        r.2.holds r.1 (s.held r.1 + 1)).getD s)
    else none
  | .hold i =>
    if s.frames = [] ∧ 0 < s.held i then
      some ((s.put i { s.socks i with refs := ((s.socks i).refs + 1) % 2 ^ 8 }).holds i (s.held i + 1))
    else none
  | .drop i => if s.frames = [] ∧ 0 < s.held i then some (s.drop i) else none
  | .bind i port auto => s.call i (s.bind i port auto)
  | .connect i ip port auto loop iss => s.call i (s.connect i ip port auto loop iss)
  | .listen i backlog auto => s.call i (s.listen i backlog auto)
  | .accept i => s.call i (s.accept i)
  | .shutdown i => s.call i (s.run i ((s.socks i).shutdown s.now))
  | .write i data => s.call i (s.run i ((s.socks i).tcpWrite s.now data).1)
  | .read i size peek => s.call i (s.run i ((s.socks i).tcpRead size peek).1)
  | .error i => s.call i (s.put i { s.socks i with error := 0 })

/-- A run. -/
def steps (s : Stack) : List Act → Option Stack
  | [] => some s
  | a :: as => (s.step a).bind fun s => s.steps as

end Stack
end BaxOS.Net
