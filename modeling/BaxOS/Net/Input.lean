import BaxOS.Lib.Peeks
import BaxOS.Net.Stack

/-!
# A frame comes in: `eth_input`, `ip_input`

What the stack does with a frame, and where in it it looks. A packet is found by where its header is in the
memory it lies in, `h`, and where what follows the header is, `p`. Answers that loop back are read at once,
out of `loop_buf`: each function comes to the state it leaves and how long a packet is in `loop_buf` then, if
one is. Nothing is looked at in a packet once it has been answered, as `ip_out` asks. What goes out by the
card is left out, as nothing here depends on it.
-/

namespace BaxOS.Net.Input
open Function Peeks

/-- `SOCKETS` are numbered as in the stack; `DGRAM_Q`, `NET_ICMP`, `NET_TCP`, `NET_UDP`, `ETH_IP`, `ETH_ARP`. -/
def dgramQ : ℕ := 4096
def netIcmp : UInt8 := 1
def netTcp : UInt8 := 6
def netUdp : UInt8 := 17
def ethIp : ℕ := 0x0800
def ethArp : ℕ := 0x0806

/-- An address, as it lies in memory. -/
abbrev Addr := BitVec 32

/-- `BROADCAST`. -/
def broadcast : Addr := 0xFFFFFFFF

/-- `loopback`. -/
def loopback (ip : Addr) : Bool := ip.toNat % 2 ^ 8 = 127

/-! ### The state -/

/-- What a socket that is not TCP's is: `NET_UDP`, `NET_ICMP`, `SK_RAW` of an IP protocol, `SK_NETLINK`. -/
inductive Kind
  | udp
  | icmp
  | raw (ipproto : UInt8)
  | netlink
  deriving DecidableEq

/-- What such a socket has besides. -/
structure Other where
  kind : Kind
  recverr : Bool
  icmpFilter : ℕ
  errq : Option (ℕ → UInt8)
  errqLen : ℕ

/-- `state`. -/
inductive Link
  | noCard
  | noAddress
  | up
  deriving DecidableEq

/-- What DHCP has asked for and got. -/
structure Dhcp where
  xid : Addr
  got : UInt8
  offered : Addr
  server : Addr
  gotMask : Addr
  gotGateway : Addr
  gotDns : Addr

/-- The state of the stack, as far as a frame can matter to it. -/
structure Host where
  stack : Stack
  others : ℕ → Other
  ttl : ℕ → UInt8
  link : Link
  down : Bool
  myIp : Addr
  mask : Addr
  gateway : Addr
  arps : ℕ → Addr × List UInt8
  arpNext : ℕ
  ipId : ℕ
  loopBuf : ℕ → UInt8
  dhcp : Dhcp

/-- What a step finds: how much time has passed, whether there are pages, a first sequence number. -/
structure Choice where
  ms : ℕ
  room : Bool
  iss : Seq

namespace Host

/-- A slot left as `k`; what is freed is blank. -/
def put (s : Host) (i : ℕ) (k : Sock) : Host :=
  { s with stack := s.stack.put i k, ttl := if k.proto = .free then update s.ttl i 0 else s.ttl }

/-- Whether a slot is a socket of a kind. -/
def isOther (s : Host) (i : ℕ) (kind : Kind) : Bool :=
  (s.stack.socks i).proto = .other && (s.others i).kind = kind

/-- `my_ip | ~mask`. -/
def network (s : Host) : Addr := s.myIp ||| ~~~s.mask

/-- `source_for`. -/
def sourceFor (s : Host) (ip : Addr) : Addr := if loopback ip then ip else s.myIp

/-- `arp_find`. -/
def arpFind (s : Host) (ip : Addr) : Option ℕ := (List.range 4).find? fun i => (s.arps i).1 = ip

/-- `arp_learn`. -/
def arpLearn (s : Host) (ip : Addr) (mac : List UInt8) : Host :=
  match s.arpFind ip with
  | some i => { s with arps := update s.arps i (ip, mac) }
  | none => { s with arps := update s.arps s.arpNext (ip, mac), arpNext := (s.arpNext + 1) % 4 }

/-- `route`, inside `net_poll`: whether there is one, and whether it loops back. -/
def route (s : Host) (ip : Addr) : Option Bool :=
  if loopback ip ∨ ip = s.myIp ∧ ip ≠ 0 then some true
  else if s.link ≠ .up ∨ s.down then none
  else if ip = broadcast ∨ ip = s.network then some false
  else
    let hop := if (ip ^^^ s.myIp) &&& s.mask ≠ 0 then s.gateway else ip
    if hop = 0 then none else if (s.arpFind hop).isSome then some false else none

end Host

/-! ### What is sent -/

/-- Numbers as they go on the wire, and in memory. -/
def be16 (n : ℕ) : List UInt8 := [.ofNat (n / 2 ^ 8), .ofNat n]
def be32 (n : ℕ) : List UInt8 := be16 (n / 2 ^ 16) ++ be16 n
def le32 (n : ℕ) : List UInt8 := [.ofNat n, .ofNat (n / 2 ^ 8), .ofNat (n / 2 ^ 16), .ofNat (n / 2 ^ 24)]

/-- `sum_add`, from 0. -/
def sumAdd : List UInt8 → ℕ
  | [] => 0
  | [a] => a.toNat * 2 ^ 8
  | a :: b :: rest => a.toNat * 2 ^ 8 + b.toNat + sumAdd rest

/-- `sum_end`: of a sum below 2^32 two rounds are enough. -/
def sumEnd (sum : ℕ) : List UInt8 :=
  let fold (n : ℕ) := n % 2 ^ 16 + n / 2 ^ 16
  be16 (2 ^ 16 - 1 - fold (fold sum))

/-- An IP header of 20 bytes. -/
def ipHeader (total id : ℕ) (ttl proto : UInt8) (src dst : Addr) : List UInt8 :=
  let first := [0x45, 0] ++ be16 total ++ be16 id ++ [0, 0, ttl, proto]
  let last := le32 src.toNat ++ le32 dst.toNat
  first ++ sumEnd (sumAdd (first ++ [0, 0] ++ last)) ++ last

/-- An ICMP message, its sum put in. -/
def icmpMessage (type code : UInt8) (rest : List UInt8) : List UInt8 :=
  [type, code] ++ sumEnd (sumAdd ([type, code, 0, 0] ++ rest)) ++ rest

/-- The flags of a segment. -/
def flagsByte (f : Flags) : UInt8 :=
  .ofNat (f.fin.toNat + 2 * f.syn.toNat + 4 * f.rst.toNat + 8 * f.psh.toNat + 16 * f.ack.toNat)

/-- A segment as it goes on the wire, from one address to another. -/
def tcpBytes (src dst : Addr) (sport dport : ℕ) (x : Seg) : List UInt8 :=
  let head := if x.flags.syn then 24 else 20
  let first := be16 sport ++ be16 dport ++ be32 x.seq.toNat ++ be32 x.ackNo.toNat ++
    [.ofNat (head / 4 * 2 ^ 4), flagsByte x.flags] ++ be16 x.win
  let last := [0, 0] ++ (if x.flags.syn then [2, 4, .ofNat (1460 / 2 ^ 8), .ofNat (1460 % 2 ^ 8)] else []) ++ x.data
  let all := first ++ [0, 0] ++ last
  let around := sumAdd (le32 src.toNat) + sumAdd (le32 dst.toNat) + netTcp.toNat + all.length
  first ++ sumEnd (around + sumAdd all) ++ last

namespace Host

/-- `ip_send`: what loops back is in `loop_buf` then. -/
def ipSend (s : Host) (dst : Addr) (loop : Bool) (proto : UInt8) (payload : List UInt8) (ttl : UInt8) :
    Host × Option ℕ :=
  let total := (20 + payload.length) % 2 ^ 16
  let packet := ipHeader total s.ipId ttl proto (s.sourceFor dst) dst ++ payload
  let s := { s with ipId := (s.ipId + 1) % 2 ^ 16 }
  if loop then ({ s with loopBuf := Sock.lay s.loopBuf 0 (packet.take total) }, some total) else (s, none)

/-- `tcp_send`, of a socket. -/
def tcpSend (s : Host) (k : Sock) (ttl : UInt8) (x : Seg) : Host × Option ℕ :=
  let dst : Addr := .ofNat 32 k.peerIp
  s.ipSend dst k.loop netTcp (tcpBytes (s.sourceFor dst) dst k.port k.peerPort x) (if ttl ≠ 0 then ttl else 64)

/-- `tcp_refuse`: `x` is the reset. -/
def tcpRefuse (s : Host) (src : Addr) (sport dport : ℕ) (loop : Bool) (x : Seg) : Host × Option ℕ :=
  s.ipSend src loop netTcp (tcpBytes (s.sourceFor src) src dport sport x) 64

/-- A TCP function runs up to a send. The resets of `tcp_input` are `tcp_refuse`'s. -/
def turn (s : Host) (src : Addr) (loop : Bool) (i : ℕ) (t : Turn) : Host × Option ℕ :=
  let ttl := s.ttl i
  let s := { s with
    stack := s.stack.run i t, ttl := if t.sock.proto = .free then update s.ttl i 0 else s.ttl }
  match t.sent with
  | none => (s, none)
  | some x => if x.flags.rst then s.tcpRefuse src t.sock.peerPort t.sock.port loop x else s.tcpSend t.sock ttl x

end Host

/-! ### Fields -/

/-- Two bytes and four as they go on the wire, and an address. -/
def halfAt (i : ℕ) : Peeks ℕ := do
  let a ← peek i
  let b ← peek (i + 1)
  return a.toNat * 2 ^ 8 + b.toNat

def wordAt (i : ℕ) : Peeks Seq := do
  let a ← halfAt i
  let b ← halfAt (i + 2)
  return .ofNat 32 (a * 2 ^ 16 + b)

def addrAt (i : ℕ) : Peeks Addr := do
  let a ← peek i
  let b ← peek (i + 1)
  let c ← peek (i + 2)
  let d ← peek (i + 3)
  return .ofNat 32 (a.toNat + b.toNat * 2 ^ 8 + c.toNat * 2 ^ 16 + d.toNat * 2 ^ 24)

/-- `(vhl & 15) * 4`. -/
def headLen (vhl : UInt8) : ℕ := vhl.toNat % 2 ^ 4 * 4

/-! ### Sockets -/

/-- `deliver`. -/
def deliver (s : Host) (i h port data size : ℕ) : Peeks Host := do
  let k := s.stack.socks i
  if dgramQ < k.inLen + 12 + size then
    return s
  else
    let src ← look (h + 12) 4
    let ttl ← peek (h + 8)
    let text ← look data size
    let d := [.ofNat size, .ofNat (size / 2 ^ 8)] ++ be16 port ++ src ++ le32 ttl.toNat ++ text
    return s.put i { k with inBuf := Sock.lay k.inBuf k.inLen d, inLen := k.inLen + 12 + size }

/-- `raw_input`, a turn of its loop. -/
def rawTurn (h total : ℕ) (s : Host) (i : ℕ) : Peeks Host := do
  let proto ← peek (h + 9)
  if !s.isOther i (.raw proto) then
    return s
  else if proto = netIcmp then
    let vhl ← peek h
    let type ← peek (h + headLen vhl)
    if type < 32 ∧ (s.others i).icmpFilter.testBit type.toNat then
      return s
    else
      deliver s i h 0 h total
  else
    deliver s i h 0 h total

/-- `raw_input`. -/
def rawInput (s : Host) (h total : ℕ) : Peeks Host := (List.range sockets).foldlM (rawTurn h total) s

/-! ### ICMP -/

/-- `icmp_send_error`. -/
def icmpSendError (s : Host) (h : ℕ) (type code : UInt8) : Peeks (Host × Option ℕ) := do
  let vhl ← peek h
  let quote := headLen vhl + 8
  let total ← halfAt (h + 2)
  let dst ← addrAt (h + 16)
  let src ← addrAt (h + 12)
  if total < quote ∨ dst = broadcast then
    return (s, none)
  else
    match s.route src with
    | none => return (s, none)
    | some loop =>
      let text ← look h quote
      return s.ipSend src loop netIcmp (icmpMessage type code ([0, 0, 0, 0] ++ text)) 64

/-- `icmp_errno`. -/
def icmpErrno (type code : UInt8) : ℕ :=
  if type = 3 then
    ([101, 113, 92, 111, 90, 95, 101, 112, 101, 101, 113, 101, 113, 113][code.toNat]?).getD 113
  else if type = 12 then 71 else 113

/-- `errq_push`: `e` is what comes before the data, all but its size. -/
def errqPush (s : Host) (room : Bool) (i : ℕ) (e : List UInt8) (data size : ℕ) : Peeks Host := do
  let o := s.others i
  if o.errq.isNone ∧ !room then
    return s
  else
    let page := o.errq.getD fun _ => 0
    if 4096 < o.errqLen + 24 + size then
      return { s with others := update s.others i { o with errq := some page } }
    else
      let text ← look data size
      let d := [.ofNat size, .ofNat (size / 2 ^ 8)] ++ e ++ text
      return { s with others := update s.others i { o with
        errq := some (Sock.lay page o.errqLen d), errqLen := o.errqLen + 24 + size } }

/-- `sock_error`: `m` is where the ICMP message is. -/
def sockError (s : Host) (room : Bool) (i h m : ℕ) (dst : Addr) (dport data size : ℕ) : Peeks Host := do
  let type ← peek m
  let code ← peek (m + 1)
  let k := s.stack.socks i
  let err := icmpErrno type code
  if (s.others i).recverr then
    let ttl ← peek (h + 8)
    let next ← halfAt (m + 6)
    let offender ← look (h + 12) 4
    let info := if type = 3 ∧ code = 4 then next else 0
    let e := be16 dport ++ [2, type, code, ttl] ++ le32 dst.toNat ++ le32 err ++ le32 info ++ offender
    let s ← errqPush s room i e data size
    return s.put i { k with error := err }
  else if k.peerIp ≠ 0 ∧ type = 3 ∧ (code = 2 ∨ code = 3) then
    return s.put i { k with error := err }
  else
    return s

/-- `icmp_error`, a turn of its loop: the packet it is about is quoted at `p + 8`, and what follows that
one's header is at `t`. -/
def icmpErrorTurn (room : Bool) (h p t rest : ℕ) (s : Host) (i : ℕ) : Peeks Host := do
  let proto ← peek (p + 17)
  let dst ← addrAt (p + 24)
  let sport ← halfAt t
  let dport ← halfAt (t + 2)
  let k := s.stack.socks i
  if proto = netUdp ∧ s.isOther i .udp ∧ k.port = sport ∧
      (k.peerIp = 0 ∨ k.peerIp = dst.toNat ∧ k.peerPort = dport) then
    sockError s room i h p dst dport (t + 8) (rest - 8)
  else if proto = netIcmp ∧ s.isOther i .icmp then
    let id ← halfAt (t + 4)
    if k.port = id then sockError s room i h p dst 0 t rest else return s
  else if proto = netTcp ∧ k.proto = .tcp ∧ k.port = sport ∧ k.peerIp = dst.toNat ∧ k.peerPort = dport ∧
      k.state = .synSent then
    let type ← peek p
    let code ← peek (p + 1)
    if type = 3 ∧ (code = 2 ∨ code = 3) then return s.put i (k.tcpClosed econnrefused) else return s
  else
    return s

/-- `icmp_error`. -/
def icmpError (s : Host) (room : Bool) (h p len : ℕ) : Peeks Host := do
  if len < 28 then
    return s
  else
    let vhl ← peek (p + 8)
    let head := headLen vhl
    if head < 20 ∨ len < 8 + head + 8 then
      return s
    else
      (List.range sockets).foldlM (icmpErrorTurn room h p (p + 8 + head) (len - 8 - head)) s

/-- `icmp_input`, a turn of its loop. -/
def echoTurn (h p len : ℕ) (s : Host) (i : ℕ) : Peeks Host := do
  if s.isOther i .icmp then
    let id ← halfAt (p + 4)
    if (s.stack.socks i).port = id then deliver s i h 0 p len else return s
  else
    return s

/-- `icmp_input`. -/
def icmpInput (s : Host) (room : Bool) (h p len : ℕ) : Peeks (Host × Option ℕ) := do
  if len < 8 then
    return (s, none)
  else
    let type ← peek p
    if type = 8 then
      let src ← addrAt (h + 12)
      if 1480 < len then
        return (s, none)
      else
        match s.route src with
        | none => return (s, none)
        | some loop =>
          let code ← peek (p + 1)
          let text ← look (p + 4) (len - 4)
          return s.ipSend src loop netIcmp (icmpMessage 0 code text) 64
    else if type = 0 then
      let s ← (List.range sockets).foldlM (echoTurn h p len) s
      return (s, none)
    else if type = 3 ∨ type = 11 ∨ type = 12 then
      let s ← icmpError s room h p len
      return (s, none)
    else
      return (s, none)

/-! ### DHCP and UDP -/

/-- What an option says, of `size` bytes from `o` on. -/
def dhcpOption (code : UInt8) (size o : ℕ) (type : UInt8) (d : Dhcp) : Peeks (UInt8 × Dhcp) := do
  if code = 53 ∧ 1 ≤ size then
    let type ← peek o
    return (type, d)
  else if 4 ≤ size ∧ (code = 1 ∨ code = 3 ∨ code = 6 ∨ code = 54) then
    let a ← addrAt o
    return (type, if code = 1 then { d with gotMask := a } else if code = 3 then { d with gotGateway := a }
      else if code = 6 then { d with gotDns := a } else { d with server := a })
  else
    return (type, d)

/-- The options of `dhcp_input`, from `o` on up to `last`. -/
def dhcpOptions (last o : ℕ) (type : UInt8) (d : Dhcp) : Peeks (UInt8 × Dhcp) := do
  if last < o + 2 then
    return (type, d)
  else
    let code ← peek o
    if code = 255 then
      return (type, d)
    else if code = 0 then
      dhcpOptions last (o + 1) type d
    else
      let size ← peek (o + 1)
      if last < o + 2 + size.toNat then
        return (type, d)
      else
        let r ← dhcpOption code size.toNat (o + 2) type d
        dhcpOptions last (o + 2 + size.toNat) r.1 r.2
termination_by last - o
decreasing_by all_goals omega

/-- `dhcp_input`. -/
def dhcpInput (s : Host) (p len : ℕ) : Peeks Host := do
  if len < 240 then
    return s
  else
    let op ← peek p
    let xid ← addrAt (p + 4)
    let magic ← addrAt (p + 236)
    if op ≠ 2 ∨ xid ≠ s.dhcp.xid ∨ magic ≠ 0x63538263 then
      return s
    else
      let r ← dhcpOptions (p + len) (p + 240) 0 s.dhcp
      let d := r.2
      if r.1 = 2 ∧ d.got = 0 then
        let offered ← addrAt (p + 16)
        return { s with dhcp := { d with offered, got := 2 } }
      else if r.1 = 5 ∧ d.got = 2 then
        return { s with dhcp := { d with got := 5 } }
      else
        return { s with dhcp := d }

/-- The socket that a datagram is for. -/
def Host.udpFind (s : Host) (src : Addr) (sport dport : ℕ) : Option ℕ :=
  (List.range sockets).find? fun i =>
    let k := s.stack.socks i
    s.isOther i .udp && k.port = dport && (k.peerIp = 0 || k.peerIp = src.toNat && k.peerPort = sport)

/-- `udp_input`. -/
def udpInput (s : Host) (h p len : ℕ) : Peeks (Host × Option ℕ) := do
  if len < 8 then
    return (s, none)
  else
    let size ← halfAt (p + 4)
    if len < size ∨ size < 8 then
      return (s, none)
    else
      let dport ← halfAt (p + 2)
      if dport = 68 ∧ s.link = .noAddress then
        let s ← dhcpInput s (p + 8) (size - 8)
        return (s, none)
      else
        let sport ← halfAt p
        let src ← addrAt (h + 12)
        match s.udpFind src sport dport with
        | some i =>
          let s ← deliver s i h sport (p + 8) (size - 8)
          return (s, none)
        | none =>
          let dst ← addrAt (h + 16)
          if dst ≠ broadcast ∧ dst ≠ s.network then icmpSendError s h 3 3 else return (s, none)

/-! ### TCP -/

/-- The options of `tcp_input`, from `i` on up to `off`. -/
def tcpOptions (p off i mss : ℕ) : Peeks ℕ := do
  if off ≤ i + 1 then
    return mss
  else
    let code ← peek (p + i)
    if code = 0 then
      return mss
    else if code = 1 then
      tcpOptions p off (i + 1) mss
    else
      let size ← peek (p + (i + 1))
      if code = 2 ∧ size = 4 ∧ i + 4 ≤ off then
        let most ← halfAt (p + (i + 2))
        tcpOptions p off (i + 4) most
      else if size.toNat < 2 then
        return mss
      else
        tcpOptions p off (i + size.toNat) mss
termination_by off - i
decreasing_by all_goals omega

/-- What `tcp_input` reads into its locals, and all of the data it may take. -/
def tcpSegment (p len : ℕ) : Peeks (Option (ℕ × ℕ × Seg)) := do
  if len < 20 then
    return none
  else
    let head ← peek (p + 12)
    let off := head.toNat / 2 ^ 4 * 4
    if off < 20 ∨ len < off then
      return none
    else
      let sport ← halfAt p
      let dport ← halfAt (p + 2)
      let seq ← wordAt (p + 4)
      let ackNo ← wordAt (p + 8)
      let flags ← peek (p + 13)
      let fl := flags.toNat
      let win ← halfAt (p + 14)
      let mss ← tcpOptions p off 20 536
      let data ← look (p + off) (len - off)
      return some (sport, dport, ⟨seq, ackNo,
        ⟨fl.testBit 0, fl.testBit 1, fl.testBit 2, fl.testBit 3, fl.testBit 4⟩, win, min mss 1460, data⟩)

/-- What `tcp_input` does with a segment; `loop` is whether there is no `hop_src`. -/
def Host.tcpTake (s : Host) (c : Choice) (loop : Bool) (src : Addr) (sport dport : ℕ) (x : Seg) :
    Host × Option ℕ :=
  match s.stack.tcpFind src.toNat sport dport with
  | none => if x.flags.rst then (s, none) else s.tcpRefuse src sport dport loop (Sock.refusal x)
  | some i =>
    let k := s.stack.socks i
    if k.state = .listen then
      if x.flags.rst then (s, none)
      else if x.flags.ack then s.tcpRefuse src sport dport loop (Sock.refusal x)
      else if x.flags.syn && !s.stack.backlogged i then
        let t := (Sock.new .tcp).offered s.stack.now (i + 1) k.port src.toNat sport loop c.iss x
        match s.stack.sockNew c.room t, t.sent with
        | some (j, stack), some answer => { s with stack, ttl := update s.ttl j 0 }.tcpSend t.sock 0 answer
        | _, _ => (s, none)
      else (s, none)
    else s.turn src loop i (k.tcpInput s.stack.now x)

/-- `tcp_input`. -/
def tcpInput (s : Host) (c : Choice) (loop : Bool) (h p len : ℕ) : Peeks (Host × Option ℕ) := do
  let src ← addrAt (h + 12)
  let segment ← tcpSegment p len
  match segment with
  | none => return (s, none)
  | some (sport, dport, x) => return s.tcpTake c loop src sport dport x

/-! ### IP and Ethernet -/

/-- Whether `ip_input` takes a packet for this host. -/
def Host.hears (s : Host) (dst : Addr) : Bool :=
  s.myIp = 0 || dst = s.myIp || dst = broadcast || dst = s.network || loopback dst

/-- `ip_input`, of `len` bytes from `h` on. -/
def ipInput (s : Host) (c : Choice) (loop : Bool) (h len : ℕ) : Peeks (Host × Option ℕ) := do
  if len < 20 then
    return (s, none)
  else
    let vhl ← peek h
    let head := headLen vhl
    let total ← halfAt (h + 2)
    let frag ← halfAt (h + 6)
    let dst ← addrAt (h + 16)
    if vhl.toNat / 2 ^ 4 ≠ 4 ∨ len < total ∨ total < head ∨ frag % 2 ^ 14 ≠ 0 ∨ !s.hears dst then
      return (s, none)
    else
      let s ← rawInput s h total
      let proto ← peek (h + 9)
      if proto = netIcmp then icmpInput s c.room h (h + head) (total - head)
      else if proto = netUdp then udpInput s h (h + head) (total - head)
      else if proto = netTcp then tcpInput s c loop h (h + head) (total - head)
      else return (s, none)

/-- `arp_input`, of `len` bytes from `a` on. -/
def arpInput (s : Host) (a len : ℕ) : Peeks Host := do
  if len < 28 then
    return s
  else
    let ptype ← halfAt (a + 2)
    let tpa ← addrAt (a + 24)
    if ptype ≠ ethIp ∨ s.myIp = 0 ∨ tpa ≠ s.myIp then
      return s
    else
      let spa ← addrAt (a + 14)
      let sha ← look (a + 8) 6
      let _op ← halfAt (a + 6)
      return s.arpLearn spa sha

/-- `eth_input`, of a frame of `len` bytes. The hop it came from is looked at where it is pointed to. -/
def ethInput (s : Host) (c : Choice) (len : ℕ) : Peeks (Host × Option ℕ) := do
  if s.down ∨ len < 14 then
    return (s, none)
  else
    let type ← halfAt 12
    if 34 ≤ len ∧ type = ethIp then
      let src ← addrAt 26
      let hop ← look 6 6
      let s := if s.myIp ≠ 0 ∧ (src ^^^ s.myIp) &&& s.mask = 0 then s.arpLearn src hop else s
      ipInput s c false 14 (len - 14)
    else if type = ethArp then
      let s ← arpInput s 14 (len - 14)
      return (s, none)
    else
      return (s, none)

/-! ### What follows a frame -/

/-- A packet that was looked at: how long it is, and where. -/
structure Look where
  len : ℕ
  at_ : List ℕ

/-- It was not looked at past its end. -/
def Look.Inside (l : Look) : Prop := ∀ i ∈ l.at_, i < l.len

/-- What comes next: the packet in `loop_buf` is read, or what a TCP function has left to do goes on. -/
def next (x : Host × Option ℕ) (c : Choice) : (Host × Option ℕ) × Look :=
  let s := { x.1 with stack := { x.1.stack with now := x.1.stack.now + c.ms } }
  match x.2 with
  | some n =>
    let r := ipInput s c true 0 n s.loopBuf
    (r.1, ⟨n, r.2⟩)
  | none =>
    match s.stack.frames with
    | .push i :: rest =>
      -- `tcp_push` sends no reset, so that whom one would go to does not matter
      let s := { s with stack := { s.stack with frames := rest } }
      (s.turn 0 true i ((s.stack.socks i).tcpPush s.stack.now false), ⟨0, []⟩)
    | .closed i err :: rest =>
      let s := { s with stack := { s.stack with frames := rest } }
      ((s.put i ((s.stack.socks i).tcpClosed err), none), ⟨0, []⟩)
    | _ => ((s, none), ⟨0, []⟩)

/-- All that is looked at in some steps. -/
def looks (x : Host × Option ℕ) : List Choice → List Look
  | [] => []
  | c :: cs => (next x c).2 :: looks (next x c).1 cs

/-! ### The segment is the one the sockets are told of -/

section
variable {memory : ℕ → UInt8} {p len i : ℕ}

/-- The bytes of a packet. -/
def packet (memory : ℕ → UInt8) (p len : ℕ) : List UInt8 := (List.range len).map fun i => memory (p + i)

theorem byte_packet (hi : i < len) : byte (packet memory p len) i = (memory (p + i)).toNat := by
  unfold byte packet
  rw [List.getD_eq_getElem?_getD, List.getElem?_map, List.getElem?_range hi]
  rfl

theorem half_packet (hi : i + 1 < len) : half (packet memory p len) i = (halfAt (p + i) memory).1 := by
  unfold half
  rw [byte_packet (by omega), byte_packet hi]
  rfl

theorem word_packet (hi : i + 3 < len) : word (packet memory p len) i = (wordAt (p + i) memory).1 := by
  unfold word
  rw [half_packet (by omega), half_packet hi]
  rfl

/-- As many turns as there are bytes of options are enough. -/
theorem largest_packet {off : ℕ} (hoff : off ≤ len) (i mss : ℕ) : ∀ fuel, off - i ≤ fuel →
    largest (packet memory p len) off fuel i mss = (tcpOptions p off i mss memory).1 := by
  induction i, mss using tcpOptions.induct off with
  | case1 i mss hend =>
    intro fuel _
    rw [tcpOptions, if_pos hend]
    cases fuel with
    | zero => rfl
    | succ fuel => rw [largest, if_neg (by omega), pure_apply]
  | case2 i mss hmore ihpad ihmost ihnext =>
    intro fuel hfuel
    obtain ⟨fuel, rfl⟩ : ∃ k, fuel = k + 1 := ⟨fuel - 1, by omega⟩
    have hzero : ∀ b : UInt8, b.toNat = 0 ↔ b = 0 := fun b => UInt8.toNat_inj (b := 0)
    have hone : ∀ b : UInt8, b.toNat = 1 ↔ b = 1 := fun b => UInt8.toNat_inj (b := 1)
    have htwo : ∀ b : UInt8, b.toNat = 2 ↔ b = 2 := fun b => UInt8.toNat_inj (b := 2)
    have hfour : ∀ b : UInt8, b.toNat = 4 ↔ b = 4 := fun b => UInt8.toNat_inj (b := 4)
    rw [tcpOptions, if_neg hmore, bind_apply, peek_apply, largest, byte_packet (by omega),
      byte_packet (by omega)]
    simp only
    by_cases hend : memory (p + i) = 0
    · rw [if_neg fun h => h.2 ((hzero _).2 hend), if_pos hend, pure_apply]
    rw [if_pos ⟨by omega, fun h => hend ((hzero _).1 h)⟩, if_neg hend]
    by_cases hpad : memory (p + i) = 1
    · rw [if_pos ((hone _).2 hpad), if_pos hpad]
      exact ihpad _ (by omega)
    rw [if_neg fun h => hpad ((hone _).1 h), if_neg hpad, bind_apply, peek_apply]
    simp only
    have hiff : ((memory (p + i)).toNat = 2 ∧ (memory (p + (i + 1))).toNat = 4 ∧ i + 4 ≤ off) ↔
        memory (p + i) = 2 ∧ memory (p + (i + 1)) = 4 ∧ i + 4 ≤ off :=
      and_congr (htwo _) (and_congr (hfour _) Iff.rfl)
    by_cases hmost : memory (p + i) = 2 ∧ memory (p + (i + 1)) = 4 ∧ i + 4 ≤ off
    · have hsize : (memory (p + (i + 1))).toNat = 4 := (hfour _).2 hmost.2.1
      rw [if_pos (hiff.2 hmost), if_pos hmost, bind_apply, half_packet (by omega), hsize, if_neg (by decide)]
      exact ihmost _ _ hmost _ _ (by omega)
    · rw [if_neg fun h => hmost (hiff.1 h), if_neg hmost]
      by_cases hsize : (memory (p + (i + 1))).toNat < 2
      · rw [if_pos hsize, if_pos hsize, pure_apply]
      · rw [if_neg hsize, if_neg hsize]
        exact ihnext _ hsize _ (by omega)

/-- What is read of a segment is what the stack's model takes it for. -/
theorem tcpSegment_eq (memory : ℕ → UInt8) (p len : ℕ) :
    (tcpSegment p len memory).1 = parse (packet memory p len) := by
  have hlen : (packet memory p len).length = len := by simp [packet]
  unfold tcpSegment parse
  rw [hlen]
  by_cases hshort : len < 20
  · rw [if_pos hshort, if_pos (.inl hshort), pure_apply]
  rw [if_neg hshort, bind_apply, peek_apply, byte_packet (by omega)]
  simp only
  by_cases hoff : (memory (p + 12)).toNat / 2 ^ 4 * 4 < 20 ∨ len < (memory (p + 12)).toNat / 2 ^ 4 * 4
  · rw [if_pos hoff, if_pos (.inr hoff), pure_apply]
  rw [if_neg hoff, if_neg (by tauto)]
  push Not at hoff
  rw [half_packet (by omega), half_packet (by omega), word_packet (by omega), word_packet (by omega),
    byte_packet (by omega), half_packet (by omega), largest_packet hoff.2 _ _ _ (by omega)]
  have hdata : ∀ off, (packet memory p len).drop off = (look (p + off) (len - off) memory).1 := by
    intro off
    unfold packet look
    refine List.ext_getElem (by simp) fun k hk _ => ?_
    simp [Nat.add_assoc]
  rw [hdata]
  rfl

/-- **What a segment does to the sockets** is what the stack's model says. -/
theorem tcpInput_stack (s : Host) (c : Choice) (loop : Bool) (h p len : ℕ) (memory : ℕ → UInt8) :
    (tcpInput s c loop h p len memory).1.1.stack =
      s.stack.tcpInput (addrAt (h + 12) memory).1.toNat (packet memory p len) loop c.room c.iss := by
  have hsend : ∀ (s : Host) dst loop proto payload ttl,
      (s.ipSend dst loop proto payload ttl).1.stack = s.stack := by
    intro s dst loop proto payload ttl
    unfold Host.ipSend
    cases loop <;> rfl
  have hturn : ∀ (s : Host) src loop i t, (s.turn src loop i t).1.stack = s.stack.run i t := by
    intro s src loop i t
    unfold Host.turn
    cases t.sent with
    | none => rfl
    | some x =>
      cases hrst : x.flags.rst
      · simp only [hrst]
        exact hsend _ _ _ _ _ _
      · simp only [hrst]
        exact hsend _ _ _ _ _ _
  unfold tcpInput Stack.tcpInput
  rw [bind_apply, bind_apply, tcpSegment_eq]
  cases parse (packet memory p len) with
  | none => rfl
  | some r =>
    obtain ⟨sport, dport, x⟩ := r
    simp only [pure_apply]
    unfold Host.tcpTake
    cases s.stack.tcpFind (addrAt (h + 12) memory).1.toNat sport dport with
    | none =>
      simp only
      split_ifs
      · rfl
      · exact hsend _ _ _ _ _ _
    | some i =>
      simp only
      by_cases hlisten : (s.stack.socks i).state = .listen
      · rw [if_pos hlisten, if_pos hlisten]
        cases hrst : x.flags.rst with
        | true =>
          rw [if_pos rfl, if_neg (by simp)]
        | false =>
          cases hack : x.flags.ack with
          | true =>
            rw [if_neg (by simp), if_pos rfl, if_neg (by simp)]
            exact hsend _ _ _ _ _ _
          | false =>
            rw [if_neg (by simp), if_neg (by simp)]
            simp only [Bool.not_false, Bool.and_true]
            cases x.flags.syn && !s.stack.backlogged i with
            | false => rfl
            | true =>
              simp only [if_true]
              cases s.stack.sockNew c.room ((Sock.new .tcp).offered s.stack.now (i + 1) (s.stack.socks i).port
                  (addrAt (h + 12) memory).1.toNat sport loop c.iss x) with
              | none => rfl
              | some r => exact hsend _ _ _ _ _ _
      · rw [if_neg hlisten, if_neg hlisten]
        exact hturn _ _ _ _ _

end

end BaxOS.Net.Input
