import BaxOS.Tuxpac.Tar

/-!
# Fetching: `http_open`, `sock_fill`, `http_close`

A connection is what each wait for it finds: a piece, or nothing, where none comes in time or `sys_recv`
fails; a piece longer than what is asked for is found again. What is asked of the server does not matter
here, so that a request is only whether it could be sent.
-/

namespace BaxOS.Tuxpac

/-! ### Connections -/

/-- Some bytes. -/
structure Piece where
  bytes : List UInt8
  ne : bytes ≠ []

/-- A connection: what is found on it until it is closed, and whether a request can be sent on it. -/
structure Conn where
  arrivals : List (Option Piece)
  takes : Bool

/-- `receive`. -/
def Conn.receive (c : Conn) (cap : ℕ) : List UInt8 × Conn :=
  match c.arrivals with
  | [] => ([], c)
  | none :: as => ([], { c with arrivals := as })
  | some a :: as =>
    if h : cap < a.bytes.length then
      (a.bytes.take cap, { c with arrivals := some ⟨a.bytes.drop cap, by simpa using h⟩ :: as })
    else (a.bytes, { c with arrivals := as })

/-- `NBUF`. -/
def netRoom : ℕ := 16384

/-- `~0`: to the close. -/
def toClose : ℕ := 2 ^ 64 - 1

/-- `struct source` of a response: `buf` up to `len`, `pos`, `left` and `fd`. -/
structure Source where
  buf : List UInt8
  pos : ℕ
  left : ℕ
  conn : Conn

/-- `sock_fill`. -/
def sockFill (b : Source) : Source :=
  let (d, conn) := if b.left = 0 then ([], b.conn)
    else b.conn.receive (if b.left < netRoom then b.left else netRoom)
  { buf := d, pos := 0, left := if b.left ≠ toClose then b.left - d.length else b.left, conn }

/-- What is read of a source that is filled `n` times, or to where a fill finds nothing, which is taken
for its end; and the source then. -/
def fills : ℕ → Source → List UInt8 × Source
  | 0, b => (b.buf.drop b.pos, b)
  | n + 1, b =>
    let b' := sockFill b
    if b'.buf = [] then (b.buf.drop b.pos, b')
    else
      let (s, b'') := fills n b'
      (b.buf.drop b.pos ++ s, b'')

/-! ### Heads -/

/-- A blank line's end, and the end of the line before it. -/
def blankLine : List UInt8 := [13, 10, 13, 10]

def blankAt (s : List UInt8) (i : ℕ) : Bool := (s.drop i).take 4 = blankLine

/-- The loop that reads a head: what has been received, where the head ends, 0 for nowhere, and the
connection then. -/
def headOn : ℕ → Conn → List UInt8 → List UInt8 × ℕ × Conn
  | 0, c, buf => (buf, 0, c)
  | n + 1, c, buf =>
    let (d, c) := if buf.length < netRoom - 1 then c.receive (netRoom - 1 - buf.length) else ([], c)
    if d = [] then (buf, 0, c)
    else
      let from_ := buf.length - 3
      let buf := buf ++ d
      match (List.range' from_ (buf.length - 3 - from_)).find? (blankAt buf ·) with
      | some i => (buf, i + 4, c)
      | none => headOn n c buf

/-- The head, whole, and whatever of the body came with it. -/
def readHead (c : Conn) : List UInt8 × ℕ × Conn := if c.takes then headOn netRoom c [] else ([], 0, c)

/-- `lower`. -/
def lower (c : UInt8) : UInt8 := if 65 ≤ c ∧ c ≤ 90 then c + 32 else c

/-- What is after each newline of a text. -/
def afterNewlines : Text → List Text
  | [] => []
  | c :: cs => if c = newline then cs :: afterNewlines cs else afterNewlines cs

/-- `header`: what is after a header's name, the head to its end. -/
def header (head : Text) (name : String) : Option Text :=
  (head :: afterNewlines head).findSome? fun line =>
    if (text name).isPrefixOf (line.map lower) then
      some ((line.drop (text name).length).dropWhile (· = space))
    else none

/-- What a number's digits are worth. -/
def decimal (s : Text) : ℕ := (s.takeWhile digit).foldl (fun n c => n * 10 + (c.toNat - 48)) 0

/-- `status_code`. -/
def statusOf (head : Text) : ℕ := decimal ((head.dropWhile (· ≠ space)).drop 1) % 2 ^ 32

/-- Whether the body is said to come in chunks. -/
def chunked (head : Text) : Bool := (header head "transfer-encoding:").any ((text "chunked").isPrefixOf ·)

/-- Whether the server keeps the connection open. -/
def keeps (head : Text) : Bool := (header head "connection:").all (!(text "close").isPrefixOf ·)

/-- The number `content-length:` gives. -/
def lengthOf (head : Text) : Option ℕ := (header head "content-length:").map decimal

/-! ### Replies -/

/-- What is made of a connection: no answer, one whose length is not known, one that is somewhere else,
one with no body to read, or a body, and whether the connection may be kept. -/
inductive Reply
  | none
  | unmeasured
  | moved (loc : Text)
  | refused (status : ℕ)
  | body (src : Source) (keep : Bool)

/-- What `http_open` does with the connection a request was sent on. -/
def reply (old : Bool) (c : Conn) : Reply :=
  let (buf, stop, conn) := readHead c
  if stop = 0 then .none
  else
    let head := cstr (buf.take (stop - 1))
    let status := statusOf head
    let length := lengthOf head
    if !old && (length = Option.none || chunked head) then .unmeasured
    else
      match header head "location:" with
      | some loc =>
        if 300 ≤ status ∧ status < 400 then .moved loc
        else bodyReply old buf stop conn head status (length.getD 0)
      | Option.none => bodyReply old buf stop conn head status (length.getD 0)
where
  /-- The body ahead, if there is one. -/
  bodyReply (old : Bool) (buf : List UInt8) (stop : ℕ) (conn : Conn) (head : Text) (status length : ℕ) :
      Reply :=
    if status ≠ 200 then .refused status
    else if old then .body ⟨buf, stop, toClose, conn⟩ false
    else
      let body := length % 2 ^ 64
      let came := buf.length - stop
      if body < came then .body ⟨buf.take (stop + body), stop, 0, conn⟩ (keeps head)
      else .body ⟨buf, stop, body - came, conn⟩ (keeps head)

/-! ### `http_open` -/

/-- Where a request goes. -/
structure Dest where
  host : Text
  port : ℕ
  deriving DecidableEq

/-- The sizes of `where` and `next`, and of `host` and `kept_host`. -/
def urlRoom : ℕ := 384
def hostRoom : ℕ := 128

/-- The host and the port of a URL. -/
def destOf (url : Text) : Option Dest :=
  if (text "http://").isPrefixOf url then
    let p := url.drop 7
    let host := (p.takeWhile fun c => c ≠ slash ∧ c ≠ colon).take (hostRoom - 1)
    let p := p.drop host.length
    some ⟨host, if p.head? = some colon then decimal p.tail % 2 ^ 32 else 80⟩
  else none

/-- Where a `location:` is, seen from where it was got. -/
def moveTo (d : Dest) (loc : Text) : Text :=
  let base := if loc.head? = some slash then text "http://" ++ d.host ++ [colon] ++ text (toString d.port)
    else []
  base ++ (loc.takeWhile fun c => 32 < c ∧ c < 128).take (urlRoom - 1 - base.length)

/-- The connection kept open and where it goes; where the response being read may leave it open to; what
`sys_connect` gives next, `none` where it fails; and which hosts can be resolved. -/
structure Web where
  kept : Option (Conn × Dest)
  keepOpen : Option Dest
  coming : List (Option Conn)
  resolves : Text → Bool

/-- The connection a request is sent on, and whether it is the one that was kept. -/
def connectTo (w : Web) (d : Dest) (old : Bool) : Option (Conn × Bool) × Web :=
  match if old then Option.none else w.kept.filter fun k => k.2 = d with
  | some (c, _) => (some (c, true), { w with kept := none, keepOpen := none })
  | none =>
    let w := { w with kept := none }
    match w.coming with
    | [] => (none, w)
    | none :: cs => (none, { w with coming := cs })
    | some c :: cs =>
      if w.resolves d.host then (some (c, false), { w with coming := cs, keepOpen := none })
      else (none, { w with coming := cs })

/-- A request that was sent: the old way or not, and what it was sent on. -/
structure Request where
  old : Bool
  conn : Conn

/-- `again`: what came of a request in the end, and all that were sent. It is sent again where the kept
connection gave no answer, and where a length is missing, the old way. -/
def again : ℕ → Web → Dest → Bool → Reply × Web × List Request
  | 0, w, _, _ => (.none, w, [])
  | n + 1, w, d, old =>
    match connectTo w d old with
    | (none, w) => (.none, w, [])
    | (some (c, reused), w) =>
      match reply old c with
      | .none =>
        if reused then
          let (r, w, asked) := again n w d old
          (r, w, ⟨old, c⟩ :: asked)
        else (.none, w, [⟨old, c⟩])
      | .unmeasured =>
        let (r, w, asked) := again n w d true
        (r, w, ⟨old, c⟩ :: asked)
      | r => (r, w, [⟨old, c⟩])

/-- What `http_open` leaves: the source, if it answers true, `http_status`, and all the requests sent. -/
structure Fetch where
  source : Option Source
  web : Web
  status : ℕ
  asked : List Request

/-- The loop over redirects. -/
def hops : ℕ → Web → Text → Fetch
  | 0, w, _ => ⟨none, w, 0, []⟩
  | n + 1, w, url =>
    match destOf url with
    | none => ⟨none, w, 0, []⟩
    | some d =>
      let (r, w, asked) := again 3 w d false
      match r with
      | .body src keep =>
        ⟨some src, { w with keepOpen := if keep && d.host.length < hostRoom then some d else none }, 0, asked⟩
      | .moved loc =>
        let f := hops n w (moveTo d loc)
        { f with asked := asked ++ f.asked }
      | .refused status => ⟨none, w, status, asked⟩
      | _ => ⟨none, w, 0, asked⟩

/-- `http_open`. -/
def httpOpen (w : Web) (url : Text) : Fetch :=
  if urlRoom ≤ url.length then ⟨none, w, 0, []⟩ else hops 5 w url

/-- `http_close`. -/
def httpClose (w : Web) (b : Source) : Web :=
  match w.keepOpen with
  | some d => { w with kept := if b.left = 0 then some (b.conn, d) else w.kept, keepOpen := none }
  | none => w

end BaxOS.Tuxpac
