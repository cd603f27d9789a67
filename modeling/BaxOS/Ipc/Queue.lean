import BaxOS.Lib.Runs
import BaxOS.Ipc.Pair
import BaxOS.Ipc.Ends

/-!
# A pipe is a queue with two ends

Pipes, FIFOs and stream socketpairs are made, their descriptors made more and fewer, and calls read
and write them, a turn at a time. In every run in which the descriptors a call uses stay open and no
`pipe` that fails leaves its write end behind, what is read is what was written, in order and once;
a read reports the end only of a pipe that is empty, and that nobody writes to or that nothing else
runs to write to; and a write waits only for a reader there is (`run_queue`). A read with nothing
else to run reports the end of a pipe whose write end is open (`exists_not_ended`).
-/

namespace BaxOS.Ipc
open Function

/-- What a call asks for. -/
inductive Job
  | write (buf : List UInt8)
  | read (count : ℕ)
  deriving DecidableEq

/-- A call: the descriptor it uses, the slot it found there and the pipe that was in it, how much of
a write is in, and what it returned. -/
structure Call where
  fd : End
  slot : ℕ
  pipe : ℕ
  job : Job
  done : ℕ
  result : Option (Except Errno ℕ)
  deriving DecidableEq

/-- The state: the pipes, the descriptors open on them, the calls and the number of the next. Beside
it, what the state does not say: a number for each pipe ever made, and for each the bytes that the
calls that write report, by call, and those that the calls that read return. -/
structure Queues (D : Type) where
  pipes : ℕ → Pipe D
  ends : List End
  calls : ℕ → Option Call
  begun : ℕ
  number : ℕ → ℕ
  made : ℕ
  put : ℕ → List (ℕ × UInt8)
  got : ℕ → List UInt8

/-- How much a write has in after a turn. -/
def Turn.moved (done : ℕ) : Turn (List UInt8 × ℕ) ℕ → ℕ
  | .returns (.ok n) => n
  | .returns (.error _) => done
  | .waits (_, n) => n

/-- `open`'s access mode: `O_RDONLY`, `O_WRONLY`, `O_RDWR`, and both bits. -/
inductive Access
  | rdonly
  | wronly
  | rdwr
  | both

/-- How often a descriptor opened so holds the FIFO's pipe. -/
def Access.holds : Access → ℕ
  | .rdwr => 2
  | _ => 1

/-- Whether it is counted as a write end. -/
def Access.counts : Access → ℕ
  | .rdonly => 0
  | _ => 1

/-- What a program does, and what it finds: whether there is memory, and room for the descriptors. -/
inductive Act
  | pipe (alloc reads writes : Bool)
  | socketpair (first second given : Bool)
  | fifo (entry : ℕ) (mode : Access) (alloc given : Bool)
  | dup (fd : End)
  | close (fd : End)
  | call (fd : End) (job : Job) (looks : Looks) (alloc : ℕ → Bool)
  | resume (c : ℕ) (looks : Looks) (alloc : ℕ → Bool)

variable {D : Type}

namespace Queues

/-- A pipe made in a slot. -/
def make (s : Queues D) (i : ℕ) (p : Pipe D) : Queues D :=
  { s with pipes := update s.pipes i p, number := update s.number i s.made, made := s.made + 1 }

/-- `sys_pipe2`, for each descriptor whether there is room for it. -/
def pipe2 (s : Queues D) (alloc reads writes : Bool) : Queues D :=
  match pipeSlot s.pipes, alloc with
  | some i, true =>
    let s := s.make i { Pipe.free with size := pipeFirst, refs := 2, count := 1 }
    if reads && writes then { s with ends := ⟨i, .read⟩ :: ⟨i, .write⟩ :: s.ends }
    else
      -- a write end that was given is not taken back
      { s with
        pipes := update s.pipes i Pipe.free
        ends := if writes then ⟨i, .write⟩ :: s.ends else s.ends }
  | _, _ => s

/-- A pipe of a new socketpair. -/
def pairHalf : Pipe D := { Pipe.free with size := pipeFirst, refs := 2, count := 1 }

/-- `sys_socketpair` of streams. -/
def socketpair (s : Queues D) (first second given : Bool) : Queues D :=
  match pipeSlot s.pipes, first with
  | some i, true =>
    let s := s.make i pairHalf
    match pipeSlot s.pipes, second with
    | some j, true =>
      let s := s.make j pairHalf
      if given then { s with ends := ⟨i, .pair (some j)⟩ :: ⟨j, .pair (some i)⟩ :: s.ends }
      else
        let t := (pipeRelease s.pipes ⟨i, .pair (some j)⟩).1
        { s with pipes := (pipeRelease t ⟨j, .pair (some i)⟩).1 }
    | _, _ => { s with pipes := (pipeDrop s.pipes (some i)).1 }
  | _, _ => s

/-- The descriptor a FIFO is opened with. -/
def fifoEnd (i : ℕ) : Access → End
  | .rdonly => ⟨i, .read⟩
  | .wronly => ⟨i, .write⟩
  | .rdwr => ⟨i, .pair (some i)⟩
  | .both => ⟨i, .pair none⟩

/-- A FIFO's pipe, opened. -/
def opened (p : Pipe D) (mode : Access) : Pipe D :=
  { p with refs := p.refs + mode.holds, count := p.count + mode.counts }

/-- A FIFO's pipe with one descriptor more, if there is room for that. -/
def fifoOn (s : Queues D) (i : ℕ) (mode : Access) (given : Bool) : Queues D :=
  let s := { s with pipes := update s.pipes i (opened (s.pipes i) mode) }
  if given then { s with ends := fifoEnd i mode :: s.ends }
  else { s with pipes := (pipeRelease s.pipes (fifoEnd i mode)).1 }

/-- The pipe of a FIFO that is opened first. -/
def fifoHalf (number : ℕ) : Pipe D := { Pipe.free with size := pipeFirst, fifo := number }

/-- `fifo_open`: the FIFO's number is its entry's in the file table, from one. -/
def fifoOpen (s : Queues D) (entry : ℕ) (mode : Access) (alloc given : Bool) : Queues D :=
  let number := entry + 1
  match (List.range pipeSlots).find? fun i => 0 < (s.pipes i).refs ∧ (s.pipes i).fifo = number with
  | some i => s.fifoOn i mode given
  | none =>
    match pipeSlot s.pipes, alloc with
    | some i, true => (s.make i (fifoHalf number)).fifoOn i mode given
    | _, _ => s

/-- The pipe a call is about, or why there is none. -/
def target (s : Queues D) (fd : End) : Job → Except Errno ℕ
  | .write _ => match fd.kind with
    | .pair _ => (pairOut s.pipes fd).elim (.error .epipe) .ok
    | .write => (pipeOf s.pipes fd).elim (.error .ebadf) .ok
    | _ => .error .ebadf
  | .read _ => (pipeOf s.pipes fd).elim (.error .ebadf) .ok

/-- A call entered: what it is about looked up. -/
def enter (s : Queues D) (fd : End) (job : Job) : Queues D :=
  { s with
    calls := update s.calls s.begun (some <| match s.target fd job with
      | .ok i => ⟨fd, i, s.number i, job, 0, none⟩
      | .error e => ⟨fd, 0, 0, job, 0, some (.error e)⟩)
    begun := s.begun + 1 }

/-- A turn of a call that has not returned. -/
def turn (s : Queues D) (c : ℕ) (looks : Looks) (alloc : ℕ → Bool) : Queues D :=
  match s.calls c with
  | none => s
  | some call =>
    if call.result.isSome then s
    else
      match call.job with
      | .write buf =>
        let (p, t) := (s.pipes call.slot).write (call.fd.kind = .write) looks alloc
          (buf.drop call.done) call.done
        let done := t.moved call.done
        { s with
          pipes := update s.pipes call.slot p
          calls := update s.calls c (some { call with done, result := t.result })
          put := update s.put call.pipe (s.put call.pipe ++
            ((buf.drop call.done).take (done - call.done)).map (Prod.mk c)) }
      | .read count =>
        let (p, t) := (s.pipes call.slot).sysRead call.fd.kind false looks count
        let got := match t with
          | .returns (.ok taken) => taken.got
          | _ => []
        { s with
          pipes := update s.pipes call.slot p
          calls := update s.calls c (some { call with
            result := t.result.map (Except.map fun taken => taken.got.length) })
          got := update s.got call.pipe (s.got call.pipe ++ got) }

/-- The next step. -/
def step (s : Queues D) : Act → Queues D
  | .pipe alloc reads writes => s.pipe2 alloc reads writes
  | .socketpair first second given => s.socketpair first second given
  | .fifo entry mode alloc given => s.fifoOpen entry mode alloc given
  | .dup fd => if fd ∈ s.ends then { s with pipes := pipeHold s.pipes fd, ends := fd :: s.ends } else s
  | .close fd =>
    if fd ∈ s.ends then { s with pipes := (pipeRelease s.pipes fd).1, ends := s.ends.erase fd } else s
  | .call fd job looks alloc => if fd ∈ s.ends then (s.enter fd job).turn s.begun looks alloc else s
  | .resume c looks alloc => s.turn c looks alloc

/-- A run. -/
def run (s : Queues D) (as : List Act) : Queues D := as.foldl step s

end Queues

/-- The state the kernel starts in. -/
structure Started (s : Queues D) : Prop where
  pipes : s.pipes = fun _ => Pipe.free
  ends : s.ends = []
  calls : s.calls = fun _ => none
  begun : s.begun = 0
  made : s.made = 0
  put : s.put = fun _ => []
  got : s.got = fun _ => []

/-! ### What it says -/

/-- The bytes a call has put in its pipe. -/
def Queues.sent (s : Queues D) (c : ℕ) (call : Call) : List UInt8 :=
  ((s.put call.pipe).filter fun x => x.1 = c).map Prod.snd

/-- The call that takes a turn in a step. -/
def Queues.turns (s : Queues D) : Act → Option (ℕ × Looks)
  | .call fd _ looks _ => if fd ∈ s.ends then some (s.begun, looks) else none
  | .resume c looks _ => if (s.calls c).any fun call => call.result.isNone then some (c, looks) else none
  | _ => none

/-- What holds of a call after its turn. -/
structure Turned (s : Queues D) (call : Call) (looks : Looks) : Prop where
  /-- A read reports the end of a pipe that is empty, and that nobody writes to; or there is nothing
  else that could. -/
  ended : ∀ count, call.job = .read count → 0 < count → call.result = some (.ok 0) →
    (s.pipes call.slot).bytes = [] ∧ (looks.alone = true ∨ ∀ e ∈ s.ends, e.writes call.slot = 0)
  /-- A write, but to a socketpair's other end, waits for a reader there is, -/
  waits : ∀ buf, call.job = .write buf → call.fd.kind = .write ∨ call.fd.Reads call.slot →
    call.result = none → ∃ e ∈ s.ends, e.Reads call.slot
  /-- and with none it does not: it says what it had written, or `EPIPE`. -/
  broken : ∀ buf, call.job = .write buf → call.fd.kind = .write →
    (∀ e ∈ s.ends, ¬e.Reads call.slot) → call.done < buf.length →
      call.result = some (Pipe.stopped call.done .epipe)

/-- **A pipe is a queue with two ends.** -/
structure Queue (s : Queues D) : Prop where
  /-- What has been read of a pipe comes first in what has been written to it, and what waits comes
  after. -/
  order : ∀ k, s.got k <+: (s.put k).map Prod.snd
  rest : ∀ i, 0 < (s.pipes i).refs →
    s.got (s.number i) ++ (s.pipes i).bytes = (s.put (s.number i)).map Prod.snd
  /-- What has been written to it are the first bytes of each call's, as many as the call reports. -/
  reports : ∀ c call buf, s.calls c = some call → call.job = .write buf →
    s.sent c call = buf.take call.done ∧ (∀ n, call.result = some (.ok n) → n = call.done) ∧
      ∀ e, call.result = some (.error e) → call.done = 0
  only : ∀ k x, x ∈ s.put k → ∃ call buf, s.calls x.1 = some call ∧ call.pipe = k ∧
    call.job = .write buf
  room : ∀ i, 0 < (s.pipes i).refs → (s.pipes i).bytes.length ≤ pipeCap
  turned : ∀ a c looks, s.turns a = some (c, looks) →
    ∃ call, (s.step a).calls c = some call ∧ Turned (s.step a) call looks

/-- **What it holds by**: the descriptors calls use stay open, and a `pipe` that finds no room for its
read end finds none for its write end. -/
def Steady (s : Queues D) : Act → Prop
  | .pipe _ reads writes => writes = true → reads = true
  | .close fd => ∀ c call, s.calls c = some call → call.result = none → call.fd ∈ s.ends.erase fd
  | _ => True

end BaxOS.Ipc
