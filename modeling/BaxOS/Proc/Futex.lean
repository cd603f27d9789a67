import BaxOS.Proc.Threads

/-!
# Futexes

A thread waits on a word until another wakes it, and the others run meanwhile. The threads of every
process take turns; where `thread_yield` goes on is left open, so that any order of turns is a run. A
thread that has been switched to goes on with its wait, if it is in one.

Kept beside the code's own state: a log of what was found, woken and answered. Processes that end as a
whole, and the locks with priorities, are left out.
-/

namespace BaxOS.Futex
open Function BaxOS.Proc

/-! ### Memory -/

/-- What `vm_holds` goes by: a low part, for a program at a fixed address, and a region. -/
structure Window where
  low : Option (ℕ × ℕ)
  base : ℕ
  top : ℕ
  /-- `vm_low` gives nothing lower. -/
  low_ge : ∀ r ∈ low, 2 * 2 ^ 20 ≤ r.1

/-- `vm_holds`, which is `user_range`. -/
def Window.holds (w : Window) (addr size : ℕ) : Bool :=
  (w.low.any fun r => r.1 ≤ addr && addr ≤ r.2 && size ≤ r.2 - addr) ||
    w.base ≠ 0 && w.base ≤ addr && addr ≤ w.top && size ≤ w.top - addr

/-- A program's memory, by bytes. -/
abbrev Bytes := ℕ → BitVec 8

/-- Four bytes, least first. -/
def Bytes.word (m : Bytes) (a : ℕ) : BitVec 32 := m (a + 3) ++ m (a + 2) ++ m (a + 1) ++ m a

/-- Eight. -/
def Bytes.long (m : Bytes) (a : ℕ) : BitVec 64 := m.word (a + 4) ++ m.word a

/-- Bytes laid at an address. -/
def Bytes.lay (m : Bytes) (a : ℕ) (bs : List (BitVec 8)) : Bytes := fun i =>
  if a ≤ i then (bs[i - a]?).getD (m i) else m i

/-- Four bytes laid. -/
def Bytes.setWord (m : Bytes) (a : ℕ) (v : BitVec 32) : Bytes :=
  m.lay a ((List.range 4).map fun i => v.extractLsb' (8 * i) 8)

/-- `timespec_ms`. -/
def timespecMs (m : Bytes) (spec : ℕ) : ℕ :=
  (m.long spec * 1000 + (m.long (spec + 8) + 999999) / 1000000).toNat

/-! ### Threads -/

/-- `struct thread`, with what `futex_wait` has of its own while in its loop, and what the last call
answered. -/
structure Thread where
  proc : Option ℕ
  dead : Bool
  woken : Bool
  futex : ℕ
  clearTid : ℕ
  /-- In the loop of `futex_wait`: its `until`. -/
  wait : Option ℕ
  rax : ℤ

/-- How `futex_wait` ends, once it has found what was expected. -/
inductive Result
  | woken
  | again
  | timedOut
  | interrupted
  deriving DecidableEq

/-- What is logged: that thread `t` of a process found what it expected, alone and with no time to wait
until or not; that its wait ended; that a wake was for `n` at an address, moved up to `move` on, and
counted so many; that a thread ended. -/
inductive Event
  | finds (t : ℕ) (p : Option ℕ) (addr : ℕ) (alone : Bool)
  | back (t : ℕ) (r : Result)
  | wakes (p : Option ℕ) (addr : ℕ) (n : ℤ) (addr2 : ℕ) (move : ℤ) (count : ℕ)
  | ends (t : ℕ)
  deriving DecidableEq

/-- The state: `all`, `current`, what each process may see and has in its memory, the clocks, and the log,
the last first. -/
structure Machine where
  threads : ℕ → Option Thread
  cur : ℕ
  window : ℕ → Window
  mem : ℕ → Bytes
  clock : ℕ
  realtime : ℕ
  log : List Event

/-- `EAGAIN`, `EINTR`, `EFAULT`, `ENOSYS` and `ETIMEDOUT`. -/
def eagain : ℤ := -11
def eintr : ℤ := -4
def efault : ℤ := -14
def enosys : ℤ := -38
def etimedout : ℤ := -110

namespace Machine

/-- `current->proc`. -/
def proc (s : Machine) : Option ℕ := (s.threads s.cur).bind Thread.proc

/-- `user_range`, of the running process. -/
def userRange (s : Machine) (addr size : ℕ) : Bool := s.proc.any fun p => (s.window p).holds addr size

/-- What the running process has in its memory. -/
def bytes (s : Machine) : Bytes := (s.proc.map s.mem).getD fun _ => 0

/-- The running process's memory changed. -/
def setBytes (s : Machine) (m : Bytes) : Machine :=
  match s.proc with
  | none => s
  | some p => { s with mem := update s.mem p m }

/-- The running thread changed. -/
def setCur (s : Machine) (f : Thread → Thread) : Machine :=
  { s with threads := update s.threads s.cur ((s.threads s.cur).map f) }

/-- Something logged. -/
def note (s : Machine) (e : Event) : Machine := { s with log := e :: s.log }

/-- A call answers. -/
def answer (s : Machine) (r : ℤ) : Machine := s.setCur fun t => { t with rax := r }

/-- `thread_alone`. -/
def alone (s : Machine) : Bool :=
  (List.range threadsMax).all fun i => i = s.cur || !(s.threads i).any fun t => !t.dead && t.proc = s.proc

/-- `reap`. -/
def reap (s : Machine) : Machine :=
  { s with threads := fun i =>
    if i ≠ 0 && i ≠ s.cur && (s.threads i).any Thread.dead then none else s.threads i }

/-- `switch_to`, a thread that is there and has not ended. -/
def switchTo (s : Machine) (i : ℕ) : Option Machine :=
  if (s.threads i).any fun t => !t.dead then some (reap { s with cur := i }) else none

/-! ### Waking -/

/-- The loop of `thread_wake`, over these places of `all`. -/
def wakeLoop (p : Option ℕ) (addr : ℕ) (n : ℤ) (addr2 : ℕ) :
    List ℕ → ℕ → ℤ → (ℕ → Option Thread) → ℕ × (ℕ → Option Thread)
  | [], woke, _, th => (woke, th)
  | i :: is, woke, move, th =>
    match th i with
    | none => wakeLoop p addr n addr2 is woke move th
    | some t =>
      if t.dead || t.proc ≠ p || t.futex ≠ addr || addr = 0 then wakeLoop p addr n addr2 is woke move th
      else if woke < n then
        wakeLoop p addr n addr2 is (woke + 1) move (update th i (some { t with futex := 0, woken := true }))
      else if 0 < move then
        wakeLoop p addr n addr2 is woke (move - 1) (update th i (some { t with futex := addr2 }))
      else wakeLoop p addr n addr2 is woke move th

/-- `thread_wake`. -/
def threadWake (s : Machine) (addr : ℕ) (n : ℤ) (addr2 : ℕ) (move : ℤ) : ℕ × Machine :=
  let r := wakeLoop s.proc addr n addr2 (List.range threadsMax) 0 move s.threads
  (r.1, { s with threads := r.2 }.note (.wakes s.proc addr n addr2 move r.1))

/-- An argument taken as an `int`. -/
def int (v : ℕ) : ℤ := (BitVec.ofNat 32 v).toInt

/-- `futex_wake_op`: what the second word becomes, if `op` says. -/
def wakeOpWord (old code : BitVec 32) : Option (BitVec 32) :=
  let op := code >>> 28
  let arg := (code <<< 8).sshiftRight 20
  let arg := if op &&& 8 ≠ 0 then (1 : BitVec 32) <<< (arg &&& 31) else arg
  match (op &&& 7).toNat with
  | 0 => some arg
  | 1 => some (old + arg)
  | 2 => some (old ||| arg)
  | 3 => some (old &&& ~~~arg)
  | 4 => some (old ^^^ arg)
  | _ => none

/-- Whether what was there passes the test, if `cmp` is one. -/
def wakeOpPasses (old code : BitVec 32) : Option Bool :=
  let arg := (code <<< 20).sshiftRight 20
  match (code >>> 24 &&& 15).toNat with
  | 0 => some (old == arg)
  | 1 => some (old != arg)
  | 2 => some (old.slt arg)
  | 3 => some (old.sle arg)
  | 4 => some (arg.slt old)
  | 5 => some (arg.sle old)
  | _ => none

/-- `futex_wake_op`. -/
def futexWakeOp (s : Machine) (addr : ℕ) (n : ℤ) (addr2 : ℕ) (n2 : ℤ) (code : BitVec 32) : Machine :=
  if !s.userRange addr2 4 then s.answer efault
  else
    let old := s.bytes.word addr2
    match wakeOpWord old code with
    | none => s.answer enosys
    | some v =>
      let s := s.setBytes (s.bytes.setWord addr2 v)
      match wakeOpPasses old code with
      | none => s.answer enosys
      | some passes =>
        let (woke, s) := s.threadWake addr n 0 0
        if passes then
          let (woke2, s) := s.threadWake addr2 n2 0 0
          s.answer (woke + woke2)
        else s.answer woke

/-! ### Waiting -/

/-- `thread_sleep_on`. -/
def sleepOn (s : Machine) (addr : ℕ) : Machine := s.setCur fun t => { t with futex := addr, woken := false }

/-- `futex_wait` returns. -/
def comeBack (s : Machine) (r : Result) (v : ℤ) : Machine :=
  ((s.note (.back s.cur r)).answer v).setCur fun t => { t with wait := none }

/-- The loop of `futex_wait`, up to its next `thread_yield`: `signal` is what `interrupt_check` says, and
`next` where `thread_yield` goes on. -/
def waitTurn (s : Machine) (till : ℕ) (signal : Bool) (next : ℕ) : Option Machine :=
  if (s.threads s.cur).any Thread.woken then some (s.comeBack .woken 0)
  else if till ≠ 0 ∧ till ≤ s.clock then some ((s.sleepOn 0).comeBack .timedOut etimedout)
  else if signal then some ((s.sleepOn 0).comeBack .interrupted eintr)
  else (s.setCur fun t => { t with wait := some till }).switchTo next

/-- How long `futex_wait` waits: its `until`. -/
def waitTill (s : Machine) (op timeout : ℕ) : ℕ :=
  if timeout = 0 then 0
  else
    let at_ := timespecMs s.bytes timeout
    let clock := if op &&& 256 ≠ 0 then s.realtime else s.clock
    let at_ := if op &&& 127 = 9 then at_ - clock else at_
    (s.clock + at_ + 1) % 2 ^ 64

/-- `futex_wait`. -/
def futexWait (s : Machine) (addr op : ℕ) (value : BitVec 32) (timeout : ℕ) (signal : Bool) (next : ℕ) :
    Option Machine :=
  if timeout ≠ 0 && !s.userRange timeout 16 then some (s.answer efault)
  else
    let till := s.waitTill op timeout
    if s.bytes.word addr ≠ value then some (s.answer eagain)
    else
      let alone := till = 0 && s.alone
      let s := s.note (.finds s.cur s.proc addr alone)
      if alone then some ((s.note (.back s.cur .again)).answer eagain)
      else (s.sleepOn addr).waitTurn till signal next

/-- `sys_futex`. -/
def sysFutex (s : Machine) (addr op value timeout addr2 value3 : ℕ) (signal : Bool) (next : ℕ) :
    Option Machine :=
  if !s.userRange addr 4 then some (s.answer efault)
  else
    match op &&& 127 with
    | 0 | 9 => s.futexWait addr op (.ofNat 32 value) timeout signal next
    | 1 | 10 =>
      let (woke, s) := s.threadWake addr (int value) 0 0
      some (s.answer woke)
    | 4 =>
      if s.bytes.word addr ≠ .ofNat 32 value3 then some (s.answer eagain)
      else
        let (woke, s) := s.threadWake addr (int value) addr2 (int timeout)
        some (s.answer woke)
    | 3 =>
      let (woke, s) := s.threadWake addr (int value) addr2 (int timeout)
      some (s.answer woke)
    | 5 => some (s.futexWakeOp addr (int value) addr2 (int timeout) (.ofNat 32 value3))
    -- `futex_lock_pi` and `futex_unlock_pi`
    | 6 | 7 | 8 | 13 => none
    | _ => some (s.answer enosys)

/-! ### Turns -/

/-- `start_thread`, and so `thread_new`; `stack` is whether there are pages for one. Ids are left out. -/
def startThread (s : Machine) (clearTid : ℕ) (stack : Bool) : Machine :=
  if clearTid ≠ 0 && !s.userRange clearTid 4 then s.answer efault
  else
    let s := s.reap
    match (List.range threadsMax).find? fun i => i ≠ 0 && (s.threads i).isNone with
    | none => s.answer eagain
    | some i =>
      if stack then
        { s with threads := update s.threads i (some ⟨s.proc, false, false, 0, clearTid, none, 0⟩) }
      else s.answer eagain

/-- The end of `thread_start`, up to its switch. -/
def threadEnds (s : Machine) : Machine :=
  let clearTid := ((s.threads s.cur).map Thread.clearTid).getD 0
  let s :=
    if clearTid ≠ 0 then ((s.setBytes (s.bytes.setWord clearTid 0)).threadWake clearTid 1 0 0).2 else s
  (s.setCur fun t => { t with dead := true }).note (.ends s.cur)

/-- What the running thread does, and when the clocks move. -/
inductive Act
  | store (addr : ℕ) (bytes : List (BitVec 8))
  | futex (addr op value timeout addr2 value3 : ℕ) (signal : Bool) (next : ℕ)
  | create (clearTid : ℕ) (stack : Bool)
  | exit (next : ℕ)
  /-- Another call that waits. -/
  | pause (next : ℕ)
  /-- Back from `thread_yield` in `futex_wait`. -/
  | resume (signal : Bool) (next : ℕ)
  | tick (clock realtime : ℕ)

/-- A step. -/
def step (s : Machine) (a : Act) : Option Machine :=
  match a, (s.threads s.cur).bind Thread.wait with
  | .tick clock realtime, _ => some { s with clock, realtime }
  | .resume signal next, some till => s.waitTurn till signal next
  | .store addr bytes, none => some (s.setBytes (s.bytes.lay addr bytes))
  | .futex addr op value timeout addr2 value3 signal next, none =>
    s.sysFutex addr op value timeout addr2 value3 signal next
  | .create clearTid stack, none => some (s.startThread clearTid stack)
  | .exit next, none => s.threadEnds.switchTo next
  | .pause next, none => s.switchTo next
  | _, _ => none

/-- A run. -/
def run (s : Machine) : List Act → Option Machine
  | [] => some s
  | a :: as => (s.step a).bind fun s => s.run as

end Machine
end BaxOS.Futex
