import BaxOS.Lib.Masked
import BaxOS.Sys.Exec

/-!
# A signal's handler

A handler is entered at a syscall's return (`signal_deliver`) or at an instruction that went wrong
(`fault_deliver`), with a frame on the program's stack that says what the program was doing, and
`rt_sigreturn` puts that back. What the processor, `syscall_entry` and `trap_common` do with the
registers on the way is `syscallEntry`, `syscallExit`, `trapEntry` and `restoreAll`. The resume flag,
which the processor itself puts in a fault's flags for the one instruction, is not among the flags.
-/

namespace BaxOS.Signals
open ByteStore Masked

abbrev Word := BitVec 64

/-- The x87 and SSE registers. The kernel is built without them and saves them nowhere but between
two threads. -/
structure Fpu where
  x87 : Vector (BitVec 80) 8 := Vector.replicate 8 0
  control : BitVec 16 := 0x37F
  status : BitVec 16 := 0
  tag : BitVec 16 := 0xFFFF
  xmm : Vector (BitVec 128) 16 := Vector.replicate 16 0
  mxcsr : BitVec 32 := 0x1F80
  deriving DecidableEq

/-- A program's registers. -/
structure Cpu where
  rax : Word := 0
  rbx : Word := 0
  rcx : Word := 0
  rdx : Word := 0
  rsi : Word := 0
  rdi : Word := 0
  rbp : Word := 0
  rsp : Word := 0
  r8 : Word := 0
  r9 : Word := 0
  r10 : Word := 0
  r11 : Word := 0
  r12 : Word := 0
  r13 : Word := 0
  r14 : Word := 0
  r15 : Word := 0
  rip : Word := 0
  rflags : Word := 0x202
  fpu : Fpu := {}
  deriving DecidableEq

/-! ### In and out of the kernel -/

/-- `struct user_regs`: `rax` is the syscall's number. -/
structure UserRegs where
  rax : Word
  r15 : Word
  r14 : Word
  r13 : Word
  r12 : Word
  rbp : Word
  rbx : Word
  r10 : Word
  r9 : Word
  r8 : Word
  rdx : Word
  rsi : Word
  rdi : Word
  rflags : Word
  rip : Word
  rsp : Word

/-- What `syscall_entry` saves: the program's RIP and RFLAGS from RCX and R11, where `syscall` put
them. -/
def syscallEntry (c : Cpu) : UserRegs :=
  { rax := c.rax, r15 := c.r15, r14 := c.r14, r13 := c.r13, r12 := c.r12, rbp := c.rbp, rbx := c.rbx
    r10 := c.r10, r9 := c.r9, r8 := c.r8, rdx := c.rdx, rsi := c.rsi, rdi := c.rdi
    rflags := c.rflags, rip := c.rip, rsp := c.rsp }

/-- The way back: RCX is cleared and R11 holds the flags. -/
def syscallExit (f : UserRegs) (result : Word) (fpu : Fpu) : Cpu :=
  { rax := result, rbx := f.rbx, rcx := 0, rdx := f.rdx, rsi := f.rsi, rdi := f.rdi, rbp := f.rbp
    rsp := f.rsp, r8 := f.r8, r9 := f.r9, r10 := f.r10, r11 := f.rflags, r12 := f.r12, r13 := f.r13
    r14 := f.r14, r15 := f.r15, rip := f.rip, rflags := f.rflags, fpu }

/-- `struct trap_regs`. -/
structure TrapRegs where
  r15 : Word
  r14 : Word
  r13 : Word
  r12 : Word
  r11 : Word
  r10 : Word
  r9 : Word
  r8 : Word
  rbp : Word
  rdx : Word
  rcx : Word
  rbx : Word
  rax : Word
  rsi : Word
  rdi : Word
  err : Word
  rip : Word
  cs : Word
  rflags : Word
  rsp : Word

/-- What `trap_common` and `page_fault_entry` save, from a program: every register. -/
def trapEntry (c : Cpu) (err cs : Word) : TrapRegs :=
  { r15 := c.r15, r14 := c.r14, r13 := c.r13, r12 := c.r12, r11 := c.r11, r10 := c.r10, r9 := c.r9
    r8 := c.r8, rbp := c.rbp, rdx := c.rdx, rcx := c.rcx, rbx := c.rbx, rax := c.rax, rsi := c.rsi
    rdi := c.rdi, err, rip := c.rip, cs, rflags := c.rflags, rsp := c.rsp }

/-- `RESTORE_ALL` and `iretq`. -/
def restoreAll (r : TrapRegs) (fpu : Fpu) : Cpu :=
  { rax := r.rax, rbx := r.rbx, rcx := r.rcx, rdx := r.rdx, rsi := r.rsi, rdi := r.rdi, rbp := r.rbp
    rsp := r.rsp, r8 := r.r8, r9 := r.r9, r10 := r.r10, r11 := r.r11, r12 := r.r12, r13 := r.r13
    r14 := r.r14, r15 := r.r15, rip := r.rip, rflags := r.rflags, fpu }

/-! ### The frame -/

/-- The registers of a frame, in `sigcontext`'s order. -/
inductive Greg
  | r8 | r9 | r10 | r11 | r12 | r13 | r14 | r15 | rdi | rsi | rbp | rbx | rdx | rax | rcx | rsp | rip
  | eflags | segments | err | trapno | oldmask | cr2
  deriving DecidableEq

/-- All of them. -/
def Greg.all : List Greg :=
  [.r8, .r9, .r10, .r11, .r12, .r13, .r14, .r15, .rdi, .rsi, .rbp, .rbx, .rdx, .rax, .rcx, .rsp, .rip,
    .eflags, .segments, .err, .trapno, .oldmask, .cr2]

/-- The siginfo of a frame, the 112 bytes at its end as words. -/
structure SigInfo where
  signo : BitVec 32
  errnum : BitVec 32 := 0
  code : BitVec 32
  rest : Vector Word 14 := Vector.replicate 14 0

/-- `struct sig_frame`, less what is left zero: the flags, the link and the stack of its `uc`, its
`fpstate` and what is reserved. -/
structure SigFrame where
  restorer : Word
  gregs : Greg → Word
  sigmask : Word
  info : SigInfo

/-- `sizeof(struct sig_frame)`. -/
def sigFrameBytes : ℕ := 440

/-- A frame as it lies in memory. -/
def SigFrame.words (frame : SigFrame) : List Word :=
  frame.restorer :: List.replicate 5 0 ++ Greg.all.map frame.gregs ++ List.replicate 9 0 ++
    [frame.sigmask, frame.info.errnum ++ frame.info.signo, 0#32 ++ frame.info.code] ++
    frame.info.rest.toList

/-- Where a frame begins under the stack pointer: past the red zone, as a call leaves it. -/
def frameAt (rsp : Word) : Word := ((rsp - 128 - BitVec.ofNat 64 sigFrameBytes) &&& ~~~ 15) - 8

/-- A frame written at an address. -/
def putFrame (mem : Store) (addr : Word) (frame : SigFrame) : Store :=
  putWords mem addr.toNat (frame.words.map BitVec.toNat)

/-- `frame->uc.gregs[r]`. -/
def gregIn (mem : Store) (addr : ℕ) (r : Greg) : Word :=
  BitVec.ofNat 64 (word64 mem (addr + 8 * (6 + r.ctorIdx)))

/-- `frame->uc.sigmask`. -/
def sigmaskIn (mem : Store) (addr : ℕ) : Word := BitVec.ofNat 64 (word64 mem (addr + 8 * 38))

/-! ### The program -/

/-- `struct sig_action`. -/
structure SigAction where
  handler : Word := 0
  flags : Word := 0
  restorer : Word := 0
  mask : Word := 0

/-- A program's window. Its low part ends under `LOW_LIMIT`. -/
structure Window extends Exec.Space where
  low_le : ∀ r ∈ low, r.2 ≤ 2 ^ 30

/-- What others may change of a program while it waits. -/
structure Shared where
  mem : Store
  actions : ℕ → SigAction
  pending : Word := 0
  childPid : BitVec 32 := 0
  childCode : BitVec 32 := 0

/-- A program, at one of its threads. -/
structure Program extends Shared where
  window : Window
  blocked : Word := 0

/-- `SIGNALS`. -/
def signals : ℕ := 32

def sigIll : ℕ := 4

def sigTrap : ℕ := 5

def sigBus : ℕ := 7

def sigFpe : ℕ := 8

def sigSegv : ℕ := 11

def sigChld : ℕ := 17

def saRestorer : Word := 0x04000000

def saNodefer : Word := 0x40000000

def saResethand : Word := 0x80000000

/-- `1ull << n`. -/
def bit (n : ℕ) : Word := 1#64 <<< n

/-- `SIGKILL` and `SIGSTOP`, which cannot be blocked. -/
def always : Word := bit (9 - 1) ||| bit (19 - 1)

/-- The flags `rt_sigreturn` takes from the frame. -/
def restoredFlags : Word := 0xDD5

def eintr : Word := -4

def efault : Word := -14

def einval : Word := -22

def sysRtSigreturn : Word := 15

def sysRtSigsuspend : Word := 130

/-- What a handler's signal adds to the mask while it runs. -/
def SigAction.blocks (a : SigAction) (sig : ℕ) : Word :=
  a.mask ||| if a.flags &&& saNodefer ≠ 0 then 0 else bit (sig - 1)

namespace Program

/-- `user_range`. -/
def userRange (p : Program) (addr : Word) (size : ℕ) : Bool := p.window.holds addr.toNat size

/-- `action_for`. -/
def actionFor (p : Program) (sig : ℕ) : Option SigAction :=
  if 0 < sig ∧ sig < signals then some (p.actions sig) else none

/-- `handled`. -/
def handled (p : Program) (sig : ℕ) : Bool :=
  (p.actionFor sig).any fun a => 1 < a.handler ∧ a.flags &&& saRestorer ≠ 0

/-- `deliverable`: the signal to handle now, 0 for none. -/
def deliverable (p : Program) : ℕ :=
  ((List.range' 1 (signals - 1)).find? fun sig =>
    p.pending &&& bit sig ≠ 0 ∧ p.blocked &&& bit (sig - 1) = 0 ∧ p.handled sig).getD 0

/-- The frame written and its handler's signal blocked, the handler put back to its default where
that was asked for. -/
def enter (p : Program) (sig : ℕ) (addr : Word) (frame : SigFrame) : Program :=
  let a := p.actions sig
  { p with
    mem := putFrame p.mem addr frame
    blocked := p.blocked ||| a.blocks sig
    actions :=
      if a.flags &&& saResethand ≠ 0 then Function.update p.actions sig {} else p.actions }

/-- The registers `signal_deliver` saves. -/
def callGregs (f : UserRegs) (result : Word) : Greg → Word
  | .r8 => f.r8
  | .r9 => f.r9
  | .r10 => f.r10
  | .r11 => f.rflags
  | .r12 => f.r12
  | .r13 => f.r13
  | .r14 => f.r14
  | .r15 => f.r15
  | .rdi => f.rdi
  | .rsi => f.rsi
  | .rbp => f.rbp
  | .rbx => f.rbx
  | .rdx => f.rdx
  | .rax => result
  | .rcx => f.rip
  | .rsp => f.rsp
  | .rip => f.rip
  | .eflags => f.rflags
  | .segments | .err | .trapno | .oldmask | .cr2 => 0

/-- The siginfo `signal_deliver` writes: a child's end has its number and its code. -/
def callInfo (p : Program) (sig : ℕ) : SigInfo :=
  if sig = sigChld then
    { signo := BitVec.ofNat 32 sig
      code := 1
      rest := ((Vector.replicate 14 0).set 0 (p.childPid.zeroExtend 64)).set 1
        (p.childCode.zeroExtend 64) }
  else { signo := BitVec.ofNat 32 sig, code := 0x80 }

/-- `signal_deliver`: the program, the registers it goes on with and what the call answers; `none`
where the program is ended. -/
def signalDeliver (p : Program) (f : UserRegs) (result restore : Word) :
    Option (Program × UserRegs × Word) :=
  let sig := p.deliverable
  let a := p.actions sig
  let addr := frameAt f.rsp
  let p := { p with pending := p.pending &&& ~~~ bit sig }
  if ! p.userRange addr sigFrameBytes then none
  else
    some (p.enter sig addr
        { restorer := a.restorer, sigmask := restore, gregs := callGregs f result
          info := p.callInfo sig },
      { f with
        rdi := BitVec.ofNat 64 sig, rsi := addr + 312, rdx := addr + 8, rsp := addr, rip := a.handler },
      0)

/-- The program once `rt_sigsuspend` has waited under the mask at `mask`, what others have made of it
meanwhile being `s`. -/
def woken (p : Program) (mask : Word) (s : Shared) : Program :=
  { p with
    toShared := s, blocked := BitVec.ofNat 64 (word64 p.mem mask.toNat) &&& ~~~ always }

/-- `sys_rt_sigsuspend`, which waits until a signal can be delivered. -/
def rtSigsuspend (p : Program) (f : UserRegs) (mask size : Word) (s : Shared) :
    Option (Program × UserRegs × Word) :=
  let old := p.blocked
  if size ≠ 8 then some (p, f, einval)
  else if ! p.userRange mask 8 then some (p, f, efault)
  else signalDeliver (p.woken mask s) f eintr old

/-- `sys_rt_sigreturn`. -/
def rtSigreturn (p : Program) (f : UserRegs) : Option (Program × UserRegs × Word) :=
  let frame := f.rsp - 8
  let g := gregIn p.mem frame.toNat
  if ! p.userRange frame sigFrameBytes then none
  else
    some ({ p with blocked := sigmaskIn p.mem frame.toNat &&& ~~~ always },
      { f with
        r8 := g .r8, r9 := g .r9, r10 := g .r10, r12 := g .r12, r13 := g .r13, r14 := g .r14
        r15 := g .r15, rdi := g .rdi, rsi := g .rsi, rbp := g .rbp, rbx := g .rbx, rdx := g .rdx
        rsp := g .rsp, rip := g .rip, rflags := merge restoredFlags f.rflags (g .eflags) },
      g .rax)

/-- The registers `fault_deliver` saves. -/
def faultGregs (r : TrapRegs) (vector : ℕ) (addr : Word) : Greg → Word
  | .r8 => r.r8
  | .r9 => r.r9
  | .r10 => r.r10
  | .r11 => r.r11
  | .r12 => r.r12
  | .r13 => r.r13
  | .r14 => r.r14
  | .r15 => r.r15
  | .rdi => r.rdi
  | .rsi => r.rsi
  | .rbp => r.rbp
  | .rbx => r.rbx
  | .rdx => r.rdx
  | .rax => r.rax
  | .rcx => r.rcx
  | .rsp => r.rsp
  | .rip => r.rip
  | .eflags => r.rflags
  | .err => r.err
  | .trapno => BitVec.ofNat 64 vector
  | .cr2 => addr
  | .segments | .oldmask => 0

/-- `fault_deliver`; `none` where it has no handler to run. -/
def faultDeliver (p : Program) (sig : ℕ) (code : BitVec 32) (addr : Word) (vector : ℕ) (r : TrapRegs) :
    Option (Program × TrapRegs) :=
  let at' := frameAt r.rsp
  if r.cs &&& 3 ≠ 3 ∨ ! p.handled sig ∨ p.blocked &&& bit (sig - 1) ≠ 0 then none
  else if ! p.userRange at' sigFrameBytes then none
  else
    let a := p.actions sig
    some (p.enter sig at'
        { restorer := a.restorer, sigmask := p.blocked, gregs := faultGregs r vector addr
          info :=
            { signo := BitVec.ofNat 32 sig, code, rest := (Vector.replicate 14 0).set 0 addr } },
      { r with
        rdi := BitVec.ofNat 64 sig, rsi := at' + 312, rdx := at' + 8, rax := 0, rsp := at'
        rip := a.handler })

end Program

/-! ### What goes wrong -/

/-- An exception: one that `trap_signal` is called with, or a page fault that nothing answers. -/
inductive Fault
  | trap (vector : ℕ) (err : Word)
  | page (addr err : Word)

namespace Fault

/-- The vector. -/
def vector : Fault → ℕ
  | trap vector _ => vector
  | page _ _ => 14

/-- The error code. -/
def err : Fault → Word
  | trap _ err => err
  | page _ err => err

/-- The signal it is: `trap_signal`'s, or `page_fault`'s. -/
def signal : Fault → ℕ
  | trap vector _ =>
    if vector = 0 ∨ vector = 16 ∨ vector = 19 then sigFpe
    else if vector = 1 ∨ vector = 3 then sigTrap
    else if vector = 6 then sigIll
    else if vector = 17 then sigBus
    else sigSegv
  | page _ _ => sigSegv

/-- The code in its siginfo. -/
def code (f : Fault) : BitVec 32 :=
  match f with
  | trap _ _ =>
    if f.signal = sigTrap then 0x80
    else if f.signal = sigIll then 2
    else if f.signal = sigFpe then 1
    else 0x80
  | page _ err => if err &&& 1 ≠ 0 then 2 else 1

/-- The address in it. -/
def addr (f : Fault) (r : TrapRegs) : Word :=
  match f with
  | trap _ _ => r.rip
  | page addr _ => addr

end Fault

/-! ### Runs -/

/-- Where a signal found a program: at a syscall's return, or at a faulting instruction. -/
inductive Kind
  | call
  | fault
  deriving DecidableEq

/-- A handler not yet returned: where its frame is, and what the program would have gone on with had
the signal not come. -/
structure Held where
  addr : Word
  kind : Kind
  cpu : Cpu
  mask : Word

/-- Where a program is: running, on its way out of `syscall_dispatch`, or ended. -/
inductive Place
  | running (c : Cpu)
  | leaving (f : UserRegs) (fpu : Fpu) (number result : Word)
  | ended

/-- The registers the program has, or goes on with. -/
def Place.cpu : Place → Option Cpu
  | running c => some c
  | leaving f fpu _ result => some (syscallExit f result fpu)
  | ended => none

/-- A program, and the handlers it has not returned from, the last entered first. -/
structure Machine where
  place : Place
  prog : Program
  held : List Held := []

/-- What happens. -/
inductive Event
  /-- The program's own instructions, whatever they do to its registers and its memory. -/
  | runs (c : Cpu) (mem : Store)
  /-- A syscall that is neither `rt_sigsuspend` nor `rt_sigreturn`, whatever it does. -/
  | calls (result : Word) (s : Shared) (blocked : Word)
  /-- `rt_sigsuspend`, and what others have made of the program when it has waited. -/
  | suspends (s : Shared)
  /-- `rt_sigreturn`. -/
  | returns
  /-- The end of `syscall_dispatch`, where a signal waiting is delivered. -/
  | leaves
  | faults (f : Fault)

/-- Ring 3's code selector, where the kernel's is 0x38. -/
def userCs : Word := (0x38 + 24) ||| 3

namespace Machine

/-- Whether `rt_sigsuspend` waits, and is not refused. -/
def Suspends (m : Machine) (c : Cpu) : Prop := c.rsi = 8 ∧ m.prog.userRange c.rdi 8

instance (m : Machine) (c : Cpu) : Decidable (m.Suspends c) := inferInstanceAs (Decidable (_ ∧ _))

/-- One event; one that does not fit where the program is does nothing. -/
def step (m : Machine) : Event → Machine
  | .runs c mem =>
    match m.place with
    | .running _ => { m with place := .running c, prog := { m.prog with mem } }
    | _ => m
  | .calls result s blocked =>
    match m.place with
    | .running c =>
      if c.rax = sysRtSigreturn ∨ c.rax = sysRtSigsuspend then m
      else
        { m with
          place := .leaving (syscallEntry c) c.fpu c.rax result
          prog := { m.prog with toShared := s, blocked } }
    | _ => m
  | .suspends s =>
    match m.place with
    | .running c =>
      if c.rax ≠ sysRtSigsuspend ∨ (m.Suspends c ∧ (m.prog.woken c.rdi s).deliverable = 0) then m
      else
        match m.prog.rtSigsuspend (syscallEntry c) c.rdi c.rsi s with
        | none => { m with place := .ended }
        | some (p, f, result) =>
          { m with
            place := .leaving f c.fpu c.rax result
            prog := p
            held :=
              if m.Suspends c then
                ⟨frameAt c.rsp, .call, syscallExit (syscallEntry c) eintr c.fpu, m.prog.blocked⟩ ::
                  m.held
              else m.held }
    | _ => m
  | .returns =>
    match m.place with
    | .running c =>
      if c.rax ≠ sysRtSigreturn then m
      else
        match m.prog.rtSigreturn (syscallEntry c) with
        | none => { m with place := .ended }
        | some (p, f, result) =>
          { m with place := .leaving f c.fpu c.rax result, prog := p, held := m.held.tail }
    | _ => m
  | .leaves =>
    match m.place with
    | .leaving f fpu number result =>
      if m.prog.deliverable ≠ 0 ∧ number ≠ sysRtSigreturn then
        match m.prog.signalDeliver f result m.prog.blocked with
        | none => { m with place := .ended }
        | some (p, f', result') =>
          { place := .running (syscallExit f' result' fpu)
            prog := p
            held := ⟨frameAt f.rsp, .call, syscallExit f result fpu, m.prog.blocked⟩ :: m.held }
      else { m with place := .running (syscallExit f result fpu) }
    | _ => m
  | .faults f =>
    match m.place with
    | .running c =>
      let r := trapEntry c f.err userCs
      match m.prog.faultDeliver f.signal f.code (f.addr r) f.vector r with
      | none => { m with place := .ended }
      | some (p, r) =>
        { place := .running (restoreAll r c.fpu)
          prog := p
          held := ⟨frameAt c.rsp, .fault, c, m.prog.blocked⟩ :: m.held }
    | _ => m

/-- A run. -/
def run (m : Machine) (es : List Event) : Machine := es.foldl step m

end Machine

end BaxOS.Signals
