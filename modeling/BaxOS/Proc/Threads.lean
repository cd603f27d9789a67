import BaxOS.Proc.Fork

/-!
# Threads: `thread.c`, and how processes start and end

The threads of every process take turns: one runs until it waits, and `thread_yield` goes on with the
next. A thread is given by where `all` has it and a process by where `procs` has it. What a thread
does between two waits is an action; a thread that has just been switched to goes on from where it
waited, whatever the action is.

Kept beside the code's own state: how often `process_end` has run for each pid, which blocks are
memory processes run in, and how often each of those was emptied or given up. Exit codes, times,
futexes and which signals are pending are left out: a signal or a fault that ends the process is
`exitGroup`, as is a built-in run by `execve`.
-/

namespace BaxOS.Proc
open Function

/-- `THREADS`. -/
def threadsMax : ℕ := 512

/-- Where a thread's kernel stack starts, and what `user_exit` so goes back to: `program_start`,
`process_entry`, `thread_start`. -/
inductive Entry
  | kernel
  | processEntry
  | threadStart
  deriving DecidableEq

/-- What a thread goes on with after `thread_yield`: whatever it was doing; the loop of `thread_exit`;
the wait of `fork_on`, with the child's place and pid. -/
inductive After
  | free
  | exits
  | vfork (child pid : ℕ)
  deriving DecidableEq

/-- Where a thread is: about to start, running, or in `thread_yield`. -/
inductive Place
  | start
  | user
  | yielded (k : After)
  deriving DecidableEq

/-- `struct thread`. -/
structure Thread where
  proc : Option ℕ
  leader : Bool
  tid : ℕ
  dead : Bool
  exiting : Bool
  entry : Entry
  place : Place
  deriving DecidableEq

/-- The state: the processes, `all`, `current`, and what is kept beside them. -/
structure Kernel where
  table : State
  threads : ℕ → Option Thread
  cur : ℕ
  ended : ℕ → ℕ
  spaces : ℕ → Bool
  resets : ℕ → ℕ

/-- `proc_find`. -/
def procFind (s : State) (pid : ℕ) : Option Process :=
  ((List.range processes).filterMap s.procs).find? fun c => c.pid = pid

/-- Everything in a table counted once less. -/
def dropAll (s : State) (table : ℕ → Option Handle) (room : ℕ) : State :=
  { s with refs := fun c => s.refs c - ((List.range room).map fun fd =>
    ((table fd).getD []).count c).sum }

/-- The memory a process ran in given up, unless it is borrowed. -/
def freeSpace (s : State) (r : Process) : State :=
  if r.borrowed then s else memFree s r.space

/-- The record of a process that may have been the child of one that has ended. -/
def Process.left (c : Process) (parent : ℕ) : Process :=
  if c.ppid = parent then { c with ppid := 0 } else c

/-- The record of a process that has ended. -/
def Process.over (r : Process) : Process :=
  { r with
    files := ⟨r.files.at_, fun _ => none⟩, borrowed := false, space := none, zombie := true }

/-- `process_end`: what is left of a process. -/
def processEnd (s : State) (p : ℕ) : State :=
  match s.procs p with
  | none => s
  | some r =>
    let s := freeSpace (dropAll s r.files.data r.filesRoom) r
    let s := { s with procs := fun i => (s.procs i).map fun c => Process.left c r.pid }
    let s := s.setProc p Process.over
    let parent := (s.procs p).bind fun c => procFind s c.ppid
    if parent.any fun q => !q.zombie then s else s.setProc p fun c => { c with ppid := 0 }

/-- Memory noted as what a process runs in. -/
def noted (spaces : ℕ → Bool) (space : Option ℕ) : ℕ → Bool :=
  match space with
  | none => spaces
  | some b => update spaces b true

/-- Memory emptied, or given up. -/
def emptied (resets : ℕ → ℕ) (space : Option ℕ) : ℕ → ℕ :=
  match space with
  | none => resets
  | some b => update resets b (resets b + 1)

namespace Kernel

/-- A thread changed. -/
def setThread (s : Kernel) (i : ℕ) (f : Thread → Thread) : Kernel :=
  { s with threads := update s.threads i ((s.threads i).map f) }

/-- `current->proc`. -/
def proc (s : Kernel) : Option ℕ := (s.threads s.cur).bind Thread.proc

/-- `reap`. -/
def reap (s : Kernel) : Kernel :=
  { s with threads := fun i =>
    if i ≠ 0 && i ≠ s.cur && (s.threads i).any Thread.dead then none else s.threads i }

/-- `switch_to`, as the thread it switches to finds it. -/
def switchTo (s : Kernel) (i : ℕ) : Kernel := reap { s with cur := i }

/-- `next_one`. -/
def nextOne (s : Kernel) (mine : Bool) : Option ℕ :=
  ((List.range (threadsMax - 1)).map fun n => (s.cur + (n + 1)) % threadsMax).find? fun i =>
    (s.threads i).any fun t => !t.dead && (!mine || t.proc = s.proc)

/-- `leader_of`. -/
def leaderOf (s : Kernel) (p : ℕ) : Option ℕ :=
  (List.range threadsMax).find? fun i =>
    (s.threads i).any fun t => !t.dead && t.leader && t.proc = some p

/-- `thread_yield`, up to its switch. -/
def threadYield (s : Kernel) (k : After) : Kernel :=
  let s := s.setThread s.cur fun t => { t with place := .yielded k }
  match s.nextOne false with
  | none => s
  | some next => s.switchTo next

/-- `thread_end_others`. -/
def endOthers (s : Kernel) : Kernel :=
  reap { s with threads := fun i => (s.threads i).map fun t =>
    if i ≠ 0 && i ≠ s.cur && t.proc = s.proc then { t with dead := true } else t }

/-- The end of `thread_start` and of `process_entry`. -/
def leave (s : Kernel) : Kernel :=
  let s := s.setThread s.cur fun t => { t with dead := true }
  match s.nextOne false with
  | none => s
  | some next => s.switchTo next

/-- `process_end`, of a process. -/
def processEnd (s : Kernel) (p : ℕ) : Kernel :=
  match s.table.procs p with
  | none => s
  | some r =>
    { s with
      table := Proc.processEnd s.table p
      ended := update s.ended r.pid (s.ended r.pid + 1)
      resets := if r.borrowed then s.resets else emptied s.resets r.space }

/-- `thread_disown` and the rest of `program_start`. -/
def disown (s : Kernel) (p : ℕ) : Kernel :=
  let s := s.endOthers.setThread s.cur fun t => { t with leader := false, proc := none, place := .user }
  { s with table := procFree s.table p }

/-- `user_exit`, and what it goes back to. -/
def userExit (s : Kernel) : Kernel :=
  match s.threads s.cur with
  | none => s
  | some t =>
    match t.entry, t.proc with
    | .kernel, some p => (s.processEnd p).disown p
    | .processEntry, some p => (s.processEnd p).leave
    | .threadStart, _ => s.leave
    | _, none => s

/-- `process_exit`: the leader is left to do it. -/
def processExit (s : Kernel) : Kernel :=
  match s.proc with
  | none => s
  | some p =>
    match s.leaderOf p with
    | none => s.endOthers.userExit
    | some l =>
      if l = s.cur then s.endOthers.userExit
      else
        ((s.setThread l fun t => { t with exiting := true }).setThread s.cur fun t =>
          { t with dead := true }).switchTo l

/-- `thread_exit`, from its loop on. -/
def threadExit (s : Kernel) : Kernel :=
  if (s.threads s.cur).any Thread.leader && (s.nextOne true).isSome then s.threadYield .exits
  else s.userExit

/-- A free place in `all`, for `thread_new`. -/
def freeThread (s : Kernel) : Option ℕ :=
  (List.range threadsMax).find? fun i => i ≠ 0 && (s.reap.threads i).isNone

/-- `thread_new`: nothing, without a place or a stack for it. -/
def threadNew (s : Kernel) (p : ℕ) (leader : Bool) (entry : Entry) (stack : Bool) : Kernel :=
  match s.freeThread, stack with
  | some i, true =>
    let tid := s.table.nextId
    { s.reap with
      threads := update s.reap.threads i (some ⟨some p, leader, tid, false, false, entry, .start⟩)
      table := { s.table with nextId := tid + 1 } }
  | _, _ => s.reap

/-- `fork_on`. -/
def fork (s : Kernel) (share : Bool) (vmFork : VmFork) (stack : Bool) : Kernel :=
  match s.proc with
  | none => s
  | some p =>
    match (procNew s.table p).1,
        forkOn s.table p share ⟨vmFork, s.freeThread.isSome && stack⟩ with
    | some child, (.ok pid, table) =>
      let spaces := if share then s.spaces
        else noted s.spaces ((table.procs child).bind Process.space)
      let s := { s with table, spaces }.threadNew child true .processEntry stack
      if share then s.threadYield (.vfork child pid) else s
    | _, (_, table) => { s with table }

/-- What a process has open to close on exec, closed. -/
def closeOnExec (s : Kernel) (p : ℕ) (closes : ℕ → Bool) : Kernel :=
  match s.table.procs p with
  | none => s
  | some r =>
    let t := dropAll s.table (fun fd => if closes fd then r.files.data fd else none) r.filesRoom
    { s with table := t.setProc p fun c =>
      { c with files := ⟨c.files.at_, fun fd => if closes fd then none else c.files.data fd⟩ } }

/-- `vm_space_new` for a process. -/
def spaceNew (s : Kernel) (p : ℕ) : Kernel :=
  let b := s.table.next
  { s with
    table := ({ s.table with next := b + 1, taken := update s.table.taken b true }).setProc p fun c =>
      { c with space := some b, borrowed := false }
    spaces := update s.spaces b true }

/-- `program_load`, of what a process runs: its memory is emptied first. -/
def programLoad (s : Kernel) (p : ℕ) : Kernel :=
  { s with resets := emptied s.resets ((s.table.procs p).bind Process.space) }

/-- `sys_execve` of a program, from where the old one is gone: the descriptors it closes, whether
there is memory for a region and whether the program can be loaded. -/
def execve (s : Kernel) (closes : ℕ → Bool) (room loads : Bool) : Kernel :=
  match s.proc with
  | none => s
  | some p =>
    match s.table.procs p with
    | none => s
    | some r =>
      let s := s.endOthers.closeOnExec p closes
      if r.borrowed && !room then s
      else
        let s := if r.borrowed then s.spaceNew p else s
        let s := s.programLoad p
        if loads then s else s.processExit

/-- A look of `sys_wait4`'s: the child collected, if there is one. -/
def collect (s : Kernel) (want : Want) : Kernel :=
  match s.proc.bind s.table.procs with
  | none => s
  | some r =>
    match (List.range processes).find? fun i =>
        (s.table.procs i).any fun c => wanted r want c && c.zombie with
    | none => s
    | some i => { s with table := procFree s.table i }

/-- `program_start`, by the kernel's own thread. -/
def programStart (s : Kernel) (room loads : Bool) : Kernel :=
  match s.proc, procNew s.table processes with
  | none, (some p, table) =>
    if room then
      let s := { s with table := table.setProc p fun c =>
        { c with pgid := c.pid, sid := c.pid, files := ⟨c.files.at_, fun fd =>
          if fd < 3 then some [] else none⟩ } }
      let s := (s.spaceNew p).setThread s.cur fun t => { t with leader := true, proc := some p }
      let s := s.programLoad p
      if loads then s else s.userExit
    else { s with table := procFree table p }
  | none, (none, table) => { s with table }
  | some _, _ => s

/-- A descriptor opened, or closed. -/
def setFile (s : Kernel) (fd : ℕ) (h : Option Handle) : Kernel :=
  match s.proc with
  | none => s
  | some p => { s with table := s.table.setProc p fun c =>
      { c with files := ⟨c.files.at_, update c.files.data fd h⟩ } }

end Kernel

/-- What the running thread does: waits in a call, starts a thread, forks, ends, ends its process,
starts a program, looks for a child that has ended, opens or closes a descriptor; or, the kernel's,
runs a program. -/
inductive Action
  | yield
  | create (stack : Bool)
  | fork (share : Bool) (vmFork : VmFork) (stack : Bool)
  | exit
  | exitGroup
  | execve (closes : ℕ → Bool) (room loads : Bool)
  | wait4 (want : Want)
  | file (fd : ℕ) (h : Option Handle)
  | start (room loads : Bool)

namespace Kernel

/-- What the running thread goes on with, back from `thread_yield`. -/
def goOn (s : Kernel) (k : After) : Kernel :=
  match k with
  | .free => s.setThread s.cur fun t => { t with place := .user }
  | .exits => s.threadExit
  | .vfork child pid =>
    if (s.table.procs child).any Process.borrowed then s.threadYield (.vfork child pid)
    else s.setThread s.cur fun t => { t with place := .user }

/-- What the running thread does, of its own. -/
def act (s : Kernel) (a : Action) : Kernel :=
  match a with
  | .yield => s.threadYield .free
  | .create stack => match s.proc with
    | none => s
    | some p => s.threadNew p false .threadStart stack
  | .fork share vmFork stack => s.fork share vmFork stack
  | .exit => if s.proc.isSome then s.threadExit else s
  | .exitGroup => s.processExit
  | .execve closes room loads => s.execve closes room loads
  | .wait4 want => s.collect want
  | .file fd h => s.setFile fd h
  | .start room loads => s.programStart room loads

/-- The next step. -/
def step (s : Kernel) (a : Action) : Kernel :=
  match s.threads s.cur with
  | none => s
  | some t =>
    match t.place with
    | .start => s.setThread s.cur fun t => { t with place := .user }
    | .yielded k =>
      if t.exiting then (s.setThread s.cur fun t => { t with exiting := false }).processExit
      else s.goOn k
    | .user => s.act a

/-- A run. -/
def run (s : Kernel) (as : List Action) : Kernel := as.foldl step s

end Kernel

/-- The state the kernel starts in: its own thread, and no process. -/
structure Started (s : Kernel) : Prop where
  threads : s.threads = update (fun _ => none) 0 (some ⟨none, false, 1, false, false, .kernel, .user⟩)
  cur : s.cur = 0
  procs : s.table.procs = fun _ => none
  taken : s.table.taken = fun _ => false
  shared : s.table.shared = ⟨none, none, none, 0⟩
  nextId : s.table.nextId = 2
  ended : s.ended = fun _ => 0
  spaces : s.spaces = fun _ => false

end BaxOS.Proc
