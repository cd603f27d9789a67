import Mathlib.Logic.Function.Basic
import Mathlib.Data.List.Basic
import Mathlib.Tactic

/-!
# The process table: `proc_new`, `proc_free`, `fork_on`, `wait4`

The table of processes of `kernel/syscall.c` as a fork finds it and leaves it, with the memory it
takes and the counts it moves. Memory is blocks, each with a number of its own; what `mem_alloc`
will answer is part of the state. Of `vm_fork` there is what it takes for the tables of `share.c`
(`shared_adopt`, `grow`), and the rest of it is given, as is `thread_spawn`. What a process has
besides is what `fork_on` copies, or what `wait4` goes by.
-/

namespace BaxOS.Proc
open Function

/-- `PROCESSES`. -/
def processes : ℕ := 128
/-- `FIRST_FILES`. -/
def firstFiles : ℕ := 145
/-- `FIRST_ROOM`, of `share.c`. -/
def firstRoom : ℕ := 256

/-- Memory with what is in it. -/
structure Block (α : Type) where
  at_ : ℕ
  data : α

/-- What a descriptor is counted in: its pipes, its open file, its socket, its module's file. -/
abbrev Handle := List ℕ

/-- `struct process`. What else a fork copies (the working folder, heap, actions, names and
credentials) is `rest`. -/
structure Process where
  at_ : ℕ
  pid : ℕ
  ppid : ℕ
  pgid : ℕ
  sid : ℕ
  rest : ℕ
  zombie : Bool
  borrowed : Bool
  files : Block (ℕ → Option Handle)
  filesRoom : ℕ
  filesOld : Option ℕ
  cmdline : Option (Block (List UInt8))
  maps : Option (Block (List (ℕ × ℕ)))
  space : Option ℕ

/-- The tables of `share.c`, where there are any yet, and how many entries there is room for. -/
structure Shared where
  entries : Option ℕ
  byKey : Option ℕ
  byFrame : Option ℕ
  room : ℕ

/-- The state: `procs`, the blocks that are somebody's, the next block's number, the next id, what
`mem_alloc` will answer, how often everything descriptors are of is counted, and `share.c`'s. -/
structure State where
  procs : ℕ → Option Process
  taken : ℕ → Bool
  next : ℕ
  nextId : ℕ
  memory : ℕ → Bool
  refs : ℕ → ℕ
  shared : Shared

/-- What `vm_fork` comes to: how many of the parent's pages are to be shared from then on, the entries
that are free for them, and whether the child's memory is made. -/
structure VmFork where
  pages : ℕ
  free : ℕ
  done : Bool

/-- What the rest of the kernel answers: `vm_fork`, and `thread_spawn`. -/
structure Answers where
  vmFork : VmFork
  threadSpawn : Bool

/-- `mem_alloc`. -/
def memAlloc (s : State) : Option ℕ × State :=
  let s1 := { s with memory := fun n => s.memory (n + 1) }
  if s.memory 0 then (some s.next, { s1 with next := s.next + 1, taken := update s.taken s.next true })
  else (none, s1)

/-- `mem_free`. -/
def memFree (s : State) (block : Option ℕ) : State :=
  match block with
  | none => s
  | some b => { s with taken := update s.taken b false }

/-- `proc_free`, of the process in a slot. -/
def procFree (s : State) (i : ℕ) : State :=
  match s.procs i with
  | none => s
  | some p =>
    let s := { s with procs := update s.procs i none }
    let s := memFree s (p.maps.map Block.at_)
    let s := memFree s (some p.files.at_)
    let s := memFree s p.filesOld
    let s := memFree s (p.cmdline.map Block.at_)
    memFree s (some p.at_)

/-- One that has ended and nobody will wait for, other than the one running. -/
def orphan (s : State) (self i : ℕ) : Bool :=
  i ≠ self && (s.procs i).any fun p => p.zombie && p.ppid = 0

/-- The ended ones nobody will wait for, forgotten. -/
def forget (s : State) (self : ℕ) : State :=
  (List.range processes).foldl (fun s i => if orphan s self i then procFree s i else s) s

/-- `proc_new`: the slot of the new one. -/
def procNew (s : State) (self : ℕ) : Option ℕ × State :=
  let s := forget s self
  match (List.range processes).find? fun i => (s.procs i).isNone with
  | none => (none, s)
  | some slot =>
    match memAlloc s with
    | (none, s) => (none, s)
    | (some at_, s) =>
      match memAlloc s with
      | (none, s) => (none, memFree { s with procs := update s.procs slot none } (some at_))
      | (some files, s) =>
        (some slot, { s with
          nextId := s.nextId + 1
          procs := update s.procs slot (some ⟨at_, s.nextId, 0, 0, 0, 0, false, false,
            ⟨files, fun _ => none⟩, firstFiles, none, none, none, none⟩) })

/-- `hold_all`: everything in a table counted once more. -/
def holdAll (s : State) (table : ℕ → Option Handle) (room : ℕ) : State :=
  { s with refs := fun c => s.refs c + ((List.range room).map fun fd =>
    ((table fd).getD []).count c).sum }

/-- A process changed. -/
def State.setProc (s : State) (i : ℕ) (f : Process → Process) : State :=
  { s with procs := update s.procs i ((s.procs i).map f) }

/-- Why a fork fails: `EAGAIN`, `FS_ENOSPC`, `ENOMEM`. -/
inductive Error
  | eagain
  | enospc
  | enomem
  deriving DecidableEq

/-- The child's descriptors made the parent's: room for them first. -/
def copyFiles (s : State) (slot : ℕ) (parent : Process) : Bool × State :=
  if firstFiles < parent.filesRoom then
    match memAlloc s with
    | (none, s) => (false, s)
    | (some bigger, s) =>
      let s := memFree s ((s.procs slot).map fun c => c.files.at_)
      (true, s.setProc slot fun c =>
        { c with files := ⟨bigger, parent.files.data⟩, filesRoom := parent.filesRoom })
  else (true, s.setProc slot fun c => { c with files := ⟨c.files.at_, parent.files.data⟩ })

/-- Its arguments, where there is memory for them. -/
def copyCmdline (s : State) (slot : ℕ) (parent : Process) : State :=
  match parent.cmdline with
  | none => s
  | some line =>
    match memAlloc s with
    | (none, s) => s
    | (some b, s) => s.setProc slot fun c => { c with cmdline := some ⟨b, line.data⟩ }

/-- Its mappings. -/
def copyMaps (s : State) (slot : ℕ) (parent : Process) : Bool × State :=
  match parent.maps with
  | none => (true, s)
  | some maps =>
    match memAlloc s with
    | (none, s) => (false, s)
    | (some b, s) => (true, s.setProc slot fun c => { c with maps := some ⟨b, maps.data⟩ })

/-- `grow`: three larger tables for those there are, or none of them. -/
def grow (s : State) : Bool × State :=
  let bigger := if s.shared.room = 0 then firstRoom else s.shared.room * 2
  let (e, s) := memAlloc s
  let (k, s) := memAlloc s
  let (f, s) := memAlloc s
  if e.isNone || k.isNone || f.isNone then (false, memFree (memFree (memFree s e) k) f)
  else
    let s := memFree (memFree (memFree s s.shared.entries) s.shared.byKey) s.shared.byFrame
    (true, { s with shared := ⟨e, k, f, bigger⟩ })

/-- `shared_adopt`, of page after page: one that there is no entry for is left to be copied. -/
def adoptPages : ℕ → ℕ → State → State
  | 0, _, s => s
  | pages + 1, free + 1, s => adoptPages pages free s
  | pages + 1, 0, s =>
    let (grew, s1) := grow s
    adoptPages pages (if grew then s1.shared.room - s.shared.room - 1 else 0) s1

/-- Its memory: the parent's, or a copy. What `vm_fork` takes for the child is one block here, which
one that fails has given back; the tables of `share.c` stay as large as they have grown. -/
def copySpace (s : State) (slot : ℕ) (parent : Process) (share : Bool) (vmFork : VmFork) :
    Bool × State :=
  if share then (true, s.setProc slot fun c => { c with space := parent.space, borrowed := true })
  else
    let s := adoptPages vmFork.pages vmFork.free s
    if vmFork.done then
      (true, ({ s with next := s.next + 1, taken := update s.taken s.next true }).setProc slot fun c =>
        { c with space := some s.next })
    else (false, s)

/-- `fork_on`, up to its wait for a `vfork`'s child: the child's pid. -/
def forkOn (s : State) (self : ℕ) (share : Bool) (a : Answers) : Except Error ℕ × State :=
  match s.procs self with
  | none => (.error .eagain, s)
  | some parent =>
    match procNew s self with
    | (none, s) => (.error .eagain, s)
    | (some slot, s) =>
      let s := s.setProc slot fun c =>
        { c with ppid := parent.pid, pgid := parent.pgid, sid := parent.sid }
      match copyFiles s slot parent with
      | (false, s) => (.error .enospc, s)
      | (true, s) =>
        match copyMaps (copyCmdline s slot parent) slot parent with
        | (false, s) => (.error .enospc, s)
        | (true, s) =>
          let s := s.setProc slot fun c => { c with rest := parent.rest }
          match copySpace s slot parent share a.vmFork with
          | (false, s) => (.error .enomem, procFree s slot)
          | (true, s) =>
            if a.threadSpawn then
              (.ok (((s.procs slot).map Process.pid).getD 0),
                holdAll s parent.files.data parent.filesRoom)
            else
              let s := if share then s else memFree s ((s.procs slot).bind Process.space)
              (.error .eagain, procFree s slot)

/-- What `wait4` is asked for: a child by its pid, any, one of the caller's group, or of another. -/
inductive Want
  | pid (pid : ℕ)
  | any
  | group
  | groupOf (pgid : ℕ)

/-- Whether a process is one `wait4` is asked for. -/
def wanted (self : Process) (want : Want) (c : Process) : Bool :=
  c.ppid = self.pid && match want with
    | .pid pid => c.pid = pid
    | .any => true
    | .group => c.pgid = self.pgid
    | .groupOf pgid => c.pgid = pgid

/-- What `wait4` finds, each time it looks. -/
inductive Wait
  | echild
  | none_
  | ended (pid : ℕ)
  deriving DecidableEq

/-- A look of `sys_wait4`'s. -/
def wait4 (s : State) (self : Process) (want : Want) : Wait :=
  let children := ((List.range processes).filterMap s.procs).filter (wanted self want)
  match children.find? Process.zombie with
  | some c => .ended c.pid
  | none => if children.isEmpty then .echild else .none_

end BaxOS.Proc
