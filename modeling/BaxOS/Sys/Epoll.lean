import Mathlib.Logic.Function.Basic
import Mathlib.Data.List.Basic
import Mathlib.Tactic

/-!
# An epoll set: `epoll_ctl`, `epoll_wait`, and what closes and opens descriptors

A process's descriptors and its epoll sets, from `kernel/syscall.c` and `modules/compat/linux.c`. An
open file has a number of its own, given when it is opened and never again: descriptors made of one
another have the same. What `poll_once` finds of an open file is the caller's to say.

`Registry` is what a program has asked for: by set and descriptor, the open file that was meant and
the data to be given for it.
-/

namespace BaxOS.Epoll
open Function

/-- `PROGRAM_FILES`. -/
def programFiles : ℕ := 1024
/-- `FIRST_FILES`. -/
def firstFiles : ℕ := 145
/-- `EPOLL_ENTRIES`. -/
def epollEntries : ℕ := 255
/-- `EPOLL_EVENTS`. -/
def epollEvents : UInt32 := 0x201F
/-- `EPOLLONESHOT`. -/
def epollOneshot : UInt32 := 0x40000000

/-- A descriptor's `struct handle`: the open file it is of, and whether that is an epoll set. -/
structure Handle where
  file : ℕ
  isSet : Bool
  deriving DecidableEq

/-- An entry of `struct epoll_set`. -/
structure Entry where
  fd : ℕ
  events : UInt32
  data : UInt64
  deriving DecidableEq

/-- The state: the descriptors and the room for them, the epoll sets by open file, the next open
file's number, and what `mem_alloc` will answer. -/
structure State where
  handles : ℕ → Option Handle
  room : ℕ
  sets : ℕ → List Entry
  next : ℕ
  memory : ℕ → Bool

/-- A descriptor, which is an `int`, of what a program gives for one. -/
def low32 (fd : ℕ) : ℕ := fd % 2 ^ 32

/-- `handle_of`. -/
def handleOf (s : State) (fd : ℕ) : Option Handle :=
  if low32 fd < s.room then s.handles (low32 fd) else none

/-- `epoll_of`: the set a descriptor is of. -/
def epollOf (s : State) (fd : ℕ) : Option ℕ :=
  ((handleOf s fd).filter Handle.isSet).map Handle.file

/-! ### Descriptors given out -/

/-- The room `files_grow` makes. -/
def doubled (need : ℕ) : ℕ → ℕ → ℕ
  | 0, room => room
  | fuel + 1, room => if room ≤ need ∧ room < programFiles then doubled need fuel (room * 2) else room

/-- `files_grow`. -/
def filesGrow (s : State) (need : ℕ) : Bool × State :=
  let room := min (doubled need programFiles s.room) programFiles
  if room ≤ need then (false, s)
  else
    let s1 := { s with memory := fun n => s.memory (n + 1) }
    if s.memory 0 then (true, { s1 with room := room }) else (false, s1)

/-- The descriptor `give_handle` takes: the lowest free one, or the first there is no room for. -/
def lowest (s : State) : ℕ :=
  ((List.range s.room).find? fun i => (s.handles i).isNone).getD s.room

/-- `give_handle`: `none` is `EMFILE`. -/
def giveHandle (s : State) (h : Handle) : Option ℕ × State :=
  let i := lowest s
  if i < s.room then (some i, { s with handles := update s.handles i (some h) })
  else
    match filesGrow s i with
    | (false, s) => (none, s)
    | (true, s) => (some i, { s with handles := update s.handles i (some h) })

/-- A descriptor of a new open file: what `open`, `socket` and each end of `pipe` make. -/
def opened (s : State) (isSet : Bool) : Option ℕ × State :=
  giveHandle { s with next := s.next + 1, sets := update s.sets s.next [] } ⟨s.next, isSet⟩

/-- `sys_pipe`: both ends are asked for, and the first is taken back where the second is not had. -/
def sysPipe (s : State) : Option (ℕ × ℕ) × State :=
  match opened s false with
  | (none, s) => (none, (opened s false).2)
  | (some i, s) =>
    match opened s false with
    | (none, s) => (none, { s with handles := update s.handles i none })
    | (some j, s) => (some (i, j), s)

/-- `sys_close`: whether there was one. -/
def sysClose (s : State) (fd : ℕ) : Bool × State :=
  match handleOf s fd with
  | none => (false, s)
  | some _ => (true, { s with handles := update s.handles (low32 fd) none })

/-- `sys_dup`. -/
def sysDup (s : State) (fd : ℕ) : Option ℕ × State :=
  match handleOf s fd with
  | none => (none, s)
  | some h => giveHandle s h

/-- `dup_to`: `to` is cut to an `int`, and is compared with what was given for the other. -/
def dupTo (s : State) (fd to_ : ℕ) : Option ℕ × State :=
  match handleOf s fd with
  | none => (none, s)
  | some h =>
    let to_ := low32 to_
    if to_ < programFiles then
      match if s.room ≤ to_ then filesGrow s to_ else (true, s) with
      | (false, s) => (none, s)
      | (true, s) =>
        if to_ = fd then (some to_, s)
        else (some to_, { (sysClose s to_).2 with
          handles := update (sysClose s to_).2.handles to_ (some h) })
    else (none, s)

/-! ### The set -/

/-- The operations of `epoll_ctl`. -/
inductive Ctl
  | add
  | mod
  | del
  deriving DecidableEq

/-- What `epoll_ctl` answers. -/
inductive Answer
  | ok
  | badf
  | fault
  | exist
  | nospc
  | noent
  deriving DecidableEq

/-- What `epoll_ctl` makes of a set's entries. -/
def ctlSet (set : List Entry) (op : Ctl) (fd : ℕ) (event : Option (UInt32 × UInt64)) :
    Answer × List Entry :=
  let i := set.findIdx fun e => e.fd = fd
  match op, event with
  | .del, _ =>
    if i = set.length then (.noent, set)
    else (.ok, (set.set i (set.getLastD ⟨0, 0, 0⟩)).dropLast)
  | _, none => (.fault, set)
  | .add, some (events, data) =>
    if i < set.length then (.exist, set)
    else if set.length = epollEntries then (.nospc, set)
    else (.ok, set ++ [⟨fd, events, data⟩])
  | .mod, some (events, data) =>
    if i = set.length then (.noent, set) else (.ok, set.set i ⟨fd, events, data⟩)

/-- `sys_epoll_ctl`, with the event the program gives, if it can be read. -/
def sysEpollCtl (s : State) (epfd : ℕ) (op : Ctl) (fd : ℕ) (event : Option (UInt32 × UInt64)) :
    Answer × State :=
  match epollOf s epfd, handleOf s fd with
  | some k, some _ =>
    let r := ctlSet (s.sets k) op (low32 fd) event
    (r.1, { s with sets := update s.sets k r.2 })
  | _, _ => (.badf, s)

/-- What is told of an entry: what is ready, and the data. -/
abbrev Event := UInt32 × UInt64

/-- `epoll_once`: what it tells, and the entries after it. What `poll_once` finds at a descriptor is
`look`. -/
def epollOnce (look : ℕ → UInt32 → UInt32) : ℕ → List Entry → List Event × List Entry
  | _, [] => ([], [])
  | 0, set => ([], set)
  | most + 1, e :: set =>
    let asked := e.events &&& epollEvents
    let got := if asked = 0 then 0 else look e.fd asked
    if got = 0 then
      let r := epollOnce look (most + 1) set
      (r.1, e :: r.2)
    else
      let r := epollOnce look most set
      ((got, e.data) :: r.1,
        (if e.events &&& epollOneshot ≠ 0 then { e with events := 0 } else e) :: r.2)

/-- What `poll_once` finds at a descriptor, from what there is of each open file. -/
def pollOnce (s : State) (ready : ℕ → UInt32 → UInt32) (fd : ℕ) (asked : UInt32) : UInt32 :=
  match handleOf s fd with
  | none => 0
  | some h => ready h.file asked

/-- A turn of `epoll_wait`'s loop: `none` is `EBADF`. -/
def epollWait (s : State) (epfd most : ℕ) (ready : ℕ → UInt32 → UInt32) :
    Option (List Event) × State :=
  match epollOf s epfd with
  | none => (none, s)
  | some k =>
    let r := epollOnce (pollOnce s ready) most (s.sets k)
    (some r.1, { s with sets := update s.sets k r.2 })

/-! ### Runs -/

/-- A call. -/
inductive Op
  | epollCreate
  | open_
  | pipe
  | dup (fd : ℕ)
  | dup2 (fd to_ : ℕ)
  | close (fd : ℕ)
  | ctl (epfd : ℕ) (op : Ctl) (fd : ℕ) (event : Option (UInt32 × UInt64))
  | wait (epfd most : ℕ) (ready : ℕ → UInt32 → UInt32)

/-- One of them. -/
def exec (s : State) : Op → State
  | .epollCreate => (opened s true).2
  | .open_ => (opened s false).2
  | .pipe => (sysPipe s).2
  | .dup fd => (sysDup s fd).2
  | .dup2 fd to_ => (dupTo s fd to_).2
  | .close fd => (sysClose s fd).2
  | .ctl epfd op fd event => (sysEpollCtl s epfd op fd event).2
  | .wait epfd most ready => (epollWait s epfd most ready).2

/-- What a program has asked for: by set and descriptor, the open file it had then, and the data. -/
abbrev Registry := ℕ → ℕ → Option (ℕ × UInt64)

/-- What a call asks for, where it succeeds. -/
def asks (s : State) (g : Registry) : Op → Registry
  | .ctl epfd op fd event =>
    match epollOf s epfd, handleOf s fd with
    | some k, some h =>
      if (sysEpollCtl s epfd op fd event).1 = .ok then
        update g k (update (g k) (low32 fd) (if op = .del then none else event.map fun e => (h.file, e.2)))
      else g
    | _, _ => g
  | _ => g

/-- A state, with what has been asked for. -/
structure World where
  state : State
  asked : Registry

/-- A call, with what it asks for. -/
def step (w : World) (op : Op) : World := ⟨exec w.state op, asks w.state w.asked op⟩

/-- All of them in turn. -/
def run (w : World) (ops : List Op) : World := ops.foldl step w

/-- A process as it starts: what it has open are files of their own, none of them a set. -/
structure Started (w : World) : Prop where
  room : w.state.room = firstFiles
  past : ∀ fd, firstFiles ≤ fd → w.state.handles fd = none
  files : ∀ fd h, w.state.handles fd = some h → h.file < w.state.next ∧ h.isSet = false
  asked : ∀ k fd, w.asked k fd = none

/-- Some descriptor is of an open file. -/
def IsOpen (s : State) (file : ℕ) : Prop := ∃ fd h, s.handles fd = some h ∧ h.file = file

/-- A set some descriptor is of. -/
def IsSet (s : State) (k : ℕ) : Prop := ∃ fd, s.handles fd = some ⟨k, true⟩

end BaxOS.Epoll
