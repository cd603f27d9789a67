import BaxOS.Lib.Laid

/-!
# `execve`

The lists are copied out of the old program's memory into `line` (`copy_list`), changed where the
file begins with a `#!` line (`shebang`), and laid out on the new program's stack (`build_stack`).
A pointer into the copies is a `Ref`; nothing is written over while one is in use. What the
filesystem, the loader and the allocator answer is a `World`'s to say.
-/

namespace BaxOS.Exec
open ByteStore

/-- `EXEC_LINE`. -/
def execLine : ℕ := 4096

/-- `EXEC_ARGS`. -/
def execArgs : ℕ := 64

/-- `EXEC_ENV`. -/
def execEnv : ℕ := 64

/-- `FS_NAME_LEN`. -/
def fsNameLen : ℕ := 120

/-- `SLOT_SIZE`. -/
def slotSize : ℕ := 2 ^ 39

/-- `USER_STACK`: the stack's top, as an offset into the region. -/
def userStack : ℕ := 0x01040000

/-- `USER_STACK_BYTES`. -/
def userStackBytes : ℕ := 0x800000

/-! ### The program's memory -/

/-- A program's window: the slot its region is, and the low memory it was given. -/
structure Space where
  slot : ℕ
  low : Option (ℕ × ℕ)
  slot_pos : 0 < slot
  slot_lt : slot < 256

theorem one_lt_slots : 1 < 256 := by decide

namespace Space

/-- `vm_base`. -/
def base (s : Space) : ℕ := s.slot * slotSize

/-- `vm_holds`. -/
def holds (s : Space) (addr size : ℕ) : Bool :=
  (s.low.any fun (start, fin) => start ≤ addr ∧ addr ≤ fin ∧ size ≤ fin - addr) ||
    (s.base ≤ addr ∧ addr ≤ s.base + slotSize ∧ size ≤ s.base + slotSize - addr)

/-- Where the stack ends. -/
def top (s : Space) : ℕ := s.base + userStack

end Space

/-- Whether there is a NUL in the `n` bytes from `p` on, within the window. -/
def nulWithin (s : Space) (mem : Store) : ℕ → ℕ → Bool
  | 0, _ => false
  | n + 1, p => s.holds p 0 && (mem p == 0 || nulWithin s mem n (p + 1))

/-- `user_string`. -/
def userString (s : Space) (mem : Store) (addr : ℕ) : Option (List UInt8) :=
  if nulWithin s mem 4096 addr then some (cstr mem addr 4096) else none

/-! ### The lists copied -/

/-- The loop of `copy_list` from the pointer at `p` on, `left` more at most: `line`, how much of it
is used, and where each string is in it. -/
def copyWords (s : Space) (mem : Store) (room : ℕ) :
    ℕ → ℕ → Store → ℕ → Store × ℕ × List ℕ
  | 0, _, line, used => (line, used, [])
  | left + 1, p, line, used =>
    if ! s.holds p 8 ∨ word64 mem p = 0 then (line, used, [])
    else
      match userString s mem (word64 mem p) with
      | none => (line, used, [])
      | some word =>
        if room < used + (word.length + 1) then (line, used, [])
        else
          let (line, used', out) :=
            copyWords s mem room left (p + 8) (putString line used word) (used + (word.length + 1))
          (line, used', used :: out)

/-- `copy_list`. -/
def copyList (s : Space) (mem : Store) (list : ℕ) (line : Store) (room used max : ℕ) :
    Store × ℕ × List ℕ :=
  if list = 0 ∨ ! s.holds list 8 then (line, used, [])
  else copyWords s mem room (max - 1) list line used

/-! ### The `#!` line -/

/-- A space or a tab. -/
def isBlank (c : UInt8) : Bool := c == 0x20 || c == 0x09

/-- The end of a line. -/
def isEnd (c : UInt8) : Bool := c == 0x0A

/-- The program a line after `#!` names. -/
def interpOf (line : List UInt8) : List UInt8 :=
  (line.dropWhile isBlank).takeWhile fun c => ! isEnd c && ! isBlank c

/-- What comes after it, up to the end of the line. -/
def extraOf (line : List UInt8) : List UInt8 :=
  (((line.dropWhile isBlank).dropWhile fun c => ! isEnd c && ! isBlank c).dropWhile isBlank).takeWhile
    fun c => ! isEnd c

/-- What the first line of a text says after `#!`: the program, and its argument if there is one. -/
def bang (text : List UInt8) : Option (List UInt8 × Option (List UInt8)) :=
  match text.takeWhile (· ≠ 0) with
  | 0x23 :: 0x21 :: line =>
    if interpOf line = [] then none
    else some (interpOf line, if extraOf line = [] then none else some (extraOf line))
  | _ => none

/-- A file: its bytes, and whether they can be read. -/
structure File where
  content : List UInt8
  readable : Bool

/-- `shebang`, with a buffer of `max` bytes. -/
def shebang (f : File) (max : ℕ) : Option (List UInt8 × Option (List UInt8)) :=
  if f.content.length < 3 ∨ ! f.readable then none else bang (f.content.take (max - 1))

/-! ### The stack -/

/-- What `program_load` leaves: the memory, and what the auxiliary vector tells of the program. -/
structure Loaded where
  mem : Store
  phdr : Fin (2 ^ 64)
  phent : Fin (2 ^ 64)
  phnum : Fin (2 ^ 64)
  base : Fin (2 ^ 64)
  entry : Fin (2 ^ 64)

/-- `AT_NULL`. -/
def atNull : ℕ := 0

/-- `AT_RANDOM`. -/
def atRandom : ℕ := 25

/-- The auxiliary vector. -/
def auxv (l : Loaded) (randomAt execfn : ℕ) : List (ℕ × ℕ) :=
  [(3, l.phdr), (4, l.phent), (5, l.phnum), (6, 4096), (7, l.base), (8, 0), (9, l.entry), (11, 0),
    (12, 0), (13, 0), (14, 0), (16, 0), (17, 100), (23, 0), (atRandom, randomAt), (31, execfn),
    (atNull, 0)]

/-- `build_stack`: the memory and `rsp`. -/
def buildStack (s : Space) (l : Loaded) (alloc : Bool) (random : Store)
    (argv envv : List (List UInt8)) : Option (Store × ℕ) :=
  if ! s.holds (s.top - userStackBytes) userStackBytes then none
  else if ! alloc then none
  else
    let argv := argv.take execArgs
    let envv := envv.take execEnv
    let (mem, bottom, strings) := layDown l.mem s.top (argv ++ envv)
    let randomAt := (bottom - 16) / 16 * 16
    let mem := blit mem randomAt 16 random
    let aux := auxv l randomAt (strings.headD 0)
    let rsp := (randomAt - (1 + argv.length + 1 + envv.length + 1 + aux.length * 2) * 8) / 16 * 16
    let out := argv.length :: strings.take argv.length ++ 0 :: strings.drop argv.length ++ 0 ::
      aux.flatMap fun (type, value) => [type, value]
    some (putWords mem rsp out, rsp)

/-! ### The call -/

/-- What `execve` finds: the program's memory, and what the rest of the kernel answers. A name of
`proc_fd_target`'s fits its array. -/
structure World where
  space : Space
  mem : Store
  alloc : Bool
  fdTarget : List UInt8 → Option (List UInt8)
  fdTarget_short : ∀ name t, fdTarget name = some t → t.length ≤ fsNameLen ∧ 0 ∉ t
  command : List UInt8 → Bool
  stat : List UInt8 → Option File
  spaceNew : Bool
  load : File → Option Loaded
  stackAlloc : Bool
  random : Store

/-- A pointer to a string: into `line`, to `name` or `script`, or into `shebang`. -/
inductive Ref
  | line (at_ : ℕ)
  | name
  | script
  | shebang (s : List UInt8)

/-- `struct exec_args`. -/
structure Held where
  line : Store
  name : List UInt8
  script : List UInt8
  words : List Ref
  env : List Ref

/-- The string a pointer is to. -/
def Held.text (h : Held) : Ref → List UInt8
  | .line a => cstr h.line a (execLine - a)
  | .name => h.name
  | .script => h.script
  | .shebang s => s

/-- How a call ends: with an error, as a built-in command, as a process that ends with 127, or as a
program started. -/
inductive Outcome
  | error
  | builtin
  | died
  | started (mem : Store) (rsp : ℕ)

/-- From the point of no return on. -/
def become (w : World) (h : Held) (f : File) : Outcome :=
  if ! w.spaceNew then .error
  else
    match w.load f with
    | none => .died
    | some l =>
      match buildStack w.space l w.stackAlloc w.random (h.words.map h.text) (h.env.map h.text) with
      | none => .died
      | some (mem, rsp) => .started mem rsp

/-- A file that is there and is not empty. -/
def found (w : World) (name : List UInt8) : Option File :=
  (w.stat name).filter fun f => f.content.length ≠ 0

/-- The name a call is for: the path given, or what `proc_fd_target` says it is. -/
def World.named (w : World) (given : List UInt8) : List UInt8 := (w.fdTarget given).getD given

/-- `sys_execve` once the lists are copied. -/
def start (w : World) (h : Held) : Outcome :=
  if w.command h.name then .builtin
  else
    match found w h.name with
    | none => .error
    | some f =>
      match shebang f (fsNameLen * 2) with
      | none => become w h f
      | some (interp, extra) =>
        let lead := .shebang interp :: (extra.toList.map Ref.shebang ++ [.script])
        let rest := lead ++ (h.words.drop 1).take (execArgs - 1 - lead.length)
        let h := { h with script := h.name, words := rest }
        if fsNameLen < interp.length + 1 then .error
        else
          let h := { h with name := interp }
          match found w h.name with
          | none => .error
          | some f => become w h f

/-- The lists copied, for the path `given`. -/
def held (w : World) (given : List UInt8) (argv envp : ℕ) : Held :=
  let (line, used, words) := copyList w.space w.mem argv (fun _ => 0) execLine 0 execArgs
  let (line, _, env) := copyList w.space w.mem envp line execLine used execEnv
  { line
    name := w.named given
    script := []
    words := if words = [] then [.name] else words.map .line
    env := env.map .line }

/-- `sys_execve`. -/
def execve (w : World) (path argv envp : ℕ) : Outcome :=
  match userString w.space w.mem path with
  | none => .error
  | some given =>
    if fsNameLen < given.length + 1 then .error
    else if ! w.alloc then .error
    else start w (held w given argv envp)

end BaxOS.Exec
