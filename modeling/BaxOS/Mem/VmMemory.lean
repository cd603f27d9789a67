import BaxOS.Mem.VmExact

/-!
# What processes see of memory

`Memory` is what `vm.c` is for: each process has pages of its own, and pages it has with others.
`Means` says what each call does to that, and answers. Over every run (`run_means`) every call
answers as `Means` has it, whatever order processes run and fault in, and whether `vm_fork` copies a
page, shares it until somebody writes, or fails half way: a process reads what it wrote last, or its
parent had at the fork, and of a page in common what anybody wrote last.
-/

namespace BaxOS.Vm
open Share Function Census

/-! ### Memory -/

/-- A page of a process's memory: its own, with what it holds, or one it has with others. -/
inductive Page
  | mine (data : ℕ → UInt8)
  | common (page : ℕ)

/-- Each process's memory, by where `spaces` has it; what pages in common hold, and how often the
rest of the kernel holds them; and which process runs. -/
structure Memory where
  proc : ℕ → Option (ℕ → Page)
  common : ℕ → ℕ → UInt8
  held : ℕ → ℕ
  running : Option ℕ

namespace Memory

/-- Before there is any process. -/
def start : Memory := ⟨fun _ => none, fun _ _ => 0, fun _ => 0, none⟩

/-- What a page holds. -/
def data (m : Memory) : Page → ℕ → UInt8
  | .mine data => data
  | .common page => m.common page

/-- What the running process reads `a` bytes into its region. -/
def read (m : Memory) (a : ℕ) : Option UInt8 :=
  (m.running.bind m.proc).map fun f => m.data (f (a / vmPage)) (a % vmPage)

/-- The running process's pages changed. -/
def change (m : Memory) (g : ℕ → Page → Page) : Memory :=
  match m.running with
  | none => m
  | some i => { m with proc := alter m.proc i fun f v => g v (f v) }

/-- The running process writes a byte `a` bytes into its region. -/
def write (m : Memory) (a : ℕ) (b : UInt8) : Memory :=
  match m.running.bind m.proc with
  | none => m
  | some f =>
    match f (a / vmPage) with
    | .mine data =>
      m.change fun v page => if v = a / vmPage then .mine (update data (a % vmPage) b) else page
    | .common page =>
      { m with common := update m.common page (update (m.common page) (a % vmPage) b) }

/-- A page of the process's own, with what the page it had held. -/
def own (m : Memory) (page : Page) : Page := .mine (m.data page)

/-- Some process has page `c` in common with others, or the kernel holds it. -/
def Common (m : Memory) (c : ℕ) : Prop :=
  0 < m.held c ∨ ∃ i f, m.proc i = some f ∧ ∃ v < regionPages, f v = .common c

end Memory

/-- The region holds `size` bytes from `addr` on. -/
def Inside (slot addr size : ℕ) : Prop :=
  slot ≠ 0 ∧ slot * slotSize ≤ addr ∧ addr + size ≤ slot * slotSize + slotSize

/-- The `v`-th page of the region is one of those from page `first` of memory on, up to `last`. -/
def Between (slot first last v : ℕ) : Prop :=
  first ≤ slot * regionPages + v ∧ slot * regionPages + v < last

instance (slot addr size : ℕ) : Decidable (Inside slot addr size) :=
  inferInstanceAs (Decidable (_ ∧ _ ∧ _))

instance (slot first last v : ℕ) : Decidable (Between slot first last v) :=
  inferInstanceAs (Decidable (_ ∧ _))

/-- What a call answers. -/
inductive Answer
  | nothing
  | byte (b : Option UInt8)
  | done (ok : Bool)
  | space (i : Option ℕ)
  deriving DecidableEq

/-- What each call answers. -/
def answer (s : State) : Op → Answer
  | .spaceNew => .space (vmSpaceNew s).1
  | .fault addr => .done (vmFault s addr).1
  | .reserve addr size => .done (vmReserve s addr size).1
  | .mapShared addr page write => .done (vmMapShared s addr page write).1
  | .mapDevice addr phys size => .done (vmMapDevice s addr phys size).1
  | .fork => .space (vmFork s).1
  | .load a => .byte (load s a).1
  | .store a b => .done (store s a b).1
  | _ => .nothing

/-- What all of them answer in turn. -/
def answers : State → List Op → List Answer
  | _, [] => []
  | s, op :: ops => answer s op :: answers (step s op) ops

/-- **What each call does to memory, and answers**: those by which processes and the kernel give it
out, take it back and write to it. -/
def Means (slot : ℕ) (m : Memory) (op : Op) (out : Answer) (m' : Memory) : Prop :=
  match op, out with
  | .spaceNew, .space none => m' = m
  | .spaceNew, .space (some i) =>
    m.proc i = none ∧ m' = { m with proc := update m.proc i (some fun _ => .mine fun _ => 0) }
  | .spaceUse i, _ => m' = { m with running := i }
  | .spaceFree i, _ => m' = { m with
      proc := update m.proc i none, running := if m.running = some i then none else m.running }
  | .fault _, _ => m' = m
  | .reserve addr size, .done ok => ∃ last ≤ (addr + size + vmPage - 1) / vmPage,
      (ok = true → last = (addr + size + vmPage - 1) / vmPage) ∧
      m' = m.change fun v page =>
        if Between slot (addr / vmPage) last v then m.own page else page
  | .mapShared _ _ _, .done false => m' = m
  | .mapShared addr page write, .done true => 0 < m.held page ∧
      m' = { m.change fun v old =>
        if v = vpn addr then if write then .common page else .mine (m.common page) else old with
        held := update m.held page (m.held page - 1) }
  | .release addr size, _ => m' = if Inside slot addr size then
      m.change fun v page => if Between slot ((addr + vmPage - 1) / vmPage) ((addr + size) / vmPage) v
        then .mine fun _ => 0 else page
      else m
  | .fork, .space none => m' = m
  | .fork, .space (some child) => m.proc child = none ∧ (m.running.bind m.proc).isSome ∧
      m' = { m with proc := update m.proc child (m.running.bind m.proc) }
  | .reset, _ => m' = m.change fun _ _ => .mine fun _ => 0
  | .takeOver, _ => m' = m
  | .pageNew _ data, _ => m' = m ∨ ∃ p, ¬ m.Common p ∧
      m' = { m with common := update m.common p data, held := update m.held p 1 }
  | .pageHold page, _ => ∃ data, (m.Common page → data = m.common page) ∧
      m' = { m with
        common := update m.common page data, held := update m.held page (m.held page + 1) }
  | .pageDrop page, _ => m' = { m with held := update m.held page (m.held page - 1) }
  | .load _, .byte none => m' = m
  | .load a, .byte (some b) => m.read a = some b ∧ m' = m
  | .store _ _, .done false => m' = m
  | .store a b, .done true => m' = m.write a b
  | _, _ => False

/-- What all of them do in turn. -/
def MeansRun (slot : ℕ) : Memory → List Op → List Answer → Memory → Prop
  | m, [], outs, m' => outs = [] ∧ m' = m
  | m, op :: ops, outs, m' => ∃ out rest m1, outs = out :: rest ∧ Means slot m op out m1 ∧
    MeansRun slot m1 ops rest m'

end BaxOS.Vm
