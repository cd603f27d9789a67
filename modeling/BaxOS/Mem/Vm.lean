import BaxOS.Mem.Share

/-!
# The memory processes run in: `vm_fault`, `vm_release`, `vm_fork`

The state of `kernel/vm.c`: the spaces, each with its tables, entries and the pages it has bought;
which of them is mapped; and what of `mem.c` and `share.c` it goes by. A page is given by its number,
an address in the programs' region by its own. What `mem_pages` will answer is part of the state: an
answer that names pages handed out already counts as none, and so does a `0`. What pages hold is kept
for those that are mapped; the links `vm.c` keeps in spare pages and chunks are lists.

The table of shared pages is the one `share.c` keeps, as `Share.Spec` has it. A range of low memory,
which `vm_low` gives a program linked to a fixed address, is left out.
-/

namespace BaxOS.Vm
open Share Function

/-- `VM_PAGE`. -/
def vmPage : ℕ := 4096
/-- `ENTRIES` of a table. -/
def entries : ℕ := 512
/-- `SLOT_SIZE`. -/
def slotSize : ℕ := 2 ^ 39
/-- `SPACES`. -/
def spacesMax : ℕ := 128
/-- `CHUNK_FIRST`. -/
def chunkFirst : ℕ := 8
/-- `CHUNK_MAX`. -/
def chunkMax : ℕ := 64

/-! ### Tables -/

/-- An entry that is `PRESENT`: a page of the space's own, writable; one with `SHARED`, writable or
not; one with `DEVICE`. -/
inductive Pte
  | own (page : ℕ)
  | shared (page : ℕ) (write : Bool)
  | device (page : ℕ)
  deriving DecidableEq

/-- A last table: the page it is in, and its entries. -/
structure Table where
  at_ : ℕ
  entry : ℕ → Option Pte

/-- A table of tables. -/
structure Dir where
  at_ : ℕ
  table : ℕ → Option Table

/-- `struct chunk`. -/
structure Chunk where
  at_ : ℕ
  pages : ℕ

/-- `struct space`. -/
structure Space where
  pdpt : ℕ
  dir : ℕ → Option Dir
  bought : ℕ
  tables : ℕ
  chunks : List Chunk
  next : ℕ
  left : ℕ
  grow : ℕ
  spare : List ℕ

/-- What is at a place changed, if anything is. -/
def alter {α : Type} (f : ℕ → Option α) (k : ℕ) (g : α → α) : ℕ → Option α :=
  update f k ((f k).map g)

namespace Space

/-- The page of the `g`-th table of tables. -/
def dirAt (sp : Space) (g : ℕ) : Option ℕ := (sp.dir g).map Dir.at_

/-- The page of the `m`-th last table. -/
def tableAt (sp : Space) (m : ℕ) : Option ℕ :=
  ((sp.dir (m / entries)).bind fun d => d.table (m % entries)).map Table.at_

/-- The entry for the `v`-th page of the region. -/
def entry (sp : Space) (v : ℕ) : Option Pte :=
  ((sp.dir (v / entries / entries)).bind fun d => d.table (v / entries % entries)).bind fun t =>
    t.entry (v % entries)

/-- An entry written, where there is a table for it. -/
def setEntry (sp : Space) (v : ℕ) (e : Option Pte) : Space :=
  { sp with
    dir := alter sp.dir (v / entries / entries) fun d =>
      { d with
        table := alter d.table (v / entries % entries) fun t =>
          { t with entry := update t.entry (v % entries) e } } }

/-- An empty table of tables put in. -/
def addDir (sp : Space) (g page : ℕ) : Space :=
  { sp with dir := update sp.dir g (some ⟨page, fun _ => none⟩), tables := sp.tables + vmPage }

/-- An empty last table put in. -/
def addTable (sp : Space) (m page : ℕ) : Space :=
  { sp with
    dir := alter sp.dir (m / entries) fun d =>
      { d with table := update d.table (m % entries) (some ⟨page, fun _ => none⟩) }
    tables := sp.tables + vmPage }

/-- A last table taken out. -/
def dropTable (sp : Space) (m : ℕ) : Space :=
  { sp with
    dir := alter sp.dir (m / entries) fun d => { d with table := update d.table (m % entries) none }
    tables := sp.tables - vmPage }

/-- A table of tables taken out. -/
def dropDir (sp : Space) (g : ℕ) : Space :=
  { sp with dir := update sp.dir g none, tables := sp.tables - vmPage }

end Space

/-! ### The state -/

/-- The state: the spaces by where `spaces` has them, the one in the slot, the slot, or `0` if the
firmware leaves none; whether memory is the kernel's; the pages handed out, what `mem_pages` will
answer, the pages in common, whether `shared_adopt` will find memory, and how often each page is
held outside `vm.c`; what pages hold, and what is mapped right past the region's end, if anything;
and whether `vm_fault` faulted in its turn there, from which nothing comes back. -/
structure State where
  spaces : ℕ → Option Space
  cur : Option ℕ
  slot : ℕ
  ours : Bool
  out : ℕ → Bool
  offers : ℕ → ℕ
  shares : Shares
  memory : ℕ → Bool
  outside : ℕ → ℕ
  bytes : ℕ → ℕ → UInt8
  beyond : Option (ℕ → UInt8)
  hung : Bool

/-- A space changed. -/
def State.setSpace (s : State) (i : ℕ) (f : Space → Space) : State :=
  { s with spaces := alter s.spaces i f }

/-- What a page holds changed. -/
def State.fill (s : State) (page : ℕ) (data : ℕ → UInt8) : State :=
  { s with bytes := update s.bytes page data }

/-- The entry of space `i` for the `v`-th page. -/
def State.entry (s : State) (i v : ℕ) : Option Pte := (s.spaces i).bind (·.entry v)

/-- An entry of space `i` written. -/
def State.setEntry (s : State) (i v : ℕ) (e : Option Pte) : State :=
  s.setSpace i (·.setEntry v e)

/-- Whether space `i` buys its pages in chunks. -/
def State.onChunks (s : State) (i : ℕ) : Bool :=
  match s.spaces i with
  | some sp => !sp.chunks.isEmpty
  | none => false

/-! ### `mem.c` and `share.c` -/

/-- `mem_pages`. -/
def memPages (s : State) (n : ℕ) : Option ℕ × State :=
  let p := s.offers 0
  let s := { s with offers := fun k => s.offers (k + 1) }
  if p ≠ 0 ∧ (List.range n).all fun k => !s.out (p + k) then
    (some p, { s with out := fun q => s.out q || (p ≤ q && q < p + n) })
  else (none, s)

/-- `mem_pages_free`. -/
def memPagesFree (s : State) (p n : ℕ) : State :=
  { s with out := fun q => s.out q && !(p ≤ q && q < p + n) }

/-- `shared_take`. -/
def sharedTake (s : State) (page : ℕ) : Bool × State :=
  if (s.shares page).map Held.refs = some 1 then
    (true, { s with shares := update s.shares page none })
  else (false, s)

/-- `shared_hold`. -/
def sharedHold (s : State) (page : ℕ) : State :=
  { s with shares := alter s.shares page fun e => { e with refs := e.refs + 1 } }

/-- `shared_drop`. -/
def sharedDrop (s : State) (page : ℕ) : State :=
  if (s.shares page).map Held.refs = some 1 then
    memPagesFree { s with shares := update s.shares page none } page 1
  else { s with shares := alter s.shares page fun e => { e with refs := e.refs - 1 } }

/-- `shared_adopt`. -/
def sharedAdopt (s : State) (page : ℕ) : Bool × State :=
  let s1 := { s with memory := fun k => s.memory (k + 1) }
  if s.memory 0 then (true, { s1 with shares := update s.shares page (some ⟨none, 1⟩) })
  else (false, s1)

/-! ### Pages of a space -/

/-- The chunk `page_from` buys: of `want` pages, or half as many as long as it is refused. -/
def buyChunk : ℕ → State → ℕ → Option Chunk × State
  | 0, s, _ => (none, s)
  | fuel + 1, s, want =>
    match memPages s want with
    | (some p, s) => (some ⟨p, want⟩, s)
    | (none, s) => if want = 2 then (none, s) else buyChunk fuel s (if want / 2 < 2 then 2 else want / 2)

/-- The next page of a space's chunk. -/
def nextPage (s : State) (i : ℕ) (sp : Space) : Option ℕ × State :=
  (some sp.next, (s.setSpace i fun sp => { sp with next := sp.next + 1, left := sp.left - 1 }).fill
    sp.next fun _ => 0)

/-- `page_from`. -/
def pageFrom (s : State) (i : ℕ) : Option ℕ × State :=
  match s.spaces i with
  | none => (none, s)
  | some sp =>
    if sp.chunks.isEmpty && s.ours then
      match memPages s 1 with
      | (none, s) => (none, s)
      | (some p, s) =>
        (some p, (s.setSpace i fun sp => { sp with bought := sp.bought + vmPage }).fill p fun _ => 0)
    else
      match sp.spare with
      | p :: rest => (some p, (s.setSpace i fun sp => { sp with spare := rest }).fill p fun _ => 0)
      | [] =>
        if sp.left = 0 then
          let want := if sp.grow ≠ 0 then sp.grow else chunkFirst
          let s := s.setSpace i fun sp =>
            { sp with grow := if want < chunkMax then want * 2 else chunkMax }
          match buyChunk want s want with
          | (none, s) => (none, s)
          | (some c, s) =>
            let bigger : Space → Space := fun sp =>
              { sp with
                bought := sp.bought + c.pages * vmPage
                chunks := c :: sp.chunks
                next := c.at_ + 1
                left := c.pages - 1 }
            nextPage (s.setSpace i bigger) i (bigger sp)
        else nextPage s i sp

/-- `page_back`. -/
def pageBack (s : State) (i page : ℕ) : State :=
  if s.onChunks i then s.setSpace i fun sp => { sp with spare := page :: sp.spare }
  else (memPagesFree s page 1).setSpace i fun sp => { sp with bought := sp.bought - vmPage }

/-- `chunks_back`. -/
def chunksBack (s : State) (i : ℕ) : State :=
  let chunks := match s.spaces i with
    | some sp => sp.chunks
    | none => []
  (chunks.foldl (fun s c => memPagesFree s c.at_ c.pages) s).setSpace i fun sp =>
    { sp with bought := 0, chunks := [], next := 0, left := 0, spare := [], grow := 0 }

/-! ### Addresses and entries -/

/-- `vm_base`. -/
def vmBase (s : State) : ℕ := if s.cur.isSome then s.slot * slotSize else 0

/-- `vm_end`. -/
def vmEnd (s : State) : ℕ := if s.cur.isSome then s.slot * slotSize + slotSize else 0

/-- `vm_holds`. -/
def vmHolds (s : State) (addr size : ℕ) : Bool :=
  s.cur.isSome && vmBase s ≠ 0 && vmBase s ≤ addr && addr ≤ vmEnd s && size ≤ vmEnd s - addr

/-- Which entry of its tables a space has an address in: the three indexes `entry_in` goes by. -/
def vpn (addr : ℕ) : ℕ := addr / vmPage % (entries * entries * entries)

/-- The table of tables for a page made, if it is not there. -/
def makeDir (s : State) (i v : ℕ) : Bool × State :=
  if ((s.spaces i).bind (·.dirAt (v / entries / entries))).isSome then (true, s)
  else
    match pageFrom s i with
    | (none, s) => (false, s)
    | (some p, s) => (true, s.setSpace i (·.addDir (v / entries / entries) p))

/-- The last table for a page made, if it is not there. -/
def makeTable (s : State) (i v : ℕ) : Bool × State :=
  if ((s.spaces i).bind (·.tableAt (v / entries))).isSome then (true, s)
  else
    match pageFrom s i with
    | (none, s) => (false, s)
    | (some p, s) => (true, s.setSpace i (·.addTable (v / entries) p))

/-- `entry_in` making the tables on the way: whether they are there. -/
def makeTables (s : State) (i v : ℕ) : Bool × State :=
  match makeDir s i v with
  | (false, s) => (false, s)
  | (true, s) => makeTable s i v

/-! ### Faults and mappings -/

/-- A page of the space's own in place of one in common: what `memcpy` finds at the address goes
into it. The region's end, which `vm_holds` takes too, is not the entry's own address: what is mapped
there is copied; where nothing is, `memcpy` faults, and so does the `vm_fault` called for that. -/
def copyShared (s : State) (i v common addr : ℕ) : Bool × State :=
  match pageFrom s i with
  | (none, s) => (false, s)
  | (some p, s) =>
    match if addr / vmPage * vmPage < vmEnd s then some (s.bytes common) else s.beyond with
    | none => (false, { s with hung := true })
    | some data => (true, sharedDrop ((s.fill p data).setEntry i v (some (.own p))) common)

/-- The entry `vm_fault` finds made writable. -/
def faultEntry (s : State) (i v addr : ℕ) : Bool × State :=
  match s.entry i v with
  | some (.shared common _) =>
    if s.onChunks i then copyShared s i v common addr
    else
      match sharedTake s common with
      | (true, s) =>
        (true, (s.setEntry i v (some (.own common))).setSpace i fun sp =>
          { sp with bought := sp.bought + vmPage })
      | (false, s) => copyShared s i v common addr
  | some _ => (true, s)
  | none =>
    match pageFrom s i with
    | (none, s) => (false, s)
    | (some p, s) => (true, s.setEntry i v (some (.own p)))

/-- `vm_fault`. -/
def vmFault (s : State) (addr : ℕ) : Bool × State :=
  match s.cur with
  | none => (false, s)
  | some i =>
    if vmHolds s addr 0 then
      match makeTables s i (vpn addr) with
      | (false, s) => (false, s)
      | (true, s) => faultEntry s i (vpn addr) addr
    else (false, s)

/-- `vm_map_shared`. The hold its caller has on the page is the entry's from then on. -/
def vmMapShared (s : State) (addr page : ℕ) (writable : Bool) : Bool × State :=
  match s.cur with
  | none => (false, s)
  | some i =>
    if vmHolds s addr vmPage then
      match makeTables s i (vpn addr) with
      | (false, s) => (false, s)
      | (true, s) =>
        if (s.entry i (vpn addr)).isSome then (false, s)
        else
          (true, { s.setEntry i (vpn addr) (some (.shared page writable)) with
            outside := update s.outside page (s.outside page - 1) })
    else (false, s)

/-- The whole pages from the one `first` is in to the one `last` is in, that one not. -/
def pagesOf (first last : ℕ) : List ℕ :=
  (List.range (last / vmPage - first / vmPage)).map fun k => (first / vmPage + k) * vmPage

/-- `vm_fault` for one page after another, as long as it succeeds. -/
def faultAll (s : State) : List ℕ → Bool × State
  | [] => (true, s)
  | page :: rest =>
    match vmFault s page with
    | (false, s) => (false, s)
    | (true, s) => faultAll s rest

/-- `vm_reserve`. -/
def vmReserve (s : State) (addr size : ℕ) : Bool × State :=
  if vmHolds s addr size then faultAll s (pagesOf addr (addr + size + vmPage - 1)) else (false, s)

/-- `low_page_back`. -/
def lowPageBack (s : State) (i : ℕ) : Pte → State
  | .device _ => s
  | .shared page _ => sharedDrop s page
  | .own page => pageBack s i page

/-- An entry given up and cleared. -/
def dropEntry (s : State) (i v : ℕ) : State :=
  match s.entry i v with
  | none => s
  | some e => (lowPageBack s i e).setEntry i v none

/-- The loop of `vm_map_device`: the pages from `addr` on made a device's from `phys` on. -/
def mapDevices (s : State) (i addr phys : ℕ) : ℕ → Bool × State
  | 0 => (true, s)
  | k + 1 =>
    match mapDevices s i addr phys k with
    | (false, s) => (false, s)
    | (true, s) =>
      let v := vpn (addr + k * vmPage)
      match makeTables s i v with
      | (false, s) => (false, s)
      | (true, s) => (true, (dropEntry s i v).setEntry i v (some (.device (phys + k))))

/-- `vm_map_device`. The device's memory starts at page `phys`. -/
def vmMapDevice (s : State) (addr phys size : ℕ) : Bool × State :=
  match s.cur with
  | none => (false, s)
  | some i =>
    if vmHolds s addr size then mapDevices s i addr phys ((size + vmPage - 1) / vmPage)
    else (false, s)

/-- `vm_release`. -/
def vmRelease (s : State) (addr size : ℕ) : State :=
  match s.cur with
  | none => s
  | some i =>
    if vmHolds s addr size then
      (pagesOf (addr + vmPage - 1) (addr + size)).foldl (fun s page => dropEntry s i (vpn page)) s
    else s

/-- An entry that is the space's own given up. -/
def discardEntry (s : State) (i v : ℕ) : State :=
  match s.entry i v with
  | some (.own _) => dropEntry s i v
  | _ => s

/-- `vm_discard`. -/
def vmDiscard (s : State) (addr size : ℕ) : State :=
  match s.cur with
  | none => s
  | some i =>
    if vmHolds s addr size then
      (List.range ((size + vmPage - 1) / vmPage)).foldl
        (fun s k => discardEntry s i (vpn (addr + k * vmPage))) s
    else s

/-! ### Spaces -/

/-- A last table emptied and given up. -/
def emptyTable (s : State) (i m : ℕ) : State :=
  match (s.spaces i).bind (·.tableAt m) with
  | none => s
  | some t =>
    let s := (List.range entries).foldl (fun s k => dropEntry s i (m * entries + k)) s
    (pageBack s i t).setSpace i (·.dropTable m)

/-- A table of tables emptied and given up. -/
def emptyDir (s : State) (i g : ℕ) : State :=
  match (s.spaces i).bind (·.dirAt g) with
  | none => s
  | some d =>
    let s := (List.range entries).foldl (fun s j => emptyTable s i (g * entries + j)) s
    (pageBack s i d).setSpace i (·.dropDir g)

/-- `level_empty`, but for the top table. -/
def levelEmpty (s : State) (i : ℕ) : State :=
  chunksBack ((List.range entries).foldl (fun s g => emptyDir s i g) s) i

/-- `vm_reset`. -/
def vmReset (s : State) : State :=
  match s.cur with
  | none => s
  | some i => levelEmpty s i

/-- A space as it starts. -/
def newSpace (pdpt : ℕ) : Space := ⟨pdpt, fun _ => none, 0, 0, [], 0, 0, 0, []⟩

/-- `vm_space_new`: where `spaces` has the new one. -/
def vmSpaceNew (s : State) : Option ℕ × State :=
  match (List.range spacesMax).find? fun i => (s.spaces i).isNone with
  | none => (none, s)
  | some i =>
    if s.slot = 0 then (none, s)
    else
      match memPages s 1 with
      | (none, s) => (none, s)
      | (some p, s) =>
        (some i, { (s.fill p fun _ => 0) with spaces := update s.spaces i (some (newSpace p)) })

/-- `vm_space_use`. -/
def vmSpaceUse (s : State) (i : Option ℕ) : State := { s with cur := i }

/-- `vm_space_free`. -/
def vmSpaceFree (s : State) (i : ℕ) : State :=
  match s.spaces i with
  | none => s
  | some sp =>
    let s := memPagesFree (levelEmpty s i) sp.pdpt 1
    { s with spaces := update s.spaces i none, cur := if s.cur = some i then none else s.cur }

/-! ### Fork -/

/-- `walk`: what `visit` does, entry by entry. -/
def walk {α : Type} (space : α → Option Space) (visit : α → ℕ → α) (a : α) : α :=
  (List.range entries).foldl (fun a g =>
    if ((space a).bind (·.dirAt g)).isSome then
      (List.range entries).foldl (fun a j =>
        if ((space a).bind (·.tableAt (g * entries + j))).isSome then
          (List.range entries).foldl (fun a k =>
            let v := (g * entries + j) * entries + k
            if ((space a).bind (·.entry v)).isSome then visit a v else a) a
        else a) a
    else a) a

/-- The copy of a page of the parent's for the child. -/
def forkCopy (s : State) (child v page : ℕ) : Bool × State :=
  match pageFrom s child with
  | (none, s) => (true, s)
  | (some p, s) => (false, (s.fill p (s.bytes page)).setEntry child v (some (.own p)))

/-- A page in common mapped in the child too, and held once more. -/
def forkShare (s : State) (child v page : ℕ) (write : Bool) : Bool × State :=
  (false, sharedHold (s.setEntry child v (some (.shared page write))) page)

/-- `fork_page`, with `fork_failed`. -/
def forkPage (parent child : ℕ) (a : Bool × State) (v : ℕ) : Bool × State :=
  if a.1 then a
  else
    match makeTables a.2 child v with
    | (false, s) => (true, s)
    | (true, s) =>
      match s.entry parent v with
      | none => (false, s)
      | some (.device page) => (false, s.setEntry child v (some (.device page)))
      | some (.shared page write) => forkShare s child v page write
      | some (.own page) =>
        if s.onChunks parent || s.onChunks child then forkCopy s child v page
        else
          match sharedAdopt s page with
          | (false, s) => forkCopy s child v page
          | (true, s) =>
            let s := (s.setEntry parent v (some (.shared page false))).setSpace parent fun sp =>
              { sp with bought := sp.bought - vmPage }
            forkShare s child v page false

/-- `vm_fork`: where `spaces` has the child. -/
def vmFork (s : State) : Option ℕ × State :=
  match s.cur with
  | none => (none, s)
  | some parent =>
    match vmSpaceNew s with
    | (none, s) => (none, s)
    | (some child, s) =>
      match walk (fun a => a.2.spaces parent) (forkPage parent child) (false, s) with
      | (true, s) => (none, vmSpaceFree s child)
      | (false, s) => (some child, s)

/-! ### What programs and the rest of the kernel do -/

/-- The page an entry maps. -/
def Pte.page : Pte → ℕ
  | .own page => page
  | .shared page _ => page
  | .device page => page

/-- Whether an entry has `WRITE`. -/
def Pte.writable : Pte → Bool
  | .own _ => true
  | .shared _ write => write
  | .device _ => true

/-- The address `a` bytes into the region. -/
def regionAddr (s : State) (a : ℕ) : ℕ := vmBase s + a

/-- What the running program reads `a` bytes into its region, by way of `page_fault` where nothing
is mapped: `none` if that fails. -/
def load (s : State) (a : ℕ) : Option UInt8 × State :=
  match s.cur with
  | none => (none, s)
  | some i =>
    let s1 := match s.entry i (a / vmPage) with
      | some _ => s
      | none => (vmFault s (regionAddr s a)).2
    ((s1.entry i (a / vmPage)).map fun e => s1.bytes e.page (a % vmPage), s1)

/-- The running program writes a byte `a` bytes into its region, by way of `page_fault` where the
entry is not there or not writable: whether it could. -/
def store (s : State) (a : ℕ) (b : UInt8) : Bool × State :=
  match s.cur with
  | none => (false, s)
  | some i =>
    let s1 := if (s.entry i (a / vmPage)).any Pte.writable then s
      else (vmFault s (regionAddr s a)).2
    match (s1.entry i (a / vmPage)).filter Pte.writable with
    | none => (false, s1)
    | some e => (true, s1.fill e.page (update (s1.bytes e.page) (a % vmPage) b))

/-- A page bought and put in the table of those in common, as that of a file or of no file, by a
caller that fills it and holds it. -/
def pageNew (s : State) (key : Option (ℕ × ℕ)) (data : ℕ → UInt8) : State :=
  match memPages s 1 with
  | (none, s) => s
  | (some p, s) =>
    match sharedAdopt s p with
    | (false, s) => memPagesFree s p 1
    | (true, s) =>
      { s.fill p data with
        shares := update s.shares p (some ⟨key, 1⟩)
        outside := update s.outside p 1 }

/-- A page in common held once more by a caller. -/
def pageHold (s : State) (page : ℕ) : State :=
  { sharedHold s page with outside := update s.outside page (s.outside page + 1) }

/-- A caller's hold on a page dropped. -/
def pageDrop (s : State) (page : ℕ) : State :=
  { sharedDrop s page with outside := update s.outside page (s.outside page - 1) }

/-! ### Runs -/

/-- A call, or what a program or the rest of the kernel does. Programs' own addresses are given by
how far into the region they are. -/
inductive Op
  | spaceNew
  | spaceUse (i : Option ℕ)
  | spaceFree (i : ℕ)
  | fault (addr : ℕ)
  | reserve (addr size : ℕ)
  | mapShared (addr page : ℕ) (writable : Bool)
  | mapDevice (addr phys size : ℕ)
  | release (addr size : ℕ)
  | discard (addr size : ℕ)
  | fork
  | reset
  | takeOver
  | pageNew (key : Option (ℕ × ℕ)) (data : ℕ → UInt8)
  | pageHold (page : ℕ)
  | pageDrop (page : ℕ)
  | load (a : Fin slotSize)
  | store (a : Fin slotSize) (b : UInt8)

/-- One of them. -/
def step (s : State) : Op → State
  | .spaceNew => (vmSpaceNew s).2
  | .spaceUse i => vmSpaceUse s i
  | .spaceFree i => vmSpaceFree s i
  | .fault addr => (vmFault s addr).2
  | .reserve addr size => (vmReserve s addr size).2
  | .mapShared addr page writable => (vmMapShared s addr page writable).2
  | .mapDevice addr phys size => (vmMapDevice s addr phys size).2
  | .release addr size => vmRelease s addr size
  | .discard addr size => vmDiscard s addr size
  | .fork => (vmFork s).2
  | .reset => vmReset s
  | .takeOver => { s with ours := true }
  | .pageNew key data => Vm.pageNew s key data
  | .pageHold page => Vm.pageHold s page
  | .pageDrop page => Vm.pageDrop s page
  | .load a => (Vm.load s a).2
  | .store a b => (Vm.store s a b).2

/-- All of them in turn. -/
def run (s : State) (ops : List Op) : State := ops.foldl step s

/-- The module as it starts: no spaces, and nothing handed out. -/
structure Started (s : State) : Prop where
  spaces : ∀ i, s.spaces i = none
  cur : s.cur = none
  out : ∀ p, s.out p = false
  shares : ∀ p, s.shares p = none
  outside : ∀ p, s.outside p = 0

end BaxOS.Vm
