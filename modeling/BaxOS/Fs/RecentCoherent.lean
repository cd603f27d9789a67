import BaxOS.Fs.RecentCalls

/-!
# The slots stay coherent

Every call of `fs.c` keeps the slots coherent whatever requests to the disk fail: function by
function (`Keeps`), from `load_sector`, `put` and the sector edited in its slot. In every run in
which no run of sectors put down reaches past the last one 32 bits number, each numbered slot is
what the disk has there (`run_slotsCoherent`). `put` compares with a sum that 32 bits cut: past that
sector it leaves a slot with what the disk had before (`exists_not_slotsCoherent`).
-/

namespace BaxOS.Fs.Recent
open ByteStore Extents Std.Do

set_option mvcgen.warning false

/-- A call that keeps the slots coherent. -/
abbrev Keeps {α : Type} (c : Call α) : Prop := ⦃fun s => ⌜Coherent s⌝⦄ c ⦃kept⦄

@[spec]
theorem getHead_spec : Keeps getHead := by
  mvcgen [getHead]

@[spec]
theorem sectorData_spec : Keeps sectorData := by
  mvcgen [sectorData]

/-! ### The header and the entries -/

@[spec]
theorem loadTable_spec : Keeps loadTable := by
  mvcgen [loadTable]
  case vc3.isFalse.post.success.pre s hl => exact hl.toCoherent

@[spec]
theorem saveHeader_spec : Keeps saveHeader := by
  mvcgen [saveHeader, getHead, editSector]
  case vc2.post.success.pre s hl _ => exact hl.holding.edit fun _ => s.head.sector
  case vc3.post.success.post.success => exact id

@[spec]
theorem readEntry_spec (index : ℕ) : Keeps (readEntry index) := by
  mvcgen [readEntry]
  case vc4.post.success.isFalse.post.success.pre s hl => exact hl.toCoherent

@[spec]
theorem writeEntry_spec (index : ℕ) (name : Option Name) (start size : ℕ) :
    Keeps (writeEntry index name start size) := by
  mvcgen [writeEntry, editSector]
  case vc3.post.success.post.success s hl _ => exact hl.holding.edit _

/-! ### The index -/

/-- A visitor of a sector that keeps the slots coherent. -/
abbrev Visits {σ : Type} (visit : ℕ → σ → Call (σ × Bool)) : Prop :=
  ∀ lba x, ⦃fun s => ⌜Loaded lba s⌝⦄ visit lba x ⦃kept⦄

theorem probeOn_spec {σ : Type} {visit : ℕ → σ → Call (σ × Bool)} (hvisit : Visits visit)
    (l : List ℕ) (x : σ) : Keeps (probeOn visit l x) := by
  induction l generalizing x with
  | nil => mvcgen [probeOn]
  | cons lba rest ih =>
    have hlba := hvisit lba x
    mvcgen [probeOn, hlba, ih]

theorem gatherSector_visits (hash : ℕ) : Visits (gatherSector hash) := fun lba x => by
  mvcgen [gatherSector]
  case vc1.pre s hl => exact hl.toCoherent

theorem placeSector_visits (p : Placing) : Visits (placeSector p) := fun lba x => by
  mvcgen [placeSector, sectorData, setHead, editSector]
  case vc1.h_1 s hl _ => exact hl.toCoherent
  case vc2.h_2 s hl _ => exact hl.toCoherent
  case vc3.h_3.pre s hl i _ _ s1 _ =>
    have hhead : Holding lba s1.2 := ⟨hl.sector, hl.unused, hl.number, hl.holding.exact⟩
    exact hhead.edit fun data =>
      blit data (12 * i) 12 (if p.remove ≠ 0 then ⟨0, 0, gone⟩ else p.record).bytes

@[spec]
theorem slotNamed_spec (name : Name) (e : ℕ) : Keeps (slotNamed name e) := by
  mvcgen [slotNamed]

@[spec]
theorem firstNamed_spec (name : Name) (l : List ℕ) : Keeps (firstNamed name l) := by
  induction l with
  | nil => mvcgen [firstNamed]
  | cons e rest ih => mvcgen [firstNamed, ih]

@[spec]
theorem searchOn_spec (name : Name) (hash : ℕ) (l : List ℕ) : Keeps (searchOn name hash l) := by
  induction l with
  | nil => mvcgen [searchOn]
  | cons i rest ih =>
    mvcgen [searchOn, ih]
    case vc3.cons.post.success.post.success.pre s hl => exact hl.toCoherent

@[spec]
theorem find_spec (name : Name) : Keeps (find name) := by
  have hprobe := probeOn_spec (gatherSector_visits (hashOf name))
  mvcgen [find, hprobe]

@[spec]
theorem indexRemove_spec (name : Name) (entry : ℕ) : Keeps (indexRemove name entry) := by
  have hprobe := fun p => probeOn_spec (placeSector_visits p)
  mvcgen [indexRemove, hprobe]

/-! ### Room on the disk -/

@[spec]
theorem tableRuns_spec (h : Header) (replacing : Option Slot) (fuel at_ : ℕ) :
    Keeps (tableRuns h replacing fuel at_) := by
  induction fuel generalizing at_ with
  | zero => mvcgen [tableRuns]
  | succ fuel ih => mvcgen [tableRuns, ih]

@[spec]
theorem allocateGap_spec (count : ℕ) (replacing : Option Slot) :
    Keeps (allocateGap count replacing) := by
  mvcgen [allocateGap]

@[spec]
theorem allocateNew_spec (count : ℕ) (replacing : Option Slot) :
    Keeps (allocateNew count replacing) := by
  mvcgen [allocateNew]

@[spec]
theorem allocate_spec (count : ℕ) (replacing : Option Slot) :
    Keeps (allocate count replacing) := by
  mvcgen [allocate]

@[spec]
theorem moveSectors_spec (step src held dst count fuel i : ℕ) :
    Keeps (moveSectors step src held dst count fuel i) := by
  induction fuel generalizing i with
  | zero => mvcgen [moveSectors]
  | succ fuel ih => mvcgen [moveSectors, ih]

@[spec]
theorem freeEntry_spec : Keeps freeEntry := by
  mvcgen [freeEntry]

@[spec]
theorem rebuild_spec (sectors : ℕ) (l : List ℕ) (cells : ℕ → Record) (taken : ℕ) :
    Keeps (rebuild sectors l cells taken) := by
  induction l generalizing cells taken with
  | nil => mvcgen [rebuild]
  | cons e rest ih => mvcgen [rebuild, ih]

@[spec]
theorem indexGrow_spec : Keeps indexGrow := by
  mvcgen [indexGrow]

@[spec]
theorem indexAdd_spec (name : Name) (entry : ℕ) : Keeps (indexAdd name entry) := by
  have hprobe := fun p => probeOn_spec (placeSector_visits p)
  mvcgen [indexAdd, hprobe]

@[spec]
theorem dropEntry_spec (index : ℕ) (name : Name) : Keeps (dropEntry index name) := by
  mvcgen [dropEntry]

/-! ### The disk as a whole -/

@[spec]
theorem fsInit_spec : Keeps fsInit := by
  mvcgen [fsInit]
  next => exact id

@[spec]
theorem fsFormat_spec (n : ℕ) : Keeps (fsFormat n) := by
  mvcgen [fsFormat]

@[spec]
theorem fsResize_spec (free : ℕ) : Keeps (fsResize free) := by
  mvcgen [fsResize]

@[spec]
theorem fsRuns_spec : Keeps fsRuns := by
  mvcgen [fsRuns]

@[spec]
theorem statsOn_spec (h : Header) (fuel at_ : ℕ) : Keeps (statsOn h fuel at_) := by
  induction fuel generalizing at_ with
  | zero => mvcgen [statsOn]
  | succ fuel ih => mvcgen [statsOn, ih]

@[spec]
theorem fsGetStats_spec : Keeps fsGetStats := by
  mvcgen [fsGetStats]

/-! ### Paths -/

@[spec]
theorem walkPart_spec (follow : Bool) (w : Walk) : Keeps (walkPart follow w) := by
  mvcgen [walkPart]
  next s hl => exact hl.toCoherent

@[spec]
theorem walkOn_spec (follow : Bool) (fuel : ℕ) (w : Walk) : Keeps (walkOn follow fuel w) := by
  induction fuel generalizing w with
  | zero => mvcgen [walkOn]
  | succ fuel ih => mvcgen [walkOn, ih]

@[spec]
theorem resolveAny_spec (path : Name) (follow : Bool) : Keeps (resolveAny path follow) := by
  mvcgen [resolveAny]

@[spec]
theorem resolve_spec (path : Name) (follow : Bool) : Keeps (resolve path follow) := by
  mvcgen [resolve]

@[spec]
theorem dirName_spec (path : Name) (follow : Bool) : Keeps (dirName path follow) := by
  mvcgen [dirName]

@[spec]
theorem parentExists_spec (name : Name) : Keeps (parentExists name) := by
  mvcgen [parentExists]

/-! ### Looking at files -/

@[spec]
theorem fsFile_spec (index : ℕ) : Keeps (fsFile index) := by
  mvcgen [fsFile]

@[spec]
theorem recordOn_spec (run : Option IndexRun) (cursor : ℕ) : Keeps (recordOn run cursor) := by
  mvcgen [recordOn]
  next s hl => exact hl.toCoherent

@[spec]
theorem fileInside_spec (folder : Name) (index : ℕ) : Keeps (fileInside folder index) := by
  mvcgen [fileInside]

@[spec]
theorem listOn_spec (folder : Name) (run : Option IndexRun) (l : List ℕ) :
    Keeps (listOn folder run l) := by
  induction l generalizing run with
  | nil => mvcgen [listOn]
  | cons k rest ih => mvcgen [listOn, ih]

@[spec]
theorem fsList_spec (held : Store) (folder : Name) (cursor : ℕ) :
    Keeps (fsList held folder cursor) := by
  mvcgen [fsList]

@[spec]
theorem statAt_spec (path : Name) (follow : Bool) : Keeps (statAt path follow) := by
  mvcgen [statAt]

@[spec]
theorem fsSector_spec (start index : ℕ) : Keeps (fsSector start index) := by
  mvcgen [fsSector]
  next s hl => exact hl.toCoherent

@[spec]
theorem fsReadMany_spec (start index count : ℕ) : Keeps (fsReadMany start index count) := by
  mvcgen [fsReadMany]

@[spec]
theorem fsReadlink_spec (path : Name) (max : ℕ) : Keeps (fsReadlink path max) := by
  mvcgen [fsReadlink, fsLstat]
  next s hl => exact hl.toCoherent

@[spec]
theorem fsFolder_spec (path : Name) (max : ℕ) : Keeps (fsFolder path max) := by
  mvcgen [fsFolder]

@[spec]
theorem fsFolderAt_spec (path : Name) : Keeps (fsFolderAt path) := by
  mvcgen [fsFolderAt]

@[spec]
theorem fsEntry_spec (path : Name) (follow : Bool) : Keeps (fsEntry path follow) := by
  mvcgen [fsEntry]

/-! ### Writing -/

@[spec]
theorem putScratch_spec (lba : ℕ) (data : Store) : Keeps (putScratch lba data) := by
  mvcgen [putScratch, scratch, takeSlot, editSector]
  next s h _ _ => exact h.taken.edit fun _ => data

@[spec]
theorem putData_spec (start count : ℕ) (data : List UInt8) : Keeps (putData start count data) := by
  mvcgen [putData]

@[spec]
theorem storeAt_spec (index : ℕ) (old : Option Slot) (name : Name) (data : List UInt8)
    (flag : ℕ) : Keeps (storeAt index old name data flag) := by
  mvcgen [storeAt]

@[spec]
theorem store_spec (name : Name) (data : List UInt8) (flag : ℕ) : Keeps (store name data flag) := by
  mvcgen [store]

@[spec]
theorem fsWrite_spec (path : Name) (data : List UInt8) : Keeps (fsWrite path data) := by
  mvcgen [fsWrite]

@[spec]
theorem fsSymlink_spec (target path : Name) : Keeps (fsSymlink target path) := by
  mvcgen [fsSymlink]

@[spec]
theorem fsRemove_spec (held : Store) (path : Name) : Keeps (fsRemove held path) := by
  mvcgen [fsRemove]

@[spec]
theorem fsMkdir_spec (path : Name) : Keeps (fsMkdir path) := by
  mvcgen [fsMkdir]

@[spec]
theorem modeEntry_spec (path full : Name) : Keeps (modeEntry path full) := by
  mvcgen [modeEntry]

@[spec]
theorem fsSetMode_spec (path : Name) (mode : ℕ) : Keeps (fsSetMode path mode) := by
  mvcgen [fsSetMode]

@[spec]
theorem fsChdir_spec (path : Name) : Keeps (fsChdir path) := by
  mvcgen [fsChdir]

@[spec]
theorem fsRename_spec (source dest : Name) : Keeps (fsRename source dest) := by
  mvcgen [fsRename]

@[spec]
theorem layPart_spec (lba : ℕ) (had : Bool) (into n : ℕ) (data : Store) :
    Keeps (layPart lba had into n data) := by
  mvcgen [layPart, scratch, takeSlot, editSector]
  case vc1.isTrue.pre s h _ _ _ _ => exact h.taken.edit fun _ _ => 0
  case vc2.isTrue.post.success s h _ => exact h.1.edit fun was => blit was into n data
  case vc3.isFalse s h _ _ _ _ _ =>
    exact (h.taken.edit fun _ _ => 0).edit fun was => blit was into n data

@[spec]
theorem layData_spec (start held offset : ℕ) (data : List UInt8) (fuel done : ℕ) :
    Keeps (layData start held offset data fuel done) := by
  induction fuel generalizing done with
  | zero => mvcgen [layData]
  | succ fuel ih => mvcgen [layData, ih]

@[spec]
theorem moveFile_spec (start held room offset : ℕ) : Keeps (moveFile start held room offset) := by
  mvcgen [moveFile]

@[spec]
theorem writeAtEnd_spec (name : Name) (start held offset size : ℕ) (data : List UInt8) :
    Keeps (writeAtEnd name start held offset size data) := by
  mvcgen [writeAtEnd]

@[spec]
theorem fsWriteAt_spec (path : Name) (offset : ℕ) (data : List UInt8) :
    Keeps (fsWriteAt path offset data) := by
  mvcgen [fsWriteAt]

/-! ### Runs -/

/-- **Every call keeps the slots coherent**, whatever becomes of its requests to the disk. -/
theorem call_spec (op : Op) : Keeps (call op) := by
  cases op <;> mvcgen [call, fsStat, fsLstat, fsCwdSet]

theorem exec_coherent {s : State} (h : Coherent s) (op : Op) : Coherent (exec s op) := by
  have hrun := run_of_spec (call_spec op) h
  unfold exec
  cases hc : (call op).run.run s with
  | mk r s' =>
    rw [hc] at hrun
    cases r with
    | ok a => exact hrun
    | error e => exact hrun

theorem run_coherent {s : State} (h : Coherent s) (ops : List Op) : Coherent (run s ops) := by
  induction ops generalizing s with
  | nil => exact h
  | cons op ops ih => exact ih (exec_coherent h op)

/-- `fs.c` as the kernel starts: no slot holds anything. The disk, what becomes of each request, and
the memory there is are anything. -/
structure Booted (s : State) : Prop where
  heldTable : s.heldTable = false
  cwd : s.cwd = []
  slots : s.slots = recentFew
  recentLba : ∀ i, s.recentLba i = 0
  sector : s.sector = 0
  puts : s.puts = []

theorem Booted.coherent {s : State} (h : Booted s) : Coherent s := by
  refine ⟨?_, fun i _ => h.recentLba i, fun _ i _ hne => absurd (h.recentLba i) hne⟩
  rw [h.sector, h.slots]
  norm_num [recentFew]

/-- Each numbered slot holds what the disk has of its sector, for which no write has failed since,
and what `load_sector` loads is what the disk has. -/
structure SlotsCoherent (s : State) : Prop where
  slot : ∀ i, s.recentLba i ≠ 0 → s.lost (s.recentLba i) = false ∧
    ∀ x, x < sectorSize → s.recent i x = s.disk (sectorSize * s.recentLba i + x)
  load : ∀ lba s', (loadSector lba).run.run s = (.ok (), s') →
    ∀ x, x < sectorSize → s'.recent s'.sector x = s.disk (sectorSize * lba + x)

/-- A sector loaded leaves the disk as it is. -/
theorem loadSector_still (lba : ℕ) (s0 : State) : ⦃fun s => ⌜s = s0⌝⦄ loadSector lba
    ⦃post⟨fun _ s => ⌜s.disk = s0.disk ∧ s.puts = s0.puts⌝, fun _ _ => ⌜True⌝⟩⦄ := by
  mvcgen [loadSector, takeSlot, readSector, ataReadMany, editSector, -loadSector_spec,
    -readSector_spec, -ataReadMany_spec]
  case vc1.h_1 s h _ _ =>
    subst h
    exact ⟨rfl, rfl⟩
  case vc3.h_2.isFalse.isFalse s h _ _ _ _ _ _ =>
    subst h
    exact ⟨rfl, rfl⟩

theorem Coherent.slotsCoherent {s : State} (h : Coherent s) (hs : s.Short) : SlotsCoherent s := by
  refine ⟨fun i hi => h.exact hs i (Set.notMem_empty i) hi, fun lba s' hload => ?_⟩
  have hl := run_of_spec (loadSector_spec lba) h
  have hst := run_of_spec (loadSector_still lba s) rfl
  rw [hload] at hl hst
  obtain ⟨hdisk, hputs⟩ := hst
  have hs' : s'.Short := by
    unfold State.Short
    rw [hputs]
    exact hs
  rw [← hdisk]
  exact (hl.same hs').2

/-- **The slots stay coherent** in every run of calls, whatever requests to the disk fail, in which
no run of sectors put down reaches past the last sector 32 bits number. -/
theorem run_slotsCoherent {s : State} {ops : List Op} (hs : Booted s)
    (hshort : (run s ops).Short) : SlotsCoherent (run s ops) :=
  (run_coherent hs.coherent ops).slotsCoherent hshort

/-- The kernel started on a new filesystem of a disk with this many sectors, where data ends. -/
def booted (diskSectors dataEnd : ℕ) (io : ℕ → Io) : State where
  disk := blit (fun _ => 0) (sectorSize * fsLba) sectorSize
    { newHeader diskSectors with dataEnd := dataEnd }.sector
  lost := fun _ => false
  head := newHeader 0
  heldTable := false
  cwd := []
  mem := fun _ => true
  io := io
  slots := recentFew
  recentLba := fun _ => 0
  recentUsed := fun _ => 0
  recentClock := 0
  recent := fun _ _ => 0
  sector := 0
  puts := []

theorem booted_booted (diskSectors dataEnd : ℕ) (io : ℕ → Io) :
    Booted (booted diskSectors dataEnd io) := ⟨rfl, rfl, rfl, fun _ => rfl, rfl, rfl⟩

/-- A file written, where the fifth request to the disk fails. -/
theorem run_slotsCoherent_write :
    let io : ℕ → Io := fun n => ⟨n == 4, fun _ => 7⟩
    SlotsCoherent (run (booted 102 22 io) [.write [0x61] [1], .stat [0x61]]) :=
  run_slotsCoherent (booted_booted 102 22 _) (by unfold State.Short; decide +kernel)

/-- A disk of as many sectors as 32 bits number, all of them taken: the next is the sector after
them, and `put` looks for it in no slot. -/
theorem exists_not_slotsCoherent : ∃ s ops, Booted s ∧ ¬ SlotsCoherent (run s ops) := by
  refine ⟨booted (2 ^ 32 - 1) (2 ^ 32 - 1) fun _ => ⟨false, fun _ => 0⟩,
    [.cache true fun _ _ => 0, .sector (2 ^ 32 - 1) 0, .write [0x61] [1]],
    booted_booted _ _ _, fun h => ?_⟩
  obtain ⟨-, hslot⟩ := h.slot 0 (by decide +kernel)
  exact absurd (hslot 0 (by norm_num [sectorSize])) (by decide +kernel)

end BaxOS.Fs.Recent
