import BaxOS.Fs.Disk
import BaxOS.Lib.Extents
import Mathlib

/-!
# The recent-sector slots

`fs.c` keeps the last few sectors it read in slots, edits a sector in its slot before it writes it,
and puts sectors of its own together in the same slots. Here a request to the disk may fail: a read
that does leaves anything in the buffer, a write that does leaves anything in the sectors it was
for. What the operations are made of keeps every numbered slot what the disk has there
(`loadSector_spec`, `put_spec`, `putHeld_spec`), as long as no run that is put down reaches past the
last sector 32 bits number.
-/

namespace BaxOS.Fs.Recent
open ByteStore Extents Std.Do

set_option mvcgen.warning false

/-! ### The state -/

/-- What becomes of one request to the disk: whether it fails, and what it leaves where it does. -/
structure Io where
  fails : Bool
  junk : Store

/-- The state of `fs.c`, its slots included. `recentLba i` is `0` for a slot holding nothing,
`recent i` is what is in slot `i`, and `sector` is the slot in use. `io` is what becomes of each
request from now on, `lost` the sectors that a write failed for and that have been neither written
nor read since, and `puts` the runs that `put` has been given so far. -/
structure State where
  disk : Store
  lost : ℕ → Bool
  head : Header
  heldTable : Bool
  cwd : Name
  mem : ℕ → Bool
  io : ℕ → Io
  slots : ℕ
  recentLba : ℕ → ℕ
  recentUsed : ℕ → ℕ
  recentClock : ℕ
  recent : ℕ → Store
  sector : ℕ
  puts : List Run

/-- A call: what it returns or its error code, and the state it leaves either way. -/
abbrev Call := ExceptT Err (StateM State)

/-- `RECENT`, the kernel's own slots. -/
def recentFew : ℕ := 4
/-- `RECENT_MAX`, slots while the firmware reads. -/
def recentMax : ℕ := 8

/-! ### Requests -/

/-- `mem_alloc`: whether it gave memory. -/
def memAlloc : Call Bool := do
  let s ← get
  set { s with mem := fun n => s.mem (n + 1) }
  return s.mem 0

/-- `ata_read_many`: whether it succeeded, and what is in the buffer then. -/
def ataReadMany (lba count : ℕ) : Call (Bool × Store) := do
  let s ← get
  if count = 0 then return (false, fun _ => 0)
  if (s.io 0).fails then
    set { s with io := fun n => s.io (n + 1) }
    return (false, (s.io 0).junk)
  set { s with
    lost := fun l => if lba ≤ l ∧ l < lba + count then false else s.lost l
    io := fun n => s.io (n + 1) }
  return (true, fun i => s.disk (sectorSize * lba + i))

/-- `ata_write_many`. -/
def ataWriteMany (lba count : ℕ) (data : Store) : Call Unit := do
  let s ← get
  if count = 0 then throw .eio
  set { s with
    disk := blit s.disk (sectorSize * lba) (sectorSize * count)
      (if (s.io 0).fails then (s.io 0).junk else data)
    lost := fun l => if lba ≤ l ∧ l < lba + count then (s.io 0).fails else s.lost l
    io := fun n => s.io (n + 1) }
  if (s.io 0).fails then throw .eio

/-- The header changed. -/
def setHead (f : Header → Header) : Call Unit := modify fun s => { s with head := f s.head }

/-- `held_table` set. -/
def setHeldTable (held : Bool) : Call Unit := modify fun s => { s with heldTable := held }

/-- `cwd` set. -/
def setCwd (dir : Name) : Call Unit := modify fun s => { s with cwd := dir }

/-! ### The slots -/

/-- The slot used longest ago. -/
def State.oldest (s : State) : ℕ :=
  (List.range' 1 (s.slots - 1)).foldl
    (fun old i => if s.recentUsed i < s.recentUsed old then i else old) 0

/-- The slot used now. -/
def State.touch (s : State) (i : ℕ) : State :=
  { s with
    recentUsed := Function.update s.recentUsed i (u32 (s.recentClock + 1))
    recentClock := u32 (s.recentClock + 1)
    sector := i }

/-- The number of a slot set. -/
def State.number (s : State) (i lba : ℕ) : State :=
  { s with recentLba := Function.update s.recentLba i lba }

/-- What is in the slot in use changed. -/
def State.edit (s : State) (f : Store → Store) : State :=
  { s with recent := Function.update s.recent s.sector (f (s.recent s.sector)) }

/-- `take_slot`. -/
def takeSlot (lba : ℕ) : Call Unit := modify fun s => (s.number s.oldest lba).touch s.oldest

/-- `scratch`. -/
def scratch : Call Unit := takeSlot 0

/-- What is in the slot in use changed. -/
def editSector (f : Store → Store) : Call Unit := modify fun s => s.edit f

/-- What is in the slot in use. -/
def sectorData : Call Store := do
  let s ← get
  return s.recent s.sector

/-- `ata_read` into the slot in use. -/
def readSector (lba : ℕ) : Call Unit := do
  let (ok, buffer) ← ataReadMany lba 1
  editSector fun _ => buffer
  if !ok then throw .eio

/-- The slot that holds a sector. -/
def State.slotOf (s : State) (lba : ℕ) : Option ℕ :=
  (List.range s.slots).find? fun i => s.recentLba i = lba ∧ lba ≠ 0

/-- `load_sector`. -/
def loadSector (lba : ℕ) : Call Unit := do
  let s ← get
  match s.slotOf lba with
  | some i => set (s.touch i)
  | none =>
    takeSlot 0
    readSector lba
    modify fun s => s.number s.sector lba

/-- What `put` forgets: the slots of the sectors it writes, but the one that is written. -/
def State.forgetRun (s : State) (lba count : ℕ) (source : Option ℕ) : State :=
  { s with recentLba := fun i =>
      if i < s.slots ∧ lba ≤ s.recentLba i ∧ s.recentLba i < u32 (lba + count) ∧ source ≠ some i
      then 0 else s.recentLba i }

/-- `put`. `source` is the slot that the data is, if it is one. -/
def put (lba count : ℕ) (data : Store) (source : Option ℕ) : Call Unit := do
  modify fun s => { s.forgetRun lba count source with puts := s.puts ++ [(lba, count)] }
  ataWriteMany lba count data

/-- The slot in use put down. -/
def putSector (lba : ℕ) : Call Unit := do
  let s ← get
  put lba 1 (s.recent s.sector) (some s.sector)

/-- `forget`. -/
def forget : Call Unit := modify fun s => s.number s.sector 0

/-- The slot in use put down where it is from, and forgotten where that fails. -/
def putHeld (lba : ℕ) : Call Unit := do
  try putSector lba
  catch e =>
    forget
    throw e

/-- `fs_cache`. `page` is what the memory that holds the slots from now on held before. -/
def fsCache (slow : Bool) (page : ℕ → Store) : Call Unit := do
  let given ← if slow then memAlloc else pure true
  if given then
    modify fun s => { s with
      recent := page
      slots := if slow then recentMax else recentFew
      recentLba := fun _ => 0
      sector := 0 }

/-! ### What is kept -/

/-- What is in a slot is what the disk has of a sector, which no write has failed for since. -/
def Same (s : State) (i lba : ℕ) : Prop :=
  s.lost lba = false ∧ ∀ x, x < sectorSize → s.recent i x = s.disk (sectorSize * lba + x)

/-- No run put down has reached past the last sector 32 bits number. -/
def State.Short (s : State) : Prop := ∀ r ∈ s.puts, r.1 + r.2 < 2 ^ 32

/-- Every numbered slot but those excepted is what the disk has there. -/
def Exact (s : State) (but : Set ℕ) : Prop := ∀ i, i ∉ but → s.recentLba i ≠ 0 → Same s i (s.recentLba i)

/-- The slots are coherent. Those past the last in use hold nothing. -/
structure Coherent (s : State) : Prop where
  sector : s.sector < s.slots
  unused : ∀ i, s.slots ≤ i → s.recentLba i = 0
  exact : s.Short → Exact s ∅

/-- The slot in use holds a sector, just as the disk has it. -/
structure Loaded (lba : ℕ) (s : State) : Prop extends Coherent s where
  number : s.recentLba s.sector = lba
  same : s.Short → Same s s.sector lba

/-- The slot in use is numbered, and may hold what is only to be put there. -/
structure Holding (lba : ℕ) (s : State) : Prop where
  sector : s.sector < s.slots
  unused : ∀ i, s.slots ≤ i → s.recentLba i = 0
  number : s.recentLba s.sector = lba
  exact : s.Short → Exact s {s.sector}

/-- Coherent whatever a call returns. -/
abbrev kept {α : Type} : PostCond α (.except Err (.arg State .pure)) :=
  post⟨fun _ s => ⌜Coherent s⌝, fun _ s => ⌜Coherent s⌝⟩

theorem State.oldest_lt {s : State} (h : 0 < s.slots) : s.oldest < s.slots := by
  unfold State.oldest
  have hall : ∀ i ∈ List.range' 1 (s.slots - 1), i < s.slots := fun i hi => by
    rw [List.mem_range'_1] at hi
    omega
  generalize List.range' 1 (s.slots - 1) = l at hall
  generalize 0 = old at h
  induction l generalizing old with
  | nil => exact h
  | cons i l ih =>
    refine ih (fun j hj => hall j (List.mem_cons_of_mem i hj)) _ ?_
    simp only
    split_ifs
    · exact hall i List.mem_cons_self
    · exact h

theorem State.slotOf_some {s : State} {lba i : ℕ} (h : s.slotOf lba = some i) :
    i < s.slots ∧ s.recentLba i = lba ∧ lba ≠ 0 := by
  have h1 := List.find?_some h
  exact ⟨List.mem_range.1 (List.mem_of_find?_eq_some h), by simpa using h1⟩

theorem Loaded.holding {lba : ℕ} {s : State} (h : Loaded lba s) : Holding lba s :=
  ⟨h.sector, h.unused, h.number, fun hs i _ => h.exact hs i (Set.notMem_empty i)⟩

/-- A slot that is not numbered need not be what any sector is. -/
theorem Holding.coherent {s : State} (h : Holding 0 s) : Coherent s := by
  refine ⟨h.sector, h.unused, fun hs i _ hi => h.exact hs i ?_ hi⟩
  rintro rfl
  exact hi h.number

theorem Holding.edit {lba : ℕ} {s : State} (h : Holding lba s) (f : Store → Store) :
    Holding lba (s.edit f) := by
  refine ⟨h.sector, h.unused, h.number, fun hs i hi hne => ?_⟩
  obtain ⟨hlost, hsame⟩ := h.exact hs i hi hne
  refine ⟨hlost, fun x hx => ?_⟩
  have hi' : i ≠ s.sector := fun h' => hi h'
  change Function.update s.recent s.sector (f (s.recent s.sector)) i x = _
  rw [Function.update_of_ne hi']
  exact hsame x hx

/-- The slot used longest ago, emptied. -/
theorem Coherent.taken {s : State} (h : Coherent s) :
    Holding 0 ((s.number s.oldest 0).touch s.oldest) := by
  have hlt := s.oldest_lt (Nat.zero_lt_of_lt h.sector)
  refine ⟨hlt, fun i hi => ?_, Function.update_self _ _ _, fun hs i hi hne => ?_⟩
  · change s.slots ≤ i at hi
    change Function.update s.recentLba s.oldest 0 i = 0
    rw [Function.update_of_ne (by omega)]
    exact h.unused i hi
  · change i ∉ ({s.oldest} : Set ℕ) at hi
    change Function.update s.recentLba s.oldest 0 i ≠ 0 at hne
    change Same s i (Function.update s.recentLba s.oldest 0 i)
    rw [Function.update_of_ne (by simpa using hi)] at hne ⊢
    exact h.exact hs i (Set.notMem_empty i) hne

/-- The slot in use, numbered by the sector that was read into it. -/
theorem Holding.numbered {s : State} {lba : ℕ} (h : Holding 0 s) (hsame : Same s s.sector lba) :
    Loaded lba (s.number s.sector lba) := by
  have hself : (s.number s.sector lba).recentLba s.sector = lba := Function.update_self _ _ _
  refine ⟨⟨h.sector, fun i hi => ?_, fun hs i _ hne => ?_⟩, hself, fun _ => hsame⟩
  · change Function.update s.recentLba s.sector lba i = 0
    have := h.sector
    rw [Function.update_of_ne (by change s.slots ≤ i at hi; omega)]
    exact h.unused i hi
  · change Same s i (Function.update s.recentLba s.sector lba i)
    change Function.update s.recentLba s.sector lba i ≠ 0 at hne
    by_cases hi : i = s.sector
    · rw [hi, Function.update_self]
      exact hsame
    · rw [Function.update_of_ne hi] at hne ⊢
      exact h.exact hs i (by simpa using hi) hne

theorem Coherent.touched {s : State} {lba i : ℕ} (h : Coherent s) (hi : s.slotOf lba = some i) :
    Loaded lba (s.touch i) := by
  obtain ⟨hlt, hnum, hne⟩ := State.slotOf_some hi
  refine ⟨⟨hlt, h.unused, h.exact⟩, hnum, fun hs => ?_⟩
  have := h.exact hs i (Set.notMem_empty i) (by rwa [hnum])
  rwa [hnum] at this

/-- Emptied, the slot in use may hold anything. -/
theorem Holding.forgotten {s : State} {lba : ℕ} (h : Holding lba s) :
    Coherent (s.number s.sector 0) := by
  refine ⟨h.sector, fun i hi => ?_, fun hs i _ hne => ?_⟩
  · change Function.update s.recentLba s.sector 0 i = 0
    by_cases hi' : i = s.sector
    · rw [hi', Function.update_self]
    · rw [Function.update_of_ne hi']
      exact h.unused i hi
  · change Same s i (Function.update s.recentLba s.sector 0 i)
    change Function.update s.recentLba s.sector 0 i ≠ 0 at hne
    have hi : i ≠ s.sector := by
      rintro rfl
      exact hne (Function.update_self _ _ _)
    rw [Function.update_of_ne hi] at hne ⊢
    exact h.exact hs i (by simpa using hi) hne

/-- What `put` changes, whether it succeeds or fails: the run's slots are forgotten, and on the disk
the run alone. -/
structure PutDown (lba count : ℕ) (source : Option ℕ) (s s' : State) : Prop where
  slots : s'.slots = s.slots
  sector : s'.sector = s.sector
  recent : s'.recent = s.recent
  puts : s'.puts = s.puts ++ [(lba, count)]
  recentLba : s'.recentLba = (s.forgetRun lba count source).recentLba
  lost : ∀ l, l < lba ∨ lba + count ≤ l → s'.lost l = s.lost l
  keep : ∀ x, x < sectorSize * lba ∨ sectorSize * lba + sectorSize * count ≤ x →
    s'.disk x = s.disk x

namespace PutDown

variable {s s' : State} {lba count : ℕ} {source : Option ℕ} {but : Set ℕ}

theorem short (h : PutDown lba count source s s') (hs' : s'.Short) :
    lba + count < 2 ^ 32 ∧ s.Short := by
  unfold State.Short at hs' ⊢
  rw [h.puts] at hs'
  exact ⟨hs' (lba, count) (by simp), fun r hr => hs' r (List.mem_append_left _ hr)⟩

/-- A slot that is still numbered was numbered the same, and is not one of the run's others. -/
theorem numbered (h : PutDown lba count source s s')
    (hunused : ∀ i, s.slots ≤ i → s.recentLba i = 0) (hlast : lba + count < 2 ^ 32) {i : ℕ}
    (hi : s'.recentLba i ≠ 0) : s'.recentLba i = s.recentLba i ∧
      (source = some i ∨ s.recentLba i < lba ∨ lba + count ≤ s.recentLba i) := by
  rw [h.recentLba] at hi ⊢
  unfold State.forgetRun at hi ⊢
  simp only [u32_of_lt hlast] at hi ⊢
  split_ifs at hi ⊢ with hin
  · exact absurd rfl hi
  · refine ⟨rfl, ?_⟩
    have hslot : i < s.slots := by
      by_contra hge
      exact hi (hunused i (not_lt.1 hge))
    by_contra hno
    push Not at hno
    exact hin ⟨hslot, hno.2.1, hno.2.2, hno.1⟩

theorem unused (h : PutDown lba count source s s')
    (hunused : ∀ i, s.slots ≤ i → s.recentLba i = 0) :
    ∀ i, s'.slots ≤ i → s'.recentLba i = 0 := by
  intro i hi
  rw [h.slots] at hi
  rw [h.recentLba]
  unfold State.forgetRun
  simp only
  split_ifs
  · rfl
  · exact hunused i hi

/-- **Every slot is still what the disk has** but the one that is written, which was excepted. -/
theorem exact (h : PutDown lba count source s s') (hexact : s.Short → Exact s but)
    (hsource : ∀ i, source = some i → i ∈ but)
    (hunused : ∀ i, s.slots ≤ i → s.recentLba i = 0) : s'.Short → Exact s' but := by
  intro hs' i hi hne
  obtain ⟨hlast, hs⟩ := h.short hs'
  obtain ⟨hnum, hout⟩ := h.numbered hunused hlast hne
  rw [hnum] at hne ⊢
  obtain ⟨hlost, hsame⟩ := hexact hs i hi hne
  have hout : s.recentLba i < lba ∨ lba + count ≤ s.recentLba i :=
    hout.resolve_left fun hsrc => hi (hsource i hsrc)
  refine ⟨(h.lost _ hout).trans hlost, fun x hx => ?_⟩
  rw [h.recent, h.keep _ (by simp only [sectorSize] at hx ⊢; omega)]
  exact hsame x hx

end PutDown

/-! ### What each request keeps -/

@[spec]
theorem memAlloc_spec : ⦃fun s => ⌜Coherent s⌝⦄ memAlloc ⦃kept⦄ := by
  mvcgen [memAlloc]
  rename_i h
  exact ⟨h.sector, h.unused, h.exact⟩

/-- A sector read is a sector no write has failed for since. -/
theorem Exact.read {s : State} {but : Set ℕ} (h : Exact s but) (lba count : ℕ) (io : ℕ → Io) :
    Exact { s with
      lost := fun l => if lba ≤ l ∧ l < lba + count then false else s.lost l
      io := io } but := by
  intro i hi hne
  obtain ⟨hlost, hsame⟩ := h i hi hne
  refine ⟨?_, hsame⟩
  change (if _ then false else s.lost (s.recentLba i)) = false
  split_ifs
  · rfl
  · exact hlost

@[spec]
theorem ataReadMany_spec (lba count : ℕ) :
    ⦃fun s => ⌜Coherent s⌝⦄ ataReadMany lba count ⦃kept⦄ := by
  mvcgen [ataReadMany]
  case vc2.isFalse.isTrue s h _ _ => exact ⟨h.sector, h.unused, h.exact⟩
  case vc3.isFalse.isFalse s h _ _ =>
    exact ⟨h.sector, h.unused, fun hs => (h.exact hs).read lba count _⟩

@[spec]
theorem setHead_spec (f : Header → Header) : ⦃fun s => ⌜Coherent s⌝⦄ setHead f ⦃kept⦄ := by
  mvcgen [setHead] with rename_i h _
  exact ⟨h.sector, h.unused, h.exact⟩

@[spec]
theorem setHeldTable_spec (held : Bool) :
    ⦃fun s => ⌜Coherent s⌝⦄ setHeldTable held ⦃kept⦄ := by
  mvcgen [setHeldTable] with rename_i h _
  exact ⟨h.sector, h.unused, h.exact⟩

@[spec]
theorem setCwd_spec (dir : Name) : ⦃fun s => ⌜Coherent s⌝⦄ setCwd dir ⦃kept⦄ := by
  mvcgen [setCwd] with rename_i h _
  exact ⟨h.sector, h.unused, h.exact⟩

@[spec]
theorem readSector_spec (lba : ℕ) : ⦃fun s => ⌜Holding 0 s⌝⦄ readSector lba
    ⦃post⟨fun _ s => ⌜Holding 0 s ∧ Same s s.sector lba⌝, fun _ s => ⌜Coherent s⌝⟩⦄ := by
  mvcgen [readSector, ataReadMany, editSector]
  case vc1.isTrue.isTrue s h _ _ _ =>
    have hio : Holding 0 { s with io := fun n => s.io (n + 1) } :=
      ⟨h.sector, h.unused, h.number, h.exact⟩
    exact (hio.edit fun _ => (s.io 0).junk).coherent
  case vc4.isFalse.isFalse s h _ _ _ =>
    have hio : Holding 0 { s with
        lost := fun l => if lba ≤ l ∧ l < lba + 1 then false else s.lost l
        io := fun n => s.io (n + 1) } :=
      ⟨h.sector, h.unused, h.number, fun hs => (h.exact hs).read lba 1 _⟩
    refine ⟨hio.edit fun _ i => s.disk (sectorSize * lba + i), if_pos (by omega), fun x _ => ?_⟩
    exact congrFun (Function.update_self s.sector (fun i => s.disk (sectorSize * lba + i)) s.recent) x

/-- **`load_sector` gives the disk's bytes**, or fails. -/
@[spec]
theorem loadSector_spec (lba : ℕ) : ⦃fun s => ⌜Coherent s⌝⦄ loadSector lba
    ⦃post⟨fun _ s => ⌜Loaded lba s⌝, fun _ s => ⌜Coherent s⌝⟩⦄ := by
  mvcgen [loadSector, takeSlot]
  case vc1.h_1 s h i hi => exact h.touched hi
  case vc2.h_2.pre s h _ _ => exact h.taken
  case vc3.h_2.post.success _ _ _ _ _ s h _ => exact h.1.numbered h.2

/-- What `put` does. -/
theorem put_putDown (lba count : ℕ) (data : Store) (source : Option ℕ) (s0 : State) :
    ⦃fun s => ⌜s = s0⌝⦄ put lba count data source
    ⦃post⟨fun _ s => ⌜PutDown lba count source s0 s ∧
        (∀ l, lba ≤ l → l < lba + count → s.lost l = false) ∧
        s.disk = blit s0.disk (sectorSize * lba) (sectorSize * count) data⌝,
      fun _ s => ⌜PutDown lba count source s0 s⌝⟩⦄ := by
  mvcgen [put, ataWriteMany]
  case vc1.isTrue s h _ _ _ =>
    subst h
    exact ⟨rfl, rfl, rfl, rfl, rfl, fun _ _ => rfl, fun _ _ => rfl⟩
  case vc2.isFalse.isTrue s h _ _ _ _ =>
    subst h
    exact ⟨rfl, rfl, rfl, rfl, rfl, fun l hl => if_neg (by omega),
      fun x hx => blit_of_notMem (by omega)⟩
  case vc3.isFalse.isFalse s h _ _ _ hok =>
    subst h
    refine ⟨⟨rfl, rfl, rfl, rfl, rfl, fun l hl => if_neg (by omega),
      fun x hx => blit_of_notMem (by omega)⟩, fun l hl hl' => ?_, ?_⟩
    · exact (if_pos ⟨hl, hl'⟩).trans (Bool.eq_false_iff.2 hok)
    · rw [if_neg hok]
      rfl

theorem Coherent.putDown {s s' : State} {lba count : ℕ} (h : Coherent s)
    (hp : PutDown lba count none s s') : Coherent s' := by
  refine ⟨?_, hp.unused h.unused, hp.exact h.exact (fun i hi => by cases hi) h.unused⟩
  rw [hp.sector, hp.slots]
  exact h.sector

theorem Holding.putDown {s s' : State} {lba l count : ℕ} (h : Holding lba s)
    (hp : PutDown l count (some s.sector) s s') : Holding lba s' := by
  refine ⟨?_, hp.unused h.unused, ?_, ?_⟩
  · rw [hp.sector, hp.slots]
    exact h.sector
  · rw [hp.sector, hp.recentLba]
    unfold State.forgetRun
    simp [h.number]
  · rw [hp.sector]
    exact hp.exact h.exact (fun i hi => (Option.some.inj hi).symm) h.unused

/-- What is in the slot in use is on the disk. -/
theorem Holding.same {s : State} {lba : ℕ} (h : Holding lba s) (hsame : Same s s.sector lba) :
    Coherent s := by
  refine ⟨h.sector, h.unused, fun hs i _ hne => ?_⟩
  by_cases hi : i = s.sector
  · rw [hi, h.number]
    exact hsame
  · exact h.exact hs i hi hne

/-- **A run put down from memory of its own** leaves no slot with what the disk had before. -/
@[spec]
theorem put_spec (lba count : ℕ) (data : Store) :
    ⦃fun s => ⌜Coherent s⌝⦄ put lba count data none ⦃kept⦄ := by
  mvcgen [put_putDown]
  case vc1.post.success s h _ s' => exact fun hp _ _ => h.putDown hp
  case vc2.post.except.handle s h _ s' => exact fun hp => h.putDown hp

/-- A sector put together in a slot of no number, put down. -/
@[spec]
theorem putSector_spec (lba : ℕ) : ⦃fun s => ⌜Holding 0 s⌝⦄ putSector lba ⦃kept⦄ := by
  mvcgen [putSector, put_putDown]
  case vc1.post.success s h _ s' => exact fun hp _ _ => (h.putDown hp).coherent
  case vc2.post.except.handle s h _ s' => exact fun hp => (h.putDown hp).coherent

/-- **A sector edited in its slot, put down where it is from.** -/
@[spec]
theorem putHeld_spec (lba : ℕ) : ⦃fun s => ⌜Holding lba s⌝⦄ putHeld lba ⦃kept⦄ := by
  mvcgen [putHeld, putSector, put_putDown, forget]
  case vc1.post.success s h _ s' =>
    intro hp hlost hdisk
    refine (h.putDown hp).same ⟨hlost lba le_rfl (by omega), fun x hx => ?_⟩
    rw [hdisk, hp.recent, hp.sector, blit_of_mem (by omega) (by omega), Nat.add_sub_cancel_left]
  case vc2.post.except.handle s h _ s' hp _ => exact (h.putDown hp).forgotten

@[spec]
theorem fsCache_spec (slow : Bool) (page : ℕ → Store) :
    ⦃fun s => ⌜Coherent s⌝⦄ fsCache slow page ⦃kept⦄ := by
  have hpos : 0 < if slow = true then recentMax else recentFew := by cases slow <;> decide
  mvcgen [fsCache]
  all_goals exact ⟨hpos, fun _ _ => rfl, fun _ i _ hne => absurd rfl hne⟩

/-- What a specification says of a call, from a state its precondition holds of. -/
theorem run_of_spec {α : Type} {c : Call α} {P : State → Prop} {Q : α → State → Prop}
    {R : Err → State → Prop} {s : State}
    (h : ⦃fun s => ⌜P s⌝⦄ c ⦃post⟨fun a s => ⌜Q a s⌝, fun e s => ⌜R e s⌝⟩⦄) (hs : P s) :
    match c.run.run s with
    | (.ok a, s') => Q a s'
    | (.error e, s') => R e s' := by
  have hpost := h s hs
  simp only [WP.wp, PredTrans.apply_pushExcept, PredTrans.apply_pushArg] at hpost
  cases hc : c.run.run s with
  | mk r s' =>
    simp only [hc, Id.run] at hpost
    cases r with
    | ok a => exact hpost
    | error e => exact hpost

end BaxOS.Fs.Recent
