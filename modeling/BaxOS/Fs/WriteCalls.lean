import BaxOS.Fs.Spliced

/-!
# `write` and `pwrite64` into a file

A program's position in a file and the offset it gives to `pwrite64` are numbers of their own;
`fs_write_at` takes 32 bits of them, and a size of 2 GiB or more marks a link. Where the bytes end
below 2 GiB a write that reports success did what it says: the bytes lie at their offsets, the size
is the larger of the old one and where they end, and every sector put down is one of the file's
(`run_writtenExactly`). Past that it reports success all the same (`exists_not_writtenExactly`).
-/

namespace BaxOS.Fs
open ByteStore Extents Runs Splices

/-! ### The system calls -/

/-- `EIO`, `EFAULT`, `EINVAL`. -/
inductive Errno
  | eio
  | efault
  | einval
  deriving DecidableEq

/-- A file open for writing: the name `write_name` gives, and `offset` and `size` of `struct ofd`.
One whose name has been deleted is memory, and not a file any more. -/
structure Handle where
  name : CString
  offset : ℕ
  size : ℕ
  offset_lt : offset < 2 ^ 32
  size_lt : size < 2 ^ 32

/-- The position set. -/
def Handle.seek (h : Handle) (n : ℕ) : Handle := { h with offset := u32 n, offset_lt := u32_lt n }

/-- The size set. -/
def Handle.grow (h : Handle) (n : ℕ) : Handle := { h with size := u32 n, size_lt := u32_lt n }

/-- `write_to`, into a file. -/
def writeTo (s : State) (h : Handle) (data : List UInt8) : Except Errno ℕ × Handle × State :=
  match fsWriteAt s h.name.chars h.offset data with
  | (.error _, s) => (.error .eio, h, s)
  | (.ok (), s) =>
    let h := h.seek (h.offset + u32 data.length)
    (.ok data.length, if h.size < h.offset then h.grow h.offset else h, s)

/-- `sys_write`. `text` is what the program has there, `none` where it is not the program's own. -/
def sysWrite (s : State) (h : Handle) (text : Option (List UInt8)) :
    Except Errno ℕ × Handle × State :=
  match text with
  | none => (.error .efault, h, s)
  | some data => writeTo s h data

/-- `sys_pwrite64`. -/
def sysPwrite64 (s : State) (h : Handle) (text : Option (List UInt8)) (offset : ℕ) :
    Except Errno ℕ × Handle × State :=
  match text with
  | none => (.error .efault, h, s)
  | some data =>
    match fsWriteAt s h.name.chars (u32 offset) data with
    | (.error _, s) => (.error .eio, h, s)
    | (.ok (), s) =>
      let past := (offset + data.length) % 2 ^ 64
      (.ok data.length, if h.size < past then h.grow past else h, s)

/-- A call that writes into a file. -/
inductive WriteCall
  | write (text : Option (List UInt8))
  | pwrite64 (text : Option (List UInt8)) (offset : ℕ)

namespace WriteCall

/-- The call made. -/
def exec (s : State) (h : Handle) : WriteCall → Except Errno ℕ × Handle × State
  | write text => sysWrite s h text
  | pwrite64 text offset => sysPwrite64 s h text offset

/-- Where in the file the program asked to write. -/
def position (h : Handle) : WriteCall → ℕ
  | write _ => h.offset
  | pwrite64 _ offset => offset

/-- What the program asked to write. -/
def text : WriteCall → Option (List UInt8)
  | write text => text
  | pwrite64 text _ => text

/-- A call that succeeds is `fs_write_at` with 32 bits of the position. -/
theorem exec_ok {s : State} {h : Handle} {call : WriteCall} {data : List UInt8} {k : ℕ}
    (htext : call.text = some data) (hok : (call.exec s h).1 = .ok k) :
    fsWriteAt s h.name.chars (u32 (call.position h)) data = (.ok (), (call.exec s h).2.2) := by
  cases call with
  | write text =>
    obtain rfl : text = some data := htext
    change (writeTo s h data).1 = .ok k at hok
    change fsWriteAt s h.name.chars (u32 h.offset) data = (.ok (), (writeTo s h data).2.2)
    unfold writeTo at hok ⊢
    rw [u32_of_lt h.offset_lt]
    generalize fsWriteAt s h.name.chars h.offset data = x at hok ⊢
    obtain ⟨r, s'⟩ := x
    cases r with
    | error e => cases hok
    | ok u => rfl
  | pwrite64 text offset =>
    obtain rfl : text = some data := htext
    change (sysPwrite64 s h (some data) offset).1 = .ok k at hok
    change fsWriteAt s h.name.chars (u32 offset) data =
      (.ok (), (sysPwrite64 s h (some data) offset).2.2)
    unfold sysPwrite64 at hok ⊢
    simp only at hok ⊢
    generalize fsWriteAt s h.name.chars (u32 offset) data = x at hok ⊢
    obtain ⟨r, s'⟩ := x
    cases r with
    | error e => cases hok
    | ok u => rfl

end WriteCall

/-! ### What `fs_write_at` puts down -/

/-- Sectors put down one run after another. -/
inductive Puts : List Run → State → State → Prop
  | nil (s : State) : Puts [] s s
  | cons {s s' : State} {lba count : ℕ} {runs : List Run} (data : Store)
      (h : Puts runs (put s lba count data) s') : Puts ((lba, count) :: runs) s s'

/-- The runs `layData` puts down. -/
def layPuts (start offset len : ℕ) : ℕ → ℕ → List Run
  | 0, _ => []
  | fuel + 1, done =>
    if done < len then
      let at_ := u32 ((offset + done) / sectorSize)
      let into := (offset + done) % sectorSize
      let whole := if into = 0 then (len - done) / sectorSize else 0
      if 0 < whole then
        (u32 (start + at_), u32 whole) :: layPuts start offset len fuel (done + sectorSize * whole)
      else
        (u32 (start + at_), 1) ::
          layPuts start offset len fuel (done + min (len - done) (sectorSize - into))
    else []

/-- The runs `moveSectors` puts down. -/
def movePuts (step dst count : ℕ) : ℕ → ℕ → List Run
  | 0, _ => []
  | fuel + 1, i =>
    if i < count then
      (u32 (dst + i), min step (count - i)) :: movePuts step dst count fuel (i + step)
    else []

/-- The runs `moveFile` puts down. -/
def moveFilePuts (start held room offset : ℕ) : List Run :=
  let gap := gapEnd held offset
  if (room ≠ start ∧ 0 < held) ∨ held < gap then
    movePuts moveRun room gap gap (if room ≠ start then 0 else held)
  else []

/-- The runs of data `fs_write_at` puts down in a file. -/
def writeAtPuts (s : State) (file : Slot) (offset : ℕ) (data : List UInt8) : List Run :=
  if data.length = 0 then []
  else
    let past := u32 (offset + u32 data.length)
    let past := if past < file.size then file.size else past
    let held := sectorsFor file.size
    let need := sectorsFor past
    if held < need then
      let room := (allocate s need (some file)).1
      moveFilePuts file.start held room offset ++ layPuts room offset data.length data.length 0
    else layPuts file.start offset data.length data.length 0

/-! ### Inside the file's run -/

/-- The data goes down from its first sector to its last. -/
theorem layPuts_inside {start offset len need : ℕ} (hn : offset + len ≤ 512 * need)
    (hlt : start + need < 2 ^ 32) {fuel done : ℕ} {r : Run}
    (hr : r ∈ layPuts start offset len fuel done) : start ≤ r.1 ∧ r.1 + r.2 ≤ start + need := by
  induction fuel generalizing done with
  | zero => exact absurd hr List.not_mem_nil
  | succ fuel ih =>
    unfold layPuts at hr
    by_cases hdone : done < len
    swap
    · rw [if_neg hdone] at hr
      exact absurd hr List.not_mem_nil
    rw [if_pos hdone] at hr
    have hat : u32 ((offset + done) / sectorSize) = (offset + done) / 512 := by
      refine u32_of_lt ?_
      simp only [sectorSize]
      omega
    simp only [hat] at hr
    rw [u32_of_lt (n := start + (offset + done) / 512) (by omega)] at hr
    generalize hwhole : (if (offset + done) % sectorSize = 0 then (len - done) / sectorSize
      else 0) = whole at hr
    by_cases hw : 0 < whole
    · rw [if_pos hw] at hr
      rcases List.mem_cons.1 hr with rfl | hr
      · have hmul : 512 * whole ≤ len - done ∧ (offset + done) % 512 = 0 := by
          split_ifs at hwhole with h0
          · simp only [sectorSize] at hwhole h0
            omega
          · omega
        simp only
        rw [u32_of_lt (by omega)]
        omega
      · exact ih hr
    · rw [if_neg hw] at hr
      rcases List.mem_cons.1 hr with rfl | hr
      · simp only
        omega
      · exact ih hr

theorem movePuts_inside {step dst count : ℕ} (hlt : dst + count < 2 ^ 32) {fuel i : ℕ} {r : Run}
    (hr : r ∈ movePuts step dst count fuel i) : dst ≤ r.1 ∧ r.1 + r.2 ≤ dst + count := by
  induction fuel generalizing i with
  | zero => exact absurd hr List.not_mem_nil
  | succ fuel ih =>
    unfold movePuts at hr
    by_cases hi : i < count
    · rw [if_pos hi, u32_of_lt (by omega)] at hr
      rcases List.mem_cons.1 hr with rfl | hr
      · simp only
        omega
      · exact ih hr
    · rw [if_neg hi] at hr
      exact absurd hr List.not_mem_nil

/-- A file's move stays in the sectors it has then. -/
theorem moveFilePuts_inside {start held room offset need : ℕ} (hlt : room + need < 2 ^ 32)
    (hgap : gapEnd held offset ≤ need) {r : Run}
    (hr : r ∈ moveFilePuts start held room offset) : room ≤ r.1 ∧ r.1 + r.2 ≤ room + need := by
  unfold moveFilePuts at hr
  simp only at hr
  split_ifs at hr
  · have := movePuts_inside (by omega) hr
    omega
  · have := movePuts_inside (by omega) hr
    omega
  · exact absurd hr List.not_mem_nil

/-- **What is put down is the file's.** -/
theorem WrittenAt.puts_inside {s s' : State} {path name : Name} {file : Slot} {offset : ℕ}
    {data : List UInt8} (h : WrittenAt s path offset data s' (.ok ())) (hs : Layout s)
    (hres : resolve s path true = .ok name) (hf : find s name = some file) {r : Run}
    (hr : r ∈ writeAtPuts s file offset data) : (entryOf s' file.index).start ≤ r.1 ∧
      r.1 + r.2 ≤ (entryOf s' file.index).start + sectorsFor (newSize file offset data) := by
  cases h with
  | nothing h =>
    subst h
    exact absurd hr List.not_mem_nil
  | laid name' file' s2 s3 s4 start hres' hf' hne hlen hsize hplaced heq hst hen hs4 =>
    obtain rfl : name = name' := Except.ok.inj (hres.symm.trans hres')
    obtain rfl : file = file' := Option.some.inj (hf.symm.trans hf')
    obtain ⟨hok, -⟩ := find_sound hs hf
    have hself : (entryOf (saveHeader s4) file.index).start = start := by
      have hlt : file.index < s4.head.tableSize := by
        rw [hen.head, hst.tableSize]
        exact hok.1.1.trans_le hs.next_le
      rw [(saveHeader_sameRuns hs4).entries _ hlt, hen.entry_self]
    rw [hself]
    have hpos := List.length_pos_of_ne_nil hne
    have hneed := needSectors_eq hlen hsize
    have hmax : max (sectorsFor file.size) (sectorsFor (newSize file offset data)) =
        sectorsFor (newSize file offset data) := by
      rw [hneed, sectorsFor_eq (by omega)]
      unfold newSize
      omega
    have hdata := data_le_need hlen hsize
    have hgap := gapEnd_le hne hlen hsize
    rw [hmax] at hdata hgap
    unfold writeAtPuts at hr
    rw [if_neg (by omega)] at hr
    simp only [end_eq hlen] at hr
    have hready := hplaced.ready hs hok hsize (by rw [hneed]; unfold newSize; omega)
      (by rw [hmax]; exact hgap)
    have hin := hready.inside.2
    have hde := hready.still.dataEnd_le
    have hds := hready.still.disk
    have hd := hs.disk_lt
    rw [hmax] at hin
    have hlt : start + sectorsFor (newSize file offset data) < 2 ^ 32 := by omega
    cases hplaced with
    | stays h =>
      rw [if_neg (by omega)] at hr
      exact layPuts_inside hdata hlt hr
    | moves s1 _ _ h hall hgot hmove =>
      rw [if_pos h, hall] at hr
      rcases List.mem_append.1 hr with hr | hr
      · exact moveFilePuts_inside hlt hgap hr
      · exact layPuts_inside hdata hlt hr

/-! ### What a write is for -/

/-- **A write did what it said**: the bytes lie at their offsets in file `i`, its size is the larger
of the old one and where they end and marks no link, and the sectors put down are the file's. -/
structure WrittenExactly (s s' : State) (i position : ℕ) (data : List UInt8) (puts : List Run) :
    Prop where
  spliced : Spliced s s' i position data
  regular : isLink (entryOf s' i).size = false
  inside : ∀ r ∈ puts, (entryOf s' i).start ≤ r.1 ∧
    r.1 + r.2 ≤ (entryOf s' i).start + sectorsFor (entryOf s' i).size

/-- The file is no link, and the bytes end below 2 GiB; no bytes at all are not past its end. -/
def WriteFits (file : Slot) (position : ℕ) (data : List UInt8) : Prop :=
  isLink file.size = false ∧
    if data = [] then position ≤ file.size else position + data.length < fsLink

/-- Where the file grows, its new run is found safely. -/
def GrowsRoomy (s : State) (file : Slot) (position : ℕ) (data : List UInt8) : Prop :=
  sectorsFor file.size < sectorsFor (newSize file position data) →
    Roomy s (sectorsFor (newSize file position data)) (some file)

/-- Nothing spliced in changes nothing. -/
theorem Spliced.nothing {s : State} {file : Slot} {position : ℕ} (hok : SlotOk s file)
    (hsize : file.size < 2 ^ 31) (hle : position ≤ file.size) :
    Spliced s s file.index position [] where
  live _ := Iff.rfl
  name := rfl
  size := by
    rw [hok.2.2]
    simpa using hle
  bytes := by
    have hlen : (fileBytes s file.index).length = file.size := by
      simp [fileBytes, sectorBytes, hok.2.2, bytesOf_of_lt hsize]
    unfold splice
    rw [List.takeD_eq_take _ (by omega)]
    simp
  others _ _ _ := ⟨rfl, rfl⟩

/-- **A write that reports success did what it said exactly where the bytes end below 2 GiB**, after
every run from a new filesystem of 22 sectors or more whose allocations all find room safely, where
its own does too. -/
theorem run_writtenExactly {n : ℕ} {s : State} {ops : List Op} {h : Handle} {call : WriteCall}
    {data : List UInt8} {k : ℕ} {name : Name} {file : Slot} (hs : Formatted n s) (hn : 22 ≤ n)
    (hops : Along OpRoomy (fun s op => (exec s op).2) s ops) (htext : call.text = some data)
    (hok : (call.exec (run s ops) h).1 = .ok k)
    (hres : resolve (run s ops) h.name.chars true = .ok name)
    (hf : find (run s ops) name = some file)
    (hroom : GrowsRoomy (run s ops) file (call.position h) data) :
    WrittenExactly (run s ops) (call.exec (run s ops) h).2.2 file.index (call.position h) data
      (writeAtPuts (run s ops) file (u32 (call.position h)) data) ↔
      WriteFits file (call.position h) data := by
  have hcall := call.exec_ok htext hok
  generalize (call.exec (run s ops) h).2.2 = s' at hcall ⊢
  obtain ⟨hl, hc, -⟩ := run_padded (hs.layout hn) hs.cwdOk hs.padded hops
  have hslot := (find_sound hl hf).1
  generalize hp : call.position h = position at hcall hroom ⊢
  have hnothing : data = [] → s' = run s ops := by
    rintro rfl
    unfold fsWriteAt at hcall
    rw [hres] at hcall
    simp only [hf] at hcall
    exact (Prod.mk.inj hcall).2.symm
  constructor
  · intro hw
    have hsize := hw.spliced.size
    have hreg := isLink_eq_false.1 hw.regular
    rw [hslot.2.2] at hsize
    rw [hsize] at hreg
    refine ⟨isLink_eq_false.2 ((le_max_left _ _).trans_lt hreg), ?_⟩
    split_ifs with hnil
    · rw [hnothing hnil, hslot.2.2, hnil] at hsize
      simpa using hsize
    · exact (le_max_right _ _).trans_lt hreg
  · rintro ⟨hreg, hfits⟩
    have hsize := isLink_eq_false.1 hreg
    by_cases hnil : data = []
    · rw [if_pos hnil] at hfits
      obtain rfl := hnothing hnil
      subst hnil
      refine ⟨Spliced.nothing hslot hsize hfits, ?_, fun r hr => absurd hr List.not_mem_nil⟩
      rw [hslot.2.2]
      exact hreg
    · rw [if_neg hnil] at hfits
      simp only [fsLink] at hfits
      rw [u32_of_lt (by omega)] at hcall ⊢
      have hroomy : OpRoomy (run s ops) (.writeAt h.name position data) := by
        intro name' file' hres' hf' _
        obtain rfl : name = name' := Except.ok.inj (hres.symm.trans hres')
        obtain rfl : file = file' := Option.some.inj (hf.symm.trans hf')
        exact ⟨by omega, hsize, hroom⟩
      have hwritten := fsWriteAt_spec hl hroomy hcall
      have hexec : exec (run s ops) (.writeAt h.name position data) = (.ok (), s') := hcall
      have hspliced := run_spliced hs hn hops hroomy hres hf hnil hfits (by rw [hexec])
      rw [hexec] at hspliced
      have hnew : (entryOf s' file.index).size = newSize file position data := by
        rw [hspliced.size, hslot.2.2]
        rfl
      refine ⟨hspliced, ?_, fun r hr => ?_⟩
      · rw [hnew, isLink_eq_false]
        unfold newSize
        omega
      · rw [hnew]
        exact hwritten.puts_inside hl hres hf hr

/-- A file of one byte. -/
def oneByteRun : List Op := [.write (letter 0x66 letterF_ne_zero) [0]]

/-- It is open, with the position past its end. -/
def oneByteHandle : Handle := ⟨letter 0x66 letterF_ne_zero, 2, 1, by norm_num, by norm_num⟩

/-- A byte written past the end. -/
theorem run_writtenExactly_past :
    WrittenExactly (run (newDisk 102) oneByteRun)
      ((WriteCall.write (some [5])).exec (run (newDisk 102) oneByteRun) oneByteHandle).2.2 0 2 [5]
      (writeAtPuts (run (newDisk 102) oneByteRun) ⟨0, 22, 1⟩ (u32 2) [5]) :=
  (@run_writtenExactly 102 (newDisk 102) oneByteRun oneByteHandle (.write (some [5])) [5] 1 [0x66]
    ⟨0, 22, 1⟩ (newDisk_formatted (by norm_num)) (by norm_num) ⟨comeAndGo_whole.1.1, trivial⟩ rfl
    (by decide) (by decide) (by decide)
    fun hlt => absurd hlt (by decide)).2 ⟨by decide, by decide⟩

/-- **A byte for 4 GiB on goes to the start of the file**, and the call reports success. -/
theorem exists_not_writtenExactly : ∃ n s ops, ∃ h : Handle, ∃ call : WriteCall,
    ∃ data k name file, Formatted n s ∧ 22 ≤ n ∧ (∀ i, s.mem i = true) ∧ Along OpWhole (fun s op => (exec s op).2) s ops ∧
    call.text = some data ∧ (call.exec (run s ops) h).1 = Except.ok k ∧
    resolve (run s ops) h.name.chars true = .ok name ∧ find (run s ops) name = some file ∧
    isLink file.size = false ∧
    ¬ WrittenExactly (run s ops) (call.exec (run s ops) h).2.2 file.index (call.position h) data
      (writeAtPuts (run s ops) file (u32 (call.position h)) data) := by
  refine ⟨102, newDisk 102, oneByteRun, oneByteHandle, .pwrite64 (some [5]) (2 ^ 32), [5], 1, [0x66],
    ⟨0, 22, 1⟩, newDisk_formatted (by norm_num), by norm_num, fun _ => rfl,
    ⟨comeAndGo_whole.1, trivial⟩, rfl, by decide, by decide, by decide,
    by decide, fun hw => ?_⟩
  have hsize := hw.spliced.size
  have hstored : (entryOf ((WriteCall.pwrite64 (some [5]) (2 ^ 32)).exec
      (run (newDisk 102) oneByteRun) oneByteHandle).2.2 0).size = 1 := by decide
  have hle := (le_max_right _ _).trans_eq hsize.symm
  rw [hstored] at hle
  revert hle
  simp [WriteCall.position]

end BaxOS.Fs
